import MipsLab.Lowering
import MipsLab.Machine.Execute

set_option autoImplicit false

/-!
# Words from halves

An instruction has room for half a word. This module says which words the extensions of a half
give, that the two halves of a word can be put together in the two ways that instructions have, and
that a branch goes to the address that its offset was computed from.
-/

namespace MipsLab

open Lowering

/-! ## Extensions of a half -/

theorem Word.ofInt_toInt (w : Word) : Word.ofInt w.toInt = w := BitVec.ofInt_toInt

theorem Word.ofInt_toNat (w : Word) : Word.ofInt w.toNat = w := by
  rw [Word.ofInt, BitVec.ofInt_natCast, BitVec.ofNat_toNat, BitVec.setWidth_eq]

theorem Word.ofInt_neg (n : Int) : Word.ofInt (-n) = -Word.ofInt n := BitVec.ofInt_neg

theorem toNat_append_zero (h : Half) : (h ++ 0#16 : Word).toNat = h.toNat * 65536 := by
  rw [BitVec.toNat_append]
  simp [Nat.shiftLeft_eq]

theorem toNat_signExtend_half (h : Half) :
    (h.signExtend 32).toNat = if h.toNat < 32768 then h.toNat else h.toNat + 4294901760 := by
  rw [BitVec.toNat_signExtend, BitVec.msb_eq_decide]
  have hh := h.isLt
  by_cases hlt : h.toNat < 32768
  · have hmsb : ¬ 2 ^ (16 - 1) ≤ h.toNat := by omega
    rw [decide_eq_false hmsb, if_pos hlt, if_neg Bool.false_ne_true, BitVec.toNat_setWidth]
    omega
  · have hmsb : 2 ^ (16 - 1) ≤ h.toNat := by omega
    rw [decide_eq_true hmsb, if_neg hlt, if_pos rfl, BitVec.toNat_setWidth]
    omega

/-- The sign extension of the field that holds a number is the number, if it fits. -/
theorem signExtend_half {n : Int} (h : FitsSigned16 n) : (half n).signExtend 32 = Word.ofInt n := by
  obtain ⟨hlow, hhigh⟩ := h
  apply BitVec.eq_of_toInt_eq
  rw [half, Word.ofInt, BitVec.toInt_signExtend_of_le (by decide), BitVec.toInt_ofInt,
    BitVec.toInt_ofInt, Int.bmod_eq_of_le (by omega) (by omega),
    Int.bmod_eq_of_le (by omega) (by omega)]

/-- The zero extension of the field that holds a number is the number, if it fits. -/
theorem setWidth_half {n : Int} (h : FitsUnsigned16 n) : (half n).setWidth 32 = Word.ofInt n := by
  obtain ⟨hlow, hhigh⟩ := h
  apply BitVec.eq_of_toNat_eq
  rw [half, Word.ofInt, BitVec.toNat_setWidth, BitVec.toNat_ofInt, BitVec.toNat_ofInt]
  omega

/-! ## The halves of a word -/

/-- The upper half with the lower one put into the bits that it leaves clear is the word. -/
theorem high_or_low (w : Word) :
    (AddressPart.high.of w ++ 0#16 : Word) ||| (AddressPart.low.of w).setWidth 32 = w := by
  unfold AddressPart.of
  ext i hi
  simp
  grind

/-- The rounded upper half with the sign-extended lower one added is the word. -/
theorem highRounded_add_low (w : Word) :
    (AddressPart.highRounded.of w ++ 0#16 : Word) + (AddressPart.low.of w).signExtend 32 = w := by
  apply BitVec.eq_of_toNat_eq
  -- a lower half that is read as negative takes back what rounding the upper one added
  rw [BitVec.toNat_add, toNat_append_zero, toNat_signExtend_half]
  simp only [AddressPart.of, BitVec.extractLsb'_toNat, BitVec.toNat_add, BitVec.toNat_ofNat,
    Nat.shiftRight_eq_div_pow]
  have hw := w.isLt
  split <;> omega

/-! ## Branches -/

/-- A branch goes to the address that its offset was computed from. -/
theorem branchTarget_of_branchOffset? {pc target : Word} {offset : Half}
    (h : SymbolicInstr.branchOffset? pc target = some offset) :
    Machine.branchTarget (pc + 4) offset = target := by
  unfold SymbolicInstr.branchOffset? at h
  dsimp only at h
  split at h
  case isFalse => cases h
  case isTrue hfits =>
    obtain ⟨hmod, hlow, hhigh⟩ := hfits
    cases h
    have hnext := (pc + 4).isLt
    have htarget := target.isLt
    -- the distance fits, so the field extends to it again, and four times it is the way back
    generalize hd : ((target.toNat : Int) - ((pc + 4).toNat : Int)) / 4 = d at *
    have hextend : (BitVec.ofInt 16 d).signExtend 32 = Word.ofInt d := signExtend_half ⟨hlow, hhigh⟩
    unfold Machine.branchTarget
    rw [hextend]
    apply BitVec.eq_of_toNat_eq
    rw [BitVec.toNat_add, BitVec.toNat_shiftLeft, Word.ofInt, BitVec.toNat_ofInt, Nat.shiftLeft_eq]
    omega

end MipsLab
