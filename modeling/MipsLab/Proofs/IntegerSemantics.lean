import Mathlib.Algebra.Group.Int.Defs
import MipsLab.Proofs.Effect
import MipsLab.Proofs.Halves
import MipsLab.Proofs.Ranges
import MipsLab.Proofs.Resolution

set_option autoImplicit false

/-!
# Instructions as operations on integers

What an instruction does is said here once more, by the signed and unsigned integers that words stand
for and without operations on bits (`Instr.meaning?`): exact sums and products, quotients and remainders,
multiplication by and division by powers of two, and little-endian numbers in memory. One step of the
machine does exactly that (`Machine.step_meaning`).
-/

namespace MipsLab

/-! ## The operations -/

/-- An exact signed result, if a word can hold it. -/
def signed? (n : Int) : Option Int := if -2147483648 ≤ n ∧ n < 2147483648 then some n else none

/-- The number that stands for a truth value. -/
def flag (p : Prop) [Decidable p] : Int := if p then 1 else 0

/-- The result of an operation on two words, or `none` if it overflows. -/
def AluOp.value? (a b : Word) : AluOp → Option Int
  | add => signed? (a.toInt + b.toInt)
  | addu => some (a.toNat + b.toNat)
  | sub => signed? (a.toInt - b.toInt)
  | subu => some (a.toNat - b.toNat)
  | and => some ((a.toNat &&& b.toNat : Nat) : Int)
  | or => some ((a.toNat ||| b.toNat : Nat) : Int)
  | xor => some ((a.toNat ^^^ b.toNat : Nat) : Int)
  | nor => some (4294967295 - (a.toNat ||| b.toNat : Nat))
  | slt => some (flag (a.toInt < b.toInt))
  | sltu => some (flag (a.toNat < b.toNat))

/-- The result of an operation on a word and an immediate, or `none` if it overflows. The immediate of
an unsigned comparison is extended by its sign and then read as unsigned. -/
def ImmOp.value? (a : Word) (imm : Half) : ImmOp → Option Int
  | addi => signed? (a.toInt + imm.toInt)
  | addiu => some (a.toNat + imm.toInt)
  | slti => some (flag (a.toInt < imm.toInt))
  | sltiu => some (flag (a.toNat < imm.toInt % 4294967296))
  | andi => some ((a.toNat &&& imm.toNat : Nat) : Int)
  | ori => some ((a.toNat ||| imm.toNat : Nat) : Int)
  | xori => some ((a.toNat ^^^ imm.toNat : Nat) : Int)

/-- The result of a shift. Division rounds down, so the sign stays. -/
def ShiftOp.value (v : Word) (amount : Nat) : ShiftOp → Int
  | sll => v.toNat * 2 ^ amount
  | srl => v.toNat / 2 ^ amount
  | sra => v.toInt / 2 ^ amount

/-- What a multiplication or division puts into `hi` and `lo`, if it puts anything there. The quotient of
a signed division is rounded towards zero, and the remainder has the sign of the dividend. -/
def MulDivOp.values? (a b : Word) : MulDivOp → Option (Int × Int)
  | mult => some (a.toInt * b.toInt / 4294967296, a.toInt * b.toInt % 4294967296)
  | multu => some (a.toNat * b.toNat / 4294967296, a.toNat * b.toNat % 4294967296)
  | div => if b.toInt = 0 then none else some (a.toInt.tmod b.toInt, a.toInt.tdiv b.toInt)
  | divu => if b.toNat = 0 then none else some (a.toNat % b.toNat, a.toNat / b.toNat)

/-- The value of a load that finds the number `n` in memory. -/
def LoadOp.value (n : Nat) : LoadOp → Int
  | lb => if n < 128 then n else n - 256
  | lh => if n < 32768 then n else n - 65536
  | lw | lbu | lhu => n

/-- Whether two words meet a condition. -/
def BranchCond.Met (a b : Word) : BranchCond → Prop
  | eq => a.toNat = b.toNat
  | ne => a.toNat ≠ b.toNat

/-- Whether a signed word meets a condition. -/
def SignCond.Met (a : Word) : SignCond → Prop
  | lez => a.toInt ≤ 0
  | gtz => 0 < a.toInt
  | ltz => a.toInt < 0
  | gez => 0 ≤ a.toInt

instance (a b : Word) (cond : BranchCond) : Decidable (cond.Met a b) := by
  cases cond <;> unfold BranchCond.Met <;> infer_instance

instance (a : Word) (cond : SignCond) : Decidable (cond.Met a) := by
  cases cond <;> unfold SignCond.Met <;> infer_instance

namespace Image

/-- The little-endian number in `width` bytes from an address on. -/
def number (g : Image) (a : Word) : Nat → Nat
  | 0 => 0
  | width + 1 => (g a).toNat + 256 * number g (a + 1) width

/-- The image with a number in `width` bytes from an address on, in little-endian order and modulo
`256 ^ width`. -/
def withNumber (g : Image) (a : Word) (width n : Nat) : Image := fun x =>
  if (x - a).toNat < width then BitVec.ofNat 8 (n / 256 ^ (x - a).toNat) else g x

end Image

/-! ## Instructions -/

namespace Snapshot

/-- The address that is a signed offset away from that in a register. -/
def target (s : Snapshot) (base : Reg) (offset : Half) : Word :=
  Word.ofInt ((s.registers.get base).toNat + offset.toInt)

/-- The snapshot after an instruction with a result, or with an overflow. -/
def putResult (s : Snapshot) (r : Reg) : Option Int → Except FaultCause Snapshot
  | some n => .ok (s.put r (Word.ofInt n))
  | none => .error .overflow

/-- The snapshot after a branch that is taken or not. -/
def afterBranch (s : Snapshot) (taken : Bool) (offset : Half) : Snapshot :=
  { s with pc := Word.ofInt (if taken then s.pc.toNat + 4 + 4 * offset.toInt else s.pc.toNat + 4) }

end Snapshot

/-- What an instruction does to a snapshot, by the integers that words stand for. There is no answer for
`syscall`, which depends on the console. -/
def Instr.meaning? (s : Snapshot) : Instr → Option (Except FaultCause Snapshot)
  | alu op rd rs rt => some (s.putResult rd (op.value? (s.registers.get rs) (s.registers.get rt)))
  | shift op rd rt amount => some (s.putResult rd (some (op.value (s.registers.get rt) amount)))
  | shiftBy op rd rt rs =>
    some (s.putResult rd (some (op.value (s.registers.get rt) ((s.registers.get rs).toNat % 32))))
  | mulDiv op rs rt =>
    match op.values? (s.registers.get rs) (s.registers.get rt) with
    | some (hi, lo) => some (.ok { s with
        registers := { s.registers with hi := Word.ofInt hi, lo := Word.ofInt lo }, pc := s.pc + 4 })
    | none => some (.ok { s with pc := s.pc + 4 })
  | mul rd rs rt =>
    some (s.putResult rd (some ((s.registers.get rs).toNat * (s.registers.get rt).toNat)))
  | moveFrom half rd => some (.ok (s.put rd (s.registers.read half.register)))
  | moveTo half rs => some (.ok { s with
      registers := s.registers.write half.register (s.registers.get rs), pc := s.pc + 4 })
  | jr rs => some (.ok { s with pc := s.registers.get rs })
  | jalr rd rs => some (.ok { s.put rd (s.pc + 4) with pc := s.registers.get rs })
  | syscall => none
  | brk code => some (.error (.brk code))
  | aluImm op rt rs imm => some (s.putResult rt (op.value? (s.registers.get rs) imm))
  | lui rt imm => some (s.putResult rt (some (imm.toNat * 65536)))
  | load op rt base offset =>
    if (s.target base offset).toNat % op.width = 0 then
      some (s.putResult rt (some (op.value (s.image.number (s.target base offset) op.width))))
    else some (.error (.misaligned (s.target base offset)))
  | store op rt base offset =>
    if (s.target base offset).toNat % op.width = 0 then some (.ok { s with
      image := s.image.withNumber (s.target base offset) op.width (s.registers.get rt).toNat
      pc := s.pc + 4 })
    else some (.error (.misaligned (s.target base offset)))
  | branch cond rs rt offset =>
    some (.ok (s.afterBranch (cond.Met (s.registers.get rs) (s.registers.get rt)) offset))
  | branchSign cond rs offset => some (.ok (s.afterBranch (cond.Met (s.registers.get rs)) offset))
  | jump link index =>
    some (.ok { (if link then s.put .ra (s.pc + 4) else s) with
      pc := Word.ofInt ((s.pc + 4).toNat / 0x10000000 * 0x10000000 + 4 * index) })

/-! ## Sums, comparisons and bits -/

namespace Machine

theorem signed?_map {n : Int} {result : Word} {overflow : Bool} (hresult : Word.ofInt n = result)
    (hoverflow : overflow = true ↔ ¬ (-2147483648 ≤ n ∧ n < 2147483648)) :
    (signed? n).map Word.ofInt = if overflow then none else some result := by
  unfold signed?
  cases overflow with
  | true => rw [if_neg (hoverflow.mp rfl), if_pos rfl, Option.map_none]
  | false =>
      have hfits : -2147483648 ≤ n ∧ n < 2147483648 :=
        Decidable.not_not.mp fun h => Bool.false_ne_true (hoverflow.mpr h)
      rw [if_pos hfits, if_neg Bool.false_ne_true, Option.map_some, hresult]

/-- An addition overflows exactly where the exact sum does not fit. -/
theorem signedAdd?_eq (a b : Word) : signedAdd? a b = (signed? (a.toInt + b.toInt)).map Word.ofInt := by
  have hsum : Word.ofInt (a.toInt + b.toInt) = a + b := by
    rw [Word.ofInt, BitVec.ofInt_add, BitVec.ofInt_toInt, BitVec.ofInt_toInt]
  refine (signed?_map hsum ?_).symm
  simp only [BitVec.saddOverflow, Bool.or_eq_true, decide_eq_true_eq]
  omega

theorem signedSub?_eq (a b : Word) : signedSub? a b = (signed? (a.toInt - b.toInt)).map Word.ofInt := by
  have hdifference : Word.ofInt (a.toInt - b.toInt) = a - b := by
    rw [Int.sub_eq_add_neg, Word.ofInt, BitVec.ofInt_add, BitVec.ofInt_neg, BitVec.ofInt_toInt,
      BitVec.ofInt_toInt, BitVec.sub_eq_add_neg]
  refine (signed?_map hdifference ?_).symm
  simp only [BitVec.ssubOverflow, Bool.or_eq_true, decide_eq_true_eq]
  omega

theorem ofInt_flag (p : Prop) [Decidable p] : Word.ofInt (flag p) = truth (decide p) := by
  unfold flag
  by_cases h : p
  · rw [if_pos h, decide_eq_true h]
    rfl
  · rw [if_neg h, decide_eq_false h]
    rfl

theorem ofInt_natCast_eq {n : Nat} {w : Word} (h : w.toNat = n) : Word.ofInt n = w := by
  rw [← h, Word.ofInt_toNat]

theorem toNat_setWidth_half (imm : Half) : (imm.setWidth 32).toNat = imm.toNat := by
  rw [BitVec.toNat_setWidth]
  omega

/-- The operations on two registers are those on the integers. -/
theorem aluResult?_eq (a b : Word) (op : AluOp) : aluResult? a b op = (op.value? a b).map Word.ofInt := by
  cases op with
  | add => exact signedAdd?_eq a b
  | sub => exact signedSub?_eq a b
  | addu =>
      refine congrArg some ?_
      rw [Word.ofInt, BitVec.ofInt_add, ← Word.ofInt, ← Word.ofInt, Word.ofInt_toNat, Word.ofInt_toNat]
  | subu =>
      refine congrArg some ?_
      rw [Int.sub_eq_add_neg, Word.ofInt, BitVec.ofInt_add, BitVec.ofInt_neg, ← Word.ofInt,
        ← Word.ofInt, Word.ofInt_toNat, Word.ofInt_toNat, BitVec.sub_eq_add_neg]
  | and => exact congrArg some (ofInt_natCast_eq (BitVec.toNat_and a b)).symm
  | or => exact congrArg some (ofInt_natCast_eq (BitVec.toNat_or a b)).symm
  | xor => exact congrArg some (ofInt_natCast_eq (BitVec.toNat_xor a b)).symm
  | nor =>
      refine congrArg some (Eq.symm ?_)
      have hlt : a.toNat ||| b.toNat < 2 ^ 32 := Nat.or_lt_two_pow a.isLt b.isLt
      have hnor : (~~~(a ||| b)).toNat = 4294967295 - (a.toNat ||| b.toNat) := by
        rw [BitVec.toNat_not, BitVec.toNat_or]
      rw [← ofInt_natCast_eq hnor]
      congr 1
      omega
  | slt => exact congrArg some (ofInt_flag (a.toInt < b.toInt)).symm
  | sltu => exact congrArg some (ofInt_flag (a.toNat < b.toNat)).symm

theorem toInt_signExtend_half (imm : Half) : (imm.signExtend 32).toInt = imm.toInt :=
  BitVec.toInt_signExtend_of_le (by decide)

/-- The operations on a register and an immediate are those on the integers. -/
theorem immResult?_eq (a : Word) (imm : Half) (op : ImmOp) :
    immResult? a imm op = (op.value? a imm).map Word.ofInt := by
  have hzero := toNat_setWidth_half imm
  have hsign := toInt_signExtend_half imm
  cases op with
  | addi =>
      rw [immResult?, signedAdd?_eq, hsign]
      rfl
  | addiu =>
      refine congrArg some ?_
      rw [Word.ofInt, BitVec.ofInt_add, ← Word.ofInt, Word.ofInt_toNat]
      rfl
  | slti =>
      refine congrArg some (Eq.trans ?_ (ofInt_flag (a.toInt < imm.toInt)).symm)
      rw [BitVec.slt, hsign]
  | sltiu =>
      refine congrArg some (Eq.trans (congrArg truth ?_) (ofInt_flag _).symm)
      have hunsigned : ((imm.signExtend 32).toNat : Int) = imm.toInt % 4294967296 := by
        rw [← hsign, BitVec.toInt_eq_toNat_cond]
        split <;> omega
      rw [BitVec.ult, ← hunsigned]
      simp
  | andi =>
      refine congrArg some (ofInt_natCast_eq ?_).symm
      rw [BitVec.toNat_and, hzero]
  | ori =>
      refine congrArg some (ofInt_natCast_eq ?_).symm
      rw [BitVec.toNat_or, hzero]
  | xori =>
      refine congrArg some (ofInt_natCast_eq ?_).symm
      rw [BitVec.toNat_xor, hzero]

/-! ## Shifts, products and quotients -/

theorem shiftResult_eq (v : Word) (amount : Nat) (op : ShiftOp) :
    shiftResult v amount op = Word.ofInt (op.value v amount) := by
  cases op with
  | sll =>
      have hvalue : ((v.toNat : Int) * 2 ^ amount) = ((v.toNat * 2 ^ amount : Nat) : Int) := by push_cast; rfl
      apply BitVec.eq_of_toNat_eq
      rw [shiftResult, ShiftOp.value, BitVec.toNat_shiftLeft, Nat.shiftLeft_eq, hvalue, Word.ofInt,
        BitVec.ofInt_natCast, BitVec.toNat_ofNat]
  | srl =>
      have hvalue : ((v.toNat : Int) / 2 ^ amount) = ((v.toNat / 2 ^ amount : Nat) : Int) := by push_cast; rfl
      rw [ShiftOp.value, hvalue]
      refine (ofInt_natCast_eq ?_).symm
      rw [shiftResult, BitVec.toNat_ushiftRight, Nat.shiftRight_eq_div_pow]
  | sra =>
      -- the shift is defined by that of the integer, which divides and rounds down
      rw [shiftResult, ShiftOp.value, BitVec.sshiftRight, Int.shiftRight_eq_div_pow]
      push_cast
      rfl

/-- The halves of a product are its quotient and its remainder by `2 ^ 32`. -/
theorem halves_ofInt (n : Int) : mulDivResult?.halves (BitVec.ofInt 64 n) =
    (Word.ofInt (n / 4294967296), Word.ofInt (n % 4294967296)) := by
  have hhigh : (BitVec.ofInt 64 n).extractLsb' 32 32 = Word.ofInt (n / 4294967296) := by
    apply BitVec.eq_of_toNat_eq
    rw [BitVec.extractLsb'_toNat, Word.ofInt, BitVec.toNat_ofInt, BitVec.toNat_ofInt,
      Nat.shiftRight_eq_div_pow]
    omega
  have hlow : (BitVec.ofInt 64 n).extractLsb' 0 32 = Word.ofInt (n % 4294967296) := by
    apply BitVec.eq_of_toNat_eq
    rw [BitVec.extractLsb'_toNat, Word.ofInt, BitVec.toNat_ofInt, BitVec.toNat_ofInt,
      Nat.shiftRight_eq_div_pow]
    omega
  rw [mulDivResult?.halves, hhigh, hlow]

theorem toInt_eq_zero_iff (b : Word) : b.toInt = 0 ↔ b = 0 := by
  rw [← BitVec.toInt_inj]
  rfl

theorem mulDivResult?_eq (a b : Word) (op : MulDivOp) :
    mulDivResult? a b op = (op.values? a b).map fun (hi, lo) => (Word.ofInt hi, Word.ofInt lo) := by
  cases op with
  | mult =>
      have hproduct : a.signExtend 64 * b.signExtend 64 = BitVec.ofInt 64 (a.toInt * b.toInt) :=
        (BitVec.ofInt_mul _ _).symm
      rw [mulDivResult?, hproduct, halves_ofInt]
      rfl
  | multu =>
      have hproduct : a.setWidth 64 * b.setWidth 64 = BitVec.ofInt 64 (a.toNat * b.toNat) := by
        rw [BitVec.ofInt_mul, BitVec.ofInt_natCast, BitVec.ofInt_natCast, BitVec.ofNat_toNat,
          BitVec.ofNat_toNat]
      rw [mulDivResult?, hproduct, halves_ofInt]
      rfl
  | div =>
      simp only [mulDivResult?, MulDivOp.values?]
      by_cases hb : b = 0
      · rw [if_pos hb, if_pos ((toInt_eq_zero_iff b).mpr hb), Option.map_none]
      · rw [if_neg hb, if_neg fun h => hb ((toInt_eq_zero_iff b).mp h), Option.map_some]
        have hremainder : BitVec.srem a b = Word.ofInt (a.toInt.tmod b.toInt) := by
          rw [← BitVec.toInt_srem, Word.ofInt_toInt]
        have hquotient : BitVec.sdiv a b = Word.ofInt (a.toInt.tdiv b.toInt) := by
          apply BitVec.eq_of_toInt_eq
          rw [BitVec.toInt_sdiv, Word.ofInt, BitVec.toInt_ofInt]
        rw [hremainder, hquotient]
  | divu =>
      simp only [mulDivResult?, MulDivOp.values?]
      have hzero : b.toNat = 0 ↔ b = 0 := by
        rw [← BitVec.toNat_inj]
        rfl
      by_cases hb : b = 0
      · rw [if_pos hb, if_pos (hzero.mpr hb), Option.map_none]
      · rw [if_neg hb, if_neg fun h => hb (hzero.mp h), Option.map_some]
        refine congrArg some (Prod.ext ?_ ?_)
        · exact (ofInt_natCast_eq (BitVec.toNat_umod)).symm
        · exact (ofInt_natCast_eq (BitVec.toNat_udiv)).symm

/-! ## Memory -/

/-- The value of some bytes is the number that they stand for. -/
theorem toNat_ofBytes_bytesAt (g : Image) (a : Word) {width : Nat} (h : width ≤ 4) :
    (Word.ofBytes (Image.bytesAt g a width)).toNat = g.number a width ∧
      g.number a width < 256 ^ width := by
  induction width generalizing a with
  | zero => exact ⟨rfl, Nat.one_pos⟩
  | succ width ih =>
      obtain ⟨hvalue, hlt⟩ := ih (a + 1) (by omega)
      have hbyte := (g a).isLt
      have hshort : g.number (a + 1) width < 2 ^ 24 :=
        Nat.lt_of_lt_of_le hlt (Nat.pow_le_pow_right (by decide : 0 < 256) (by omega : width ≤ 3))
      constructor
      · have hor : ∀ (w : Word) (b : Byte), w.toNat < 2 ^ 24 →
            ((w <<< 8) ||| b.setWidth 32).toNat = b.toNat + 256 * w.toNat := by
          intro w b hw
          rw [BitVec.toNat_or, BitVec.toNat_shiftLeft, BitVec.toNat_setWidth,
            Nat.mod_eq_of_lt (Nat.lt_trans b.isLt (by decide)), Nat.mod_eq_of_lt (by rw [Nat.shiftLeft_eq]; omega),
            ← Nat.shiftLeft_add_eq_or_of_lt b.isLt, Nat.shiftLeft_eq]
          omega
        rw [Image.bytesAt, Word.ofBytes, hor _ _ (hvalue ▸ hshort), hvalue, Image.number]
      · rw [Image.number, Nat.pow_succ]
        omega

/-- Extending the low bits of a word by their sign reads them as signed. -/
theorem signExtend_setWidth {k n : Nat} {w : Word} (hw : w.toNat = n) (h : n < 2 ^ k) :
    (w.setWidth k).signExtend 32 = Word.ofInt (if 2 * n < 2 ^ k then n else n - (2 ^ k : Nat)) := by
  have hsigned : (w.setWidth k).toInt = if 2 * n < 2 ^ k then (n : Int) else n - (2 ^ k : Nat) := by
    rw [BitVec.toInt_eq_toNat_cond, BitVec.toNat_setWidth, hw, Nat.mod_eq_of_lt h]
  rw [BitVec.signExtend, hsigned, Word.ofInt]

theorem loadResult_eq (g : Image) (a : Word) (op : LoadOp) :
    loadResult (Image.value g a op.width) op = Word.ofInt (op.value (g.number a op.width)) := by
  have hnumber : ∀ width ≤ 4, (Image.value g a width).toNat = g.number a width ∧
      g.number a width < 256 ^ width := fun width h => toNat_ofBytes_bytesAt g a h
  cases op with
  | lb =>
      obtain ⟨hvalue, hlt⟩ := hnumber 1 (by decide)
      refine (signExtend_setWidth hvalue hlt).trans (congrArg Word.ofInt ?_)
      show _ = if g.number a 1 < 128 then (g.number a 1 : Int) else g.number a 1 - 256
      exact ite_congr (propext (by omega)) (fun _ => rfl) (fun _ => rfl)
  | lh =>
      obtain ⟨hvalue, hlt⟩ := hnumber 2 (by decide)
      refine (signExtend_setWidth hvalue hlt).trans (congrArg Word.ofInt ?_)
      show _ = if g.number a 2 < 32768 then (g.number a 2 : Int) else g.number a 2 - 65536
      exact ite_congr (propext (by omega)) (fun _ => rfl) (fun _ => rfl)
  | lw => exact (ofInt_natCast_eq (hnumber 4 (by decide)).1).symm
  | lbu => exact (ofInt_natCast_eq (hnumber 1 (by decide)).1).symm
  | lhu => exact (ofInt_natCast_eq (hnumber 2 (by decide)).1).symm

/-- A store puts in the bytes of a number. -/
theorem store_eq_withNumber (g : Image) (a : Word) {width : Nat} (h : width ≤ 4) (v : Word) :
    Image.store g a width v = g.withNumber a width v.toNat := by
  funext x
  have hlength : ((Word.bytes v).take width).length = width := by
    rw [List.length_take, Word.length_bytes, Nat.min_eq_left h]
  have hbyte : ∀ k < 4, (Word.bytes v)[k]? = some (BitVec.ofNat 8 (v.toNat / 256 ^ k)) := by
    intro k hk
    have hextract : ∀ k, Word.byte v k = BitVec.ofNat 8 (v.toNat / 256 ^ k) := by
      intro k
      apply BitVec.eq_of_toNat_eq
      rw [Word.byte, BitVec.extractLsb'_toNat, BitVec.toNat_ofNat, Nat.shiftRight_eq_div_pow, Nat.pow_mul]
    have : k = 0 ∨ k = 1 ∨ k = 2 ∨ k = 3 := by omega
    rcases this with rfl | rfl | rfl | rfl <;> exact congrArg some (hextract _)
  unfold Image.withNumber
  split
  case isTrue hx =>
    rw [Image.store, Image.patch_apply _ (by omega), List.getElem?_take_of_lt hx, hbyte _ (by omega),
      Option.getD_some]
  case isFalse hx => exact Image.patch_of_le _ (by omega) _ (by omega)

/-! ## Addresses -/

theorem target_eq (s : Snapshot) (base : Reg) (offset : Half) :
    s.registers.get base + offset.signExtend 32 = s.target base offset := by
  rw [Snapshot.target, Word.ofInt, BitVec.ofInt_add, ← Word.ofInt, Word.ofInt_toNat]
  rfl

theorem branchTarget_eq (pc : Word) (offset : Half) :
    branchTarget (pc + 4) offset = Word.ofInt (pc.toNat + 4 + 4 * offset.toInt) := by
  have hsign : (offset.signExtend 32).toNat = (offset.toInt % 4294967296).toNat :=
    BitVec.toNat_ofInt offset.toInt
  apply BitVec.eq_of_toNat_eq
  rw [branchTarget, BitVec.toNat_add, BitVec.toNat_add, BitVec.toNat_shiftLeft, Nat.shiftLeft_eq, hsign,
    Word.ofInt, BitVec.toNat_ofInt, show (4 : Word).toNat = 4 from rfl]
  omega

theorem afterBranch_eq (s : Snapshot) (taken : Bool) (offset : Half) :
    { s with pc := if taken then branchTarget (s.pc + 4) offset else s.pc + 4 } =
      s.afterBranch taken offset := by
  have hnext : Word.ofInt (s.pc.toNat + 4) = s.pc + 4 := by
    rw [Word.ofInt, BitVec.ofInt_add, ← Word.ofInt, Word.ofInt_toNat]
    rfl
  unfold Snapshot.afterBranch
  cases taken with
  | true => simp only [if_true, branchTarget_eq]
  | false => simp only [Bool.false_eq_true, if_false, hnext]

/-- A jump stays in the region of the next instruction. -/
theorem jumpTarget_eq (next : Word) {index : Nat} (h : index < 0x4000000) :
    (next &&& 0xF0000000#32) ||| BitVec.ofNat 32 (index * 4) =
      Word.ofInt (next.toNat / 0x10000000 * 0x10000000 + 4 * index) := by
  have hlow : index * 4 < 2 ^ 28 := by omega
  have hpow : (2 : Nat) ^ 28 = 0x10000000 := by decide
  have hsum : (next &&& 0xF0000000#32 ||| BitVec.ofNat 32 (index * 4)).toNat =
      next.toNat / 0x10000000 * 0x10000000 + index * 4 := by
    calc (next &&& 0xF0000000#32 ||| BitVec.ofNat 32 (index * 4)).toNat
        = (next.toNat / 0x10000000) <<< 28 ||| index * 4 := by
          rw [BitVec.toNat_or, toNat_and_region, BitVec.toNat_ofNat,
            Nat.mod_eq_of_lt (Nat.lt_trans hlow (by decide)), Nat.shiftLeft_eq, hpow]
      _ = (next.toNat / 0x10000000) <<< 28 + index * 4 := (Nat.shiftLeft_add_eq_or_of_lt hlow _).symm
      _ = next.toNat / 0x10000000 * 0x10000000 + index * 4 := by rw [Nat.shiftLeft_eq, hpow]
  rw [← ofInt_natCast_eq hsum]
  exact congrArg Word.ofInt (by omega)

end Machine

/-! ## Instructions -/

open Machine

/-- The effect of an operation whose result may overflow. -/
theorem putResult_eq (s : Snapshot) (r : Reg) (n : Option Int) :
    (match n.map Word.ofInt with
      | some value => some (Except.ok (s.put r value))
      | none => some (.error .overflow)) = some (s.putResult r n) := by
  cases n <;> rfl

/-- **The effect of an instruction is its meaning.** -/
theorem Instr.effect?_eq_meaning? {i : Instr} (range : i.InRange) (s : Snapshot) :
    i.effect? s = i.meaning? s := by
  cases i with
  | alu op rd rs rt =>
      rw [effect?, aluResult?_eq]
      exact putResult_eq s rd _
  | aluImm op rt rs imm =>
      rw [effect?, immResult?_eq]
      exact putResult_eq s rt _
  | shift op rd rt amount => rw [effect?, shiftResult_eq, meaning?, Snapshot.putResult]
  | shiftBy op rd rt rs => rw [effect?, shiftResult_eq, meaning?, Snapshot.putResult]
  | mulDiv op rs rt =>
      rw [effect?, mulDivResult?_eq, meaning?]
      cases op.values? (s.registers.get rs) (s.registers.get rt) <;> rfl
  | mul rd rs rt =>
      have hproduct : Word.ofInt ((s.registers.get rs).toNat * (s.registers.get rt).toNat) =
          s.registers.get rs * s.registers.get rt := by
        rw [Word.ofInt, BitVec.ofInt_mul, ← Word.ofInt, ← Word.ofInt, Word.ofInt_toNat, Word.ofInt_toNat]
      rw [effect?, meaning?, Snapshot.putResult, hproduct]
  | lui rt imm =>
      have hvalue : (imm ++ 0#16 : Word).toNat = imm.toNat * 65536 := toNat_append_zero imm
      rw [effect?, ← ofInt_natCast_eq hvalue, Int.natCast_mul, meaning?]
      rfl
  | load op rt base offset =>
      simp only [effect?, meaning?, target_eq, Word.isAligned_iff, loadResult_eq, Snapshot.putResult]
  | store op rt base offset =>
      have hwidth : op.width ≤ 4 := by cases op <;> decide
      simp only [effect?, meaning?, target_eq, Word.isAligned_iff, store_eq_withNumber _ _ hwidth]
  | branch cond rs rt offset =>
      have hmet : cond.holds (s.registers.get rs) (s.registers.get rt) =
          decide (cond.Met (s.registers.get rs) (s.registers.get rt)) := by
        rw [Bool.eq_iff_iff, decide_eq_true_eq]
        cases cond <;> simp [BranchCond.holds, BranchCond.Met, BitVec.toNat_inj]
      rw [effect?, hmet, afterBranch_eq, meaning?]
  | branchSign cond rs offset =>
      have hmet : cond.holds (s.registers.get rs) = decide (cond.Met (s.registers.get rs)) := by
        cases cond <;> rfl
      rw [effect?, hmet, afterBranch_eq, meaning?]
  | jump link index =>
      rw [effect?, meaning?]
      dsimp only
      rw [jumpTarget_eq _ range]
  | moveFrom | moveTo | jr | jalr | syscall | brk => rfl

/-! ## Steps -/

namespace Machine

/-- What a step comes to: it goes on to the snapshot, or it reports the fault with the address and the word of
the instruction and leaves everything as it was. -/
def StepsTo (m : Machine) : Except FaultCause Snapshot → Prop
  | .ok s => ∃ n, m.step = (.ok false, n) ∧ n.snapshot = s
  | .error cause => ∃ n, m.step = (.error ⟨cause, m.pc, some m.nextWord⟩, n) ∧ n.snapshot = m.snapshot

/-- The fault of an instruction comes with its word. -/
theorem hasInstruction_of_effect? {i : Instr} {s : Snapshot} {cause : FaultCause}
    (h : i.effect? s = some (.error cause)) : cause.hasInstruction = true := by
  unfold Instr.effect? at h
  split at h
  case h_1 | h_12 =>
    split at h <;> cases h
    rfl
  case h_14 | h_15 =>
    dsimp only at h
    split at h <;> cases h
    rfl
  case h_4 => split at h <;> cases h
  case h_11 =>
    cases h
    rfl
  all_goals cases h

/-- **A step at an instruction comes to its effect.** -/
theorem stepsTo_of_effect? {m : Machine} {i : Instr} (going : m.exitCode = none) (here : m.AtCode)
    (decoded : Instr.decode? m.nextWord = some i) {r : Except FaultCause Snapshot}
    (h : i.effect? m.snapshot = some r) : m.StepsTo r := by
  obtain ⟨hadvance, hcomes⟩ : m.beginStep.advance = (m.beginStep.touched m.pc 4).perform i ∧
      (m.beginStep.touched m.pc 4).started.Comes i r :=
    advance_of_effect? (m := m.beginStep) going here decoded h
  cases r with
  | ok s =>
      obtain ⟨n, hperform, hsnapshot, -⟩ := perform_of_comes_ok hcomes
      refine ⟨n, ?_, hsnapshot⟩
      rw [step, hadvance, hperform]
  | error cause =>
      obtain ⟨n, ran, hperform⟩ := perform_of_comes_error hcomes
      have hquiet := quiet_rollBack_started (faultsQuietly_execute _ _ _ _ _ ran)
      have hpc : n.rollBack.pc = m.pc := hquiet.pc
      have himage : n.rollBack.memory.image = m.memory.image :=
        hquiet.image.trans (image_touched m.beginStep m.pc 4)
      have hregisters : n.rollBack.registers = m.registers := hquiet.registers
      -- the page of the instruction was touched when its word was fetched
      have htouched : n.rollBack.memory.isTouched m.pc = true :=
        hquiet.touched _ (Memory.isTouched_touchBytes_self _ _ _ (by decide))
      have hfault : n.rollBack.faultOf cause = ⟨cause, m.pc, some m.nextWord⟩ := by
        rw [faultOf, if_pos (hasInstruction_of_effect? h), hpc, Memory.peek?_of_isTouched _ _ htouched,
          Word.wordAligned_of_isAligned here.1.1, himage, nextWord]
      refine ⟨n.rollBack, ?_, ?_⟩
      · rw [step, hadvance, hperform, ← hfault]
      · rw [snapshot, hregisters, himage, hpc]
        rfl

/-- **One step does what the instruction means for integers.** Wherever the machine has decoded an
instruction other than `syscall`, the step goes on to the registers, memory and next address that the
reference gives, or reports the fault that it gives and changes nothing. -/
theorem step_meaning {m : Machine} {i : Instr} (going : m.exitCode = none) (here : m.AtCode)
    (decoded : Instr.decode? m.nextWord = some i) (service : i ≠ .syscall) :
    ∃ r, i.meaning? m.snapshot = some r ∧ m.StepsTo r := by
  have heffect := Instr.effect?_eq_meaning? (Instr.inRange_of_decode? decoded) m.snapshot
  have hsome : ∃ r, i.meaning? m.snapshot = some r := by
    cases i with
    | syscall => exact absurd rfl service
    | mulDiv =>
        rw [Instr.meaning?]
        split <;> exact ⟨_, rfl⟩
    | load | store =>
        rw [Instr.meaning?]
        split <;> exact ⟨_, rfl⟩
    | _ => exact ⟨_, rfl⟩
  obtain ⟨r, hr⟩ := hsome
  exact ⟨r, hr, stepsTo_of_effect? going here decoded (heffect.trans hr)⟩

/-- Dividing the least word by minus one leaves the least word again, and no remainder. -/
theorem step_meaning_leastQuotient :
    let c : CodeWord := ⟨⟨⟨"a.s", 1, "div $t0, $t1"⟩, []⟩, 0x00400000, .mulDiv .div ⟨8⟩ ⟨9⟩⟩
    let m := (Machine.initial {}).load ⟨[c], [], .empty "(global)", [], [], {}⟩
    let k := { m with registers := (m.registers.set ⟨8⟩ 0x80000000).set ⟨9⟩ 0xFFFFFFFF }
    k.StepsTo (.ok { k.snapshot with
      registers := { k.registers with hi := 0, lo := 0x80000000 }, pc := 0x00400004 }) := by
  intro c m k
  have here : k.AtCode := ⟨⟨by decide +kernel, by decide +kernel⟩, _, rfl, by decide +kernel⟩
  obtain ⟨r, hr, hstep⟩ := step_meaning (m := k) (i := .mulDiv .div ⟨8⟩ ⟨9⟩) rfl here
    (by decide +kernel) (by decide)
  have hvalues : MulDivOp.values? (k.registers.get ⟨8⟩) (k.registers.get ⟨9⟩) .div =
      some (0, 2147483648) := by decide +kernel
  rw [Instr.meaning?, registers_snapshot, hvalues] at hr
  obtain rfl := Option.some.inj hr
  exact hstep

end Machine

end MipsLab
