set_option autoImplicit false

/-!
# Words, halves and bytes

The machine is a 32-bit little-endian one. This module fixes the widths, the order of the bytes
of a word, the ranges that a 16-bit field of an instruction can hold, and alignment.
-/

namespace MipsLab

/-- A machine word, an address, or the value of a register. -/
abbrev Word := BitVec 32

/-- The 16-bit field of an instruction. -/
abbrev Half := BitVec 16

/-- The unit of memory and of console traffic. -/
abbrev Byte := BitVec 8

/-- A number of instructions. It has 64 bits, and after the last one comes zero. -/
abbrev Count := BitVec 64

namespace Count

/-- One less, but not less than zero. -/
def pred (n : Count) : Count := if n = 0 then 0 else n - 1

theorem toNat_pred (n : Count) : n.pred.toNat = n.toNat - 1 := by
  unfold pred
  split
  case isTrue h => simp [h]
  case isFalse => bv_omega

theorem ofNat_succ (n : Nat) : BitVec.ofNat 64 (n + 1) = BitVec.ofNat 64 n + (1 : Count) :=
  BitVec.ofNat_add n 1

end Count

namespace Word

/-- The byte that little-endian order stores `i` places after the first byte of `w`. -/
def byte (w : Word) (i : Nat) : Byte := w.extractLsb' (8 * i) 8

/-- The four bytes of a word in memory order. -/
def bytes (w : Word) : List Byte := [byte w 0, byte w 1, byte w 2, byte w 3]

/-- The value of a run of bytes in memory order. Of more than four bytes only the first four
count, because the others are shifted out of the word. -/
def ofBytes : List Byte → Word
  | [] => 0
  | b :: bs => (ofBytes bs <<< 8) ||| b.setWidth 32

/-- The word that an integer denotes modulo `2 ^ 32`. -/
def ofInt (n : Int) : Word := BitVec.ofInt 32 n

/-- The address of the word that holds the byte at `a`. -/
def wordAligned (a : Word) : Word := a &&& ~~~3#32

/-- The first multiple of `size`, a power of two, that is not below `a`; past the last one the
result wraps to zero. -/
def alignUp (a size : Word) : Word := (a + (size - 1)) &&& ~~~(size - 1)

/-- Whether `a` is a multiple of `n`. -/
def isAligned (a : Word) (n : Nat) : Bool := a.toNat % n == 0

end Word

/-- `n` fits a 16-bit field that is sign-extended. -/
def FitsSigned16 (n : Int) : Prop := -32768 ≤ n ∧ n ≤ 32767

/-- `n` fits a 16-bit field that is zero-extended. -/
def FitsUnsigned16 (n : Int) : Prop := 0 ≤ n ∧ n ≤ 65535

/-- `n` is the value of a word read as an unsigned number. -/
def IsUnsigned32 (n : Int) : Prop := 0 ≤ n ∧ n ≤ 4294967295

instance (n : Int) : Decidable (FitsSigned16 n) := inferInstanceAs (Decidable (_ ∧ _))
instance (n : Int) : Decidable (FitsUnsigned16 n) := inferInstanceAs (Decidable (_ ∧ _))
instance (n : Int) : Decidable (IsUnsigned32 n) := inferInstanceAs (Decidable (_ ∧ _))

end MipsLab
