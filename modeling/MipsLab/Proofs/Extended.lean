import MipsLab.Proofs.Effect
import MipsLab.Proofs.Halves
import MipsLab.Proofs.Mnemonics

set_option autoImplicit false

/-!
# Extended instructions as single instructions

A written instruction that needs an expansion reads as one instruction on words: a number stands for
the word that it denotes modulo `2 ^ 32`, and a label for its address. `Extended.outcome?` is this
reading. It does not mention the expansion. At the end of this module, the operations
that expansions use in place of others are seen to agree with them.
-/

namespace MipsLab

/-! ## Operands -/

/-- The value of an operand, which is a register or a number. -/
def Operand.value? (s : Snapshot) : Operand → Option Word
  | reg r => some (s.registers.get r)
  | imm n => some (Word.ofInt n)
  | _ => none

/-- The address that an operand denotes. -/
def Operand.address? (lookup : String → Option Word) (s : Snapshot) : Operand → Option Word
  | label l => (SymbolicInstr.addressOf lookup l).toOption
  | imm n => some (Word.ofInt n)
  | mem n base => some (s.registers.get base + Word.ofInt n)
  | _ => none

/-- The registers that an operand names. -/
def Operand.registers : Operand → List Reg
  | reg r => [r]
  | mem _ base => [base]
  | _ => []

/-- Whether an extended instruction puts a result into its first operand. -/
def Mnemonic.hasResult : Mnemonic → Bool
  | store _ | branch _ | always | branchZero _ | compare _ _ => false
  | _ => true

namespace Extended

/-- The register that an extended instruction puts its result into. -/
def destination? (mnemonic : Mnemonic) (operands : List Operand) : Option Reg :=
  match mnemonic.hasResult, operands with
  | true, .reg r :: _ => some r
  | _, _ => none

/-- The operands that an extended instruction reads. -/
def inputs (mnemonic : Mnemonic) (operands : List Operand) : List Operand :=
  if mnemonic.hasResult then operands.drop 1 else operands

/-- The registers that an extended instruction reads. -/
def sources (mnemonic : Mnemonic) (operands : List Operand) : List Reg :=
  (inputs mnemonic operands).flatMap Operand.registers

end Extended

/-! ## Operations on words -/

/-- Whether two numbers compare as asked. -/
def Comparison.holds (a b : Int) : Comparison → Bool
  | lt => decide (a < b)
  | gt => decide (b < a)
  | le => decide (a ≤ b)
  | ge => decide (b ≤ a)

/-- Whether two words compare as asked, both read as signed or both as unsigned. -/
def Comparison.holdsOf (c : Comparison) (signed : Bool) (a b : Word) : Bool :=
  if signed then c.holds a.toInt b.toInt else c.holds a.toNat b.toNat

open Machine in
/-- The result of an operation on a register and an immediate, with a word as immediate. -/
def ImmOp.wordResult? (a b : Word) : ImmOp → Option Word
  | addi => signedAdd? a b
  | addiu => some (a + b)
  | slti => some (truth (BitVec.slt a b))
  | sltiu => some (truth (BitVec.ult a b))
  | andi => some (a &&& b)
  | ori => some (a ||| b)
  | xori => some (a ^^^ b)

namespace Snapshot

/-- The outcome of an operation whose result goes to a register, or which overflows. -/
def result (s : Snapshot) (next : Word) (rd : Reg) : Option Word → Except FaultCause Snapshot
  | some value => .ok { s with registers := s.registers.set rd value, pc := next }
  | none => .error .overflow

/-- The outcome of a load. -/
def loaded (s : Snapshot) (next : Word) (op : LoadOp) (rt : Reg) (a : Word) :
    Except FaultCause Snapshot :=
  if Word.isAligned a op.width then
    s.result next rt (some (Machine.loadResult (Image.value s.image a op.width) op))
  else .error (.misaligned a)

/-- The outcome of a store. -/
def stored (s : Snapshot) (next : Word) (op : StoreOp) (rt : Reg) (a : Word) :
    Except FaultCause Snapshot :=
  if Word.isAligned a op.width then
    .ok { s with image := Image.store s.image a op.width (s.registers.get rt), pc := next }
  else .error (.misaligned a)

/-- The outcome of a branch. -/
def branched (s : Snapshot) (next : Word) (taken : Bool) (target : Word) :
    Except FaultCause Snapshot :=
  .ok { s with pc := if taken then target else next }

/-- The snapshot with the results of a multiplication or division in `hi` and `lo`. -/
def withResults (s : Snapshot) (op : MulDivOp) (a b : Word) : Snapshot :=
  match Machine.mulDivResult? a b op with
  | some (hi, lo) => { s with registers := { s.registers with hi, lo } }
  | none => s

/-- The outcome of a division of which one half goes to a register. A division by zero leaves both
halves as they are. -/
def divided (s : Snapshot) (next : Word) (op : MulDivOp) (half : HiLo) (rd : Reg) (a b : Word) :
    Except FaultCause Snapshot :=
  let t := s.withResults op a b
  t.result next rd (some (t.registers.read half.register))

end Snapshot

/-! ## Extended instructions -/

namespace Extended

open Machine in
/-- What a mnemonic with operands does to a snapshot when it is taken as a single instruction that is
followed by the one at `next`. -/
def outcome? (lookup : String → Option Word) (next : Word) (s : Snapshot) :
    Mnemonic → List Operand → Option (Except FaultCause Snapshot)
  | .alu op, [.reg rd, .reg rs, other] => do
    return s.result next rd (aluResult? (s.registers.get rs) (← other.value? s) op)
  | .aluImm op, [.reg rt, .reg rs, other] => do
    return s.result next rt (op.wordResult? (s.registers.get rs) (← other.value? s))
  | .load op, [.reg rt, place] => do return s.loaded next op rt (← place.address? lookup s)
  | .store op, [.reg rt, place] => do return s.stored next op rt (← place.address? lookup s)
  | .branch cond, [.reg rs, other, target] => do
    return s.branched next (cond.holds (s.registers.get rs) (← other.value? s))
      (← target.address? lookup s)
  | .li, [.reg rt, other] => do return s.result next rt (some (← other.value? s))
  | .la, [.reg rt, place] => do return s.result next rt (some (← place.address? lookup s))
  | .move, [.reg rd, .reg rs] => some (s.result next rd (some (s.registers.get rs)))
  | .not, [.reg rd, .reg rs] => some (s.result next rd (some (~~~(s.registers.get rs))))
  | .neg, [.reg rd, .reg rs] => some (s.result next rd (signedSub? 0 (s.registers.get rs)))
  | .subImm traps, [.reg rt, .reg rs, other] => do
    return s.result next rt
      (aluResult? (s.registers.get rs) (← other.value? s) (if traps then .sub else .subu))
  | .mul, [.reg rd, .reg rs, other] => do
    return s.result next rd (some (s.registers.get rs * (← other.value? s)))
  | .mulDiv op, [.reg rd, .reg rs, other] => do
    return s.divided next op .lo rd (s.registers.get rs) (← other.value? s)
  | .rem signed, [.reg rd, .reg rs, other] => do
    return s.divided next (if signed then .div else .divu) .hi rd (s.registers.get rs)
      (← other.value? s)
  | .always, [target] => do return s.branched next true (← target.address? lookup s)
  | .branchZero cond, [.reg rs, target] => do
    return s.branched next (cond.holds (s.registers.get rs) 0) (← target.address? lookup s)
  | .compare c signed, [.reg rs, other, target] => do
    return s.branched next (c.holdsOf signed (s.registers.get rs) (← other.value? s))
      (← target.address? lookup s)
  | _, _ => none

end Extended

/-! ## Operations that expansions replace by others -/

section Operations

open Lowering Machine

/-- An immediate that fits stands for the word that its number denotes. -/
theorem immResult?_half {op : ImmOp} {n : Int} (a : Word) (h : ImmFits op n) :
    immResult? a (half n) op = op.wordResult? a (Word.ofInt n) := by
  cases op <;>
    simp only [ImmFits, ImmOp.zeroExtends, Bool.false_eq_true, if_true, if_false] at h <;>
    simp only [immResult?, ImmOp.wordResult?, signExtend_half, setWidth_half, h]

/-- The operation on registers agrees with the one on a register and an immediate. -/
theorem aluResult?_registerForm (a b : Word) (op : ImmOp) :
    aluResult? a b (registerForm op) = op.wordResult? a b := by
  cases op <;> rfl

/-- A number whose negation fits can be subtracted by adding the negation, with the same
overflow. -/
theorem signedAdd?_neg {n : Int} (a : Word) (h : FitsSigned16 (-n)) :
    signedAdd? a (Word.ofInt (-n)) = signedSub? a (Word.ofInt n) := by
  obtain ⟨hlow, hhigh⟩ := h
  -- neither number is the least word, whose negation would be itself
  have hpos : (Word.ofInt n).toInt = n := by
    rw [Word.ofInt, BitVec.toInt_ofInt, Int.bmod_eq_of_le (by omega) (by omega)]
  have hneg : (Word.ofInt (-n)).toInt = -n := by
    rw [Word.ofInt, BitVec.toInt_ofInt, Int.bmod_eq_of_le (by omega) (by omega)]
  have hoverflow : BitVec.saddOverflow a (Word.ofInt (-n)) =
      BitVec.ssubOverflow a (Word.ofInt n) := by
    rw [BitVec.saddOverflow, BitVec.ssubOverflow, hpos, hneg, Int.sub_eq_add_neg]
  rw [signedAdd?, signedSub?, hoverflow, Word.ofInt_neg, BitVec.sub_eq_add_neg]

/-- The immediate form of an operation on registers agrees with it on the constant. -/
theorem wordResult?_immediateForm {op : AluOp} {n k : Int} {immOp : ImmOp} (a : Word)
    (h : immediateFor? n op = some (immOp, k)) (hfits : ImmFits immOp k) :
    immOp.wordResult? a (Word.ofInt k) = aluResult? a (Word.ofInt n) op := by
  cases op <;> cases h
  case sub => exact signedAdd?_neg a hfits
  case subu =>
    rw [ImmOp.wordResult?, aluResult?, Word.ofInt_neg, BitVec.sub_eq_add_neg]
  all_goals rfl

theorem holds_truth (cond : BranchCond) (b : Bool) :
    cond.holds (truth b) 0 = (match cond with | .eq => !b | .ne => b) := by
  cases cond <;> cases b <;> rfl

theorem aluResult?_below (signed : Bool) (a b : Word) :
    aluResult? a b (if signed then .slt else .sltu) =
      some (truth (Comparison.lt.holdsOf signed a b)) := by
  cases signed with
  | false => simp [aluResult?, Comparison.holdsOf, Comparison.holds, BitVec.ult]
  | true => rfl

theorem not_holds_lt (a b : Int) : (!Comparison.lt.holds a b) = Comparison.ge.holds a b := by
  show (!decide (a < b)) = decide (b ≤ a)
  rw [← decide_not, decide_eq_decide]
  exact Int.not_lt

theorem not_holdsOf_lt (signed : Bool) (a b : Word) :
    (!Comparison.lt.holdsOf signed a b) = Comparison.ge.holdsOf signed a b := by
  cases signed with
  | false => exact not_holds_lt a.toNat b.toNat
  | true => exact not_holds_lt a.toInt b.toInt

/-- The branch after a comparison is taken if the comparison holds. -/
theorem holds_comparisonOrder {c : Comparison} {rs rt a b : Reg} {cond : BranchCond}
    (h : comparisonOrder rs rt c = (a, b, cond)) (signed : Bool) (t : Registers) :
    cond.holds (truth (Comparison.lt.holdsOf signed (t.get a) (t.get b))) 0 =
      c.holdsOf signed (t.get rs) (t.get rt) := by
  rw [holds_truth]
  cases c with
  | lt =>
      cases h
      rfl
  | gt =>
      cases h
      cases signed <;> rfl
  -- the second is not below the first
  | le =>
      cases h
      refine (not_holdsOf_lt signed (t.get rt) (t.get rs)).trans ?_
      cases signed <;> rfl
  | ge =>
      cases h
      exact not_holdsOf_lt signed (t.get rs) (t.get rt)

end Operations

end MipsLab
