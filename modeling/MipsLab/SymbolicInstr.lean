import MipsLab.Diagnostic.Cause
import MipsLab.Instr
import MipsLab.Operand

set_option autoImplicit false

/-!
# Instructions that refer to labels

A symbolic instruction stands for one machine instruction whose number may still depend on the
address of a label. Once every label has an address, `resolve` computes that number, or says why
the instruction cannot reach its target.
-/

namespace MipsLab

/-- The half of an address that an instruction holds. -/
inductive AddressPart where
  /-- The upper half. -/
  | high
  /-- The lower half. -/
  | low
  /-- The upper half, rounded so that adding the sign-extended lower half gives the address. -/
  | highRounded
deriving DecidableEq, Repr

/-- The given half of an address. -/
def AddressPart.of (a : Word) : AddressPart → Half
  | high => a.extractLsb' 16 16
  | low => a.extractLsb' 0 16
  | highRounded => (a + 0x8000#32).extractLsb' 16 16

/-- Where a jump goes. -/
inductive JumpTarget where
  | label (l : LabelRef)
  | address (a : Word)
deriving DecidableEq, Repr

/-- A machine instruction, possibly with a label in place of a number. -/
inductive SymbolicInstr where
  | plain (i : Instr)
  | aluImm (op : ImmOp) (rt rs : Reg) (l : LabelRef) (part : AddressPart)
  | lui (rt : Reg) (l : LabelRef) (part : AddressPart)
  | load (op : LoadOp) (rt base : Reg) (l : LabelRef)
  | store (op : StoreOp) (rt base : Reg) (l : LabelRef)
  | branch (cond : BranchCond) (rs rt : Reg) (l : LabelRef)
  | branchSign (cond : SignCond) (rs : Reg) (l : LabelRef)
  | jump (link : Bool) (target : JumpTarget)
deriving DecidableEq, Repr

namespace SymbolicInstr

/-- The address that a label reference denotes. -/
def addressOf (lookup : String → Option Word) (l : LabelRef) : Except Cause Word :=
  match lookup l.name with
  | some a => .ok (a + Word.ofInt l.offset)
  | none => .error (.symbol (.undefined l.name))

/-- The offset field of a branch at `pc` to the address `target`, if the exact distance from the
next instruction is a multiple of four that the field can count. -/
def branchOffset? (pc target : Word) : Option Half :=
  let distance : Int := (target.toNat : Int) - ((pc + 4).toNat : Int)
  if distance % 4 = 0 ∧ FitsSigned16 (distance / 4) then some (BitVec.ofInt 16 (distance / 4))
  else none

/-- The index field of a jump at `pc` to the address `target`, if the target is a word address in
the region of the next instruction. -/
def jumpIndex? (pc target : Word) : Option Nat :=
  if target &&& 0xF0000000#32 = (pc + 4) &&& 0xF0000000#32 ∧ target.toNat % 4 = 0 then
    some (target.toNat / 4 % 0x4000000)
  else none

/-- The offset field of a branch at `pc` to a label. -/
def branchTo (lookup : String → Option Word) (pc : Word) (l : LabelRef) : Except Cause Half := do
  match branchOffset? pc (← addressOf lookup l) with
  | some offset => .ok offset
  | none => .error (.encoding (.branchOutOfRange l.name))

/-- A jump at `pc` to the address `target`, which messages call `name`. -/
def jumpTo (pc : Word) (link : Bool) (target : Word) (name : String) : Except Cause Instr :=
  match jumpIndex? pc target with
  | some index => .ok (.jump link index)
  | none => .error (.encoding (.jumpOutOfRange name))

/-- The machine instruction that a symbolic instruction at `pc` stands for. -/
def resolve (lookup : String → Option Word) (pc : Word) : SymbolicInstr → Except Cause Instr
  | plain i => .ok i
  | aluImm op rt rs l part => return .aluImm op rt rs (part.of (← addressOf lookup l))
  | lui rt l part => return .lui rt (part.of (← addressOf lookup l))
  | load op rt base l => return .load op rt base (AddressPart.low.of (← addressOf lookup l))
  | store op rt base l => return .store op rt base (AddressPart.low.of (← addressOf lookup l))
  | branch cond rs rt l => return .branch cond rs rt (← branchTo lookup pc l)
  | branchSign cond rs l => return .branchSign cond rs (← branchTo lookup pc l)
  | jump link (.label l) => do jumpTo pc link (← addressOf lookup l) l.name
  | jump link (.address a) => jumpTo pc link a (Numeral.hex8 a.toNat)

end SymbolicInstr

end MipsLab
