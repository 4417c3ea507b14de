import MipsLab.Lowering

set_option autoImplicit false

/-!
# Mnemonics by what they stand for

The names of instructions as data, and the forms that an instruction of a given name has. A mnemonic is
basic if the machine has an instruction of that name, and extended if it only exists as a shorthand for
machine instructions.

`lower` looks a name up in several tables, each about some of the names, and again in a match of names and
operands. Here every name has one place, and `MipsLab.Proofs.MnemonicTables` shows that the tables agree
with that.
-/

namespace MipsLab

/-! ## Mnemonics -/

/-- The ordering that a branch on two values asks for. -/
inductive Comparison where
  | lt | gt | le | ge
deriving DecidableEq, Repr

/-- The name of a comparison in a mnemonic. -/
def Comparison.name : Comparison → String
  | lt => "lt"
  | gt => "gt"
  | le => "le"
  | ge => "ge"

/-- The name of an instruction. -/
inductive Mnemonic where
  | alu (op : AluOp)
  | aluImm (op : ImmOp)
  | shift (op : ShiftOp)
  | shiftBy (op : ShiftOp)
  | mulDiv (op : MulDivOp)
  | load (op : LoadOp)
  | store (op : StoreOp)
  | branch (cond : BranchCond)
  | branchSign (cond : SignCond)
  | mul
  | moveFrom (half : HiLo)
  | moveTo (half : HiLo)
  | lui
  | jr
  | jalr
  | jump (link : Bool)
  | syscall
  | brk
  | nop
  | li
  | la
  | move
  | not
  | neg
  | subImm (traps : Bool)
  | always
  | branchZero (cond : BranchCond)
  | compare (c : Comparison) (signed : Bool)
  | rem (signed : Bool)
deriving DecidableEq, Repr

namespace Mnemonic

/-- All mnemonics. -/
def all : List Mnemonic :=
  AluOp.all.map alu ++ ImmOp.all.map aluImm ++ ShiftOp.all.map shift ++ ShiftOp.all.map shiftBy ++
    MulDivOp.all.map mulDiv ++ LoadOp.all.map load ++ StoreOp.all.map store ++
    BranchCond.all.map branch ++ SignCond.all.map branchSign ++
    [mul, moveFrom .hi, moveFrom .lo, moveTo .hi, moveTo .lo, lui, jr, jalr, jump false, jump true,
      syscall, brk, nop, li, la, move, not, neg, subImm true, subImm false, always,
      branchZero .eq, branchZero .ne, compare .lt true, compare .gt true, compare .le true,
      compare .ge true, compare .lt false, compare .gt false, compare .le false, compare .ge false,
      rem true, rem false]

/-- How a mnemonic is written, in lower case. -/
def name : Mnemonic → String
  | alu op => op.mnemonic
  | aluImm op => op.mnemonic
  | shift op => op.mnemonic
  | shiftBy op => op.mnemonic ++ "v"
  | mulDiv op => op.mnemonic
  | load op => op.mnemonic
  | store op => op.mnemonic
  | branch cond => cond.mnemonic
  | branchSign cond => cond.mnemonic
  | mul => "mul"
  | moveFrom .hi => "mfhi"
  | moveFrom .lo => "mflo"
  | moveTo .hi => "mthi"
  | moveTo .lo => "mtlo"
  | lui => "lui"
  | jr => "jr"
  | jalr => "jalr"
  | jump false => "j"
  | jump true => "jal"
  | syscall => "syscall"
  | brk => "break"
  | nop => "nop"
  | li => "li"
  | la => "la"
  | move => "move"
  | not => "not"
  | neg => "neg"
  | subImm true => "subi"
  | subImm false => "subiu"
  | always => "b"
  | branchZero cond => cond.mnemonic ++ "z"
  | compare c true => "b" ++ c.name
  | compare c false => "b" ++ c.name ++ "u"
  | rem true => "rem"
  | rem false => "remu"

/-- The mnemonic of a given name, in lower case. -/
def ofName? (s : String) : Option Mnemonic := all.find? (·.name == s)

theorem mem_all (m : Mnemonic) : m ∈ all := by
  cases m with
  | alu op | aluImm op | shift op | shiftBy op | mulDiv op | load op | store op => cases op <;> decide
  | branch cond | branchSign cond | branchZero cond => cases cond <;> decide
  | moveFrom half | moveTo half => cases half <;> decide
  | jump flag | subImm flag | rem flag => cases flag <;> decide
  | compare c signed => cases c <;> cases signed <;> decide
  | _ => decide

/-- What holds of all mnemonics in turn holds of each. -/
theorem forall_of_all {p : Mnemonic → Prop} (h : ∀ m ∈ all, p m) (m : Mnemonic) : p m := h m (mem_all m)

theorem ofName?_name : ∀ m : Mnemonic, ofName? m.name = some m := forall_of_all (by decide)

theorem name_of_ofName? {s : String} {m : Mnemonic} (h : ofName? s = some m) : m.name = s := by
  simpa using List.find?_some h

theorem name_ne_of_ofName? {s : String} (h : ofName? s = none) (m : Mnemonic) : m.name ≠ s := by
  simpa using List.find?_eq_none.mp h m (mem_all m)

theorem eq_of_name {s : String} {m n : Mnemonic} (hm : m.name = s) (hn : n.name = s) : m = n := by
  have h := ofName?_name n
  rw [hn, ← hm, ofName?_name] at h
  exact Option.some.inj h

/-- The mnemonics that only exist as a shorthand for machine instructions. -/
def isExtended : Mnemonic → Bool
  | li | la | move | not | neg | subImm _ | always | branchZero _ | compare _ _ | rem _ => true
  | _ => false

end Mnemonic

namespace Lowering

/-! ## Forms -/

/-- The machine instruction that a mnemonic with operands is the name of. -/
def basicForm (m : Mnemonic) (operands : List Operand) : BasicForm :=
  match m with
  | .alu op =>
    match operands with
    | [.reg rd, .reg rs, .reg rt] => .fits (.plain (.alu op rd rs rt))
    | _ => .mismatch
  | .aluImm op =>
    match operands with
    | [.reg rt, .reg rs, .imm n] => withNumber n (ImmFits op n) (.plain (.aluImm op rt rs (half n)))
    | _ => .mismatch
  | .shift op =>
    match operands with
    | [.reg rd, .reg rt, .imm n] => withNumber n (0 ≤ n ∧ n < 32) (.plain (.shift op rd rt n.toNat))
    | _ => .mismatch
  | .shiftBy op =>
    match operands with
    | [.reg rd, .reg rt, .reg rs] => .fits (.plain (.shiftBy op rd rt rs))
    | _ => .mismatch
  | .mulDiv op =>
    match operands with
    | [.reg rs, .reg rt] => .fits (.plain (.mulDiv op rs rt))
    | _ => .mismatch
  | .load op =>
    match operands with
    | [.reg rt, .mem n base] => withNumber n (FitsSigned16 n) (.plain (.load op rt base (half n)))
    | _ => .mismatch
  | .store op =>
    match operands with
    | [.reg rt, .mem n base] => withNumber n (FitsSigned16 n) (.plain (.store op rt base (half n)))
    | _ => .mismatch
  | .branch cond =>
    match operands with
    | [.reg rs, .reg rt, .label l] => .fits (.branch cond rs rt l)
    | [.reg rs, .reg rt, .imm n] =>
      withNumber n (FitsSigned16 n) (.plain (.branch cond rs rt (half n)))
    | _ => .mismatch
  | .branchSign cond =>
    match operands with
    | [.reg rs, .label l] => .fits (.branchSign cond rs l)
    | [.reg rs, .imm n] => withNumber n (FitsSigned16 n) (.plain (.branchSign cond rs (half n)))
    | _ => .mismatch
  | .mul =>
    match operands with
    | [.reg rd, .reg rs, .reg rt] => .fits (.plain (.mul rd rs rt))
    | _ => .mismatch
  | .moveFrom h =>
    match operands with
    | [.reg rd] => .fits (.plain (.moveFrom h rd))
    | _ => .mismatch
  | .moveTo h =>
    match operands with
    | [.reg rs] => .fits (.plain (.moveTo h rs))
    | _ => .mismatch
  | .lui =>
    match operands with
    | [.reg rt, .imm n] => withNumber n (-32768 ≤ n ∧ n ≤ 65535) (.plain (.lui rt (half n)))
    | _ => .mismatch
  | .jr =>
    match operands with
    | [.reg rs] => .fits (.plain (.jr rs))
    | _ => .mismatch
  | .jalr =>
    match operands with
    | [.reg rs] => .fits (.plain (.jalr .ra rs))
    | [.reg rd, .reg rs] => .fits (.plain (.jalr rd rs))
    | _ => .mismatch
  | .jump link =>
    match operands with
    | [.label l] => .fits (.jump link (.label l))
    | [.imm n] =>
      if IsUnsigned32 n then .fits (.jump link (.address (Word.ofInt n))) else .mismatch
    | _ => .mismatch
  | .syscall =>
    match operands with
    | [] => .fits (.plain .syscall)
    | _ => .mismatch
  | .brk =>
    match operands with
    | [] => .fits (.plain (.brk 0))
    | [.imm n] => if 0 ≤ n ∧ n < 0x100000 then .fits (.plain (.brk n.toNat)) else .mismatch
    | _ => .mismatch
  | .nop =>
    match operands with
    | [] => .fits (.plain .nop)
    | _ => .mismatch
  | .li | .la | .move | .not | .neg | .subImm _ | .always | .branchZero _ | .compare _ _ | .rem _ =>
    .unknown

/-- A division whose result, the given half, goes to a register. -/
def division? (op : MulDivOp) (result : HiLo) (rd rs : Reg) (divisor : Operand) :
    Option (List SymbolicInstr) := do
  let (setup, rt) ← sourceOf? divisor
  return setup ++ [.plain (.mulDiv op rs rt), .plain (.moveFrom result rd)]

/-- The registers that a comparison sets the scratch register from, and the branch condition on it:
the scratch register becomes 1 if the first of the two is below the second. -/
def comparisonOrder (rs rt : Reg) : Comparison → Reg × Reg × BranchCond
  | .lt => (rs, rt, .ne)
  | .gt => (rt, rs, .ne)
  | .le => (rt, rs, .eq)
  | .ge => (rs, rt, .eq)

/-- A branch to a label if a register compares to an operand as asked. -/
def compareAndBranch? (c : Comparison) (signed : Bool) (rs : Reg) (other : Operand) (l : LabelRef) :
    Option (List SymbolicInstr) := do
  let (setup, rt) ← sourceOf? other
  let (a, b, cond) := comparisonOrder rs rt c
  return setup ++
    [.plain (.alu (if signed then .slt else .sltu) .scratch a b), .branch cond .scratch .zero l]

/-- The machine instructions that have the effect of a mnemonic with operands. -/
def expansion? (m : Mnemonic) (operands : List Operand) : Option (List SymbolicInstr) :=
  match m with
  | .alu op =>
    match operands with
    | [.reg rd, .reg rs, .imm n] => some (aluConstant op rd rs n)
    | _ => none
  | .aluImm op =>
    match operands with
    | [.reg rt, .reg rs, .imm n] =>
      some (afterConstant n (.plain (.alu (registerForm op) rt rs .scratch)))
    | _ => none
  | .load op =>
    memoryAccess? (fun rt base n => .plain (.load op rt base n)) (fun rt l => .load op rt .scratch l)
      operands
  | .store op =>
    memoryAccess? (fun rt base n => .plain (.store op rt base n))
      (fun rt l => .store op rt .scratch l) operands
  | .branch cond =>
    match operands with
    | [.reg rs, .imm n, .label l] => some (afterConstant n (.branch cond rs .scratch l))
    | _ => none
  | .li =>
    match operands with
    | [.reg rt, .imm n] => some (loadConstant rt n)
    | _ => none
  | .la =>
    match operands with
    | [.reg rt, .label l] => some (loadAddress rt l)
    | [.reg rt, .imm n] => some (loadConstant rt n)
    | [.reg rt, .mem n base] =>
      if FitsSigned16 n then some [.plain (.aluImm .addiu rt base (half n))]
      else some (afterConstant n (.plain (.alu .addu rt .scratch base)))
    | _ => none
  | .move =>
    match operands with
    | [.reg rd, .reg rs] => some [.plain (.alu .addu rd .zero rs)]
    | _ => none
  | .not =>
    match operands with
    | [.reg rd, .reg rs] => some [.plain (.alu .nor rd rs .zero)]
    | _ => none
  | .neg =>
    match operands with
    | [.reg rd, .reg rs] => some [.plain (.alu .sub rd .zero rs)]
    | _ => none
  | .subImm traps =>
    match operands with
    | [.reg rt, .reg rs, .imm n] => some (aluConstant (if traps then .sub else .subu) rt rs n)
    | _ => none
  | .mul =>
    match operands with
    | [.reg rd, .reg rs, .imm n] => some (afterConstant n (.plain (.mul rd rs .scratch)))
    | _ => none
  | .mulDiv .div =>
    match operands with
    | [.reg rd, .reg rs, other] => division? .div .lo rd rs other
    | _ => none
  | .mulDiv .divu =>
    match operands with
    | [.reg rd, .reg rs, other] => division? .divu .lo rd rs other
    | _ => none
  | .rem signed =>
    match operands with
    | [.reg rd, .reg rs, other] => division? (if signed then .div else .divu) .hi rd rs other
    | _ => none
  | .always =>
    match operands with
    | [.label l] => some [.branch .eq .zero .zero l]
    | _ => none
  | .branchZero cond =>
    match operands with
    | [.reg rs, .label l] => some [.branch cond rs .zero l]
    | _ => none
  | .compare c signed =>
    match operands with
    | [.reg rs, other, .label l] => compareAndBranch? c signed rs other l
    | _ => none
  | .shift _ | .shiftBy _ | .mulDiv _ | .branchSign _ | .moveFrom _ | .moveTo _ | .lui | .jr | .jalr
  | .jump _ | .syscall | .brk | .nop => none

/-- What comes of an instruction whose mnemonic is known. -/
def lowerKnown (m : Mnemonic) (name : String) (operands : List Operand) (extended : Bool) :
    Except EncodeError (List SymbolicInstr) :=
  match basicForm m operands, expansion? m operands with
  | .fits i, _ => .ok [i]
  | .outOfRange value, some is =>
    if extended then .ok is else .error (.immediateOutOfRange name value)
  | .outOfRange value, none => .error (.immediateOutOfRange name value)
  | .mismatch, some is | .unknown, some is =>
    if extended then .ok is else .error (.extendedNotAllowed name)
  | .mismatch, none | .unknown, none => .error (.invalidOperands name)

end Lowering

end MipsLab
