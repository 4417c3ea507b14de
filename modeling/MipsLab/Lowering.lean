import MipsLab.SymbolicInstr

set_option autoImplicit false

/-!
# From written instructions to machine instructions

A mnemonic with operands is accepted in two ways. The basic form is one machine instruction of that
name. The expansion is a sequence of machine instructions with the same effect, which may use the
scratch register; it covers the extended mnemonics, and the basic ones with operands that the
machine instruction cannot hold. A basic form is preferred, and expansions can be switched off.

A mnemonic is looked for in one table of operations after the other, and then among the names that
stand alone. It only exists if some table has it, which is why the names that are not found there with
other operands, or not at all without an expansion, are listed as well.
-/

namespace MipsLab

/-- What the basic forms of a mnemonic have to say about operands. -/
inductive BasicForm where
  /-- They are those of a machine instruction. -/
  | fits (i : SymbolicInstr)
  /-- They would be, but for a number that its field cannot hold. -/
  | outOfRange (value : Int)
  /-- The mnemonic has no basic form with such operands. -/
  | mismatch
  /-- There is no machine instruction of that name. -/
  | unknown
deriving DecidableEq, Repr

namespace Lowering

/-! ## Operations by their mnemonics -/

def aluOp? (name : String) : Option AluOp := AluOp.all.find? (·.mnemonic == name)

def immOp? (name : String) : Option ImmOp := ImmOp.all.find? (·.mnemonic == name)

/-- The shift of a given name, and whether it is one by a register. -/
def shiftOp? (name : String) : Option (ShiftOp × Bool) :=
  ShiftOp.all.findSome? fun op =>
    match op.mnemonic.toList.isPrefixOf? name.toList with
    | some [] => some (op, false)
    | some ['v'] => some (op, true)
    | _ => none

def mulDivOp? (name : String) : Option MulDivOp := MulDivOp.all.find? (·.mnemonic == name)

def loadOp? (name : String) : Option LoadOp := LoadOp.all.find? (·.mnemonic == name)

def storeOp? (name : String) : Option StoreOp := StoreOp.all.find? (·.mnemonic == name)

def signCond? : String → Option SignCond
  | "blez" => some .lez
  | "bgtz" => some .gtz
  | "bltz" => some .ltz
  | "bgez" => some .gez
  | _ => none

def branchCond? : String → Option BranchCond
  | "beq" => some .eq
  | "bne" => some .ne
  | _ => none

/-! ## Basic forms -/

/-- The basic form `i`, whose number has to satisfy `p`. -/
def withNumber (value : Int) (p : Prop) [Decidable p] (i : SymbolicInstr) : BasicForm :=
  if p then .fits i else .outOfRange value

/-- Whether the immediate of an operation can be `value`. -/
def ImmFits (op : ImmOp) (value : Int) : Prop :=
  if op.zeroExtends then FitsUnsigned16 value else FitsSigned16 value

instance (op : ImmOp) (value : Int) : Decidable (ImmFits op value) := by
  unfold ImmFits
  infer_instance

/-- The 16-bit field that holds a number. -/
def half (value : Int) : Half := BitVec.ofInt 16 value

/-- The basic forms of the names that stand alone. -/
def matchNamed (name : String) (operands : List Operand) : BasicForm :=
  match name, operands with
  | "mul", [.reg rd, .reg rs, .reg rt] => .fits (.plain (.mul rd rs rt))
  | "mfhi", [.reg rd] => .fits (.plain (.moveFrom .hi rd))
  | "mflo", [.reg rd] => .fits (.plain (.moveFrom .lo rd))
  | "mthi", [.reg rs] => .fits (.plain (.moveTo .hi rs))
  | "mtlo", [.reg rs] => .fits (.plain (.moveTo .lo rs))
  | "lui", [.reg rt, .imm n] =>
    withNumber n (-32768 ≤ n ∧ n ≤ 65535) (.plain (.lui rt (half n)))
  | "jr", [.reg rs] => .fits (.plain (.jr rs))
  | "jalr", [.reg rs] => .fits (.plain (.jalr .ra rs))
  | "jalr", [.reg rd, .reg rs] => .fits (.plain (.jalr rd rs))
  | "j", [.label l] | "jal", [.label l] => .fits (.jump (name == "jal") (.label l))
  | "j", [.imm n] | "jal", [.imm n] =>
    if IsUnsigned32 n then .fits (.jump (name == "jal") (.address (Word.ofInt n))) else .mismatch
  | "syscall", [] => .fits (.plain .syscall)
  | "break", [] => .fits (.plain (.brk 0))
  | "break", [.imm n] => if 0 ≤ n ∧ n < 0x100000 then .fits (.plain (.brk n.toNat)) else .mismatch
  | "nop", [] => .fits (.plain .nop)
  | "mul", _ | "mfhi", _ | "mflo", _ | "mthi", _ | "mtlo", _ | "lui", _ | "jr", _ | "jalr", _
  | "j", _ | "jal", _ | "syscall", _ | "break", _ | "nop", _ => .mismatch
  | _, _ => .unknown

/-- The machine instruction that a mnemonic with operands is the name of. -/
def matchBasic (name : String) (operands : List Operand) : BasicForm :=
  if let some op := aluOp? name then
    match operands with
    | [.reg rd, .reg rs, .reg rt] => .fits (.plain (.alu op rd rs rt))
    | _ => .mismatch
  else if let some op := immOp? name then
    match operands with
    | [.reg rt, .reg rs, .imm n] => withNumber n (ImmFits op n) (.plain (.aluImm op rt rs (half n)))
    | _ => .mismatch
  else if let some (op, byRegister) := shiftOp? name then
    match operands, byRegister with
    | [.reg rd, .reg rt, .imm n], false =>
      withNumber n (0 ≤ n ∧ n < 32) (.plain (.shift op rd rt n.toNat))
    | [.reg rd, .reg rt, .reg rs], true => .fits (.plain (.shiftBy op rd rt rs))
    | _, _ => .mismatch
  else if let some op := mulDivOp? name then
    match operands with
    | [.reg rs, .reg rt] => .fits (.plain (.mulDiv op rs rt))
    | _ => .mismatch
  else if let some op := loadOp? name then
    match operands with
    | [.reg rt, .mem n base] => withNumber n (FitsSigned16 n) (.plain (.load op rt base (half n)))
    | _ => .mismatch
  else if let some op := storeOp? name then
    match operands with
    | [.reg rt, .mem n base] => withNumber n (FitsSigned16 n) (.plain (.store op rt base (half n)))
    | _ => .mismatch
  else if let some cond := branchCond? name then
    match operands with
    | [.reg rs, .reg rt, .label l] => .fits (.branch cond rs rt l)
    | [.reg rs, .reg rt, .imm n] =>
      withNumber n (FitsSigned16 n) (.plain (.branch cond rs rt (half n)))
    | _ => .mismatch
  else if let some cond := signCond? name then
    match operands with
    | [.reg rs, .label l] => .fits (.branchSign cond rs l)
    | [.reg rs, .imm n] => withNumber n (FitsSigned16 n) (.plain (.branchSign cond rs (half n)))
    | _ => .mismatch
  else matchNamed name operands

/-! ## Expansions -/

/-- Puts a constant, taken modulo `2 ^ 32`, into a register. -/
def loadConstant (rt : Reg) (value : Int) : List SymbolicInstr :=
  let word := Word.ofInt value
  if FitsSigned16 word.toInt then [.plain (.aluImm .addiu rt .zero (half word.toInt))]
  else if FitsUnsigned16 word.toNat then [.plain (.aluImm .ori rt .zero (half word.toNat))]
  else
    [.plain (.lui .scratch (AddressPart.high.of word)),
      .plain (.aluImm .ori rt .scratch (AddressPart.low.of word))]

/-- Puts the address of a label into a register. -/
def loadAddress (rt : Reg) (l : LabelRef) : List SymbolicInstr :=
  [.lui .scratch l .high, .aluImm .ori rt .scratch l .low]

/-- An instruction whose last source is the scratch register, after a constant was put there. -/
def afterConstant (value : Int) (i : SymbolicInstr) : List SymbolicInstr :=
  loadConstant .scratch value ++ [i]

/-- The register that holds an operand, with the instructions that put it there. -/
def sourceOf? : Operand → Option (List SymbolicInstr × Reg)
  | .reg r => some ([], r)
  | .imm value => some (loadConstant .scratch value, .scratch)
  | _ => none

/-- The operation on a register and an immediate that agrees with one on registers. -/
def immediateForm? : AluOp → Option ImmOp
  | .add => some .addi
  | .addu => some .addiu
  | .slt => some .slti
  | .sltu => some .sltiu
  | .and => some .andi
  | .or => some .ori
  | .xor => some .xori
  | .sub | .subu | .nor => none

/-- The operation on registers that agrees with one on a register and an immediate. -/
def registerForm : ImmOp → AluOp
  | .addi => .add
  | .addiu => .addu
  | .slti => .slt
  | .sltiu => .sltu
  | .andi => .and
  | .ori => .or
  | .xori => .xor

/-- The operation on a register and an immediate that has the effect of one on registers with a
constant as last operand, and the immediate to use. -/
def immediateFor? (value : Int) : AluOp → Option (ImmOp × Int)
  | .sub => some (.addi, -value)
  | .subu => some (.addiu, -value)
  | op => (immediateForm? op).map fun i => (i, value)

/-- An operation on registers with a constant in place of the last one. -/
def aluConstant (op : AluOp) (rd rs : Reg) (value : Int) : List SymbolicInstr :=
  match immediateFor? value op with
  | some (immOp, imm) =>
    if ImmFits immOp imm then [.plain (.aluImm immOp rd rs (half imm))]
    else afterConstant value (.plain (.alu op rd rs .scratch))
  | none => afterConstant value (.plain (.alu op rd rs .scratch))

/-- A load or store of a label, of an absolute address, or at an offset of any size. The register
form of the access is `direct`, and the label form, whose base is the scratch register, is
`labelled`. -/
def memoryAccess? (direct : Reg → Reg → Half → SymbolicInstr)
    (labelled : Reg → LabelRef → SymbolicInstr) : List Operand → Option (List SymbolicInstr)
  | [.reg rt, .label l] => some [.lui .scratch l .highRounded, labelled rt l]
  | [.reg rt, .imm n] =>
    if FitsSigned16 n then some [direct rt .zero (half n)]
    else
      some [.plain (.lui .scratch (AddressPart.highRounded.of (Word.ofInt n))),
        direct rt .scratch (AddressPart.low.of (Word.ofInt n))]
  | [.reg rt, .mem n base] =>
    some [.plain (.lui .scratch (AddressPart.highRounded.of (Word.ofInt n))),
      .plain (.alu .addu .scratch .scratch base),
      direct rt .scratch (AddressPart.low.of (Word.ofInt n))]
  | _ => none

/-- A subtraction of a constant, which adds its negative if that is short enough. -/
def subtractConstant (name : String) (rt rs : Reg) (value : Int) : List SymbolicInstr :=
  let (immOp, op) : ImmOp × AluOp :=
    match name with
    | "subi" => (.addi, .sub)
    | _ => (.addiu, .subu)
  if FitsSigned16 (-value) then [.plain (.aluImm immOp rt rs (half (-value)))]
  else afterConstant value (.plain (.alu op rt rs .scratch))

/-- A division whose result goes to a register. -/
def divideInto? (name : String) (rd rs : Reg) (divisor : Operand) : Option (List SymbolicInstr) := do
  let op : MulDivOp :=
    match name with
    | "div" | "rem" => .div
    | _ => .divu
  let result : HiLo :=
    match name with
    | "div" | "divu" => .lo
    | _ => .hi
  let (setup, rt) ← sourceOf? divisor
  return setup ++ [.plain (.mulDiv op rs rt), .plain (.moveFrom result rd)]

/-- The comparison that a branch makes, and whether it takes the values as unsigned numbers. -/
def comparisonOf (name : String) : String × Bool :=
  match name.toList.reverse with
  | 'u' :: comparison => (String.ofList comparison.reverse, true)
  | _ => (name, false)

/-- A branch to a label if a register compares to an operand as asked. The scratch register becomes 1 if
the first of two values is below the second, and the branch looks at that. -/
def branchOnComparison? (name : String) (rs : Reg) (other : Operand) (l : LabelRef) :
    Option (List SymbolicInstr) := do
  let (comparison, unsigned) := comparisonOf name
  let (setup, rt) ← sourceOf? other
  let (a, b, cond) : Reg × Reg × BranchCond :=
    match comparison with
    | "blt" => (rs, rt, .ne)
    | "bgt" => (rt, rs, .ne)
    | "ble" => (rt, rs, .eq)
    | _ => (rs, rt, .eq)
  return setup ++
    [.plain (.alu (if unsigned then .sltu else .slt) .scratch a b), .branch cond .scratch .zero l]

/-- The expansions of branches. -/
def expandBranch? (name : String) (operands : List Operand) : Option (List SymbolicInstr) :=
  match name, operands with
  | "b", [.label l] => some [.branch .eq .zero .zero l]
  | "beqz", [.reg rs, .label l] => some [.branch .eq rs .zero l]
  | "bnez", [.reg rs, .label l] => some [.branch .ne rs .zero l]
  | "blt", [.reg rs, other, .label l] | "bgt", [.reg rs, other, .label l]
  | "ble", [.reg rs, other, .label l] | "bge", [.reg rs, other, .label l]
  | "bltu", [.reg rs, other, .label l] | "bgtu", [.reg rs, other, .label l]
  | "bleu", [.reg rs, other, .label l] | "bgeu", [.reg rs, other, .label l] =>
    branchOnComparison? name rs other l
  | _, _ => none

/-- The expansions of divisions, and of what comes after them. -/
def expandDivision? (name : String) (operands : List Operand) : Option (List SymbolicInstr) :=
  match name, operands with
  | "div", [.reg rd, .reg rs, other] | "divu", [.reg rd, .reg rs, other]
  | "rem", [.reg rd, .reg rs, other] | "remu", [.reg rd, .reg rs, other] =>
    divideInto? name rd rs other
  | _, _ => expandBranch? name operands

/-- The expansions of the names that stand alone. -/
def expandNamed? (name : String) (operands : List Operand) : Option (List SymbolicInstr) :=
  match name, operands with
  | "li", [.reg rt, .imm n] => some (loadConstant rt n)
  | "la", [.reg rt, .label l] => some (loadAddress rt l)
  | "la", [.reg rt, .imm n] => some (loadConstant rt n)
  | "la", [.reg rt, .mem n base] =>
    if FitsSigned16 n then some [.plain (.aluImm .addiu rt base (half n))]
    else some (afterConstant n (.plain (.alu .addu rt .scratch base)))
  | "move", [.reg rd, .reg rs] => some [.plain (.alu .addu rd .zero rs)]
  | "not", [.reg rd, .reg rs] => some [.plain (.alu .nor rd rs .zero)]
  | "neg", [.reg rd, .reg rs] => some [.plain (.alu .sub rd .zero rs)]
  | "subi", [.reg rt, .reg rs, .imm n] | "subiu", [.reg rt, .reg rs, .imm n] =>
    some (subtractConstant name rt rs n)
  | "mul", [.reg rd, .reg rs, .imm n] => some (afterConstant n (.plain (.mul rd rs .scratch)))
  | _, _ => expandDivision? name operands

/-- The machine instructions that have the effect of a mnemonic with operands. -/
def expandPseudo? (name : String) (operands : List Operand) : Option (List SymbolicInstr) :=
  if let some op := aluOp? name then
    match operands with
    | [.reg rd, .reg rs, .imm n] => some (aluConstant op rd rs n)
    | _ => none
  else if let some op := immOp? name then
    match operands with
    | [.reg rt, .reg rs, .imm n] =>
      some (afterConstant n (.plain (.alu (registerForm op) rt rs .scratch)))
    | _ => none
  else if let some op := loadOp? name then
    memoryAccess? (fun rt base n => .plain (.load op rt base n)) (fun rt l => .load op rt .scratch l)
      operands
  else if let some op := storeOp? name then
    memoryAccess? (fun rt base n => .plain (.store op rt base n))
      (fun rt l => .store op rt .scratch l) operands
  else if let some cond := branchCond? name then
    match operands with
    | [.reg rs, .imm n, .label l] => some (afterConstant n (.branch cond rs .scratch l))
    | _ => none
  else expandNamed? name operands

/-- The mnemonics that only have expansions. -/
def pseudoMnemonics : List String :=
  ["li", "la", "move", "not", "neg", "subi", "subiu", "b", "beqz", "bnez", "blt", "bgt", "ble", "bge",
    "bltu", "bgtu", "bleu", "bgeu", "rem", "remu"]

end Lowering

/-- The machine instructions for a written instruction. Expansions are only used if `extended` is
set; if they are not, the message tells a form that would need one from a number that is too
large. -/
def lower (mnemonic : String) (operands : List Operand) (extended : Bool) :
    Except EncodeError (List SymbolicInstr) :=
  let name := mnemonic.toLower
  match Lowering.matchBasic name operands with
  | .fits i => .ok [i]
  | basic =>
    match Lowering.expandPseudo? name operands, basic, extended with
    | some is, _, true => .ok is
    | _, .outOfRange value, _ => .error (.immediateOutOfRange name value)
    | some _, _, _ => .error (.extendedNotAllowed name)
    | none, .unknown, _ =>
      if Lowering.pseudoMnemonics.contains name then .error (.invalidOperands name)
      else .error (.unknownInstruction name)
    | none, _, _ => .error (.invalidOperands name)

end MipsLab
