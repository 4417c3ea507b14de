import MipsLab.Machine.Service

set_option autoImplicit false

/-!
# Executing instructions

What each instruction does, and the address of the instruction after it.
-/

namespace MipsLab.Machine

/-- The sum of two signed words, if it is one. -/
def signedAdd? (a b : Word) : Option Word := if BitVec.saddOverflow a b then none else some (a + b)

/-- The difference of two signed words, if it is one. -/
def signedSub? (a b : Word) : Option Word := if BitVec.ssubOverflow a b then none else some (a - b)

/-- A truth value as a word. -/
def truth (b : Bool) : Word := if b then 1 else 0

/-- The result of an operation on two registers, or `none` if it overflows. -/
def aluResult? (a b : Word) : AluOp → Option Word
  | .add => signedAdd? a b
  | .addu => some (a + b)
  | .sub => signedSub? a b
  | .subu => some (a - b)
  | .and => some (a &&& b)
  | .or => some (a ||| b)
  | .xor => some (a ^^^ b)
  | .nor => some (~~~(a ||| b))
  | .slt => some (truth (BitVec.slt a b))
  | .sltu => some (truth (BitVec.ult a b))

/-- The result of an operation on a register and an immediate, or `none` if it overflows. -/
def immResult? (a : Word) (imm : Half) : ImmOp → Option Word
  | .addi => signedAdd? a (imm.signExtend 32)
  | .addiu => some (a + imm.signExtend 32)
  | .slti => some (truth (BitVec.slt a (imm.signExtend 32)))
  | .sltiu => some (truth (BitVec.ult a (imm.signExtend 32)))
  | .andi => some (a &&& imm.setWidth 32)
  | .ori => some (a ||| imm.setWidth 32)
  | .xori => some (a ^^^ imm.setWidth 32)

/-- The result of a shift. -/
def shiftResult (value : Word) (amount : Nat) : ShiftOp → Word
  | .sll => value <<< amount
  | .srl => value >>> amount
  | .sra => value.sshiftRight amount

/-- The values that a multiplication or division leaves in `hi` and `lo`. A division by zero leaves
them alone. -/
def mulDivResult? (a b : Word) : MulDivOp → Option (Word × Word)
  | .mult => some (halves (a.signExtend 64 * b.signExtend 64))
  | .multu => some (halves (a.setWidth 64 * b.setWidth 64))
  | .div => if b = 0 then none else some (BitVec.srem a b, BitVec.sdiv a b)
  | .divu => if b = 0 then none else some (a % b, a / b)
where
  /-- The upper and the lower word of a product. -/
  halves (product : BitVec 64) : Word × Word :=
    (product.extractLsb' 32 32, product.extractLsb' 0 32)

/-- The value that a load gives to its register. -/
def loadResult (raw : Word) : LoadOp → Word
  | .lb => (raw.setWidth 8).signExtend 32
  | .lh => (raw.setWidth 16).signExtend 32
  | .lw | .lbu | .lhu => raw

/-- The result of an operation, or an overflow. -/
def checked (result : Option Word) : Exec Word :=
  match result with
  | some value => return value
  | none => fail .overflow

/-- The target of a branch whose next instruction is at `next`. -/
def branchTarget (next : Word) (offset : Half) : Word := next + (offset.signExtend 32 <<< 2)

/-- Executes an instruction at the address `pc`, and gives the address of the instruction after
it. -/
def execute (pc : Word) (i : Instr) : Exec Word :=
  let next := pc + 4
  match i with
  | .alu op rd rs rt => do
    let a ← readGeneral rs
    let b ← readGeneral rt
    writeGeneral rd (← checked (aluResult? a b op))
    return next
  | .shift op rd rt amount => do
    writeGeneral rd (shiftResult (← readGeneral rt) amount op)
    return next
  | .shiftBy op rd rt rs => do
    let value ← readGeneral rt
    let amount ← readGeneral rs
    writeGeneral rd (shiftResult value (amount.toNat % 32) op)
    return next
  | .mulDiv op rs rt => do
    let a ← readGeneral rs
    let b ← readGeneral rt
    match mulDivResult? a b op with
    | some (hi, lo) => writeHiLo hi lo
    | none => pure ()
    return next
  | .mul rd rs rt => do
    let a ← readGeneral rs
    let b ← readGeneral rt
    writeGeneral rd (a * b)
    return next
  | .moveFrom half rd => do
    writeGeneral rd (← readRegister half.register)
    return next
  | .moveTo half rs => do
    writeRegister half.register (← readGeneral rs)
    return next
  | .jr rs => readGeneral rs
  | .jalr rd rs => do
    let target ← readGeneral rs
    writeGeneral rd next
    return target
  | .syscall => do
    service
    return next
  | .brk code => fail (.brk code)
  | .aluImm op rt rs imm => do
    writeGeneral rt (← checked (immResult? (← readGeneral rs) imm op))
    return next
  | .lui rt imm => do
    writeGeneral rt (imm ++ 0#16)
    return next
  | .load op rt base offset => do
    let a := (← readGeneral base) + offset.signExtend 32
    writeGeneral rt (loadResult (← readMemory a op.width) op)
    return next
  | .store op rt base offset => do
    let a := (← readGeneral base) + offset.signExtend 32
    writeMemory a op.width (← readGeneral rt)
    return next
  | .branch cond rs rt offset => do
    let a ← readGeneral rs
    let b ← readGeneral rt
    return if cond.holds a b then branchTarget next offset else next
  | .branchSign cond rs offset => do
    let a ← readGeneral rs
    return if cond.holds a then branchTarget next offset else next
  | .jump link index => do
    if link then writeGeneral .ra next
    return (next &&& 0xF0000000#32) ||| BitVec.ofNat 32 (index * 4)

end MipsLab.Machine
