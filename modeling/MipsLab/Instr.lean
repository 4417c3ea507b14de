import MipsLab.Reg
import MipsLab.Word

set_option autoImplicit false

/-!
# Machine instructions

The instructions that the machine executes, with every operand a register or a number. The
operations that share a format are grouped, and each group has one table that gives the field of
the encoding and the mnemonic of an operation.
-/

namespace MipsLab

/-- Operations on two registers with the result in a third one. -/
inductive AluOp where
  | add | addu | sub | subu | and | or | xor | nor | slt | sltu
deriving DecidableEq, Repr

namespace AluOp

/-- All operations. -/
def all : List AluOp := [add, addu, sub, subu, and, or, xor, nor, slt, sltu]

/-- The function field. -/
def code : AluOp → BitVec 6
  | add => 0x20
  | addu => 0x21
  | sub => 0x22
  | subu => 0x23
  | and => 0x24
  | or => 0x25
  | xor => 0x26
  | nor => 0x27
  | slt => 0x2A
  | sltu => 0x2B

/-- The mnemonic. -/
def mnemonic : AluOp → String
  | add => "add"
  | addu => "addu"
  | sub => "sub"
  | subu => "subu"
  | and => "and"
  | or => "or"
  | xor => "xor"
  | nor => "nor"
  | slt => "slt"
  | sltu => "sltu"

/-- The operation with a given function field. -/
def ofCode? (c : BitVec 6) : Option AluOp := all.find? (·.code == c)

end AluOp

/-- Shifts. The amount is a number or the low bits of a register. -/
inductive ShiftOp where
  | sll | srl | sra
deriving DecidableEq, Repr

namespace ShiftOp

/-- All operations. -/
def all : List ShiftOp := [sll, srl, sra]

/-- The function field of a shift by a number. -/
def code : ShiftOp → BitVec 6
  | sll => 0x00
  | srl => 0x02
  | sra => 0x03

/-- The function field of a shift by a register. -/
def codeByRegister (op : ShiftOp) : BitVec 6 := op.code ||| 0x04

/-- The mnemonic of a shift by a number; a shift by a register has a `v` after it. -/
def mnemonic : ShiftOp → String
  | sll => "sll"
  | srl => "srl"
  | sra => "sra"

/-- The shift by a number with a given function field. -/
def ofCode? (c : BitVec 6) : Option ShiftOp := all.find? (·.code == c)

/-- The shift by a register with a given function field. -/
def ofCodeByRegister? (c : BitVec 6) : Option ShiftOp := all.find? (·.codeByRegister == c)

end ShiftOp

/-- Multiplications and divisions, with the result in `hi` and `lo`. -/
inductive MulDivOp where
  | mult | multu | div | divu
deriving DecidableEq, Repr

namespace MulDivOp

/-- All operations. -/
def all : List MulDivOp := [mult, multu, div, divu]

/-- The function field. -/
def code : MulDivOp → BitVec 6
  | mult => 0x18
  | multu => 0x19
  | div => 0x1A
  | divu => 0x1B

/-- The mnemonic. -/
def mnemonic : MulDivOp → String
  | mult => "mult"
  | multu => "multu"
  | div => "div"
  | divu => "divu"

/-- The operation with a given function field. -/
def ofCode? (c : BitVec 6) : Option MulDivOp := all.find? (·.code == c)

end MulDivOp

/-- Operations on a register and a 16-bit immediate. -/
inductive ImmOp where
  | addi | addiu | slti | sltiu | andi | ori | xori
deriving DecidableEq, Repr

namespace ImmOp

/-- All operations. -/
def all : List ImmOp := [addi, addiu, slti, sltiu, andi, ori, xori]

/-- The opcode. -/
def code : ImmOp → BitVec 6
  | addi => 0x08
  | addiu => 0x09
  | slti => 0x0A
  | sltiu => 0x0B
  | andi => 0x0C
  | ori => 0x0D
  | xori => 0x0E

/-- The mnemonic. -/
def mnemonic : ImmOp → String
  | addi => "addi"
  | addiu => "addiu"
  | slti => "slti"
  | sltiu => "sltiu"
  | andi => "andi"
  | ori => "ori"
  | xori => "xori"

/-- Whether the immediate is zero-extended; otherwise it is sign-extended. -/
def zeroExtends : ImmOp → Bool
  | andi | ori | xori => true
  | addi | addiu | slti | sltiu => false

/-- The operation with a given opcode. -/
def ofCode? (c : BitVec 6) : Option ImmOp := all.find? (·.code == c)

end ImmOp

/-- Loads from memory. -/
inductive LoadOp where
  | lb | lh | lw | lbu | lhu
deriving DecidableEq, Repr

namespace LoadOp

/-- All operations. -/
def all : List LoadOp := [lb, lh, lw, lbu, lhu]

/-- The opcode. -/
def code : LoadOp → BitVec 6
  | lb => 0x20
  | lh => 0x21
  | lw => 0x23
  | lbu => 0x24
  | lhu => 0x25

/-- The mnemonic. -/
def mnemonic : LoadOp → String
  | lb => "lb"
  | lh => "lh"
  | lw => "lw"
  | lbu => "lbu"
  | lhu => "lhu"

/-- The number of bytes read. -/
def width : LoadOp → Nat
  | lb | lbu => 1
  | lh | lhu => 2
  | lw => 4

/-- The operation with a given opcode. -/
def ofCode? (c : BitVec 6) : Option LoadOp := all.find? (·.code == c)

end LoadOp

/-- Stores to memory. -/
inductive StoreOp where
  | sb | sh | sw
deriving DecidableEq, Repr

namespace StoreOp

/-- All operations. -/
def all : List StoreOp := [sb, sh, sw]

/-- The opcode. -/
def code : StoreOp → BitVec 6
  | sb => 0x28
  | sh => 0x29
  | sw => 0x2B

/-- The mnemonic. -/
def mnemonic : StoreOp → String
  | sb => "sb"
  | sh => "sh"
  | sw => "sw"

/-- The number of bytes written. -/
def width : StoreOp → Nat
  | sb => 1
  | sh => 2
  | sw => 4

/-- The operation with a given opcode. -/
def ofCode? (c : BitVec 6) : Option StoreOp := all.find? (·.code == c)

end StoreOp

/-- Conditions on two registers. -/
inductive BranchCond where
  | eq | ne
deriving DecidableEq, Repr

namespace BranchCond

/-- Both conditions. -/
def all : List BranchCond := [eq, ne]

/-- The opcode. -/
def code : BranchCond → BitVec 6
  | eq => 0x04
  | ne => 0x05

/-- The mnemonic. -/
def mnemonic : BranchCond → String
  | eq => "beq"
  | ne => "bne"

/-- Whether two values meet the condition. -/
def holds (a b : Word) : BranchCond → Bool
  | eq => a == b
  | ne => a != b

end BranchCond

/-- Conditions on the sign of one register. -/
inductive SignCond where
  | lez | gtz | ltz | gez
deriving DecidableEq, Repr

namespace SignCond

/-- All conditions. -/
def all : List SignCond := [lez, gtz, ltz, gez]

/-- The mnemonic. -/
def mnemonic : SignCond → String
  | lez => "blez"
  | gtz => "bgtz"
  | ltz => "bltz"
  | gez => "bgez"

/-- Whether a value, read as signed, meets the condition. -/
def holds (a : Word) : SignCond → Bool
  | lez => decide (a.toInt ≤ 0)
  | gtz => decide (0 < a.toInt)
  | ltz => decide (a.toInt < 0)
  | gez => decide (0 ≤ a.toInt)

end SignCond

/-- The halves of a product, or the remainder and the quotient of a division. -/
inductive HiLo where
  | hi | lo
deriving DecidableEq, Repr

/-- The register that holds a half. -/
def HiLo.register : HiLo → Register
  | hi => .hi
  | lo => .lo

/-- A machine instruction. Registers stand in the order of the written operands, and offsets and
immediates are the raw bits of their field. -/
inductive Instr where
  /-- `op rd, rs, rt`. -/
  | alu (op : AluOp) (rd rs rt : Reg)
  /-- `op rd, rt, amount`. -/
  | shift (op : ShiftOp) (rd rt : Reg) (amount : Nat)
  /-- `op rd, rt, rs`. -/
  | shiftBy (op : ShiftOp) (rd rt rs : Reg)
  /-- `op rs, rt`. -/
  | mulDiv (op : MulDivOp) (rs rt : Reg)
  /-- `mul rd, rs, rt`, the low word of the product. -/
  | mul (rd rs rt : Reg)
  /-- `mfhi rd` or `mflo rd`. -/
  | moveFrom (half : HiLo) (rd : Reg)
  /-- `mthi rs` or `mtlo rs`. -/
  | moveTo (half : HiLo) (rs : Reg)
  /-- `jr rs`. -/
  | jr (rs : Reg)
  /-- `jalr rd, rs`. -/
  | jalr (rd rs : Reg)
  /-- `syscall`. -/
  | syscall
  /-- `break code`. -/
  | brk (code : Nat)
  /-- `op rt, rs, imm`. -/
  | aluImm (op : ImmOp) (rt rs : Reg) (imm : Half)
  /-- `lui rt, imm`. -/
  | lui (rt : Reg) (imm : Half)
  /-- `op rt, offset(base)`. -/
  | load (op : LoadOp) (rt base : Reg) (offset : Half)
  /-- `op rt, offset(base)`. -/
  | store (op : StoreOp) (rt base : Reg) (offset : Half)
  /-- `beq` or `bne`; the offset counts words from the next instruction. -/
  | branch (cond : BranchCond) (rs rt : Reg) (offset : Half)
  /-- A branch on the sign of `rs`; the offset counts words from the next instruction. -/
  | branchSign (cond : SignCond) (rs : Reg) (offset : Half)
  /-- `j` or, with `link`, `jal`; the index counts words within the 256 MiB region of the next
  instruction. -/
  | jump (link : Bool) (index : Nat)
deriving DecidableEq, Repr

namespace Instr

/-- The instruction that does nothing. -/
def nop : Instr := .shift .sll .zero .zero 0

/-- The numbers of an instruction fit the fields that hold them: 5 bits for a shift amount, 20 for
the code of a `break` and 26 for the index of a jump. -/
def InRange : Instr → Prop
  | shift _ _ _ amount => amount < 32
  | brk code => code < 0x100000
  | jump _ index => index < 0x4000000
  | _ => True

end Instr

end MipsLab
