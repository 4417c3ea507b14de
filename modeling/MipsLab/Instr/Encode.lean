import MipsLab.Instr

set_option autoImplicit false

/-!
# Encoding

The machine word of an instruction. A word is the concatenation of its fields, and a number that
does not fit its field loses its high bits.
-/

namespace MipsLab.Instr

/-- The format of instructions on registers only. -/
def registerFormat (op : BitVec 6) (rs rt rd : Reg) (amount : BitVec 5) (function : BitVec 6) :
    Word :=
  op ++ rs.index ++ rt.index ++ rd.index ++ amount ++ function

/-- The format of instructions with a 16-bit field. -/
def immediateFormat (op : BitVec 6) (rs rt : Reg) (imm : Half) : Word :=
  op ++ rs.index ++ rt.index ++ imm

/-- The machine word of an instruction. -/
def encode : Instr → Word
  | alu op rd rs rt => registerFormat 0 rs rt rd 0 op.code
  | shift op rd rt amount => registerFormat 0 .zero rt rd (BitVec.ofNat 5 amount) op.code
  | shiftBy op rd rt rs => registerFormat 0 rs rt rd 0 op.codeByRegister
  | mulDiv op rs rt => registerFormat 0 rs rt .zero 0 op.code
  | mul rd rs rt => registerFormat 0x1C rs rt rd 0 0x02
  | moveFrom .hi rd => registerFormat 0 .zero .zero rd 0 0x10
  | moveTo .hi rs => registerFormat 0 rs .zero .zero 0 0x11
  | moveFrom .lo rd => registerFormat 0 .zero .zero rd 0 0x12
  | moveTo .lo rs => registerFormat 0 rs .zero .zero 0 0x13
  | jr rs => registerFormat 0 rs .zero .zero 0 0x08
  | jalr rd rs => registerFormat 0 rs .zero rd 0 0x09
  | syscall => registerFormat 0 .zero .zero .zero 0 0x0C
  | brk code => 0#6 ++ BitVec.ofNat 20 code ++ 0x0D#6
  | aluImm op rt rs imm => immediateFormat op.code rs rt imm
  | lui rt imm => immediateFormat 0x0F .zero rt imm
  | load op rt base offset => immediateFormat op.code base rt offset
  | store op rt base offset => immediateFormat op.code base rt offset
  | branch cond rs rt offset => immediateFormat cond.code rs rt offset
  | branchSign .lez rs offset => immediateFormat 0x06 rs ⟨0⟩ offset
  | branchSign .gtz rs offset => immediateFormat 0x07 rs ⟨0⟩ offset
  | branchSign .ltz rs offset => immediateFormat 0x01 rs ⟨0⟩ offset
  | branchSign .gez rs offset => immediateFormat 0x01 rs ⟨1⟩ offset
  | jump link index => (if link then 0x03#6 else 0x02#6) ++ BitVec.ofNat 26 index

end MipsLab.Instr
