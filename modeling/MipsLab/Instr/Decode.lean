import MipsLab.Instr

set_option autoImplicit false

/-!
# Decoding

The instruction that a machine word stands for, or none if the word is not the encoding of a
supported instruction. Fields that an instruction does not use are not looked at.
-/

namespace MipsLab.Instr

/-- The instruction of a word whose opcode is zero, by its function field. -/
def decodeFunction (w : Word) : Option Instr :=
  let rs : Reg := ⟨w.extractLsb' 21 5⟩
  let rt : Reg := ⟨w.extractLsb' 16 5⟩
  let rd : Reg := ⟨w.extractLsb' 11 5⟩
  let amount := w.extractLsb' 6 5
  let function := w.extractLsb' 0 6
  match function with
  | 0x08#6 => some (.jr rs)
  | 0x09#6 => some (.jalr rd rs)
  | 0x0C#6 => some .syscall
  | 0x0D#6 => some (.brk (w.extractLsb' 6 20).toNat)
  | 0x10#6 => some (.moveFrom .hi rd)
  | 0x11#6 => some (.moveTo .hi rs)
  | 0x12#6 => some (.moveFrom .lo rd)
  | 0x13#6 => some (.moveTo .lo rs)
  | f =>
    ((ShiftOp.ofCode? f).map fun op => .shift op rd rt amount.toNat)
      <|> ((ShiftOp.ofCodeByRegister? f).map fun op => .shiftBy op rd rt rs)
      <|> ((MulDivOp.ofCode? f).map fun op => .mulDiv op rs rt)
      <|> ((AluOp.ofCode? f).map fun op => .alu op rd rs rt)

/-- The instruction of a machine word. -/
def decode? (w : Word) : Option Instr :=
  let op := w.extractLsb' 26 6
  let rs : Reg := ⟨w.extractLsb' 21 5⟩
  let rt : Reg := ⟨w.extractLsb' 16 5⟩
  let rd : Reg := ⟨w.extractLsb' 11 5⟩
  let function := w.extractLsb' 0 6
  let imm : Half := w.extractLsb' 0 16
  match op with
  | 0x00#6 => decodeFunction w
  | 0x01#6 =>
    if rt = ⟨0⟩ then some (.branchSign .ltz rs imm)
    else if rt = ⟨1⟩ then some (.branchSign .gez rs imm)
    else none
  | 0x02#6 => some (.jump false (w.extractLsb' 0 26).toNat)
  | 0x03#6 => some (.jump true (w.extractLsb' 0 26).toNat)
  | 0x04#6 => some (.branch .eq rs rt imm)
  | 0x05#6 => some (.branch .ne rs rt imm)
  | 0x06#6 => some (.branchSign .lez rs imm)
  | 0x07#6 => some (.branchSign .gtz rs imm)
  | 0x0F#6 => some (.lui rt imm)
  | 0x1C#6 => if function = 0x02#6 then some (.mul rd rs rt) else none
  | o =>
    ((ImmOp.ofCode? o).map fun op => .aluImm op rt rs imm)
      <|> ((LoadOp.ofCode? o).map fun op => .load op rt rs imm)
      <|> ((StoreOp.ofCode? o).map fun op => .store op rt rs imm)

end MipsLab.Instr
