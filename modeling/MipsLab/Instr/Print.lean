import MipsLab.Instr

set_option autoImplicit false

/-!
# Listing of instructions

The assembly text of an instruction: the mnemonic, then the operands separated by commas. Immediates
that are sign-extended are written in decimal and the others in hexadecimal, and a jump shows the
address of its target within the region.
-/

namespace MipsLab.Instr

/-- The operands after a mnemonic. -/
def line (mnemonic : String) (operands : List String) : String :=
  mnemonic ++ " " ++ ", ".intercalate operands

/-- A memory operand. -/
def place (offset : Half) (base : Reg) : String :=
  Numeral.int offset.toInt ++ "(" ++ base.text ++ ")"

/-- The assembly text of an instruction. -/
def text (i : Instr) : String :=
  if i = nop then "nop"
  else
    match i with
    | alu op rd rs rt => line op.mnemonic [rd.text, rs.text, rt.text]
    | shift op rd rt amount => line op.mnemonic [rd.text, rt.text, Numeral.nat amount]
    | shiftBy op rd rt rs => line (op.mnemonic ++ "v") [rd.text, rt.text, rs.text]
    | mulDiv op rs rt => line op.mnemonic [rs.text, rt.text]
    | mul rd rs rt => line "mul" [rd.text, rs.text, rt.text]
    | moveFrom .hi rd => line "mfhi" [rd.text]
    | moveFrom .lo rd => line "mflo" [rd.text]
    | moveTo .hi rs => line "mthi" [rs.text]
    | moveTo .lo rs => line "mtlo" [rs.text]
    | jr rs => line "jr" [rs.text]
    | jalr rd rs => line "jalr" [rd.text, rs.text]
    | syscall => "syscall"
    | brk code => if code = 0 then "break" else line "break" [Numeral.nat code]
    | aluImm op rt rs imm =>
      line op.mnemonic [rt.text, rs.text,
        if op.zeroExtends then Numeral.hex4 imm.toNat else Numeral.int imm.toInt]
    | lui rt imm => line "lui" [rt.text, Numeral.hex4 imm.toNat]
    | load op rt base offset => line op.mnemonic [rt.text, place offset base]
    | store op rt base offset => line op.mnemonic [rt.text, place offset base]
    | branch cond rs rt offset => line cond.mnemonic [rs.text, rt.text, Numeral.int offset.toInt]
    | branchSign cond rs offset => line cond.mnemonic [rs.text, Numeral.int offset.toInt]
    | jump link index =>
      line (if link then "jal" else "j") [Numeral.hex8 (index * 4 % 0x100000000)]

end MipsLab.Instr
