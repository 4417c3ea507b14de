import MipsLab.Reg
import MipsLab.Text.Quoted

set_option autoImplicit false

/-!
# Operands

What may follow a mnemonic or a directive, and how a listing shows it.
-/

namespace MipsLab

/-- A label with a constant that is added to its address. -/
structure LabelRef where
  name : String
  offset : Int
deriving DecidableEq, Repr

/-- A label as listings show it: a zero offset is left out, any other has its sign. -/
def LabelRef.text (l : LabelRef) : String :=
  if l.offset = 0 then l.name
  else if 0 < l.offset then l.name ++ "+" ++ Numeral.int l.offset
  else l.name ++ Numeral.int l.offset

/-- An operand of an instruction or directive. -/
inductive Operand where
  | reg (r : Reg)
  | imm (value : Int)
  | label (l : LabelRef)
  | mem (offset : Int) (base : Reg)
  | str (text : String)
deriving DecidableEq, Repr

/-- An operand as listings show it. -/
def Operand.text : Operand → String
  | reg r => r.text
  | imm value => Numeral.int value
  | label l => l.text
  | mem offset base => Numeral.int offset ++ "(" ++ base.text ++ ")"
  | str text => String.ofList (Quoted.encode text.toList)

end MipsLab
