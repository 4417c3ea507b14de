import MipsLab.Text.CharClass

set_option autoImplicit false

/-!
# Quoted text

How a listing shows a string: between double quotes, with an escape for each character that would
otherwise end the quotation, break the line or stay invisible.
-/

namespace MipsLab.Quoted

/-- How one character is written inside quotes. -/
def encodeChar (c : Char) : List Char :=
  if c == '"' then ['\\', '"']
  else if c == '\\' then ['\\', '\\']
  else if c == '\n' then ['\\', 'n']
  else if c == '\r' then ['\\', 'r']
  else if c == '\t' then ['\\', 't']
  else if c == '\x00' then ['\\', '0']
  else if CharClass.isHidden c then
    ['\\', 'u', '\x7b'] ++ Nat.toDigits 16 c.toNat ++ ['\x7d']
  else [c]

/-- A text between quotes. -/
def encode (cs : List Char) : List Char := '"' :: cs.flatMap encodeChar ++ ['"']

end MipsLab.Quoted
