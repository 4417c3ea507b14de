import MipsLab.Reg

set_option autoImplicit false

/-!
# Tokens

The smallest meaningful parts of a line of assembly text, and where in the line they stand.
-/

namespace MipsLab

/-- A token. -/
inductive Token where
  /-- A number or a character literal. -/
  | int (value : Int)
  | reg (r : Reg)
  /-- A label, a mnemonic, or the name of a constant or macro. -/
  | name (text : String)
  /-- A directive, in lower case and without its dot. -/
  | directive (text : String)
  /-- A macro parameter, without its percent sign. -/
  | param (text : String)
  /-- A string literal, with its escapes replaced. -/
  | str (text : String)
  | colon
  | comma
  | leftParen
  | rightParen
  | plus
  | comment
deriving DecidableEq, Repr

/-- A part of a line, from the byte at `start` up to, and without, the byte at `stop`. -/
structure Span where
  start : Nat
  stop : Nat
deriving DecidableEq, Repr

/-- A token and the part of the line it was read from. -/
structure LocatedToken where
  token : Token
  span : Span
deriving DecidableEq, Repr

end MipsLab
