import MipsLab.Operand
import MipsLab.Token.Line

set_option autoImplicit false

/-!
# Statements

A line of tokens is a statement: labels, and then at most one instruction or directive with its
operands. Commas between operands may be left out.
-/

namespace MipsLab

/-- What a statement does, besides defining labels. -/
inductive Nucleus where
  | instr (mnemonic : String) (operands : List Operand)
  | directive (name : String) (operands : List Operand)
deriving DecidableEq, Repr

/-- The meaning of a line, with the places that diagnostics about its parts point at. -/
structure Statement where
  labels : List (String × Span)
  nucleus : Option Nucleus
  span : Span
deriving DecidableEq, Repr

namespace Statement

/-- A parse error and the token it is about. -/
abbrev ParseError := EncodeError × Span

/-- The register of a base in parentheses at the start of some tokens. -/
def base? : List LocatedToken → Option Reg
  | ⟨.leftParen, _⟩ :: ⟨.reg r, _⟩ :: ⟨.rightParen, _⟩ :: _ => some r
  | _ => none

/-- The operand at the start of the tokens `t :: rest`, and how many tokens belong to it after the
first one. -/
def operand? (t : Token) (rest : List LocatedToken) : Option (Operand × Nat) :=
  match t with
  | .reg r => some (.reg r, 0)
  | .str text => some (.str text, 0)
  | .int value =>
    match base? rest with
    | some r => some (.mem value r, 3)
    | none => some (.imm value, 0)
  | .leftParen =>
    match rest with
    | ⟨.reg r, _⟩ :: ⟨.rightParen, _⟩ :: _ => some (.mem 0 r, 2)
    | _ => none
  | .name text =>
    match rest with
    | ⟨.plus, _⟩ :: ⟨.int value, _⟩ :: _ => some (.label ⟨text, value⟩, 2)
    | ⟨.plus, _⟩ :: ⟨_, _⟩ :: _ => none
    | ⟨.int value, _⟩ :: _ =>
      if value < 0 then some (.label ⟨text, value⟩, 1) else some (.label ⟨text, 0⟩, 0)
    | _ => some (.label ⟨text, 0⟩, 0)
  | _ => none

/-- The operands of a list of tokens of which the first `skip` belong to an operand already read.
After an operand one comma is passed over, unless it is the last token. -/
def operandsFrom (skip : Nat) : List LocatedToken → Except ParseError (List Operand)
  | [] => .ok []
  | t :: rest =>
    match skip with
    | k + 1 => operandsFrom k rest
    | 0 =>
      match operand? t.token rest with
      | none => .error (.unexpectedToken, t.span)
      | some (operand, extra) =>
        match rest.drop extra with
        | [⟨.comma, span⟩] => .error (.unexpectedToken, span)
        | ⟨.comma, _⟩ :: _ :: _ => return operand :: (← operandsFrom (extra + 1) rest)
        | _ => return operand :: (← operandsFrom extra rest)

/-- The operands of a list of tokens. -/
def operands (tokens : List LocatedToken) : Except ParseError (List Operand) :=
  operandsFrom 0 tokens

/-- The statement of a list of tokens. -/
def ofTokens (tokens : List LocatedToken) : Except ParseError Statement := do
  let labels := namesIn (splitLabels tokens).1
  match (splitLabels tokens).2 with
  | [] => return ⟨labels, none, ⟨0, 0⟩⟩
  | first :: others =>
    let stop := (others.getLast?.getD first).span.stop
    let ops ← operands others
    match first.token with
    | .name text => return ⟨labels, some (.instr text ops), ⟨first.span.start, stop⟩⟩
    | .directive text => return ⟨labels, some (.directive text ops), ⟨first.span.start, stop⟩⟩
    | _ => .error (.unexpectedToken, first.span)

end Statement

end MipsLab
