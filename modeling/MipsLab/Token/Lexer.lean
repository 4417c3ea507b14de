import MipsLab.Text.Lowercase
import MipsLab.Text.Utf8
import MipsLab.Token
import MipsLab.Token.Literal

set_option autoImplicit false

/-!
# Reading tokens

A text is read from left to right. Gaps are passed over; any other character starts the longest
token that its class allows, or is by itself an error. So is a token of the right form whose value
is not a valid one. Every character is either passed over or part of exactly one token or error.
-/

namespace MipsLab.Lexer

/-- What starts at a character: a token or an error, and how many characters belong to it after the
first one. -/
structure Lexeme where
  result : Except LexError Token
  extra : Nat

/-- A lexeme of one character. -/
def single (t : Token) : Lexeme := ⟨.ok t, 0⟩

/-- A character that starts no token. -/
def stray : Lexeme := ⟨.error .strayCharacter, 0⟩

/-- A lexeme that goes on with the characters in `tail`. -/
def withTail (tail : List Char) (read : List Char → Except LexError Token) : Lexeme :=
  ⟨read tail, tail.length⟩

/-- A lexeme whose marker is followed by a name. -/
def marked (rest : List Char) (read : List Char → Token) : Lexeme :=
  match rest with
  | c :: cs =>
    if CharClass.isNameStart c then
      withTail (c :: cs.takeWhile CharClass.isWord) fun tail => .ok (read tail)
    else stray
  | [] => stray

/-- A number whose first character is `c`. -/
def number (c : Char) (rest : List Char) : Lexeme :=
  withTail (rest.takeWhile CharClass.isWord) fun tail => (Literal.number (c :: tail)).map .int

/-- A string literal, given what follows its opening quote. -/
def stringLiteral (rest : List Char) : Lexeme :=
  let line := Lines.first rest
  match Literal.string? line with
  | some (text, length) => ⟨.ok (.str (String.ofList text)), length⟩
  | none => ⟨.error .unclosedString, line.length⟩

/-- The lexeme that starts with `c`, given the characters after it. -/
def lexeme (c : Char) (rest : List Char) : Lexeme :=
  match c with
  | ':' => single .colon
  | ',' => single .comma
  | '(' => single .leftParen
  | ')' => single .rightParen
  | '+' => single .plus
  | '#' => withTail (rest.takeWhile (· ≠ '\n')) fun _ => .ok .comment
  | '"' => stringLiteral rest
  | '\'' =>
    withTail (rest.take (Literal.characterLength rest)) fun tail =>
      (Literal.character tail).map .int
  | '$' =>
    withTail (rest.takeWhile CharClass.isWord) fun tail =>
      match Reg.ofName? (String.ofList tail) with
      | some r => .ok (.reg r)
      | none => .error .badRegister
  | '%' => marked rest fun tail => .param (String.ofList tail)
  | '.' => marked rest fun tail => .directive (String.ofList (Lowercase.lower tail))
  | '-' =>
    match rest with
    | d :: _ => if CharClass.isDigit d then number c rest else stray
    | [] => stray
  | _ =>
    if CharClass.isNameStart c then
      withTail (rest.takeWhile CharClass.isNameRest) fun tail =>
        .ok (.name (String.ofList (c :: tail)))
    else if CharClass.isDigit c then number c rest
    else stray

/-- The lexemes of a text that starts at byte `pos` of the line, and of which the first `skip`
characters belong to a lexeme already read. -/
def lexFrom (pos skip : Nat) : List Char → List (Except LexError Token × Span)
  | [] => []
  | c :: cs =>
    match skip with
    | k + 1 => lexFrom (pos + c.utf8Size) k cs
    | 0 =>
      if CharClass.isGap c then lexFrom (pos + c.utf8Size) 0 cs
      else
        let l := lexeme c cs
        (l.result, ⟨pos, pos + Utf8.size (c :: cs.take l.extra)⟩) ::
          lexFrom (pos + c.utf8Size) l.extra cs

/-- The tokens and errors of a text in order, each with its place. -/
def lex (text : List Char) : List (Except LexError Token × Span) := lexFrom 0 0 text

end MipsLab.Lexer
