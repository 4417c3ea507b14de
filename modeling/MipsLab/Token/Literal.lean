import MipsLab.Diagnostic.Cause
import MipsLab.Text.Lines
import MipsLab.Text.Numeral

set_option autoImplicit false

/-!
# Literals

The values of number, character and string literals. Numbers are decimal, or hexadecimal after
`0x`, and have to fit 32 bits as a signed or as an unsigned number.
-/

namespace MipsLab.Literal

/-- The magnitude of a number, read digit by digit onto `acc`. The first character that is not a
digit is an error, unless the digits before it already exceed 63 bits. -/
def magnitude (base : Nat) (notADigit : LexError) (acc : Nat) : List Char → Except LexError Nat
  | [] => .ok acc
  | c :: cs =>
    match Numeral.digitValue? base c with
    | none => .error notADigit
    | some d =>
      if acc * base + d < 0x8000000000000000 then magnitude base notADigit (acc * base + d) cs
      else .error .numberOutOfRange

/-- The magnitude of a number without its sign. -/
def unsignedValue : List Char → Except LexError Nat
  | '0' :: 'x' :: digits | '0' :: 'X' :: digits =>
    if digits.isEmpty then .error .noHexDigits else magnitude 16 .badHexDigit 0 digits
  | digits => magnitude 10 .badDecimalDigit 0 digits

/-- A value that fits 32 bits. -/
def inRange (value : Int) : Except LexError Int :=
  if -2147483648 ≤ value ∧ value ≤ 4294967295 then .ok value else .error .numberOutOfRange

/-- The value of a number literal. -/
def number : List Char → Except LexError Int
  | '-' :: digits => do inRange (-(← unsignedValue digits : Nat))
  | digits => do inRange (← unsignedValue digits : Nat)

/-- The character that an escape stands for. -/
def unescape? : Char → Option Char
  | 'n' => some '\n'
  | 'r' => some '\r'
  | 't' => some '\t'
  | '0' => some '\x00'
  | '\\' => some '\\'
  | '\'' => some '\''
  | '"' => some '"'
  | _ => none

/-- The number of characters of a character literal after its opening quote: all up to and with the
closing quote, where a backslash hides the character after it. Without a closing quote the literal
goes on to the end of the text, or up to a backslash that has nothing to hide. -/
def characterLength : List Char → Nat
  | [] => 0
  | '\'' :: _ => 1
  | ['\\'] => 0
  | '\\' :: c :: cs => if c = '\n' then 0 else characterLength cs + 2
  | _ :: cs => characterLength cs + 1

/-- The value of a character literal, given what follows its opening quote: the code point of the
one character or escape before the closing quote. -/
def character (body : List Char) : Except LexError Int :=
  if body.getLast? = some '\'' then
    match body.dropLast with
    | [c] => if c = '\\' then .error .badCharacter else .ok c.toNat
    | ['\\', c] =>
      match unescape? c with
      | some e => .ok e.toNat
      | none => .error .badCharacter
    | _ => .error .badCharacter
  else .error .badCharacter

/-- The text of a string literal and its number of characters after the opening quote, given what
follows that quote on the line. Escapes without a meaning stay as they are written. The result is
`none` if there is no closing quote. -/
def string? : List Char → Option (List Char × Nat)
  | [] => none
  | '"' :: _ => some ([], 1)
  | ['\\'] => none
  | '\\' :: c :: cs =>
    (string? cs).map fun (text, length) =>
      (match unescape? c with
        | some e => e :: text
        | none => '\\' :: c :: text, length + 2)
  | c :: cs => (string? cs).map fun (text, length) => (c :: text, length + 1)

end MipsLab.Literal
