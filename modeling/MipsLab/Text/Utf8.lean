import MipsLab.Word

set_option autoImplicit false

/-!
# Text as bytes

The UTF-8 form of a text, and the two ways of reading bytes as text: the strict one refuses
malformed input, the lenient one puts a replacement character for each maximal part of it that
starts a character but does not complete one.
-/

namespace MipsLab.Utf8

/-- The bytes of a character. -/
def encodeChar (c : Char) : List Byte := (String.utf8EncodeChar c).map UInt8.toBitVec

/-- The bytes of a text. -/
def encode (cs : List Char) : List Byte := cs.flatMap encodeChar

/-- The number of bytes of a text. -/
def size (cs : List Char) : Nat := cs.foldr (fun c n => c.utf8Size + n) 0

/-- What the bytes that start a text are: a character and its number of bytes, or the number of
bytes that have to be passed over because no character can go on after them. -/
inductive Head where
  | char (c : Char) (size : Nat)
  | malformed (size : Nat)
deriving Repr, DecidableEq

/-- Whether a byte can only stand inside a character. -/
def isContinuation (b : Byte) : Bool := decide (0x80 ≤ b.toNat ∧ b.toNat < 0xC0)

/-- The payload of a continuation byte. -/
def payload (b : Byte) : Nat := b.toNat % 64

/-- The range of the byte that may follow `b` at the start of a character of three or four bytes.
It leaves out overlong forms, surrogates and numbers past the last character. -/
def secondRange (b : Byte) : Nat × Nat :=
  match b.toNat with
  | 0xE0 => (0xA0, 0xBF)
  | 0xED => (0x80, 0x9F)
  | 0xF0 => (0x90, 0xBF)
  | 0xF4 => (0x80, 0x8F)
  | _ => (0x80, 0xBF)

/-- The character at the start of the bytes `b :: bs`. -/
def head (b : Byte) (bs : List Byte) : Head :=
  let n := b.toNat
  let isSecond (c : Byte) : Bool :=
    decide ((secondRange b).1 ≤ c.toNat) && decide (c.toNat ≤ (secondRange b).2)
  if n < 0x80 then .char (Char.ofNat n) 1
  else if 0xC2 ≤ n ∧ n < 0xE0 then
    match bs with
    | c :: _ =>
      if isContinuation c then .char (Char.ofNat (n % 32 * 64 + payload c)) 2 else .malformed 1
    | [] => .malformed 1
  else if 0xE0 ≤ n ∧ n < 0xF0 then
    match bs with
    | c :: d :: _ =>
      if isSecond c then
        if isContinuation d then
          .char (Char.ofNat ((n % 16 * 64 + payload c) * 64 + payload d)) 3
        else .malformed 2
      else .malformed 1
    | [c] => if isSecond c then .malformed 2 else .malformed 1
    | [] => .malformed 1
  else if 0xF0 ≤ n ∧ n < 0xF5 then
    match bs with
    | c :: d :: e :: _ =>
      if isSecond c then
        if isContinuation d then
          if isContinuation e then
            .char (Char.ofNat (((n % 8 * 64 + payload c) * 64 + payload d) * 64 + payload e)) 4
          else .malformed 3
        else .malformed 2
      else .malformed 1
    | [c, d] =>
      if isSecond c then if isContinuation d then .malformed 3 else .malformed 2 else .malformed 1
    | [c] => if isSecond c then .malformed 2 else .malformed 1
    | [] => .malformed 1
  else .malformed 1

/-- Reads bytes of which the first `skip` belong to a character already read. A malformed part
reads as `onMalformed`. -/
def decodeFrom (onMalformed : Option Char) (skip : Nat) : List Byte → Option (List Char)
  | [] => some []
  | b :: bs =>
    match skip with
    | k + 1 => decodeFrom onMalformed k bs
    | 0 =>
      match head b bs with
      | .char c size => (decodeFrom onMalformed (size - 1) bs).map (c :: ·)
      | .malformed size =>
        match onMalformed with
        | some c => (decodeFrom onMalformed (size - 1) bs).map (c :: ·)
        | none => none

/-- The text that the bytes hold, or `none` if they are malformed. -/
def decode? (bs : List Byte) : Option (List Char) := decodeFrom none 0 bs

/-- The text that the bytes hold, with a replacement character for each malformed part. -/
def decodeLenient (bs : List Byte) : List Char := (decodeFrom (some '\uFFFD') 0 bs).getD []

end MipsLab.Utf8
