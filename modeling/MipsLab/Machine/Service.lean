import MipsLab.Machine.Access
import MipsLab.Text.Utf8

set_option autoImplicit false

/-!
# Services

What `syscall` does: the register `$v0` selects a service, and `$a0` and `$a1` hold its arguments.
-/

namespace MipsLab.Machine

/-- The bytes of a text. -/
def textBytes (text : String) : List Byte := Utf8.encode text.toList

/-- A string without a terminating zero is printed up to this many bytes. -/
def printLimit : Nat := 0x100000

/-- The bytes from an address on, up to the first zero byte and at most `limit` of them; the bytes
read so far, last one first, are `before`. -/
def readString (before : List Byte) (a : Word) : Nat → Exec (List Byte)
  | 0 => return before.reverse
  | limit + 1 => do
    let b := (← readMemory a 1).setWidth 8
    if b = 0 then return before.reverse
    else readString (b :: before) (a + 1) limit

/-- Writes bytes one by one from an address on. -/
def writeString (a : Word) : List Byte → Exec Unit
  | [] => return ()
  | b :: bs => do
    writeMemory a 1 (b.setWidth 32)
    writeString (a + 1) bs

/-- Reads a number on a line of its own, with blanks around it. -/
def inputInt : Exec Word := do
  match ← inputLine with
  | none => fail .invalidInput
  | some line =>
    let chars := Utf8.decodeLenient line
    let trimmed := ((chars.dropWhile CharClass.isSpace).reverse.dropWhile CharClass.isSpace).reverse
    match Numeral.readSigned32? trimmed with
    | some n => return Word.ofInt n
    | none => fail .invalidInput

/-- What a buffer for `capacity` bytes receives of a line: the line and a newline, as far as they
fit, and a zero byte. -/
def lineBuffer (capacity : Nat) (line : List Byte) : List Byte :=
  (line ++ [newline]).take capacity ++ [0]

/-- Reads a line into a buffer of a given size. Nothing happens if there is not even room for a zero
byte, and nothing is read if there is only room for that. -/
def inputString (a : Word) (size : Int) : Exec Unit :=
  if size < 1 then return ()
  else if size = 1 then writeString a (lineBuffer 0 [])
  else do
    let line := (← inputLine).getD []
    writeString a (lineBuffer (size - 1).toNat line)

/-- Carries out the service that `$v0` selects. -/
def service : Exec Unit := do
  let number ← readGeneral .v0
  let a0 ← readGeneral .a0
  match number.toNat with
  | 1 => print (textBytes (Numeral.int a0.toInt))
  | 4 => print (← readString [] a0 printLimit)
  | 5 => writeGeneral .v0 (← inputInt)
  | 8 => inputString a0 (← readGeneral .a1).toInt
  | 10 => throw (.exit 0)
  | 11 => print [a0.setWidth 8]
  | 12 =>
    match ← inputByte with
    | some b => writeGeneral .v0 (b.setWidth 32)
    | none => fail .invalidInput
  | 17 => throw (.exit a0.toInt)
  | 34 => print (textBytes (Numeral.hex8 a0.toNat))
  | 35 => print (textBytes (Numeral.binary32 a0.toNat))
  | 36 => print (textBytes (Numeral.nat a0.toNat))
  | _ => fail (.invalidService number)

end MipsLab.Machine
