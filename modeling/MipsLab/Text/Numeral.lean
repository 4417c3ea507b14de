set_option autoImplicit false

/-!
# Numerals

How numbers are written in listings and messages: decimal with a minus sign, hexadecimal after
`0x` with or without leading zeros, and binary digits; and how a signed decimal is read.
-/

namespace MipsLab.Numeral

/-- The digits of `n` in the given base, preceded by as many zeros as it takes to reach `width`. -/
def padded (base width n : Nat) : String :=
  let digits := Nat.toDigits base n
  String.ofList (List.replicate (width - digits.length) '0' ++ digits)

/-- A natural number in decimal. -/
def nat (n : Nat) : String := String.ofList (Nat.toDigits 10 n)

/-- An integer in decimal, with a minus sign if it is negative. -/
def int : Int → String
  | .ofNat n => nat n
  | .negSucc n => "-" ++ nat (n + 1)

/-- Hexadecimal with as few digits as possible. -/
def hex (n : Nat) : String := "0x" ++ padded 16 1 n

/-- Hexadecimal with at least four digits, for a 16-bit field. -/
def hex4 (n : Nat) : String := "0x" ++ padded 16 4 n

/-- Hexadecimal with at least eight digits, for an address or a word. -/
def hex8 (n : Nat) : String := "0x" ++ padded 16 8 n

/-- The 32 binary digits of a word. -/
def binary32 (n : Nat) : String := padded 2 32 n

/-- The value of a character as a digit of a base of at most 16. -/
def digitValue? (base : Nat) (c : Char) : Option Nat :=
  let v? :=
    if '0' ≤ c ∧ c ≤ '9' then some (c.toNat - '0'.toNat)
    else if 'a' ≤ c ∧ c ≤ 'f' then some (c.toNat - 'a'.toNat + 10)
    else if 'A' ≤ c ∧ c ≤ 'F' then some (c.toNat - 'A'.toNat + 10)
    else none
  v?.filter (· < base)

/-- The value of a run of digits read onto `acc`, or `none` if some character is not a digit. -/
def readDigits? (base acc : Nat) : List Char → Option Nat
  | [] => some acc
  | c :: cs =>
    match digitValue? base c with
    | some d => readDigits? base (acc * base + d) cs
    | none => none

/-- The value of one or more digits. -/
def readNat? (base : Nat) : List Char → Option Nat
  | [] => none
  | cs => readDigits? base 0 cs

/-- A decimal with an optional sign, if its value is that of a signed 32-bit word. -/
def readSigned32? (cs : List Char) : Option Int :=
  let value? : Option Int :=
    match cs with
    | '-' :: digits => (readNat? 10 digits).map fun n => -(n : Int)
    | '+' :: digits => (readNat? 10 digits).map fun n => (n : Int)
    | digits => (readNat? 10 digits).map fun n => (n : Int)
  value?.filter fun n => decide (-2147483648 ≤ n ∧ n ≤ 2147483647)

end MipsLab.Numeral
