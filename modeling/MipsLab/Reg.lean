import MipsLab.Text.Numeral

set_option autoImplicit false

/-!
# Registers

The 32 general-purpose registers, their names, and the two registers `hi` and `lo` that hold the
result of a multiplication or division.
-/

namespace MipsLab

/-- A general-purpose register, by its number. -/
structure Reg where
  index : BitVec 5
deriving DecidableEq, Repr

namespace Reg

/-- The number of a register. -/
def number (r : Reg) : Nat := r.index.toNat

theorem number_lt (r : Reg) : r.number < 32 := r.index.isLt

/-- The conventional names in the order of the numbers. -/
def names : List String := [
  "zero", "at", "v0", "v1", "a0", "a1", "a2", "a3",
  "t0", "t1", "t2", "t3", "t4", "t5", "t6", "t7",
  "s0", "s1", "s2", "s3", "s4", "s5", "s6", "s7",
  "t8", "t9", "k0", "k1", "gp", "sp", "fp", "ra"]

/-- The register that always holds zero. -/
def zero : Reg := ⟨0⟩

/-- The scratch register that expanded instructions use. -/
def scratch : Reg := ⟨1⟩

/-- The register that selects the service of a `syscall` and receives its result. -/
def v0 : Reg := ⟨2⟩

/-- The first argument of a `syscall`. -/
def a0 : Reg := ⟨4⟩

/-- The second argument of a `syscall`. -/
def a1 : Reg := ⟨5⟩

/-- The global pointer. -/
def gp : Reg := ⟨28⟩

/-- The stack pointer. -/
def sp : Reg := ⟨29⟩

/-- The frame pointer. -/
def fp : Reg := ⟨30⟩

/-- The return address. -/
def ra : Reg := ⟨31⟩

/-- The conventional name of a register, without the dollar sign. -/
def name (r : Reg) : String := names.get ⟨r.number, r.number_lt⟩

/-- The register of a given number. -/
def ofNumber? (n : Nat) : Option Reg := if n < 32 then some ⟨BitVec.ofNat 5 n⟩ else none

/-- The register of a given name, which is its number in decimal or its conventional name; the frame
pointer is also called `s8`. -/
def ofName? (name : String) : Option Reg :=
  let digits :=
    match name.toList with
    | '+' :: rest => rest
    | chars => chars
  match Numeral.readNat? 10 digits with
  | some n => ofNumber? n
  | none => if name = "s8" then some fp else (names.idxOf? name).bind ofNumber?

/-- A register as operands show it. -/
def text (r : Reg) : String := "$" ++ r.name

end Reg

/-- Any register that an instruction can change. -/
inductive Register where
  | general (r : Reg)
  | hi
  | lo
deriving DecidableEq, Repr

namespace Register

/-- A register as listings show it. -/
def text : Register → String
  | general r => r.text
  | hi => "hi"
  | lo => "lo"

/-- The position of a register in listings: by number, then `hi`, then `lo`. -/
def position : Register → Nat
  | general r => r.number
  | hi => 32
  | lo => 33

/-- The register at a position in listings. -/
def ofPosition? (n : Nat) : Option Register :=
  if n = 32 then some hi else if n = 33 then some lo else (Reg.ofNumber? n).map general

/-- All registers in the order of listings. -/
def all : List Register := (List.range 34).filterMap ofPosition?

end Register

end MipsLab
