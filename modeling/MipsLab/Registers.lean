import MipsLab.Memory
import MipsLab.Reg

set_option autoImplicit false

/-!
# The register file

The values of the registers. The register `$zero` holds zero, and writing to it changes nothing.
-/

namespace MipsLab

/-- The values of the registers. -/
structure Registers where
  general : Vector Word 32
  hi : Word
  lo : Word
deriving DecidableEq, Repr

namespace Registers

/-- Every register but `$zero` holds a word of the fill. -/
def filled (f : Fill) : Registers where
  general := Vector.ofFn fun i => if i.val = 0 then 0 else f.register i.val
  hi := f.register 32
  lo := f.register 33

/-- The value of a general-purpose register. -/
def get (rs : Registers) (r : Reg) : Word := rs.general.get ⟨r.number, r.number_lt⟩

/-- Writes a general-purpose register. -/
def set (rs : Registers) (r : Reg) (value : Word) : Registers :=
  if r = .zero then rs else { rs with general := rs.general.set r.number value r.number_lt }

/-- The value of any register. -/
def read (rs : Registers) : Register → Word
  | .general r => rs.get r
  | .hi => rs.hi
  | .lo => rs.lo

/-- Writes any register. -/
def write (rs : Registers) (r : Register) (value : Word) : Registers :=
  match r with
  | .general r => rs.set r value
  | .hi => { rs with hi := value }
  | .lo => { rs with lo := value }

end Registers

end MipsLab
