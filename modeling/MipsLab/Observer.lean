import Std.Data.TreeMap.Basic
import MipsLab.Reg
import MipsLab.Word

set_option autoImplicit false

/-!
# Observing accesses

While it is switched on, an observer collects which registers and memory words were read, written
and changed. It lists registers first and then memory words by address.
-/

namespace MipsLab

/-- A register, or the memory word at an address. -/
inductive Location where
  | register (r : Register)
  | memory (a : Word)
deriving DecidableEq, Repr

namespace Location

/-- The position of a location in listings. -/
def position : Location → Nat
  | register r => r.position
  | memory a => a.toNat + 34

/-- The location at a position in listings. -/
def ofPosition (n : Nat) : Location :=
  match Register.ofPosition? n with
  | some r => register r
  | none => memory (BitVec.ofNat 32 (n - 34))

end Location

/-- What has happened to a location. -/
structure Access where
  read : Bool
  written : Bool
  /-- Some write has put a different value there. -/
  modified : Bool
deriving DecidableEq, Repr

namespace Access

/-- Nothing. -/
def none : Access := ⟨false, false, false⟩

/-- A read. -/
def ofRead : Access := ⟨true, false, false⟩

/-- A write of `new` over `old`. -/
def ofWrite (old new : Word) : Access := ⟨false, true, old != new⟩

/-- What has happened in total. -/
def merge (a b : Access) : Access :=
  ⟨a.read || b.read, a.written || b.written, a.modified || b.modified⟩

end Access

/-- The accesses collected so far, by the position of the location. -/
structure Observer where
  enabled : Bool
  accesses : Std.TreeMap Nat Access

namespace Observer

/-- An observer that is switched off and has collected nothing. -/
def empty : Observer := ⟨false, ∅⟩

/-- What has happened to a location. -/
def get (o : Observer) (l : Location) : Access := o.accesses[l.position]?.getD .none

/-- Adds an access, if the observer is switched on. -/
def record (o : Observer) (l : Location) (a : Access) : Observer :=
  if o.enabled then { o with accesses := o.accesses.insert l.position ((o.get l).merge a) } else o

/-- Forgets all accesses. -/
def clear (o : Observer) : Observer := { o with accesses := ∅ }

/-- The locations accessed, with what has happened to them. -/
def toList (o : Observer) : List (Location × Access) :=
  o.accesses.toList.map fun (n, a) => (Location.ofPosition n, a)

/-- The locations whose value has changed. -/
def modified (o : Observer) : List Location :=
  o.toList.filterMap fun (l, a) => if a.modified then some l else .none

end Observer

end MipsLab
