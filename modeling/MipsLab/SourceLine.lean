import MipsLab.Text.Lines

set_option autoImplicit false

/-!
# Source lines

A line of a source file, with the place that diagnostics call it by.
-/

namespace MipsLab

/-- A line of a file. Lines are numbered from 1. -/
structure SourceLine where
  file : String
  number : Nat
  text : String
deriving DecidableEq, Repr

/-- The lines of a file's text. -/
def SourceLine.ofText (file text : String) : List SourceLine :=
  (Lines.split text.toList).mapIdx fun i line => ⟨file, i + 1, String.ofList line⟩

end MipsLab
