import MipsLab.Diagnostic.Cause

set_option autoImplicit false

/-!
# Diagnostics

A diagnostic is a cause and the place in the source it points at. A list of diagnostics keeps the
order in which they were found.
-/

namespace MipsLab

/-- A cause with the place it points at. Lines and columns count from 1; zero stands for the whole
file and for the whole line. -/
structure Diagnostic where
  cause : Cause
  file : String
  line : Nat
  column : Nat
deriving DecidableEq, Repr

namespace Diagnostic

/-- Whether this is a warning. -/
def isWarning (d : Diagnostic) : Bool := d.cause.isWarning

/-- The place: the file, then the line and the column as far as they are known. -/
def place (d : Diagnostic) : String :=
  d.file ++
    if d.line = 0 then ""
    else ":" ++ Numeral.nat d.line ++ if d.column = 0 then "" else ":" ++ Numeral.nat d.column

/-- The diagnostic on one line. -/
def text (d : Diagnostic) : String :=
  d.place ++ ": " ++ (if d.isWarning then "warning" else "error") ++ ": " ++ d.cause.message

end Diagnostic

/-- Diagnostics in the order in which they were found. -/
abbrev Diagnostics := List Diagnostic

namespace Diagnostics

/-- The number of diagnostics that are not warnings. -/
def errorCount (ds : Diagnostics) : Nat := ds.countP fun d => !d.isWarning

/-- The number of warnings. -/
def warningCount (ds : Diagnostics) : Nat := ds.countP (·.isWarning)

/-- Whether there is a diagnostic that is not a warning. -/
def hasErrors (ds : Diagnostics) : Bool := ds.any fun d => !d.isWarning

/-- All diagnostics, one on a line. -/
def text (ds : Diagnostics) : String := String.join (ds.map fun d => d.text ++ "\n")

end Diagnostics

end MipsLab
