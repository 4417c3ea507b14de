import MipsLab.Assembly
import MipsLab.Macro

set_option autoImplicit false

/-!
# Source units

A source unit is a file of a program together with what has been derived from its text so far: its
tokens, its macros, its labels, and the code of the program it was last assembled in. Assembling
some units gives the program, and it updates what the units hold.
-/

namespace MipsLab

/-- A file of a program. -/
structure SourceUnit where
  file : String
  lines : List SourceLine
  /-- One list of tokens for each line, once the text has been read. -/
  tokens : Option (List TokenLine)
  locals : SymbolTable
  macros : Option MacroPool
  /-- The code of the program that the unit was last assembled in, if that succeeded. -/
  code : Option (List CodeWord)

namespace SourceUnit

/-- A unit without text. -/
def empty (file : String) : SourceUnit := ⟨file, [], none, .empty file, none, none⟩

/-- Replaces the text of a unit and forgets what was derived from the old one. -/
def setText (u : SourceUnit) (text : String) : SourceUnit :=
  { empty u.file with lines := SourceLine.ofText u.file text }

/-- A unit with a text. -/
def ofText (file text : String) : SourceUnit := (empty file).setText text

/-- The text of the line of a given number. -/
def lineText? (u : SourceUnit) (number : Nat) : Option String :=
  if number = 0 then none else u.lines[number - 1]?.map (·.text)

/-- Reads the tokens of lines in order. All errors are collected; a line with errors leaves no
tokens and defines no constant. -/
def readLines (constants : Constants) : List SourceLine → List TokenLine × Diagnostics
  | [] => ([], [])
  | source :: rest =>
    match TokenLine.read constants source with
    | .ok (line, constants) =>
      let (lines, errors) := readLines constants rest
      (line :: lines, errors)
    | .error errors =>
      let (lines, later) := readLines constants rest
      (lines, (errors.map fun (e, span) =>
        (⟨.lexical e, source.file, source.number, span.start + 1⟩ : Diagnostic)) ++ later)

/-- Reads the tokens of a unit. On success its labels are forgotten; on failure it has no
tokens. -/
def tokenize (u : SourceUnit) : SourceUnit × Diagnostics :=
  match readLines [] u.lines with
  | (tokens, []) => ({ u with tokens := some tokens, locals := .empty u.file }, [])
  | (_, errors) => ({ u with tokens := none }, errors)

/-- Gives a unit a new pool without macros. -/
def createPool (u : SourceUnit) : SourceUnit := { u with macros := some .empty }

/-- Gives a unit a pool of macros. -/
def setPool (u : SourceUnit) (pool : MacroPool) : SourceUnit := { u with macros := some pool }

end SourceUnit

namespace Assembly

/-- The first pass over a unit. A unit whose text cannot be read places nothing. -/
def placeUnit (p : Placement) (u : SourceUnit) : Placement × SourceUnit :=
  let (u, errors) := if u.tokens.isSome then (u, []) else u.tokenize
  match u.tokens with
  | none => ({ p with diagnostics := p.diagnostics ++ errors }, u)
  | some tokens =>
    let e := MacroPool.empty.expandUnit tokens
    ({ p with diagnostics := p.diagnostics ++ e.diagnostics }.placeUnit u.file e.lines,
      u.setPool e.pool)

/-- The first pass over units in order. -/
def placeUnits (p : Placement) : List SourceUnit → Placement × List SourceUnit
  | [] => (p, [])
  | u :: rest =>
    let (p, u) := placeUnit p u
    let (p, rest) := placeUnits p rest
    (p, u :: rest)

/-- What a unit holds after it was assembled in a program. -/
def install (program : AssembledProgram) (u : SourceUnit) : SourceUnit :=
  { u with
    code := some program.code
    locals := (program.localsOf? u.file).getD u.locals }

/-- Assembles units in order, and gives the units as they are afterwards. If the diagnostics of the
two passes keep the program from being assembled, they are the result and no unit holds code. -/
def assemble (options : AssemblyOptions) (units : List SourceUnit) :
    Except Diagnostics AssembledProgram × List SourceUnit :=
  let (p, units) := placeUnits (.initial options.extended options.layout) units
  let program := p.finish options.layout
  if options.refuses program.warnings then
    (.error program.warnings, units.map fun u => { u with code := none })
  else (.ok program, units.map (install program))

end Assembly

end MipsLab
