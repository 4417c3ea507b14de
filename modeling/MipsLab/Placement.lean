import MipsLab.Diagnostic
import MipsLab.Layout
import MipsLab.Lowering
import MipsLab.Statement
import MipsLab.Symbol

set_option autoImplicit false

/-!
# Placement

The first pass over a program: every instruction and every item of data gets an address, and every
label gets the address of what follows it. The segments go on from one source unit to the next,
while labels, the segment in use and the declarations of exported labels are those of one unit.

A label waits until the next instruction or item of data is placed, and gets its address, after any
alignment; a change of segment or the end of the unit gives it the address reached so far.
-/

namespace MipsLab

/-- A place in the source. -/
structure Site where
  source : SourceLine
  column : Nat
deriving DecidableEq, Repr

/-- A diagnostic that points at a place. -/
def Site.report (site : Site) (cause : Cause) : Diagnostic :=
  ⟨cause, site.source.file, site.source.number, site.column⟩

/-- An instruction that has an address, from the unit of the given index. -/
structure PlacedInstr where
  unit : Nat
  line : TokenLine
  column : Nat
  address : Word
  instr : SymbolicInstr

/-- A word of data that has to hold the address of a label. -/
structure LabelWord where
  unit : Nat
  site : Site
  address : Word
  label : LabelRef

/-- The bytes of data, by address. -/
abbrev DataImage := Std.TreeMap Nat Byte

/-- The part of a placement that belongs to the unit in hand. -/
structure UnitPlacement where
  locals : SymbolTable
  segment : Segment
  /-- The labels that wait for an address. -/
  waiting : List (String × Site)
  /-- The labels declared to be exported. -/
  exports : List (String × Site)
  /-- The last segment directive, if nothing has followed it yet. -/
  unused : Option (String × Site)

/-- The state of the first pass. -/
structure Placement where
  extended : Bool
  counters : Counters
  nextExtern : Word
  globals : SymbolTable
  /-- The tables of the units that are done. -/
  locals : Array SymbolTable
  instrs : Array PlacedInstr
  data : DataImage
  labelWords : Array LabelWord
  diagnostics : Diagnostics
  unit : UnitPlacement

namespace Placement

/-- The start of a unit: the text segment is in use. -/
def freshUnit (file : String) : UnitPlacement := ⟨.empty file, .text, [], [], none⟩

/-- The start of a program. -/
def initial (extended : Bool) (layout : MemoryLayout) : Placement where
  extended := extended
  counters := .ofLayout layout
  nextExtern := layout.externBase
  globals := .empty "(global)"
  locals := #[]
  instrs := #[]
  data := ∅
  labelWords := #[]
  diagnostics := []
  unit := freshUnit ""

/-- Adds a diagnostic. -/
def report (p : Placement) (site : Site) (cause : Cause) : Placement :=
  { p with diagnostics := p.diagnostics ++ [site.report cause] }

/-- The address of the next item of the segment in use. -/
def here (p : Placement) : Word := p.counters.get p.unit.segment

/-- Moves the segment in use to an address. -/
def moveTo (p : Placement) (a : Word) : Placement :=
  { p with counters := p.counters.set p.unit.segment a }

/-- Marks the last segment directive as used. -/
def markUsed (p : Placement) : Placement := { p with unit := { p.unit with unused := none } }

/-- Lets a label wait for its address. -/
def await (p : Placement) (label : String × Site) : Placement :=
  { p with unit := { p.unit with waiting := p.unit.waiting ++ [label] } }

/-- Enters a label of the unit in hand at the address reached. -/
def enterLabel (p : Placement) (label : String × Site) : Placement :=
  let (name, site) := label
  match p.unit.locals.add name ⟨p.here, site.source.file, site.source.number, .internal⟩ with
  | .ok locals => { p with unit := { p.unit with locals } }
  | .error e => p.report site (.symbol e)

/-- Gives the address reached to all labels that wait for one. -/
def enterLabels (p : Placement) : Placement :=
  p.unit.waiting.foldl enterLabel { p with unit := { p.unit with waiting := [] } }

/-- Warns of the last segment directive if nothing has followed it. -/
def checkUnused (p : Placement) : Placement :=
  match p.unit.unused with
  | some (name, site) => p.markUsed.report site (.warning (.emptySegment name))
  | none => p

/-- Rounds the address reached up to a multiple of `size` and gives it to the labels that wait. -/
def alignTo (p : Placement) (size : Word) : Placement :=
  (p.moveTo (Word.alignUp p.here size)).enterLabels

/-! ## Instructions -/

/-- Places one machine instruction. -/
def placeWord (line : TokenLine) (column : Nat) (p : Placement) (i : SymbolicInstr) : Placement :=
  { p with instrs := p.instrs.push ⟨p.locals.size, line, column, p.here, i⟩ }.moveTo (p.here + 4)

/-- Places a written instruction. -/
def placeInstr (p : Placement) (line : TokenLine) (column : Nat) (mnemonic : String)
    (operands : List Operand) : Placement :=
  let site : Site := ⟨line.source, column⟩
  if !p.unit.segment.isText then p.report site (.encoding .instructionInData)
  else
    match lower mnemonic operands p.extended with
    | .error e => p.report site (.encoding e)
    | .ok is => is.foldl (placeWord line column) (p.markUsed.alignTo 4)

/-! ## Data -/

/-- Puts bytes into the data image from an address on. -/
def writeBytes (data : DataImage) (a : Nat) : List Byte → DataImage
  | [] => data
  | b :: bs => writeBytes (data.insert a b) (a + 1) bs

/-- Whether some of `n` bytes from an address on are taken. -/
def isTaken (data : DataImage) (a n : Nat) : Bool :=
  (List.range n).any fun i => data.contains (a + i)

/-- Places bytes at the address reached. Bytes that would run past the last address are refused, and
bytes at addresses that are taken replace the ones there, with an error. -/
def placeBytes (site : Site) (p : Placement) (bytes : List Byte) : Placement :=
  let start := p.here
  if 0x100000000 < start.toNat + bytes.length then
    p.report site (.encoding (.addressOverflow start))
  else
    let q := { p with data := writeBytes p.data start.toNat bytes }
    let q :=
      if isTaken p.data start.toNat bytes.length then
        q.report site (.encoding (.addressConflict start))
      else q
    q.moveTo (start + BitVec.ofNat 32 bytes.length)

/-- Places an item of a `.word` directive: a number, or the address of a label, which is filled in
later. -/
def placeWordItem? (site : Site) (p : Placement) : Operand → Option Placement
  | .imm n => some (p.placeBytes site (Word.bytes (Word.ofInt n)))
  | .label l =>
    let q := { p with labelWords := p.labelWords.push ⟨p.locals.size, site, p.here, l⟩ }
    some (q.placeBytes site [0, 0, 0, 0])
  | _ => none

/-- Places an item of a directive for smaller numbers; a number that does not fit is cut, with a
warning. -/
def placeSmallItem? (name : String) (width : Nat) (fits : Int → Bool) (site : Site)
    (p : Placement) : Operand → Option Placement
  | .imm n =>
    let q := if fits n then p else p.report site (.warning (.valueTruncated name n))
    some (q.placeBytes site ((Word.bytes (Word.ofInt n)).take width))
  | _ => none

/-- Places an item of a string directive, followed by a zero byte if `terminated`. -/
def placeString? (terminated : Bool) (site : Site) (p : Placement) : Operand → Option Placement
  | .str text =>
    some (p.placeBytes site (Utf8.encode text.toList ++ if terminated then [0] else []))
  | _ => none

/-- Places items in order up to the first one that the directive does not allow. -/
def placeItems (name : String) (site : Site) (place? : Placement → Operand → Option Placement)
    (p : Placement) : List Operand → Placement
  | [] => p
  | operand :: rest =>
    match place? p operand with
    | some q => placeItems name site place? q rest
    | none => p.report site (.encoding (.invalidArguments name))

/-- Whether a number fits a half, signed or unsigned. -/
def fitsHalf (n : Int) : Bool := decide (FitsSigned16 n ∨ FitsUnsigned16 n)

/-- Whether a number fits a byte, signed or unsigned. -/
def fitsByte (n : Int) : Bool := decide (-128 ≤ n ∧ n ≤ 255)

/-- Carries out a data directive in a data segment. -/
def placeData (p : Placement) (site : Site) (name : String) (operands : List Operand) : Placement :=
  match name, operands with
  | "align", [.imm n] =>
    if 0 ≤ n ∧ n ≤ 3 then p.alignTo (1#32 <<< n.toNat)
    else p.report site (.encoding (.invalidArguments name))
  | "space", [.imm n] =>
    if IsUnsigned32 n then
      let q := p.enterLabels
      q.moveTo (q.here + Word.ofInt n)
    else p.report site (.encoding (.invalidArguments name))
  | "word", _ => placeItems name site (placeWordItem? site) (p.alignTo 4) operands
  | "half", _ => placeItems name site (placeSmallItem? name 2 fitsHalf site) (p.alignTo 2) operands
  | "byte", _ => placeItems name site (placeSmallItem? name 1 fitsByte site) (p.alignTo 1) operands
  | "ascii", _ => placeItems name site (placeString? false site) p.enterLabels operands
  | "asciiz", _ => placeItems name site (placeString? true site) p.enterLabels operands
  | _, _ => p.report site (.encoding (.invalidArguments name))

/-! ## Directives -/

/-- Selects a segment, and moves it to an address if one is given. -/
def select (p : Placement) (site : Site) (name : String) (segment : Segment)
    (operands : List Operand) : Placement :=
  let q := p.enterLabels.checkUnused
  let use (q : Placement) : Placement :=
    { q with unit := { q.unit with segment, unused := some (name, site) } }
  match operands with
  | [] => use q
  | [.imm n] =>
    if IsUnsigned32 n ∧ (segment.isText = false ∨ n % 4 = 0) then
      use { q with counters := q.counters.set segment (Word.ofInt n) }
    else q.report site (.encoding (.invalidArguments name))
  | _ => q.report site (.encoding (.invalidArguments name))

/-- Declares labels of the unit to be exported. -/
def declareExports (p : Placement) (site : Site) (name : String) : List Operand → Placement
  | [] => p
  | .label ⟨label, 0⟩ :: rest =>
    declareExports { p with unit := { p.unit with exports := p.unit.exports ++ [(label, site)] } }
      site name rest
  | _ => p.report site (.encoding (.invalidArguments name))

/-- Reserves storage that all units see. -/
def reserve (p : Placement) (site : Site) (name : String) (label : String) (size : Int) :
    Placement :=
  let s : Symbol := ⟨p.nextExtern, site.source.file, site.source.number, .global⟩
  if 0 < size ∧ size ≤ 0x8000 then
    match p.globals.addGlobal label s with
    | .ok globals =>
      { p with globals, nextExtern := Word.alignUp (p.nextExtern + Word.ofInt size) 4 }
    | .error e => p.report site (.symbol e)
  else p.report site (.encoding (.invalidArguments name))

/-- The directives that place data. -/
def dataDirectives : List String := ["align", "word", "half", "byte", "ascii", "asciiz", "space"]

/-- The directives that are recognised only to be refused. -/
def refusedDirectives : List String := ["include", "float", "double"]

/-- Carries out a directive. -/
def directive (p : Placement) (site : Site) (name : String) (operands : List Operand) :
    Placement :=
  match Segment.ofDirective? name with
  | some segment => p.select site name segment operands
  | none =>
    if name = "globl" ∨ name = "global" then
      if operands.isEmpty then p.report site (.encoding (.invalidArguments name))
      else p.declareExports site name operands
    else if name = "extern" then
      match operands with
      | [.label ⟨label, 0⟩, .imm size] => p.reserve site name label size
      | _ => p.report site (.encoding (.invalidArguments name))
    else if name = "set" then p.report site (.warning .setIgnored)
    else if refusedDirectives.contains name then
      p.report site (.encoding (.unsupportedDirective name))
    else if dataDirectives.contains name then
      if p.unit.segment.isText then p.report site (.encoding .dataInText)
      else p.markUsed.placeData site name operands
    else p.report site (.encoding (.unknownDirective name))

/-! ## Units -/

/-- Places a line. -/
def placeLine (p : Placement) (line : TokenLine) : Placement :=
  match Statement.ofTokens line.tokens with
  | .error (e, span) => p.report ⟨line.source, span.start + 1⟩ (.encoding e)
  | .ok s =>
    let labelled := s.labels.foldl (fun q (name, span) =>
      q.markUsed.await (name, ⟨line.source, span.start + 1⟩)) p
    let column := s.span.start + 1
    match s.nucleus with
    | none => labelled
    | some (.instr mnemonic operands) => labelled.placeInstr line column mnemonic operands
    | some (.directive name operands) => labelled.directive ⟨line.source, column⟩ name operands

/-- Moves a label that was declared to be exported into the table that all units see. A second
declaration in the same file is passed over. -/
def exportLabel (p : Placement) (declared : String × Site) : Placement :=
  let (name, site) := declared
  if (p.globals.find? name).any fun s => s.file == site.source.file then p
  else
    match p.unit.locals.find? name with
    | none => p.report site (.symbol (.undefinedGlobal name))
    | some s =>
      let q := { p with unit := { p.unit with locals := p.unit.locals.erase name } }
      match q.globals.addGlobal name { s with kind := .global } with
      | .ok globals => { q with globals }
      | .error e => q.report site (.symbol e)

/-- Ends the unit in hand. -/
def endUnit (p : Placement) : Placement :=
  let q := p.enterLabels.checkUnused
  let q := q.unit.exports.foldl exportLabel q
  { q with locals := q.locals.push q.unit.locals }

/-- Places the lines of a unit. -/
def placeUnit (p : Placement) (file : String) (lines : List TokenLine) : Placement :=
  (lines.foldl placeLine { p with unit := freshUnit file }).endUnit

end Placement

end MipsLab
