import MipsLab.Instr.Encode
import MipsLab.Instr.Print
import MipsLab.Placement

set_option autoImplicit false

/-!
# Assembled programs

The second pass: with every label placed, each instruction is resolved and encoded, and each word
of data that holds the address of a label is filled in. The result is what the machine loads.
-/

namespace MipsLab

/-- How a program is assembled. -/
structure AssemblyOptions where
  /-- Whether instructions may be expanded into several ones. -/
  extended : Bool := true
  /-- Whether warnings keep a program from being assembled. -/
  strict : Bool := false
  layout : MemoryLayout := {}
deriving DecidableEq, Repr

/-- A machine word of code with the line it was assembled from. -/
structure CodeWord where
  line : TokenLine
  address : Word
  instr : Instr
deriving DecidableEq, Repr

namespace CodeWord

/-- The machine word. -/
def word (c : CodeWord) : Word := c.instr.encode

/-- The instruction as a listing shows it. -/
def text (c : CodeWord) : String := c.instr.text

end CodeWord

/-- Looks an address up in code that is in ascending order of addresses: the word in the middle tells
which half is left to search. -/
def searchCode (address : Word) (code : List CodeWord) : Option CodeWord :=
  match h : code.drop (code.length / 2) with
  | [] => none
  | c :: later =>
    if c.address = address then some c
    else if c.address < address then searchCode address later
    else searchCode address (code.take (code.length / 2))
termination_by code.length
decreasing_by
  all_goals
    have hlength := congrArg List.length h
    simp only [List.length_drop, List.length_cons, List.length_take] at hlength ⊢
    omega

/-- Consecutive bytes of data from an address on. -/
structure DataBlock where
  address : Word
  bytes : List Byte
deriving DecidableEq, Repr

/-- A program that can be loaded. -/
structure AssembledProgram where
  /-- The code in ascending order of addresses. -/
  code : List CodeWord
  /-- The data in ascending order of addresses. -/
  data : List DataBlock
  globals : SymbolTable
  /-- The tables of the units in the order of assembly. -/
  locals : List SymbolTable
  warnings : Diagnostics
  layout : MemoryLayout

namespace AssembledProgram

/-- The table of the unit of a given file. -/
def localsOf? (p : AssembledProgram) (file : String) : Option SymbolTable :=
  p.locals.find? (·.scope == file)

/-- The code at an address. -/
def codeAt? (p : AssembledProgram) (address : Word) : Option CodeWord := searchCode address p.code

/-- The address of a symbol as the unit of a given file sees it: its own labels come first. -/
def addressOf? (p : AssembledProgram) (name file : String) : Option Word :=
  ((p.localsOf? file).bind (·.addressOf? name)) <|> p.globals.addressOf? name

end AssembledProgram

namespace Placement

/-- The address of a label as the unit of the given index sees it. -/
def lookup (p : Placement) (unit : Nat) (name : String) : Option Word :=
  (p.locals[unit]?.bind (·.addressOf? name)) <|> p.globals.addressOf? name

/-- The code of a placed instruction, or what is wrong with it. -/
def resolveInstr (p : Placement) (i : PlacedInstr) : Except Diagnostic CodeWord :=
  match i.instr.resolve (p.lookup i.unit) i.address with
  | .ok instr => .ok ⟨i.line, i.address, instr⟩
  | .error cause => .error (Site.report ⟨i.line.source, i.column⟩ cause)

/-- Fills in a word of data that holds the address of a label. -/
def fillLabelWord (p : Placement) (data : DataImage) (w : LabelWord) :
    Except Diagnostic DataImage :=
  match SymbolicInstr.addressOf (p.lookup w.unit) w.label with
  | .ok a => .ok (writeWrapped data w.address (Word.bytes a))
  | .error cause => .error (w.site.report cause)
where
  /-- Puts bytes into the image from an address on; after the last address comes the first. -/
  writeWrapped (data : DataImage) (a : Word) : List Byte → DataImage
    | [] => data
    | b :: bs => writeWrapped (data.insert a.toNat b) (a + 1) bs

/-- Fills in all words that hold addresses, and collects what is wrong with the others. -/
def fillLabelWords (p : Placement) : List LabelWord → DataImage → DataImage × Diagnostics
  | [], data => (data, [])
  | w :: rest, data =>
    match p.fillLabelWord data w with
    | .ok filled => p.fillLabelWords rest filled
    | .error d =>
      let (filled, ds) := p.fillLabelWords rest data
      (filled, d :: ds)

/-- The successes among some results. -/
def successes {α : Type} (results : List (Except Diagnostic α)) : List α :=
  results.filterMap fun
    | .ok a => some a
    | .error _ => none

/-- The failures among some results. -/
def failures {α : Type} (results : List (Except Diagnostic α)) : Diagnostics :=
  results.filterMap fun
    | .ok _ => none
    | .error d => some d

/-- Code in ascending order of addresses; code of one address stays in the order of placement. -/
def sortCode (code : List CodeWord) : List CodeWord :=
  code.mergeSort fun a b => decide (a.address ≤ b.address)

/-- An error for each word of sorted code that has the address of the word before it. -/
def codeConflicts : List CodeWord → Diagnostics
  | a :: b :: rest =>
    let later := codeConflicts (b :: rest)
    if a.address = b.address then
      Site.report ⟨b.line.source, b.line.column⟩ (.encoding (.addressConflict b.address)) :: later
    else later
  | _ => []

/-- The runs of consecutive addresses in a data image given in ascending order. -/
def dataRuns : List (Nat × Byte) → List (Nat × List Byte)
  | [] => []
  | (a, b) :: rest =>
    match dataRuns rest with
    | (next, bytes) :: runs =>
      if a + 1 = next then (a, b :: bytes) :: runs else (a, [b]) :: (next, bytes) :: runs
    | [] => [(a, [b])]

/-- The blocks of a data image. -/
def dataBlocks (data : DataImage) : List DataBlock :=
  (dataRuns data.toList).map fun (a, bytes) => ⟨BitVec.ofNat 32 a, bytes⟩

/-- The program that a complete placement stands for. Its list of warnings still holds the errors
of both passes. -/
def finish (p : Placement) (layout : MemoryLayout) : AssembledProgram :=
  let resolved := p.instrs.toList.map p.resolveInstr
  let (data, labelErrors) := p.fillLabelWords p.labelWords.toList p.data
  let code := sortCode (successes resolved)
  { code
    data := dataBlocks data
    globals := p.globals
    locals := p.locals.toList
    warnings := p.diagnostics ++ failures resolved ++ labelErrors ++ codeConflicts code
    layout }

end Placement

/-- Whether diagnostics keep a program from being assembled. -/
def AssemblyOptions.refuses (o : AssemblyOptions) (ds : Diagnostics) : Bool :=
  ds.hasErrors || (o.strict && decide (0 < ds.warningCount))

end MipsLab
