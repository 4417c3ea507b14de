import MipsLab.Proofs.Except
import MipsLab.Proofs.Placement
import MipsLab.SourceUnit

set_option autoImplicit false

/-!
# The first pass over source units

What assembles has gone through a first pass without errors (`eq_finish_of_ok`,
`clean_firstPass`). So every unit could be read, the tables of labels are those of the units in
order (`scopes_placeUnits`), and the state in which a line was placed (`reached`) leads to the final
one by the rest of the pass.
-/

namespace MipsLab

/-! ## Units with their macros expanded -/

namespace SourceUnit

/-- The unit after its text was read, with the errors of reading. -/
def read (u : SourceUnit) : SourceUnit × Diagnostics :=
  if u.tokens.isSome then (u, []) else u.tokenize

/-- The lines that the first pass places: all macros are expanded. A unit that cannot be read has
none. -/
def expandedLines (u : SourceUnit) : List TokenLine :=
  match u.read.1.tokens with
  | some tokens => (MacroPool.empty.expandUnit tokens).lines
  | none => []

theorem file_read (u : SourceUnit) : u.read.1.file = u.file := by
  unfold read tokenize
  split
  · rfl
  · split <;> rfl

/-- The errors of reading are errors. -/
theorem isWarning_of_mem_readLines (constants : Constants) (lines : List SourceLine) {d : Diagnostic}
    (h : d ∈ (readLines constants lines).2) : d.isWarning = false := by
  induction lines generalizing constants with
  | nil => cases h
  | cons source rest ih =>
      unfold readLines at h
      split at h
      · exact ih _ h
      · rcases List.mem_append.mp h with h | h
        · obtain ⟨_, -, rfl⟩ := List.mem_map.mp h
          rfl
        · exact ih _ h

/-- A unit that cannot be read has an error. -/
theorem hasErrors_read {u : SourceUnit} (h : u.read.1.tokens = none) :
    Diagnostics.hasErrors u.read.2 = true := by
  unfold read at h ⊢
  split at h
  case isTrue hsome =>
    rw [h] at hsome
    cases hsome
  case isFalse hnone =>
    rw [if_neg hnone]
    unfold tokenize at h ⊢
    split at h
    case h_1 => cases h
    case h_2 errors hne hread =>
      have herrors : errors = (readLines [] u.lines).2 := by rw [hread]
      cases herrors' : errors with
      | nil => exact (hne herrors').elim
      | cons d ds =>
          have hd : d.isWarning = false := by
            apply isWarning_of_mem_readLines [] u.lines
            rw [← herrors, herrors']
            exact List.mem_cons_self
          simp [Diagnostics.hasErrors, hd]

end SourceUnit

namespace Assembly

/-- What the first pass reports of a unit before it places its lines. -/
def reportsOf (u : SourceUnit) : Diagnostics :=
  match u.read.1.tokens with
  | some tokens => (MacroPool.empty.expandUnit tokens).diagnostics
  | none => u.read.2

/-- The state in which the first line of a unit is placed. -/
def beginUnit (p : Placement) (u : SourceUnit) : Placement :=
  { p with diagnostics := p.diagnostics ++ reportsOf u, unit := Placement.freshUnit u.file }

/-- A unit that can be read places its lines, and any other places nothing. -/
theorem placeUnit_eq (p : Placement) (u : SourceUnit) :
    (placeUnit p u).1 =
      if u.read.1.tokens = none then { p with diagnostics := p.diagnostics ++ reportsOf u }
      else (u.expandedLines.foldl Placement.placeLine (beginUnit p u)).endUnit := by
  rcases hread : u.read with ⟨v, errors⟩
  have hfile : v.file = u.file := by rw [← SourceUnit.file_read u, hread]
  unfold placeUnit beginUnit reportsOf SourceUnit.expandedLines
  rw [show (if u.tokens.isSome then (u, []) else u.tokenize) = (v, errors) from hread, hread]
  dsimp only
  cases v.tokens with
  | none => rfl
  | some tokens =>
      dsimp only
      rw [hfile, if_neg (by simp)]
      rfl

open Placement

theorem pass_beginUnit (p : Placement) (u : SourceUnit) : Pass p (beginUnit p u) := by
  have hreported : PlacesNothing p { p with diagnostics := p.diagnostics ++ reportsOf u } :=
    ⟨rfl, rfl, rfl, rfl, rfl, rfl, List.prefix_append _ _⟩
  exact (pass_of_moves hreported.moves).tail (.beginUnit u.file)

theorem pass_endUnit (p : Placement) : Pass p p.endUnit :=
  (pass_of_moves (PlacesNothing.closeUnit p).moves).tail .endUnit

theorem pass_placeUnit (p : Placement) (u : SourceUnit) : Pass p (placeUnit p u).1 := by
  rw [placeUnit_eq]
  split
  · exact pass_of_moves (PlacesNothing.moves
      ⟨rfl, rfl, rfl, rfl, rfl, rfl, List.prefix_append _ _⟩)
  · exact ((pass_beginUnit p u).trans (pass_of_moves (moves_placeLines _ _))).trans (pass_endUnit _)

theorem pass_placeUnits (p : Placement) (units : List SourceUnit) :
    Pass p (placeUnits p units).1 := by
  induction units generalizing p with
  | nil => exact .refl
  | cons u rest ih => exact (pass_placeUnit p u).trans (ih (placeUnit p u).1)

theorem placeUnits_append (p : Placement) (before after : List SourceUnit) :
    (placeUnits p (before ++ after)).1 = (placeUnits (placeUnits p before).1 after).1 := by
  induction before generalizing p with
  | nil => rfl
  | cons u rest ih => exact ih (placeUnit p u).1

/-- The first pass over a program. -/
def firstPass (options : AssemblyOptions) (units : List SourceUnit) : Placement :=
  (placeUnits (.initial options.extended options.layout) units).1

/-- **What assembles has gone through a first pass without errors.** -/
theorem eq_finish_of_ok {options : AssemblyOptions} {units : List SourceUnit} {p : AssembledProgram}
    (ok : (assemble options units).1 = .ok p) :
    p = (firstPass options units).finish options.layout ∧ p.warnings.hasErrors = false := by
  unfold assemble at ok
  dsimp only at ok
  split at ok
  · cases ok
  case isFalse hrefused =>
    cases ok
    refine ⟨rfl, ?_⟩
    unfold AssemblyOptions.refuses at hrefused
    exact (Bool.or_eq_false_iff.mp (Bool.not_eq_true _ ▸ hrefused)).1

/-- The errors of the first pass are errors of the program. -/
theorem clean_firstPass {options : AssemblyOptions} {units : List SourceUnit}
    {p : AssembledProgram} (ok : (assemble options units).1 = .ok p) :
    (firstPass options units).Clean := by
  obtain ⟨rfl, without⟩ := eq_finish_of_ok ok
  refine Diagnostics.hasErrors_of_prefix ?_ without
  unfold finish
  dsimp only
  rw [List.append_assoc, List.append_assoc]
  exact List.prefix_append _ _

/-! ## The place of a line -/

theorem extended_firstPass (options : AssemblyOptions) (units : List SourceUnit) :
    (firstPass options units).extended = options.extended :=
  (pass_placeUnits _ units).extends.extended

theorem firstPass_append_cons (options : AssemblyOptions) (before : List SourceUnit) (u : SourceUnit)
    (after : List SourceUnit) : firstPass options (before ++ u :: after) =
      (placeUnits (placeUnit (firstPass options before) u).1 after).1 :=
  placeUnits_append _ before (u :: after)

/-- The state in which the line of a unit is placed that comes after the lines `above`, where the
units `before` come before the unit. -/
def reached (options : AssemblyOptions) (before : List SourceUnit) (u : SourceUnit)
    (above : List TokenLine) : Placement :=
  above.foldl placeLine (beginUnit (firstPass options before) u)

theorem extended_reached (options : AssemblyOptions) (before : List SourceUnit) (u : SourceUnit)
    (above : List TokenLine) : (reached options before u above).extended = options.extended := by
  have hpass : Pass (firstPass options before) (reached options before u above) :=
    (pass_beginUnit _ u).trans (pass_of_moves (moves_placeLines _ above))
  exact hpass.extends.extended.trans (extended_firstPass options before)

/-- Without errors, a unit could be read. -/
theorem placeUnit_of_clean {p : Placement} {u : SourceUnit} (clean : (placeUnit p u).1.Clean) :
    (placeUnit p u).1 = (u.expandedLines.foldl placeLine (beginUnit p u)).endUnit := by
  rw [placeUnit_eq] at clean ⊢
  split at clean
  case isTrue hnone =>
    have herrors := SourceUnit.hasErrors_read hnone
    have hreports : reportsOf u = u.read.2 := by rw [reportsOf, hnone]
    have happend : Diagnostics.hasErrors (p.diagnostics ++ u.read.2) = false := hreports ▸ clean
    rw [Diagnostics.hasErrors, List.any_append] at happend
    rw [Diagnostics.hasErrors, (Bool.or_eq_false_iff.mp happend).2] at herrors
    cases herrors
  case isFalse hsome => rw [if_neg hsome]

/-- A unit puts its table aside. -/
theorem scopes_placeUnit {p : Placement} {u : SourceUnit} (clean : (placeUnit p u).1.Clean) :
    (placeUnit p u).1.locals.toList.map (·.scope) = p.locals.toList.map (·.scope) ++ [u.file] := by
  rw [placeUnit_of_clean clean, endUnit_eq, Array.toList_push, List.map_append]
  obtain ⟨hlocals, hscope⟩ := unit_of_moves
    ((moves_placeLines (beginUnit p u) u.expandedLines).trans (PlacesNothing.closeUnit _).moves)
  rw [hlocals, List.map_singleton, hscope]
  rfl

theorem size_placeUnit {p : Placement} {u : SourceUnit} (clean : (placeUnit p u).1.Clean) :
    (placeUnit p u).1.locals.size = p.locals.size + 1 := by
  have hscopes := congrArg List.length (scopes_placeUnit clean)
  simpa using hscopes

/-- The tables of labels are those of the units in order. -/
theorem scopes_placeUnits {p : Placement} {units : List SourceUnit}
    (clean : (placeUnits p units).1.Clean) :
    (placeUnits p units).1.locals.toList.map (·.scope) =
      p.locals.toList.map (·.scope) ++ units.map (·.file) := by
  induction units generalizing p with
  | nil => simp [placeUnits]
  | cons u rest ih =>
      have hstep : (placeUnits p (u :: rest)).1 = (placeUnits (placeUnit p u).1 rest).1 := rfl
      rw [hstep] at clean ⊢
      have hunit := (Pass.extends (pass_placeUnits (placeUnit p u).1 rest)).clean clean
      rw [ih clean, scopes_placeUnit hunit, List.append_assoc]
      rfl

theorem scopes_firstPass {options : AssemblyOptions} {units : List SourceUnit}
    (clean : (firstPass options units).Clean) :
    (firstPass options units).locals.toList.map (·.scope) = units.map (·.file) :=
  scopes_placeUnits clean

theorem size_firstPass {options : AssemblyOptions} {units : List SourceUnit}
    (clean : (firstPass options units).Clean) :
    (firstPass options units).locals.size = units.length := by
  have hscopes := congrArg List.length (scopes_firstPass clean)
  simpa using hscopes

section Reached

variable {options : AssemblyOptions} {before after : List SourceUnit} {u : SourceUnit}
  (clean : (firstPass options (before ++ u :: after)).Clean)
include clean

/-- A unit of a program is placed without errors, and what it places stays. -/
theorem pass_placeUnit_firstPass :
    (placeUnit (firstPass options before) u).1.Clean ∧
      Pass (placeUnit (firstPass options before) u).1 (firstPass options (before ++ u :: after)) := by
  have hpass : Pass (placeUnit (firstPass options before) u).1
      (firstPass options (before ++ u :: after)) := by
    rw [firstPass_append_cons]
    exact pass_placeUnits _ after
  exact ⟨hpass.extends.clean clean, hpass⟩

/-- The units before a unit are placed without errors. -/
theorem clean_before : (firstPass options before).Clean :=
  (pass_placeUnit _ u).extends.clean (pass_placeUnit_firstPass clean).1

/-- Where a line is placed, the units before have put their tables aside. -/
theorem size_reached (above : List TokenLine) :
    (reached options before u above).locals.size = before.length := by
  have hlocals := (unit_of_moves (moves_placeLines (beginUnit (firstPass options before) u) above)).1
  rw [reached, hlocals]
  exact size_firstPass (clean_before clean)

/-- What is placed from some line of a unit on leads to the end of the unit. -/
theorem placeUnit_eq_reached {above below : List TokenLine} (hlines : u.expandedLines = above ++ below) :
    (placeUnit (firstPass options before) u).1 =
      (below.foldl placeLine (reached options before u above)).endUnit := by
  obtain ⟨hclean, -⟩ := pass_placeUnit_firstPass clean
  rw [placeUnit_of_clean hclean, hlines, List.foldl_append]
  rfl

/-- **What is placed where a line stands stays to the end of the pass.** -/
theorem pass_reached {above below : List TokenLine} (hlines : u.expandedLines = above ++ below) :
    Pass (reached options before u above) (firstPass options (before ++ u :: after)) := by
  obtain ⟨-, hpass⟩ := pass_placeUnit_firstPass clean
  rw [placeUnit_eq_reached clean hlines] at hpass
  exact ((pass_of_moves (moves_placeLines _ below)).trans (pass_endUnit _)).trans hpass

/-- A line is placed without errors where it stands. -/
theorem pass_placeLine_reached {line : TokenLine} {above below : List TokenLine}
    (hlines : u.expandedLines = above ++ line :: below) :
    Pass ((reached options before u above).placeLine line) (firstPass options (before ++ u :: after)) ∧
      ((reached options before u above).placeLine line).Clean := by
  have hnext : u.expandedLines = (above ++ [line]) ++ below := by simp [hlines]
  have hpass := pass_reached clean hnext
  rw [reached, List.foldl_append] at hpass
  exact ⟨hpass, hpass.extends.clean clean⟩

end Reached

end Assembly

end MipsLab
