import MipsLab.Proofs.Linking
import MipsLab.Proofs.MacroRun
import MipsLab.Proofs.UpheldLines

set_option autoImplicit false

/-!
# All-or-nothing assembly

A program is assembled exactly if its diagnostics allow it, and then all units hold its code; otherwise none
holds any. And nothing is dropped in silence (`Assembly.Accounts`): a line that cannot be read, expanded,
parsed, lowered, placed or resolved has an error of its own, so that whatever is assembled has all its
instructions, data and labels (`Assembly.all_or_nothing`).
-/

namespace MipsLab

theorem AssemblyOptions.refuses_eq_false_iff {o : AssemblyOptions} {ds : Diagnostics} :
    o.refuses ds = false ↔ ds.hasErrors = false ∧ (o.strict = true → ds.warningCount = 0) := by
  unfold refuses
  simp

namespace Assembly

open Placement

/-! ## The outcome -/

theorem assemble_eq (options : AssemblyOptions) (units : List SourceUnit) : assemble options units =
    if options.refuses (draft options units).warnings then
      (.error (draft options units).warnings,
        (units.map (·.expanded)).map fun u => { u with code := none })
    else (.ok (draft options units), (units.map (·.expanded)).map (install (draft options units))) := by
  rw [← snd_placeUnits (.initial options.extended options.layout)]
  rfl

theorem map_file_expanded (units : List SourceUnit) :
    (units.map (·.expanded)).map (·.file) = units.map (·.file) := by
  rw [List.map_map]
  exact List.map_congr_left fun u _ => (SourceUnit.tokens_expanded u).2.2

/-- The units keep their files. -/
theorem map_file_assemble (options : AssemblyOptions) (units : List SourceUnit) :
    (assemble options units).2.map (·.file) = units.map (·.file) := by
  rw [assemble_eq, ← map_file_expanded units]
  split <;> exact List.map_map

/-- The draft is assembled if its diagnostics allow it. -/
theorem ok_iff (options : AssemblyOptions) (units : List SourceUnit) (p : AssembledProgram) :
    (assemble options units).1 = .ok p ↔ p = draft options units ∧ p.warnings.hasErrors = false ∧
      (options.strict = true → p.warnings.warningCount = 0) := by
  rw [← AssemblyOptions.refuses_eq_false_iff, assemble_eq]
  split
  case isTrue hrefused =>
    refine iff_of_false nofun ?_
    rintro ⟨rfl, hallowed⟩
    rw [hrefused] at hallowed
    cases hallowed
  case isFalse hallowed =>
    constructor
    · rintro ⟨⟩
      exact ⟨rfl, Bool.eq_false_iff.mpr hallowed⟩
    · rintro ⟨rfl, -⟩
      rfl

/-- What is not assembled leaves its diagnostics and no code. -/
theorem of_error {options : AssemblyOptions} {units : List SourceUnit} {ds : Diagnostics}
    (failed : (assemble options units).1 = .error ds) :
    ds = (draft options units).warnings ∧ ∀ u ∈ (assemble options units).2, u.code = none := by
  rw [assemble_eq] at failed ⊢
  split at failed
  case isTrue hrefused =>
    cases failed
    refine ⟨rfl, fun u hu => ?_⟩
    obtain ⟨v, -, rfl⟩ := List.mem_map.mp (if_pos hrefused ▸ hu)
    rfl
  case isFalse => cases failed

/-- What is assembled gives each unit the code and the table of its own. -/
theorem of_ok {options : AssemblyOptions} {units : List SourceUnit} {p : AssembledProgram}
    (ok : (assemble options units).1 = .ok p) (distinct : (units.map (·.file)).Nodup) {k : Nat}
    {u : SourceUnit} (hu : (assemble options units).2[k]? = some u) :
    u.code = some p.code ∧ p.locals[k]? = some u.locals ∧ u.locals.scope = u.file := by
  obtain ⟨rfl, hallowed⟩ := (ok_iff options units p).mp ok
  rw [← AssemblyOptions.refuses_eq_false_iff] at hallowed
  have hscopes : (draft options units).locals.map (·.scope) = units.map (·.file) :=
    scopes_firstPass (clean_firstPass ok)
  have hfile : (units.map (·.file))[k]? = some u.file := by
    rw [← map_file_assemble options units, List.getElem?_map, hu]
    rfl
  -- a table is found by its file, which no other unit has
  rw [← hscopes] at distinct
  rw [← hscopes, List.getElem?_map] at hfile
  obtain ⟨t, ht, hscope⟩ := Option.map_eq_some_iff.mp hfile
  have hfind : (draft options units).localsOf? u.file = some t := hscope ▸ find?_of_nodup distinct ht
  rw [assemble_eq, hallowed] at hu
  obtain ⟨v, -, rfl⟩ := Option.map_eq_some_iff.mp (List.getElem?_map.symm.trans hu)
  have hlocals : (install (draft options units) v).locals = t := by
    rw [install, show (draft options units).localsOf? v.file = some t from hfind]
    rfl
  exact ⟨rfl, hlocals ▸ ht, hlocals ▸ hscope⟩

/-! ## Units -/

section Unit

variable (options : AssemblyOptions) (before after : List SourceUnit) {u : SourceUnit}

/-- What is wrong with the text and the macros of a unit is among the diagnostics. -/
theorem reportsOf_subset : reportsOf u ⊆ (draft options (before ++ u :: after)).warnings := by
  have hunit : reportsOf u ⊆ (placeUnit (firstPass options before) u).1.diagnostics := by
    rw [placeUnit_eq]
    split
    · exact List.subset_append_right _ _
    · have hpass := (pass_of_moves (moves_placeLines (beginUnit (firstPass options before) u)
        u.expandedLines)).trans (pass_endUnit _)
      exact List.Subset.trans (List.subset_append_right _ _) (Pass.extends hpass).diagnostics.subset
  have hpass := pass_placeUnits (placeUnit (firstPass options before) u).1 after
  rw [← firstPass_append_cons] at hpass
  exact List.Subset.trans (List.Subset.trans hunit hpass.extends.diagnostics.subset) (diagnostics_finish _)

end Unit

/-- Nothing of a unit is dropped in silence. -/
structure Accounts (options : AssemblyOptions) (p : AssembledProgram) (before : List SourceUnit)
    (u : SourceUnit) : Prop where
  /-- Each line of the text is read, or it has an error. -/
  read : ∀ above source below, u.lines = above ++ source :: below →
    (∃ line constants, TokenLine.read (SourceUnit.constantsAfter [] above) source = .ok (line, constants)) ∨
      Reported p.warnings source
  /-- If all of them are read, then each line is expanded, or it has an error. -/
  expanded : (SourceUnit.readLines [] u.lines).2 = [] →
    (SourceUnit.readLines [] u.lines).1.map (·.source) = u.lines ∧
      MacroPool.Run p.warnings .empty none (SourceUnit.readLines [] u.lines).1 u.expandedLines
  /-- And the program has what each of the expanded lines asks for, or the line has an error. The unit has a
  table of its own. -/
  upheld : (SourceUnit.readLines [] u.lines).2 = [] → ∃ unit locals,
    p.locals[unit]? = some locals ∧ locals.scope = u.file ∧
    ∀ above line below, u.expandedLines = above ++ line :: below → Reported p.warnings line.source ∨
      ∃ s, Statement.ofTokens line.tokens = .ok s ∧
        p.Upholds ⟨unit, locals, u.expandedLines, above, reached options before u above⟩ line s

theorem accounts_draft {options : AssemblyOptions} {before after : List SourceUnit} {u : SourceUnit}
    (reachable : ∀ v ∈ before ++ u :: after, v.Reachable)
    (distinct : ((before ++ u :: after).map (·.file)).Nodup) :
    Accounts options (draft options (before ++ u :: after)) before u := by
  -- the unit may hold tokens from an earlier use, but they are those of its text
  have hcurrent := (reachable u (by simp)).current
  have hreports := reportsOf_subset options before after (u := u)
  refine ⟨fun above source below hlines => ?_, fun hread => ?_, fun hread => ?_⟩
  · have hread := SourceUnit.read_or_reported [] above source below
    rw [← hlines] at hread
    refine hread.imp_right (.mono ?_)
    rcases SourceUnit.read_eq hcurrent with ⟨-, hnone⟩ | ⟨htokens, herrors, -⟩
    · rw [hnone]
      exact List.nil_subset _
    · rw [reportsOf, htokens, herrors] at hreports
      exact hreports
  · obtain ⟨htokens, -⟩ := (SourceUnit.read_eq hcurrent).resolve_right fun h => h.2.2 hread
    refine ⟨SourceUnit.map_source_readLines hread, ?_⟩
    rw [reportsOf, htokens] at hreports
    rw [SourceUnit.expandedLines, htokens]
    exact MacroPool.run_expandFrom _ _ _ hreports
  · obtain ⟨htokens, -⟩ := (SourceUnit.read_eq hcurrent).resolve_right fun h => h.2.2 hread
    have readable : u.read.1.tokens ≠ none := by simp [htokens]
    obtain ⟨-, htable, -⟩ := draft_of_closed options before after readable
    refine ⟨_, _, htable, (locals_placeUnit readable).2, fun above line below hlines => ?_⟩
    refine upheld_or_reported options before after readable (fun v hv => ?_) ?_ hlines
    · exact (reachable v (by simp at hv ⊢; tauto)).owned
    · rw [List.map_append, List.nodup_append] at distinct
      exact fun hmem => distinct.2.2 _ hmem _ List.mem_cons_self rfl

/-- Nothing of a unit is dropped. -/
structure Complete (options : AssemblyOptions) (p : AssembledProgram) (before : List SourceUnit)
    (u : SourceUnit) : Prop where
  /-- All lines are read. -/
  read : (SourceUnit.readLines [] u.lines).2 = [] ∧ (SourceUnit.readLines [] u.lines).1.map (·.source) = u.lines
  /-- All of them are expanded. -/
  expanded : MacroPool.Run [] .empty none (SourceUnit.readLines [] u.lines).1 u.expandedLines
  /-- The program has what each of the expanded lines asks for. -/
  upheld : ∃ unit locals, p.locals[unit]? = some locals ∧ locals.scope = u.file ∧
    ∀ above line below, u.expandedLines = above ++ line :: below → ∃ s, Statement.ofTokens line.tokens = .ok s ∧
      p.Upholds ⟨unit, locals, u.expandedLines, above, reached options before u above⟩ line s

/-- Where no line has an error, none is dropped. -/
theorem Accounts.complete {options : AssemblyOptions} {p : AssembledProgram} {before : List SourceUnit}
    {u : SourceUnit} (accounts : Accounts options p before u) (without : p.warnings.hasErrors = false) :
    Complete options p before u := by
  have unreported (source : SourceLine) : ¬ Reported p.warnings source := fun h => by
    rw [h.hasErrors] at without
    cases without
  have hread : (SourceUnit.readLines [] u.lines).2 = [] := SourceUnit.errors_readLines
    fun above source below hlines =>
      have ⟨line, after, h⟩ := (accounts.read above source below hlines).resolve_right (unreported source)
      ⟨line, after, h⟩
  obtain ⟨hsources, hrun⟩ := accounts.expanded hread
  obtain ⟨unit, locals, htable, hscope, hlines⟩ := accounts.upheld hread
  exact ⟨⟨hread, hsources⟩, hrun.complete without, unit, locals, htable, hscope, fun above line below hsplit =>
    (hlines above line below hsplit).resolve_left (unreported line.source)⟩

/-- **All-or-nothing assembly.** Take units with distinct files, whatever was done with them before. What the
two passes make of them is assembled exactly if its diagnostics have no error and, if warnings count, no
warning. Then they have nothing but warnings, and each unit holds the code and the table of its own; otherwise
the diagnostics are the result, and no unit holds code. And no line is dropped in silence: it is read, expanded
and carried out, with all its instructions, data and labels in the program, or it has an error. So none is
dropped from a program that is assembled. Only a name that is declared to be exported may be passed over, if
the unit reserves storage for it. Of two instructions at one address, the later one has an error. -/
theorem all_or_nothing (options : AssemblyOptions) {units : List SourceUnit}
    (reachable : ∀ u ∈ units, u.Reachable) (distinct : (units.map (·.file)).Nodup) :
    let program := draft options units
    (∀ p, (assemble options units).1 = .ok p ↔ p = program ∧ p.warnings.hasErrors = false ∧
      (options.strict = true → p.warnings.warningCount = 0)) ∧
    (assemble options units).2.map (·.file) = units.map (·.file) ∧
    (∀ p, (assemble options units).1 = .ok p → (∀ d ∈ p.warnings, d.isWarning = true) ∧
      ∀ (k : Nat) u, (assemble options units).2[k]? = some u →
        u.code = some p.code ∧ p.locals[k]? = some u.locals ∧ u.locals.scope = u.file) ∧
    (∀ ds, (assemble options units).1 = .error ds →
      ds = program.warnings ∧ ∀ u ∈ (assemble options units).2, u.code = none) ∧
    (∀ before u after, units = before ++ u :: after → Accounts options program before u) ∧
    (∀ p, (assemble options units).1 = .ok p → ∀ before u after, units = before ++ u :: after →
      Complete options p before u) ∧
    ∀ c d : CodeWord, [c, d].Sublist program.code → c.address = d.address →
      Reported program.warnings d.line.source := by
  intro program
  have accounts : ∀ before u after, units = before ++ u :: after → Accounts options program before u := by
    rintro before u after rfl
    exact accounts_draft reachable distinct
  refine ⟨ok_iff options units, map_file_assemble options units, fun p ok => ⟨fun d => ?_, fun k u => ?_⟩,
    fun ds => of_error, accounts, fun p ok before u after hunits => ?_, fun c d => conflict_reported _ _⟩
  · exact Diagnostics.isWarning_of_mem ((ok_iff options units p).mp ok).2.1
  · exact of_ok ok distinct
  · obtain ⟨rfl, without, -⟩ := (ok_iff options units p).mp ok
    exact (accounts before u after hunits).complete without

/-- A label that is not exported, without any diagnostic. -/
theorem all_or_nothing_reservedName :
    let u : SourceUnit := .ofText "a.s" ".extern x 4\n.globl x\nx: nop"
    ∃ p, (assemble {} [u]).1 = .ok p ∧ p.warnings = [] ∧
      p.globals.find? "x" = some ⟨0x10000000, "a.s", 1, .global⟩ ∧
      p.locals.map (·.find? "x") = [some ⟨0x00400000, "a.s", 3, .internal⟩] ∧ Complete {} p [] u := by
  intro u
  have hran : (assemble {} [u]).1.toOption.map (fun p =>
      (p.warnings, p.globals.find? "x", p.locals.map (·.find? "x"))) =
      some ([], some ⟨0x10000000, "a.s", 1, .global⟩, [some ⟨0x00400000, "a.s", 3, .internal⟩]) := by
    decide +kernel
  obtain ⟨p, hp, hfound⟩ := Option.map_eq_some_iff.mp hran
  simp only [Prod.mk.injEq] at hfound
  obtain ⟨hwarnings, hglobal, hlocal⟩ := hfound
  have ok := eq_ok_of_toOption hp
  have reachable : ∀ v ∈ [u], v.Reachable :=
    List.forall_mem_singleton.mpr (.setText (.empty "a.s") ".extern x 4\n.globl x\nx: nop")
  obtain ⟨-, -, -, -, -, hcomplete, -⟩ := all_or_nothing {} reachable (by decide)
  exact ⟨p, ok, hwarnings, hglobal, hlocal, hcomplete p ok [] u [] rfl⟩

end Assembly

end MipsLab
