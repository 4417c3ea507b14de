import MipsLab.Proofs.Sessions

set_option autoImplicit false

/-!
# The history of a unit

A unit holds the code of a program and a table of labels, which are set and forgotten apart from each other. What
they are is read off what happened to the unit, the latest event first (`Session.code_and_table`): the code is
that of the last assembly, if it succeeded and the text was not changed since, and the table is that of the last
assembly that succeeded, if the text was neither changed nor read since. So both are of the same assembly, except
for a table that outlives its code: an assembly that fails takes the code away and leaves the table.
-/

namespace MipsLab

namespace Session

open SourceUnit Assembly

/-! ## Events -/

/-- What happens to a unit. -/
inductive Event where
  /-- It gets a text. -/
  | written
  /-- Its text is read. -/
  | read
  | assembled (program : AssembledProgram)
  /-- An assembly that it takes part in fails. -/
  | refused

/-- What an operation on some units does to the one at an index. -/
def Op.event? (i : Nat) (units : List SourceUnit) : Op → Option Event
  | new _ | fromText _ _ => if i = units.length then some .written else none
  | setText j _ => if j = i then some .written else none
  | tokenize j => if j = i then some .read else none
  | createPool _ | setPool _ _ => none
  | assemble options start count =>
    if start ≤ i ∧ i < start + count then
      match (Assembly.assemble options (slice start count units)).1 with
      | .ok program => some (.assembled program)
      | .error _ => some .refused
    else none

/-- The events of the unit at an index in the course of some operations, the latest one first. -/
def eventsFrom (i : Nat) : List SourceUnit → List Op → List Event
  | _, [] => []
  | units, op :: later => eventsFrom i (op.run units) later ++ (op.event? i units).toList

/-- The events of a unit in a session. -/
def events (ops : List Op) (i : Nat) : List Event := eventsFrom i [] ops

/-- The program whose code a unit holds. -/
def codeSource? : List Event → Option AssembledProgram
  | .assembled program :: _ => some program
  | .read :: earlier => codeSource? earlier
  | .written :: _ | .refused :: _ | [] => none

/-- The program whose table a unit holds. -/
def tableSource? : List Event → Option AssembledProgram
  | .assembled program :: _ => some program
  | .refused :: earlier => tableSource? earlier
  | .written :: _ | .read :: _ | [] => none

/-- What a unit holds after some events. -/
structure Follows (u : SourceUnit) (past : List Event) : Prop where
  current : u.Current
  code : u.code = (codeSource? past).map (·.code)
  table : u.locals = ((tableSource? past).bind (·.localsOf? u.file)).getD (.empty u.file)
  /-- A unit with a table has been read. -/
  read : (tableSource? past).isSome → u.tokens.isSome

/-! ## One operation -/

namespace Follows

variable {u : SourceUnit} {past : List Event}

theorem empty (file : String) (past : List Event) : Follows (.empty file) (.written :: past) :=
  ⟨nofun, rfl, rfl, nofun⟩

theorem setText (u : SourceUnit) (text : String) (past : List Event) :
    Follows (u.setText text) (.written :: past) := ⟨nofun, rfl, rfl, nofun⟩

theorem of_macros (h : Follows u past) (macros : Option MacroPool) : Follows { u with macros } past :=
  ⟨h.current.of_eq rfl rfl, h.code, h.table, h.read⟩

/-- A unit that has not been read has no table. -/
theorem tableSource?_of_unread (h : Follows u past) (unread : u.tokens = none) : tableSource? past = none := by
  by_contra hsome
  have hread := h.read (Option.isSome_iff_ne_none.mpr hsome)
  simp [unread] at hread

/-- Reading leaves no table: it fails only if the unit has not been read before. -/
theorem locals_tokenize (h : Follows u past) : u.tokenize.1.locals = .empty u.file := by
  unfold SourceUnit.tokenize
  split
  case h_1 => rfl
  case h_2 errors hne hread =>
    cases htokens : u.tokens with
    | none => rw [h.table, h.tableSource?_of_unread htokens, Option.bind_none, Option.getD_none]
    | some tokens =>
        have hcurrent := h.current tokens htokens
        rw [hread] at hcurrent
        exact absurd (congrArg (·.2) hcurrent) hne

theorem code_tokenize (u : SourceUnit) : u.tokenize.1.code = u.code := by
  unfold SourceUnit.tokenize
  split <;> rfl

theorem tokenize (h : Follows u past) : Follows u.tokenize.1 (.read :: past) := by
  refine ⟨current_tokenize u, (code_tokenize u).trans h.code, ?_, nofun⟩
  rw [h.locals_tokenize, (source_tokenize u).2]
  rfl

/-- A unit that takes part in an assembly is read if it has not been read before. -/
theorem expanded (h : Follows u past) : Follows u.expanded past := by
  have hread : Follows u.read.1 past := by
    unfold SourceUnit.read
    split
    case isTrue => exact h
    case isFalse hunread =>
      have hnone := h.tableSource?_of_unread (Option.not_isSome_iff_eq_none.mp hunread)
      refine ⟨current_tokenize u, (code_tokenize u).trans h.code, ?_, ?_⟩
      · rw [h.locals_tokenize, (source_tokenize u).2, hnone]
        rfl
      · simp [hnone]
  unfold SourceUnit.expanded
  split
  · exact hread.of_macros _
  · exact hread

theorem refused (h : Follows u past) : Follows { u.expanded with code := none } (.refused :: past) := by
  obtain ⟨current, -, table, read⟩ := h.expanded
  exact ⟨current.of_eq rfl rfl, rfl, table, read⟩

theorem assembled (h : Follows u past) {program : AssembledProgram} {t : SymbolTable}
    (ht : program.localsOf? u.file = some t) (readable : u.read.1.tokens ≠ none) :
    Follows (install program u.expanded) (.assembled program :: past) := by
  obtain ⟨htokens, -, hfile⟩ := tokens_expanded u
  have hlocals : (install program u.expanded).locals = t := by
    rw [install, hfile, ht]
    rfl
  refine ⟨h.expanded.current.of_eq rfl rfl, rfl, ?_, fun _ => ?_⟩
  · rw [hlocals]
    show t = (program.localsOf? u.expanded.file).getD _
    rw [hfile, ht]
    rfl
  · show u.expanded.tokens.isSome
    rw [htokens]
    exact Option.isSome_iff_ne_none.mpr readable

end Follows

theorem length_assemble (options : AssemblyOptions) (units : List SourceUnit) :
    (Assembly.assemble options units).2.length = units.length := by
  rw [← List.length_map (f := (·.file)), map_file_assemble, List.length_map]

theorem getElem?_slice {α : Type} (l : List α) {start count i : Nat} (above : start ≤ i)
    (below : i < start + count) : (slice start count l)[i - start]? = l[i]? := by
  rw [slice, List.getElem?_take, if_pos (by omega), List.getElem?_drop]
  congr 1
  omega

/-- An assembly replaces the units of its slice. -/
theorem getElem?_run_assemble (options : AssemblyOptions) (start count : Nat) (units : List SourceUnit)
    (i : Nat) : ((Op.assemble options start count).run units)[i]? =
      if start ≤ i ∧ i < start + count then
        (Assembly.assemble options (slice start count units)).2[i - start]?
      else units[i]? := by
  have hlength : (Assembly.assemble options (slice start count units)).2.length =
      min count (units.length - start) := by
    rw [length_assemble, slice, List.length_take, List.length_drop]
  rw [Op.run, List.append_assoc, List.getElem?_append, List.getElem?_append, List.length_take, hlength]
  by_cases hi : i < units.length
  · by_cases hbefore : i < start
    · rw [if_pos (by omega), if_neg (by omega), List.getElem?_take, if_pos hbefore]
    · rw [if_neg (by omega), Nat.min_eq_left (by omega)]
      by_cases hslice : i < start + count
      · rw [if_pos (by omega), if_pos ⟨by omega, hslice⟩]
      · rw [if_neg (by omega), if_neg (by omega), List.getElem?_drop, List.getElem?_drop]
        congr 1
        omega
  · -- there is no such unit, before or after
    rw [if_neg (by omega), if_neg (by omega), List.getElem?_eq_none (by simp; omega)]
    split
    · rw [List.getElem?_eq_none (by omega)]
    · rw [List.getElem?_eq_none (by omega)]

/-- What an assembly does to a unit. -/
theorem follows_assemble {units : List SourceUnit} {k : Nat} {past : List Event}
    (h : ∀ u, units[k]? = some u → Follows u past) (options : AssemblyOptions) {u : SourceUnit}
    (hu : (Assembly.assemble options units).2[k]? = some u) :
    Follows u ((match (Assembly.assemble options units).1 with
      | .ok program => .assembled program
      | .error _ => .refused) :: past) := by
  cases hresult : (Assembly.assemble options units).1 with
  | error ds =>
      rw [assemble_eq] at hu hresult
      split at hresult
      case isTrue hrefused =>
        rw [if_pos hrefused, List.map_map, List.getElem?_map] at hu
        obtain ⟨v, hv, rfl⟩ := Option.map_eq_some_iff.mp hu
        exact (h v hv).refused
      case isFalse => cases hresult
  | ok program =>
      have ok := hresult
      rw [assemble_eq] at hu hresult
      split at hresult
      case isTrue => cases hresult
      case isFalse hallowed =>
        obtain rfl := Except.ok.inj hresult
        rw [if_neg hallowed, List.map_map, List.getElem?_map] at hu
        obtain ⟨v, hv, rfl⟩ := Option.map_eq_some_iff.mp hu
        have hmem : v ∈ units := List.mem_of_getElem? hv
        obtain ⟨t, ht⟩ := table_of_ok ok hmem
        exact (h v hv).assembled ht (readable_of_ok ok hmem)

section Run

variable {units : List SourceUnit} {i : Nat} {past : List Event}
  (h : ∀ u, units[i]? = some u → Follows u past)
include h

/-- A change of one unit is an event of this unit, if it is one at all. -/
theorem follows_modify {f : SourceUnit → SourceUnit} {e : Option Event}
    (hf : ∀ u, Follows u past → Follows (f u) (e.toList ++ past)) (j : Nat) :
    ∀ u, (units.modify j f)[i]? = some u → Follows u ((if j = i then e else none).toList ++ past) := by
  intro u hu
  rw [List.getElem?_modify] at hu
  obtain ⟨v, hv, rfl⟩ := Option.map_eq_some_iff.mp hu
  by_cases hj : j = i
  · rw [if_pos hj, if_pos hj]
    exact hf v (h v hv)
  · rw [if_neg hj, if_neg hj]
    exact h v hv

/-- A new unit has been written, and it is the only one that has an event. -/
theorem follows_append {v : SourceUnit} (hv : Follows v (.written :: past)) :
    ∀ u, (units ++ [v])[i]? = some u →
      Follows u ((if i = units.length then some .written else none).toList ++ past) := by
  intro u hu
  rw [List.getElem?_append] at hu
  split at hu
  case isTrue hold =>
    rw [if_neg (Nat.ne_of_lt hold)]
    exact h u hu
  case isFalse hnew =>
    rw [List.getElem?_singleton] at hu
    split at hu
    case isTrue hlast =>
      cases hu
      rw [if_pos (by omega)]
      exact hv
    case isFalse => cases hu

/-- **What one operation does to a unit.** -/
theorem follows_run (op : Op) :
    ∀ u, (op.run units)[i]? = some u → Follows u ((op.event? i units).toList ++ past) := by
  cases op with
  | new file => exact follows_append h (.empty file past)
  | fromText file text => exact follows_append h (.setText _ text past)
  | setText j text => exact follows_modify h (e := some .written) (fun u _ => .setText u text past) j
  | tokenize j => exact follows_modify h (e := some .read) (fun _ hu => hu.tokenize) j
  | createPool j | setPool j pool =>
      intro u hu
      have hkept := follows_modify h (e := none) (fun _ hv => hv.of_macros _) j u hu
      rwa [ite_self] at hkept
  | assemble options start count =>
      intro u hu
      rw [getElem?_run_assemble] at hu
      rw [Op.event?]
      split at hu
      case isTrue hslice =>
        rw [if_pos hslice]
        have hunit := getElem?_slice units hslice.1 hslice.2
        have hfollows := follows_assemble (fun u hu => h u (hunit ▸ hu)) options hu
        split <;> rename_i heq <;> rw [heq] at hfollows <;> exact hfollows
      case isFalse hslice =>
        rw [if_neg hslice]
        exact h u hu

end Run

/-- What some operations do to a unit. -/
theorem follows_eventsFrom (ops : List Op) {units : List SourceUnit} {i : Nat} {past : List Event}
    (h : ∀ u, units[i]? = some u → Follows u past) :
    ∀ u, (ops.foldl (fun units op => op.run units) units)[i]? = some u →
      Follows u (eventsFrom i units ops ++ past) := by
  induction ops generalizing units past with
  | nil => exact h
  | cons op later ih =>
      rw [eventsFrom, List.append_assoc]
      exact ih (follows_run h op)

/-- What a unit holds at the end of a session follows from its events. -/
theorem follows_events (ops : List Op) (i : Nat) {u : SourceUnit} (hu : (units ops)[i]? = some u) :
    Follows u (events ops i) := by
  have hnone : ∀ u, ([] : List SourceUnit)[i]? = some u → Follows u [] := nofun
  have hfollows := follows_eventsFrom ops hnone u hu
  rwa [List.append_nil] at hfollows

/-! ## Code and table -/

/-- Labels are those of the program that the table is from. -/
theorem Follows.exists_table {u : SourceUnit} {past : List Event} (h : Follows u past)
    (labels : u.locals.isEmpty = false) :
    ∃ program, tableSource? past = some program ∧ program.localsOf? u.file = some u.locals := by
  have htable := h.table
  cases hlocals : (tableSource? past).bind (·.localsOf? u.file) with
  | none =>
      rw [hlocals, Option.getD_none] at htable
      rw [htable] at labels
      cases labels
  | some t =>
      rw [hlocals, Option.getD_some] at htable
      obtain ⟨program, hprogram, ht⟩ := Option.bind_eq_some_iff.mp hlocals
      exact ⟨program, hprogram, htable ▸ ht⟩

/-- The latest event of a unit that holds code and was not read since is the assembly of this code. -/
theorem exists_assembled {past : List Event} {code table : AssembledProgram}
    (hcode : codeSource? past = some code) (htable : tableSource? past = some table) :
    ∃ earlier, past = .assembled code :: earlier ∧ table = code := by
  cases past with
  | nil => cases hcode
  | cons event earlier =>
      cases event with
      | assembled program =>
          cases hcode
          cases htable
          exact ⟨earlier, rfl, rfl⟩
      | read => cases htable
      | written | refused => cases hcode

/-- The latest event of a unit that holds a table but no code is an assembly that failed. -/
theorem exists_refused {past : List Event} {table : AssembledProgram} (hcode : codeSource? past = none)
    (htable : tableSource? past = some table) : ∃ earlier, past = .refused :: earlier := by
  cases past with
  | nil => cases htable
  | cons event earlier =>
      cases event with
      | refused => exact ⟨earlier, rfl⟩
      | assembled program => cases hcode
      | written | read => cases htable

/-- **Code and table of a unit.** The code is that of the last assembly that the unit took part in, if it
succeeded and no text was set since. The table is that of the last assembly that succeeded, if no text was set or
read since. A unit that holds code and labels holds them from one assembly. It holds labels without
code exactly if it held the labels when an assembly failed. -/
theorem code_and_table (ops : List Op) (i : Nat) {u : SourceUnit} (hu : (units ops)[i]? = some u) :
    u.code = (codeSource? (events ops i)).map (·.code) ∧
    u.locals = ((tableSource? (events ops i)).bind (·.localsOf? u.file)).getD (.empty u.file) ∧
    (∀ code, u.code = some code → u.locals.isEmpty = false →
      ∃ program earlier, events ops i = .assembled program :: earlier ∧ program.code = code ∧
        program.localsOf? u.file = some u.locals) ∧
    ((u.code = none ∧ u.locals.isEmpty = false) ↔
      ∃ program t earlier, events ops i = .refused :: earlier ∧ tableSource? earlier = some program ∧
        program.localsOf? u.file = some t ∧ t.isEmpty = false) := by
  have hfollows := follows_events ops i hu
  refine ⟨hfollows.code, hfollows.table, ?_, ?_⟩
  · intro code hcode labels
    obtain ⟨program, hprogram, ht⟩ := hfollows.exists_table labels
    obtain ⟨source, hsource, rfl⟩ := Option.map_eq_some_iff.mp (hfollows.code.symm.trans hcode)
    obtain ⟨earlier, hpast, rfl⟩ := exists_assembled hsource hprogram
    exact ⟨program, earlier, hpast, rfl, ht⟩
  · constructor
    · rintro ⟨hcode, labels⟩
      obtain ⟨program, hprogram, ht⟩ := hfollows.exists_table labels
      have hnone : codeSource? (events ops i) = none :=
        Option.map_eq_none_iff.mp (hfollows.code.symm.trans hcode)
      obtain ⟨earlier, hpast⟩ := exists_refused hnone hprogram
      rw [hpast] at hprogram
      exact ⟨program, u.locals, earlier, hpast, hprogram, ht, labels⟩
    · rintro ⟨program, t, earlier, hpast, hprogram, ht, labels⟩
      have hcode := hfollows.code
      have htable := hfollows.table
      rw [hpast] at hcode htable
      rw [tableSource?, hprogram, Option.bind_some, ht, Option.getD_some] at htable
      exact ⟨hcode, htable ▸ labels⟩

/-- The label of a unit outlives its code: without expansions the unit cannot be assembled again. -/
theorem code_and_table_refused :
    let ops : List Op := [.fromText "a.s" "x: li $t0, 1", .assemble {} 0 1, .assemble { extended := false } 0 1]
    ∃ u program earlier, (units ops)[0]? = some u ∧ u.code = none ∧
      u.locals.toList = [("x", ⟨0x00400000, "a.s", 1, .internal⟩)] ∧
      events ops 0 = .refused :: earlier ∧ tableSource? earlier = some program ∧
      program.localsOf? "a.s" = some u.locals := by
  intro ops
  have hran : (units ops)[0]?.map (fun u => (u.file, u.code, u.locals.isEmpty, u.locals.toList)) =
      some ("a.s", none, false, [("x", ⟨0x00400000, "a.s", 1, .internal⟩)]) := by decide +kernel
  obtain ⟨u, hu, hparts⟩ := Option.map_eq_some_iff.mp hran
  obtain ⟨hfile, hcode, labels, hlist⟩ := by simpa using hparts
  obtain ⟨-, htable, -, hstale⟩ := code_and_table ops 0 hu
  obtain ⟨program, t, earlier, hpast, hprogram, ht, -⟩ := hstale.mp ⟨hcode, labels⟩
  rw [hpast, tableSource?, hprogram, Option.bind_some, ht, Option.getD_some] at htable
  exact ⟨u, program, earlier, hu, hcode, hlist, hpast, hprogram, by rw [← hfile, ht, htable]⟩

end Session

end MipsLab
