import MipsLab.Proofs.Ownership

set_option autoImplicit false

/-!
# Reading the text of a unit

Each line of a unit that is read becomes a line of tokens, or it has an error of its own
(`SourceUnit.read_or_reported`). A unit keeps its tokens from one use to the next; whatever was done with
it, they are those of the text that it has (`SourceUnit.Reachable.current`).
-/

namespace MipsLab

/-! ## Errors of a line -/

/-- A line of source has an error of its own. -/
def Reported (ds : Diagnostics) (source : SourceLine) : Prop :=
  ∃ d ∈ ds, d.isWarning = false ∧ d.file = source.file ∧ d.line = source.number

theorem Reported.mono {ds es : Diagnostics} (h : ds ⊆ es) {source : SourceLine}
    (reported : Reported ds source) : Reported es source :=
  reported.imp fun _ hd => hd.imp_left (h ·)

/-- Where a line has an error, there are errors. -/
theorem Reported.hasErrors {ds : Diagnostics} {source : SourceLine} (reported : Reported ds source) :
    ds.hasErrors = true := by
  obtain ⟨d, hd, herror, -⟩ := reported
  exact List.any_eq_true.mpr ⟨d, hd, by simp [herror]⟩

theorem reported_of_site {ds : Diagnostics} {site : Site} {c : Cause} (hc : c.isWarning = false)
    (h : site.report c ∈ ds) : Reported ds site.source :=
  ⟨_, h, hc, rfl, rfl⟩

/-- The errors of a line are never none. -/
theorem TokenLine.ne_nil_of_read {constants : Constants} {source : SourceLine}
    {errors : Constants.LineErrors} (h : TokenLine.read constants source = .error errors) :
    errors ≠ [] := by
  unfold TokenLine.read at h
  cases htokens : TokenLine.tokensOf source.text.toList with
  | error e =>
      rw [htokens] at h
      cases h
      unfold TokenLine.tokensOf at htokens
      dsimp only at htokens
      split at htokens
      case isTrue => cases htokens
      case isFalse hne =>
        rintro rfl
        exact hne (by rw [Except.error.inj htokens]; rfl)
  | ok tokens =>
      rw [htokens] at h
      dsimp only [bind, Except.bind] at h
      split at h
      case h_1 span definition =>
        cases hdefine : constants.define span definition with
        | ok =>
            rw [hdefine] at h
            cases h
        | error es =>
            rw [hdefine] at h
            cases h
            unfold Constants.define at hdefine
            split at hdefine
            · split at hdefine <;> cases hdefine
              exact List.cons_ne_nil _ _
            · cases hdefine
              exact List.cons_ne_nil _ _
      case h_2 => cases h

namespace SourceUnit

/-! ## Lines -/

/-- The constants that are defined after some lines. A line with errors defines none. -/
def constantsAfter (constants : Constants) : List SourceLine → Constants
  | [] => constants
  | source :: rest =>
    match TokenLine.read constants source with
    | .ok (_, constants) => constantsAfter constants rest
    | .error _ => constantsAfter constants rest

/-- **A line becomes a line of tokens or has an error.** -/
theorem read_or_reported (constants : Constants) (above : List SourceLine) (source : SourceLine)
    (below : List SourceLine) :
    (∃ line after, TokenLine.read (constantsAfter constants above) source = .ok (line, after)) ∨
      Reported (readLines constants (above ++ source :: below)).2 source := by
  induction above generalizing constants with
  | nil =>
      rw [List.nil_append, constantsAfter, readLines]
      cases hread : TokenLine.read constants source with
      | ok result => exact .inl ⟨result.1, result.2, rfl⟩
      | error errors =>
          obtain ⟨e, es, rfl⟩ := List.exists_cons_of_ne_nil (TokenLine.ne_nil_of_read hread)
          exact .inr ⟨_, List.mem_append_left _ List.mem_cons_self, rfl, rfl, rfl⟩
  | cons first above ih =>
      rw [List.cons_append, constantsAfter, readLines]
      cases hread : TokenLine.read constants first with
      | ok result => exact ih result.2
      | error errors => exact (ih constants).imp_right (.mono (List.subset_append_right _ _))

/-- If each line is read, then there are no errors. -/
theorem errors_readLines {constants : Constants} {lines : List SourceLine}
    (h : ∀ above source below, lines = above ++ source :: below →
      ∃ line after, TokenLine.read (constantsAfter constants above) source = .ok (line, after)) :
    (readLines constants lines).2 = [] := by
  induction lines generalizing constants with
  | nil => rfl
  | cons source rest ih =>
      obtain ⟨line, after, hread⟩ := h [] source rest rfl
      rw [constantsAfter] at hread
      rw [readLines, hread]
      refine ih fun above next below hrest => ?_
      have hnext := h (source :: above) next below (hrest ▸ rfl)
      rw [constantsAfter, hread] at hnext
      exact hnext

/-- Lines without errors are all read. -/
theorem map_source_readLines {constants : Constants} {lines : List SourceLine}
    (h : (readLines constants lines).2 = []) :
    (readLines constants lines).1.map (·.source) = lines := by
  induction lines generalizing constants with
  | nil => rfl
  | cons source rest ih =>
      rw [readLines] at h ⊢
      cases hread : TokenLine.read constants source with
      | ok result =>
          rw [hread] at h
          rw [List.map_cons, source_of_read hread, ih h]
      | error errors =>
          rw [hread] at h
          exact absurd (List.map_eq_nil_iff.mp (List.append_eq_nil_iff.mp h).1)
            (TokenLine.ne_nil_of_read hread)

/-! ## States of a unit -/

/-- The states that a unit can be in: made from a text, read, given other macros, and assembled any number
of times with other units. -/
inductive Reachable : SourceUnit → Prop
  | empty (file : String) : Reachable (empty file)
  | setText {u : SourceUnit} (h : Reachable u) (text : String) : Reachable (u.setText text)
  | tokenize {u : SourceUnit} (h : Reachable u) : Reachable u.tokenize.1
  | createPool {u : SourceUnit} (h : Reachable u) : Reachable u.createPool
  | setPool {u : SourceUnit} (h : Reachable u) (pool : MacroPool) : Reachable (u.setPool pool)
  | assembled {u : SourceUnit} (options : AssemblyOptions) (units : List SourceUnit)
      (h : ∀ v ∈ units, Reachable v) (hu : u ∈ (Assembly.assemble options units).2) : Reachable u

/-- The tokens of the unit, if it has any, are those of its text. -/
def Current (u : SourceUnit) : Prop :=
  ∀ tokens, u.tokens = some tokens → readLines [] u.lines = (tokens, [])

theorem Current.of_eq {u v : SourceUnit} (h : u.Current) (tokens : v.tokens = u.tokens)
    (lines : v.lines = u.lines) : v.Current := by
  intro ts hts
  rw [lines]
  exact h ts (tokens.symm.trans hts)

theorem current_tokenize (u : SourceUnit) : u.tokenize.1.Current := by
  unfold tokenize
  split
  case h_1 tokens hread =>
    rintro ts ⟨⟩
    exact hread
  case h_2 => exact nofun

theorem Current.read {u : SourceUnit} (h : u.Current) : u.read.1.Current := by
  unfold SourceUnit.read
  split
  · exact h
  · exact current_tokenize u

/-- What the first pass makes of a unit. -/
def expanded (u : SourceUnit) : SourceUnit :=
  match u.read.1.tokens with
  | some tokens => u.read.1.setPool (MacroPool.empty.expandUnit tokens).pool
  | none => u.read.1

theorem tokens_expanded (u : SourceUnit) :
    u.expanded.tokens = u.read.1.tokens ∧ u.expanded.lines = u.read.1.lines ∧
      u.expanded.file = u.file := by
  unfold expanded
  split <;> exact ⟨rfl, rfl, file_read u⟩

end SourceUnit

namespace Assembly

theorem snd_placeUnits (p : Placement) (units : List SourceUnit) :
    (placeUnits p units).2 = units.map (·.expanded) := by
  induction units generalizing p with
  | nil => rfl
  | cons u rest ih =>
      have hunit : (placeUnit p u).2 = u.expanded := by
        unfold placeUnit SourceUnit.expanded
        rw [show (if u.tokens.isSome then (u, []) else u.tokenize) = u.read from rfl]
        dsimp only
        split <;> rename_i h <;> rw [h]
      rw [List.map_cons, ← hunit, ← ih (placeUnit p u).1]
      rfl

/-- A unit that was assembled holds what the first pass made of it, apart from code and labels. -/
theorem exists_expanded_of_mem {options : AssemblyOptions} {units : List SourceUnit} {u : SourceUnit}
    (hu : u ∈ (assemble options units).2) :
    ∃ v ∈ units, u.tokens = v.expanded.tokens ∧ u.lines = v.expanded.lines ∧ u.file = v.expanded.file := by
  have hmem : ∃ w ∈ units.map (·.expanded), u.tokens = w.tokens ∧ u.lines = w.lines ∧ u.file = w.file := by
    rw [← snd_placeUnits (.initial options.extended options.layout)]
    unfold assemble at hu
    dsimp only at hu
    split at hu <;> obtain ⟨w, hw, rfl⟩ := List.mem_map.mp hu <;> exact ⟨w, hw, rfl, rfl, rfl⟩
  obtain ⟨_, hw, hu⟩ := hmem
  obtain ⟨v, hv, rfl⟩ := List.mem_map.mp hw
  exact ⟨v, hv, hu⟩

end Assembly

namespace SourceUnit

/-- **The tokens of a unit are those of its text, whatever was done with it.** -/
theorem Reachable.current {u : SourceUnit} (h : u.Reachable) : u.Current := by
  induction h with
  | empty => exact nofun
  | setText => exact nofun
  | @tokenize u => exact current_tokenize u
  | createPool _ ih | setPool _ _ ih => exact ih.of_eq rfl rfl
  | assembled options units _ hu ih =>
      obtain ⟨v, hv, htokens, hlines, -⟩ := Assembly.exists_expanded_of_mem hu
      obtain ⟨htokens', hlines', -⟩ := tokens_expanded v
      exact (ih v hv).read.of_eq (htokens.trans htokens') (hlines.trans hlines')

theorem source_tokenize (u : SourceUnit) : u.tokenize.1.lines = u.lines ∧ u.tokenize.1.file = u.file := by
  unfold tokenize
  split <;> exact ⟨rfl, rfl⟩

theorem lines_read (u : SourceUnit) : u.read.1.lines = u.lines := by
  unfold read
  split
  · rfl
  · exact (source_tokenize u).1

/-- The lines of a unit come from its file, whatever was done with it. -/
theorem Reachable.owned {u : SourceUnit} (h : u.Reachable) : u.Owned := by
  have hlines : ∀ l ∈ u.lines, l.file = u.file := by
    induction h with
    | empty => exact nofun
    | @setText u _ text => exact (owned_ofText u.file text).lines
    | @tokenize u _ ih =>
        rw [(source_tokenize u).1, (source_tokenize u).2]
        exact ih
    | createPool _ ih | setPool _ _ ih => exact ih
    | assembled options units _ hu ih =>
        obtain ⟨v, hv, -, hlines, hfile⟩ := Assembly.exists_expanded_of_mem hu
        obtain ⟨-, hlines', hfile'⟩ := tokens_expanded v
        rw [hlines, hlines', lines_read, hfile, hfile']
        exact ih v hv
  refine ⟨hlines, fun tokens htokens l hl => hlines _ ?_⟩
  have hread := h.current tokens htokens
  have hmem : l ∈ (readLines [] u.lines).1 := by
    rw [hread]
    exact hl
  exact source_of_mem_readLines hmem

/-- Reading a unit gives the tokens of its text, or its errors. -/
theorem read_eq {u : SourceUnit} (current : u.Current) :
    (u.read.1.tokens = some (readLines [] u.lines).1 ∧ (readLines [] u.lines).2 = []) ∨
      (u.read.1.tokens = none ∧ u.read.2 = (readLines [] u.lines).2 ∧ (readLines [] u.lines).2 ≠ []) := by
  unfold read
  split
  case isTrue hsome =>
    obtain ⟨tokens, htokens⟩ := Option.isSome_iff_exists.mp hsome
    rw [current tokens htokens, htokens]
    exact .inl ⟨rfl, rfl⟩
  case isFalse =>
    unfold tokenize
    split
    case h_1 tokens hread =>
      rw [hread]
      exact .inl ⟨rfl, rfl⟩
    case h_2 errors hne hread =>
      rw [hread]
      exact .inr ⟨rfl, rfl, fun h => hne h⟩

end SourceUnit

end MipsLab
