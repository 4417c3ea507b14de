import MipsLab.Proofs.Reading
import MipsLab.Proofs.SymbolSteps

set_option autoImplicit false

/-!
# The end of a unit in spite of errors

At the end of a unit each of its labels is in the table of the unit or in that of all units, or there is an
error about it (`Assembly.label_or_reported`); and a name that the unit declares to be exported is one that
all units see, from this unit, or the declaration has an error (`Assembly.export_or_reported`).
-/

namespace MipsLab

namespace Placement

/-! ## Exports -/

/-- The symbol as all units see it. -/
def shared (s : Symbol) : Symbol := { s with kind := .global }

/-- An export finds the name exported from the same file already, or it moves the label, or it has an error. -/
theorem exportLabel_outcomes (p : Placement) (name : String) (site : Site) :
    let q := p.exportLabel (name, site)
    (q = p ∧ ∃ g, p.globals.find? name = some g ∧ g.file = site.source.file) ∨
    (q = p.report site (.symbol (.undefinedGlobal name))) ∨
    ∃ s, p.unit.locals.find? name = some s ∧
      (∀ n, q.unit.locals.find? n = if name = n then none else p.unit.locals.find? n) ∧
      (p.globals.Adds name (shared s) q.globals ∨
        (q.globals = p.globals ∧
          ∃ first, site.report (.symbol (.duplicateGlobal name first)) ∈ q.diagnostics)) := by
  unfold exportLabel
  dsimp only
  split
  case isTrue hthere =>
    obtain ⟨g, hg, hfile⟩ := (Option.any_eq_true _ _).mp hthere
    exact .inl ⟨rfl, g, hg, eq_of_beq hfile⟩
  case isFalse =>
    split
    case h_1 => exact .inr (.inl rfl)
    case h_2 s hs =>
      refine .inr (.inr ⟨s, hs, ?_⟩)
      split
      case h_1 globals hadded =>
        exact ⟨SymbolTable.find?_erase _ _, .inl (SymbolTable.adds_of_addGlobal hadded)⟩
      case h_2 e hadded =>
        unfold SymbolTable.addGlobal at hadded
        split at hadded
        case h_1 first _ =>
          cases hadded
          exact ⟨SymbolTable.find?_erase _ _, .inr ⟨rfl, first.file,
            List.mem_append_right _ List.mem_cons_self⟩⟩
        case h_2 => cases hadded

/-- From `p` to `q`, some labels were exported, in order. -/
structure Exported (declared : List (String × Site)) (p q : Placement) : Prop where
  more : Extends p q
  globals : ∀ name g, p.globals.find? name = some g → q.globals.find? name = some g
  kept : ∀ name s, p.unit.locals.find? name = some s → q.unit.locals.find? name = some s ∨
    q.globals.find? name = some (shared s) ∨
    ∃ site ∈ declared.map (·.2), ∃ first, site.report (.symbol (.duplicateGlobal name first)) ∈ q.diagnostics
  locals : ∀ name s, q.unit.locals.find? name = some s → p.unit.locals.find? name = some s
  only : ∀ name g, q.globals.find? name = some g → p.globals.find? name = some g ∨
    ∃ s, p.unit.locals.find? name = some s ∧ g = shared s
  exported : ∀ name site, (name, site) ∈ declared → q.SymbolErrorAt site ∨
    ∃ g, q.globals.find? name = some g ∧
      (g.file = site.source.file ∨ ∃ s, p.unit.locals.find? name = some s ∧ g = shared s)

namespace Exported

variable {p q r : Placement} {declared later : List (String × Site)}

theorem refl (p : Placement) : Exported [] p p :=
  ⟨.refl p, fun _ _ h => h, fun _ _ h => .inl h, fun _ _ h => h, fun _ _ h => .inl h, by simp⟩

theorem trans (hpq : Exported declared p q) (hqr : Exported later q r) : Exported (declared ++ later) p r where
  more := hpq.more.trans hqr.more
  globals name g h := hqr.globals name g (hpq.globals name g h)
  kept name s h := by
    rw [List.map_append]
    rcases hpq.kept name s h with h | h | ⟨site, hsite, first, herror⟩
    · exact (hqr.kept name s h).imp_right (.imp_right fun ⟨site, hsite, herror⟩ =>
        ⟨site, List.mem_append_right _ hsite, herror⟩)
    · exact .inr (.inl (hqr.globals name _ h))
    · exact .inr (.inr ⟨site, List.mem_append_left _ hsite, first, hqr.more.diagnostics.subset herror⟩)
  locals name s h := hpq.locals name s (hqr.locals name s h)
  only name g h := by
    rcases hqr.only name g h with h | ⟨s, hs, rfl⟩
    · exact hpq.only name g h
    · exact .inr ⟨s, hpq.locals name s hs, rfl⟩
  exported name site h := by
    rcases List.mem_append.mp h with h | h
    · exact (hpq.exported name site h).imp (.extends hqr.more) fun ⟨g, hg, hfrom⟩ =>
        ⟨g, hqr.globals name g hg, hfrom⟩
    · exact (hqr.exported name site h).imp_right fun ⟨g, hg, hfrom⟩ =>
        ⟨g, hg, hfrom.imp_right fun ⟨s, hs, h⟩ => ⟨s, hpq.locals name s hs, h⟩⟩

/-- No symbol was moved, because the name is exported already or because of an error. -/
theorem unmoved {name : String} {site : Site} (more : Extends p q)
    (locals : q.unit.locals = p.unit.locals) (globals : q.globals = p.globals)
    (outcome : q.SymbolErrorAt site ∨ ∃ g, q.globals.find? name = some g ∧ g.file = site.source.file) :
    Exported [(name, site)] p q where
  more := more
  globals n g h := by rwa [globals]
  kept n s h := .inl (by rwa [locals])
  locals n s h := by rwa [← locals]
  only n g h := .inl (by rwa [← globals])
  exported n st h := by
    obtain ⟨rfl, rfl⟩ := Prod.mk.inj (List.mem_singleton.mp h)
    exact outcome.imp_right fun ⟨g, hg, hfile⟩ => ⟨g, hg, .inl hfile⟩

/-- The symbol left the unit, for the table that all units see or because that table has its name. -/
theorem moved {name : String} {site : Site} {s : Symbol} (more : Extends p q)
    (hs : p.unit.locals.find? name = some s)
    (locals : ∀ n, q.unit.locals.find? n = if name = n then none else p.unit.locals.find? n)
    (outcome : p.globals.Adds name (shared s) q.globals ∨ (q.globals = p.globals ∧
      ∃ first, site.report (.symbol (.duplicateGlobal name first)) ∈ q.diagnostics)) :
    Exported [(name, site)] p q where
  more := more
  globals n g h := by
    rcases outcome with hadds | ⟨hsame, -⟩
    · exact hadds.kept h
    · rwa [hsame]
  kept n t h := by
    by_cases hn : name = n
    · subst hn
      obtain rfl := Option.some.inj (h.symm.trans hs)
      refine .inr (outcome.imp (fun hadds => hadds.added) ?_)
      rintro ⟨-, first, herror⟩
      exact ⟨site, by simp, first, herror⟩
    · exact .inl ((locals n).trans ((if_neg hn).trans h))
  locals n t h := by
    rw [locals] at h
    split at h
    · cases h
    · exact h
  only n g h := by
    rcases outcome with hadds | ⟨hsame, -⟩
    · rcases hadds.only h with ⟨rfl, rfl⟩ | h
      · exact .inr ⟨s, hs, rfl⟩
      · exact .inl h
    · exact .inl (by rwa [← hsame])
  exported n st h := by
    obtain ⟨rfl, rfl⟩ := Prod.mk.inj (List.mem_singleton.mp h)
    rcases outcome with hadds | ⟨-, first, herror⟩
    · exact .inr ⟨_, hadds.added, .inr ⟨s, hs, rfl⟩⟩
    · exact .inl ⟨_, herror⟩

theorem single (p : Placement) (label : String × Site) : Exported [label] p (p.exportLabel label) := by
  obtain ⟨name, site⟩ := label
  have hmore := (PlacesNothing.exportLabel p (name, site)).extends
  rcases exportLabel_outcomes p name site with ⟨hsame, g, hg, hfile⟩ | hreport | ⟨s, hs, hlocals, houtcome⟩
  · rw [hsame] at hmore ⊢
    exact unmoved hmore rfl rfl (.inr ⟨g, hg, hfile⟩)
  · rw [hreport] at hmore ⊢
    exact unmoved hmore rfl rfl (.inl (.report p site _))
  · exact moved hmore hs hlocals houtcome

end Exported

theorem exported_foldl_exportLabel (declared : List (String × Site)) (p : Placement) :
    Exported declared p (declared.foldl exportLabel p) := by
  induction declared generalizing p with
  | nil => exact .refl p
  | cons label declared ih => exact (Exported.single p label).trans (ih _)

/-! ## Lines of a unit -/

theorem waiting_awaitLabels (p : Placement) (line : TokenLine) (labels : List (String × Span)) :
    (p.awaitLabels line labels).unit.waiting =
      p.unit.waiting ++ labels.map fun l => (l.1, ⟨line.source, l.2.start + 1⟩) :=
  congrArg Symbols.waiting (symbols_awaitLabels p line labels)

section Lines

variable {lines : List TokenLine} {p : Placement} {line : TokenLine} {s : Statement}
  (hline : line ∈ lines) (hs : Statement.ofTokens line.tokens = .ok s)
include hline hs

/-- What a line defines is known after it. -/
theorem defines_placeLine {name : String} (hname : name ∈ s.labels.map (·.1)) :
    (p.placeLine line).Defines name := by
  refine (steps_placeNucleus hline hs p).keeps.defines name (.inl ?_)
  rw [waiting_awaitLabels, List.map_append, List.map_map]
  exact List.mem_append_right _ hname

/-- A label of a line is known after it; and if the unit, or the line, has its name already, it has an error or
will get one. -/
theorem known_placeLine {first later : List (String × Span)} {name : String} {span : Span}
    (hsplit : s.labels = first ++ (name, span) :: later) :
    (p.placeLine line).Known name ⟨line.source, span.start + 1⟩ ∧
      (name ∈ first.map (·.1) ∨ p.Defines name →
        (p.placeLine line).Repeats name ⟨line.source, span.start + 1⟩) := by
  have hkeeps := (steps_placeNucleus hline hs p).keeps
  have hlocals : (p.awaitLabels line s.labels).unit.locals = p.unit.locals :=
    congrArg Symbols.locals (symbols_awaitLabels p line s.labels)
  have hwaiting : (p.awaitLabels line s.labels).unit.waiting =
      (p.unit.waiting ++ first.map fun l => (l.1, ⟨line.source, l.2.start + 1⟩)) ++
        (name, ⟨line.source, span.start + 1⟩) :: later.map fun l => (l.1, ⟨line.source, l.2.start + 1⟩) := by
    rw [waiting_awaitLabels, hsplit, List.map_append, List.map_cons, List.append_assoc]
  refine ⟨hkeeps.known _ _ (.inl ?_), fun hknown => hkeeps.repeats _ _ (.inl ⟨_, _, hwaiting, ?_⟩)⟩
  · rw [hwaiting]
    exact List.mem_append_right _ List.mem_cons_self
  · rw [hlocals, List.map_append, List.map_map, List.mem_append]
    rcases hknown with hfirst | hwaits | hsome
    · exact .inl (.inr hfirst)
    · exact .inl (.inl hwaits)
    · exact .inr hsome

end Lines

end Placement

namespace Assembly

open Placement

/-- The state at the end of a unit, after its exports. -/
def closed (p : Placement) (u : SourceUnit) : Placement :=
  (u.expandedLines.foldl placeLine (beginUnit p u)).closeUnit

section Unit

variable {p : Placement} {u : SourceUnit}

theorem placeUnit_eq_closed (readable : u.read.1.tokens ≠ none) : (placeUnit p u).1 =
    { closed p u with locals := (closed p u).locals.push (closed p u).unit.locals } := by
  rw [placeUnit_eq, if_neg readable, endUnit_eq]
  rfl

/-- A unit that can be read puts its own table aside. -/
theorem locals_placeUnit (readable : u.read.1.tokens ≠ none) :
    (placeUnit p u).1.locals = p.locals.push (closed p u).unit.locals ∧
      (closed p u).unit.locals.scope = u.file := by
  obtain ⟨hlocals, hscope⟩ := unit_of_moves
    ((moves_placeLines (beginUnit p u) u.expandedLines).trans (PlacesNothing.closeUnit _).moves)
  rw [placeUnit_eq_closed readable]
  exact ⟨congrArg (fun locals : Array SymbolTable => locals.push (closed p u).unit.locals) hlocals, hscope⟩

theorem exported_closed : Exported (closing p u).unit.exports (closing p u) (closed p u) :=
  exported_foldl_exportLabel _ _

theorem steps_closing {above below : List TokenLine} (hlines : u.expandedLines = above ++ below) :
    SymbolSteps u.expandedLines (above.foldl placeLine (beginUnit p u)) (closing p u) := by
  have hbelow : SymbolSteps u.expandedLines (above.foldl placeLine (beginUnit p u))
      (u.expandedLines.foldl placeLine (beginUnit p u)) := by
    rw [hlines, List.foldl_append]
    exact steps_placeLines (List.subset_append_right _ _) _
  exact (hbelow.tail (.enter _)).trans (steps_checkUnused _)

theorem waiting_closing : (closing p u).unit.waiting = [] := by
  have hchecked : (closing p u).unit.waiting = _ := congrArg Symbols.waiting (symbols_checkUnused _)
  exact hchecked.trans (enters_enterLabels _).waiting

/-- What is known of symbols after a line is known at the end of the unit. -/
theorem keeps_closing {above below : List TokenLine} {line : TokenLine}
    (hlines : u.expandedLines = above ++ line :: below) :
    Keeps ((above.foldl placeLine (beginUnit p u)).placeLine line) (closing p u) := by
  have hnext : u.expandedLines = (above ++ [line]) ++ below := by simp [hlines]
  have h := steps_closing (p := p) hnext
  rw [List.foldl_append] at h
  exact h.keeps

/-- The symbols at the end of a unit come from its lines, or all units could see them before. -/
theorem sourced_closing : Sourced u.expandedLines p.globals (closing p u) := by
  have hbegin : Sourced u.expandedLines p.globals (beginUnit p u) := by
    refine ⟨nofun, fun name s hs => ?_, nofun, fun _ _ hs => .inl hs⟩
    rw [show (beginUnit p u).unit.locals.find? name = none from SymbolTable.find?_empty _ _] at hs
    cases hs
  exact hbegin.steps (steps_closing (List.nil_append _).symm)

/-- What the lines above define is known. -/
theorem defines_of_mem {above below : List TokenLine} (hlines : u.expandedLines = above ++ below)
    {l : TokenLine} (hl : l ∈ above) {name : String} (hname : l.Labels name) :
    (above.foldl placeLine (beginUnit p u)).Defines name := by
  have hsubset : above ⊆ u.expandedLines := hlines ▸ List.subset_append_left _ _
  obtain ⟨before, after, rfl⟩ := List.append_of_mem hl
  obtain ⟨s, hs, hname⟩ := hname
  rw [List.foldl_append, List.foldl_cons]
  have hafter : after ⊆ u.expandedLines := fun m hm =>
    hsubset (List.mem_append_right _ (List.mem_cons_of_mem _ hm))
  exact (steps_placeLines hafter _).keeps.defines name (defines_placeLine (hsubset hl) hs hname)

/-- **A label stays.** It has an error, or its name is new, and then it is in the table of the unit or in that
of all units, unless a line of the unit that exports it has an error. -/
theorem label_or_reported {above below : List TokenLine} {line : TokenLine}
    (hlines : u.expandedLines = above ++ line :: below) {s : Statement}
    (hs : Statement.ofTokens line.tokens = .ok s) {first later : List (String × Span)} {name : String}
    {span : Span} (hsplit : s.labels = first ++ (name, span) :: later) :
    Reported (closed p u).diagnostics line.source ∨
      name ∉ first.map (·.1) ∧ (∀ l ∈ above, ¬ l.Labels name) ∧
      ((∃ a, (closed p u).unit.locals.find? name =
          some ⟨a, line.source.file, line.source.number, .internal⟩) ∨
        (∃ a, (closed p u).globals.find? name =
          some ⟨a, line.source.file, line.source.number, .global⟩) ∨
        ∃ l ∈ u.expandedLines, ∃ column first, Site.report ⟨l.source, column⟩
          (.symbol (.duplicateGlobal name first)) ∈ (closed p u).diagnostics) := by
  have hline : line ∈ u.expandedLines := hlines ▸ List.mem_append_right _ List.mem_cons_self
  obtain ⟨hknown, hrepeats⟩ := known_placeLine (p := above.foldl placeLine (beginUnit p u)) hline hs hsplit
  have hkeeps := keeps_closing (p := p) hlines
  have hexports := exported_closed (p := p) (u := u)
  by_cases herror : (closing p u).SymbolErrorAt ⟨line.source, span.start + 1⟩
  · obtain ⟨e, he⟩ := herror
    exact .inl (reported_of_site rfl (hexports.more.diagnostics.subset he))
  refine .inr ?_
  have hnew : ¬ (name ∈ first.map (·.1) ∨ (above.foldl placeLine (beginUnit p u)).Defines name) := by
    intro hthere
    rcases hkeeps.repeats _ _ (hrepeats hthere) with ⟨_, _, hwaiting, -⟩ | h
    · rw [waiting_closing] at hwaiting
      simp at hwaiting
    · exact herror h
  refine ⟨fun h => hnew (.inl h), fun l hl hlabel => hnew (.inr (defines_of_mem hlines hl hlabel)), ?_⟩
  rcases hkeeps.known _ _ hknown with hwaiting | ⟨a, ha⟩ | h
  · rw [waiting_closing] at hwaiting
    cases hwaiting
  · refine (hexports.kept name _ ha).imp (⟨a, ·⟩) (.imp (⟨a, ·⟩) ?_)
    rintro ⟨site, hsite, other, hother⟩
    obtain ⟨declared, hdeclared, rfl⟩ := List.mem_map.mp hsite
    obtain ⟨l, hl, hsource⟩ := sourced_closing.exports declared hdeclared
    exact ⟨l, hl, declared.2.column, other, hsource ▸ hother⟩
  · exact absurd h herror

section Owned

variable (owned : ∀ l ∈ u.expandedLines, l.source.file = u.file)
include owned

/-- What all units see at the end of a unit, they saw before, or it comes from a line of the unit. -/
theorem source_closed {name : String} {g : Symbol} (hg : (closed p u).globals.find? name = some g) :
    p.globals.find? name = some g ∨ g.file = u.file ∧
      ∃ l ∈ u.expandedLines, g.line = l.source.number ∧ (l.Labels name ∨ l.Reserves name) := by
  have hsourced := sourced_closing (p := p) (u := u)
  rcases exported_closed.only name g hg with hg | ⟨s, hs, rfl⟩
  · refine (hsourced.globals name g hg).imp_right ?_
    rintro ⟨l, hl, reserves, hfile, hnumber⟩
    exact ⟨hfile.trans (owned l hl), l, hl, hnumber, .inr reserves⟩
  · obtain ⟨l, hl, labels, hfile, hnumber⟩ := hsourced.locals name s hs
    exact .inr ⟨hfile.trans (owned l hl), l, hl, hnumber, .inl labels⟩

/-- **A declared name is exported.** The declaration has an error, or all units see a symbol of the name, and
it comes from a line of the unit that has it as a label or reserves storage for it. -/
theorem export_or_reported {above below : List TokenLine} {line : TokenLine}
    (hlines : u.expandedLines = above ++ line :: below) {name : String} {column : Nat}
    (declared : (name, ⟨line.source, column⟩) ∈
      ((above.foldl placeLine (beginUnit p u)).placeLine line).unit.exports)
    (foreign : ∀ g, p.globals.find? name = some g → g.file ≠ u.file) :
    Reported (closed p u).diagnostics line.source ∨
      ∃ g, (closed p u).globals.find? name = some g ∧ g.file = u.file ∧
        ∃ l ∈ u.expandedLines, g.line = l.source.number ∧ (l.Labels name ∨ l.Reserves name) := by
  have hline : line ∈ u.expandedLines := hlines ▸ List.mem_append_right _ List.mem_cons_self
  rcases exported_closed.exported name _ ((keeps_closing hlines).exports declared) with
    ⟨e, he⟩ | ⟨g, hg, hfrom⟩
  · exact .inl (reported_of_site rfl he)
  · refine .inr ⟨g, hg, (source_closed owned hg).resolve_left fun hbefore => foreign g hbefore ?_⟩
    rcases hfrom with hfile | ⟨s, hs, rfl⟩
    · exact hfile.trans (owned line hline)
    · obtain ⟨l, hl, -, hfile, -⟩ := sourced_closing.locals name s hs
      exact hfile.trans (owned l hl)

end Owned

end Unit

/-! ## Units -/

/-- A unit takes no symbol away from all units. -/
theorem globals_placeUnit (p : Placement) (u : SourceUnit) {name : String} {g : Symbol}
    (hg : p.globals.find? name = some g) : (placeUnit p u).1.globals.find? name = some g := by
  by_cases readable : u.read.1.tokens = none
  · rw [placeUnit_eq, if_pos readable]
    exact hg
  · have hkeeps := (steps_closing (p := p) (u := u) (List.nil_append _).symm).keeps
    rw [placeUnit_eq_closed readable]
    exact exported_closed.globals name g (hkeeps.globals name g hg)

theorem globals_placeUnits (p : Placement) (units : List SourceUnit) {name : String} {g : Symbol}
    (hg : p.globals.find? name = some g) : (placeUnits p units).1.globals.find? name = some g := by
  induction units generalizing p with
  | nil => exact hg
  | cons u rest ih => exact ih _ (globals_placeUnit p u hg)

/-- Units only add symbols from their own files. -/
theorem file_of_globals_placeUnits {p : Placement} {units : List SourceUnit}
    (owned : ∀ u ∈ units, u.Owned) {name : String} {g : Symbol}
    (hg : (placeUnits p units).1.globals.find? name = some g) :
    p.globals.find? name = some g ∨ g.file ∈ units.map (·.file) := by
  induction units generalizing p with
  | nil => exact .inl hg
  | cons u rest ih =>
      obtain ⟨hu, hrest⟩ := List.forall_mem_cons.mp owned
      replace hg : (placeUnits (placeUnit p u).1 rest).1.globals.find? name = some g := hg
      rcases ih hrest hg with hg | hfile
      · by_cases readable : u.read.1.tokens = none
        · rw [placeUnit_eq, if_pos readable] at hg
          exact .inl hg
        · rw [placeUnit_eq_closed readable] at hg
          have hlines : ∀ l ∈ u.expandedLines, l.source.file = u.file := fun l hl =>
            SourceUnit.file_of_mem_expandedLines hu hl
          refine (source_closed hlines hg).imp_right fun ⟨hfile, _⟩ => ?_
          rw [hfile]
          exact List.mem_cons_self
      · exact .inr (List.mem_cons_of_mem _ hfile)

/-- **All units see nothing but symbols from the files of the units.** -/
theorem file_of_globals {options : AssemblyOptions} {units : List SourceUnit}
    (owned : ∀ u ∈ units, u.Owned) {name : String} {s : Symbol}
    (hs : (firstPass options units).globals.find? name = some s) : s.file ∈ units.map (·.file) := by
  refine (file_of_globals_placeUnits owned hs).resolve_left fun hs => ?_
  have hnone : (Placement.initial options.extended options.layout).globals.find? name = none :=
    SymbolTable.find?_empty _ _
  rw [hnone] at hs
  cases hs

end Assembly

end MipsLab
