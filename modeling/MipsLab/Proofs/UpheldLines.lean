import MipsLab.Proofs.Acceptance
import MipsLab.Proofs.DataImage
import MipsLab.Proofs.KeptSymbols

set_option autoImplicit false

/-!
# Lines are upheld or reported

Whatever else is wrong with a program, a line of a unit that can be read has an error, or all that the line
asks for is in the result of the two passes (`Assembly.upheld_or_reported`). This is about the program that
the passes result in, whether it is assembled or refused.
-/

namespace MipsLab

theorem nodup_map_of_split {α β : Type} {f : α → β} {l : List α}
    (h : ∀ first x later, l = first ++ x :: later → f x ∉ first.map f) : (l.map f).Nodup := by
  rw [List.Nodup, List.pairwise_map, List.pairwise_iff_getElem]
  intro i j hi hj hij heq
  have hsplit : l = l.take j ++ l[j] :: l.drop (j + 1) := by
    rw [← List.drop_eq_getElem_cons hj, List.take_append_drop]
  exact h _ _ _ hsplit (List.mem_map.mpr ⟨l[i], List.mem_take_iff_getElem.mpr ⟨i, by omega, rfl⟩, heq⟩)

/-! ## The second pass -/

namespace Placement

section Finish

variable {p : Placement} (layout : MemoryLayout)

theorem diagnostics_finish : p.diagnostics ⊆ (p.finish layout).warnings := fun _ h =>
  List.mem_append_left _ (List.mem_append_left _ (List.mem_append_left _ h))

/-- An instruction that was placed is in the code, or its line has an error. -/
theorem resolved_or_reported {i : PlacedInstr} (hi : i ∈ p.instrs.toList) :
    Reported (p.finish layout).warnings i.line.source ∨
      ∃ j, i.instr.resolve ((p.finish layout).lookup i.unit) i.address = .ok j ∧
        ⟨i.line, i.address, j⟩ ∈ (p.finish layout).code := by
  rw [lookup_finish]
  cases hresolve : i.instr.resolve (p.lookup i.unit) i.address with
  | ok j =>
      refine .inr ⟨j, rfl, List.mem_mergeSort.mpr (mem_successes.mpr (List.mem_map.mpr ⟨i, hi, ?_⟩))⟩
      rw [resolveInstr, hresolve]
  | error c =>
      have hfailed : Site.report ⟨i.line.source, i.column⟩ c ∈
          failures (p.instrs.toList.map p.resolveInstr) := by
        refine mem_failures.mpr (List.mem_map.mpr ⟨i, hi, ?_⟩)
        rw [resolveInstr, hresolve]
      exact .inl (reported_of_site (SymbolicInstr.resolve_eq_error_iff.mp hresolve).isWarning
        (List.mem_append_left _ (List.mem_append_left _ (List.mem_append_right _ hfailed))))

/-- A label in a word of data is defined, or its line has an error. -/
theorem defined_or_reported {w : LabelWord} (hw : w ∈ p.labelWords.toList) :
    Reported (p.finish layout).warnings w.site.source ∨
      ∃ a, SymbolicInstr.addressOf ((p.finish layout).lookup w.unit) w.label = .ok a := by
  rw [lookup_finish]
  cases ha : SymbolicInstr.addressOf (p.lookup w.unit) w.label with
  | ok a => exact .inr ⟨a, rfl⟩
  | error c =>
      obtain ⟨-, rfl⟩ := SymbolicInstr.addressOf_eq_error_iff.mp ha
      have hfailed : w.site.report _ ∈ (p.fillLabelWords p.labelWords.toList p.data).2 :=
        mem_fillLabelWords_of_error hw ha
      exact .inl (reported_of_site rfl (List.mem_append_left _ (List.mem_append_right _ hfailed)))

end Finish

/-- Of two words of code at one address, the later one has an error. -/
theorem report_mem_codeConflicts {code : List CodeWord}
    (ascending : code.Pairwise fun a b => a.address ≤ b.address) {c d : CodeWord}
    (hcd : [c, d].Sublist code) (same : c.address = d.address) :
    Site.report ⟨d.line.source, d.line.column⟩ (.encoding (.addressConflict d.address)) ∈
      codeConflicts code := by
  induction code generalizing c with
  | nil => cases hcd
  | cons a rest ih =>
      obtain ⟨hfirst, hrest⟩ := List.pairwise_cons.mp ascending
      have hlater : codeConflicts rest ⊆ codeConflicts (a :: rest) := by
        cases rest with
        | nil => exact List.Subset.refl _
        | cons b rest =>
            rw [codeConflicts]
            split
            · exact List.subset_cons_self _ _
            · exact List.Subset.refl _
      rcases List.sublist_cons_iff.mp hcd with hcd | ⟨_, heq, hd⟩
      · exact hlater (ih hrest hcd same)
      · obtain ⟨rfl, rfl⟩ := List.cons.inj heq
        replace hd := List.singleton_sublist.mp hd
        cases rest with
        | nil => cases hd
        | cons b rest =>
            rcases List.mem_cons.mp hd with rfl | hd
            · rw [codeConflicts, if_pos same]
              exact List.mem_cons_self
            -- what stands between the two has their address as well
            · have hle : c.address ≤ b.address := hfirst b List.mem_cons_self
              have hge : b.address ≤ d.address := (List.pairwise_cons.mp hrest).1 d hd
              have hbetween : b.address = d.address := BitVec.le_antisymm hge (same ▸ hle)
              exact hlater (ih hrest ((List.singleton_sublist.mpr hd).cons_cons b) hbetween)

theorem conflict_reported (p : Placement) (layout : MemoryLayout) {c d : CodeWord}
    (hcd : [c, d].Sublist (p.finish layout).code) (same : c.address = d.address) :
    Reported (p.finish layout).warnings d.line.source :=
  reported_of_site rfl (List.mem_append_right _
    (report_mem_codeConflicts (pairwise_sortCode _) hcd same))

end Placement

/-! ## What a line asks for -/

namespace AssembledProgram

/-- The data of a program holds some bytes from an address on. -/
def HasBytes (p : AssembledProgram) (x : Word) (bs : List Byte) : Prop :=
  ∀ k < bs.length, ∃ d ∈ p.data, d.byteAt? (x + BitVec.ofNat 32 k) = bs[k]?

/-- A program has a part that a line of the unit with the given index places at a position. An instruction
is resolved and in the code, and labels in words of data are defined. Data holds its bytes if there are no
errors; otherwise something else may have been put there. -/
def HasPart (p : AssembledProgram) (unit : Nat) (line : TokenLine) (x : Nat) : Part → Prop
  | .word i => ∃ j, i.resolve (p.lookup unit) (addressAt x) = .ok j ∧ ⟨line, addressAt x, j⟩ ∈ p.code
  | .bytes bs => p.warnings.hasErrors = false → p.HasBytes (addressAt x) bs
  | .address l => ∃ a, SymbolicInstr.addressOf (p.lookup unit) l = .ok a ∧
      (p.warnings.hasErrors = false → p.HasBytes (addressAt x) (Word.bytes a))
  | .gap _ => True

/-- A label of a line is in a table, with the file and number of the line. -/
def HasLabel (p : AssembledProgram) (locals : SymbolTable) (line : TokenLine) (name : String) : Prop :=
  (∃ a, locals.find? name = some ⟨a, line.source.file, line.source.number, .internal⟩) ∨
    ∃ a, p.globals.find? name = some ⟨a, line.source.file, line.source.number, .global⟩

/-- A unit as the first pass goes through it: its index and its table, its lines after expansion, and the
lines before some line, with the state that they lead to. -/
structure Context where
  unit : Nat
  locals : SymbolTable
  lines : List TokenLine
  above : List TokenLine
  state : Placement

/-- All that a line asks for is in a program. -/
structure Upholds (p : AssembledProgram) (x : Context) (line : TokenLine) (s : Statement) : Prop where
  /-- The line is well formed, and stands in a segment where it may stand. -/
  acceptable : Nucleus.Acceptable x.state.extended x.state.unit.segment s.nucleus
  /-- Its labels are new. -/
  fresh : (s.labels.map (·.1)).Nodup ∧ ∀ name ∈ s.labels.map (·.1), ∀ l ∈ x.above, ¬ l.Labels name
  /-- They are in a table, unless a line that exports them has an error. -/
  labels : ∀ name ∈ s.labels.map (·.1), p.HasLabel x.locals line name ∨
    ∃ l ∈ x.lines, ∃ column first,
      Site.report ⟨l.source, column⟩ (.symbol (.duplicateGlobal name first)) ∈ p.warnings
  /-- What it places finds free addresses below the end of memory, and is there. -/
  parts : ∀ a ∈ (Role.ofNucleus x.state.extended s.nucleus).located x.state.here.toNat,
    Placement.Fits x.state.data a.1 a.2 ∧ p.HasPart x.unit line a.1 a.2
  /-- A name that it reserves storage for is new, and all units see it. -/
  reserved : ∀ name, (Role.ofNucleus x.state.extended s.nucleus).reserved? = some name →
    x.state.globals.find? name = none ∧
      ∃ a, p.globals.find? name = some ⟨a, line.source.file, line.source.number, .global⟩
  /-- All units see a name that it declares to be exported, as a label of the unit or as storage that the
  unit reserves. -/
  exported : ∀ name ∈ (Role.ofNucleus x.state.extended s.nucleus).exported,
    ∃ g, p.globals.find? name = some g ∧ g.file = line.source.file ∧
      ∃ l ∈ x.lines, g.line = l.source.number ∧ (l.Labels name ∨ l.Reserves name)

end AssembledProgram

namespace Placement

/-! ## What a line leaves -/

section Carried

variable {line : TokenLine} {column : Nat} {p q : Placement} {role : Role}
  (done : CarriedOut line column p role q)
include done

theorem CarriedOut.mem_exports {name : String} (hname : name ∈ role.exported) :
    (name, ⟨line.source, column⟩) ∈ q.unit.exports := by
  cases done with
  | exports names => exact List.mem_append_right _ (List.mem_map_of_mem hname)
  | item | select | reserve | nothing | ignored => cases hname

/-- A line that reserves storage adds its name, which is new. -/
theorem CarriedOut.reserves {name : String} (hname : role.reserved? = some name) :
    p.globals.find? name = none ∧
      ∃ a, q.globals.find? name = some ⟨a, line.source.file, line.source.number, .global⟩ := by
  cases done with
  | reserve added =>
      obtain rfl := Option.some.inj hname
      have hadds := SymbolTable.adds_of_addGlobal added
      exact ⟨hadds.new, _, hadds.added⟩
  | item | select | exports | nothing | ignored => cases hname

end Carried

section Line

variable {p : Placement} {line : TokenLine} {s : Statement} (hs : Statement.ofTokens line.tokens = .ok s)
  (spares : (p.placeLine line).Spares ⟨line.source, s.span.start + 1⟩)
include hs spares

theorem acceptable_placeLine : Nucleus.Acceptable p.extended p.unit.segment s.nucleus := by
  have hextended := (PlacesNothing.awaitLabels p line s.labels).extended
  have hsegment := (p.at_cursor.awaitLabels line s.labels).segment
  rw [placeLine_eq_placeNucleus hs] at spares
  have h := acceptable_of_spares spares
  rwa [hextended, hsegment] at h

/-- A line that leaves no error puts its parts from the address reached on. -/
theorem trace_placeLine : Trace p (((Role.ofNucleus p.extended s.nucleus).located p.here.toNat).map
    (.of p.locals.size line (s.span.start + 1))) (p.placeLine line) := by
  have hwaiting := PlacesNothing.awaitLabels p line s.labels
  have htrace := ((carriedOut_placeLine hs spares).trace (p.at_cursor.awaitLabels line s.labels) spares).2
  rw [hwaiting.locals] at htrace
  exact hwaiting.trace.append htrace

end Line

/-- A line leaves an error, or none at the place of what it does. -/
theorem reported_or_spares (p : Placement) (site : Site) :
    Reported p.diagnostics site.source ∨ p.Spares site := by
  by_cases spares : p.Spares site
  · exact .inr spares
  · unfold Spares at spares
    push Not at spares
    obtain ⟨c, hc, hmem⟩ := spares
    exact .inl (reported_of_site hc hmem)

end Placement

namespace Assembly

open Placement

/-- What the two passes make of some units, before the program is assembled or refused. Its list of warnings
has all diagnostics. -/
def draft (options : AssemblyOptions) (units : List SourceUnit) : AssembledProgram :=
  (firstPass options units).finish options.layout

/-- Without errors, the draft is assembled if warnings are allowed. -/
theorem ok_of_draft {options : AssemblyOptions} {units : List SourceUnit}
    (without : (draft options units).warnings.hasErrors = false) :
    (assemble { options with strict := false } units).1 = .ok (draft options units) := by
  have hrefuses : AssemblyOptions.refuses { options with strict := false } (draft options units).warnings =
      false := by
    rw [AssemblyOptions.refuses, without]
    rfl
  show (if AssemblyOptions.refuses { options with strict := false } (draft options units).warnings then _
    else _ : Except Diagnostics AssembledProgram × List SourceUnit).1 = _
  rw [hrefuses]
  rfl

section Parts

variable {options : AssemblyOptions} {units : List SourceUnit} {parts : List PlacedPart}

/-- The bytes of a part are in a program that is assembled. -/
theorem hasBytes_of_mem {p : AssembledProgram} (ok : (assemble options units).1 = .ok p)
    (trace : Trace (.initial options.extended options.layout) parts (firstPass options units))
    {a : PlacedPart} (ha : a ∈ parts) {bs : List Byte} (hbytes : a.part = .bytes bs) :
    p.HasBytes (addressAt a.position) bs := by
  have clean := clean_firstPass ok
  have hpass : Pass _ (firstPass options units) := pass_placeUnits _ units
  obtain ⟨hlookup, hdefined⟩ := lookup_of_ok ok
  obtain ⟨image, labelWords⟩ := trace.written clean
  have hreserved := (reserved_initial options.extended options.layout).pass hpass clean
  have hbounded := ((sound_initial options.extended options.layout).pass hpass).bounded
  intro k hk
  -- the image has every byte of every part, and the blocks have every byte of the image
  have hspread : ((addressAt a.position).toNat + k, bs[k]) ∈ a.final p := by
    obtain ⟨b, hb⟩ := mem_spread (addressAt a.position).toNat ((addressAt a.position).toNat + k) bs
      ⟨Nat.le_add_right _ _, Nat.add_lt_add_left hk _⟩
    have hbyte := (getElem?_of_mem_spread hb).2
    rw [Nat.add_sub_cancel_left, List.getElem?_eq_getElem hk] at hbyte
    rw [PlacedPart.final, hbytes, Option.some.inj hbyte]
    exact hb
  have hbyte := getElem?_of_mem_final hreserved labelWords hlookup hdefined image ha hspread
  obtain ⟨d, hd, hholds⟩ := exists_block_of_getElem? (fun _ => contains_fillLabelWords hbounded) hbyte
  rw [BitVec.ofNat_add, BitVec.ofNat_toNat, BitVec.setWidth_eq] at hholds
  obtain ⟨rfl, -⟩ := eq_finish_of_ok ok
  exact ⟨d, hd, hholds.trans (List.getElem?_eq_getElem hk).symm⟩

/-- **What is put is in the program, or its line has an error.** -/
theorem hasPart_or_reported
    (trace : Trace (.initial options.extended options.layout) parts (firstPass options units))
    {a : PlacedPart} (ha : a ∈ parts) :
    Reported (draft options units).warnings a.line.source ∨
      (draft options units).HasPart a.unit a.line a.position a.part := by
  have recorded := trace.records ha
  obtain ⟨unit, line, column, position, part⟩ := a
  cases part with
  | word i => exact resolved_or_reported options.layout recorded
  | bytes bs => exact .inr fun without => hasBytes_of_mem (ok_of_draft without) trace ha rfl
  | address l =>
      refine (defined_or_reported options.layout recorded).imp_right fun ⟨b, hb⟩ => ⟨b, hb, fun without => ?_⟩
      obtain ⟨c, hc, holds⟩ := holdsWord_of_mem_labelWords (ok_of_draft without) recorded
      rw [lookup_finish] at hb
      obtain rfl := Except.ok.inj (hb.symm.trans hc)
      exact holds
  | gap n => exact .inr trivial

end Parts

section Line

variable (options : AssemblyOptions) (before after : List SourceUnit) {u : SourceUnit}
  (readable : u.read.1.tokens ≠ none)
include readable

/-- What stands at the end of a unit stands in the draft. -/
theorem draft_of_closed :
    (closed (firstPass options before) u).diagnostics ⊆ (draft options (before ++ u :: after)).warnings ∧
    (draft options (before ++ u :: after)).locals[(firstPass options before).locals.size]? =
      some (closed (firstPass options before) u).unit.locals ∧
    ∀ name g, (closed (firstPass options before) u).globals.find? name = some g →
      (draft options (before ++ u :: after)).globals.find? name = some g := by
  have hunit := placeUnit_eq_closed (p := firstPass options before) readable
  have hlocals := (locals_placeUnit (p := firstPass options before) readable).1
  have hextends := (pass_placeUnits (placeUnit (firstPass options before) u).1 after).extends
  rw [← firstPass_append_cons] at hextends
  refine ⟨fun d hd => diagnostics_finish _ (hextends.diagnostics.subset ?_), ?_, fun name g hg => ?_⟩
  · rw [hunit]
    exact hd
  · obtain ⟨rest, hrest⟩ := hextends.locals
    show (firstPass options (before ++ u :: after)).locals.toList[_]? = _
    rw [← hrest, hlocals]
    simp
  · show (firstPass options (before ++ u :: after)).globals.find? name = _
    rw [firstPass_append_cons]
    refine globals_placeUnits _ after ?_
    rw [hunit]
    exact hg

omit readable in
theorem pass_initial_reached (u : SourceUnit) (above : List TokenLine) :
    Pass (.initial options.extended options.layout) (reached options before u above) :=
  ((pass_placeUnits _ before).trans (pass_beginUnit _ u)).trans (pass_of_moves (moves_placeLines _ above))

/-- What is placed where a line stands stays to the end of the pass. -/
theorem pass_placeLine_of_readable {above below : List TokenLine} {line : TokenLine}
    (hlines : u.expandedLines = above ++ line :: below) :
    Pass ((reached options before u above).placeLine line) (firstPass options (before ++ u :: after)) := by
  rw [firstPass_append_cons, placeUnit_eq, if_neg readable, hlines, List.foldl_append]
  exact ((pass_of_moves (moves_placeLines _ below)).trans (pass_endUnit _)).trans (pass_placeUnits _ after)

/-- The pass as it comes to a line of the unit. -/
def context (options : AssemblyOptions) (before : List SourceUnit) (u : SourceUnit) (above : List TokenLine) :
    AssembledProgram.Context where
  unit := (firstPass options before).locals.size
  locals := (closed (firstPass options before) u).unit.locals
  lines := u.expandedLines
  above := above
  state := reached options before u above

section Unreported

variable {above below : List TokenLine} {line : TokenLine} {s : Statement}
  (hlines : u.expandedLines = above ++ line :: below)
include hlines

/-- An error of a line is among the diagnostics of the draft. -/
theorem diagnostics_placeLine_subset : ((reached options before u above).placeLine line).diagnostics ⊆
    (draft options (before ++ u :: after)).warnings :=
  fun _ h => diagnostics_finish _
    ((pass_placeLine_of_readable options before after readable hlines).extends.diagnostics.subset h)

variable (hs : Statement.ofTokens line.tokens = .ok s)
  (unreported : ¬ Reported (draft options (before ++ u :: after)).warnings line.source)
include unreported

theorem spares_placeLine_of_unreported :
    ((reached options before u above).placeLine line).Spares ⟨line.source, s.span.start + 1⟩ :=
  (reported_or_spares _ _).resolve_left fun h =>
    unreported (h.mono (diagnostics_placeLine_subset options before after readable hlines))

include hs

/-- The labels of a line without errors are new, and they are in a table, if they are not exported in vain. -/
theorem hasLabels_of_unreported :
    ((s.labels.map (·.1)).Nodup ∧ ∀ name ∈ s.labels.map (·.1), ∀ l ∈ above, ¬ l.Labels name) ∧
    ∀ name ∈ s.labels.map (·.1),
      (draft options (before ++ u :: after)).HasLabel (closed (firstPass options before) u).unit.locals
        line name ∨
      ∃ l ∈ u.expandedLines, ∃ column first, Site.report ⟨l.source, column⟩
        (.symbol (.duplicateGlobal name first)) ∈ (draft options (before ++ u :: after)).warnings := by
  obtain ⟨hdiagnostics, -, hglobals⟩ := draft_of_closed options before after readable
  have hlabel : ∀ (first : List (String × Span)) (label : String × Span) (later : List (String × Span)),
      s.labels = first ++ label :: later → _ := fun _ _ _ hsplit =>
    (label_or_reported hlines hs hsplit).resolve_left fun h => unreported (h.mono hdiagnostics)
  have hsplits : ∀ name ∈ s.labels.map (·.1),
      ∃ first span later, s.labels = first ++ (name, span) :: later := by
    intro name hname
    obtain ⟨⟨_, span⟩, hmem, rfl⟩ := List.mem_map.mp hname
    obtain ⟨first, later, hsplit⟩ := List.append_of_mem hmem
    exact ⟨first, span, later, hsplit⟩
  refine ⟨⟨nodup_map_of_split fun first label later hsplit => (hlabel first label later hsplit).1, ?_⟩, ?_⟩
  · intro name hname
    obtain ⟨first, span, later, hsplit⟩ := hsplits name hname
    exact (hlabel first (name, span) later hsplit).2.1
  · intro name hname
    obtain ⟨first, span, later, hsplit⟩ := hsplits name hname
    obtain ⟨-, -, hplace⟩ := hlabel first (name, span) later hsplit
    rcases hplace with hlocal | ⟨a, hglobal⟩ | ⟨l, hl, column, other, herror⟩
    · exact .inl (.inl hlocal)
    · exact .inl (.inr ⟨a, hglobals _ _ hglobal⟩)
    · exact .inr ⟨l, hl, column, other, hdiagnostics herror⟩

/-- What a line without errors places fits, and is in the draft. -/
theorem hasParts_of_unreported {a : Nat × Part}
    (ha : a ∈ (Role.ofNucleus (reached options before u above).extended s.nucleus).located
      (reached options before u above).here.toNat) :
    Fits (reached options before u above).data a.1 a.2 ∧
      (draft options (before ++ u :: after)).HasPart (firstPass options before).locals.size line a.1 a.2 := by
  have spares := spares_placeLine_of_unreported options before after readable hlines unreported (s := s)
  have htrace := trace_placeLine hs spares
  have hpart := List.mem_map_of_mem (f := PlacedPart.of (reached options before u above).locals.size line
    (s.span.start + 1)) ha
  obtain ⟨first, hfirst⟩ := (pass_initial_reached options before u above).exists_trace
  obtain ⟨last, hlast⟩ := (pass_placeLine_of_readable options before after readable hlines).exists_trace
  have hunit : (reached options before u above).locals.size = (firstPass options before).locals.size :=
    congrArg Array.size (unit_of_moves (moves_placeLines _ above)).1
  rw [← hunit]
  exact ⟨htrace.fits hpart spares, (hasPart_or_reported ((hfirst.append htrace).append hlast)
    (List.mem_append_left _ (List.mem_append_right _ hpart))).resolve_left unreported⟩

/-- A name that a line without errors reserves storage for is new, and all units see it. -/
theorem reserves_of_unreported {name : String}
    (hname : (Role.ofNucleus (reached options before u above).extended s.nucleus).reserved? = some name) :
    (reached options before u above).globals.find? name = none ∧
      ∃ a, (draft options (before ++ u :: after)).globals.find? name =
        some ⟨a, line.source.file, line.source.number, .global⟩ := by
  have spares := spares_placeLine_of_unreported options before after readable hlines unreported (s := s)
  obtain ⟨-, -, hglobals⟩ := draft_of_closed options before after readable
  have hawaited : ((reached options before u above).awaitLabels line s.labels).globals =
      (reached options before u above).globals := congrArg Symbols.globals (symbols_awaitLabels _ _ _)
  obtain ⟨hnew, a, ha⟩ := (carriedOut_placeLine hs spares).reserves hname
  exact ⟨hawaited ▸ hnew, a,
    hglobals _ _ (exported_closed.globals _ _ ((keeps_closing hlines).globals _ _ ha))⟩

/-- A name that a line without errors declares to be exported is seen by all units. -/
theorem exports_of_unreported (owned : ∀ v ∈ before ++ [u], v.Owned)
    (distinct : u.file ∉ before.map (·.file)) {name : String}
    (hname : name ∈ (Role.ofNucleus (reached options before u above).extended s.nucleus).exported) :
    ∃ g, (draft options (before ++ u :: after)).globals.find? name = some g ∧ g.file = line.source.file ∧
      ∃ l ∈ u.expandedLines, g.line = l.source.number ∧ (l.Labels name ∨ l.Reserves name) := by
  have spares := spares_placeLine_of_unreported options before after readable hlines unreported (s := s)
  obtain ⟨hdiagnostics, -, hglobals⟩ := draft_of_closed options before after readable
  have hu : ∀ l ∈ u.expandedLines, l.source.file = u.file := fun l hl =>
    SourceUnit.file_of_mem_expandedLines (owned u (by simp)) hl
  have hforeign : ∀ {name} g, (firstPass options before).globals.find? name = some g → g.file ≠ u.file := by
    intro name g hg hfile
    exact distinct (hfile ▸ file_of_globals (fun v hv => owned v (List.mem_append_left _ hv)) hg)
  obtain ⟨g, hg, hfile, hsource⟩ := (export_or_reported hu hlines
    ((carriedOut_placeLine hs spares).mem_exports hname) hforeign).resolve_left
      fun h => unreported (h.mono hdiagnostics)
  have hline : line ∈ u.expandedLines := hlines ▸ List.mem_append_right _ List.mem_cons_self
  exact ⟨g, hglobals _ _ hg, hfile.trans (hu line hline).symm, hsource⟩

end Unreported

/-- **A line has an error, or all that it asks for is in the draft.** -/
theorem upheld_or_reported (owned : ∀ v ∈ before ++ [u], v.Owned)
    (distinct : u.file ∉ before.map (·.file)) {above below : List TokenLine} {line : TokenLine}
    (hlines : u.expandedLines = above ++ line :: below) :
    Reported (draft options (before ++ u :: after)).warnings line.source ∨
      ∃ s, Statement.ofTokens line.tokens = .ok s ∧
        (draft options (before ++ u :: after)).Upholds (context options before u above) line s := by
  by_cases unreported : Reported (draft options (before ++ u :: after)).warnings line.source
  · exact .inl unreported
  cases hs : Statement.ofTokens line.tokens with
  | error e =>
      refine absurd (Reported.mono (diagnostics_placeLine_subset options before after readable hlines) ?_)
        unreported
      unfold placeLine
      rw [hs]
      exact reported_of_site rfl (List.mem_append_right _ List.mem_cons_self)
  | ok s =>
      obtain ⟨fresh, labels⟩ := hasLabels_of_unreported options before after readable hlines hs unreported
      exact .inr ⟨s, rfl, {
        acceptable := acceptable_placeLine hs
          (spares_placeLine_of_unreported options before after readable hlines unreported)
        fresh := fresh
        labels := labels
        parts := fun _ => hasParts_of_unreported options before after readable hlines hs unreported
        reserved := fun _ => reserves_of_unreported options before after readable hlines hs unreported
        exported := fun _ =>
          exports_of_unreported options before after readable hlines hs unreported owned distinct }⟩

end Line

end Assembly

end MipsLab
