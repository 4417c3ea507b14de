import MipsLab.Proofs.Sessions
import MipsLab.Proofs.Sites
import MipsLab.Proofs.TokenSpans

set_option autoImplicit false

/-!
# Diagnostics point into the source

Reading reports places of tokens, the expansion of macros reports first tokens of lines that have some, and
both passes report places of tokens of the lines that are placed. All these tokens stand on lines of the units,
and so every diagnostic is about a part of the source (`Assembly.diagnostics_in_source`).
-/

namespace MipsLab

namespace Placement

/-! ## The second pass -/

section SecondPass

variable {S : Site → Prop} {p : Placement}

theorem at_of_mem_fillLabelWords {words : List LabelWord} (h : ∀ w ∈ words, S w.site) (data : DataImage) :
    ∀ d ∈ (p.fillLabelWords words data).2, d.At S := by
  induction words generalizing data with
  | nil => exact nofun
  | cons w words ih =>
      obtain ⟨hw, hwords⟩ := List.forall_mem_cons.mp h
      unfold fillLabelWords
      split
      · exact ih hwords _
      case h_2 d hd =>
        refine List.forall_mem_cons.mpr ⟨?_, ih hwords data⟩
        unfold fillLabelWord at hd
        split at hd <;> cases hd
        exact ⟨w.site, _, hw, rfl⟩

theorem at_of_mem_codeConflicts {code : List CodeWord} (h : ∀ c ∈ code, S ⟨c.line.source, c.line.column⟩) :
    ∀ d ∈ codeConflicts code, d.At S := by
  induction code with
  | nil => exact nofun
  | cons a rest ih =>
      cases rest with
      | nil => exact nofun
      | cons b rest =>
          have hrest := (List.forall_mem_cons.mp h).2
          unfold codeConflicts
          dsimp only
          split
          · exact List.forall_mem_cons.mpr ⟨⟨_, _, (List.forall_mem_cons.mp hrest).1, rfl⟩, ih hrest⟩
          · exact ih hrest

/-- What becomes of a placed instruction is at its line, or its error is. -/
theorem resolveInstr_cases (i : PlacedInstr) :
    (∃ j, p.resolveInstr i = .ok ⟨i.line, i.address, j⟩) ∨
      ∃ cause, p.resolveInstr i = .error (Site.report ⟨i.line.source, i.column⟩ cause) := by
  unfold resolveInstr
  split
  · exact .inl ⟨_, rfl⟩
  · exact .inr ⟨_, rfl⟩

/-- **The second pass reports places that were kept in the first one.** -/
theorem Sited.at_of_mem_warnings (h : p.Sited S) (layout : MemoryLayout) :
    ∀ d ∈ (p.finish layout).warnings, d.At S := by
  have hresolved : ∀ i ∈ p.instrs.toList, S ⟨i.line.source, i.column⟩ ∧ S ⟨i.line.source, i.line.column⟩ :=
    fun i hi => h.instrs i (Array.mem_toList_iff.mp hi)
  -- after the diagnostics of the first pass come those of instructions, label words and conflicts
  intro d hd
  rcases List.mem_append.mp hd with hd | hd
  · rcases List.mem_append.mp hd with hd | hd
    · rcases List.mem_append.mp hd with hd | hd
      · exact h.diagnostics d hd
      · obtain ⟨i, hi, heq⟩ := List.mem_map.mp (mem_failures.mp hd)
        rcases resolveInstr_cases i with ⟨j, hj⟩ | ⟨cause, herror⟩
        · cases heq.symm.trans hj
        · cases heq.symm.trans herror
          exact ⟨_, cause, (hresolved i hi).1, rfl⟩
    · exact at_of_mem_fillLabelWords (fun w hw => h.labelWords w (Array.mem_toList_iff.mp hw)) _ d hd
  · refine at_of_mem_codeConflicts (fun c hc => ?_) d hd
    obtain ⟨i, hi, heq⟩ := List.mem_map.mp (mem_successes.mp (List.mem_mergeSort.mp hc))
    rcases resolveInstr_cases i with ⟨j, hj⟩ | ⟨cause, herror⟩
    · cases heq.symm.trans hj
      exact (hresolved i hi).2
    · cases heq.symm.trans herror

end SecondPass

end Placement

/-! ## Macros -/

namespace MacroPool

/-- A line that fails to expand has tokens. -/
theorem ne_nil_of_expand_error {pool pool' : MacroPool} {line : TokenLine} {e : MacroError}
    (h : pool.expand line = (.error e, pool')) : line.tokens ≠ [] := by
  intro hnil
  unfold expand expandWithin at h
  rw [hnil] at h
  cases h

/-- **The expansion of a unit reports lines with tokens.** -/
theorem exists_of_mem_diagnostics {P : TokenLine → Prop} (pool : MacroPool) (current : Option Definition)
    (lines : List TokenLine) (hcurrent : ∀ d ∈ current, P d.header)
    (hlines : ∀ l ∈ lines, l.tokens ≠ [] → P l) :
    ∀ d ∈ (expandFrom pool current lines).diagnostics, ∃ line e, P line ∧ d = report e line := by
  have hnone : ∀ d ∈ (none : Option Definition), P d.header := fun _ hd => absurd hd (Option.not_mem_none _)
  have hnonempty {line : TokenLine} {first : LocatedToken} {rest : List LocatedToken}
      (h : line.tokens = first :: rest) : line.tokens ≠ [] := h ▸ List.cons_ne_nil _ _
  -- a report is about the line at hand or about the header of the definition that is open
  fun_induction expandFrom pool current lines with
  | case1 pool current =>
      cases current with
      | none => exact List.forall_mem_nil _
      | some d => exact List.forall_mem_singleton.mpr ⟨d.header, _, hcurrent d rfl, rfl⟩
  | case2 pool line rest _ _ d starts ih =>
      obtain ⟨hline, hrest⟩ := List.forall_mem_cons.mp hlines
      exact List.forall_mem_cons.mpr ⟨⟨line, _, hline (hnonempty starts), rfl⟩, ih hcurrent hrest⟩
  | case3 pool line rest _ _ starts d formed ih =>
      obtain ⟨hline, hrest⟩ := List.forall_mem_cons.mp hlines
      refine ih (fun c hc => ?_) hrest
      rw [← Option.mem_some.mp hc, (of_ofHeader? formed).1]
      exact hline (hnonempty starts)
  | case4 pool line rest _ _ starts _ ih | case5 pool line rest _ _ starts ih =>
      obtain ⟨hline, hrest⟩ := List.forall_mem_cons.mp hlines
      exact List.forall_mem_cons.mpr ⟨⟨line, _, hline (hnonempty starts), rfl⟩, ih hnone hrest⟩
  | case6 _ _ _ _ _ _ _ _ _ ih => exact ih hnone (List.forall_mem_cons.mp hlines).2
  | case7 pool line rest _ _ d starts e closed ih =>
      exact List.forall_mem_cons.mpr
        ⟨⟨d.header, _, hcurrent d rfl, rfl⟩, ih hnone (List.forall_mem_cons.mp hlines).2⟩
  | case8 pool line rest d _ _ ih =>
      refine ih (fun c hc => ?_) (List.forall_mem_cons.mp hlines).2
      rw [← Option.mem_some.mp hc]
      exact hcurrent d rfl
  | case9 _ _ _ _ _ _ _ _ ih | case10 _ _ _ _ _ _ _ ih =>
      exact ih hnone (List.forall_mem_cons.mp hlines).2
  | case11 pool line rest e pool' expands _ _ ih =>
      obtain ⟨hline, hrest⟩ := List.forall_mem_cons.mp hlines
      exact List.forall_mem_cons.mpr
        ⟨⟨line, _, hline (ne_nil_of_expand_error expands), rfl⟩, ih hnone hrest⟩

/-- Lines that the first pass places in the place of a line of the text: the line itself, or the expansion of
the macro that it invokes. -/
def StandFor (line : TokenLine) (out : List TokenLine) : Prop :=
  out = [line] ∨ ∃ pool : MacroPool, (pool.expand line).1 = .ok (some out)

theorem StandFor.source {line : TokenLine} {out : List TokenLine} (h : StandFor line out) :
    ∀ l ∈ out, l.source = line.source := by
  rcases h with rfl | ⟨pool, h⟩
  · exact List.forall_mem_singleton.mpr rfl
  · exact fun l hl => source_of_expand (Prod.ext h rfl) hl

/-- What a unit leaves stands piece by piece for lines of its text. -/
theorem exists_pieces {ds : Diagnostics} {pool : MacroPool} {current : Option Definition}
    {lines out : List TokenLine} (run : Run ds pool current lines out) :
    ∃ pieces : List (TokenLine × List TokenLine), out = pieces.flatMap (·.2) ∧
      (pieces.map (·.1)).Sublist lines ∧ ∀ x ∈ pieces, StandFor x.1 x.2 := by
  induction run with
  | done | unclosed => exact ⟨[], rfl, .slnil, nofun⟩
  | refused _ _ _ ih | dropped _ _ _ ih =>
      obtain ⟨pieces, hout, hlines, hpieces⟩ := ih
      exact ⟨pieces, hout, hlines.cons _, hpieces⟩
  | line handles _ ih =>
      obtain ⟨pieces, rfl, hlines, hpieces⟩ := ih
      cases handles with
      | opens | body | closes => exact ⟨pieces, rfl, hlines.cons _, hpieces⟩
      | invokes plain expands =>
          exact ⟨(_, _) :: pieces, rfl, hlines.cons_cons _,
            List.forall_mem_cons.mpr ⟨.inr ⟨_, congrArg Prod.fst expands⟩, hpieces⟩⟩
      | stands plain expands =>
          exact ⟨(_, [_]) :: pieces, rfl, hlines.cons_cons _, List.forall_mem_cons.mpr ⟨.inl rfl, hpieces⟩⟩

end MacroPool

/-! ## Units -/

/-- A column of a line of some source, in bytes. -/
def Site.On (lines : List SourceLine) (site : Site) : Prop :=
  site.source ∈ lines ∧ 1 ≤ site.column ∧ site.column ≤ site.source.text.utf8ByteSize

theorem Span.Inside.on {lines : List SourceLine} {source : SourceLine} {span : Span}
    (h : span.Inside source.text) (hsource : source ∈ lines) : Site.On lines ⟨source, span.start + 1⟩ :=
  ⟨hsource, Nat.le_add_left _ _, Nat.le_trans h.nonempty h.bounded⟩

/-- The tokens of a line, and the line itself if it has some, have columns. -/
theorem TokenLine.Spanned.on {lines : List SourceLine} {line : TokenLine} (h : line.Spanned)
    (hsource : line.source ∈ lines) :
    (∀ t ∈ line.tokens, Site.On lines ⟨line.source, t.span.start + 1⟩) ∧
      (line.tokens ≠ [] → Site.On lines ⟨line.source, line.column⟩) := by
  have htokens : ∀ t ∈ line.tokens, Site.On lines ⟨line.source, t.span.start + 1⟩ :=
    fun t ht => (h.inside t ht).on hsource
  refine ⟨htokens, fun hne => ?_⟩
  unfold TokenLine.column
  split
  case h_1 t rest heq => exact htokens t (heq ▸ List.mem_cons_self)
  case h_2 heq => exact absurd heq hne

namespace SourceUnit

theorem at_of_mem_readLines (constants : Constants) (lines : List SourceLine) :
    ∀ d ∈ (readLines constants lines).2, d.At (Site.On lines) := by
  have hmore {source : SourceLine} {rest : List SourceLine} {d : Diagnostic} (h : d.At (Site.On rest)) :
      d.At (Site.On (source :: rest)) := by
    obtain ⟨site, cause, ⟨hsource, hcolumn⟩, hd⟩ := h
    exact ⟨site, cause, ⟨List.mem_cons_of_mem _ hsource, hcolumn⟩, hd⟩
  induction lines generalizing constants with
  | nil => exact nofun
  | cons source rest ih =>
      unfold readLines
      split
      · exact fun d hd => hmore (ih _ d hd)
      case h_2 errors hread =>
        intro d hd
        rcases List.mem_append.mp hd with hd | hd
        · obtain ⟨⟨e, span⟩, he, rfl⟩ := List.mem_map.mp hd
          have hinside := TokenLine.inside_of_read hread he
          exact ⟨⟨source, span.start + 1⟩, _, hinside.on List.mem_cons_self, rfl⟩
        · exact hmore (ih _ d hd)

end SourceUnit

namespace Assembly

open Placement SourceUnit

/-- Reading a unit and expanding its macros reports places on its lines. -/
theorem at_of_mem_reportsOf {u : SourceUnit} (current : u.Current) :
    ∀ d ∈ reportsOf u, d.At (Site.On u.lines) := by
  unfold reportsOf
  split
  case h_1 tokens htokens =>
    obtain rfl := tokens_of_read current htokens
    intro d hd
    have hlines (l : TokenLine) (hl : l ∈ (readLines [] u.lines).1) (hne : l.tokens ≠ []) :
        Site.On u.lines ⟨l.source, l.column⟩ :=
      ((spanned_of_mem_readLines hl).on (source_of_mem_readLines hl)).2 hne
    obtain ⟨line, e, hline, rfl⟩ := MacroPool.exists_of_mem_diagnostics _ none _ nofun hlines d hd
    exact ⟨_, _, hline, rfl⟩
  case h_2 hnone =>
    rcases read_eq current with ⟨hsome, -⟩ | ⟨-, herrors, -⟩
    · cases hsome.symm.trans hnone
    · rw [herrors]
      exact at_of_mem_readLines [] u.lines

/-- **The first pass over units keeps and reports places on their lines.** -/
theorem sited_placeUnits {S : Site → Prop} {units : List SourceUnit} (current : ∀ u ∈ units, u.Current)
    (hS : ∀ u ∈ units, ∀ site, Site.On u.lines site → S site) {p : Placement} (h : p.Sited S) :
    (placeUnits p units).1.Sited S := by
  induction units generalizing p with
  | nil => exact h
  | cons u rest ih =>
      obtain ⟨hu, hrest⟩ := List.forall_mem_cons.mp current
      obtain ⟨hSu, hSrest⟩ := List.forall_mem_cons.mp hS
      have hreported : ∀ d ∈ p.diagnostics ++ reportsOf u, d.At S := by
        intro d hd
        rcases List.mem_append.mp hd with hd | hd
        · exact h.diagnostics d hd
        · obtain ⟨site, cause, hsite, hd⟩ := at_of_mem_reportsOf hu d hd
          exact ⟨site, cause, hSu site hsite, hd⟩
      have hunit : (placeUnit p u).1.Sited S := by
        rw [placeUnit_eq]
        split
        · exact ⟨hreported, h.waiting, h.exports, h.unused, h.instrs, h.labelWords⟩
        · have hbegin : (beginUnit p u).Sited S :=
            ⟨hreported, nofun, nofun, nofun, h.instrs, h.labelWords⟩
          refine (hbegin.placeLines fun line hline t ht => hSu _ ?_).endUnit
          exact ((spanned_of_mem_expandedLines hu line hline).on (source_of_mem_expandedLines hu hline)).1 t ht
      exact ih hrest hSrest hunit

end Assembly

/-- The diagnostic is about a column of a line of the unit. -/
structure Diagnostic.PointsInto (d : Diagnostic) (u : SourceUnit) : Prop where
  file : d.file = u.file
  line : 1 ≤ d.line ∧ d.line ≤ u.lines.length
  column : ∃ text, u.lineText? d.line = some text ∧ 1 ≤ d.column ∧ d.column ≤ text.utf8ByteSize

theorem SourceUnit.pointsInto_of_on {file text : String} {site : Site}
    (h : Site.On (ofText file text).lines site) (cause : Cause) :
    (site.report cause).PointsInto (ofText file text) := by
  obtain ⟨hsource, hcolumn⟩ := h
  have hlines : (ofText file text).lines = SourceLine.ofText file text := rfl
  obtain ⟨k, hk, hline⟩ := List.mem_mapIdx.mp hsource
  have hfile : site.source.file = file := hline ▸ rfl
  have hnumber : site.source.number = k + 1 := hline ▸ rfl
  have hget : (ofText file text).lines[k]? = some site.source := by
    rw [hlines, SourceLine.ofText, List.getElem?_mapIdx, List.getElem?_eq_getElem hk]
    exact congrArg some hline
  have hlength : k < (ofText file text).lines.length := (List.getElem?_eq_some_iff.mp hget).1
  refine ⟨hfile, ?_, site.source.text, ?_, hcolumn⟩
  · show 1 ≤ site.source.number ∧ site.source.number ≤ _
    omega
  · show (ofText file text).lineText? site.source.number = _
    rw [lineText?, if_neg (by omega), hnumber, Nat.add_sub_cancel, hget]
    rfl

namespace Assembly

open SourceUnit MacroPool

/-- The diagnostics that come with a result: all of them after a failure, and the warnings of a program. -/
def diagnosticsOf : Except Diagnostics AssembledProgram → Diagnostics
  | .error ds => ds
  | .ok program => program.warnings

/-- What the tokens of a unit that the first pass reads have to do with its text. -/
structure Located (u : SourceUnit) : Prop where
  /-- Each token stands on the line that its list is about. -/
  tokens : ∀ l ∈ u.expandedLines, l.source ∈ u.lines ∧ ∀ t ∈ l.tokens, t.span.Inside l.source.text
  /-- The lists stand for lines of the text in order, and each is about the line that it stands for. -/
  pieces : ∃ pieces : List (TokenLine × List TokenLine), u.expandedLines = pieces.flatMap (·.2) ∧
    (pieces.map (·.1.source)).Sublist u.lines ∧
      ∀ x ∈ pieces, StandFor x.1 x.2 ∧ ∀ l ∈ x.2, l.source = x.1.source

theorem located_of_current {u : SourceUnit} (current : u.Current) : Located u where
  tokens l hl :=
    ⟨source_of_mem_expandedLines current hl, (spanned_of_mem_expandedLines current l hl).inside⟩
  pieces := by
    unfold expandedLines
    rcases read_eq current with ⟨hsome, hnil⟩ | ⟨hnone, -⟩
    · obtain ⟨pieces, hout, hlines, hpieces⟩ :=
        exists_pieces (run_expandFrom .empty none (readLines [] u.lines).1 (List.Subset.refl _))
      refine ⟨pieces, by rw [hsome]; exact hout, ?_, fun x hx => ⟨hpieces x hx, (hpieces x hx).source⟩⟩
      have hsources := hlines.map (·.source)
      rw [map_source_readLines hnil, List.map_map] at hsources
      exact hsources
    · exact ⟨[], by rw [hnone]; rfl, List.nil_sublist _, nofun⟩

/-- **Diagnostics point into the source.** Whatever is assembled from texts, and with any options, each
diagnostic names the file of a unit, a line of it, and a byte of that line. The tokens that the first pass reads
after constants and macros were put in have places that are not empty on the line that their list is about, and
this is the line of the text that the list stands for: for the lines of an expansion, the line of the outermost
invocation. -/
theorem diagnostics_in_source (options : AssemblyOptions) (sources : List (String × String)) :
    (∀ d ∈ diagnosticsOf (assemble options (fresh sources)).1, ∃ u ∈ fresh sources, d.PointsInto u) ∧
      ∀ u ∈ fresh sources, Located u := by
  have current : ∀ u ∈ fresh sources, u.Current := by
    intro u hu
    obtain ⟨s, -, rfl⟩ := List.mem_map.mp hu
    exact (holds_ofText s.1 s.2).current
  refine ⟨fun d hd => ?_, fun u hu => located_of_current (current u hu)⟩
  -- both kinds of result come with the diagnostics of the same two passes
  have hdraft : diagnosticsOf (assemble options (fresh sources)).1 = (draft options (fresh sources)).warnings := by
    rw [assemble_eq]
    split <;> rfl
  have hstart : (Placement.initial options.extended options.layout).Sited
      fun site => ∃ u ∈ fresh sources, Site.On u.lines site := ⟨nofun, nofun, nofun, nofun, nofun, nofun⟩
  have hpass := sited_placeUnits current (fun u hu site h => ⟨u, hu, h⟩) hstart
  obtain ⟨site, cause, ⟨u, hu, hsite⟩, rfl⟩ := hpass.at_of_mem_warnings options.layout d (hdraft ▸ hd)
  obtain ⟨s, -, rfl⟩ := List.mem_map.mp hu
  exact ⟨_, hu, pointsInto_of_on hsite cause⟩

/-- A macro that invokes another one, with a constant as its argument, and an error in the innermost line; and
a unit with a warning. -/
theorem diagnostics_in_source_nestedMacro :
    let macros := ".macro inner %x\nadd $t0 %x\n.end_macro\n.macro outer %y\ninner %y\n.end_macro\n"
    let sources := [("a.s", macros ++ ".eqv seven 7\nhere: outer seven # wrong"), ("b.s", " .data")]
    diagnosticsOf (assemble {} (fresh sources)).1 =
        [⟨.encoding (.invalidOperands "add"), "a.s", 8, 7⟩, ⟨.warning (.emptySegment "data"), "b.s", 1, 2⟩] ∧
      (∀ d ∈ diagnosticsOf (assemble {} (fresh sources)).1, ∃ u ∈ fresh sources, d.PointsInto u) ∧
      ((fresh sources).flatMap (·.expandedLines)).map (fun l => (l.source.number, l.tokens.map (·.span))) =
        [(7, []), (8, [⟨0, 4⟩, ⟨4, 5⟩]), (8, [⟨6, 17⟩, ⟨6, 17⟩, ⟨6, 17⟩]), (1, [⟨1, 6⟩])] ∧
      ∀ u ∈ fresh sources, Located u := by
  intro macros sources
  obtain ⟨hpoints, hlocated⟩ := diagnostics_in_source {} sources
  exact ⟨by decide +kernel, hpoints, by decide +kernel, hlocated⟩

end Assembly

end MipsLab
