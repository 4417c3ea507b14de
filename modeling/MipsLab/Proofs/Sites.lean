import MipsLab.Proofs.Parsing

set_option autoImplicit false

/-!
# The places of diagnostics

A placement keeps places for later: of labels that wait, of exports, of the last segment directive, of
instructions and of words that wait for an address. All of them, and the places of its diagnostics, are places
of the lines that were placed (`Placement.Sited.placeLine`). The second pass only reports places that were kept.
-/

namespace MipsLab

/-- The diagnostic is about one of the places. -/
def Diagnostic.At (S : Site → Prop) (d : Diagnostic) : Prop := ∃ site cause, S site ∧ d = site.report cause

namespace Placement

/-- All places that the placement keeps or reports are among the given ones. -/
structure Sited (S : Site → Prop) (p : Placement) : Prop where
  diagnostics : ∀ d ∈ p.diagnostics, d.At S
  waiting : ∀ w ∈ p.unit.waiting, S w.2
  exports : ∀ e ∈ p.unit.exports, S e.2
  unused : ∀ s ∈ p.unit.unused, S s.2
  instrs : ∀ i ∈ p.instrs, S ⟨i.line.source, i.column⟩ ∧ S ⟨i.line.source, i.line.column⟩
  labelWords : ∀ w ∈ p.labelWords, S w.site

namespace Sited

variable {S : Site → Prop} {p : Placement} (h : p.Sited S)
include h

/-! ## Single operations -/

theorem report {site : Site} (hsite : S site) (cause : Cause) : (p.report site cause).Sited S where
  diagnostics d hd := by
    rcases List.mem_append.mp hd with hd | hd
    · exact h.diagnostics d hd
    · exact ⟨site, cause, hsite, List.mem_singleton.mp hd⟩
  waiting := h.waiting
  exports := h.exports
  unused := h.unused
  instrs := h.instrs
  labelWords := h.labelWords

/-- What is done for each element of a list keeps the places if each single step does. -/
theorem foldl {α : Type} {f : Placement → α → Placement} {l : List α}
    (hf : ∀ a ∈ l, ∀ q : Placement, q.Sited S → (f q a).Sited S) : (l.foldl f p).Sited S := by
  induction l generalizing p with
  | nil => exact h
  | cons a l ih =>
      obtain ⟨ha, hl⟩ := List.forall_mem_cons.mp hf
      exact ih (ha p h) hl

theorem markUsed : p.markUsed.Sited S :=
  ⟨h.diagnostics, h.waiting, h.exports, nofun, h.instrs, h.labelWords⟩

theorem moveTo (a : Word) : (p.moveTo a).Sited S :=
  ⟨h.diagnostics, h.waiting, h.exports, h.unused, h.instrs, h.labelWords⟩

theorem enterLabel {label : String × Site} (hlabel : S label.2) : (p.enterLabel label).Sited S := by
  unfold Placement.enterLabel
  dsimp only
  split
  · exact ⟨h.diagnostics, h.waiting, h.exports, h.unused, h.instrs, h.labelWords⟩
  · exact h.report hlabel _

theorem enterLabels : p.enterLabels.Sited S := by
  have hnone : Sited S { p with unit := { p.unit with waiting := [] } } :=
    ⟨h.diagnostics, nofun, h.exports, h.unused, h.instrs, h.labelWords⟩
  exact hnone.foldl fun label hlabel _ hq => hq.enterLabel (h.waiting label hlabel)

theorem checkUnused : p.checkUnused.Sited S := by
  unfold Placement.checkUnused
  split
  case h_1 name site hunused => exact h.markUsed.report (h.unused _ hunused) _
  case h_2 => exact h

theorem alignTo (size : Word) : (p.alignTo size).Sited S := (h.moveTo _).enterLabels

theorem await {label : String × Site} (hlabel : S label.2) : (p.await label).Sited S where
  diagnostics := h.diagnostics
  waiting w hw := (List.mem_append.mp hw).elim (h.waiting w) fun hw => List.mem_singleton.mp hw ▸ hlabel
  exports := h.exports
  unused := h.unused
  instrs := h.instrs
  labelWords := h.labelWords

theorem placeWord {line : TokenLine} {column : Nat} (hcolumn : S ⟨line.source, column⟩)
    (hline : S ⟨line.source, line.column⟩) (i : SymbolicInstr) :
    (Placement.placeWord line column p i).Sited S where
  diagnostics := h.diagnostics
  waiting := h.waiting
  exports := h.exports
  unused := h.unused
  instrs j hj := (Array.mem_push.mp hj).elim (h.instrs j) fun hj => hj ▸ ⟨hcolumn, hline⟩
  labelWords := h.labelWords

theorem placeInstr {line : TokenLine} {column : Nat} (hcolumn : S ⟨line.source, column⟩)
    (hline : S ⟨line.source, line.column⟩) (name : String) (operands : List Operand) :
    (p.placeInstr line column name operands).Sited S := by
  unfold Placement.placeInstr
  dsimp only
  split
  · exact h.report hcolumn _
  · split
    · exact h.report hcolumn _
    · exact (h.markUsed.alignTo 4).foldl fun i _ _ hq => hq.placeWord hcolumn hline i

/-! ## Directives -/

section Site

variable {site : Site} (hsite : S site)
include hsite

theorem placeBytes (bytes : List Byte) : (p.placeBytes site bytes).Sited S := by
  have hwritten (data : DataImage) : Sited S { p with data } :=
    ⟨h.diagnostics, h.waiting, h.exports, h.unused, h.instrs, h.labelWords⟩
  unfold Placement.placeBytes
  dsimp only
  split
  · exact h.report hsite _
  · split
    · exact ((hwritten _).report hsite _).moveTo _
    · exact (hwritten _).moveTo _

theorem placeWordItem? {operand : Operand} {q : Placement}
    (hq : Placement.placeWordItem? site p operand = some q) : q.Sited S := by
  unfold Placement.placeWordItem? at hq
  split at hq
  · cases hq
    exact h.placeBytes hsite _
  case h_2 l =>
    cases hq
    -- the word itself is placed as zeros, and its site is kept until all addresses are known
    refine placeBytes ?_ hsite _
    exact ⟨h.diagnostics, h.waiting, h.exports, h.unused, h.instrs,
      fun w hw => (Array.mem_push.mp hw).elim (h.labelWords w) fun hw => hw ▸ hsite⟩
  · cases hq

theorem placeSmallItem? {name : String} {width : Nat} {fits : Int → Bool} {operand : Operand} {q : Placement}
    (hq : Placement.placeSmallItem? name width fits site p operand = some q) : q.Sited S := by
  unfold Placement.placeSmallItem? at hq
  split at hq
  · cases hq
    split
    · exact h.placeBytes hsite _
    · exact (h.report hsite _).placeBytes hsite _
  · cases hq

theorem placeString? {terminated : Bool} {operand : Operand} {q : Placement}
    (hq : Placement.placeString? terminated site p operand = some q) : q.Sited S := by
  unfold Placement.placeString? at hq
  split at hq
  · cases hq
    exact h.placeBytes hsite _
  · cases hq

omit h in
theorem placeItems {name : String} {place? : Placement → Operand → Option Placement}
    (hplace : ∀ {p q operand}, Sited S p → place? p operand = some q → q.Sited S) {p : Placement}
    (h : p.Sited S) (operands : List Operand) :
    (Placement.placeItems name site place? p operands).Sited S := by
  induction operands generalizing p with
  | nil => exact h
  | cons operand rest ih =>
      unfold Placement.placeItems
      split
      case h_1 q hq => exact ih (hplace h hq)
      case h_2 => exact h.report hsite _

theorem placeData (name : String) (operands : List Operand) : (p.placeData site name operands).Sited S := by
  unfold Placement.placeData
  split
  · split
    · exact h.alignTo _
    · exact h.report hsite _
  · split
    · exact h.enterLabels.moveTo _
    · exact h.report hsite _
  · exact placeItems hsite (fun hp => hp.placeWordItem? hsite) (h.alignTo 4) operands
  · exact placeItems hsite (fun hp => hp.placeSmallItem? hsite) (h.alignTo 2) operands
  · exact placeItems hsite (fun hp => hp.placeSmallItem? hsite) (h.alignTo 1) operands
  · exact placeItems hsite (fun hp => hp.placeString? hsite) h.enterLabels operands
  · exact placeItems hsite (fun hp => hp.placeString? hsite) h.enterLabels operands
  · exact h.report hsite _

theorem select (name : String) (segment : Segment) (operands : List Operand) :
    (p.select site name segment operands).Sited S := by
  have hq := h.enterLabels.checkUnused
  have hused (s : String × Site) (hs : S s.2) (counters : Counters) :
      Sited S { p.enterLabels.checkUnused with
        counters, unit := { p.enterLabels.checkUnused.unit with segment, unused := some s } } :=
    ⟨hq.diagnostics, hq.waiting, hq.exports, fun _ ht => Option.mem_some.mp ht ▸ hs, hq.instrs,
      hq.labelWords⟩
  unfold Placement.select
  dsimp only
  split
  · exact hused (name, site) hsite _
  · split
    · exact hused (name, site) hsite _
    · exact hq.report hsite _
  · exact hq.report hsite _

theorem declareExports (name : String) (operands : List Operand) :
    (p.declareExports site name operands).Sited S := by
  induction operands generalizing p with
  | nil => exact h
  | cons operand rest ih =>
      unfold Placement.declareExports
      split
      case h_1 heq => cases heq
      case h_2 label rest' heq =>
        obtain ⟨-, rfl⟩ := List.cons.inj heq
        refine ih ⟨h.diagnostics, h.waiting, fun e he => ?_, h.unused, h.instrs, h.labelWords⟩
        exact (List.mem_append.mp he).elim (h.exports e) fun he => List.mem_singleton.mp he ▸ hsite
      case h_3 => exact h.report hsite _

theorem reserve (name label : String) (size : Int) : (p.reserve site name label size).Sited S := by
  unfold Placement.reserve
  dsimp only
  split
  · split
    · exact ⟨h.diagnostics, h.waiting, h.exports, h.unused, h.instrs, h.labelWords⟩
    · exact h.report hsite _
  · exact h.report hsite _

theorem directive (name : String) (operands : List Operand) : (p.directive site name operands).Sited S := by
  unfold Placement.directive
  split
  · exact h.select hsite name _ operands
  split
  · split
    · exact h.report hsite _
    · exact h.declareExports hsite name operands
  split
  · split
    · exact h.reserve hsite name _ _
    · exact h.report hsite _
  split
  · exact h.report hsite _
  split
  · exact h.report hsite _
  split
  · split
    · exact h.report hsite _
    · exact h.markUsed.placeData hsite name operands
  · exact h.report hsite _

end Site

/-! ## Lines and units -/

/-- **Placing a line keeps and reports places of its tokens only.** -/
theorem placeLine {line : TokenLine} (hline : ∀ t ∈ line.tokens, S ⟨line.source, t.span.start + 1⟩) :
    (p.placeLine line).Sited S := by
  unfold Placement.placeLine
  split
  case h_1 e span herror =>
    obtain ⟨t, ht, rfl⟩ := Statement.exists_of_error herror
    exact h.report (hline t ht) _
  case h_2 s hs =>
    have hlabelled : (p.awaitLabels line s.labels).Sited S := by
      refine h.foldl fun label hlabel q hq => hq.markUsed.await ?_
      obtain ⟨t, ht, hspan⟩ := Statement.exists_of_label hs hlabel
      exact hspan ▸ hline t ht
    -- what a line does starts at one of its tokens, so it has a first one
    have hnucleus {nucleus : Nucleus} (hn : s.nucleus = some nucleus) :
        S ⟨line.source, s.span.start + 1⟩ ∧ S ⟨line.source, line.column⟩ := by
      obtain ⟨first, others, hothers, hstart, -⟩ := Statement.exists_of_nucleus hs hn
      have htokens := splitLabels_append line.tokens
      rw [hothers] at htokens
      refine ⟨hstart ▸ hline first (htokens ▸ by simp), ?_⟩
      unfold TokenLine.column
      split
      case h_1 t rest heq => exact hline t (heq ▸ List.mem_cons_self)
      case h_2 heq =>
        rw [heq] at htokens
        simp at htokens
    dsimp only
    split
    · exact hlabelled
    case h_2 hn => exact hlabelled.placeInstr (hnucleus hn).1 (hnucleus hn).2 _ _
    case h_3 hn => exact hlabelled.directive (hnucleus hn).1 _ _

theorem placeLines {lines : List TokenLine}
    (hlines : ∀ line ∈ lines, ∀ t ∈ line.tokens, S ⟨line.source, t.span.start + 1⟩) :
    (lines.foldl Placement.placeLine p).Sited S :=
  h.foldl fun line hline _ hq => hq.placeLine (hlines line hline)

theorem exportLabel {declared : String × Site} (hdeclared : S declared.2) : (p.exportLabel declared).Sited S := by
  have hsame (globals : SymbolTable) (unit : SymbolTable) :
      Sited S { p with globals, unit := { p.unit with locals := unit } } :=
    ⟨h.diagnostics, h.waiting, h.exports, h.unused, h.instrs, h.labelWords⟩
  unfold Placement.exportLabel
  dsimp only
  split
  · exact h
  · split
    · exact h.report hdeclared _
    · split
      · exact hsame _ _
      · exact (hsame _ _).report hdeclared _

theorem endUnit : p.endUnit.Sited S := by
  -- labels at the end of the unit get the address behind it, and then exports are looked up
  have hclosed := h.enterLabels.checkUnused
  have hexported : (p.enterLabels.checkUnused.unit.exports.foldl Placement.exportLabel
      p.enterLabels.checkUnused).Sited S :=
    hclosed.foldl fun declared hdeclared _ hq => hq.exportLabel (hclosed.exports declared hdeclared)
  exact ⟨hexported.diagnostics, hexported.waiting, hexported.exports, hexported.unused, hexported.instrs,
    hexported.labelWords⟩

end Sited

end Placement

end MipsLab
