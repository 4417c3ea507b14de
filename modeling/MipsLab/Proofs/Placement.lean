import Mathlib.Logic.Relation
import MipsLab.Placement
import MipsLab.Proofs.Image

set_option autoImplicit false

/-!
# What a placement places

The first pass over the lines of a unit is a sequence of moves. Most operations place nothing at all
(`PlacesNothing`); the others place a machine instruction, bytes of data or a word for the address of
a label (`Move`). A whole pass also begins and ends units (`Pass`), and so what each of these keeps
holds of everything that is assembled: what was placed stays (`Extends`), instructions stand at
multiples of four, and data below the end of the address space (`Sound`).
-/

namespace MipsLab

/-- What comes before in a list without errors has none. -/
theorem Diagnostics.hasErrors_of_prefix {ds es : Diagnostics} (h : ds <+: es)
    (without : es.hasErrors = false) : ds.hasErrors = false := by
  obtain ⟨rest, rfl⟩ := h
  unfold hasErrors at without ⊢
  rw [List.any_append] at without
  exact (Bool.or_eq_false_iff.mp without).1

/-- In a list without errors there are only warnings. -/
theorem Diagnostics.isWarning_of_mem {ds : Diagnostics} (without : ds.hasErrors = false)
    {d : Diagnostic} (hd : d ∈ ds) : d.isWarning = true := by
  have h := List.any_eq_false.mp without d hd
  simpa using h

namespace Placement

/-! ## Operations that place nothing -/

/-- `q` has placed what `p` has, and may have more to report. -/
structure PlacesNothing (p q : Placement) : Prop where
  extended : q.extended = p.extended
  instrs : q.instrs = p.instrs
  data : q.data = p.data
  labelWords : q.labelWords = p.labelWords
  locals : q.locals = p.locals
  scope : q.unit.locals.scope = p.unit.locals.scope
  diagnostics : p.diagnostics <+: q.diagnostics

/-- What has come out of the pass so far. -/
def output (p : Placement) :
    Bool × Array PlacedInstr × DataImage × Array LabelWord × Array SymbolTable × String ×
      Diagnostics :=
  (p.extended, p.instrs, p.data, p.labelWords, p.locals, p.unit.locals.scope, p.diagnostics)

theorem scope_add {t u : SymbolTable} {name : String} {s : Symbol}
    (h : t.add name s = .ok u) : u.scope = t.scope := by
  unfold SymbolTable.add at h
  split at h
  · cases h
  · cases h
    rfl

namespace PlacesNothing

theorem of_output_eq {p q : Placement} (h : q.output = p.output) : PlacesNothing p q := by
  simp only [output, Prod.mk.injEq] at h
  obtain ⟨extended, instrs, data, labelWords, locals, scope, diagnostics⟩ := h
  exact ⟨extended, instrs, data, labelWords, locals, scope, diagnostics ▸ List.prefix_refl _⟩

theorem refl (p : Placement) : PlacesNothing p p := .of_output_eq (by rfl)

theorem trans {p q r : Placement} (hpq : PlacesNothing p q) (hqr : PlacesNothing q r) :
    PlacesNothing p r where
  extended := hqr.extended.trans hpq.extended
  instrs := hqr.instrs.trans hpq.instrs
  data := hqr.data.trans hpq.data
  labelWords := hqr.labelWords.trans hpq.labelWords
  locals := hqr.locals.trans hpq.locals
  scope := hqr.scope.trans hpq.scope
  diagnostics := hpq.diagnostics.trans hqr.diagnostics

theorem foldl {α : Type} {f : Placement → α → Placement} (h : ∀ p a, PlacesNothing p (f p a))
    (l : List α) (p : Placement) : PlacesNothing p (l.foldl f p) := by
  induction l generalizing p with
  | nil => exact refl p
  | cons a l ih => exact (h p a).trans (ih (f p a))

variable (p : Placement)

theorem report (site : Site) (cause : Cause) : PlacesNothing p (p.report site cause) :=
  ⟨rfl, rfl, rfl, rfl, rfl, rfl, List.prefix_append _ _⟩

theorem enterLabel (label : String × Site) : PlacesNothing p (p.enterLabel label) := by
  unfold Placement.enterLabel
  split
  split
  case h_1 hadd => exact ⟨rfl, rfl, rfl, rfl, rfl, scope_add hadd, List.prefix_refl _⟩
  case h_2 => exact report p _ _

theorem enterLabels : PlacesNothing p p.enterLabels :=
  PlacesNothing.trans (.of_output_eq (by rfl)) (foldl enterLabel p.unit.waiting _)

theorem checkUnused : PlacesNothing p p.checkUnused := by
  unfold Placement.checkUnused
  split
  · exact PlacesNothing.trans (.of_output_eq (by rfl)) (report p.markUsed _ _)
  · exact refl p

theorem alignTo (size : Word) : PlacesNothing p (p.alignTo size) :=
  PlacesNothing.trans (.of_output_eq (by rfl)) (enterLabels (p.moveTo (Word.alignUp p.here size)))

theorem select (site : Site) (name : String) (segment : Segment) (operands : List Operand) :
    PlacesNothing p (p.select site name segment operands) := by
  have h := (enterLabels p).trans (checkUnused _)
  unfold Placement.select
  split
  · exact h.trans (.of_output_eq (by rfl))
  · split
    · exact h.trans (.of_output_eq (by rfl))
    · exact h.trans (report _ _ _)
  · exact h.trans (report _ _ _)

theorem declareExports (site : Site) (name : String) (operands : List Operand) :
    PlacesNothing p (p.declareExports site name operands) := by
  induction operands generalizing p with
  | nil => exact refl p
  | cons operand rest ih =>
      unfold Placement.declareExports
      split
      case h_1 => exact refl p
      case h_2 label rest' heq =>
        obtain ⟨-, rfl⟩ := List.cons.inj heq
        exact PlacesNothing.trans (.of_output_eq (by rfl)) (ih _)
      case h_3 => exact report p _ _

theorem reserve (site : Site) (name label : String) (size : Int) :
    PlacesNothing p (p.reserve site name label size) := by
  unfold Placement.reserve
  dsimp only
  split
  · split
    · exact .of_output_eq (by rfl)
    · exact report p _ _
  · exact report p _ _

theorem exportLabel (declared : String × Site) : PlacesNothing p (p.exportLabel declared) := by
  unfold Placement.exportLabel
  split
  split
  · exact refl p
  · split
    · exact report p _ _
    · dsimp only
      split
      · exact .of_output_eq (by rfl)
      · exact PlacesNothing.trans (.of_output_eq (by rfl)) (report _ _ _)

end PlacesNothing

/-! ## Where the next item goes -/

theorem here_moveTo (p : Placement) (a : Word) : (p.moveTo a).here = a := by
  unfold here moveTo
  cases p.unit.segment <;> rfl

theorem here_enterLabel (p : Placement) (label : String × Site) :
    (p.enterLabel label).counters = p.counters ∧
      (p.enterLabel label).unit.segment = p.unit.segment := by
  unfold enterLabel
  split
  split <;> exact ⟨rfl, rfl⟩

theorem here_enterLabels (p : Placement) : p.enterLabels.here = p.here := by
  have h : ∀ (labels : List (String × Site)) (q : Placement),
      (labels.foldl enterLabel q).here = q.here := by
    intro labels
    induction labels with
    | nil => exact fun q => rfl
    | cons label labels ih =>
        intro q
        obtain ⟨hcounters, hsegment⟩ := here_enterLabel q label
        rw [List.foldl_cons, ih, here, here, hcounters, hsegment]
  exact h _ _

theorem here_alignTo (p : Placement) (size : Word) :
    (p.alignTo size).here = Word.alignUp p.here size := by
  rw [alignTo, here_enterLabels, here_moveTo]

/-! ## Moves -/

/-- What a single move of the first pass over a unit can be. -/
inductive Move : Placement → Placement → Prop
  | quiet {p q : Placement} (h : PlacesNothing p q) : Move p q
  /-- A machine instruction is placed that a written one stands for. -/
  | instr {p : Placement} {name : String} {operands : List Operand} {is : List SymbolicInstr}
      {i : SymbolicInstr} (lowered : lower name operands p.extended = .ok is) (hi : i ∈ is)
      (aligned : Word.isAligned p.here 4 = true) (line : TokenLine) (column : Nat) :
      Move p (placeWord line column p i)
  | bytes {p : Placement} (site : Site) (bytes : List Byte) : Move p (p.placeBytes site bytes)
  /-- A word is placed that has to hold the address of a label. -/
  | labelWord {p : Placement} (site : Site) (l : LabelRef) :
      Move p ({ p with labelWords := p.labelWords.push ⟨p.locals.size, site, p.here, l⟩ }.placeBytes
        site [0, 0, 0, 0])

/-- Any number of moves. -/
abbrev Moves : Placement → Placement → Prop := Relation.ReflTransGen Move

theorem PlacesNothing.moves {p q : Placement} (h : PlacesNothing p q) : Moves p q :=
  .single (.quiet h)

/-- Moves leave the tables of finished units alone, and the file of the unit in hand. -/
theorem Move.unit {p q : Placement} (h : Move p q) :
    q.locals = p.locals ∧ q.unit.locals.scope = p.unit.locals.scope := by
  have hbytes : ∀ (p : Placement) (site : Site) (bytes : List Byte),
      (p.placeBytes site bytes).locals = p.locals ∧
        (p.placeBytes site bytes).unit.locals.scope = p.unit.locals.scope := by
    intro p site bytes
    unfold placeBytes
    dsimp only
    split
    · exact ⟨rfl, rfl⟩
    · split <;> exact ⟨rfl, rfl⟩
  cases h with
  | quiet h => exact ⟨h.locals, h.scope⟩
  | instr => exact ⟨rfl, rfl⟩
  | bytes => exact hbytes _ _ _
  | labelWord => exact hbytes _ _ _

theorem unit_of_moves {p q : Placement} (h : Moves p q) :
    q.locals = p.locals ∧ q.unit.locals.scope = p.unit.locals.scope := by
  induction h with
  | refl => exact ⟨rfl, rfl⟩
  | tail _ hmove ih => exact ⟨hmove.unit.1.trans ih.1, hmove.unit.2.trans ih.2⟩

/-! ### Instructions -/

theorem isAligned_alignUp (a : Word) : Word.isAligned (Word.alignUp a 4) 4 = true := by
  have h : Word.alignUp a 4 = Word.wordAligned (a + 3) := rfl
  rw [h, Word.isAligned_iff, Word.toNat_wordAligned]
  exact Nat.mul_mod_left _ _

theorem isAligned_add_four {a : Word} (h : Word.isAligned a 4 = true) :
    Word.isAligned (a + 4) 4 = true := by
  rw [Word.isAligned_iff] at h ⊢
  bv_omega

theorem moves_placeWords {p : Placement} {name : String} {operands : List Operand}
    {is js : List SymbolicInstr} (lowered : lower name operands p.extended = .ok is) (hjs : js ⊆ is)
    (here : Word.isAligned p.here 4 = true) (line : TokenLine) (column : Nat) :
    Moves p (js.foldl (placeWord line column) p) := by
  -- the next address stays aligned along the way, so the induction carries it as well
  induction js generalizing p with
  | nil => exact .refl
  | cons j js ih =>
      obtain ⟨hj, hjs⟩ := List.cons_subset.mp hjs
      have hnext : Word.isAligned (placeWord line column p j).here 4 = true := by
        rw [placeWord, here_moveTo]
        exact isAligned_add_four here
      exact .head (.instr lowered hj here line column) (ih lowered hjs hnext)

theorem moves_placeInstr (p : Placement) (line : TokenLine) (column : Nat) (mnemonic : String)
    (operands : List Operand) : Moves p (p.placeInstr line column mnemonic operands) := by
  unfold placeInstr
  dsimp only
  split
  · exact (PlacesNothing.report p _ _).moves
  · split
    case h_1 => exact (PlacesNothing.report p _ _).moves
    case h_2 is lowered =>
      -- only here is an address rounded up: the words of one instruction follow each other
      have haligned : PlacesNothing p (p.markUsed.alignTo 4) :=
        PlacesNothing.trans (.of_output_eq (by rfl)) (.alignTo p.markUsed 4)
      have hhere : Word.isAligned (p.markUsed.alignTo 4).here 4 = true := by
        rw [here_alignTo]
        exact isAligned_alignUp _
      rw [← haligned.extended] at lowered
      exact haligned.moves.trans
        (moves_placeWords lowered (List.Subset.refl is) hhere line column)

/-! ### Data -/

theorem moves_placeWordItem? {site : Site} {p q : Placement} {operand : Operand}
    (h : placeWordItem? site p operand = some q) : Moves p q := by
  unfold placeWordItem? at h
  split at h
  · cases h
    exact .single (.bytes site _)
  · cases h
    exact .single (.labelWord site _)
  · cases h

theorem moves_placeSmallItem? {name : String} {width : Nat} {fits : Int → Bool} {site : Site}
    {p q : Placement} {operand : Operand}
    (h : placeSmallItem? name width fits site p operand = some q) : Moves p q := by
  unfold placeSmallItem? at h
  split at h
  · cases h
    split
    · exact .single (.bytes site _)
    · exact (PlacesNothing.report p _ _).moves.tail (.bytes site _)
  · cases h

theorem moves_placeString? {terminated : Bool} {site : Site} {p q : Placement} {operand : Operand}
    (h : placeString? terminated site p operand = some q) : Moves p q := by
  unfold placeString? at h
  split at h
  · cases h
    exact .single (.bytes site _)
  · cases h

theorem moves_placeItems {name : String} {site : Site}
    {place? : Placement → Operand → Option Placement}
    (hplace : ∀ {p q operand}, place? p operand = some q → Moves p q) (p : Placement)
    (operands : List Operand) : Moves p (placeItems name site place? p operands) := by
  induction operands generalizing p with
  | nil => exact .refl
  | cons operand rest ih =>
      unfold placeItems
      split
      case h_1 q hq => exact (hplace hq).trans (ih q)
      case h_2 => exact (PlacesNothing.report p _ _).moves

theorem moves_placeData (p : Placement) (site : Site) (name : String) (operands : List Operand) :
    Moves p (p.placeData site name operands) := by
  have hrefused : Moves p (p.report site (.encoding (.invalidArguments name))) :=
    (PlacesNothing.report p _ _).moves
  have haligned : ∀ size, Moves p (p.alignTo size) := fun size => (PlacesNothing.alignTo p size).moves
  have hlabelled : Moves p p.enterLabels := (PlacesNothing.enterLabels p).moves
  unfold placeData
  split
  · split
    · exact haligned _
    · exact hrefused
  · split
    · exact hlabelled.tail (.quiet (.of_output_eq (by rfl)))
    · exact hrefused
  · exact (haligned 4).trans (moves_placeItems moves_placeWordItem? _ operands)
  · exact (haligned 2).trans (moves_placeItems moves_placeSmallItem? _ operands)
  · exact (haligned 1).trans (moves_placeItems moves_placeSmallItem? _ operands)
  · exact hlabelled.trans (moves_placeItems moves_placeString? _ operands)
  · exact hlabelled.trans (moves_placeItems moves_placeString? _ operands)
  · exact hrefused

/-! ### Lines and units -/

theorem moves_directive (p : Placement) (site : Site) (name : String) (operands : List Operand) :
    Moves p (p.directive site name operands) := by
  have hreport : ∀ cause, Moves p (p.report site cause) :=
    fun cause => (PlacesNothing.report p site cause).moves
  unfold directive
  split
  case h_1 => exact (PlacesNothing.select p _ _ _ _).moves
  case h_2 =>
    split
    · split
      · exact hreport _
      · exact (PlacesNothing.declareExports p _ _ _).moves
    split
    · split
      · exact (PlacesNothing.reserve p _ _ _ _).moves
      · exact hreport _
    split
    · exact hreport _
    split
    · exact hreport _
    split
    · split
      · exact hreport _
      · have hused : PlacesNothing p p.markUsed := .of_output_eq (by rfl)
        exact hused.moves.trans (moves_placeData p.markUsed site name operands)
    · exact hreport _

/-- Lets the labels of a line wait for their addresses. -/
def awaitLabels (p : Placement) (line : TokenLine) (labels : List (String × Span)) : Placement :=
  labels.foldl (fun q (name, span) => q.markUsed.await (name, ⟨line.source, span.start + 1⟩)) p

theorem PlacesNothing.awaitLabels (p : Placement) (line : TokenLine)
    (labels : List (String × Span)) : PlacesNothing p (p.awaitLabels line labels) :=
  PlacesNothing.foldl (fun _ _ => .of_output_eq (by rfl)) labels p

theorem moves_placeLine (p : Placement) (line : TokenLine) : Moves p (p.placeLine line) := by
  unfold placeLine
  split
  case h_1 => exact (PlacesNothing.report p _ _).moves
  case h_2 s _ =>
    have hlabelled : Moves p (p.awaitLabels line s.labels) :=
      (PlacesNothing.awaitLabels p line s.labels).moves
    dsimp only
    split
    · exact hlabelled
    · exact hlabelled.trans (moves_placeInstr _ line _ _ _)
    · exact hlabelled.trans (moves_directive _ _ _ _)

theorem moves_placeLines (p : Placement) (lines : List TokenLine) :
    Moves p (lines.foldl placeLine p) := by
  induction lines generalizing p with
  | nil => exact .refl
  | cons line lines ih => exact (moves_placeLine p line).trans (ih (p.placeLine line))

/-! ### Passes -/

/-- What the first pass over a program is made of: moves, and the beginnings and ends of units. -/
inductive PassStep : Placement → Placement → Prop
  | move {p q : Placement} (h : Move p q) : PassStep p q
  | beginUnit {p : Placement} (file : String) : PassStep p { p with unit := freshUnit file }
  | endUnit {p : Placement} : PassStep p { p with locals := p.locals.push p.unit.locals }

/-- A first pass, or a part of one. -/
abbrev Pass : Placement → Placement → Prop := Relation.ReflTransGen PassStep

theorem pass_of_moves {p q : Placement} (h : Moves p q) : Pass p q :=
  Relation.ReflTransGen.mono (fun _ _ => PassStep.move) _ _ h

/-- What the end of a unit does before the labels of the unit are put aside. -/
def closeUnit (p : Placement) : Placement :=
  let q := p.enterLabels.checkUnused
  q.unit.exports.foldl exportLabel q

theorem endUnit_eq (p : Placement) :
    p.endUnit = { p.closeUnit with locals := p.closeUnit.locals.push p.closeUnit.unit.locals } := rfl

theorem PlacesNothing.closeUnit (p : Placement) : PlacesNothing p p.closeUnit :=
  ((PlacesNothing.enterLabels p).trans (.checkUnused _)).trans (.foldl .exportLabel _ _)

/-! ## What was placed stays -/

/-- `q` has placed and reported what `p` has, and possibly more. -/
structure Extends (p q : Placement) : Prop where
  extended : q.extended = p.extended
  instrs : p.instrs.toList <+: q.instrs.toList
  labelWords : p.labelWords.toList <+: q.labelWords.toList
  locals : p.locals.toList <+: q.locals.toList
  diagnostics : p.diagnostics <+: q.diagnostics

theorem Extends.refl (p : Placement) : Extends p p :=
  ⟨rfl, List.prefix_refl _, List.prefix_refl _, List.prefix_refl _, List.prefix_refl _⟩

theorem Extends.trans {p q r : Placement} (hpq : Extends p q) (hqr : Extends q r) : Extends p r where
  extended := hqr.extended.trans hpq.extended
  instrs := hpq.instrs.trans hqr.instrs
  labelWords := hpq.labelWords.trans hqr.labelWords
  locals := hpq.locals.trans hqr.locals
  diagnostics := hpq.diagnostics.trans hqr.diagnostics

theorem PlacesNothing.extends {p q : Placement} (h : PlacesNothing p q) : Extends p q where
  extended := h.extended
  instrs := h.instrs ▸ List.prefix_refl _
  labelWords := h.labelWords ▸ List.prefix_refl _
  locals := h.locals ▸ List.prefix_refl _
  diagnostics := h.diagnostics

theorem extends_placeBytes (p : Placement) (site : Site) (bytes : List Byte) :
    Extends p (p.placeBytes site bytes) := by
  unfold placeBytes
  dsimp only
  split
  · exact (PlacesNothing.report p _ _).extends
  · have hwritten : Extends p { p with data := writeBytes p.data p.here.toNat bytes } :=
      ⟨rfl, List.prefix_refl _, List.prefix_refl _, List.prefix_refl _, List.prefix_refl _⟩
    split
    · exact hwritten.trans ((PlacesNothing.report _ site _).trans (.of_output_eq (by rfl))).extends
    · exact hwritten.trans (PlacesNothing.extends (.of_output_eq (by rfl)))

theorem Move.extends {p q : Placement} (h : Move p q) : Extends p q := by
  cases h with
  | quiet h => exact h.extends
  | instr =>
      refine ⟨rfl, ?_, List.prefix_refl _, List.prefix_refl _, List.prefix_refl _⟩
      show _ <+: (p.instrs.push _).toList
      rw [Array.toList_push]
      exact List.prefix_append _ _
  | bytes => exact extends_placeBytes p _ _
  | labelWord site l =>
      have hpushed : Extends p
          { p with labelWords := p.labelWords.push ⟨p.locals.size, site, p.here, l⟩ } := by
        refine ⟨rfl, List.prefix_refl _, ?_, List.prefix_refl _, List.prefix_refl _⟩
        rw [Array.toList_push]
        exact List.prefix_append _ _
      exact hpushed.trans (extends_placeBytes _ _ _)

/-- **What was placed and reported stays to the end of a pass.** -/
theorem Pass.extends {p q : Placement} (h : Pass p q) : Extends p q := by
  induction h with
  | refl => exact .refl p
  | tail _ hstep ih =>
      cases hstep with
      | move h => exact ih.trans h.extends
      | beginUnit => exact ih.trans ⟨rfl, List.prefix_refl _, List.prefix_refl _, List.prefix_refl _, List.prefix_refl _⟩
      | endUnit =>
          refine ih.trans ⟨rfl, List.prefix_refl _, List.prefix_refl _, ?_, List.prefix_refl _⟩
          rw [Array.toList_push]
          exact List.prefix_append _ _

/-- No errors have been reported. -/
def Clean (p : Placement) : Prop := p.diagnostics.hasErrors = false

/-- What leads to a placement without errors has none. -/
theorem Extends.clean {p q : Placement} (h : Extends p q) (hq : q.Clean) : p.Clean :=
  Diagnostics.hasErrors_of_prefix h.diagnostics hq

/-- Where something other than a warning was reported, there are errors. -/
theorem not_clean_report (p : Placement) (site : Site) {cause : Cause} (h : cause.isWarning = false) :
    ¬ (p.report site cause).Clean := by
  have hd : (site.report cause).isWarning = false := h
  simp [Clean, report, Diagnostics.hasErrors, hd]

/-- No error points at a place. -/
def Spares (p : Placement) (site : Site) : Prop :=
  ∀ c : Cause, c.isWarning = false → site.report c ∉ p.diagnostics

theorem Clean.spares {p : Placement} (clean : p.Clean) (site : Site) : p.Spares site := by
  intro c hc hmem
  have hwarning : c.isWarning = true := Diagnostics.isWarning_of_mem clean hmem
  rw [hc] at hwarning
  cases hwarning

/-- What leads to a placement without errors at a place has none there. -/
theorem Extends.spares {p q : Placement} {site : Site} (h : Extends p q) (hq : q.Spares site) :
    p.Spares site :=
  fun c hc hmem => hq c hc (h.diagnostics.subset hmem)

theorem not_spares_report (p : Placement) (site : Site) {cause : Cause} (h : cause.isWarning = false) :
    ¬ (p.report site cause).Spares site :=
  fun spares => spares cause h (List.mem_append_right _ List.mem_cons_self)

theorem not_spares_of_report {p q : Placement} {site : Site} {cause : Cause}
    (hq : p.report site cause = q) (h : cause.isWarning = false) : ¬ q.Spares site :=
  hq ▸ not_spares_report p site h

theorem isTaken_eq_true_iff {data : DataImage} {a n : Nat} :
    isTaken data a n = true ↔ ∃ k < n, data.contains (a + k) = true := by
  simp [isTaken]

/-- Bytes that are placed without an error lie below the end of the address space, at addresses
that nothing has taken. -/
theorem placeBytes_of_spares {p : Placement} {site : Site} {bytes : List Byte}
    (spares : (p.placeBytes site bytes).Spares site) :
    p.here.toNat + bytes.length ≤ 0x100000000 ∧
      (∀ k < bytes.length, p.data.contains (p.here.toNat + k) = false) ∧
      p.placeBytes site bytes = { p with data := writeBytes p.data p.here.toNat bytes }.moveTo
        (p.here + BitVec.ofNat 32 bytes.length) := by
  unfold placeBytes at spares ⊢
  dsimp only at spares ⊢
  split at spares
  case isTrue => exact absurd spares (not_spares_report p site rfl)
  case isFalse hfits =>
    split at spares
    case isTrue => exact absurd spares (not_spares_report _ site rfl)
    case isFalse hfree =>
      rw [if_neg hfits, if_neg hfree]
      refine ⟨Nat.not_lt.mp hfits, ?_, rfl⟩
      intro k hk
      exact Bool.eq_false_iff.mpr fun htaken => hfree (isTaken_eq_true_iff.mpr ⟨k, hk, htaken⟩)

theorem placeBytes_of_clean {p : Placement} {site : Site} {bytes : List Byte}
    (clean : (p.placeBytes site bytes).Clean) :
    p.here.toNat + bytes.length ≤ 0x100000000 ∧
      (∀ k < bytes.length, p.data.contains (p.here.toNat + k) = false) ∧
      p.placeBytes site bytes = { p with data := writeBytes p.data p.here.toNat bytes }.moveTo
        (p.here + BitVec.ofNat 32 bytes.length) :=
  placeBytes_of_spares (clean.spares site)

/-! ## Soundness -/

/-- Instructions stand at multiples of four, and data below the end of the address space. -/
structure Sound (p : Placement) : Prop where
  aligned : ∀ i ∈ p.instrs, Word.isAligned i.address 4 = true
  bounded : ∀ a, p.data.contains a = true → a < 0x100000000

theorem sound_initial (extended : Bool) (layout : MemoryLayout) :
    Sound (initial extended layout) where
  aligned := by simp [initial]
  bounded := by simp [initial]

/-- Soundness depends on nothing but what was placed. -/
theorem Sound.of_eq {p q : Placement} (hp : Sound p) (instrs : q.instrs = p.instrs)
    (data : q.data = p.data) : Sound q :=
  ⟨by rw [instrs]; exact hp.aligned, by rw [data]; exact hp.bounded⟩

theorem contains_writeBytes {data : DataImage} {a k : Nat} {bytes : List Byte} :
    (writeBytes data a bytes).contains k = true ↔
      data.contains k = true ∨ a ≤ k ∧ k < a + bytes.length := by
  induction bytes generalizing data a with
  | nil =>
      rw [writeBytes, List.length_nil]
      grind
  | cons b bytes ih =>
      have hfirst : (compare a k == .eq) = true ↔ a = k := by simp
      rw [writeBytes, ih, Std.TreeMap.contains_insert, Bool.or_eq_true, hfirst, List.length_cons]
      grind

theorem Sound.placeBytes {p : Placement} (hp : Sound p) (site : Site) (bytes : List Byte) :
    Sound (p.placeBytes site bytes) := by
  unfold Placement.placeBytes
  dsimp only
  split
  · exact hp.of_eq rfl rfl
  case isFalse hfits =>
    -- bytes that would run past the last address are reported and not placed
    have hwritten : Sound { p with data := writeBytes p.data p.here.toNat bytes } := by
      refine ⟨hp.aligned, fun k hk => ?_⟩
      rcases contains_writeBytes.mp hk with hk | hk
      · exact hp.bounded k hk
      · omega
    split <;> exact hwritten.of_eq rfl rfl

theorem Sound.move {p q : Placement} (hp : Sound p) (h : Move p q) : Sound q := by
  cases h with
  | quiet h => exact hp.of_eq h.instrs h.data
  | instr _ _ aligned =>
      refine ⟨fun j hj => ?_, hp.bounded⟩
      rcases Array.mem_push.mp hj with hj | rfl
      · exact hp.aligned j hj
      · exact aligned
  | bytes => exact hp.placeBytes _ _
  | labelWord site l =>
      -- the address of the label is filled in later, into four bytes of zeros
      have hpushed : Sound
          { p with labelWords := p.labelWords.push ⟨p.locals.size, site, p.here, l⟩ } :=
        hp.of_eq rfl rfl
      exact hpushed.placeBytes site _

/-- **A pass keeps instructions aligned and data below the end of the address space.** -/
theorem Sound.pass {p q : Placement} (hp : Sound p) (h : Pass p q) : Sound q := by
  induction h with
  | refl => exact hp
  | tail _ hstep ih =>
      cases hstep with
      | move h => exact ih.move h
      | beginUnit => exact ih.of_eq rfl rfl
      | endUnit => exact ih.of_eq rfl rfl

end Placement

end MipsLab
