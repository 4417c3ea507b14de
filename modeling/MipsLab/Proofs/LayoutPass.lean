import MipsLab.Proofs.CarriedOut
import MipsLab.Proofs.Positions

set_option autoImplicit false

/-!
# The first pass keeps to the layout

A first pass without errors is always at the positions of the layout (`At`), and puts the parts of the
spots one after the other (`trace_firstPass`). So what it leaves behind are these parts: an instruction for
each word, in order, and bytes of data for the others (`lays_firstPass`).
-/

namespace MipsLab

theorem Counters.get_set (c : Counters) (s t : Segment) (a : Word) :
    (c.set s a).get t = if t = s then a else c.get t := by
  cases s <;> cases t <;> rfl

namespace Placement

/-! ## Being at a cursor -/

/-- The placement uses the segment of a cursor, and has come to the address at each of its positions. -/
structure At (p : Placement) (c : Cursor) : Prop where
  segment : p.unit.segment = c.segment
  counters : ∀ s, p.counters.get s = addressAt (c.positions s)

theorem at_initial (extended : Bool) (layout : MemoryLayout) :
    At (initial extended layout) (.initial layout) where
  segment := rfl
  counters _ := (addressAt_toNat _).symm

section At

variable {p q : Placement} {c : Cursor} (h : At p c)
include h

theorem At.of_eq (counters : q.counters = p.counters) (segment : q.unit.segment = p.unit.segment) :
    At q c :=
  ⟨segment.trans h.segment, fun s => counters ▸ h.counters s⟩

theorem At.here_eq : p.here = addressAt c.here := by
  rw [here, h.segment]
  exact h.counters _

theorem At.moveTo (x : Nat) : At (p.moveTo (addressAt x)) (c.move c.segment x) where
  segment := h.segment
  counters s := by
    rw [Cursor.positions_move]
    show (p.counters.set p.unit.segment (addressAt x)).get s = _
    rw [Counters.get_set, h.segment]
    split
    · rfl
    · exact h.counters s

theorem At.beginUnit (u : SourceUnit) : At (Assembly.beginUnit p u) c.beginUnit :=
  ⟨rfl, h.counters⟩

end At

/-! ### Operations that move nothing -/

theorem At.foldl {α : Type} {f : Placement → α → Placement} {c : Cursor}
    (hf : ∀ {p}, At p c → ∀ a, At (f p a) c) {p : Placement} (h : At p c) (l : List α) :
    At (l.foldl f p) c := by
  induction l generalizing p with
  | nil => exact h
  | cons a l ih => exact ih (hf h a)

section At

variable {p : Placement} {c : Cursor} (h : At p c)
include h

theorem At.enterLabels : At p.enterLabels c := by
  refine At.foldl (fun h label => ?_) (h.of_eq (by rfl) (by rfl)) _
  obtain ⟨hcounters, hsegment⟩ := here_enterLabel _ label
  exact h.of_eq hcounters hsegment

theorem At.checkUnused : At p.checkUnused c := by
  unfold Placement.checkUnused
  split <;> exact h.of_eq rfl rfl

theorem At.exportLabel (declared : String × Site) : At (p.exportLabel declared) c := by
  unfold Placement.exportLabel
  split
  split
  · exact h
  split
  · exact h.of_eq rfl rfl
  dsimp only
  split <;> exact h.of_eq rfl rfl

theorem At.endUnit : At p.endUnit c := by
  have hclosed : At p.closeUnit c :=
    At.foldl (fun h declared => h.exportLabel declared) h.enterLabels.checkUnused _
  exact hclosed.of_eq rfl rfl

theorem At.awaitLabels (line : TokenLine) (labels : List (String × Span)) :
    At (p.awaitLabels line labels) c :=
  At.foldl (fun h _ => h.of_eq (by rfl) (by rfl)) h labels

/-- Aligning goes to the next multiple. -/
theorem At.alignTo {k : Nat} (hk : k ≤ 3) :
    At (p.alignTo (BitVec.ofNat 32 (2 ^ k))) (c.move c.segment (roundUp c.here (2 ^ k))) := by
  apply At.enterLabels
  rw [h.here_eq, alignUp_addressAt _ hk]
  exact h.moveTo _

end At

/-! ## Parts that are put -/

/-- A part that a line of the unit with the given index puts at a position. -/
structure PlacedPart where
  unit : Nat
  line : TokenLine
  column : Nat
  position : Nat
  part : Part

/-- The part at a position, as a line puts it. -/
def PlacedPart.of (unit : Nat) (line : TokenLine) (column : Nat) (a : Nat × Part) : PlacedPart :=
  ⟨unit, line, column, a.1, a.2⟩

/-- Everything that has been placed so far. -/
def placed (p : Placement) : Array PlacedInstr × DataImage × Array LabelWord :=
  (p.instrs, p.data, p.labelWords)

/-- From `p` to `q` the pass puts some parts, one after the other, and places nothing else. -/
inductive Trace : Placement → List PlacedPart → Placement → Prop
  | nil (p : Placement) : Trace p [] p
  | quiet {p q r : Placement} {parts : List PlacedPart} (more : Extends p q) (same : q.placed = p.placed)
      (rest : Trace q parts r) : Trace p parts r
  | put {p r : Placement} {line : TokenLine} {column x : Nat} {part : Part} {parts : List PlacedPart}
      (here : p.here = addressAt x) (rest : Trace (put line column p part) parts r) :
      Trace p (⟨p.locals.size, line, column, x, part⟩ :: parts) r

variable {line : TokenLine} {column : Nat}

theorem extends_put (p : Placement) (part : Part) : Extends p (put line column p part) := by
  cases part with
  | word i =>
      refine ⟨rfl, ?_, List.prefix_refl _, List.prefix_refl _, List.prefix_refl _⟩
      show _ <+: (p.instrs.push _).toList
      rw [Array.toList_push]
      exact List.prefix_append _ _
  | bytes bs => exact (Move.bytes ⟨line.source, column⟩ bs).extends
  | address l => exact (Move.labelWord ⟨line.source, column⟩ l).extends
  | gap n => exact PlacesNothing.extends (.of_output_eq (by rfl))

/-- Placing parts leaves the tables of finished units alone. -/
theorem locals_put (p : Placement) (part : Part) : (put line column p part).locals = p.locals := by
  cases part with
  | word | gap => rfl
  | bytes bs => exact (Move.bytes ⟨line.source, column⟩ bs).unit.1
  | address l => exact (Move.labelWord ⟨line.source, column⟩ l).unit.1

theorem Puts.extends {p q : Placement} {parts : List Part} (h : Puts line column p parts q) :
    Extends p q := by
  induction h with
  | nil p => exact .refl p
  | warn c _ ih => exact (PlacesNothing.report _ _ c).extends.trans ih
  | cons _ ih => exact (extends_put _ _).trans ih

theorem Trace.append {p q r : Placement} {first second : List PlacedPart} (h : Trace p first q)
    (h' : Trace q second r) : Trace p (first ++ second) r := by
  induction h with
  | nil => exact h'
  | quiet more same _ ih => exact .quiet more same (ih h')
  | put here _ ih => exact .put here (ih h')

theorem Trace.extends {p q : Placement} {parts : List PlacedPart} (h : Trace p parts q) :
    Extends p q := by
  induction h with
  | nil p => exact .refl p
  | quiet more _ _ ih => exact more.trans ih
  | put _ _ ih => exact (extends_put _ _).trans ih

theorem PlacesNothing.trace {p q : Placement} (h : PlacesNothing p q) : Trace p [] q :=
  .quiet h.extends (by rw [placed, h.instrs, h.data, h.labelWords, placed]) (.nil q)

/-! ### Lines -/

theorem At.placeBytes {p : Placement} {c : Cursor} (h : At p c) {site : Site} {bytes : List Byte}
    (spares : (p.placeBytes site bytes).Spares site) :
    At (p.placeBytes site bytes) (c.move c.segment (c.here + bytes.length)) := by
  obtain ⟨-, -, hplaced⟩ := placeBytes_of_spares spares
  rw [hplaced, h.here_eq, ← addressAt_add]
  exact At.moveTo (h.of_eq (by rfl) (by rfl)) _

/-- A part that is put takes its size. -/
theorem At.put {p : Placement} {c : Cursor} (h : At p c) {part : Part}
    (spares : (put line column p part).Spares ⟨line.source, column⟩) :
    At (put line column p part) (c.move c.segment (c.here + part.size)) := by
  cases part with
  | word i =>
      have hnext : p.here + 4 = addressAt (c.here + 4) := by
        rw [h.here_eq, addressAt_add]
        rfl
      rw [Placement.put, placeWord, hnext]
      exact At.moveTo (h.of_eq (by rfl) (by rfl)) _
  | bytes bs => exact h.placeBytes spares
  | address l => exact At.placeBytes (h.of_eq (by rfl) (by rfl)) spares
  | gap n =>
      rw [Placement.put, h.here_eq, ← addressAt_add]
      exact h.moveTo _

/-- **Parts are put one after the other.** -/
theorem Puts.trace {p q : Placement} {parts : List Part} (puts : Puts line column p parts q)
    {c : Cursor} (h : At p c) (spares : q.Spares ⟨line.source, column⟩) :
    At q (c.move c.segment (c.here + Part.total parts)) ∧
      Trace p ((Part.locate c.here parts).map (.of p.locals.size line column)) q := by
  induction puts generalizing c with
  | nil p =>
      refine ⟨?_, .nil p⟩
      show At p (c.move c.segment (c.here + 0))
      rw [Nat.add_zero, Cursor.move_here]
      exact h
  | warn w _ ih =>
      obtain ⟨hat, htrace⟩ := ih (h.of_eq rfl rfl) spares
      exact ⟨hat, (PlacesNothing.report _ _ w).trace.append htrace⟩
  | @cons p q part parts rest ih =>
      obtain ⟨hat, htrace⟩ := ih (h.put (rest.extends.spares spares)) spares
      rw [Cursor.segment_move, Cursor.move_move, Cursor.here_move, Nat.add_assoc,
        ← Part.total] at hat
      rw [Cursor.here_move, locals_put] at htrace
      exact ⟨hat, .put h.here_eq htrace⟩

/-- **A line that is carried out puts its parts and leads to where its role leads.** -/
theorem CarriedOut.trace {p q : Placement} {role : Role} (done : CarriedOut line column p role q)
    {c : Cursor} (h : At p c) (spares : q.Spares ⟨line.source, column⟩) :
    At q (c.after role) ∧ Trace p ((role.located c.here).map (.of p.locals.size line column)) q := by
  cases done with
  | @item k parts q small kind puts =>
      have hused : At p.markUsed c := h.of_eq rfl rfl
      have hnothing : PlacesNothing p (p.markUsed.alignTo (BitVec.ofNat 32 (2 ^ k))) :=
        PlacesNothing.trans (.of_output_eq (by rfl)) (.alignTo p.markUsed _)
      obtain ⟨hat, htrace⟩ := puts.trace (hused.alignTo small) spares
      rw [Cursor.segment_move, Cursor.move_move, Cursor.here_move] at hat
      rw [Cursor.here_move, hnothing.locals] at htrace
      exact ⟨hat, hnothing.trace.append htrace⟩
  | select s position unused =>
      have hnothing := (PlacesNothing.enterLabels p).trans (.checkUnused _)
      have hchecked := h.enterLabels.checkUnused
      refine ⟨⟨rfl, fun t => ?_⟩, (hnothing.trans (.of_output_eq (by rfl))).trace⟩
      cases position with
      | none => exact hchecked.counters t
      | some x =>
          dsimp only [Option.elim_some, Cursor.after]
          rw [Counters.get_set, Cursor.positions_move]
          split
          · rfl
          · exact hchecked.counters t
  | exports names => exact ⟨h.of_eq rfl rfl, PlacesNothing.trace (.of_output_eq (by rfl))⟩
  | reserve added => exact ⟨h.of_eq rfl rfl, PlacesNothing.trace (.of_output_eq (by rfl))⟩
  | nothing => exact ⟨h, (PlacesNothing.refl p).trace⟩
  | ignored w => exact ⟨h.of_eq rfl rfl, (PlacesNothing.report p _ w).trace⟩

end Placement

/-- The parts of a line, as the line puts them. -/
def Spot.placed (x : Spot) : List Placement.PlacedPart :=
  x.parts.map (.of x.unit x.line (x.statement.span.start + 1))

namespace Placement

/-- Without errors, a line is a statement. -/
theorem exists_statement_of_clean {p : Placement} {line : TokenLine} (clean : (p.placeLine line).Clean) :
    ∃ s, Statement.ofTokens line.tokens = .ok s := by
  unfold placeLine at clean
  split at clean
  case h_1 => exact absurd clean (not_clean_report p _ rfl)
  case h_2 s hs => exact ⟨s, hs⟩

/-- A line that leaves no error is carried out after its labels wait. -/
theorem carriedOut_placeLine {p : Placement} {line : TokenLine} {s : Statement}
    (hs : Statement.ofTokens line.tokens = .ok s)
    (spares : (p.placeLine line).Spares ⟨line.source, s.span.start + 1⟩) :
    CarriedOut line (s.span.start + 1) (p.awaitLabels line s.labels) (.ofNucleus p.extended s.nucleus)
      (p.placeLine line) := by
  have hextended := (PlacesNothing.awaitLabels p line s.labels).extended
  rw [placeLine_eq_placeNucleus hs] at spares ⊢
  rw [← hextended]
  exact carriedOut_placeNucleus rfl spares

/-- Where lines are placed without errors, the first one is a statement and is carried out. -/
theorem exists_carriedOut {p : Placement} {line : TokenLine} {below : List TokenLine}
    (clean : ((line :: below).foldl placeLine p).Clean) :
    ∃ s, Statement.ofTokens line.tokens = .ok s ∧ (p.placeLine line).Clean ∧
      (p.placeLine line).extended = p.extended ∧
      CarriedOut line (s.span.start + 1) (p.awaitLabels line s.labels) (.ofNucleus p.extended s.nucleus)
        (p.placeLine line) := by
  have hline : (p.placeLine line).Clean :=
    (pass_of_moves (moves_placeLines _ below)).extends.clean clean
  obtain ⟨s, hs⟩ := exists_statement_of_clean hline
  exact ⟨s, hs, hline, (pass_of_moves (moves_placeLine p line)).extends.extended,
    carriedOut_placeLine hs (hline.spares _)⟩

/-- **Lines put the parts of their spots.** -/
theorem trace_placeLines {p : Placement} {c : Cursor} (h : At p c) {lines : List TokenLine}
    (clean : (lines.foldl placeLine p).Clean) :
    At (lines.foldl placeLine p) (c.through p.extended lines) ∧
      Trace p ((Spot.ofLines p.extended p.locals.size c lines).flatMap Spot.placed)
        (lines.foldl placeLine p) := by
  induction lines generalizing p c with
  | nil => exact ⟨h, .nil p⟩
  | cons line below ih =>
      obtain ⟨s, hs, hline, hextended, hdone⟩ := exists_carriedOut clean
      have hwaiting := PlacesNothing.awaitLabels p line s.labels
      obtain ⟨hat, htrace⟩ := hdone.trace (h.awaitLabels line s.labels) (hline.spares _)
      have hbelow := ih hat clean
      rw [hextended, (unit_of_moves (moves_placeLine p line)).1] at hbelow
      rw [hwaiting.locals] at htrace
      rw [Spot.ofLines, hs, Cursor.through_cons hs, List.flatMap_cons]
      exact ⟨hbelow.1, (hwaiting.trace.append htrace).append hbelow.2⟩

end Placement

namespace Assembly

open Placement

/-- A unit puts the parts of its spots. -/
theorem trace_placeUnit {p : Placement} {c : Cursor} (h : At p c) {u : SourceUnit}
    (clean : (placeUnit p u).1.Clean) :
    At (placeUnit p u).1 (c.beginUnit.through p.extended u.expandedLines) ∧
      Trace p ((Spot.ofLines p.extended p.locals.size c.beginUnit u.expandedLines).flatMap Spot.placed)
        (placeUnit p u).1 := by
  have hplaced := placeUnit_of_clean clean
  rw [hplaced] at clean ⊢
  have hlines := (pass_endUnit _).extends.clean clean
  obtain ⟨hat, htrace⟩ := trace_placeLines (h.beginUnit u) hlines
  have hclosed := PlacesNothing.closeUnit (u.expandedLines.foldl placeLine (beginUnit p u))
  have hend : Trace (u.expandedLines.foldl placeLine (beginUnit p u)) []
      (u.expandedLines.foldl placeLine (beginUnit p u)).endUnit :=
    .quiet (pass_endUnit _).extends (by
      rw [endUnit_eq]
      exact Prod.ext hclosed.instrs (Prod.ext hclosed.data hclosed.labelWords)) (.nil _)
  have hunit := htrace.append hend
  rw [List.append_nil] at hunit
  exact ⟨hat.endUnit, .quiet (pass_beginUnit p u).extends rfl hunit⟩

/-- **Units put the parts of their spots.** -/
theorem trace_placeUnits {p : Placement} {c : Cursor} (h : At p c) {units : List SourceUnit}
    (clean : (placeUnits p units).1.Clean) :
    At (placeUnits p units).1 (c.throughUnits p.extended units) ∧
      Trace p ((Spot.ofUnits p.extended p.locals.size c units).flatMap Spot.placed)
        (placeUnits p units).1 := by
  induction units generalizing p c with
  | nil => exact ⟨h, .nil p⟩
  | cons u rest ih =>
      have hunit : (placeUnit p u).1.Clean := (pass_placeUnits _ rest).extends.clean clean
      obtain ⟨hat, htrace⟩ := trace_placeUnit h hunit
      have hrest := ih hat clean
      rw [(pass_placeUnit p u).extends.extended, size_placeUnit hunit] at hrest
      rw [Spot.ofUnits, List.flatMap_append]
      exact ⟨hrest.1, htrace.append hrest.2⟩

/-- **The first pass over a program puts the parts of its spots, and nothing else.** -/
theorem trace_firstPass {options : AssemblyOptions} {units : List SourceUnit}
    (clean : (firstPass options units).Clean) :
    Trace (.initial options.extended options.layout) ((spots options units).flatMap Spot.placed)
      (firstPass options units) :=
  (trace_placeUnits (at_initial options.extended options.layout) clean).2

end Assembly

namespace Placement

/-! ## Laying parts -/

/-- What the pass records for a part at a position, if it is an instruction. -/
def recorded? (unit : Nat) (line : TokenLine) (column : Nat) : Nat × Part → Option PlacedInstr
  | (x, .word i) => some ⟨unit, line, column, addressAt x, i⟩
  | _ => none

/-- All of `n` bytes from the address at a position on are taken, and they do not run past the last
address. -/
def Filled (data : DataImage) (x n : Nat) : Prop :=
  (addressAt x).toNat + n ≤ 0x100000000 ∧ ∀ k < n, data.contains ((addressAt x).toNat + k) = true

/-- If a part at a position is data, its bytes are taken. -/
def Lies (data : DataImage) (x : Nat) : Part → Prop
  | .bytes bs => Filled data x bs.length
  | .address _ => Filled data x 4
  | _ => True

/-- From `p` to `q`, some instructions have been recorded and some parts been laid. -/
structure Lays (p q : Placement) (instrs : List PlacedInstr) (parts : List (Nat × Part)) : Prop where
  instrs : q.instrs.toList = p.instrs.toList ++ instrs
  kept : ∀ a, p.data.contains a = true → q.data.contains a = true
  lies : ∀ a ∈ parts, Lies q.data a.1 a.2

theorem Lies.mono {data data' : DataImage} (h : ∀ a, data.contains a = true → data'.contains a = true)
    {x : Nat} {part : Part} (lies : Lies data x part) : Lies data' x part := by
  cases part with
  | bytes | address => exact ⟨lies.1, fun k hk => h _ (lies.2 k hk)⟩
  | word | gap => trivial

theorem Lays.trans {p q r : Placement} {is js : List PlacedInstr} {first second : List (Nat × Part)}
    (hpq : Lays p q is first) (hqr : Lays q r js second) :
    Lays p r (is ++ js) (first ++ second) where
  instrs := by rw [hqr.instrs, hpq.instrs, List.append_assoc]
  kept a ha := hqr.kept a (hpq.kept a ha)
  lies a ha := by
    rcases List.mem_append.mp ha with ha | ha
    · exact (hpq.lies a ha).mono hqr.kept
    · exact hqr.lies a ha

variable {line : TokenLine} {column : Nat}

/-- Bytes that are placed without an error are taken from then on. -/
theorem lays_placeBytes {p : Placement} {x : Nat} (here : p.here = addressAt x) {site : Site}
    {bytes : List Byte} (clean : (p.placeBytes site bytes).Clean) :
    Lays p (p.placeBytes site bytes) [] [] ∧ Filled (p.placeBytes site bytes).data x bytes.length := by
  obtain ⟨hfits, -, hplaced⟩ := placeBytes_of_clean clean
  rw [hplaced]
  rw [here] at hfits ⊢
  refine ⟨⟨(List.append_nil _).symm, ?_, by simp⟩, hfits, ?_⟩
  · exact fun a ha => contains_writeBytes.mpr (.inl ha)
  · intro k hk
    exact contains_writeBytes.mpr (.inr ⟨Nat.le_add_right _ _, Nat.add_lt_add_left hk _⟩)

/-- A part is laid where it is put. -/
theorem lays_put {p : Placement} {x : Nat} (here : p.here = addressAt x) {part : Part}
    (clean : (put line column p part).Clean) :
    Lays p (put line column p part) (recorded? p.locals.size line column (x, part)).toList
      [(x, part)] := by
  cases part with
  | word i =>
      refine ⟨?_, fun a ha => ha, by simp [Lies]⟩
      show (p.instrs.push _).toList = _
      rw [Array.toList_push, here]
      rfl
  | bytes bs =>
      obtain ⟨hlays, hfilled⟩ := lays_placeBytes here clean
      exact ⟨hlays.instrs, hlays.kept, List.forall_mem_singleton.mpr hfilled⟩
  | address l =>
      let q := { p with labelWords := p.labelWords.push ⟨p.locals.size, ⟨line.source, column⟩, p.here, l⟩ }
      obtain ⟨hlays, hfilled⟩ := lays_placeBytes (show q.here = addressAt x from here) clean
      exact ⟨hlays.instrs, hlays.kept, List.forall_mem_singleton.mpr hfilled⟩
  | gap n => exact ⟨(List.append_nil _).symm, fun a ha => ha, by simp [Lies]⟩

/-- **Parts that are put without errors are laid.** -/
theorem Trace.lays {p q : Placement} {parts : List PlacedPart} (trace : Trace p parts q)
    (clean : q.Clean) :
    Lays p q (parts.filterMap fun a => recorded? a.unit a.line a.column (a.position, a.part))
      (parts.map fun a => (a.position, a.part)) := by
  induction trace with
  | nil p => exact ⟨(List.append_nil _).symm, fun a ha => ha, by simp⟩
  | quiet more same rest ih =>
      obtain ⟨hinstrs, hdata, -⟩ := Prod.mk.inj same |>.imp_right Prod.mk.inj
      have hlays := ih clean
      exact ⟨hinstrs ▸ hlays.instrs, hdata ▸ hlays.kept, hlays.lies⟩
  | @put p r line column x part parts here rest ih =>
      have happend : (⟨p.locals.size, line, column, x, part⟩ :: parts : List PlacedPart).filterMap
          (fun a => recorded? a.unit a.line a.column (a.position, a.part)) =
          (recorded? p.locals.size line column (x, part)).toList ++
            parts.filterMap fun a => recorded? a.unit a.line a.column (a.position, a.part) := by
        rw [List.filterMap_cons]
        split <;> simp_all
      rw [happend]
      exact (lays_put here (rest.extends.clean clean)).trans (ih clean)

end Placement

/-- The instructions that the first pass records for a spot. -/
def Spot.instrs (x : Spot) : List PlacedInstr :=
  x.parts.filterMap (Placement.recorded? x.unit x.line (x.statement.span.start + 1))

namespace Assembly

open Placement

/-- What the first pass over a program leaves behind are the parts of its spots. -/
theorem lays_firstPass {options : AssemblyOptions} {units : List SourceUnit}
    (clean : (firstPass options units).Clean) :
    (firstPass options units).instrs.toList = (spots options units).flatMap Spot.instrs ∧
      ∀ x ∈ spots options units, ∀ a ∈ x.parts, Lies (firstPass options units).data a.1 a.2 := by
  have hlays := (trace_firstPass clean).lays clean
  refine ⟨?_, fun x hx a ha => ?_⟩
  · rw [hlays.instrs, List.filterMap_flatMap]
    simp only [Spot.placed, List.filterMap_map]
    rfl
  · exact hlays.lies a (List.mem_map.mpr
      ⟨_, List.mem_flatMap.mpr ⟨x, hx, List.mem_map_of_mem ha⟩, rfl⟩)

/-! ## Spots and the pass -/

section Spots

variable {options : AssemblyOptions} {units : List SourceUnit}
  (clean : (firstPass options units).Clean)
include clean

/-- **The pass is at the cursor of a spot when it places the line.** -/
theorem exists_reached {x : Spot} (hx : x ∈ spots options units) :
    ∃ before u after above, units = before ++ u :: after ∧ x.unit = before.length ∧
      u.expandedLines = above ++ x.line :: x.below ∧
      Statement.ofTokens x.line.tokens = .ok x.statement ∧
      x.role = .ofNucleus options.extended x.statement.nucleus ∧
      At (reached options before u above) x.cursor := by
  obtain ⟨before, u, after, rfl, hunit, hx⟩ := Spot.mem_ofUnits hx
  obtain ⟨-, hs, hrole, above, hlines, hcursor⟩ := Spot.mem_ofLines hx
  rw [Nat.zero_add] at hunit
  refine ⟨before, u, after, above, rfl, hunit, hlines, hs, hrole, ?_⟩
  have hreached := (pass_reached clean hlines).extends.clean clean
  obtain ⟨hat, -⟩ := trace_placeUnits (at_initial options.extended options.layout) (clean_before clean)
  have hextended : (beginUnit (firstPass options before) u).extended = options.extended :=
    extended_firstPass options before
  have hline : At (reached options before u above)
      (((Cursor.initial options.layout).throughUnits options.extended before).beginUnit.through
        (beginUnit (firstPass options before) u).extended above) :=
    (trace_placeLines (hat.beginUnit u) hreached).1
  rw [hcursor, ← hextended]
  exact hextended ▸ hline

/-- The line of a spot is carried out as its role says. -/
theorem carriedOut_spot {x : Spot} (hx : x ∈ spots options units) :
    ∃ p q, At p x.cursor ∧ CarriedOut x.line (x.statement.span.start + 1) p x.role q := by
  obtain ⟨before, u, after, above, rfl, -, hlines, hs, hrole, hat⟩ := exists_reached clean hx
  have hdone := carriedOut_placeLine hs ((pass_placeLine_reached clean hlines).2.spares _)
  rw [extended_reached, ← hrole] at hdone
  exact ⟨_, _, hat.awaitLabels x.line x.statement.labels, hdone⟩

/-- Instructions stand in text segments, at multiples of four, and nothing else does. -/
theorem kind_of_mem_spots {x : Spot} (hx : x ∈ spots options units) {alignment : Nat}
    {parts : List Part} (hrole : x.role = .item alignment parts) :
    (x.cursor.segment.isText = true ∧ alignment = 4 ∧
      ∃ is : List SymbolicInstr, parts = is.map .word) ∨
      (x.cursor.segment.isText = false ∧ ∀ i, .word i ∉ parts) := by
  obtain ⟨p, q, hat, hdone⟩ := carriedOut_spot clean hx
  rw [hrole] at hdone
  rw [← hat.segment]
  cases hdone with
  | item small kind puts =>
      rcases kind with ⟨htext, rfl, is, rfl⟩ | hdata
      · exact .inl ⟨htext, rfl, is, rfl⟩
      · exact .inr hdata

/-- In a text segment there are only words. -/
theorem word_of_mem_parts {x : Spot} (hx : x ∈ spots options units)
    (htext : x.cursor.segment.isText = true) {a : Nat × Part} (ha : a ∈ x.parts) :
    ∃ i, a.2 = .word i := by
  rw [Spot.parts] at ha
  cases hrole : x.role with
  | item alignment parts =>
      rw [hrole] at ha
      have hpart := Part.mem_of_mem_locate ha
      rcases kind_of_mem_spots clean hx hrole with ⟨-, -, is, rfl⟩ | ⟨hdata, -⟩
      · obtain ⟨i, -, hi⟩ := List.mem_map.mp hpart
        exact ⟨i, hi.symm⟩
      · rw [htext] at hdata
        cases hdata
  | select | exports | reserve | nothing =>
      rw [hrole] at ha
      cases ha

/-- An instruction can be lowered. -/
theorem role_of_instr {x : Spot} (hx : x ∈ spots options units) {name : String}
    {operands : List Operand} (hn : x.statement.nucleus = some (.instr name operands)) :
    ∃ is, lower name operands options.extended = .ok is ∧ x.role = .item 4 (is.map .word) := by
  obtain ⟨before, u, after, above, rfl, -, hlines, hs, hrole, -⟩ := exists_reached clean hx
  obtain ⟨is, -, lowered, -⟩ := mem_instrs_placeLine hs (pass_placeLine_reached clean hlines).2 hn
  rw [extended_reached] at lowered
  refine ⟨is, lowered, ?_⟩
  rw [hrole, hn, Role.ofNucleus, lowered]

/-- **Each line of a program that assembles has its spot.** -/
theorem lines_spots : (spots options units).map (fun x => (x.unit, x.line)) =
    units.zipIdx.flatMap fun (u, k) => u.expandedLines.map (k, ·) := by
  apply Spot.lines_ofUnits
  intro u hu line hline
  obtain ⟨before, after, rfl⟩ := List.append_of_mem hu
  obtain ⟨above, below, hlines⟩ := List.append_of_mem hline
  exact exists_statement_of_clean ((pass_placeLine_reached clean hlines).2)

end Spots

end Assembly

end MipsLab
