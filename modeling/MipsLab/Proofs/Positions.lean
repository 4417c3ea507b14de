import MipsLab.Proofs.ExactLayout

set_option autoImplicit false

/-!
# The order of positions

Each spot of a program begins at the positions where the one before has led to (`Chained`). As long as
no directive moves a segment, positions in it only go up, and the parts in it follow each other without
overlap (`ordered_partsIn`).
-/

namespace MipsLab

/-! ## Cursors -/

namespace Cursor

/-- Where some units lead to. -/
def throughUnits (extended : Bool) (c : Cursor) : List SourceUnit → Cursor
  | [] => c
  | u :: rest => throughUnits extended (c.beginUnit.through extended u.expandedLines) rest

theorem through_cons {extended : Bool} {c : Cursor} {line : TokenLine} {below : List TokenLine}
    {s : Statement} (hs : Statement.ofTokens line.tokens = .ok s) :
    c.through extended (line :: below) = (c.after (.ofNucleus extended s.nucleus)).through extended below := by
  rw [through, hs]

@[simp] theorem move_here (c : Cursor) : c.move c.segment c.here = c := by
  unfold move here
  congr
  funext t
  split
  · next h => rw [h]
  · rfl

@[simp] theorem move_move (c : Cursor) (s : Segment) (x y : Nat) :
    (c.move s x).move s y = c.move s y := by
  unfold move
  congr
  funext t
  dsimp only
  split <;> rfl

@[simp] theorem segment_move (c : Cursor) (s : Segment) (x : Nat) :
    (c.move s x).segment = c.segment := rfl

@[simp] theorem here_move (c : Cursor) (x : Nat) : (c.move c.segment x).here = x := if_pos rfl

theorem positions_move (c : Cursor) (s t : Segment) (x : Nat) :
    (c.move s x).positions t = if t = s then x else c.positions t := rfl

/-- A line that does not settle labels leads nowhere. -/
theorem after_of_settled?_eq_none (c : Cursor) {role : Role} {x : Nat}
    (h : role.settled? x = none) : c.after role = c := by
  cases role with
  | item | select => cases h
  | exports | reserve | nothing => rfl

end Cursor

/-! ## Spots -/

theorem Role.alignment_pos (extended : Bool) (n : Option Nucleus) {alignment : Nat} {parts : List Part}
    (h : ofNucleus extended n = .item alignment parts) : 0 < alignment := by
  have hdata : ∀ name operands, 0 < Role.alignment name operands := by
    intro name operands
    unfold Role.alignment
    split <;> first | decide | exact Nat.two_pow_pos _
  unfold ofNucleus at h
  split at h
  case h_1 => cases h
  case h_2 =>
    split at h
    · cases h
      decide
    · cases h
  case h_3 name operands =>
    unfold ofDirective at h
    split at h
    · cases h
    · split at h
      · cases h
      split at h
      · split at h <;> cases h
      split at h
      · cases h
        exact hdata name operands
      · cases h

namespace Spot

variable {extended : Bool} {unit : Nat} {c : Cursor}

/-- Where a spot of some lines stands. -/
theorem mem_ofLines {lines : List TokenLine} {x : Spot} (h : x ∈ ofLines extended unit c lines) :
    x.unit = unit ∧ Statement.ofTokens x.line.tokens = .ok x.statement ∧
      x.role = .ofNucleus extended x.statement.nucleus ∧
      ∃ above, lines = above ++ x.line :: x.below ∧ x.cursor = c.through extended above := by
  induction lines generalizing c with
  | nil => cases h
  | cons line below ih =>
      rw [ofLines] at h
      split at h
      case h_1 s hs =>
        rcases List.mem_cons.mp h with rfl | h
        · exact ⟨rfl, hs, rfl, [], rfl, rfl⟩
        · obtain ⟨hunit, hstatement, hrole, above, rfl, hcursor⟩ := ih h
          refine ⟨hunit, hstatement, hrole, line :: above, rfl, ?_⟩
          rw [hcursor, Cursor.through_cons hs]
      case h_2 e he =>
        obtain ⟨hunit, hstatement, hrole, above, rfl, hcursor⟩ := ih h
        refine ⟨hunit, hstatement, hrole, line :: above, rfl, ?_⟩
        rw [hcursor, Cursor.through, he]

/-- Where a spot of some units stands. -/
theorem mem_ofUnits {units : List SourceUnit} {x : Spot} (h : x ∈ ofUnits extended unit c units) :
    ∃ before u after, units = before ++ u :: after ∧ x.unit = unit + before.length ∧
      x ∈ ofLines extended x.unit (c.throughUnits extended before).beginUnit u.expandedLines := by
  induction units generalizing unit c with
  | nil => cases h
  | cons u rest ih =>
      rcases List.mem_append.mp h with h | h
      · have hunit := (mem_ofLines h).1
        exact ⟨[], u, rest, rfl, hunit, hunit ▸ h⟩
      · obtain ⟨before, v, after, rfl, hunit, hx⟩ := ih h
        refine ⟨u :: before, v, after, rfl, ?_, hx⟩
        rw [hunit, List.length_cons]
        omega

theorem ofUnits_append (extended : Bool) (unit : Nat) (c : Cursor) (before rest : List SourceUnit) :
    ofUnits extended unit c (before ++ rest) = ofUnits extended unit c before ++
      ofUnits extended (unit + before.length) (c.throughUnits extended before) rest := by
  induction before generalizing unit c with
  | nil => rfl
  | cons u before ih =>
      have hunit : unit + (u :: before).length = unit + 1 + before.length := by
        rw [List.length_cons]
        omega
      rw [List.cons_append, ofUnits, ofUnits, ih, List.append_assoc, hunit]
      rfl

theorem alignment_pos {units : List SourceUnit} {x : Spot} (h : x ∈ ofUnits extended unit c units)
    {alignment : Nat} {parts : List Part} (hrole : x.role = .item alignment parts) : 0 < alignment := by
  obtain ⟨_, _, _, _, _, hx⟩ := mem_ofUnits h
  exact Role.alignment_pos _ _ ((mem_ofLines hx).2.2.1.symm.trans hrole)

/-- The spots of the last lines are spots of all lines. -/
theorem mem_ofLines_append {above rest : List TokenLine} {y : Spot}
    (hy : y ∈ ofLines extended unit (c.through extended above) rest) :
    y ∈ ofLines extended unit c (above ++ rest) := by
  induction above generalizing c with
  | nil => exact hy
  | cons line above ih =>
      rw [Cursor.through] at hy
      rw [List.cons_append, ofLines]
      split at hy
      · exact List.mem_cons_of_mem _ (ih hy)
      · exact ih hy

/-- The spots from a line on are spots of its unit. -/
theorem mem_ofLines_below {lines : List TokenLine} {x y : Spot}
    (hx : x ∈ ofLines extended unit c lines)
    (hy : y ∈ ofLines extended x.unit x.cursor (x.line :: x.below)) :
    y ∈ ofLines extended unit c lines := by
  obtain ⟨hunit, -, -, above, rfl, hcursor⟩ := mem_ofLines hx
  rw [hunit, hcursor] at hy
  exact mem_ofLines_append hy

/-- Where all lines are statements, each of them has its spot. -/
theorem lines_ofLines {lines : List TokenLine}
    (statements : ∀ line ∈ lines, ∃ s, Statement.ofTokens line.tokens = .ok s) (c : Cursor) :
    (ofLines extended unit c lines).map (fun x => (x.unit, x.line)) = lines.map (unit, ·) := by
  induction lines generalizing c with
  | nil => rfl
  | cons line below ih =>
      obtain ⟨⟨s, hs⟩, hbelow⟩ := List.forall_mem_cons.mp statements
      rw [ofLines, hs, List.map_cons, List.map_cons, ih hbelow]

theorem lines_ofUnits {units : List SourceUnit}
    (statements : ∀ u ∈ units, ∀ line ∈ u.expandedLines,
      ∃ s, Statement.ofTokens line.tokens = .ok s) (unit : Nat) (c : Cursor) :
    (ofUnits extended unit c units).map (fun x => (x.unit, x.line)) =
      (units.zipIdx unit).flatMap fun (u, k) => u.expandedLines.map (k, ·) := by
  induction units generalizing unit c with
  | nil => rfl
  | cons u rest ih =>
      obtain ⟨hu, hrest⟩ := List.forall_mem_cons.mp statements
      rw [ofUnits, List.map_append, lines_ofLines hu, ih hrest, List.zipIdx_cons, List.flatMap_cons]

/-! ## Spots one after the other -/

/-- The first spot begins at the positions `start`, each of the others where the one before leads to, and
the last one leads to the positions `stop`. -/
def Chained (start : Segment → Nat) : List Spot → (Segment → Nat) → Prop
  | [], stop => start = stop
  | x :: xs, stop => x.cursor.positions = start ∧ Chained (x.cursor.after x.role).positions xs stop

theorem chained_append {start stop : Segment → Nat} {xs ys : List Spot} :
    Chained start (xs ++ ys) stop ↔ ∃ between, Chained start xs between ∧ Chained between ys stop := by
  induction xs generalizing start with
  | nil => simp [Chained]
  | cons x xs ih => simp only [List.cons_append, Chained, ih, and_assoc, exists_and_left]

theorem chained_ofLines (extended : Bool) (unit : Nat) (c : Cursor) (lines : List TokenLine) :
    Chained c.positions (ofLines extended unit c lines) (c.through extended lines).positions := by
  induction lines generalizing c with
  | nil => rfl
  | cons line below ih =>
      rw [ofLines, Cursor.through]
      split
      · exact ⟨rfl, ih _⟩
      · exact ih c

/-- **The spots of units follow each other, also from one unit to the next.** -/
theorem chained_ofUnits (extended : Bool) (unit : Nat) (c : Cursor) (units : List SourceUnit) :
    Chained c.positions (ofUnits extended unit c units) (c.throughUnits extended units).positions := by
  induction units generalizing unit c with
  | nil => rfl
  | cons u rest ih =>
      exact chained_append.mpr ⟨_, chained_ofLines extended unit c.beginUnit u.expandedLines, ih _ _⟩

end Spot

/-! ## Parts one after the other -/

namespace Part

theorem mem_of_mem_locate {x : Nat} {parts : List Part} {a : Nat × Part} (h : a ∈ locate x parts) :
    a.2 ∈ parts := by
  induction parts generalizing x with
  | nil => cases h
  | cons part parts ih =>
      rcases List.mem_cons.mp h with rfl | h
      · exact List.mem_cons_self
      · exact List.mem_cons_of_mem _ (ih h)

/-- The words of an instruction have consecutive positions. -/
theorem positions_locate_words (x : Nat) (is : List SymbolicInstr) :
    (locate x (is.map .word)).map (·.1) = List.range' x is.length 4 := by
  induction is generalizing x with
  | nil => rfl
  | cons i is ih =>
      rw [List.map_cons, locate, List.map_cons, ih, List.length_cons, List.range'_succ]
      rfl

/-- Parts with positions from `low` up to `high` that follow each other without overlap. -/
structure Ordered (low : Nat) (parts : List (Nat × Part)) (high : Nat) : Prop where
  within : ∀ a ∈ parts, low ≤ a.1 ∧ a.1 + a.2.size ≤ high
  apart : parts.Pairwise fun a b => a.1 + a.2.size ≤ b.1
  le : low ≤ high

theorem Ordered.nil {low high : Nat} (h : low ≤ high) : Ordered low [] high :=
  ⟨by simp, .nil, h⟩

theorem Ordered.append {low mid high : Nat} {first second : List (Nat × Part)}
    (h : Ordered low first mid) (h' : Ordered mid second high) :
    Ordered low (first ++ second) high where
  within := by
    intro a ha
    have := h.le
    have := h'.le
    rcases List.mem_append.mp ha with ha | ha
    · have := h.within a ha
      omega
    · have := h'.within a ha
      omega
  apart := by
    refine List.pairwise_append.mpr ⟨h.apart, h'.apart, fun a ha b hb => ?_⟩
    exact Nat.le_trans (h.within a ha).2 (h'.within b hb).1
  le := Nat.le_trans h.le h'.le

theorem Ordered.from {low low' high : Nat} {parts : List (Nat × Part)} (h : Ordered low parts high)
    (hlow : low' ≤ low) : Ordered low' parts high := (Ordered.nil hlow).append h

theorem total_words (is : List SymbolicInstr) : total (is.map .word) = 4 * is.length := by
  induction is with
  | nil => rfl
  | cons i is ih =>
      rw [List.map_cons, total, ih, List.length_cons, Nat.mul_add, Nat.add_comm]
      rfl

theorem ordered_locate (x : Nat) (parts : List Part) : Ordered x (locate x parts) (x + total parts) := by
  induction parts generalizing x with
  | nil => exact .nil (Nat.le_add_right _ _)
  | cons part parts ih =>
      have hfirst : Ordered x [(x, part)] (x + part.size) :=
        ⟨by simp, List.pairwise_singleton _ _, Nat.le_add_right _ _⟩
      rw [total, ← Nat.add_assoc]
      exact hfirst.append (ih _)

end Part

namespace Spot

/-- The parts of some lines that go to a segment. -/
def partsIn (s : Segment) (xs : List Spot) : List (Nat × Part) :=
  xs.flatMap fun x => if x.cursor.segment = s then x.parts else []

theorem mem_partsIn {s : Segment} {xs : List Spot} {a : Nat × Part} :
    a ∈ partsIn s xs ↔ ∃ x ∈ xs, x.cursor.segment = s ∧ a ∈ x.parts := by
  simp only [partsIn, List.mem_flatMap]
  refine exists_congr fun x => and_congr_right fun _ => ?_
  split <;> simp_all

/-- The line moves a segment to a position. -/
def Relocates (x : Spot) (s : Segment) : Prop := x.role.moved? = some s

instance (x : Spot) (s : Segment) : Decidable (x.Relocates s) :=
  inferInstanceAs (Decidable (x.role.moved? = some s))

/-- A line that does not move a segment has all its parts there and leads to the position after them, or
it leaves the segment as it is. -/
theorem partsIn_single {x : Spot} {s : Segment} (stays : ¬ x.Relocates s) :
    (x.cursor.segment = s ∧ ∃ a parts, x.role = .item a parts ∧
      partsIn s [x] = Part.locate (roundUp (x.cursor.positions s) a) parts ∧
      (x.cursor.after x.role).positions s = roundUp (x.cursor.positions s) a + Part.total parts) ∨
    (partsIn s [x] = [] ∧ (x.cursor.after x.role).positions s = x.cursor.positions s) := by
  have hparts : partsIn s [x] = if x.cursor.segment = s then x.parts else [] := by simp [partsIn]
  rw [hparts, parts]
  cases hrole : x.role with
  | item a parts =>
      rw [Cursor.after, Cursor.positions_move]
      by_cases hs : x.cursor.segment = s
      · subst hs
        rw [if_pos rfl, if_pos rfl]
        exact .inl ⟨rfl, a, parts, rfl, rfl, rfl⟩
      · rw [if_neg hs, if_neg (Ne.symm hs)]
        exact .inr ⟨rfl, rfl⟩
  | select t position =>
      refine .inr ⟨ite_self _, ?_⟩
      cases position with
      | none => rfl
      | some n =>
          have hmoved : x.role.moved? = some t := by rw [hrole]; rfl
          exact if_neg fun hs : s = t => stays (hs ▸ hmoved)
  | exports | reserve | nothing => exact .inr ⟨ite_self _, rfl⟩

/-- A line has its parts in order, and leads to the position after them. -/
theorem ordered_parts {x : Spot} (aligned : ∀ a parts, x.role = .item a parts → 0 < a)
    {s : Segment} (stays : ¬ x.Relocates s) :
    Part.Ordered (x.cursor.positions s) (partsIn s [x]) ((x.cursor.after x.role).positions s) := by
  rcases partsIn_single stays with ⟨-, a, parts, hrole, hparts, hafter⟩ | ⟨hparts, hafter⟩
  · rw [hparts, hafter]
    exact (Part.ordered_locate _ parts).from (le_roundUp _ (aligned a parts hrole))
  · rw [hparts, hafter]
    exact .nil (Nat.le_refl _)

theorem partsIn_cons (s : Segment) (x : Spot) (xs : List Spot) :
    partsIn s (x :: xs) = partsIn s [x] ++ partsIn s xs := by
  rw [partsIn, partsIn, partsIn, ← List.flatMap_append, List.singleton_append]

/-- **Where no line moves a segment, its parts follow each other without overlap.** -/
theorem ordered_partsIn {s : Segment} {xs : List Spot}
    (aligned : ∀ x ∈ xs, ∀ a parts, x.role = .item a parts → 0 < a)
    (stays : ∀ x ∈ xs, ¬ x.Relocates s) {start stop : Segment → Nat} (chained : Chained start xs stop) :
    Part.Ordered (start s) (partsIn s xs) (stop s) := by
  induction xs generalizing start with
  | nil =>
      cases chained
      exact .nil (Nat.le_refl _)
  | cons x xs ih =>
      obtain ⟨rfl, hrest⟩ := chained
      have hfirst := ordered_parts (aligned x List.mem_cons_self) (stays x List.mem_cons_self)
      have hlater := ih (fun y hy => aligned y (List.mem_cons_of_mem x hy))
        (fun y hy => stays y (List.mem_cons_of_mem x hy)) hrest
      rw [partsIn_cons]
      exact hfirst.append hlater

end Spot

/-! ## Programs -/

namespace Assembly

/-- Where a program leads to. -/
def lastCursor (options : AssemblyOptions) (units : List SourceUnit) : Cursor :=
  (Cursor.initial options.layout).throughUnits options.extended units

/-- The spots of a unit that comes after other units. -/
def unitSpots (options : AssemblyOptions) (before : List SourceUnit) (u : SourceUnit) : List Spot :=
  Spot.ofLines options.extended before.length (lastCursor options before).beginUnit u.expandedLines

/-- The spots of a unit are those with its index. -/
theorem mem_unitSpots_iff {options : AssemblyOptions} {before after : List SourceUnit} {u : SourceUnit}
    {x : Spot} : x ∈ unitSpots options before u ↔
      x ∈ spots options (before ++ u :: after) ∧ x.unit = before.length := by
  rw [spots, Spot.ofUnits_append, Nat.zero_add, Spot.ofUnits, List.mem_append, List.mem_append]
  constructor
  · exact fun hx => ⟨.inr (.inl hx), (Spot.mem_ofLines hx).1⟩
  · rintro ⟨hx | hx | hx, hunit⟩
    · obtain ⟨first, v, rest, rfl, hindex, -⟩ := Spot.mem_ofUnits hx
      simp only [List.length_append, List.length_cons] at hunit
      omega
    · exact hx
    · obtain ⟨first, v, rest, -, hindex, -⟩ := Spot.mem_ofUnits hx
      omega

/-- The spots from a line of a program on are spots of the program. -/
theorem mem_spots_below {options : AssemblyOptions} {units : List SourceUnit} {x y : Spot}
    (hx : x ∈ spots options units)
    (hy : y ∈ Spot.ofLines options.extended x.unit x.cursor (x.line :: x.below)) :
    y ∈ spots options units := by
  obtain ⟨before, u, after, rfl, hunit, hmem⟩ := Spot.mem_ofUnits hx
  rw [Nat.zero_add] at hunit
  rw [hunit] at hmem
  exact (mem_unitSpots_iff.mp (Spot.mem_ofLines_below hmem hy)).1

/-- The spots of a program lead from its first cursor to its last one. -/
theorem chained_spots (options : AssemblyOptions) (units : List SourceUnit) :
    Spot.Chained (Cursor.initial options.layout).positions (spots options units)
      (lastCursor options units).positions :=
  Spot.chained_ofUnits options.extended 0 (.initial options.layout) units

variable {options : AssemblyOptions} {units : List SourceUnit}

/-- **Between two directives that move a segment, the parts in it follow each other without overlap**, also
from one unit to the next. -/
theorem ordered_between {before between after : List Spot}
    (hspots : spots options units = before ++ between ++ after) {s : Segment}
    (stays : ∀ x ∈ between, ¬ x.Relocates s) :
    (Spot.partsIn s between).Pairwise fun a b => a.1 + a.2.size ≤ b.1 := by
  have hchained := chained_spots options units
  rw [hspots] at hchained
  obtain ⟨_, hchained, -⟩ := Spot.chained_append.mp hchained
  obtain ⟨_, -, hchained⟩ := Spot.chained_append.mp hchained
  have haligned : ∀ x ∈ between, ∀ a parts, x.role = .item a parts → 0 < a := by
    intro x hx a parts hrole
    have hmem : x ∈ spots options units := by
      rw [hspots]
      exact List.mem_append_left _ (List.mem_append_right _ hx)
    exact Spot.alignment_pos hmem hrole
  exact (Spot.ordered_partsIn haligned stays hchained).apart

end Assembly

end MipsLab
