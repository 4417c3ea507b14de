import MipsLab.Proofs.FirstPass

set_option autoImplicit false

/-!
# What a line places

A line that is placed without errors puts the machine instructions of its written one at consecutive
words (`mem_instrs_placeLine`), and reserves consecutive words for the labels of a `.word` directive
(`mem_labelWords_placeLine`). In both cases the first word is the next one from the address that was
reached.
-/

namespace MipsLab.Placement

/-! ## Instructions -/

theorem instrs_placeWords (line : TokenLine) (column : Nat) (is : List SymbolicInstr) (p : Placement) :
    (is.foldl (placeWord line column) p).instrs.toList = p.instrs.toList ++ is.mapIdx fun k i =>
      ⟨p.locals.size, line, column, p.here + BitVec.ofNat 32 (4 * k), i⟩ := by
  induction is generalizing p with
  | nil => simp
  | cons i is ih =>
      have hhere : (placeWord line column p i).here = p.here + 4 := here_moveTo _ _
      have hinstrs : (placeWord line column p i).instrs =
          p.instrs.push ⟨p.locals.size, line, column, p.here, i⟩ := rfl
      have hlocals : (placeWord line column p i).locals = p.locals := rfl
      rw [List.foldl_cons, ih, hhere, hinstrs, hlocals, Array.toList_push, List.append_assoc,
        List.mapIdx_cons]
      simp only [add_four_add, Nat.mul_zero, BitVec.add_zero, List.singleton_append]

theorem placeInstr_of_spares {p : Placement} {line : TokenLine} {column : Nat} {name : String}
    {operands : List Operand} (spares : (p.placeInstr line column name operands).Spares ⟨line.source, column⟩) :
    ∃ is, lower name operands p.extended = .ok is ∧
      p.placeInstr line column name operands =
        is.foldl (placeWord line column) (p.markUsed.alignTo 4) := by
  unfold placeInstr at spares ⊢
  dsimp only at spares ⊢
  split at spares
  case isTrue => exact absurd spares (not_spares_report p _ rfl)
  case isFalse htext =>
    rw [if_neg htext]
    split at spares
    case h_1 => exact absurd spares (not_spares_report p _ rfl)
    case h_2 is hlower =>
      rw [hlower]
      exact ⟨is, rfl, rfl⟩

/-! ## Words for labels -/

/-- An item of a `.word` directive takes four bytes. -/
theorem here_placeWordItem? {site : Site} {p q : Placement} {operand : Operand}
    (h : placeWordItem? site p operand = some q) (clean : q.Clean) :
    q.here = p.here + 4 ∧ q.locals = p.locals := by
  unfold placeWordItem? at h
  split at h
  case h_1 | h_2 =>
    cases h
    rw [(placeBytes_of_clean clean).2.2]
    exact ⟨here_moveTo _ _, rfl⟩
  case h_3 => cases h

/-- A label among the items of a `.word` directive has its word at the place of the item. -/
theorem mem_labelWords_placeItems {name : String} {site : Site} {p : Placement}
    {operands : List Operand} (clean : (placeItems name site (placeWordItem? site) p operands).Clean)
    {k : Nat} {l : LabelRef} (hl : operands[k]? = some (.label l)) :
    ⟨p.locals.size, site, p.here + BitVec.ofNat 32 (4 * k), l⟩ ∈
      (placeItems name site (placeWordItem? site) p operands).labelWords.toList := by
  induction operands generalizing p k with
  | nil => cases hl
  | cons operand rest ih =>
      rw [placeItems] at clean ⊢
      split at clean
      case h_2 => exact absurd clean (not_clean_report p site rfl)
      case h_1 q hq =>
        have hextends : Extends q (placeItems name site (placeWordItem? site) q rest) :=
          (pass_of_moves (moves_placeItems moves_placeWordItem? q rest)).extends
        cases k with
        | zero =>
            obtain rfl := Option.some.inj hl
            cases hq
            -- the word is noted before its bytes are placed, and what was noted stays
            refine ((extends_placeBytes _ _ _).trans hextends).labelWords.subset ?_
            rw [Nat.mul_zero, BitVec.add_zero]
            exact Array.mem_toList_iff.mpr Array.mem_push_self
        | succ k =>
            obtain ⟨hhere, hlocals⟩ := here_placeWordItem? hq (hextends.clean clean)
            have hmem := ih clean (k := k) hl
            rwa [hhere, hlocals, add_four_add] at hmem

theorem directive_word (p : Placement) (site : Site) (operands : List Operand) :
    p.directive site "word" operands =
      if p.unit.segment.isText then p.report site (.encoding .dataInText)
      else placeItems "word" site (placeWordItem? site) (p.markUsed.alignTo 4) operands := by
  rfl

/-! ## Lines -/

theorem here_awaitLabels (p : Placement) (line : TokenLine) (labels : List (String × Span)) :
    (p.awaitLabels line labels).here = p.here := by
  induction labels generalizing p with
  | nil => rfl
  | cons label labels ih => exact ih _

/-- An item that is a multiple of four long goes to the next word from the address reached before
its line. -/
theorem alignTo_awaitLabels (p : Placement) (line : TokenLine) (labels : List (String × Span)) :
    PlacesNothing p ((p.awaitLabels line labels).markUsed.alignTo 4) ∧
      ((p.awaitLabels line labels).markUsed.alignTo 4).here = Word.alignUp p.here 4 := by
  have hused : PlacesNothing (p.awaitLabels line labels) (p.awaitLabels line labels).markUsed :=
    .of_output_eq (by rfl)
  refine ⟨((PlacesNothing.awaitLabels p line labels).trans hused).trans (.alignTo _ 4), ?_⟩
  rw [here_alignTo]
  exact congrArg (Word.alignUp · 4) (here_awaitLabels p line labels)

theorem placeLine_eq {p : Placement} {line : TokenLine} {s : Statement}
    (hs : Statement.ofTokens line.tokens = .ok s) :
    p.placeLine line = match s.nucleus with
      | none => p.awaitLabels line s.labels
      | some (.instr name operands) =>
          (p.awaitLabels line s.labels).placeInstr line (s.span.start + 1) name operands
      | some (.directive name operands) =>
          (p.awaitLabels line s.labels).directive ⟨line.source, s.span.start + 1⟩ name operands := by
  rw [placeLine, hs]
  rfl

section Line

variable {p : Placement} {line : TokenLine} {s : Statement}
  (hs : Statement.ofTokens line.tokens = .ok s) (clean : (p.placeLine line).Clean)
include hs clean

/-- **The machine instructions of a line stand at consecutive words.** -/
theorem mem_instrs_placeLine {name : String} {operands : List Operand}
    (hn : s.nucleus = some (.instr name operands)) :
    ∃ is column, lower name operands p.extended = .ok is ∧ ∀ k i, is[k]? = some i →
      ⟨p.locals.size, line, column, Word.alignUp p.here 4 + BitVec.ofNat 32 (4 * k), i⟩ ∈
        (p.placeLine line).instrs.toList := by
  rw [placeLine_eq hs, hn] at clean ⊢
  dsimp only at clean ⊢
  obtain ⟨is, hlower, hplaced⟩ := placeInstr_of_spares (clean.spares _)
  obtain ⟨haligned, hhere⟩ := alignTo_awaitLabels p line s.labels
  rw [(PlacesNothing.awaitLabels p line s.labels).extended] at hlower
  refine ⟨is, s.span.start + 1, hlower, ?_⟩
  intro k i hi
  rw [hplaced, instrs_placeWords, hhere, haligned.locals]
  apply List.mem_append_right
  exact List.mem_iff_getElem?.mpr ⟨k, by rw [List.getElem?_mapIdx, hi, Option.map_some]⟩

/-- **The words for labels of a line stand at the places of their items.** -/
theorem mem_labelWords_placeLine {operands : List Operand}
    (hn : s.nucleus = some (.directive "word" operands)) {k : Nat} {l : LabelRef}
    (hl : operands[k]? = some (.label l)) :
    ∃ site, ⟨p.locals.size, site, Word.alignUp p.here 4 + BitVec.ofNat 32 (4 * k), l⟩ ∈
      (p.placeLine line).labelWords.toList := by
  rw [placeLine_eq hs, hn] at clean ⊢
  dsimp only at clean ⊢
  rw [directive_word] at clean ⊢
  split at clean
  case isTrue => exact absurd clean (not_clean_report _ _ rfl)
  case isFalse hdata =>
    rw [if_neg hdata]
    obtain ⟨haligned, hhere⟩ := alignTo_awaitLabels p line s.labels
    have hmem := mem_labelWords_placeItems clean hl
    rw [hhere, haligned.locals] at hmem
    exact ⟨_, hmem⟩

end Line

end MipsLab.Placement
