import Mathlib.Logic.Basic
import Mathlib.Tactic.Push
import MipsLab.Proofs.FirstPass
import MipsLab.Proofs.Parsing

set_option autoImplicit false

/-!
# What lines are warned of

Warnings depend on few things about a line: whether it has a label, an instruction or a data directive, whether
it is a segment directive or `.set`, and which of its numbers are too large. These are its marks. A segment
directive is warned of if no content follows it before the next one or the end of the unit (`Mark.unused`), and
the other warnings are those of single marks (`Mark.filter_not_isEmptySegment`).
-/

namespace MipsLab

/-! ## Marks -/

/-- A number does not fit the items of a data directive, neither signed nor unsigned. -/
def Exceeds (name : String) (value : Int) : Prop :=
  name = "half" ∧ ¬(-32768 ≤ value ∧ value ≤ 65535) ∨ name = "byte" ∧ ¬(-128 ≤ value ∧ value ≤ 255)

instance (name : String) (value : Int) : Decidable (Exceeds name value) := by
  unfold Exceeds
  infer_instance

/-- What matters for warnings. -/
inductive Mark where
  /-- A label, an instruction or a data directive. -/
  | content
  | segment (name : String) (site : Site)
  /-- A `.set` directive. -/
  | ignored (site : Site)
  /-- A number that does not fit. -/
  | truncated (name : String) (value : Int) (site : Site)
deriving DecidableEq, Repr

/-- The marks of the numbers among operands that do not fit. -/
def Mark.truncations (site : Site) (name : String) (operands : List Operand) : List Mark :=
  operands.filterMap fun
    | .imm value => if Exceeds name value then some (.truncated name value site) else none
    | _ => none

/-- The marks of what a statement does after its labels. -/
def Nucleus.marks (site : Site) : Nucleus → List Mark
  | .instr _ _ => [.content]
  | .directive name operands =>
    if (Segment.ofDirective? name).isSome then [.segment name site]
    else if name = "set" then [.ignored site]
    else if name ∈ Placement.dataDirectives then .content :: Mark.truncations site name operands
    else []

/-- The marks of a line: those of its labels come first. -/
def TokenLine.marks (line : TokenLine) : List Mark :=
  match Statement.ofTokens line.tokens with
  | .ok s =>
    s.labels.map (fun _ => .content) ++ s.nucleus.elim [] (Nucleus.marks ⟨line.source, s.span.start + 1⟩)
  | .error _ => []

/-- The marks of a unit, in the order of its expanded lines. -/
def SourceUnit.marks (u : SourceUnit) : List Mark := u.expandedLines.flatMap (·.marks)

namespace Mark

/-- Whether something is placed before the next segment directive or the end. -/
def isFollowed : List Mark → Bool
  | .content :: _ => true
  | .segment _ _ :: _ | [] => false
  | _ :: rest => isFollowed rest

/-- The segment directives behind which nothing is placed before the next one or the end. -/
def unused : List Mark → List (String × Site)
  | [] => []
  | .segment name site :: rest =>
    if isFollowed rest then unused rest else (name, site) :: unused rest
  | _ :: rest => unused rest

/-- The warning of a segment directive. -/
def emptySegment (s : String × Site) : Diagnostic := s.2.report (.warning (.emptySegment s.1))

/-- The warning that a mark gives on its own. -/
def warning? : Mark → Option Diagnostic
  | .ignored site => some (site.report (.warning .setIgnored))
  | .truncated name value site => some (site.report (.warning (.valueTruncated name value)))
  | _ => none

/-- The warnings in the order in which they are given, where a segment directive may be waiting for something to
follow it. -/
def warnings (waiting : Option (String × Site)) : List Mark → Diagnostics
  | [] => waiting.toList.map emptySegment
  | .content :: rest => warnings none rest
  | .segment name site :: rest =>
    waiting.toList.map emptySegment ++ warnings (some (name, site)) rest
  | mark :: rest => mark.warning?.toList ++ warnings waiting rest

end Mark

/-- A warning of a segment directive. -/
def Diagnostic.isEmptySegment (d : Diagnostic) : Bool :=
  match d.cause with
  | .warning (.emptySegment _) => true
  | _ => false

namespace Mark

/-- The warnings of segment directives are about the unused ones. -/
theorem filter_isEmptySegment (waiting : Option (String × Site)) (marks : List Mark) :
    (warnings waiting marks).filter (·.isEmptySegment) =
      (if isFollowed marks then [] else waiting.toList.map emptySegment) ++
        (unused marks).map emptySegment := by
  have hkept (w : Option (String × Site)) :
      (w.toList.map emptySegment).filter (·.isEmptySegment) = w.toList.map emptySegment := by
    cases w <;> rfl
  induction marks generalizing waiting with
  | nil => simp [warnings, isFollowed, unused, hkept]
  | cons mark rest ih =>
    cases mark with
    | content => simpa [warnings, isFollowed, unused] using ih none
    | segment name site =>
      rw [warnings, List.filter_append, ih, hkept]
      cases hrest : isFollowed rest <;> simp [isFollowed, unused, hrest]
    | ignored site => exact ih waiting
    | truncated name value site => exact ih waiting

/-- At the start of a unit, no segment directive is waiting. -/
theorem filter_isEmptySegment_none (marks : List Mark) :
    (warnings none marks).filter (·.isEmptySegment) = (unused marks).map emptySegment := by
  rw [filter_isEmptySegment, Option.toList_none, List.map_nil, ite_self, List.nil_append]

/-- The other warnings are those of single marks. -/
theorem filter_not_isEmptySegment (waiting : Option (String × Site)) (marks : List Mark) :
    (warnings waiting marks).filter (!·.isEmptySegment) = marks.filterMap warning? := by
  have hdropped (w : Option (String × Site)) :
      (w.toList.map emptySegment).filter (!·.isEmptySegment) = [] := by
    cases w <;> rfl
  induction marks generalizing waiting with
  | nil => exact hdropped waiting
  | cons mark rest ih =>
    cases mark with
    | content => exact ih none
    | segment name site => rw [warnings, List.filter_append, ih, hdropped]; rfl
    | ignored site => exact congrArg _ (ih waiting)
    | truncated name value site => exact congrArg _ (ih waiting)

/-- Without warnings, all segment directives are used and no mark gives a warning. -/
theorem warnings_eq_nil_iff {marks : List Mark} :
    warnings none marks = [] ↔ unused marks = [] ∧ ∀ m ∈ marks, m.warning? = none := by
  rw [← List.filterMap_eq_nil_iff, ← filter_not_isEmptySegment none marks,
    ← List.map_eq_nil_iff (f := emptySegment), ← filter_isEmptySegment_none]
  constructor
  · intro h
    rw [h]
    exact ⟨rfl, rfl⟩
  · rintro ⟨h, h'⟩
    rw [List.filter_eq_nil_iff] at h h'
    exact List.eq_nil_iff_forall_not_mem.mpr fun d hd => h' d hd (by simpa using h d hd)

theorem mem_of_mem_unused {marks : List Mark} {s : String × Site} (h : s ∈ unused marks) :
    .segment s.1 s.2 ∈ marks := by
  induction marks with
  | nil => cases h
  | cons mark rest ih =>
    cases mark with
    | segment name site =>
      rw [unused] at h
      split at h
      · exact List.mem_cons_of_mem _ (ih h)
      · rcases List.mem_cons.mp h with rfl | h
        · exact List.mem_cons_self
        · exact List.mem_cons_of_mem _ (ih h)
    | content | ignored | truncated => exact List.mem_cons_of_mem _ (ih h)

end Mark

/-! ## The places of warnings -/

/-- The line is a `.set` directive. -/
def TokenLine.IsSet (line : TokenLine) : Prop :=
  ∃ s operands, Statement.ofTokens line.tokens = .ok s ∧ s.nucleus = some (.directive "set" operands)

/-- The line is a `.half` or `.byte` directive with a number that does not fit. -/
def TokenLine.Truncates (line : TokenLine) : Prop :=
  ∃ s name operands value, Statement.ofTokens line.tokens = .ok s ∧
    s.nucleus = some (.directive name operands) ∧ .imm value ∈ operands ∧ Exceeds name value

theorem Mark.mem_truncations {site : Site} {name : String} {operands : List Operand} {m : Mark} :
    m ∈ truncations site name operands ↔
      ∃ value, .imm value ∈ operands ∧ Exceeds name value ∧ m = .truncated name value site := by
  rw [truncations, List.mem_filterMap]
  constructor
  · rintro ⟨o, ho, hm⟩
    cases o with
    | imm value =>
      dsimp only at hm
      split at hm
      case isTrue hvalue => exact ⟨value, ho, hvalue, (Option.some.inj hm).symm⟩
      case isFalse => cases hm
    | reg | label | mem | str => cases hm
  · rintro ⟨value, ho, hvalue, rfl⟩
    exact ⟨_, ho, if_pos hvalue⟩

/-- Where a mark of a statement comes from, if it is not just content. -/
theorem Nucleus.mem_marks_cases {site : Site} {n : Nucleus} {m : Mark} (h : m ∈ n.marks site) :
    m = .content ∨
      (∃ name operands, n = .directive name operands ∧ (Segment.ofDirective? name).isSome = true ∧
        m = .segment name site) ∨
      (∃ operands, n = .directive "set" operands ∧ m = .ignored site) ∨
      ∃ name operands value, n = .directive name operands ∧ .imm value ∈ operands ∧ Exceeds name value ∧
        m = .truncated name value site := by
  cases n with
  | instr => exact .inl (List.mem_singleton.mp h)
  | directive name operands =>
    rw [marks] at h
    by_cases hsegment : (Segment.ofDirective? name).isSome = true
    · rw [if_pos hsegment] at h
      exact .inr (.inl ⟨name, operands, rfl, hsegment, List.mem_singleton.mp h⟩)
    rw [if_neg hsegment] at h
    by_cases hset : name = "set"
    · rw [if_pos hset] at h
      exact .inr (.inr (.inl ⟨operands, hset ▸ rfl, List.mem_singleton.mp h⟩))
    rw [if_neg hset] at h
    by_cases hdata : name ∈ Placement.dataDirectives
    · rw [if_pos hdata] at h
      rcases List.mem_cons.mp h with hm | h
      · exact .inl hm
      · obtain ⟨value, ho, hvalue, hm⟩ := Mark.mem_truncations.mp h
        exact .inr (.inr (.inr ⟨name, operands, value, rfl, ho, hvalue, hm⟩))
    · rw [if_neg hdata] at h
      cases h

theorem Nucleus.truncated_mem_marks {site : Site} {name : String} {operands : List Operand} {value : Int}
    (ho : .imm value ∈ operands) (hvalue : Exceeds name value) :
    .truncated name value site ∈ marks site (.directive name operands) := by
  have hmarks : marks site (.directive name operands) =
      .content :: Mark.truncations site name operands := by
    rcases hvalue with ⟨rfl, -⟩ | ⟨rfl, -⟩ <;> rfl
  rw [hmarks]
  exact List.mem_cons_of_mem _ (Mark.mem_truncations.mpr ⟨value, ho, hvalue, rfl⟩)

namespace TokenLine

variable {line : TokenLine}

theorem mem_marks {s : Statement} {n : Nucleus} {m : Mark} (hs : Statement.ofTokens line.tokens = .ok s)
    (hn : s.nucleus = some n) (hm : m ∈ n.marks ⟨line.source, s.span.start + 1⟩) : m ∈ line.marks := by
  rw [marks, hs]
  refine List.mem_append_right _ ?_
  rwa [hn]

/-- Labels leave no marks but content. -/
theorem mem_marks_cases {m : Mark} (h : m ∈ line.marks) :
    m = .content ∨ ∃ s n, Statement.ofTokens line.tokens = .ok s ∧ s.nucleus = some n ∧
      m ∈ n.marks ⟨line.source, s.span.start + 1⟩ := by
  unfold marks at h
  split at h
  case h_1 s hs =>
    rcases List.mem_append.mp h with h | h
    · obtain ⟨-, -, rfl⟩ := List.mem_map.mp h
      exact .inl rfl
    · cases hn : s.nucleus with
      | none =>
        rw [hn] at h
        cases h
      | some n =>
        rw [hn] at h
        exact .inr ⟨s, n, hs, hn, h⟩
  case h_2 => cases h

/-- Only `.set` and numbers that do not fit give a warning on their own. -/
theorem exists_warning_iff : (∃ m ∈ line.marks, m.warning? ≠ none) ↔ line.IsSet ∨ line.Truncates := by
  constructor
  · rintro ⟨m, hm, hwarning⟩
    rcases mem_marks_cases hm with rfl | ⟨s, n, hs, hn, hm⟩
    · exact absurd rfl hwarning
    rcases Nucleus.mem_marks_cases hm with rfl | ⟨name, operands, rfl, -, rfl⟩ | ⟨operands, rfl, rfl⟩ |
      ⟨name, operands, value, rfl, ho, hvalue, rfl⟩
    · exact absurd rfl hwarning
    · exact absurd rfl hwarning
    · exact .inl ⟨s, operands, hs, hn⟩
    · exact .inr ⟨s, name, operands, value, hs, hn, ho, hvalue⟩
  · rintro (⟨s, operands, hs, hn⟩ | ⟨s, name, operands, value, hs, hn, ho, hvalue⟩)
    · exact ⟨_, mem_marks hs hn (List.mem_singleton_self _), nofun⟩
    · exact ⟨_, mem_marks hs hn (Nucleus.truncated_mem_marks ho hvalue), nofun⟩

end TokenLine

/-- A directive starts at its token. -/
theorem Statement.exists_of_directive {tokens : List LocatedToken} {s : Statement} (h : ofTokens tokens = .ok s)
    {name : String} {operands : List Operand} (hn : s.nucleus = some (.directive name operands)) :
    ∃ t ∈ tokens, t.token = .directive name ∧ t.span.start = s.span.start := by
  unfold ofTokens at h
  dsimp only at h
  split at h
  · cases h
    cases hn
  case h_2 first others hothers =>
    have hfirst : first ∈ tokens := by
      rw [← splitLabels_append tokens, hothers]
      exact List.mem_append_right _ List.mem_cons_self
    cases hoperands : Statement.operands others with
    | error e =>
      rw [hoperands] at h
      cases h
    | ok ops =>
      rw [hoperands] at h
      dsimp only [bind, Except.bind] at h
      split at h <;> cases h <;> cases hn
      case h_2 hdirective => exact ⟨first, hfirst, hdirective, rfl⟩

/-- An unused segment directive stands on an expanded line, and the warning points at its token. -/
theorem SourceUnit.exists_token_of_mem_unused {u : SourceUnit} {x : String × Site} (h : x ∈ Mark.unused u.marks) :
    (Segment.ofDirective? x.1).isSome = true ∧ ∃ line ∈ u.expandedLines, ∃ t ∈ line.tokens,
      t.token = .directive x.1 ∧ x.2 = ⟨line.source, t.span.start + 1⟩ := by
  obtain ⟨line, hline, hm⟩ := List.mem_flatMap.mp (Mark.mem_of_mem_unused h)
  obtain hcontent | ⟨s, n, hs, hn, hm⟩ := TokenLine.mem_marks_cases hm
  · cases hcontent
  rcases Nucleus.mem_marks_cases hm with hm | ⟨name, operands, rfl, hsegment, hm⟩ | ⟨_, _, hm⟩ |
    ⟨_, _, _, _, _, _, hm⟩
  · cases hm
  · obtain ⟨hname, hsite⟩ := Mark.segment.inj hm
    obtain ⟨t, ht, htoken, hstart⟩ := Statement.exists_of_directive hs hn
    exact ⟨hname ▸ hsegment, line, hline, t, ht, hname ▸ htoken, by rw [hsite, hstart]⟩
  · cases hm
  · cases hm

theorem SourceUnit.warnings_ne_nil_iff {u : SourceUnit} : Mark.warnings none u.marks ≠ [] ↔
    Mark.unused u.marks ≠ [] ∨ ∃ line ∈ u.expandedLines, line.IsSet ∨ line.Truncates := by
  rw [ne_eq, Mark.warnings_eq_nil_iff, not_and_or]
  refine or_congr Iff.rfl ?_
  push Not
  constructor
  · rintro ⟨m, hm, hwarning⟩
    obtain ⟨line, hline, hm⟩ := List.mem_flatMap.mp hm
    exact ⟨line, hline, TokenLine.exists_warning_iff.mp ⟨m, hm, hwarning⟩⟩
  · rintro ⟨line, hline, h⟩
    obtain ⟨m, hm, hwarning⟩ := TokenLine.exists_warning_iff.mpr h
    exact ⟨m, List.mem_flatMap.mpr ⟨line, hline, hm⟩, hwarning⟩

end MipsLab
