import MipsLab.Proofs.StatementTokens

set_option autoImplicit false

/-!
# Statements are read as they were written

A statement is written as its labels, each with a colon, and its name or directive with the operands as
listings show them. Reading such a line gives the statement back (`Statement.read_text`): no operand
takes up tokens of the next one, and none of its characters ends a string or the line too early.
The name of a directive ends at a dot, other than that of a label or an instruction.
-/

namespace MipsLab

open Lexer

/-! ## What can be written -/

/-- An operand that can be written: its numbers fit 32 bits, its label is a name, and its text consists
of printable characters and those that have an escape. -/
def Operand.Writable : Operand → Prop
  | reg _ => True
  | imm value => -2147483648 ≤ value ∧ value ≤ 4294967295
  | label l => isName l.name.toList = true ∧ -2147483648 ≤ l.offset ∧ l.offset ≤ 4294967295
  | mem offset _ => -2147483648 ≤ offset ∧ offset ≤ 4294967295
  | str text => text.toList.all Quoted.isPlain = true

instance : (o : Operand) → Decidable o.Writable
  | .reg _ => inferInstanceAs (Decidable True)
  | .imm _ | .mem _ _ => inferInstanceAs (Decidable (_ ∧ _))
  | .label _ => inferInstanceAs (Decidable (_ ∧ _ ∧ _))
  | .str _ => inferInstanceAs (Decidable (_ = true))

/-- An instruction or directive that can be written. The directive `eqv` is none of a statement: it
defines a constant. -/
def Nucleus.Writable : Nucleus → Prop
  | instr name operands => isName name.toList = true ∧ ∀ o ∈ operands, o.Writable
  | directive name operands =>
    isDirectiveName name.toList = true ∧ name ≠ "eqv" ∧ ∀ o ∈ operands, o.Writable

instance : (n : Nucleus) → Decidable n.Writable
  | .instr _ _ => inferInstanceAs (Decidable (_ ∧ _))
  | .directive _ _ => inferInstanceAs (Decidable (_ ∧ _ ∧ _))

/-- The gaps between the parts of a statement. Only that between a name and its first operand is
needed. -/
structure Spacing where
  afterColon : List Char
  afterName : List Char
  afterComma : List Char
  colon_gap : afterColon.all CharClass.isGap = true
  name_gap : afterName.all CharClass.isGap = true
  comma_gap : afterComma.all CharClass.isGap = true
  name_ne_nil : afterName ≠ []

namespace Spacing

/-- The labels, each with its colon. -/
def labelsText (s : Spacing) (labels : List String) : List Char :=
  labels.flatMap fun label => label.toList ++ ':' :: s.afterColon

/-- The operands behind a name, with commas between them. -/
def operandsText (s : Spacing) (operands : List Operand) : List Char :=
  if operands.isEmpty then []
  else s.afterName ++ (',' :: s.afterComma).intercalate (operands.map (·.text.toList))

/-- An instruction or directive with its operands. -/
def nucleusText (s : Spacing) : Nucleus → List Char
  | .instr name operands => name.toList ++ s.operandsText operands
  | .directive name operands => '.' :: (name.toList ++ s.operandsText operands)

/-- A statement. -/
def text (s : Spacing) (labels : List String) (nucleus : Option Nucleus) : List Char :=
  s.labelsText labels ++ nucleus.elim [] s.nucleusText

/-- One space in each gap. -/
def single : Spacing where
  afterColon := [' ']
  afterName := [' ']
  afterComma := [' ']
  colon_gap := by decide
  name_gap := by decide
  comma_gap := by decide
  name_ne_nil := by decide

end Spacing

/-! ## Tokens of what is written -/

theorem Operand.Writable.writes {o : Operand} (h : o.Writable) : Writes o.text o := by
  cases o with
  | reg r => exact .reg r
  | imm value => exact .decimal h
  | label l => exact .label h.1 h.2
  | mem offset base => exact .mem h base
  | str text => exact .str (List.all_eq_true.mp h)

theorem isNameRest_of_isGap {c : Char} (h : CharClass.isGap c = true) :
    CharClass.isNameRest c = false := by
  simp only [CharClass.isGap, Bool.or_eq_true, beq_iff_eq] at h
  rcases h with ((rfl | rfl) | rfl) | rfl <;> decide

namespace Spacing

variable (s : Spacing)

theorem stops_operandsText (operands : List Operand) : Stops (s.operandsText operands) := by
  rw [operandsText]
  split
  · exact stops_nil
  · obtain ⟨c, gap, hgap⟩ := List.exists_cons_of_ne_nil s.name_ne_nil
    have hc : CharClass.isGap c = true :=
      List.all_eq_true.mp s.name_gap c (hgap ▸ List.mem_cons_self)
    rw [hgap]
    exact stops_cons (isNameRest_of_isGap hc) _

theorem results_operandsText {operands : List Operand} (h : ∀ o ∈ operands, o.Writable) :
    results (s.operandsText operands) =
      ([Token.comma].intercalate (operands.map Operand.tokens)).map .ok := by
  have hwrites : List.Forall₂ Writes (operands.map Operand.text) operands := by
    rw [List.forall₂_map_left_iff, List.forall₂_same]
    exact fun o ho => (h o ho).writes
  rw [operandsText]
  split
  case isTrue hempty =>
    rw [List.isEmpty_iff.mp hempty]
    rfl
  case isFalse =>
    rw [results_gaps (List.all_eq_true.mp s.name_gap),
      ← results_intercalate (List.all_eq_true.mp s.comma_gap) hwrites, List.map_map]
    rfl

theorem results_nucleusText {n : Nucleus} (h : n.Writable) :
    results (s.nucleusText n) = n.tokens.map .ok := by
  cases n with
  | instr name operands =>
      obtain ⟨hname, hoperands⟩ := h
      rw [nucleusText, results_of_isName hname (s.stops_operandsText operands),
        s.results_operandsText hoperands, String.ofList_toList]
      rfl
  | directive name operands =>
      obtain ⟨hname, -, hoperands⟩ := h
      rw [nucleusText, results_directive hname (s.stops_operandsText operands),
        s.results_operandsText hoperands, String.ofList_toList]
      rfl

theorem results_labelsText {labels : List String} (h : ∀ l ∈ labels, isName l.toList = true)
    (rest : List Char) :
    results (s.labelsText labels ++ rest) = (labelTokens labels).map .ok ++ results rest := by
  induction labels with
  | nil => rfl
  | cons label labels ih =>
      obtain ⟨hlabel, hlabels⟩ := List.forall_mem_cons.mp h
      let more := s.labelsText labels ++ rest
      have hcolon : results (':' :: (s.afterColon ++ more)) = .ok .colon :: results more := by
        rw [← results_gaps (List.all_eq_true.mp s.colon_gap) more]
        exact results_single (by decide) rfl
      have hread := results_of_isName hlabel
        (stops_cons (c := ':') (by decide) (s.afterColon ++ more))
      rw [hcolon, ih hlabels, String.ofList_toList] at hread
      simpa [labelsText, labelTokens, more] using hread

theorem results_text {labels : List String} {nucleus : Option Nucleus}
    (hlabels : ∀ l ∈ labels, isName l.toList = true) (hnucleus : ∀ n ∈ nucleus, n.Writable) :
    results (s.text labels nucleus) = (Statement.tokens labels nucleus).map .ok := by
  rw [text, s.results_labelsText hlabels, Statement.tokens, List.map_append]
  cases nucleus with
  | none => rfl
  | some n =>
      rw [Option.elim_some, Option.elim_some, s.results_nucleusText (hnucleus n rfl)]

end Spacing

/-! ## Reading what is written -/

namespace Statement

theorem comment_notMem_tokens (labels : List String) (nucleus : Option Nucleus) :
    .comment ∉ tokens labels nucleus := by
  intro h
  rcases List.mem_append.mp h with h | h
  · obtain ⟨label, -, hlabel⟩ := List.mem_flatMap.mp h
    simp at hlabel
  · cases nucleus with
    | none => cases h
    | some n =>
        cases n with
        | instr name operands | directive name operands =>
            have hoperands := (List.mem_cons.mp h).resolve_left (by simp)
            exact (ne_of_mem_intercalate hoperands).2 rfl

theorem head?_tokens_ne {labels : List String} {nucleus : Option Nucleus}
    (h : ∀ n ∈ nucleus, n.Writable) :
    (tokens labels nucleus).head? ≠ some (.directive "eqv") := by
  cases labels with
  | cons label labels => simp [tokens, labelTokens_cons]
  | nil =>
      cases nucleus with
      | none => simp [tokens, labelTokens]
      | some n =>
          cases n with
          | instr name operands => simp [tokens, labelTokens, Nucleus.tokens]
          | directive name operands =>
              obtain ⟨-, hname, -⟩ := h _ rfl
              simpa [tokens, labelTokens, Nucleus.tokens] using hname

/-- **A statement is read as it was written**, with any gaps between its parts: reading the line gives
the same labels, and the same instruction or directive with the same operands. -/
theorem read_text (s : Spacing) {labels : List String} {nucleus : Option Nucleus}
    (hlabels : ∀ l ∈ labels, isName l.toList = true) (hnucleus : ∀ n ∈ nucleus, n.Writable)
    (file : String) (number : Nat) :
    ∃ line statement,
      TokenLine.read [] ⟨file, number, String.ofList (s.text labels nucleus)⟩ = .ok (line, []) ∧
      ofTokens line.tokens = .ok statement ∧
      statement.labels.map Prod.fst = labels ∧ statement.nucleus = nucleus := by
  have hresults := s.results_text hlabels hnucleus
  rw [← @String.toList_ofList (s.text labels nucleus)] at hresults
  obtain ⟨ts, hread, htokens⟩ := TokenLine.read_of_results
    ⟨file, number, String.ofList (s.text labels nucleus)⟩ hresults
    (comment_notMem_tokens labels nucleus) (head?_tokens_ne hnucleus)
  obtain ⟨statement, hstatement, hlabels, hnucleus⟩ := ofTokens_tokens htokens
  exact ⟨_, statement, hread, hstatement, hlabels, hnucleus⟩

/-- Neither a sign nor a quotation mark nor a comma in a string misleads the reader. -/
theorem read_text_allOperands :
    let operands : List Operand := [.label ⟨"x.y", 0⟩, .imm (-1), .label ⟨"z", -4⟩,
      .mem (-2147483648) .sp, .label ⟨"z", 4294967295⟩, .str "#\", \t", .reg .ra]
    Spacing.single.text ["a", "b.c"] (some (.directive "word" operands)) =
        "a: b.c: .word x.y, -1, z-4, -2147483648($sp), z+4294967295, \"#\\\", \\t\", $ra".toList ∧
      (∀ l ∈ ["a", "b.c"], isName l.toList = true) ∧ (Nucleus.directive "word" operands).Writable ∧
      ∃ line statement,
        TokenLine.read [] ⟨"a.s", 1, String.ofList
          (Spacing.single.text ["a", "b.c"] (some (.directive "word" operands)))⟩ = .ok (line, []) ∧
        ofTokens line.tokens = .ok statement ∧ statement.labels.map Prod.fst = ["a", "b.c"] ∧
        statement.nucleus = some (.directive "word" operands) := by
  intro operands
  have hlabels : ∀ l ∈ ["a", "b.c"], isName l.toList = true := by decide +kernel
  have hnucleus : (Nucleus.directive "word" operands).Writable := by decide +kernel
  have hall : ∀ n ∈ some (Nucleus.directive "word" operands), n.Writable := by
    rintro n ⟨⟩
    exact hnucleus
  exact ⟨by decide +kernel, hlabels, hnucleus, read_text .single hlabels hall "a.s" 1⟩

/-- A dot ends the name of a directive, and the directive that begins there is no operand. -/
theorem not_read_text_dotted :
    ¬ ∀ name : String, isName name.toList = true →
      (name.toList.all fun c => isSmall c || c == '.') = true → name ≠ "eqv" → ∃ line statement,
        TokenLine.read [] ⟨"a.s", 1, String.ofList
          (Spacing.single.text [] (some (.directive name [])))⟩ = .ok (line, []) ∧
        ofTokens line.tokens = .ok statement ∧
        statement.labels.map Prod.fst = [] ∧ statement.nucleus = some (.directive name []) := by
  intro h
  have hread : (TokenLine.read [] ⟨"a.s", 1, String.ofList
      (Spacing.single.text [] (some (.directive "a.b" [])))⟩).toOption.map (·.1.tokens) =
        some [⟨.directive "a", ⟨0, 2⟩⟩, ⟨.directive "b", ⟨2, 4⟩⟩] := by decide +kernel
  obtain ⟨line, statement, hline, hstatement, -, -⟩ :=
    h "a.b" (by decide +kernel) (by decide +kernel) (by decide)
  rw [hline] at hread
  cases (Option.some.inj hread : line.tokens = _) ▸ hstatement

end Statement

end MipsLab
