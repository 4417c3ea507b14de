import MipsLab.Proofs.MacroLabels

set_option autoImplicit false

/-!
# What a statement takes from its line

The places that a statement or an error in it points at are those of tokens of the line
(`Statement.exists_of_error`, `Statement.exists_of_label`, `Statement.exists_of_nucleus`), and the numbers in
its operands are written on the line (`Statement.forall_number`).
-/

namespace MipsLab

/-- The numbers in an operand: an immediate, or the offset of an address. -/
def Operand.number? : Operand → Option Int
  | imm value => some value
  | mem offset _ => some offset
  | label l => some l.offset
  | reg _ | str _ => none

/-- The operands of what a statement does. -/
def Nucleus.operands : Nucleus → List Operand
  | instr _ operands | directive _ operands => operands

namespace Statement

/-! ## Operands -/

/-- What becomes of tokens where an operand has to start: there is none, or a comma follows it that is the last
token, or more operands are read behind it. -/
theorem operandsFrom_zero_cases (t : LocatedToken) (rest : List LocatedToken) :
    (operandsFrom 0 (t :: rest) = .error (.unexpectedToken, t.span)) ∨
      (∃ u ∈ rest, operandsFrom 0 (t :: rest) = .error (.unexpectedToken, u.span)) ∨
        ∃ o extra k, operand? t.token rest = some (o, extra) ∧
          operandsFrom 0 (t :: rest) = (o :: ·) <$> operandsFrom k rest := by
  rw [operandsFrom]
  split
  case h_1 => exact .inl rfl
  case h_2 o extra hoperand =>
    split
    case h_1 hcomma =>
      have hmem := List.mem_of_mem_drop (hcomma ▸ List.mem_singleton_self _)
      exact .inr (.inl ⟨_, hmem, rfl⟩)
    case h_2 => exact .inr (.inr ⟨o, extra, extra + 1, hoperand, bind_pure_comp _ _⟩)
    case h_3 => exact .inr (.inr ⟨o, extra, extra, hoperand, bind_pure_comp _ _⟩)

/-- The error of operands is at one of their tokens. -/
theorem exists_of_operandsFrom_error {skip : Nat} {tokens : List LocatedToken} {e : EncodeError} {span : Span}
    (h : operandsFrom skip tokens = .error (e, span)) : ∃ t ∈ tokens, t.span = span := by
  induction tokens generalizing skip with
  | nil => cases h
  | cons t rest ih =>
      have hlater {k : Nat} (h : operandsFrom k rest = .error (e, span)) : ∃ u ∈ t :: rest, u.span = span := by
        obtain ⟨u, hu, hspan⟩ := ih h
        exact ⟨u, List.mem_cons_of_mem _ hu, hspan⟩
      cases skip with
      -- the token belongs to the operand in front of it
      | succ k => exact hlater h
      | zero =>
          rcases operandsFrom_zero_cases t rest with heq | ⟨u, hu, heq⟩ | ⟨o, _, k, -, heq⟩
          · cases heq.symm.trans h
            exact ⟨t, List.mem_cons_self, rfl⟩
          · cases heq.symm.trans h
            exact ⟨u, List.mem_cons_of_mem _ hu, rfl⟩
          · cases hrest : operandsFrom k rest with
            | error e' =>
                rw [heq, hrest] at h
                cases h
                exact hlater hrest
            | ok os =>
                rw [heq, hrest] at h
                cases h

/-- The number in an operand is written among its tokens, or there is none and it is zero. -/
theorem forall_number_of_operand? {P : Int → Prop} (zero : P 0) {t : Token} {rest : List LocatedToken}
    (first : ∀ n, t = .int n → P n) (later : ∀ u ∈ rest, ∀ n, u.token = .int n → P n) {o : Operand}
    {extra : Nat} (h : operand? t rest = some (o, extra)) : ∀ n ∈ o.number?, P n := by
  unfold operand? at h
  split at h
  · cases h
    exact nofun
  · cases h
    exact nofun
  · split at h <;> cases h <;> rintro _ ⟨⟩ <;> exact first _ rfl
  · split at h <;> cases h
    rintro _ ⟨⟩
    exact zero
  · split at h
    · cases h
      rintro _ ⟨⟩
      exact later _ (List.mem_cons_of_mem _ List.mem_cons_self) _ rfl
    · cases h
    · split at h <;> cases h <;> rintro _ ⟨⟩
      · exact later _ List.mem_cons_self _ rfl
      · exact zero
    · cases h
      rintro _ ⟨⟩
      exact zero
  · cases h

theorem forall_number_of_operandsFrom {P : Int → Prop} (zero : P 0) {skip : Nat} {tokens : List LocatedToken}
    (hP : ∀ t ∈ tokens, ∀ n, t.token = .int n → P n) {os : List Operand}
    (h : operandsFrom skip tokens = .ok os) : ∀ o ∈ os, ∀ n ∈ o.number?, P n := by
  induction tokens generalizing skip os with
  | nil =>
      cases h
      exact nofun
  | cons t rest ih =>
      obtain ⟨hfirst, hrest⟩ := List.forall_mem_cons.mp hP
      cases skip with
      | succ k => exact ih hrest h
      | zero =>
          rcases operandsFrom_zero_cases t rest with heq | ⟨u, -, heq⟩ | ⟨o, _, k, hoperand, heq⟩
          · cases heq.symm.trans h
          · cases heq.symm.trans h
          · have hnumber := forall_number_of_operand? zero hfirst hrest hoperand
            cases hk : operandsFrom k rest with
            | error e =>
                rw [heq, hk] at h
                cases h
            | ok later =>
                rw [heq, hk] at h
                cases h
                exact List.forall_mem_cons.mpr ⟨hnumber, ih hrest hk⟩

/-! ## Statements -/

/-- The error of a statement is at one of its tokens. -/
theorem exists_of_error {tokens : List LocatedToken} {e : EncodeError} {span : Span}
    (h : ofTokens tokens = .error (e, span)) : ∃ t ∈ tokens, t.span = span := by
  have hsplit := splitLabels_append tokens
  unfold ofTokens at h
  dsimp only at h
  split at h
  · cases h
  case h_2 first others hothers =>
    rw [hothers] at hsplit
    have hmem {t : LocatedToken} (ht : t ∈ first :: others) : t ∈ tokens :=
      hsplit ▸ List.mem_append_right _ ht
    cases hoperands : operands others with
    | error e' =>
        rw [hoperands] at h
        cases h
        obtain ⟨t, ht, hspan⟩ := exists_of_operandsFrom_error hoperands
        exact ⟨t, hmem (List.mem_cons_of_mem _ ht), hspan⟩
    | ok ops =>
        rw [hoperands] at h
        dsimp only [bind, Except.bind] at h
        split at h <;> cases h
        exact ⟨first, hmem List.mem_cons_self, rfl⟩

variable {tokens : List LocatedToken} {s : Statement} (h : ofTokens tokens = .ok s)
include h

/-- The labels of a statement are among its tokens. -/
theorem exists_of_label {label : String × Span} (hlabel : label ∈ s.labels) :
    ∃ t ∈ tokens, t.span = label.2 := by
  rw [labels_of_ofTokens h] at hlabel
  obtain ⟨t, ht, hname⟩ := List.mem_filterMap.mp hlabel
  refine ⟨t, ?_, ?_⟩
  · rw [← splitLabels_append tokens]
    exact List.mem_append_left _ ht
  · split at hname <;> cases hname
    rfl

/-- What a statement does starts at one of its tokens, and its operands are read from tokens behind it. -/
theorem exists_of_nucleus {nucleus : Nucleus} (hnucleus : s.nucleus = some nucleus) :
    ∃ first others, (splitLabels tokens).2 = first :: others ∧ s.span.start = first.span.start ∧
      operands others = .ok nucleus.operands := by
  unfold ofTokens at h
  dsimp only at h
  split at h
  · cases h
    cases hnucleus
  case h_2 first others hothers =>
    cases hoperands : operands others with
    | error e' =>
        rw [hoperands] at h
        cases h
    | ok ops =>
        rw [hoperands] at h
        dsimp only [bind, Except.bind] at h
        split at h <;> cases h <;> cases hnucleus <;> exact ⟨first, others, hothers, rfl, hoperands⟩

/-- **The numbers in the operands of a statement are written on its line**, but for those that are left out. -/
theorem forall_number {P : Int → Prop} (zero : P 0) (hP : ∀ t ∈ tokens, ∀ n, t.token = .int n → P n)
    {nucleus : Nucleus} (hnucleus : s.nucleus = some nucleus) :
    ∀ o ∈ nucleus.operands, ∀ n ∈ o.number?, P n := by
  obtain ⟨first, others, hothers, -, hoperands⟩ := exists_of_nucleus h hnucleus
  refine forall_number_of_operandsFrom zero (fun t ht => hP t ?_) hoperands
  rw [← splitLabels_append tokens, hothers]
  exact List.mem_append_right _ (List.mem_cons_of_mem _ ht)

end Statement

end MipsLab
