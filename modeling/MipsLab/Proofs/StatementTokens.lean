import MipsLab.Proofs.Spelling
import MipsLab.Statement

set_option autoImplicit false

/-!
# Statements are read back from their tokens

The tokens of a statement are its labels, each with a colon, and then a name or a directive with its
operands, which have commas between them. From these tokens the same statement is read
(`Statement.ofTokens_tokens`): a comma ends an operand, whatever the next one starts with.
-/

namespace MipsLab

open Lexer

/-! ## Operands -/

namespace Statement

/-- A label is read from its tokens, if what follows is no number that could be its offset. -/
theorem operand?_label {l : LabelRef} {t : LocatedToken} {others : List LocatedToken}
    (h : (t :: others).map (·.token) = l.tokens) (rest : List LocatedToken)
    (hrest : ∀ u ∈ rest.head?, u.token = .comma) :
    operand? t.token (others ++ rest) = some (.label l, others.length) := by
  obtain ⟨name, offset⟩ := l
  obtain ⟨token, span⟩ := t
  rw [LabelRef.tokens] at h
  by_cases hzero : offset = 0
  · subst hzero
    rw [if_pos rfl] at h
    obtain ⟨rfl, hothers⟩ := List.cons.inj h
    cases List.map_eq_nil_iff.mp hothers
    cases rest with
    | nil => rfl
    | cons u rest =>
        obtain ⟨_, _⟩ := u
        cases hrest _ rfl
        rfl
  rw [if_neg hzero] at h
  by_cases hpos : 0 < offset
  · rw [if_pos hpos] at h
    obtain ⟨rfl, hothers⟩ := List.cons.inj h
    obtain ⟨⟨_, _⟩, more, rfl, rfl, hmore⟩ := List.map_eq_cons_iff.mp hothers
    obtain ⟨⟨_, _⟩, last, rfl, rfl, hlast⟩ := List.map_eq_cons_iff.mp hmore
    cases List.map_eq_nil_iff.mp hlast
    rfl
  · rw [if_neg hpos] at h
    obtain ⟨rfl, hothers⟩ := List.cons.inj h
    obtain ⟨⟨_, _⟩, more, rfl, rfl, hmore⟩ := List.map_eq_cons_iff.mp hothers
    cases List.map_eq_nil_iff.mp hmore
    exact if_pos (show offset < 0 by omega)

/-- An operand is read from its tokens, if what follows is a comma or nothing. -/
theorem operand?_tokens {o : Operand} {t : LocatedToken} {others : List LocatedToken}
    (h : (t :: others).map (·.token) = o.tokens) (rest : List LocatedToken)
    (hrest : ∀ u ∈ rest.head?, u.token = .comma) :
    operand? t.token (others ++ rest) = some (o, others.length) := by
  have hbase : base? rest = none := by
    unfold base?
    split
    case h_1 => cases hrest _ rfl
    case h_2 => rfl
  obtain ⟨token, span⟩ := t
  cases o with
  | reg | str =>
      obtain ⟨rfl, hothers⟩ := List.cons.inj h
      cases List.map_eq_nil_iff.mp hothers
      rfl
  | imm =>
      obtain ⟨rfl, hothers⟩ := List.cons.inj h
      cases List.map_eq_nil_iff.mp hothers
      simp [operand?, hbase]
  | label l => exact operand?_label h rest hrest
  | mem =>
      obtain ⟨rfl, hothers⟩ := List.cons.inj h
      obtain ⟨⟨_, _⟩, more, rfl, rfl, hmore⟩ := List.map_eq_cons_iff.mp hothers
      obtain ⟨⟨_, _⟩, last, rfl, rfl, hlast⟩ := List.map_eq_cons_iff.mp hmore
      obtain ⟨⟨_, _⟩, none, rfl, rfl, hnone⟩ := List.map_eq_cons_iff.mp hlast
      cases List.map_eq_nil_iff.mp hnone
      rfl

theorem operandsFrom_skip {n : Nat} {xs : List LocatedToken} (h : xs.length = n)
    (ys : List LocatedToken) : operandsFrom n (xs ++ ys) = operandsFrom 0 ys := by
  induction xs generalizing n with
  | nil => cases h; rfl
  | cons x xs ih => cases h; exact ih rfl

theorem tokens_ne_nil (o : Operand) : o.tokens ≠ [] := by
  cases o with
  | label l =>
      rw [Operand.tokens, LabelRef.tokens]
      split
      · exact List.cons_ne_nil _ _
      · split <;> exact List.cons_ne_nil _ _
  | _ => exact List.cons_ne_nil _ _

theorem operandsFrom_last {o : Operand} {ts : List LocatedToken}
    (h : ts.map (·.token) = o.tokens) : operandsFrom 0 ts = .ok [o] := by
  cases ts with
  | nil => exact absurd h.symm (tokens_ne_nil o)
  | cons t others =>
      have hread : operand? t.token others = some (o, others.length) := by
        simpa using operand?_tokens h [] (by simp)
      have hskip : operandsFrom others.length others = .ok [] := by
        simpa [operandsFrom] using @operandsFrom_skip _ others rfl []
      rw [operandsFrom, hread]
      simp only [List.drop_length, hskip]
      rfl

theorem operandsFrom_comma {o : Operand} {ts more : List LocatedToken} {span : Span}
    (h : ts.map (·.token) = o.tokens) (hmore : more ≠ []) :
    operandsFrom 0 (ts ++ ⟨.comma, span⟩ :: more) = (operandsFrom 0 more).map (o :: ·) := by
  cases ts with
  | nil => exact absurd h.symm (tokens_ne_nil o)
  | cons t others =>
      obtain ⟨u, us, rfl⟩ := List.exists_cons_of_ne_nil hmore
      have hread : operand? t.token (others ++ ⟨.comma, span⟩ :: u :: us) = some (o, others.length) :=
        operand?_tokens h _ (by simp)
      have hskip : operandsFrom (others.length + 1) (others ++ ⟨.comma, span⟩ :: u :: us) =
          operandsFrom 0 (u :: us) := by
        rw [List.append_cons]
        exact operandsFrom_skip (by simp) (u :: us)
      rw [List.cons_append, operandsFrom, hread]
      simp only [List.drop_left, hskip]
      cases operandsFrom 0 (u :: us) <;> rfl

/-- Operands are read from their tokens with commas between them. -/
theorem operands_tokens {os : List Operand} {ts : List LocatedToken}
    (h : ts.map (·.token) = [Token.comma].intercalate (os.map Operand.tokens)) :
    operands ts = .ok os := by
  induction os generalizing ts with
  | nil =>
      cases List.map_eq_nil_iff.mp h
      rfl
  | cons o os ih =>
      cases os with
      | nil => exact operandsFrom_last (by simpa using h)
      | cons o' os =>
          rw [List.map_cons, List.map_cons, List.intercalate_cons_cons, List.append_assoc] at h
          obtain ⟨first, others, rfl, hfirst, hothers⟩ := List.map_eq_append_iff.mp h
          obtain ⟨⟨_, _⟩, more, rfl, rfl, hmore⟩ := List.map_eq_cons_iff.mp hothers
          have hne : more ≠ [] := by
            rintro rfl
            cases os <;> simp [tokens_ne_nil] at hmore
          have hread : operandsFrom 0 more = .ok (o' :: os) := ih hmore
          rw [operands, operandsFrom_comma hfirst hne, hread]
          rfl

/-- The tokens of operands are neither a colon nor a comment. -/
theorem ne_of_mem_intercalate {os : List Operand} {t : Token}
    (h : t ∈ [Token.comma].intercalate (os.map Operand.tokens)) : t ≠ .colon ∧ t ≠ .comment := by
  have hfirst (o : Operand) (ht : t ∈ o.tokens) : t ≠ .colon ∧ t ≠ .comment := by
    cases o with
    | label l => grind [Operand.tokens, LabelRef.tokens]
    | _ =>
        simp [Operand.tokens] at ht
        grind
  induction os with
  | nil => cases h
  | cons o os ih =>
      cases os with
      | nil => exact hfirst o (by simpa using h)
      | cons o' os =>
          rw [List.map_cons, List.map_cons, List.intercalate_cons_cons, List.mem_append,
            List.mem_append, List.mem_singleton] at h
          rcases h with (h | rfl) | h
          · exact hfirst o h
          · exact ⟨by simp, by simp⟩
          · exact ih h

end Statement

/-! ## Labels -/

/-- The tokens of some labels, each with its colon. -/
def labelTokens (labels : List String) : List Token := labels.flatMap fun label => [.name label, .colon]

theorem labelTokens_cons (label : String) (labels : List String) :
    labelTokens (label :: labels) = .name label :: .colon :: labelTokens labels := rfl

/-- Labels end in front of tokens that do not begin with a name and a colon. -/
theorem splitLabels_tokens {labels : List String} {rest : List Token} {ts : List LocatedToken}
    (h : ts.map (·.token) = labelTokens labels ++ rest)
    (hrest : ∀ name more, rest ≠ .name name :: .colon :: more) :
    ∃ before after, splitLabels ts = (before, after) ∧
      before.map (·.token) = labelTokens labels ∧ after.map (·.token) = rest := by
  induction labels generalizing ts with
  | nil =>
      refine ⟨[], ts, ?_, rfl, h⟩
      unfold splitLabels
      split
      case h_1 => exact absurd h.symm (hrest _ _)
      case h_2 => rfl
  | cons label labels ih =>
      rw [labelTokens_cons, List.cons_append, List.cons_append] at h
      obtain ⟨⟨_, nameSpan⟩, _, rfl, rfl, hcolon⟩ := List.map_eq_cons_iff.mp h
      obtain ⟨⟨_, colonSpan⟩, others, rfl, rfl, hothers⟩ := List.map_eq_cons_iff.mp hcolon
      obtain ⟨before, after, hsplit, hbefore, hafter⟩ := ih hothers
      refine ⟨⟨.name label, nameSpan⟩ :: ⟨.colon, colonSpan⟩ :: before, after, ?_, ?_, hafter⟩
      · rw [splitLabels, hsplit]
      · rw [List.map_cons, List.map_cons, hbefore, labelTokens_cons]

theorem map_fst_namesIn {labels : List String} {ts : List LocatedToken}
    (h : ts.map (·.token) = labelTokens labels) : (namesIn ts).map Prod.fst = labels := by
  induction labels generalizing ts with
  | nil =>
      cases List.map_eq_nil_iff.mp h
      rfl
  | cons label labels ih =>
      rw [labelTokens_cons] at h
      obtain ⟨⟨_, nameSpan⟩, _, rfl, rfl, hcolon⟩ := List.map_eq_cons_iff.mp h
      obtain ⟨⟨_, colonSpan⟩, others, rfl, rfl, hothers⟩ := List.map_eq_cons_iff.mp hcolon
      show label :: (namesIn others).map Prod.fst = label :: labels
      rw [ih hothers]

/-! ## Reading a statement -/

/-- The tokens of what a statement does. -/
def Nucleus.tokens : Nucleus → List Token
  | instr name os => .name name :: [Token.comma].intercalate (os.map Operand.tokens)
  | directive name os => .directive name :: [Token.comma].intercalate (os.map Operand.tokens)

namespace Statement

/-- The tokens of a statement. -/
def tokens (labels : List String) (nucleus : Option Nucleus) : List Token :=
  labelTokens labels ++ nucleus.elim [] Nucleus.tokens

/-- A statement is read from its tokens. -/
theorem ofTokens_tokens {labels : List String} {nucleus : Option Nucleus} {ts : List LocatedToken}
    (h : ts.map (·.token) = tokens labels nucleus) :
    ∃ s, ofTokens ts = .ok s ∧ s.labels.map Prod.fst = labels ∧ s.nucleus = nucleus := by
  -- a name that is no label is not followed by a colon, but by an operand or nothing
  have hend : ∀ name more, nucleus.elim [] Nucleus.tokens ≠ .name name :: .colon :: more := by
    intro name more h
    cases nucleus with
    | none => cases h
    | some n =>
        cases n with
        | instr name' os =>
            obtain ⟨-, hcolon⟩ := List.cons.inj h
            have hmem : Token.colon ∈ [Token.comma].intercalate (os.map Operand.tokens) := by
              rw [hcolon]
              exact List.mem_cons_self
            exact (ne_of_mem_intercalate hmem).1 rfl
        | directive name' os => cases h
  obtain ⟨before, after, hsplit, hbefore, hafter⟩ := splitLabels_tokens h hend
  have hlabels := map_fst_namesIn hbefore
  rw [ofTokens, hsplit]
  cases nucleus with
  | none =>
      cases List.map_eq_nil_iff.mp hafter
      exact ⟨_, rfl, hlabels, rfl⟩
  | some n =>
      cases n with
      | instr name os | directive name os =>
          obtain ⟨⟨_, span⟩, others, rfl, rfl, hothers⟩ := List.map_eq_cons_iff.mp hafter
          simp only [operands_tokens hothers]
          exact ⟨_, rfl, hlabels, rfl⟩

/-- A statement is read from a name that is no label and the operands after it. -/
theorem ofTokens_instr {name : String} {os : List Operand} {ts : List LocatedToken}
    (h : ts.map (·.token) = .name name :: [Token.comma].intercalate (os.map Operand.tokens)) :
    ∃ s, ofTokens ts = .ok s ∧ s.labels = [] ∧ s.nucleus = some (.instr name os) := by
  obtain ⟨s, hs, hlabels, hnucleus⟩ := @ofTokens_tokens [] (some (.instr name os)) ts h
  exact ⟨s, hs, List.map_eq_nil_iff.mp hlabels, hnucleus⟩

end Statement

/-! ## Reading a line -/

theorem exists_located {lexemes : List (Except LexError Token × Span)} {tokens : List Token}
    (h : lexemes.map (·.1) = tokens.map .ok) : ∃ ts : List LocatedToken,
      lexemes = ts.map (fun t => (.ok t.token, t.span)) ∧ ts.map (·.token) = tokens := by
  induction tokens generalizing lexemes with
  | nil =>
      cases List.map_eq_nil_iff.mp h
      exact ⟨[], rfl, rfl⟩
  | cons t tokens ih =>
      obtain ⟨⟨_, span⟩, more, rfl, rfl, hmore⟩ := List.map_eq_cons_iff.mp h
      obtain ⟨ts, rfl, rfl⟩ := ih hmore
      exact ⟨⟨t, span⟩ :: ts, rfl, rfl⟩

namespace TokenLine

/-- A text without errors and comments gives its tokens. -/
theorem tokensOf_results {text : List Char} {tokens : List Token}
    (h : results text = tokens.map .ok) (hcomment : .comment ∉ tokens) :
    ∃ ts, tokensOf text = .ok ts ∧ ts.map (·.token) = tokens := by
  obtain ⟨ts, hlex, rfl⟩ := exists_located h
  refine ⟨ts, ?_, rfl⟩
  rw [tokensOf, hlex]
  simp only [List.filterMap_map]
  rw [if_pos (by simp)]
  congr 1
  conv_rhs => rw [← @List.filterMap_some _ ts]
  apply List.filterMap_congr
  intro t ht
  have hne : t.token ≠ .comment := fun h => hcomment (h ▸ List.mem_map_of_mem ht)
  obtain ⟨token, span⟩ := t
  cases token with
  | comment => exact absurd rfl hne
  | _ => rfl

/-- A line that defines no constant is read as its tokens. -/
theorem read_of_results (source : SourceLine) {tokens : List Token}
    (h : results source.text.toList = tokens.map .ok) (hcomment : .comment ∉ tokens)
    (heqv : tokens.head? ≠ some (.directive "eqv")) :
    ∃ ts, read [] source = .ok (⟨source, ts⟩, []) ∧ ts.map (·.token) = tokens := by
  obtain ⟨ts, hts, htokens⟩ := tokensOf_results h hcomment
  have hsubstitute : Constants.substitute [] ts = ts := by
    have hreplace (t : Token) : Constants.replace [] t = [t] := by cases t <;> rfl
    simp [Constants.substitute, hreplace]
  refine ⟨ts, ?_, htokens⟩
  unfold read
  rw [hts]
  dsimp only [bind, Except.bind]
  split
  case h_1 => exact absurd (by rw [← htokens]; rfl) heqv
  case h_2 => exact congrArg (fun us => Except.ok (TokenLine.mk source us, [])) hsubstitute

/-- A line that starts with a name and defines no constant is read as its tokens. -/
theorem read_results (source : SourceLine) {name : String} {tokens : List Token}
    (h : results source.text.toList = (Token.name name :: tokens).map .ok)
    (hcomment : .comment ∉ tokens) :
    ∃ ts, read [] source = .ok (⟨source, ts⟩, []) ∧ ts.map (·.token) = .name name :: tokens :=
  read_of_results source h (by simpa using hcomment) (by simp)

end TokenLine

end MipsLab
