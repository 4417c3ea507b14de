import MipsLab.Proofs.Parsing
import MipsLab.Proofs.TokenSpans

set_option autoImplicit false

/-!
# The range of numbers in a source text

A number or character literal is the value of a 32-bit word, read as a signed or as an unsigned number.
Constants and macros only copy tokens, and so do operands: all numbers that the assembler computes with are such
values (`SourceUnit.isLiteral_of_operand`).
-/

namespace MipsLab

/-- The value of a 32-bit word, read as a signed or as an unsigned number. -/
def IsLiteral (n : Int) : Prop := -0x80000000 ≤ n ∧ n < 0x100000000

instance (n : Int) : Decidable (IsLiteral n) := inferInstanceAs (Decidable (_ ∧ _))

/-- Such a value can be negated with 64 bits. -/
theorem IsLiteral.toInt_neg {n : Int} (h : IsLiteral n) : (-(BitVec.ofInt 64 n)).toInt = -n := by
  obtain ⟨hle, hlt⟩ := h
  rw [← BitVec.ofInt_neg, BitVec.toInt_ofInt]
  exact Int.bmod_eq_of_le (by omega) (by omega)

/-- The token is no number, or one that a literal has. -/
def Token.InRange (t : Token) : Prop := ∀ n, t = .int n → IsLiteral n

/-! ## Literals -/

namespace Literal

theorem isLiteral_of_inRange {m n : Int} (h : inRange m = .ok n) : IsLiteral n := by
  unfold inRange at h
  split at h
  case isTrue hm =>
    cases h
    exact ⟨hm.1, Int.lt_add_one_of_le hm.2⟩
  case isFalse => cases h

theorem isLiteral_of_number {cs : List Char} {n : Int} (h : number cs = .ok n) : IsLiteral n := by
  have hvalue {digits : List Char} {sign : Nat → Int}
      (h : (do inRange (sign (← unsignedValue digits))) = .ok n) : IsLiteral n := by
    cases hmagnitude : unsignedValue digits with
    | error e =>
        rw [hmagnitude] at h
        cases h
    | ok v =>
        rw [hmagnitude] at h
        exact isLiteral_of_inRange h
  unfold number at h
  split at h <;> exact hvalue h

/-- Code points are 32-bit numbers. -/
theorem isLiteral_toNat (c : Char) : IsLiteral c.toNat := by
  have hlt : c.toNat < 4294967296 := c.val.toNat_lt
  exact ⟨by omega, by omega⟩

theorem isLiteral_of_character {body : List Char} {n : Int} (h : character body = .ok n) : IsLiteral n := by
  unfold character at h
  split at h
  · split at h
    · split at h <;> cases h
      exact isLiteral_toNat _
    · split at h <;> cases h
      exact isLiteral_toNat _
    · cases h
  · cases h

end Literal

theorem Token.inRange_of_ne {t : Token} (h : ∀ n, t ≠ .int n) : t.InRange := fun n hn => absurd hn (h n)

/-- A number that is checked is in range as a token. -/
theorem Token.inRange_of_map {result : Except LexError Int} (hresult : ∀ n, result = .ok n → IsLiteral n)
    {t : Token} (h : result.map Token.int = .ok t) : t.InRange := by
  cases result with
  | error e => cases h
  | ok n =>
      cases h
      rintro _ ⟨⟩
      exact hresult n rfl

theorem Lexer.inRange_of_marked {rest : List Char} {read : List Char → Token} {t : Token}
    (h : (marked rest read).result = .ok t) (hread : ∀ tail n, read tail ≠ .int n) : t.InRange := by
  unfold marked at h
  split at h
  · split at h <;> cases h
    exact Token.inRange_of_ne (hread _)
  · cases h

/-- **The numbers that are read are in range.** -/
theorem Lexer.inRange_of_lexeme {c : Char} {rest : List Char} {t : Token}
    (h : (lexeme c rest).result = .ok t) : t.InRange := by
  -- only numbers and characters give a number, and both check it
  have hnumber (h : (number c rest).result = .ok t) : t.InRange :=
    Token.inRange_of_map (fun _ => Literal.isLiteral_of_number) h
  unfold lexeme at h
  split at h
  case h_7 =>
    unfold stringLiteral at h
    dsimp only at h
    split at h <;> cases h
    exact Token.inRange_of_ne nofun
  case h_8 => exact Token.inRange_of_map (fun _ => Literal.isLiteral_of_character) h
  case h_9 =>
    dsimp only [withTail] at h
    split at h <;> cases h
    exact Token.inRange_of_ne nofun
  case h_10 => exact inRange_of_marked h fun _ _ => nofun
  case h_11 => exact inRange_of_marked h fun _ _ => nofun
  case h_12 =>
    split at h
    · split at h
      · exact hnumber h
      · cases h
    · cases h
  case h_13 =>
    split at h
    · cases h
      exact Token.inRange_of_ne nofun
    · split at h
      · exact hnumber h
      · cases h
  all_goals
    cases h
    exact Token.inRange_of_ne nofun

/-! ## Lines -/

/-- The numbers on the line are in range. -/
def TokenLine.InRange (line : TokenLine) : Prop := ∀ t ∈ line.tokens, t.token.InRange

theorem inRange_of_tokensOf {text : List Char} {tokens : List LocatedToken}
    (h : TokenLine.tokensOf text = .ok tokens) : ∀ t ∈ tokens, t.token.InRange := by
  unfold TokenLine.tokensOf at h
  dsimp only at h
  split at h <;> cases h
  intro t ht
  obtain ⟨⟨result, span⟩, hx, ht⟩ := List.mem_filterMap.mp ht
  dsimp only at ht
  split at ht <;> cases ht
  obtain ⟨_, c, cs, -, heq⟩ := Lexer.exists_of_mem_lex hx
  exact Lexer.inRange_of_lexeme (congrArg Prod.fst heq).symm

/-- The numbers in the values of constants are in range. -/
def Constants.InRange (constants : Constants) : Prop := ∀ c ∈ constants, ∀ t ∈ c.2, t.InRange

namespace Constants.InRange

variable {constants : Constants} (h : constants.InRange)
include h

theorem replace {t u : Token} (ht : t.InRange) (hu : u ∈ constants.replace t) : u.InRange := by
  unfold Constants.replace at hu
  split at hu
  case h_1 name =>
    cases hvalue : constants.lookup name with
    | none =>
        rw [hvalue] at hu
        rwa [List.mem_singleton.mp hu]
    | some value =>
        rw [hvalue] at hu
        obtain ⟨before, after, rfl, -⟩ := List.lookup_eq_some_iff.mp hvalue
        exact h (name, value) (by simp) u hu
  case h_2 => rwa [List.mem_singleton.mp hu]

theorem substitute {tokens : List LocatedToken} (ht : ∀ t ∈ tokens, t.token.InRange) :
    ∀ t ∈ constants.substitute tokens, t.token.InRange := by
  intro t hmem
  obtain ⟨u, hu, hmem⟩ := List.mem_flatMap.mp hmem
  obtain ⟨v, hv, rfl⟩ := List.mem_map.mp hmem
  exact h.replace (ht u hu) hv

theorem define {constants' : Constants} {directive : Span} {tokens : List LocatedToken}
    (ht : ∀ t ∈ tokens, t.token.InRange) (hdefine : constants.define directive tokens = .ok constants') :
    constants'.InRange := by
  unfold Constants.define at hdefine
  split at hdefine
  · split at hdefine <;> cases hdefine
    refine List.forall_mem_cons.mpr ⟨fun t hmem => ?_, h⟩
    obtain ⟨u, hu, hmem⟩ := List.mem_flatMap.mp hmem
    exact h.replace (ht u (List.mem_cons_of_mem _ hu)) hmem
  · cases hdefine

theorem read {constants' : Constants} {source : SourceLine} {line : TokenLine}
    (hread : TokenLine.read constants source = .ok (line, constants')) :
    line.InRange ∧ constants'.InRange := by
  obtain ⟨tokens, htokens, hcases⟩ := TokenLine.of_read hread
  have hrange := inRange_of_tokensOf htokens
  rcases hcases with ⟨rfl, rfl⟩ | ⟨span, definition, rfl, rfl, hdefine⟩
  · exact ⟨h.substitute hrange, h⟩
  · exact ⟨nofun, h.define (List.forall_mem_cons.mp hrange).2 hdefine⟩

end Constants.InRange

/-- Macros copy numbers. -/
theorem MacroPool.heritable_inRange : Heritable TokenLine.InRange where
  labels hcall h t ht := by
    rw [Invocation.labels_eq_take hcall] at ht
    exact h t (List.mem_of_mem_take ht)
  body := by
    intro line call b m serial hcall hline hb t ht
    obtain ⟨-, u, hu, ht⟩ := Macro.of_mem_instantiateLine ht
    rcases Macro.of_mem_instantiateToken ht with heq | ⟨text, heq⟩ | ⟨part, hpart, v, hv, heq⟩
    · rw [heq]
      exact hb u hu
    · rw [heq]
      exact Token.inRange_of_ne nofun
    · rw [heq]
      exact hline v (Invocation.mem_of_mem_arguments hcall hpart hv)

namespace SourceUnit

theorem inRange_of_mem_readLines {constants : Constants} (h : constants.InRange) {lines : List SourceLine} :
    ∀ l ∈ (readLines constants lines).1, l.InRange := by
  induction lines generalizing constants with
  | nil => exact nofun
  | cons source rest ih =>
      unfold readLines
      split
      case h_1 hread =>
        obtain ⟨hline, hconstants⟩ := h.read hread
        exact List.forall_mem_cons.mpr ⟨hline, ih hconstants⟩
      case h_2 => exact ih h

/-- **All numbers in the operands of a unit are in range.** -/
theorem isLiteral_of_operand {u : SourceUnit} (current : u.Current) {l : TokenLine} (hl : l ∈ u.expandedLines)
    {s : Statement} (hs : Statement.ofTokens l.tokens = .ok s) {nucleus : Nucleus}
    (hnucleus : s.nucleus = some nucleus) : ∀ o ∈ nucleus.operands, ∀ n ∈ o.number?, IsLiteral n := by
  have hnone : Constants.InRange [] := nofun
  have hrange : l.InRange := forall_mem_expandedLines current MacroPool.heritable_inRange
    (inRange_of_mem_readLines hnone) l hl
  exact Statement.forall_number hs (by decide) (fun t ht n hn => hrange t ht n hn) hnucleus

end SourceUnit

end MipsLab
