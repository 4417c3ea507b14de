import MipsLab.Proofs.Parsing
import MipsLab.Proofs.TokenSpans

set_option autoImplicit false

/-!
# Where texts and lists of tokens are cut

A lexeme counts the characters that belong to it, an operand counts its tokens, and the bytes of a string
literal are counted on its line and then passed over in the text. No count goes past the end of what is counted
(`Lexer.extra_le`, `Statement.extra_le`), and bytes are counted in whole characters
(`Lexer.isBoundary_of_mem_lex`).
-/

namespace MipsLab

namespace Utf8

/-- A byte of a text at which a character starts, or the end of the text. -/
def IsBoundary (text : List Char) (n : Nat) : Prop := ∃ front, front <+: text ∧ size front = n

theorem isBoundary_append (front rest : List Char) : IsBoundary (front ++ rest) (size front) :=
  ⟨front, List.prefix_append _ _, rfl⟩

end Utf8

open Utf8

/-! ## Texts -/

namespace Lexer

theorem isPrefix_first (rest : List Char) : Lines.first rest <+: rest := by
  have hline : rest.takeWhile (· ≠ '\n') <+: rest := List.takeWhile_prefix _
  unfold Lines.first
  dsimp only
  split
  · refine List.IsPrefix.trans ?_ hline
    unfold Lines.dropReturn
    split
    · exact List.dropLast_prefix _
    · exact List.prefix_rfl
  · exact hline

theorem length_string?_le {line text : List Char} {length : Nat}
    (h : Literal.string? line = some (text, length)) : length ≤ line.length := by
  fun_induction Literal.string? line generalizing text length with
  | case1 | case3 => cases h
  | case2 cs =>
      cases h
      exact Nat.le_add_left 1 cs.length
  | case4 c cs ih =>
      obtain ⟨⟨text', length'⟩, hrest, heq⟩ := Option.map_eq_some_iff.mp h
      cases heq
      exact Nat.add_le_add_right (ih hrest) 2
  | case5 c cs _ _ _ ih =>
      obtain ⟨⟨text', length'⟩, hrest, heq⟩ := Option.map_eq_some_iff.mp h
      cases heq
      exact Nat.add_le_add_right (ih hrest) 1

/-- A string literal ends on its line. -/
theorem extra_stringLiteral_le (rest : List Char) : (stringLiteral rest).extra ≤ (Lines.first rest).length := by
  unfold stringLiteral
  dsimp only
  split
  case h_1 h => exact length_string?_le h
  case h_2 => exact Nat.le_refl _

theorem length_takeWhile_le (p : Char → Bool) (rest : List Char) : (rest.takeWhile p).length ≤ rest.length :=
  (List.takeWhile_prefix p).length_le

/-- **No lexeme goes past the end of the text.** -/
theorem extra_le (c : Char) (rest : List Char) : (lexeme c rest).extra ≤ rest.length := by
  have hmarked (read : List Char → Token) : (marked rest read).extra ≤ rest.length := by
    unfold marked
    split
    · split
      · exact Nat.add_le_add_right (length_takeWhile_le _ _) 1
      · exact Nat.zero_le _
    · exact Nat.zero_le _
  -- of the kinds of lexemes, those of one character take nothing from the rest
  unfold lexeme
  split
  case h_6 => exact length_takeWhile_le _ _
  case h_7 => exact Nat.le_trans (extra_stringLiteral_le rest) (isPrefix_first rest).length_le
  case h_8 => exact List.length_take_le' _ _
  case h_9 => exact length_takeWhile_le _ _
  case h_10 => exact hmarked _
  case h_11 => exact hmarked _
  case h_12 =>
    split
    · split
      · exact length_takeWhile_le _ _
      · exact Nat.zero_le _
    · exact Nat.zero_le _
  case h_13 =>
    split
    · exact length_takeWhile_le _ _
    · split
      · exact length_takeWhile_le _ _
      · exact Nat.zero_le _
  all_goals exact Nat.zero_le _

/-- The characters that a token drops from its front: a mark in front of the name of a register, parameter or
directive. -/
def frontMarks : List Char := ['$', '%', '.']

/-- **What is read starts and ends between characters**, and so does what follows its mark. -/
theorem isBoundary_of_mem_lex {text : List Char} {x : Except LexError Token × Span} (hx : x ∈ lex text) :
    IsBoundary text x.2.start ∧ IsBoundary text x.2.stop ∧ x.2.start < x.2.stop ∧
      ∀ front c rest, text = front ++ c :: rest → size front = x.2.start → c ∈ frontMarks →
        IsBoundary text (x.2.start + 1) := by
  obtain ⟨front, c, cs, rfl, rfl⟩ := exists_of_mem_lex hx
  refine ⟨isBoundary_append _ _, ?_, Nat.lt_add_of_pos_right (size_pos c _), ?_⟩
  · have hpart := isBoundary_append (front ++ c :: cs.take (lexeme c cs).extra) (cs.drop (lexeme c cs).extra)
    rwa [List.append_assoc, List.cons_append, List.take_append_drop, size_append] at hpart
  · intro front' d rest htext hsize hd
    have hmark : d.utf8Size = 1 := by
      rcases List.mem_cons.mp hd with rfl | hd
      · rfl
      rcases List.mem_cons.mp hd with rfl | hd
      · rfl
      rw [List.mem_singleton.mp hd]
      rfl
    have hpart := isBoundary_append (front' ++ [d]) rest
    rwa [List.append_assoc, List.singleton_append, ← htext, size_append, size_singleton, hsize, hmark] at hpart

end Lexer

/-! ## Lists of tokens -/

theorem length_splitLabels_le (tokens : List LocatedToken) :
    (splitLabels tokens).1.length ≤ tokens.length ∧
      (splitLabels tokens).2 = tokens.drop (splitLabels tokens).1.length := by
  have hsplit := splitLabels_append tokens
  have hlength := congrArg List.length hsplit
  rw [List.length_append] at hlength
  refine ⟨by omega, ?_⟩
  · have hdrop : ((splitLabels tokens).1 ++ (splitLabels tokens).2).drop (splitLabels tokens).1.length =
        (splitLabels tokens).2 := List.drop_left
    rw [hsplit] at hdrop
    exact hdrop.symm

/-- Where a token follows a cut, the list can be cut behind it. -/
theorem of_drop_eq_cons {tokens : List LocatedToken} {n : Nat} {t : LocatedToken} {rest : List LocatedToken}
    (h : tokens.drop n = t :: rest) : n + 1 ≤ tokens.length ∧ rest = tokens.drop (n + 1) := by
  have hlength := congrArg List.length h
  rw [List.length_cons, List.length_drop] at hlength
  refine ⟨by omega, ?_⟩
  rw [← List.drop_drop, h]
  rfl

namespace Statement

/-- **No operand goes past the last token.** -/
theorem extra_le {t : Token} {rest : List LocatedToken} {o : Operand} {extra : Nat}
    (h : operand? t rest = some (o, extra)) : extra ≤ rest.length := by
  unfold operand? at h
  split at h
  · cases h
    exact Nat.zero_le _
  · cases h
    exact Nat.zero_le _
  · split at h
    case h_1 r hbase =>
      cases h
      unfold base? at hbase
      split at hbase
      · simp
      · cases hbase
    · cases h
      exact Nat.zero_le _
  · split at h <;> cases h
    simp
  · split at h
    · cases h
      simp
    · cases h
    · split at h <;> cases h <;> simp
    · cases h
      exact Nat.zero_le _
  · cases h

end Statement

end MipsLab
