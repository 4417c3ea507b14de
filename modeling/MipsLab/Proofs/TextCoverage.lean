import Mathlib.Data.List.TakeWhile
import MipsLab.Proofs.Cuts
import MipsLab.Proofs.Spelling

set_option autoImplicit false

/-!
# Reading loses nothing

A text is read as gaps and lexemes, one right after the other (`Reads`): each of them starts where the one
before it has ended, and the last one ends with the text. So the places of the lexemes cover all of the text but
its gaps (`lex_covers`). A string literal is the only lexeme whose length is counted on its line and not on
the text; it ends with the first closing quote on the line, or with the line.
-/

namespace MipsLab

/-! ## Lines -/

/-- What is left of the line that a text starts on. A line ends at a line feed, at a carriage return with a line
feed behind it, or at the end of the text. -/
inductive Lines.RestOfLine : (text line : List Char) → Prop
  | last {line : List Char} (h : '\n' ∉ line) : RestOfLine line line
  | feed {line : List Char} (h : '\n' ∉ line) (hreturn : line.getLast? ≠ some '\r') (more : List Char) :
      RestOfLine (line ++ '\n' :: more) line
  | returnFeed {line : List Char} (h : '\n' ∉ line) (more : List Char) :
      RestOfLine (line ++ '\r' :: '\n' :: more) line

theorem Lines.restOfLine_first (text : List Char) : RestOfLine text (first text) := by
  let line := text.takeWhile (· ≠ '\n')
  have hline : '\n' ∉ line := fun h => by simpa using List.mem_takeWhile_imp h
  have hsplit : line ++ text.dropWhile (· ≠ '\n') = text := List.takeWhile_append_dropWhile
  have hfirst : first text = if line.length < text.length then dropReturn line else line := rfl
  cases hafter : text.dropWhile (· ≠ '\n') with
  | nil =>
      -- the text has no line feed, so this is its last line
      rw [hafter, List.append_nil] at hsplit
      rw [hfirst, hsplit, if_neg (Nat.lt_irrefl _)]
      exact .last (hsplit ▸ hline)
  | cons c more =>
      have hc : c = '\n' := by
        have hhead := List.head?_dropWhile_not (· ≠ '\n') text
        rw [hafter] at hhead
        simpa using hhead
      rw [hafter, hc] at hsplit
      have hlt : line.length < text.length := by
        rw [← hsplit, List.length_append, List.length_cons]
        omega
      rw [hfirst, if_pos hlt, dropReturn]
      split
      case isFalse hreturn =>
        rw [← hsplit]
        exact .feed hline hreturn more
      case isTrue hreturn =>
        have hlast : line.dropLast ++ ['\r'] = line := List.dropLast_append_getLast? _ hreturn
        have hshorter : '\n' ∉ line.dropLast := fun h => hline (List.dropLast_subset _ h)
        have htext : text = line.dropLast ++ '\r' :: '\n' :: more := by
          rw [← hsplit, List.append_cons line.dropLast, hlast]
        rw [htext]
        exact .returnFeed hshorter more

/-! ## Closing quotes -/

namespace Literal

/-- The next character is escaped: there is an odd number of backslashes right in front of it. -/
def EndsInEscape (cs : List Char) : Prop := (cs.reverse.takeWhile (· == '\\')).length % 2 = 1

instance (cs : List Char) : Decidable (EndsInEscape cs) := inferInstanceAs (Decidable (_ = _))

/-- The first closing quote of a string literal, given what follows the opening quote on the line, has `body`
in front of it. -/
structure ClosesAfter (line body : List Char) : Prop where
  quote : ∃ more, line = body ++ '"' :: more
  unescaped : ¬ EndsInEscape body
  first : ∀ front more, line = front ++ '"' :: more → ¬ EndsInEscape front → body.length ≤ front.length

theorem not_endsInEscape_nil : ¬ EndsInEscape [] := by decide

theorem endsInEscape_backslash : EndsInEscape ['\\'] := by decide

/-- A character that is no backslash ends the run of those behind it. -/
theorem endsInEscape_cons {c : Char} (hc : c ≠ '\\') (cs : List Char) :
    EndsInEscape (c :: cs) ↔ EndsInEscape cs := by
  have hrun : (c :: cs).reverse.takeWhile (· == '\\') = cs.reverse.takeWhile (· == '\\') := by
    rw [List.reverse_cons, List.takeWhile_append]
    split
    case isTrue hall =>
      have htake := (List.takeWhile_prefix (l := cs.reverse) (· == '\\')).eq_of_length hall
      simp [hc, htake]
    case isFalse => rfl
  rw [EndsInEscape, hrun, EndsInEscape]

/-- A backslash and the character that it escapes make no difference to what comes later. -/
theorem endsInEscape_escape (c : Char) (cs : List Char) :
    EndsInEscape ('\\' :: c :: cs) ↔ EndsInEscape cs := by
  rw [EndsInEscape, EndsInEscape, List.reverse_cons, List.reverse_cons, List.append_assoc, List.takeWhile_append]
  split
  case isTrue hall =>
    -- the run goes through all later characters, and by two more backslashes or by none
    have htake := (List.takeWhile_prefix (l := cs.reverse) (· == '\\')).eq_of_length hall
    rw [List.length_append, htake]
    by_cases hc : c = '\\'
    · subst hc
      show (cs.reverse.length + 2) % 2 = 1 ↔ _
      omega
    · simp [hc]
  case isFalse => exact Iff.rfl

/-- A quote that stands behind some other character stands in what follows that character. -/
theorem front_of_cons {c : Char} (hc : c ≠ '"') {line front more : List Char}
    (h : c :: line = front ++ '"' :: more) : ∃ front', front = c :: front' ∧ line = front' ++ '"' :: more := by
  rcases List.cons_eq_append_iff.mp h with ⟨-, hquote⟩ | hfront
  · exact absurd (List.cons.inj hquote).1.symm hc
  · exact hfront

/-- A quote in front of which a backslash and another character stand is either that character, or stands behind
them. -/
theorem front_of_escape {c : Char} {line front more : List Char} (h : '\\' :: c :: line = front ++ '"' :: more) :
    front = ['\\'] ∨ ∃ front', front = '\\' :: c :: front' ∧ line = front' ++ '"' :: more := by
  obtain ⟨behind, rfl, hbehind⟩ := front_of_cons (by decide) h
  rcases List.cons_eq_append_iff.mp hbehind with ⟨rfl, -⟩ | ⟨front', rfl, hline⟩
  · exact .inl rfl
  · exact .inr ⟨front', rfl, hline⟩

namespace ClosesAfter

variable {line body : List Char}

theorem nil (more : List Char) : ClosesAfter ('"' :: more) [] :=
  ⟨⟨more, rfl⟩, not_endsInEscape_nil, fun _ _ _ _ => Nat.zero_le _⟩

/-- A character in front that is neither a quote nor a backslash. -/
theorem cons {c : Char} (hquote : c ≠ '"') (hslash : c ≠ '\\') (h : ClosesAfter line body) :
    ClosesAfter (c :: line) (c :: body) where
  quote := h.quote.imp fun _ hmore => congrArg (c :: ·) hmore
  unescaped := (endsInEscape_cons hslash body).not.mpr h.unescaped
  first := by
    intro front more hline hfront
    obtain ⟨front, rfl, hrest⟩ := front_of_cons hquote hline
    exact Nat.succ_le_succ (h.first front more hrest ((endsInEscape_cons hslash front).not.mp hfront))

/-- A backslash in front, with the character that it escapes. -/
theorem escape {c : Char} (h : ClosesAfter line body) : ClosesAfter ('\\' :: c :: line) ('\\' :: c :: body) where
  quote := h.quote.imp fun _ hmore => congrArg ('\\' :: c :: ·) hmore
  unescaped := (endsInEscape_escape c body).not.mpr h.unescaped
  first := by
    intro front more hline hfront
    rcases front_of_escape hline with rfl | ⟨front, rfl, hrest⟩
    · exact absurd endsInEscape_backslash hfront
    · exact Nat.add_le_add_right (h.first front more hrest ((endsInEscape_escape c front).not.mp hfront)) 2

end ClosesAfter

/-- What a string literal is read by: a character that does not start an escape is no backslash. -/
theorem ne_backslash {c : Char} {cs : List Char} (hlast : c = '\\' → cs = [] → False)
    (hescape : ∀ d ds, c = '\\' → cs = d :: ds → False) : c ≠ '\\' := by
  intro hc
  cases cs with
  | nil => exact hlast hc rfl
  | cons d ds => exact hescape d ds hc rfl

/-- **A string literal ends with its first closing quote.** -/
theorem closesAfter_of_string? {line text : List Char} {length : Nat}
    (h : string? line = some (text, length)) : ∃ body, ClosesAfter line body ∧ length = body.length + 1 := by
  fun_induction string? line generalizing text length with
  | case1 | case3 => cases h
  | case2 cs =>
      cases h
      exact ⟨[], .nil cs, rfl⟩
  | case4 c cs ih =>
      obtain ⟨⟨_, _⟩, hrest, heq⟩ := Option.map_eq_some_iff.mp h
      cases heq
      obtain ⟨body, hcloses, rfl⟩ := ih hrest
      exact ⟨'\\' :: c :: body, hcloses.escape, rfl⟩
  | case5 c cs hquote hlast hescape ih =>
      obtain ⟨⟨_, _⟩, hrest, heq⟩ := Option.map_eq_some_iff.mp h
      cases heq
      obtain ⟨body, hcloses, rfl⟩ := ih hrest
      exact ⟨c :: body, hcloses.cons hquote (ne_backslash hlast hescape), rfl⟩

/-- **It does not end on its line if there is none.** -/
theorem endsInEscape_of_string? {line : List Char} (h : string? line = none) {front more : List Char}
    (hline : line = front ++ '"' :: more) : EndsInEscape front := by
  fun_induction string? line generalizing front with
  | case1 => simp at hline
  | case2 cs => cases h
  | case3 =>
      obtain ⟨front, rfl, hrest⟩ := front_of_cons (by decide) hline
      simp at hrest
  | case4 c cs ih =>
      rcases front_of_escape hline with rfl | ⟨front, rfl, hrest⟩
      · exact endsInEscape_backslash
      · exact (endsInEscape_escape c front).mpr (ih (Option.map_eq_none_iff.mp h) hrest)
  | case5 c cs hquote hlast hescape ih =>
      obtain ⟨front, rfl, hrest⟩ := front_of_cons hquote hline
      exact (endsInEscape_cons (ne_backslash hlast hescape) front).mpr (ih (Option.map_eq_none_iff.mp h) hrest)

/-! ## Numbers and characters -/

theorem magnitude_ne_unclosedString {base : Nat} {e : LexError} (he : e ≠ .unclosedString) (acc : Nat)
    (cs : List Char) : magnitude base e acc cs ≠ .error .unclosedString := by
  fun_induction magnitude base e acc cs with
  | case1 => exact nofun
  | case2 => exact fun h => he (Except.error.inj h)
  | case3 _ _ _ _ _ _ ih => exact ih
  | case4 => exact nofun

theorem unsignedValue_ne_unclosedString (cs : List Char) : unsignedValue cs ≠ .error .unclosedString := by
  have hhexadecimal (digits : List Char) :
      (if digits.isEmpty then .error .noHexDigits else magnitude 16 .badHexDigit 0 digits) ≠
        .error .unclosedString := by
    split
    · exact nofun
    · exact magnitude_ne_unclosedString (by decide) _ _
  unfold unsignedValue
  split
  · exact hhexadecimal _
  · exact hhexadecimal _
  · exact magnitude_ne_unclosedString (by decide) _ _

theorem number_ne_unclosedString (cs : List Char) : number cs ≠ .error .unclosedString := by
  have hvalue (cs : List Char) (sign : Nat → Int) :
      (do inRange (sign (← unsignedValue cs))) ≠ .error .unclosedString := by
    cases hcs : unsignedValue cs with
    | error e =>
        intro h
        have he : e = .unclosedString := Except.error.inj (show Except.error e = _ from h)
        exact unsignedValue_ne_unclosedString cs (hcs.trans (congrArg Except.error he))
    | ok v =>
        show inRange (sign v) ≠ _
        unfold inRange
        split <;> exact nofun
  unfold number
  split <;> exact hvalue _ _

theorem character_ne_unclosedString (body : List Char) : character body ≠ .error .unclosedString := by
  unfold character
  split
  · split
    · split <;> exact nofun
    · split <;> exact nofun
    · exact nofun
  · exact nofun

end Literal

open Utf8

namespace Lexer

/-! ## Gaps and lexemes -/

/-- What is read of the rest of a text, when a part of it has been read. -/
inductive Reads : (front rest : List Char) → List (Except LexError Token × Span) → Prop
  | done (front : List Char) : Reads front [] []
  | gap {front rest : List Char} {c : Char} {xs : List (Except LexError Token × Span)}
      (hc : CharClass.isGap c = true) (h : Reads (front ++ [c]) rest xs) : Reads front (c :: rest) xs
  /-- A lexeme that starts with `c` and goes on with the characters `own`. -/
  | lexeme {front own rest : List Char} {c : Char} {xs : List (Except LexError Token × Span)}
      (hown : (lexeme c (own ++ rest)).extra = own.length) (h : Reads (front ++ c :: own) rest xs) :
      Reads front (c :: (own ++ rest))
        (((lexeme c (own ++ rest)).result, ⟨size front, size (front ++ c :: own)⟩) :: xs)

/-- The rest of a lexeme is passed over. -/
theorem lexFrom_own (pos : Nat) (own rest : List Char) :
    lexFrom pos own.length (own ++ rest) = lexFrom (pos + size own) 0 rest := by
  induction own generalizing pos with
  | nil => rfl
  | cons c own ih =>
      have hsize : pos + size (c :: own) = pos + c.utf8Size + size own := (Nat.add_assoc _ _ _).symm
      rw [hsize, ← ih]
      rfl

/-- **A text is read as gaps and lexemes, one right after the other.** -/
theorem reads_lexFrom (front rest : List Char) : Reads front rest (lexFrom (size front) 0 rest) := by
  -- a lexeme may take many characters, but always the first one
  induction hn : rest.length using Nat.strongRecOn generalizing front rest with
  | _ n ih =>
      cases rest with
      | nil => exact .done front
      | cons c cs =>
          rw [List.length_cons] at hn
          rw [lexFrom_start]
          split
          case isTrue hc =>
            have hlater := ih cs.length (by omega) (front ++ [c]) cs rfl
            rw [size_append, size_singleton] at hlater
            exact .gap hc hlater
          case isFalse =>
            let own := cs.take (lexeme c cs).extra
            let rest := cs.drop (lexeme c cs).extra
            have hsplit : own ++ rest = cs := List.take_append_drop _ _
            have hown : own.length = (lexeme c cs).extra := List.length_take_of_le (extra_le c cs)
            have hlater := ih rest.length (by rw [← hsplit, List.length_append] at hn; omega)
              (front ++ c :: own) rest rfl
            have hread := Reads.lexeme (by rw [hsplit, hown]) hlater
            have hnext : lexFrom (size front + c.utf8Size) own.length (own ++ rest) =
                lexFrom (size (front ++ c :: own)) 0 rest := by
              rw [lexFrom_own, size_append, Nat.add_assoc]
              rfl
            rw [hsplit] at hread
            rw [hsplit, hown] at hnext
            rw [hnext, ← size_append]
            exact hread

theorem reads_lex (text : List Char) : Reads [] text (lex text) := reads_lexFrom [] text

/-- The character behind `front` belongs to the lexeme. -/
def Within (x : Except LexError Token × Span) (front : List Char) : Prop :=
  x.2.start ≤ size front ∧ size front < x.2.stop

namespace Reads

variable {front rest : List Char} {xs : List (Except LexError Token × Span)}

theorem size_le_start (h : Reads front rest xs) : ∀ x ∈ xs, size front ≤ x.2.start := by
  induction h with
  | done => exact nofun
  | gap _ _ ih =>
      intro x hx
      have hle := ih x hx
      rw [size_append] at hle
      omega
  | lexeme _ _ ih =>
      intro x hx
      rcases List.mem_cons.mp hx with rfl | hx
      · exact Nat.le_refl _
      · have hle := ih x hx
        rw [size_append] at hle
        omega

/-- A lexeme ends before the next one starts. -/
theorem pairwise (h : Reads front rest xs) : xs.Pairwise fun x y => x.2.stop ≤ y.2.start := by
  induction h with
  | done => exact .nil
  | gap _ _ ih => exact ih
  | lexeme _ h ih => exact .cons h.size_le_start ih

/-- What belongs to no lexeme is a gap. -/
theorem isGap_of_not_within (h : Reads front rest xs) {before after : List Char} {c : Char}
    (hrest : rest = before ++ c :: after) (hout : ∀ x ∈ xs, ¬ Within x (front ++ before)) :
    CharClass.isGap c = true := by
  induction h generalizing before with
  | done => simp at hrest
  | @gap front rest d xs hd h ih =>
      rcases List.cons_eq_append_iff.mp hrest with ⟨rfl, heq⟩ | ⟨before, rfl, heq⟩
      · rw [(List.cons.inj heq).1]
        exact hd
      · exact ih heq (by simpa using hout)
  | @lexeme front own rest d xs hown h ih =>
      obtain ⟨hfirst, hlater⟩ := List.forall_mem_cons.mp hout
      -- the character stands in the lexeme or behind it
      have hsplit : (d :: own) ++ rest = before ++ c :: after := hrest
      rcases List.append_eq_append_iff.mp hsplit with ⟨before, rfl, heq⟩ | ⟨more, howns, heq⟩
      · exact ih heq (by simpa using hlater)
      · cases more with
        | nil =>
            rw [List.append_nil] at howns
            exact @ih [] heq.symm (by simpa [howns] using hlater)
        | cons e more =>
            refine absurd ⟨?_, ?_⟩ hfirst
            · show size front ≤ size (front ++ before)
              rw [size_append]
              omega
            · show size (front ++ before) < size (front ++ d :: own)
              rw [howns, ← List.append_assoc, size_append (front ++ before)]
              exact Nat.lt_add_of_pos_right (size_pos e more)

end Reads

/-! ## String literals -/

/-- A string literal, closed or not. -/
def IsString : Except LexError Token → Prop
  | .ok (.str _) => True
  | .error .unclosedString => True
  | _ => False

/-- How a lexeme ends that starts with a quotation mark, in front of which stands `front`: right behind the first
closing quote on the line, or else with the line. -/
inductive StringEnds (front rest : List Char) : Except LexError Token × Span → Prop
  | closed {line body : List Char} (hline : Lines.RestOfLine rest line)
      (hcloses : Literal.ClosesAfter line body) (text : String) :
      StringEnds front rest (.ok (.str text), ⟨size front, size (front ++ '"' :: (body ++ ['"']))⟩)
  | unclosed {line : List Char} (hline : Lines.RestOfLine rest line)
      (hopen : ∀ body, ¬ Literal.ClosesAfter line body) :
      StringEnds front rest (.error .unclosedString, ⟨size front, size (front ++ '"' :: line)⟩)

/-- Numbers and character literals are no strings. -/
theorem not_isString_map_int {result : Except LexError Int} (h : result ≠ .error .unclosedString) :
    ¬ IsString (result.map Token.int) := by
  intro hstring
  cases result with
  | ok n => exact hstring
  | error e =>
      cases e with
      | unclosedString => exact h rfl
      | _ => exact hstring

theorem not_isString_number (c : Char) (rest : List Char) : ¬ IsString (number c rest).result :=
  not_isString_map_int (Literal.number_ne_unclosedString _)

/-- A name behind a mark is no string. -/
theorem not_isString_marked {read : List Char → Token} (hread : ∀ tail, ¬ IsString (.ok (read tail)))
    (rest : List Char) : ¬ IsString (marked rest read).result := by
  unfold marked
  split
  · split
    · exact hread _
    · exact not_false
  · exact not_false

/-- Only a quotation mark starts a string literal. -/
theorem eq_quote_of_isString {c : Char} {rest : List Char} (h : IsString (lexeme c rest).result) : c = '"' := by
  have hparam (tail : List Char) : ¬ IsString (.ok (.param (String.ofList tail))) := id
  have hdirective (tail : List Char) :
      ¬ IsString (.ok (.directive (String.ofList (Lowercase.lower tail)))) := id
  -- of the kinds of lexemes, only that of a quotation mark gives strings
  unfold lexeme at h
  split at h
  case h_7 => rfl
  case h_8 => exact absurd h (not_isString_map_int (Literal.character_ne_unclosedString _))
  case h_9 =>
    dsimp only [withTail] at h
    split at h <;> exact h.elim
  case h_10 => exact absurd h (not_isString_marked hparam rest)
  case h_11 => exact absurd h (not_isString_marked hdirective rest)
  case h_12 =>
    split at h
    · split at h
      · exact absurd h (not_isString_number _ _)
      · exact h.elim
    · exact h.elim
  case h_13 =>
    split at h
    · exact h.elim
    · split at h
      · exact absurd h (not_isString_number _ _)
      · exact h.elim
  all_goals exact h.elim

theorem isString_stringLiteral (rest : List Char) : IsString (stringLiteral rest).result := by
  unfold stringLiteral
  dsimp only
  split <;> trivial

theorem stringEnds_stringLiteral (front rest : List Char) :
    StringEnds front rest ((stringLiteral rest).result,
      ⟨size front, size front + size ('"' :: rest.take (stringLiteral rest).extra)⟩) := by
  have hline := Lines.restOfLine_first rest
  rw [← size_append]
  unfold stringLiteral
  dsimp only
  split
  case h_1 text length h =>
    obtain ⟨body, hcloses, rfl⟩ := Literal.closesAfter_of_string? h
    obtain ⟨more, hmore⟩ := hcloses.quote
    have hown : rest.take (body.length + 1) = body ++ ['"'] := by
      have hprefix := isPrefix_first rest
      rw [hmore, List.append_cons] at hprefix
      have hbody := (List.prefix_append (body ++ ['"']) more).trans hprefix
      simpa using (List.prefix_iff_eq_take.mp hbody).symm
    rw [hown]
    exact .closed hline hcloses _
  case h_2 h =>
    have hown : rest.take (Lines.first rest).length = Lines.first rest :=
      (List.prefix_iff_eq_take.mp (isPrefix_first rest)).symm
    rw [hown]
    refine .unclosed hline fun body hcloses => ?_
    obtain ⟨more, hmore⟩ := hcloses.quote
    exact hcloses.unescaped (Literal.endsInEscape_of_string? h hmore)

/-! ## Texts -/

/-- The lexemes cover a text. -/
structure Covers (text : List Char) (xs : List (Except LexError Token × Span)) : Prop where
  nonempty : ∀ x ∈ xs, x.2.start < x.2.stop
  /-- They come in order and do not overlap. -/
  ascending : xs.Pairwise fun x y => x.2.stop ≤ y.2.start
  boundaries : ∀ x ∈ xs, IsBoundary text x.2.start ∧ IsBoundary text x.2.stop
  /-- Nothing but gaps is left out. -/
  gaps : ∀ front c rest, text = front ++ c :: rest → (∀ x ∈ xs, ¬ Within x front) →
    c = ' ' ∨ c = '\t' ∨ c = '\r' ∨ c = '\x0c'
  /-- A string literal is what starts with a quotation mark, and ends as it should. -/
  strings : ∀ x ∈ xs, ∃ front c rest, text = front ++ c :: rest ∧ x.2.start = size front ∧
    (IsString x.1 ↔ c = '"') ∧ (c = '"' → StringEnds front rest x)

/-- **Reading loses nothing.** -/
theorem lex_covers (text : List Char) : Covers text (lex text) where
  nonempty x hx := (isBoundary_of_mem_lex hx).2.2.1
  ascending := (reads_lex text).pairwise
  boundaries x hx := ⟨(isBoundary_of_mem_lex hx).1, (isBoundary_of_mem_lex hx).2.1⟩
  gaps := by
    intro front c rest htext hout
    have hgap := (reads_lex text).isGap_of_not_within htext hout
    simpa [CharClass.isGap, or_assoc] using hgap
  strings := by
    intro x hx
    obtain ⟨front, c, rest, htext, rfl⟩ := exists_of_mem_lex hx
    refine ⟨front, c, rest, htext, rfl, ⟨eq_quote_of_isString, ?_⟩, ?_⟩
    · rintro rfl
      exact isString_stringLiteral rest
    · rintro rfl
      exact stringEnds_stringLiteral front rest

end Lexer

end MipsLab
