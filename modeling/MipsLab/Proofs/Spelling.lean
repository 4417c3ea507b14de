import Mathlib.Data.List.Forall2
import MipsLab.Operand
import MipsLab.Token.Line

set_option autoImplicit false

/-!
# How operands are spelled

The reader of tokens gives back what was written: a name, a directive, a register, a number in
decimal or in hexadecimal, a string between quotes, and a list of operands with commas between them
(`Lexer.results_intercalate`). A piece of text is read as the same tokens whatever follows it, as long
as that cannot go on with its last token.
-/

namespace MipsLab

/-! ## Digits -/

namespace Literal

variable {base : Nat} {e : LexError}

/-- The digits of a number are those below its base. -/
theorem exists_digitChar (hbase : 1 < base) (n : Nat) {c : Char} (hc : c ∈ Nat.toDigits base n) :
    ∃ d < base, c = Nat.digitChar d := by
  induction n using Nat.strongRecOn with
  | _ n ih =>
      by_cases hn : n < base
      · rw [Nat.toDigits_of_lt_base hn, List.mem_singleton] at hc
        exact ⟨n, hn, hc⟩
      · rw [Nat.toDigits_of_base_le hbase (by omega), List.mem_append, List.mem_singleton] at hc
        rcases hc with hc | hc
        · exact ih (n / base) (Nat.div_lt_self (by omega) hbase) hc
        · exact ⟨n % base, Nat.mod_lt _ (by omega), hc⟩

theorem digitValue?_digitChar {d : Nat} (hd : d < base) (hbase : base ≤ 16) :
    Numeral.digitValue? base (Nat.digitChar d) = some d := by
  have h : ∀ b ≤ 16, ∀ d < b, Numeral.digitValue? b (Nat.digitChar d) = some d := by
    decide
  exact h base hbase d hd

theorem magnitude_append (acc : Nat) (xs ys : List Char) :
    magnitude base e acc (xs ++ ys) = (magnitude base e acc xs).bind (magnitude base e · ys) := by
  induction xs generalizing acc with
  | nil => rfl
  | cons c xs ih =>
      rw [List.cons_append, magnitude, magnitude]
      split
      · rfl
      · split
        · exact ih _
        · rfl

theorem magnitude_zeros (hbase : 0 < base) (hle : base ≤ 16) (k : Nat) (ds : List Char) :
    magnitude base e 0 (List.replicate k '0' ++ ds) = magnitude base e 0 ds := by
  have hzero : Numeral.digitValue? base '0' = some 0 := digitValue?_digitChar hbase hle
  induction k with
  | zero => rfl
  | succ k ih => simpa [List.replicate_succ, magnitude, hzero] using ih

/-- A number is read back from its digits. -/
theorem magnitude_toDigits (hbase : 1 < base) (hle : base ≤ 16) {n : Nat}
    (hn : n < 0x8000000000000000) : magnitude base e 0 (Nat.toDigits base n) = .ok n := by
  induction n using Nat.strongRecOn with
  | _ n ih =>
      by_cases hlt : n < base
      · rw [Nat.toDigits_of_lt_base hlt, magnitude, digitValue?_digitChar hlt hle]
        simp [hn, magnitude]
      · have hquotient : n / base < n := Nat.div_lt_self (by omega) hbase
        have hdigit : n % base < base := Nat.mod_lt _ (by omega)
        have hvalue : n / base * base + n % base = n := Nat.div_add_mod' n base
        rw [Nat.toDigits_of_base_le hbase (by omega), magnitude_append,
          ih (n / base) hquotient (by omega)]
        simp only [Except.bind, magnitude, digitValue?_digitChar hdigit hle, hvalue, hn, if_true]

/-! ## Numbers -/

/-- The characters of a number do not end a word. -/
theorem isWord_of_mem_toDigits (hbase : 1 < base) (hle : base ≤ 16) {n : Nat} {c : Char}
    (hc : c ∈ Nat.toDigits base n) : CharClass.isWord c = true := by
  have h : ∀ d < 16, CharClass.isWord (Nat.digitChar d) = true := by decide
  obtain ⟨d, hd, rfl⟩ := exists_digitChar hbase n hc
  exact h d (by omega)

/-- A decimal is its own magnitude: it has neither a sign nor a prefix. -/
theorem unsignedValue_toDigits {n : Nat} (hn : n < 0x8000000000000000) :
    unsignedValue (Nat.toDigits 10 n) = .ok n := by
  have hplain : ∀ {c}, c ∈ Nat.toDigits 10 n → c ≠ 'x' ∧ c ≠ 'X' := by
    intro c hc
    have hdigit := Nat.isDigit_of_mem_toDigits (by omega) (by omega) hc
    constructor <;> (rintro rfl; cases hdigit)
  unfold unsignedValue
  split
  case h_1 h => exact absurd rfl (hplain (c := 'x') (by simp [h])).1
  case h_2 h => exact absurd rfl (hplain (c := 'X') (by simp [h])).2
  case h_3 => exact magnitude_toDigits (by omega) (by omega) hn

/-- The digits of a number are not preceded by a sign. -/
theorem number_toDigits {n : Nat} (hn : n ≤ 4294967295) :
    number (Nat.toDigits 10 n) = .ok (n : Int) := by
  unfold number
  split
  case h_1 h =>
      have hminus : '-' ∈ Nat.toDigits 10 n := by simp [h]
      cases Nat.isDigit_of_mem_toDigits (by omega) (by omega) hminus
  case h_2 =>
      rw [unsignedValue_toDigits (by omega)]
      exact if_pos (by omega)

theorem number_neg_toDigits {n : Nat} (hn : n ≤ 2147483648) :
    number ('-' :: Nat.toDigits 10 n) = .ok (-(n : Int)) := by
  rw [number, unsignedValue_toDigits (by omega)]
  exact if_pos (by omega)

/-- A number in hexadecimal has no sign, and its prefix is passed over. -/
theorem unsignedValue_hex {width n : Nat} (hn : n < 0x8000000000000000) :
    unsignedValue ('0' :: 'x' :: (Numeral.padded 16 width n).toList) = .ok n := by
  have hempty : (Numeral.padded 16 width n).toList.isEmpty = false := by
    simp [Numeral.padded, Nat.toDigits_ne_nil]
  rw [unsignedValue, hempty, Numeral.padded, String.toList_ofList]
  exact (magnitude_zeros (by omega) (by omega) _ _).trans (magnitude_toDigits (by omega) (by omega) hn)

theorem number_hex {width n : Nat} (hn : n ≤ 4294967295) :
    number ('0' :: 'x' :: (Numeral.padded 16 width n).toList) = .ok (n : Int) := by
  rw [number, unsignedValue_hex (by omega)]
  · exact if_pos (by omega)
  · simp

theorem number_neg_hex {width n : Nat} (hn : n ≤ 2147483648) :
    number ('-' :: '0' :: 'x' :: (Numeral.padded 16 width n).toList) = .ok (-(n : Int)) := by
  rw [number, unsignedValue_hex (by omega)]
  exact if_pos (by omega)

/-- The digits of a number in hexadecimal do not end a word, and neither does the letter in front of them. -/
theorem isWord_of_mem_hex {width n : Nat} {c : Char} (hc : c ∈ 'x' :: (Numeral.padded 16 width n).toList) :
    CharClass.isWord c = true := by
  simp only [Numeral.padded, String.toList_ofList, List.mem_cons, List.mem_append, List.mem_replicate] at hc
  rcases hc with rfl | ⟨-, rfl⟩ | hc
  · decide
  · decide
  · exact isWord_of_mem_toDigits (by omega) (by omega) hc

end Literal

/-! ## Quoted text -/

/-- A property of all ASCII characters can be checked value by value. -/
theorem forall_of_isAscii {P : Char → Prop} (h : ∀ n < 128, P (Char.ofNat n)) {c : Char}
    (hc : CharClass.isAscii c = true) : P c := by
  have hvalue := h c.toNat (of_decide_eq_true hc)
  rwa [Char.ofNat_toNat] at hvalue

namespace Quoted

/-- Printable ASCII characters, and those that have an escape by a letter or digit. -/
def isPlain (c : Char) : Bool :=
  decide (32 ≤ c.toNat) && decide (c.toNat < 127) || c == '\n' || c == '\r' || c == '\t' || c == '\x00'

theorem isAscii_of_isPlain {c : Char} (h : isPlain c = true) : CharClass.isAscii c = true := by
  apply decide_eq_true
  simp only [isPlain, Bool.or_eq_true, Bool.and_eq_true, decide_eq_true_eq, beq_iff_eq] at h
  rcases h with (((h | rfl) | rfl) | rfl) | rfl
  · omega
  all_goals decide

/-- A character without an escape of its own stands for itself. -/
theorem encodeChar_eq_singleton {c : Char} (h : isPlain c = true)
    (hc : c ∉ ['"', '\\', '\n', '\r', '\t', '\x00']) : encodeChar c = [c] :=
  forall_of_isAscii (P := fun c => isPlain c = true →
      c ∉ ['"', '\\', '\n', '\r', '\t', '\x00'] → encodeChar c = [c])
    (by decide) (isAscii_of_isPlain h) h hc

/-- A character is read back from the way it is written inside quotes. -/
theorem string?_encodeChar {c : Char} (h : isPlain c = true) (cs : List Char) :
    Literal.string? (encodeChar c ++ cs) = (Literal.string? cs).map fun (text, length) =>
      (c :: text, length + (encodeChar c).length) := by
  by_cases hquote : c = '"'
  · subst hquote
    rfl
  by_cases hslash : c = '\\'
  · subst hslash
    rfl
  by_cases hn : c = '\n'
  · subst hn
    rfl
  by_cases hr : c = '\r'
  · subst hr
    rfl
  by_cases ht : c = '\t'
  · subst ht
    rfl
  by_cases hzero : c = '\x00'
  · subst hzero
    rfl
  have hself : encodeChar c = [c] :=
    encodeChar_eq_singleton h (by simp [hquote, hslash, hn, hr, ht, hzero])
  rw [hself, List.singleton_append, Literal.string?]
  · rfl
  · exact hquote
  · intro hc
    exact absurd hc hslash
  · intro _ _ hc
    exact absurd hc hslash

theorem string?_encode {text : List Char} (h : ∀ c ∈ text, isPlain c = true) (rest : List Char) :
    Literal.string? (text.flatMap encodeChar ++ '"' :: rest) =
      some (text, (text.flatMap encodeChar ++ ['"']).length) := by
  induction text with
  | nil => rfl
  | cons c text ih =>
      obtain ⟨hc, htext⟩ := List.forall_mem_cons.mp h
      rw [List.flatMap_cons, List.append_assoc, string?_encodeChar hc, ih htext]
      simp
      omega

/-- Quoted text stays on one line. -/
theorem newline_notMem_encode {text : List Char} (h : ∀ c ∈ text, isPlain c = true) :
    '\n' ∉ text.flatMap encodeChar := by
  intro hmem
  obtain ⟨c, hc, hmem⟩ := List.mem_flatMap.mp hmem
  exact forall_of_isAscii (P := fun c => '\n' ∉ encodeChar c) (by decide)
    (isAscii_of_isPlain (h c hc)) hmem

end Quoted

/-- The first line of a text goes at least up to a quotation mark in it. -/
theorem Lines.exists_first_eq {before : List Char} (h : '\n' ∉ before) (rest : List Char) :
    ∃ more, Lines.first (before ++ '"' :: rest) = before ++ '"' :: more := by
  have hall : ∀ c ∈ before ++ ['"'], (c ≠ '\n' : Bool) = true := by
    intro c hc
    rcases List.mem_append.mp hc with hc | hc
    · exact decide_eq_true fun e => h (e ▸ hc)
    · rw [List.mem_singleton.mp hc]
      rfl
  have hline : (before ++ '"' :: rest).takeWhile (· ≠ '\n') =
      before ++ '"' :: rest.takeWhile (· ≠ '\n') := by
    rw [List.append_cons, List.takeWhile_append_of_pos hall, List.append_assoc]
    rfl
  unfold Lines.first
  rw [hline]
  dsimp only
  split
  case isFalse => exact ⟨_, rfl⟩
  case isTrue =>
    unfold Lines.dropReturn
    split
    case isFalse => exact ⟨_, rfl⟩
    case isTrue hreturn =>
      -- the carriage return that is dropped stands behind the quotation mark
      cases hmore : rest.takeWhile (· ≠ '\n') with
      | nil =>
          rw [hmore] at hreturn
          simp at hreturn
      | cons c more => exact ⟨(c :: more).dropLast, by simp⟩

/-- A character of the name of a directive in lower case. -/
def isSmall (c : Char) : Bool := c.isLower || c.isDigit || c == '_'

theorem isAscii_of_isSmall {c : Char} (h : isSmall c = true) : CharClass.isAscii c = true := by
  have hle : ∀ {first last : Char}, last.toNat < 128 →
      (decide (first.val ≤ c.val) && decide (c.val ≤ last.val)) = true → c.toNat < 128 := by
    intro first last hlast hrange
    have hc : c.val ≤ last.val := of_decide_eq_true (Bool.and_eq_true_iff.mp hrange).2
    exact Nat.lt_of_le_of_lt (UInt32.le_iff_toNat_le.mp hc) hlast
  apply decide_eq_true
  simp only [isSmall, Bool.or_eq_true, beq_iff_eq] at h
  rcases h with (h | h) | rfl
  · exact @hle 'a' 'z' (by decide) h
  · exact @hle '0' '9' (by decide) h
  · decide

theorem isWord_of_isSmall {c : Char} (h : isSmall c = true) : CharClass.isWord c = true :=
  forall_of_isAscii (P := fun c => isSmall c = true → CharClass.isWord c = true) (by decide)
    (isAscii_of_isSmall h) h

namespace Lowercase

/-- Small letters, digits and underscores are in lower case. -/
theorem lowerFrom_eq_self {cs : List Char} (before : List Char) (h : ∀ c ∈ cs, isSmall c = true) :
    lowerFrom before cs = cs := by
  induction cs generalizing before with
  | nil => rfl
  | cons c cs ih =>
      obtain ⟨hc, hcs⟩ := List.forall_mem_cons.mp h
      obtain ⟨hsigma, hdotted, hletter⟩ := forall_of_isAscii
        (P := fun c => isSmall c = true →
          (c == 'Σ') = false ∧ (c == 'İ') = false ∧ letter c = c)
        (by decide) (isAscii_of_isSmall hc) hc
      rw [lowerFrom, hsigma, hdotted, hletter, ih _ hcs]
      rfl

end Lowercase

/-! ## Tokens of operands -/

/-- The tokens of a label as listings show it. A minus sign belongs to the number after it. -/
def LabelRef.tokens (l : LabelRef) : List Token :=
  if l.offset = 0 then [.name l.name]
  else if 0 < l.offset then [.name l.name, .plus, .int l.offset]
  else [.name l.name, .int l.offset]

/-- The tokens of an operand as listings show it. -/
def Operand.tokens : Operand → List Token
  | reg r => [.reg r]
  | imm value => [.int value]
  | label l => l.tokens
  | mem offset base => [.int offset, .leftParen, .reg base, .rightParen]
  | str text => [.str text]

/-! ## Reading a piece of text -/

namespace Lexer

/-! The lexemes of the marks that a written token starts with. -/

theorem lexeme_dot (rest : List Char) :
    lexeme '.' rest = marked rest fun tail => .directive (String.ofList (Lowercase.lower tail)) := rfl

theorem lexeme_quote (rest : List Char) : lexeme '"' rest = stringLiteral rest := rfl

theorem lexeme_dollar (rest : List Char) :
    lexeme '$' rest = withTail (rest.takeWhile CharClass.isWord) fun tail =>
      match Reg.ofName? (String.ofList tail) with
      | some r => .ok (.reg r)
      | none => .error .badRegister := rfl

theorem lexeme_minus (d : Char) (rest : List Char) :
    lexeme '-' (d :: rest) =
      if CharClass.isDigit d then number '-' (d :: rest) else stray := rfl

/-- The tokens and errors of a text, without their places. -/
def results (text : List Char) : List (Except LexError Token) := (lex text).map (·.1)

/-- What starts at a character that belongs to no lexeme read before it. -/
theorem lexFrom_start (pos : Nat) (c : Char) (cs : List Char) :
    lexFrom pos 0 (c :: cs) =
      if CharClass.isGap c then lexFrom (pos + c.utf8Size) 0 cs
      else
        ((lexeme c cs).result, ⟨pos, pos + Utf8.size (c :: cs.take (lexeme c cs).extra)⟩) ::
          lexFrom (pos + c.utf8Size) (lexeme c cs).extra cs := rfl

/-- What is read does not depend on where it stands. -/
theorem map_lexFrom (pos pos' skip : Nat) (text : List Char) :
    (lexFrom pos skip text).map (·.1) = (lexFrom pos' skip text).map (·.1) := by
  induction text generalizing pos pos' skip with
  | nil => rfl
  | cons c cs ih =>
      cases skip with
      | succ k => exact ih _ _ k
      | zero =>
          rw [lexFrom_start, lexFrom_start]
          split
          · exact ih _ _ 0
          · exact congrArg (_ :: ·) (ih _ _ _)

theorem map_lexFrom_length (pos : Nat) (tail rest : List Char) :
    (lexFrom pos tail.length (tail ++ rest)).map (·.1) = results rest := by
  induction tail generalizing pos with
  | nil => exact map_lexFrom _ _ _ _
  | cons c tail ih => exact ih _

theorem results_gap {c : Char} (hc : CharClass.isGap c = true) (rest : List Char) :
    results (c :: rest) = results rest := by
  rw [results, lex, lexFrom_start, if_pos hc]
  exact map_lexFrom _ _ _ _

theorem results_of_lexeme {c : Char} {tail rest : List Char} {result : Except LexError Token}
    (hc : CharClass.isGap c = false) (h : lexeme c (tail ++ rest) = ⟨result, tail.length⟩) :
    results (c :: (tail ++ rest)) = result :: results rest := by
  rw [results, lex, lexFrom_start, if_neg (by simp [hc]), h]
  exact congrArg _ (map_lexFrom_length _ _ _)

theorem results_single {c : Char} {t : Token} {rest : List Char} (hc : CharClass.isGap c = false)
    (h : lexeme c rest = single t) : results (c :: rest) = .ok t :: results rest :=
  @results_of_lexeme c [] rest (.ok t) hc h

/-- A text that the last name, number or register before it does not go on with. -/
def Stops (rest : List Char) : Prop := ∀ c ∈ rest.head?, CharClass.isNameRest c = false

theorem stops_nil : Stops [] := nofun

theorem stops_cons {c : Char} (hc : CharClass.isNameRest c = false) (rest : List Char) :
    Stops (c :: rest) := by
  rintro d ⟨⟩
  exact hc

theorem takeWhile_append {p : Char → Bool} {tail rest : List Char} (htail : ∀ c ∈ tail, p c = true)
    (hrest : ∀ c ∈ rest.head?, p c = false) : (tail ++ rest).takeWhile p = tail := by
  rw [List.takeWhile_append_of_pos htail]
  cases rest with
  | nil => simp
  | cons c rest => simp [hrest c rfl]

theorem Stops.isWord {rest : List Char} (h : Stops rest) :
    ∀ c ∈ rest.head?, CharClass.isWord c = false := by
  intro c hc
  have hrest := h c hc
  rw [CharClass.isNameRest, Bool.or_eq_false_iff] at hrest
  exact hrest.1

/-- The characters that have a meaning by themselves, and those that separate tokens. -/
def marks : List Char :=
  [':', ',', '(', ')', '+', '#', '"', '\'', '$', '%', '.', '-', ' ', '\t', '\r', '\x0c']

/-- A character that is none of the marks starts a name or a number, or is stray. -/
theorem lexeme_of_not_mem_marks {c : Char} (hc : c ∉ marks) (rest : List Char) :
    lexeme c rest =
      if CharClass.isNameStart c then
        withTail (rest.takeWhile CharClass.isNameRest) fun tail =>
          .ok (.name (String.ofList (c :: tail)))
      else if CharClass.isDigit c then number c rest
      else stray := by
  unfold lexeme
  split
  case h_13 => rfl
  all_goals exact absurd (by decide) hc

theorem isGap_of_not_mem_marks {c : Char} (hc : c ∉ marks) : CharClass.isGap c = false := by
  have hgap : c ≠ ' ' ∧ c ≠ '\t' ∧ c ≠ '\r' ∧ c ≠ '\x0c' := by
    refine ⟨?_, ?_, ?_, ?_⟩ <;> (rintro rfl; exact hc (by decide))
  simp [CharClass.isGap, hgap]

theorem results_name {c : Char} {tail rest : List Char} (hc : CharClass.isNameStart c = true)
    (htail : ∀ d ∈ tail, CharClass.isNameRest d = true) (hrest : Stops rest) :
    results (c :: (tail ++ rest)) = .ok (.name (String.ofList (c :: tail))) :: results rest := by
  have hmarks : marks.all (fun m => !CharClass.isNameStart m) = true := by decide
  have hplain : c ∉ marks := fun h => by simpa [hc] using List.all_eq_true.mp hmarks c h
  apply results_of_lexeme (isGap_of_not_mem_marks hplain)
  rw [lexeme_of_not_mem_marks hplain, if_pos hc, withTail, takeWhile_append htail hrest]

/-- A name: a letter or an underscore, and then word characters and dots. -/
def isName : List Char → Bool
  | [] => false
  | c :: tail => CharClass.isNameStart c && tail.all CharClass.isNameRest

theorem results_of_isName {name rest : List Char} (h : isName name = true) (hrest : Stops rest) :
    results (name ++ rest) = .ok (.name (String.ofList name)) :: results rest := by
  cases name with
  | nil => cases h
  | cons c tail =>
      obtain ⟨hc, htail⟩ := Bool.and_eq_true_iff.mp h
      exact results_name hc (List.all_eq_true.mp htail) hrest

/-- The name of a directive in lower case: a letter or an underscore, and then letters, digits and
underscores. -/
def isDirectiveName : List Char → Bool
  | [] => false
  | c :: tail => (c.isLower || c == '_') && tail.all isSmall

theorem results_directive {name rest : List Char} (h : isDirectiveName name = true)
    (hrest : Stops rest) :
    results ('.' :: (name ++ rest)) = .ok (.directive (String.ofList name)) :: results rest := by
  cases name with
  | nil => cases h
  | cons c tail =>
      obtain ⟨hc, htail⟩ := Bool.and_eq_true_iff.mp h
      have htail := List.all_eq_true.mp htail
      have hstart : CharClass.isNameStart c = true ∧ isSmall c = true := by
        show ((c.isUpper || c.isLower) || c == '_') = true ∧ isSmall c = true
        rcases Bool.or_eq_true_iff.mp hc with hc | hc <;> simp [isSmall, hc]
      have hword : ∀ d ∈ tail, CharClass.isWord d = true := fun d hd => isWord_of_isSmall (htail d hd)
      have hlower : Lowercase.lower (c :: tail) = c :: tail :=
        Lowercase.lowerFrom_eq_self [] (List.forall_mem_cons.mpr ⟨hstart.2, htail⟩)
      apply results_of_lexeme (by decide)
      rw [List.cons_append, lexeme_dot]
      simp only [marked, hstart.1, if_true, withTail, takeWhile_append hword hrest.isWord, hlower]

theorem results_string {text rest : List Char} (h : ∀ c ∈ text, Quoted.isPlain c = true) :
    results (Quoted.encode text ++ rest) = .ok (.str (String.ofList text)) :: results rest := by
  obtain ⟨more, hfirst⟩ := Lines.exists_first_eq (Quoted.newline_notMem_encode h) rest
  have hlexeme : lexeme '"' ((text.flatMap Quoted.encodeChar ++ ['"']) ++ rest) =
      ⟨.ok (.str (String.ofList text)), (text.flatMap Quoted.encodeChar ++ ['"']).length⟩ := by
    rw [← List.append_cons, lexeme_quote, stringLiteral, hfirst]
    simp only [Quoted.string?_encode h]
  exact results_of_lexeme (by decide) hlexeme

theorem results_reg (r : Reg) {rest : List Char} (hrest : Stops rest) :
    results (r.text.toList ++ rest) = .ok (.reg r) :: results rest := by
  have hnames : ∀ i : Fin 32, Reg.ofName? (Reg.name ⟨⟨i⟩⟩) = some ⟨⟨i⟩⟩ ∧
      (Reg.name ⟨⟨i⟩⟩).toList.all CharClass.isWord = true := by decide
  obtain ⟨hname, hall⟩ := hnames r.index.toFin
  have hword := List.all_eq_true.mp hall
  have hlexeme : lexeme '$' (r.name.toList ++ rest) = ⟨.ok (.reg r), r.name.toList.length⟩ := by
    rw [lexeme_dollar, withTail, takeWhile_append hword hrest.isWord, String.ofList_toList, hname]
  have htext : r.text.toList = '$' :: r.name.toList := String.toList_append
  rw [htext]
  exact results_of_lexeme (by decide) hlexeme

/-- A number without a sign. -/
theorem results_number {d : Nat} (hd : d < 10) {tail rest : List Char} {n : Int}
    (htail : ∀ c ∈ tail, CharClass.isWord c = true)
    (hn : Literal.number (Nat.digitChar d :: tail) = .ok n) (hrest : Stops rest) :
    results (Nat.digitChar d :: (tail ++ rest)) = .ok (.int n) :: results rest := by
  have hdigits : ∀ d < 10, Nat.digitChar d ∉ marks ∧
      CharClass.isNameStart (Nat.digitChar d) = false ∧
        CharClass.isDigit (Nat.digitChar d) = true := by decide
  obtain ⟨hplain, hname, hdigit⟩ := hdigits d hd
  apply results_of_lexeme (isGap_of_not_mem_marks hplain)
  rw [lexeme_of_not_mem_marks hplain, if_neg (by simp [hname]), if_pos hdigit, number, withTail,
    takeWhile_append htail hrest.isWord, hn]
  rfl

/-- A number with a minus sign. -/
theorem results_negative {d : Nat} (hd : d < 10) {tail rest : List Char} {n : Int}
    (htail : ∀ c ∈ Nat.digitChar d :: tail, CharClass.isWord c = true)
    (hn : Literal.number ('-' :: Nat.digitChar d :: tail) = .ok n) (hrest : Stops rest) :
    results ('-' :: (Nat.digitChar d :: tail ++ rest)) = .ok (.int n) :: results rest := by
  have hdigit : ∀ d < 10, CharClass.isDigit (Nat.digitChar d) = true := by decide
  apply results_of_lexeme (by decide)
  rw [List.cons_append, lexeme_minus, if_pos (hdigit d hd), number, withTail, ← List.cons_append,
    takeWhile_append htail hrest.isWord, hn]
  rfl

/-- An integer in decimal. -/
theorem results_int {n : Int} (hn : -2147483648 ≤ n ∧ n ≤ 4294967295) {rest : List Char}
    (hrest : Stops rest) :
    results ((Numeral.int n).toList ++ rest) = .ok (.int n) :: results rest := by
  have hdigits (m : Nat) : ∃ d < 10, ∃ tail, Nat.toDigits 10 m = Nat.digitChar d :: tail := by
    cases hm : Nat.toDigits 10 m with
    | nil => exact absurd hm Nat.toDigits_ne_nil
    | cons c tail =>
        obtain ⟨d, hd, rfl⟩ := Literal.exists_digitChar (by omega) m (hm ▸ List.mem_cons_self)
        exact ⟨d, hd, tail, rfl⟩
  have hword (m : Nat) : ∀ c ∈ Nat.toDigits 10 m, CharClass.isWord c = true := fun _ =>
    Literal.isWord_of_mem_toDigits (by omega) (by omega)
  cases n with
  | ofNat m =>
      obtain ⟨d, hd, tail, hm⟩ := hdigits m
      have hvalue := Literal.number_toDigits (n := m) (by simp at hn; omega)
      have htail := hword m
      rw [hm] at hvalue htail
      rw [Numeral.int, Numeral.nat, String.toList_ofList, hm]
      exact results_number hd (fun c hc => htail c (List.mem_cons_of_mem _ hc)) hvalue hrest
  | negSucc m =>
      obtain ⟨d, hd, tail, hm⟩ := hdigits (m + 1)
      have hvalue := Literal.number_neg_toDigits (n := m + 1) (by omega)
      have htail := hword (m + 1)
      rw [hm] at hvalue htail
      have htext : (Numeral.int (Int.negSucc m)).toList = '-' :: Nat.digitChar d :: tail := by
        simp [Numeral.int, Numeral.nat, hm]
      rw [htext, Int.negSucc_eq]
      exact results_negative hd htail hvalue hrest

/-- A number in hexadecimal. -/
theorem results_hex {width n : Nat} (hn : n < 4294967296) {rest : List Char} (hrest : Stops rest) :
    results (("0x" ++ Numeral.padded 16 width n).toList ++ rest) =
      .ok (.int n) :: results rest := by
  rw [String.toList_append]
  exact results_number (d := 0) (by omega) (fun _ => Literal.isWord_of_mem_hex) (Literal.number_hex (by omega))
    hrest

/-! ## Operands -/

/-- A text for an operand: the name of a register, a number in decimal or in hexadecimal, a decimal
offset before a register in parentheses, a label as listings show it, or quoted text. -/
inductive Writes : String → Operand → Prop
  | reg (r : Reg) : Writes r.text (.reg r)
  | decimal {n : Int} (hn : -2147483648 ≤ n ∧ n ≤ 4294967295) : Writes (Numeral.int n) (.imm n)
  | hex (width : Nat) {n : Nat} (hn : n < 4294967296) :
      Writes ("0x" ++ Numeral.padded 16 width n) (.imm n)
  | mem {n : Int} (hn : -2147483648 ≤ n ∧ n ≤ 4294967295) (base : Reg) :
      Writes (Numeral.int n ++ "(" ++ base.text ++ ")") (.mem n base)
  | label {l : LabelRef} (hname : isName l.name.toList = true)
      (hn : -2147483648 ≤ l.offset ∧ l.offset ≤ 4294967295) : Writes l.text (.label l)
  | str {text : String} (h : ∀ c ∈ text.toList, Quoted.isPlain c = true) :
      Writes (String.ofList (Quoted.encode text.toList)) (.str text)

theorem results_label {l : LabelRef} (hname : isName l.name.toList = true)
    (hn : -2147483648 ≤ l.offset ∧ l.offset ≤ 4294967295) {rest : List Char} (hrest : Stops rest) :
    results (l.text.toList ++ rest) = l.tokens.map .ok ++ results rest := by
  have hread : ∀ {more : List Char}, Stops more →
      results (l.name.toList ++ more) = .ok (.name l.name) :: results more := by
    intro more hmore
    simpa using results_of_isName hname hmore
  have hint := results_int hn hrest
  rw [LabelRef.text, LabelRef.tokens]
  by_cases hzero : l.offset = 0
  · rw [if_pos hzero, if_pos hzero]
    exact hread hrest
  by_cases hpos : 0 < l.offset
  · rw [if_neg hzero, if_neg hzero, if_pos hpos, if_pos hpos]
    have hplus : results ('+' :: ((Numeral.int l.offset).toList ++ rest)) =
        .ok .plus :: results ((Numeral.int l.offset).toList ++ rest) := results_single (by decide) rfl
    rw [hint] at hplus
    have hjoin := hread (stops_cons (c := '+') (by decide) ((Numeral.int l.offset).toList ++ rest))
    rw [hplus] at hjoin
    simpa using hjoin
  · rw [if_neg hzero, if_neg hzero, if_neg hpos, if_neg hpos]
    -- the name ends at the minus sign of the number
    have hminus : Stops ((Numeral.int l.offset).toList ++ rest) := by
      obtain ⟨m, hm⟩ : ∃ m, l.offset = Int.negSucc m := Int.eq_negSucc_of_lt_zero (by omega)
      rw [hm, Numeral.int, String.toList_append]
      exact stops_cons (c := '-') (by decide) _
    simpa [hint] using hread hminus

theorem Writes.results_eq {text : String} {o : Operand} (h : Writes text o) {rest : List Char}
    (hrest : Stops rest) :
    results (text.toList ++ rest) = (o.tokens).map .ok ++ results rest := by
  cases h with
  | reg r => exact results_reg r hrest
  | decimal hn => exact results_int hn hrest
  | hex width hn => exact results_hex hn hrest
  | @mem n hn base =>
      have hclose : results (')' :: rest) = .ok .rightParen :: results rest :=
        results_single (by decide) rfl
      have hreg := results_reg base (stops_cons (c := ')') (by decide) rest)
      have hopen : results ('(' :: (base.text.toList ++ ')' :: rest)) =
          .ok .leftParen :: results (base.text.toList ++ ')' :: rest) :=
        results_single (by decide) rfl
      have hint := results_int hn (stops_cons (c := '(') (by decide) (base.text.toList ++ ')' :: rest))
      simpa [Operand.tokens, hopen, hreg, hclose] using hint
  | label hname hn => exact results_label hname hn hrest
  | @str text h => simpa [Operand.tokens] using results_string h

theorem results_gaps {gap : List Char} (hgap : ∀ c ∈ gap, CharClass.isGap c = true)
    (rest : List Char) : results (gap ++ rest) = results rest := by
  induction gap with
  | nil => rfl
  | cons c gap ih =>
      obtain ⟨hc, hgap⟩ := List.forall_mem_cons.mp hgap
      rw [List.cons_append, results_gap hc, ih hgap]

/-- Operands with commas between them, and a gap after each comma, are read one after the other. -/
theorem results_intercalate {gap : List Char} (hgap : ∀ c ∈ gap, CharClass.isGap c = true)
    {texts : List String} {operands : List Operand} (h : List.Forall₂ Writes texts operands) :
    results ((',' :: gap).intercalate (texts.map String.toList)) =
      ([Token.comma].intercalate (operands.map Operand.tokens)).map .ok := by
  induction h with
  | nil => rfl
  | @cons text o texts operands hfirst hothers ih =>
      cases hothers with
      | nil =>
          have hlast := hfirst.results_eq stops_nil
          simpa [results, lex, lexFrom] using hlast
      | @cons text' o' texts operands hsecond hothers =>
          let more := (',' :: gap).intercalate ((text' :: texts).map String.toList)
          have hcomma : results (',' :: (gap ++ more)) = .ok .comma :: results more := by
            rw [← results_gaps hgap more]
            exact results_single (by decide) rfl
          have hjoin := hfirst.results_eq (stops_cons (c := ',') (by decide) (gap ++ more))
          rw [hcomma, ih] at hjoin
          simpa [more] using hjoin

end Lexer

end MipsLab
