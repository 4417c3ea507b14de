import Mathlib.Data.Nat.Digits.Defs
import MipsLab.Proofs.NumberRanges
import MipsLab.Proofs.TextCoverage

set_option autoImplicit false

/-!
# Numbers in a text

A number starts with a digit, perhaps after a minus sign, and takes in all word characters that follow. What it
denotes is said here without reading it (`Literal.Denotes`): decimal digits, or hexadecimal digits after `0x`, have
the value that their positions give them. Digits are read into a magnitude of 63 bits that is checked against
32 bits in the end, so a number is read exactly if it denotes a value that fits (`Lexer.lex_number`).
-/

namespace MipsLab

namespace Literal

/-! ## Digits -/

/-- `c` is the ASCII digit of the value `d`. The digits from ten on are letters, small or capital ones. -/
def IsDigit (base d : Nat) (c : Char) : Prop :=
  d < base ∧ (c = Nat.digitChar d ∨ c = (Nat.digitChar d).toUpper)

instance (base d : Nat) (c : Char) : Decidable (IsDigit base d c) := inferInstanceAs (Decidable (_ ∧ _))

theorem isAscii_of_digitValue? {base d : Nat} {c : Char} (h : Numeral.digitValue? base c = some d) :
    CharClass.isAscii c = true := by
  have hle {last : Char} (hlast : last.toNat < 128) (hc : c ≤ last) : CharClass.isAscii c = true :=
    decide_eq_true (Nat.lt_of_le_of_lt (UInt32.le_iff_toNat_le.mp hc) hlast)
  obtain ⟨hvalue, -⟩ := Option.filter_eq_some_iff.mp h
  split at hvalue
  case isTrue hc => exact hle (by decide) hc.2
  case isFalse =>
    split at hvalue
    case isTrue hc => exact hle (by decide) hc.2
    case isFalse =>
      split at hvalue
      case isTrue hc => exact hle (by decide) hc.2
      case isFalse => cases hvalue

theorem digitValue?_eq_some_iff {base : Nat} (hle : base ≤ 16) {d : Nat} {c : Char} :
    Numeral.digitValue? base c = some d ↔ IsDigit base d c := by
  constructor
  · intro h
    obtain ⟨hvalue, hlt⟩ := Option.filter_eq_some_iff.mp h
    have hd : d < base := of_decide_eq_true hlt
    -- the digits of a smaller base are among those of base 16
    have hsixteen : d ∈ Numeral.digitValue? 16 c :=
      Option.filter_eq_some_iff.mpr ⟨hvalue, decide_eq_true (by omega)⟩
    have hall := forall_of_isAscii
      (P := fun c => ∀ v ∈ Numeral.digitValue? 16 c, c = Nat.digitChar v ∨ c = (Nat.digitChar v).toUpper)
      (by decide +kernel) (isAscii_of_digitValue? h)
    exact ⟨hd, hall d hsixteen⟩
  · rintro ⟨hd, rfl | rfl⟩
    · exact digitValue?_digitChar hd hle
    · have hall : ∀ b < 17, ∀ d < b, Numeral.digitValue? b (Nat.digitChar d).toUpper = some d := by
        decide +kernel
      exact hall base (by omega) d hd

/-- The first digit is determined by its character. -/
theorem forall₂_isDigit_cons {base : Nat} (hle : base ≤ 16) {d : Nat} {c : Char} {cs : List Char} {ds : List Nat}
    (hd : Numeral.digitValue? base c = some d) (h : List.Forall₂ (IsDigit base) ds (c :: cs)) :
    ∃ ds', ds = d :: ds' ∧ List.Forall₂ (IsDigit base) ds' cs := by
  obtain ⟨d', ds', hd', hds', rfl⟩ := List.forall₂_cons_right_iff.mp h
  rw [(digitValue?_eq_some_iff hle).mpr hd'] at hd
  exact ⟨ds', by rw [Option.some.inj hd], hds'⟩

/-- To read a digit is to put it behind those that were read. -/
theorem ofDigits_read (base acc d : Nat) (ds : List Nat) :
    Nat.ofDigits base (d :: ds).reverse + base ^ (d :: ds).length * acc =
      Nat.ofDigits base ds.reverse + base ^ ds.length * (acc * base + d) := by
  rw [Nat.ofDigits_reverse_cons, List.length_cons, Nat.pow_succ]
  ring

/-! ## Magnitudes -/

/-- **A magnitude is the value of its digits**, if that fits 63 bits. -/
theorem magnitude_eq_ok_iff {base : Nat} {e : LexError} (hbase : 0 < base) (hle : base ≤ 16) {acc : Nat}
    (hacc : acc < 0x8000000000000000) (cs : List Char) (n : Nat) :
    magnitude base e acc cs = .ok n ↔
      ∃ ds, List.Forall₂ (IsDigit base) ds cs ∧ n = Nat.ofDigits base ds.reverse + base ^ ds.length * acc ∧
        n < 0x8000000000000000 := by
  induction cs generalizing acc with
  | nil =>
      simp only [magnitude, List.forall₂_nil_right_iff, Except.ok.injEq]
      constructor
      · rintro rfl
        exact ⟨[], rfl, by simp, hacc⟩
      · rintro ⟨_, rfl, rfl, -⟩
        simp
  | cons c cs ih =>
      rw [magnitude]
      split
      case h_1 hnone =>
        refine iff_of_false (by rintro ⟨⟩) ?_
        rintro ⟨_, hds, -⟩
        obtain ⟨d, _, hd, -, rfl⟩ := List.forall₂_cons_right_iff.mp hds
        rw [(digitValue?_eq_some_iff hle).mpr hd] at hnone
        cases hnone
      case h_2 d hsome =>
        have hd := (digitValue?_eq_some_iff hle).mp hsome
        split
        case isTrue hlt =>
          rw [ih hlt]
          constructor
          · rintro ⟨ds, hds, rfl, hn⟩
            exact ⟨d :: ds, .cons hd hds, (ofDigits_read base acc d ds).symm, hn⟩
          · rintro ⟨_, hds, hn⟩
            obtain ⟨ds, rfl, hrest⟩ := forall₂_isDigit_cons hle hsome hds
            rw [ofDigits_read] at hn
            exact ⟨ds, hrest, hn⟩
        case isFalse hge =>
          refine iff_of_false (by rintro ⟨⟩) ?_
          rintro ⟨_, hds, rfl, hn⟩
          obtain ⟨ds, rfl, -⟩ := forall₂_isDigit_cons hle hsome hds
          -- more digits do not make the value smaller
          have hpow : 1 * (acc * base + d) ≤ base ^ ds.length * (acc * base + d) :=
            Nat.mul_le_mul_right _ (Nat.pow_pos hbase)
          rw [ofDigits_read] at hn
          omega

/-- The digits, and the prefix in front of hexadecimal ones, spell a natural number. -/
inductive Spells : List Char → Nat → Prop
  | decimal {cs : List Char} {ds : List Nat} (hne : cs ≠ []) (h : List.Forall₂ (IsDigit 10) ds cs) :
      Spells cs (Nat.ofDigits 10 ds.reverse)
  | hexadecimal {x : Char} (hx : x = 'x' ∨ x = 'X') {cs : List Char} {ds : List Nat} (hne : cs ≠ [])
      (h : List.Forall₂ (IsDigit 16) ds cs) : Spells ('0' :: x :: cs) (Nat.ofDigits 16 ds.reverse)

/-- No letter is a decimal digit, so what starts with a prefix is no decimal number. -/
theorem not_decimal_prefixed {x : Char} (hx : x = 'x' ∨ x = 'X') {ds : List Nat} {digits : List Char} :
    ¬ List.Forall₂ (IsDigit 10) ds ('0' :: x :: digits) := by
  intro h
  obtain ⟨_, ds, -, h, -⟩ := List.forall₂_cons_right_iff.mp h
  obtain ⟨d, _, hd, -, -⟩ := List.forall₂_cons_right_iff.mp h
  have hvalue := (digitValue?_eq_some_iff (by decide)).mpr hd
  rcases hx with rfl | rfl <;> cases hvalue

theorem magnitude_zero_eq_ok_iff {base : Nat} {e : LexError} (hbase : 0 < base) (hle : base ≤ 16)
    (cs : List Char) (n : Nat) :
    magnitude base e 0 cs = .ok n ↔
      ∃ ds, List.Forall₂ (IsDigit base) ds cs ∧ n = Nat.ofDigits base ds.reverse ∧ n < 0x8000000000000000 := by
  have hzero : 0 < 0x8000000000000000 := by decide
  simpa only [Nat.mul_zero, Nat.add_zero] using magnitude_eq_ok_iff (e := e) hbase hle hzero cs n

/-- The digits behind a prefix are read in base 16. -/
theorem prefixed_eq_ok_iff {x : Char} (hx : x = 'x' ∨ x = 'X') (digits : List Char) (n : Nat) :
    (if digits.isEmpty then .error .noHexDigits else magnitude 16 .badHexDigit 0 digits) = .ok n ↔
      Spells ('0' :: x :: digits) n ∧ n < 0x8000000000000000 := by
  cases digits with
  | nil =>
      refine iff_of_false nofun ?_
      rintro ⟨⟨-, h⟩ | ⟨-, hne, -⟩, -⟩
      · exact not_decimal_prefixed hx h
      · exact hne rfl
  | cons c digits =>
      rw [List.isEmpty_cons, if_neg Bool.false_ne_true, magnitude_zero_eq_ok_iff (by decide) (by decide)]
      constructor
      · rintro ⟨ds, hds, rfl, hn⟩
        exact ⟨.hexadecimal hx nofun hds, hn⟩
      · rintro ⟨⟨-, h⟩ | ⟨-, -, hds⟩, hn⟩
        · exact absurd h (not_decimal_prefixed hx)
        · exact ⟨_, hds, rfl, hn⟩

theorem unsignedValue_eq_ok_iff {cs : List Char} (hcs : cs ≠ []) (n : Nat) :
    unsignedValue cs = .ok n ↔ Spells cs n ∧ n < 0x8000000000000000 := by
  unfold unsignedValue
  split
  case h_1 digits => exact prefixed_eq_ok_iff (.inl rfl) digits n
  case h_2 digits => exact prefixed_eq_ok_iff (.inr rfl) digits n
  case h_3 hsmall hcapital =>
    rw [magnitude_zero_eq_ok_iff (by decide) (by decide)]
    constructor
    · rintro ⟨ds, hds, rfl, hn⟩
      exact ⟨.decimal hcs hds, hn⟩
    · rintro ⟨⟨-, hds⟩ | ⟨hx, -, -⟩, hn⟩
      · exact ⟨_, hds, rfl, hn⟩
      · rcases hx with rfl | rfl
        · exact (hsmall _ rfl).elim
        · exact (hcapital _ rfl).elim

/-- A number starts with a digit of any script, perhaps after a minus sign, and goes on with word characters. -/
inductive IsNumeric : List Char → Prop
  | plain {d : Char} {tail : List Char} (hd : CharClass.isDigit d = true)
      (htail : ∀ c ∈ tail, CharClass.isWord c = true) : IsNumeric (d :: tail)
  | minus {d : Char} {tail : List Char} (hd : CharClass.isDigit d = true)
      (htail : ∀ c ∈ tail, CharClass.isWord c = true) : IsNumeric ('-' :: d :: tail)

/-- The integer that a number denotes. -/
inductive Denotes : List Char → Int → Prop
  | plain {cs : List Char} {n : Nat} (h : Spells cs n) : Denotes cs n
  | minus {cs : List Char} {n : Nat} (h : Spells cs n) : Denotes ('-' :: cs) (-n)

theorem not_spells_minus (cs : List Char) (n : Nat) : ¬ Spells ('-' :: cs) n := by
  rintro ⟨-, h⟩
  obtain ⟨d, _, hd, -⟩ := List.forall₂_cons_right_iff.mp h
  have hvalue := (digitValue?_eq_some_iff (by decide)).mpr hd
  cases hvalue

theorem inRange_eq_ok_iff (m v : Int) : inRange m = .ok v ↔ v = m ∧ IsLiteral m := by
  unfold inRange IsLiteral
  split
  case isTrue hm =>
    rw [Except.ok.injEq, eq_comm]
    exact (and_iff_left ⟨hm.1, by omega⟩).symm
  case isFalse hm =>
    refine iff_of_false nofun ?_
    rintro ⟨-, hle, hlt⟩
    exact hm ⟨hle, by omega⟩

/-- A magnitude that is too large for 63 bits is too large for 32 bits, with or without a sign. -/
theorem signed_eq_ok_iff {cs : List Char} (hcs : cs ≠ []) (sign : Nat → Int)
    (hsign : ∀ n, IsLiteral (sign n) → n < 0x8000000000000000) (v : Int) :
    (do inRange (sign (← unsignedValue cs))) = .ok v ↔ ∃ n, (Spells cs n ∧ v = sign n) ∧ IsLiteral v := by
  have hread {n : Nat} (hn : Spells cs n) (hliteral : IsLiteral (sign n)) : unsignedValue cs = .ok n :=
    (unsignedValue_eq_ok_iff hcs n).mpr ⟨hn, hsign n hliteral⟩
  cases hvalue : unsignedValue cs with
  | error e =>
      refine iff_of_false nofun ?_
      rintro ⟨n, ⟨hn, rfl⟩, hliteral⟩
      rw [hread hn hliteral] at hvalue
      cases hvalue
  | ok m =>
      refine (inRange_eq_ok_iff _ _).trans ⟨?_, ?_⟩
      · rintro ⟨rfl, hliteral⟩
        exact ⟨m, ⟨((unsignedValue_eq_ok_iff hcs m).mp hvalue).1, rfl⟩, hliteral⟩
      · rintro ⟨n, ⟨hn, rfl⟩, hliteral⟩
        rw [hread hn hliteral] at hvalue
        rw [← Except.ok.inj hvalue]
        exact ⟨rfl, hliteral⟩

/-- **A number has the value that it denotes**, if that is one of a 32-bit word. -/
theorem number_eq_ok_iff {slice : List Char} (h : IsNumeric slice) (v : Int) :
    number slice = .ok v ↔ Denotes slice v ∧ IsLiteral v := by
  cases h with
  | @plain d tail hd htail =>
      have hplain : d ≠ '-' := by
        rintro rfl
        cases hd
      have hvalue : number (d :: tail) = (do inRange (← unsignedValue (d :: tail) : Nat)) := by
        unfold number
        split
        case h_1 hminus => exact absurd (List.cons.inj hminus).1 hplain
        case h_2 => rfl
      rw [hvalue]
      have hfits (n : Nat) (hn : IsLiteral n) : n < 0x8000000000000000 := by
        have hlt := hn.2
        omega
      refine (signed_eq_ok_iff (List.cons_ne_nil d tail) (fun n => n) hfits v).trans ⟨?_, ?_⟩
      · rintro ⟨n, ⟨hn, rfl⟩, hliteral⟩
        exact ⟨.plain hn, hliteral⟩
      · rintro ⟨hn | _, hliteral⟩
        · exact ⟨_, ⟨hn, rfl⟩, hliteral⟩
        · exact absurd rfl hplain
  | @minus d tail hd htail =>
      have hfits (n : Nat) (hn : IsLiteral (-n)) : n < 0x8000000000000000 := by
        have hle := hn.1
        omega
      refine (signed_eq_ok_iff (List.cons_ne_nil d tail) (fun n => -n) hfits v).trans ⟨?_, ?_⟩
      · rintro ⟨n, ⟨hn, rfl⟩, hliteral⟩
        exact ⟨.minus hn, hliteral⟩
      · rintro ⟨hn | hn, hliteral⟩
        · exact absurd hn (not_spells_minus _ _)
        · exact ⟨_, ⟨hn, rfl⟩, hliteral⟩

/-- A number in hexadecimal, with at least as many digits as `width` says. -/
def hexadecimal (width : Nat) (v : Int) : List Char :=
  (if v < 0 then ['-'] else []) ++ '0' :: 'x' :: (Numeral.padded 16 width v.natAbs).toList

end Literal

/-! ## Digits of any script -/

namespace CharClass

/-- Each range of digits is part of a range of word characters. -/
theorem isWord_of_isDigit {c : Char} (h : isDigit c = true) : isWord c = true := by
  have hranges : (CharTable.digitRanges.all fun r =>
      CharTable.wordRanges.any fun s => s.1.ble r.1 && r.2.ble s.2) = true := by decide +kernel
  unfold isDigit at h
  unfold isWord
  split at h
  case isTrue hc => simp [hc, Char.isAlphanum, h]
  case isFalse hc =>
    rw [if_neg hc]
    obtain ⟨r, hr, hin⟩ := List.any_eq_true.mp h
    obtain ⟨s, hs, hpart⟩ := List.any_eq_true.mp (List.all_eq_true.mp hranges r hr)
    refine List.any_eq_true.mpr ⟨s, hs, ?_⟩
    simp only [Bool.and_eq_true, decide_eq_true_eq, Nat.ble_eq] at hin hpart ⊢
    exact ⟨hpart.1.trans hin.1, hin.2.trans hpart.2⟩

theorem isAscii_of_isNameStart {c : Char} (h : isNameStart c = true) : isAscii c = true := by
  have hle {last : Char} (hlast : last.toNat < 128) (hc : c.val ≤ last.val) : isAscii c = true :=
    decide_eq_true (Nat.lt_of_le_of_lt (UInt32.le_iff_toNat_le.mp hc) hlast)
  rcases Bool.or_eq_true_iff.mp h with hletter | hunderscore
  · rcases Bool.or_eq_true_iff.mp hletter with hupper | hlower
    · exact @hle 'Z' (by decide) (of_decide_eq_true hupper).2
    · exact @hle 'z' (by decide) (of_decide_eq_true (Bool.and_eq_true_iff.mp hlower).2)
  · rw [beq_iff_eq.mp hunderscore]
    decide

/-- No name starts with a digit. -/
theorem isNameStart_of_isDigit {c : Char} (h : isDigit c = true) : isNameStart c = false := by
  by_cases hc : isAscii c = true
  · exact forall_of_isAscii (P := fun c => isDigit c = true → isNameStart c = false) (by decide +kernel) hc h
  · exact Bool.eq_false_iff.mpr fun hname => hc (isAscii_of_isNameStart hname)

end CharClass

open Utf8

/-- A part of a text is determined by what comes before it, and that by its size. -/
theorem Utf8.append_inj_of_size {xs ys : List Char} {as bs : List Char} (h : xs ++ as = ys ++ bs)
    (hsize : size xs = size ys) : xs = ys ∧ as = bs := by
  have hnil {zs ms : List Char} (h : size (zs ++ ms) = size zs) : ms = [] := by
    cases ms with
    | nil => rfl
    | cons c ms =>
        rw [size_append] at h
        have hpos := size_pos c ms
        omega
  rcases List.append_eq_append_iff.mp h with ⟨ms, rfl, rfl⟩ | ⟨ms, rfl, rfl⟩
  · simp [hnil hsize.symm]
  · simp [hnil hsize]

namespace Lexer

theorem digit_not_mem_marks {c : Char} (h : CharClass.isDigit c = true) : c ∉ marks := by
  have hmarks : marks.all (fun m => !CharClass.isDigit m) = true := by decide
  exact fun hc => by simpa [h] using List.all_eq_true.mp hmarks c hc

/-- **What starts at a number is the number**, up to the end of the word. -/
theorem lexeme_of_isNumeric {c : Char} {tail rest : List Char} (h : Literal.IsNumeric (c :: tail))
    (hrest : ∀ d ∈ rest.head?, CharClass.isWord d = false) :
    CharClass.isGap c = false ∧
      lexeme c (tail ++ rest) = ⟨(Literal.number (c :: tail)).map .int, tail.length⟩ := by
  cases h with
  | plain hd htail =>
      have hplain := digit_not_mem_marks hd
      refine ⟨isGap_of_not_mem_marks hplain, ?_⟩
      rw [lexeme_of_not_mem_marks hplain, CharClass.isNameStart_of_isDigit hd, if_neg Bool.false_ne_true,
        if_pos hd, number, withTail, takeWhile_append htail hrest]
  | @minus d tail hd htail =>
      have hword : ∀ c ∈ d :: tail, CharClass.isWord c = true :=
        List.forall_mem_cons.mpr ⟨CharClass.isWord_of_isDigit hd, htail⟩
      refine ⟨by decide, ?_⟩
      rw [List.cons_append, lexeme_minus, if_pos hd, number, withTail, ← List.cons_append,
        takeWhile_append hword hrest]

/-- What is read at a number that starts at a byte of the text: the integer that it denotes if that is one of a
32-bit word, and an error otherwise. -/
structure ReadsNumber (slice : List Char) (start : Nat) (x : Except LexError Token × Span) : Prop where
  place : x.2 = ⟨start, start + size slice⟩
  value : ∀ v, x.1 = .ok (.int v) ↔ Literal.Denotes slice v ∧ IsLiteral v
  otherwise : (∀ v, ¬ (Literal.Denotes slice v ∧ IsLiteral v)) → ∃ e, x.1 = .error e

theorem readsNumber_of_lexeme {slice : List Char} (h : Literal.IsNumeric slice) (start : Nat) :
    ReadsNumber slice start ((Literal.number slice).map .int, ⟨start, start + size slice⟩) where
  place := rfl
  value v := by
    rw [← Literal.number_eq_ok_iff h]
    cases Literal.number slice with
    | error e => exact iff_of_false nofun nofun
    | ok n => simp [Except.map]
  otherwise := by
    intro hnone
    cases hnumber : Literal.number slice with
    | error e => exact ⟨e, rfl⟩
    | ok n => exact absurd ((Literal.number_eq_ok_iff h n).mp hnumber) (hnone n)

/-- A lexeme that starts with a number is the number. -/
theorem readsNumber_of_mem_lex {front slice rest : List Char} (h : Literal.IsNumeric slice)
    (hrest : ∀ c ∈ rest.head?, CharClass.isWord c = false) {x : Except LexError Token × Span}
    (hx : x ∈ lex (front ++ (slice ++ rest))) (hstart : x.2.start = size front) :
    ReadsNumber slice (size front) x := by
  obtain ⟨front', c, cs, htext, rfl⟩ := exists_of_mem_lex hx
  obtain ⟨rfl, hsplit⟩ := Utf8.append_inj_of_size htext hstart.symm
  cases slice with
  | nil => cases h
  | cons d tail =>
      obtain ⟨rfl, htail⟩ := List.cons.inj hsplit
      rw [← htail, List.append_eq, (lexeme_of_isNumeric h hrest).2]
      dsimp only
      rw [List.take_left]
      exact readsNumber_of_lexeme h _

/-- A lexeme starts at a character that is no gap, unless the character belongs to an earlier one. -/
theorem exists_mem_lex_of_start {front rest : List Char} {c : Char} (hc : CharClass.isGap c = false)
    (hfree : ∀ x ∈ lex (front ++ c :: rest), x.2.start < size front → x.2.stop ≤ size front) :
    ∃ x ∈ lex (front ++ c :: rest), x.2.start = size front := by
  by_contra hnone
  have hout : ∀ x ∈ lex (front ++ c :: rest), ¬ Within x ([] ++ front) := by
    rintro x hx ⟨hle, hlt⟩
    rcases Nat.lt_or_eq_of_le hle with hearlier | heq
    · exact absurd (hfree x hx hearlier) (by simpa using hlt)
    · exact hnone ⟨x, hx, heq⟩
  have hgap := (reads_lex (front ++ c :: rest)).isGap_of_not_within rfl hout
  rw [hc] at hgap
  cases hgap

/-- A text that is a number is read as this number. -/
theorem lex_eq_of_number {slice : List Char} (h : Literal.IsNumeric slice) {v : Int}
    (hv : Literal.number slice = .ok v) : lex slice = [(.ok (.int v), ⟨0, size slice⟩)] := by
  cases slice with
  | nil => cases h
  | cons c tail =>
      obtain ⟨hgap, hlexeme⟩ := @lexeme_of_isNumeric c tail [] h nofun
      rw [List.append_nil] at hlexeme
      have hnothing (pos : Nat) : lexFrom pos tail.length tail = [] := by
        have hown := lexFrom_own pos tail []
        rwa [List.append_nil] at hown
      rw [lex, lexFrom_start, if_neg (by simp [hgap]), hlexeme]
      dsimp only
      rw [hnothing, hv, List.take_length, Nat.zero_add]
      rfl

/-! ## Numbers read back -/

/-- A number in decimal starts with a digit, and so does what is behind its minus sign. -/
theorem isNumeric_toDigits (n : Nat) :
    Literal.IsNumeric (Nat.toDigits 10 n) ∧ Literal.IsNumeric ('-' :: Nat.toDigits 10 n) := by
  have hdigit : ∀ c ∈ Nat.toDigits 10 n, CharClass.isDigit c = true := by
    intro c hc
    have hvalues : ∀ d < 10, CharClass.isDigit (Nat.digitChar d) = true := by decide
    obtain ⟨d, hd, rfl⟩ := Literal.exists_digitChar (by decide) n hc
    exact hvalues d hd
  cases hn : Nat.toDigits 10 n with
  | nil => exact absurd hn Nat.toDigits_ne_nil
  | cons d tail =>
      rw [hn] at hdigit
      obtain ⟨hd, htail⟩ := List.forall_mem_cons.mp hdigit
      have hword : ∀ c ∈ tail, CharClass.isWord c = true := fun c hc => CharClass.isWord_of_isDigit (htail c hc)
      exact ⟨.plain hd hword, .minus hd hword⟩

theorem lex_int {v : Int} (hv : IsLiteral v) :
    lex (Numeral.int v).toList = [(.ok (.int v), ⟨0, size (Numeral.int v).toList⟩)] := by
  obtain ⟨hle, hlt⟩ := hv
  cases v with
  | ofNat n =>
      have htext : (Numeral.int (.ofNat n)).toList = Nat.toDigits 10 n := String.toList_ofList
      rw [htext]
      exact lex_eq_of_number (isNumeric_toDigits n).1 (Literal.number_toDigits (by simp at hlt; omega))
  | negSucc n =>
      have htext : (Numeral.int (.negSucc n)).toList = '-' :: Nat.toDigits 10 (n + 1) := by
        simp [Numeral.int, Numeral.nat]
      rw [htext]
      exact lex_eq_of_number (isNumeric_toDigits (n + 1)).2 (Literal.number_neg_toDigits (by omega))

theorem lex_hexadecimal (width : Nat) {v : Int} (hv : IsLiteral v) :
    lex (Literal.hexadecimal width v) = [(.ok (.int v), ⟨0, size (Literal.hexadecimal width v)⟩)] := by
  have hword {n : Nat} : ∀ c ∈ 'x' :: (Numeral.padded 16 width n).toList, CharClass.isWord c = true :=
    fun _ => Literal.isWord_of_mem_hex
  obtain ⟨hle, hlt⟩ := hv
  unfold Literal.hexadecimal
  split
  case isTrue hneg =>
    refine lex_eq_of_number (.minus (by decide) hword) ?_
    have hvalue := @Literal.number_neg_hex width v.natAbs (by omega)
    rwa [show (-(v.natAbs : Int)) = v by omega] at hvalue
  case isFalse hpos =>
    refine lex_eq_of_number (.plain (by decide) hword) ?_
    have hvalue := @Literal.number_hex width v.natAbs (by omega)
    rwa [show (v.natAbs : Int) = v by omega] at hvalue

/-- **Numbers are read by what they denote.** Where a number starts and no token in front of it goes on, it is
read up to the end of the word: as an integer if it denotes one that fits, and as an error otherwise. So all values
that fit are read back from decimal and from hexadecimal digits. -/
theorem lex_number :
    (∀ front slice rest, Literal.IsNumeric slice → (∀ c ∈ rest.head?, CharClass.isWord c = false) →
      let xs := lex (front ++ (slice ++ rest))
      (∀ x ∈ xs, x.2.start = size front → ReadsNumber slice (size front) x) ∧
        ((∀ x ∈ xs, x.2.start < size front → x.2.stop ≤ size front) → ∃ x ∈ xs, x.2.start = size front)) ∧
      ∀ v, IsLiteral v →
        lex (Numeral.int v).toList = [(.ok (.int v), ⟨0, size (Numeral.int v).toList⟩)] ∧
          ∀ width, lex (Literal.hexadecimal width v) =
            [(.ok (.int v), ⟨0, size (Literal.hexadecimal width v)⟩)] := by
  refine ⟨?_, fun v hv => ⟨lex_int hv, fun width => lex_hexadecimal width hv⟩⟩
  intro front slice rest hslice hrest
  refine ⟨fun x hx hstart => readsNumber_of_mem_lex hslice hrest hx hstart, ?_⟩
  cases hslice with
  | plain hd _ => exact exists_mem_lex_of_start (isGap_of_not_mem_marks (digit_not_mem_marks hd))
  | minus _ _ => exact exists_mem_lex_of_start (by decide)

/-- The number in `li $t0, -0x00ff # low`. -/
theorem lex_number_padded :
    let front := ['l', 'i', ' ', '$', 't', '0', ',', ' ']
    let slice := ['-', '0', 'x', '0', '0', 'f', 'f']
    let rest := [' ', '#', ' ', 'l', 'o', 'w']
    Literal.IsNumeric slice ∧ Literal.Denotes slice (-255) ∧ IsLiteral (-255) ∧
      (.ok (.int (-255)), ⟨8, 15⟩) ∈ lex (front ++ (slice ++ rest)) ∧
        lex (Numeral.int (-255)).toList = [(.ok (.int (-255)), ⟨0, 4⟩)] := by
  intro front slice rest
  have hslice : Literal.IsNumeric slice := .minus (by decide) (List.all_eq_true.mp (by decide))
  have hrest : ∀ c ∈ rest.head?, CharClass.isWord c = false := by
    rintro _ ⟨⟩
    decide
  have hdigits : List.Forall₂ (Literal.IsDigit 16) [0, 0, 15, 15] ['0', '0', 'f', 'f'] :=
    .cons (by decide) (.cons (by decide) (.cons (by decide) (.cons (by decide) .nil)))
  have hdenotes : Literal.Denotes slice (-255) := .minus (.hexadecimal (.inl rfl) (by decide) hdigits)
  have hliteral : IsLiteral (-255) := by decide
  obtain ⟨hread, hexists⟩ := lex_number.1 front slice rest hslice hrest
  obtain ⟨x, hx, hstart⟩ := hexists (by decide +kernel)
  have hnumber := hread x hx hstart
  have hpair : x = (.ok (.int (-255)), ⟨8, 15⟩) :=
    Prod.ext ((hnumber.value _).mpr ⟨hdenotes, hliteral⟩) hnumber.place
  exact ⟨hslice, hdenotes, hliteral, hpair ▸ hx, (lex_number.2 _ hliteral).1⟩

end Lexer

end MipsLab
