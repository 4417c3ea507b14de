import Mathlib.Algebra.Group.Nat.Defs
import MipsLab.Memory
import Std.Data.TreeMap.Lemmas

set_option autoImplicit false

/-!
# Images of memory

What a program can tell of memory is the byte at every address, its *image*. Touching pages leaves
the image alone, and a write patches it. This module says what every operation of memory does to
the image, so that no later proof opens the pages. Addresses wrap around: after the last one comes the
first.
-/

namespace MipsLab

/-! ## Bytes of words -/

namespace Word

theorem ofBytes_bytes (w : Word) : ofBytes (bytes w) = w := by
  simp only [bytes, ofBytes, byte]
  apply BitVec.eq_of_getLsbD_eq
  intro i hi
  simp
  grind

theorem bytes_ofBytes (a b c d : Byte) : bytes (ofBytes [a, b, c, d]) = [a, b, c, d] := by
  simp only [bytes, ofBytes, byte, List.cons.injEq, and_true]
  refine ⟨?_, ?_, ?_, ?_⟩ <;> apply BitVec.eq_of_getLsbD_eq <;> intro i hi <;> simp <;> grind

@[simp] theorem length_bytes (w : Word) : (bytes w).length = 4 := rfl

/-! ## Alignment -/

/-- Clearing the low bits of a word rounds it down. -/
theorem toNat_and_of_getLsbD {n : Nat} {mask : Word}
    (hmask : ∀ i : Fin 32, mask.getLsbD i.val = decide (n ≤ i.val)) (a : Word) :
    (a &&& mask).toNat = a.toNat / 2 ^ n * 2 ^ n := by
  -- clearing the low bits is the same as shifting them out and back
  have h : a &&& mask = a >>> n <<< n := by
    apply BitVec.eq_of_getLsbD_eq
    intro i hi
    have hbit := hmask ⟨i, hi⟩
    rw [BitVec.getLsbD_and, hbit, BitVec.getLsbD_shiftLeft, BitVec.getLsbD_ushiftRight]
    grind
  have hle : a.toNat / 2 ^ n * 2 ^ n ≤ a.toNat := Nat.div_mul_le_self _ _
  rw [h, BitVec.toNat_shiftLeft, BitVec.toNat_ushiftRight, Nat.shiftLeft_eq,
    Nat.shiftRight_eq_div_pow, Nat.mod_eq_of_lt (Nat.lt_of_le_of_lt hle a.isLt)]

theorem toNat_wordAligned (a : Word) : (wordAligned a).toNat = a.toNat / 4 * 4 :=
  toNat_and_of_getLsbD (n := 2) (by decide) a

theorem isAligned_iff (a : Word) (n : Nat) : isAligned a n = true ↔ a.toNat % n = 0 := by
  simp [isAligned]

@[simp] theorem wordAligned_wordAligned (a : Word) :
    wordAligned (wordAligned a) = wordAligned a := by
  apply BitVec.eq_of_toNat_eq
  simp only [toNat_wordAligned]
  omega

theorem wordAligned_of_isAligned {a : Word} (h : isAligned a 4 = true) : wordAligned a = a := by
  rw [isAligned_iff] at h
  apply BitVec.eq_of_toNat_eq
  rw [toNat_wordAligned]
  omega

/-- An address lies in the word at `wordAligned a` if it is less than four places after it. -/
theorem wordAligned_eq_iff (a x : Word) :
    wordAligned x = wordAligned a ↔ (x - wordAligned a).toNat < 4 := by
  have hx := x.isLt
  have ha := a.isLt
  rw [← BitVec.toNat_inj, BitVec.toNat_sub, toNat_wordAligned, toNat_wordAligned]
  omega

/-- The next address is one place nearer to every other address. -/
theorem toNat_sub_eq_add_one {a x : Word} (h : x ≠ a) :
    (x - a).toNat = (x - (a + 1)).toNat + 1 := by
  bv_omega

/-- The bytes of an aligned access lie in one word. -/
theorem wordAligned_of_sub_lt {a x : Word} {width : Nat} (hw : width = 1 ∨ width = 2 ∨ width = 4)
    (ha : isAligned a width = true) (hx : (x - a).toNat < width) :
    wordAligned x = wordAligned a := by
  have hx' := x.isLt
  have ha' := a.isLt
  rw [isAligned_iff] at ha
  rw [BitVec.toNat_sub] at hx
  rw [← BitVec.toNat_inj, toNat_wordAligned, toNat_wordAligned]
  rcases hw with rfl | rfl | rfl <;> omega

end Word

theorem add_one_add_ofNat (a : Word) (i : Nat) :
    a + 1 + BitVec.ofNat 32 i = a + BitVec.ofNat 32 (i + 1) := by
  rw [BitVec.add_assoc, Nat.add_comm i 1, BitVec.ofNat_add]
  rfl

theorem add_four_add (a : Word) (k : Nat) :
    a + 4 + BitVec.ofNat 32 (4 * k) = a + BitVec.ofNat 32 (4 * (k + 1)) := by
  rw [BitVec.add_assoc, Nat.mul_add, Nat.add_comm (4 * k), BitVec.ofNat_add]
  rfl

/-! ## Images -/

/-- The byte at every address. -/
abbrev Image := Word → Byte

namespace Image

/-- The `n` bytes from an address on. -/
def bytesAt (g : Image) (a : Word) : Nat → List Byte
  | 0 => []
  | n + 1 => g a :: bytesAt g (a + 1) n

/-- The little-endian value of `width` bytes from an address on. -/
def value (g : Image) (a : Word) (width : Nat) : Word := Word.ofBytes (bytesAt g a width)

/-- The word at an address. -/
def word (g : Image) (a : Word) : Word := value g a 4

/-- The image with one byte replaced. -/
def update (g : Image) (a : Word) (b : Byte) : Image := fun x => if x = a then b else g x

/-- The image with bytes put in from an address on. -/
def patch (g : Image) (a : Word) : List Byte → Image
  | [] => g
  | b :: bs => patch (update g a b) (a + 1) bs

/-- The image with the low `width` bytes of a word put in from an address on. -/
def store (g : Image) (a : Word) (width : Nat) (value : Word) : Image :=
  patch g a ((Word.bytes value).take width)

theorem setWidth_value_one (g : Image) (a : Word) : (value g a 1).setWidth 8 = g a := by
  simp [value, bytesAt, Word.ofBytes]

theorem store_one (g : Image) (a : Word) (b : Byte) : store g a 1 (b.setWidth 32) = update g a b := by
  have hbyte : Word.byte (b.setWidth 32) 0 = b := by
    rw [Word.byte, BitVec.extractLsb'_setWidth_of_le (by decide), BitVec.extractLsb'_eq_self]
  simp [store, Word.bytes, patch, hbyte]

/-- A byte of a patched image is the one that was put there, if there is one. -/
theorem patch_apply (bs : List Byte) (h : bs.length ≤ 0x100000000) (g : Image) (a x : Word) :
    patch g a bs x = (bs[(x - a).toNat]?).getD (g x) := by
  induction bs generalizing g a with
  | nil => rfl
  | cons b bs ih =>
      rw [List.length_cons] at h
      rw [patch, ih (by omega)]
      unfold update
      by_cases hx : x = a
      · -- the byte at `a` itself: no later byte comes round to it
        subst hx
        have hlast : bs.length ≤ (x - (x + 1)).toNat := by bv_omega
        rw [List.getElem?_eq_none hlast, BitVec.sub_self]
        simp
      · rw [Word.toNat_sub_eq_add_one hx, List.getElem?_cons_succ, if_neg hx]

/-- Bytes outside of what is put in stay as they are. -/
theorem patch_of_le (bs : List Byte) (h : bs.length ≤ 0x100000000) (g : Image) {a x : Word}
    (hx : bs.length ≤ (x - a).toNat) : patch g a bs x = g x := by
  rw [patch_apply bs h, List.getElem?_eq_none hx, Option.getD_none]

theorem bytesAt_congr {g g' : Image} {a : Word} {n : Nat} (hn : n ≤ 0x100000000)
    (h : ∀ x, (x - a).toNat < n → g x = g' x) : bytesAt g a n = bytesAt g' a n := by
  induction n generalizing a with
  | zero => rfl
  | succ n ih =>
      simp only [bytesAt]
      -- the first byte is at distance zero, the others are one nearer to the next address
      rw [h a (by simp), ih (by omega)]
      intro x hx
      apply h
      by_cases hxa : x = a
      · simp [hxa]
      · rw [Word.toNat_sub_eq_add_one hxa]
        omega

theorem length_bytesAt (g : Image) (a : Word) (n : Nat) : (bytesAt g a n).length = n := by
  induction n generalizing a with
  | zero => rfl
  | succ n ih => rw [bytesAt, List.length_cons, ih]

theorem getElem?_bytesAt (g : Image) (a x : Word) (n : Nat) (h : (x - a).toNat < n) :
    (bytesAt g a n)[(x - a).toNat]? = some (g x) := by
  induction n generalizing a with
  | zero => omega
  | succ n ih =>
      by_cases hx : x = a
      · subst hx
        simp [bytesAt]
      · have hnext := Word.toNat_sub_eq_add_one hx
        rw [hnext, bytesAt, List.getElem?_cons_succ]
        exact ih (a + 1) (by omega)

theorem bytes_word (g : Image) (a : Word) : Word.bytes (word g a) = bytesAt g a 4 :=
  Word.bytes_ofBytes _ _ _ _

theorem word_congr {g g' : Image} {a : Word} (h : ∀ x, (x - a).toNat < 4 → g x = g' x) :
    word g a = word g' a := by
  rw [word, word, value, value, bytesAt_congr (by omega) h]

/-- The word at an address has a given value if the four bytes there are those of the value. -/
theorem word_eq_iff (g : Image) (a w : Word) :
    word g a = w ↔ ∀ x, (x - a).toNat < 4 → (Word.bytes w)[(x - a).toNat]? = some (g x) := by
  constructor
  · rintro rfl x hx
    rw [bytes_word, getElem?_bytesAt _ _ _ _ hx]
  · intro h
    have hbytes : bytesAt g a 4 = Word.bytes w := by
      apply List.ext_getElem?
      intro i
      -- the first four bytes are compared by their addresses, and there are no more
      by_cases hi : i < 4
      · have hx : (a + BitVec.ofNat 32 i - a).toNat = i := by bv_omega
        have hbyte := h (a + BitVec.ofNat 32 i) (by omega)
        rw [hx] at hbyte
        rw [hbyte, ← getElem?_bytesAt g a (a + BitVec.ofNat 32 i) 4 (by omega), hx]
      · rw [List.getElem?_eq_none (by rw [length_bytesAt]; omega),
          List.getElem?_eq_none (by rw [Word.length_bytes]; omega)]
    rw [word, value, hbytes, Word.ofBytes_bytes]

/-- A patch changes nothing where it puts in what was there. -/
theorem patch_bytesAt (g g' : Image) (a x : Word) (n : Nat) (hn : n ≤ 0x100000000) :
    patch g a (bytesAt g' a n) x = if (x - a).toNat < n then g' x else g x := by
  split
  case isTrue h =>
    rw [patch_apply _ (by rw [length_bytesAt]; exact hn), getElem?_bytesAt _ _ _ _ h,
      Option.getD_some]
  case isFalse h =>
    rw [patch_of_le _ (by rw [length_bytesAt]; exact hn) _ (by rw [length_bytesAt]; omega)]

/-- Storing the word of another image copies its bytes. -/
theorem store_word (g g' : Image) (a x : Word) :
    store g a 4 (word g' a) x = if (x - a).toNat < 4 then g' x else g x := by
  have hall : (Word.bytes (word g' a)).take 4 = bytesAt g' a 4 := by
    rw [List.take_of_length_le (Nat.le_of_eq (Word.length_bytes _)), bytes_word]
  rw [store, hall, patch_bytesAt _ _ _ _ _ (by omega)]

/-- `g'` is `g` with bytes put in from an address on, and nothing else changed. If they come round to
their own beginning, the last byte at an address counts. -/
structure Puts (g : Image) (a : Word) (bs : List Byte) (g' : Image) : Prop where
  addressed : ∀ i (h : i < bs.length), bs.length ≤ i + 0x100000000 →
    g' (a + BitVec.ofNat 32 i) = bs[i]
  others : ∀ x, (∀ i < bs.length, a + BitVec.ofNat 32 i ≠ x) → g' x = g x

theorem puts_patch (g : Image) (a : Word) (bs : List Byte) :
    g.Puts a bs (g.patch a bs) := by
  induction bs generalizing g a with
  | nil => exact ⟨by simp, fun _ _ => rfl⟩
  | cons b bs ih =>
      obtain ⟨haddressed, hothers⟩ := ih (g.update a b) (a + 1)
      simp only [add_one_add_ofNat] at haddressed hothers
      constructor
      · intro i hi hround
        rw [List.length_cons] at hi hround
        cases i with
        | zero =>
            -- no later byte comes round to the first address
            have hfirst : ∀ j < bs.length, a + BitVec.ofNat 32 (j + 1) ≠ a := by
              intro j hj h
              bv_omega
            simpa [patch, update] using hothers a hfirst
        | succ i => exact haddressed i (by omega) (by omega)
      · intro x hx
        have hne : x ≠ a := by
          rintro rfl
          exact hx 0 (by simp) (by simp)
        rw [patch, hothers x (fun i hi => hx (i + 1) (by simpa using hi)), update, if_neg hne]

/-- Bytes that are not addressed stay as they are. -/
theorem store_of_le {width : Nat} (hw : width = 1 ∨ width = 2 ∨ width = 4) (g : Image) {a x : Word}
    (value : Word) (hx : width ≤ (x - a).toNat) : store g a width value x = g x := by
  have hlength : ((Word.bytes value).take width).length = width := by
    rw [List.length_take, Word.length_bytes]
    omega
  exact patch_of_le _ (by omega) _ (by omega)

theorem word_store_self (g : Image) (a w : Word) : word (store g a 4 w) a = w := by
  rw [word_eq_iff]
  intro x hx
  have htake : (Word.bytes w).take 4 = Word.bytes w := rfl
  have hlength := Word.length_bytes w
  rw [store, htake, patch_apply _ (by omega), List.getElem?_eq_getElem (by omega)]
  rfl

end Image

/-! ## Pages -/

/-- An element of a concatenation of pieces that are equally long. -/
theorem getElem?_flatMap_range {α : Type} {k : Nat} {f : Nat → List α} (hf : ∀ i, (f i).length = k) {n i j : Nat}
    (hi : i < n) (hj : j < k) : ((List.range n).flatMap f)[i * k + j]? = (f i)[j]? := by
  induction n with
  | zero => omega
  | succ n ih =>
      have hlength : ((List.range n).flatMap f).length = n * k := by
        simp only [List.length_flatMap, hf, List.map_const', List.length_range, List.sum_replicate_nat]
      rw [List.range_succ, List.flatMap_append, List.flatMap_singleton]
      by_cases hlast : i = n
      · subst hlast
        rw [List.getElem?_append_right (by omega), hlength, Nat.add_sub_cancel_left]
      · have hbefore : i * k + j < n * k := calc
          i * k + j < (i + 1) * k := by rw [Nat.add_mul]; omega
          _ ≤ n * k := Nat.mul_le_mul_right k (by omega)
        rw [List.getElem?_append_left (by omega), ih (by omega)]

theorem Page.getElem_ofWords (word : Nat → Word) (i : Fin 4096) :
    (Page.ofWords word)[i] = Word.byte (word (i.val / 4)) (i.val % 4) := by
  have hplace := Nat.div_add_mod' i.val 4
  have hbyte := getElem?_flatMap_range (f := fun i => Word.bytes (word i)) (fun i => Word.length_bytes (word i))
    (show i.val / 4 < 1024 by omega) (Nat.mod_lt i.val (by decide : 0 < 4))
  rw [hplace] at hbyte
  have hget : some ((Page.ofWords word)[i]) = (Word.bytes (word (i.val / 4)))[i.val % 4]? := by
    rw [← hbyte, Page.ofWords]
    simp only [Fin.getElem_fin, Vector.getElem_mk, List.getElem_toArray]
    exact (List.getElem?_eq_getElem _).symm
  have hj : i.val % 4 = 0 ∨ i.val % 4 = 1 ∨ i.val % 4 = 2 ∨ i.val % 4 = 3 := by omega
  rcases hj with hj | hj | hj | hj <;> rw [hj] at hget ⊢ <;> exact Option.some.inj hget

namespace Memory

/-- The page with a number, as it is or as it would be made. -/
def pageAt (m : Memory) (n : Nat) : Page := m.pages[n]?.getD (Page.ofWords (m.fill.page n))

/-- Whether the page of an address was made. -/
def isTouched (m : Memory) (a : Word) : Bool := m.pages.contains (pageOf a)

/-- Makes the page of an address, if it is not there yet. -/
def touch (m : Memory) (a : Word) : Memory :=
  if m.isTouched a then m else { m with pages := m.pages.insert (pageOf a) (m.pageAt (pageOf a)) }

/-- Touches `n` bytes from an address on, the last one first. -/
def touchBytes (m : Memory) (a : Word) : Nat → Memory
  | 0 => m
  | n + 1 => (m.touchBytes (a + 1) n).touch a

/-- The byte at an address, in its page or in the page that would be made for it. -/
def image (m : Memory) : Image := fun a => byteAt (m.pageAt (pageOf a)) a

theorem openPage_eq (m : Memory) (a : Word) : m.openPage a = (m.pageAt (pageOf a), m.touch a) := by
  unfold openPage touch isTouched pageAt
  rw [Std.TreeMap.contains_eq_isSome_getElem?]
  cases m.pages[pageOf a]? <;> rfl

theorem eq_of_pageOf_offset {a b : Word} (hpage : pageOf a = pageOf b) (hoffset : offset a = offset b) :
    a = b := by
  have hoffset := Fin.val_eq_of_eq hoffset
  unfold pageOf at hpage
  unfold offset at hoffset
  apply BitVec.eq_of_toNat_eq
  dsimp only at hoffset
  omega

/-! ## The image of a memory -/

/-- The byte that a page which does not exist yet would hold. -/
theorem image_of_no_page (m : Memory) (a : Word) (h : m.pages[pageOf a]? = none) :
    m.image a = Word.byte (m.fill.page (pageOf a) ((offset a).val / 4)) (a.toNat % 4) := by
  have hplace : (offset a).val % 4 = a.toNat % 4 := by
    show a.toNat % 4096 % 4 = a.toNat % 4
    omega
  rw [image, pageAt, h, Option.getD_none, byteAt, Page.getElem_ofWords, hplace]

theorem image_filled (fill : Fill) (a : Word) :
    (filled fill).image a = Word.byte (fill.page (pageOf a) ((offset a).val / 4)) (a.toNat % 4) :=
  image_of_no_page (filled fill) a Std.TreeMap.getElem?_emptyc

theorem pageAt_insert (m : Memory) (k : Nat) (page : Page) (n : Nat) :
    ({ m with pages := m.pages.insert k page } : Memory).pageAt n = if k = n then page else m.pageAt n := by
  by_cases h : k = n
  · simp [pageAt, h]
  · simp [pageAt, h, Std.TreeMap.getElem?_insert]


/-- A page is filled with what it stands for. -/
theorem pageAt_touch (m : Memory) (a : Word) : (m.touch a).pageAt = m.pageAt := by
  unfold touch
  split
  case isTrue => rfl
  case isFalse =>
    funext n
    rw [pageAt_insert]
    split
    case isTrue h => rw [h]
    case isFalse => rfl

@[simp] theorem image_touch (m : Memory) (a : Word) : (m.touch a).image = m.image := by
  unfold image
  rw [pageAt_touch]

@[simp] theorem image_touchBytes (m : Memory) (a : Word) (n : Nat) :
    (m.touchBytes a n).image = m.image := by
  induction n generalizing a with
  | zero => rfl
  | succ n ih => rw [touchBytes, image_touch, ih]

theorem readByte_eq (m : Memory) (a : Word) : m.readByte a = (m.image a, m.touch a) := by
  rw [readByte, openPage_eq]
  rfl

theorem readBytes_eq (m : Memory) (a : Word) (n : Nat) :
    m.readBytes a n = (Image.bytesAt m.image a n, m.touchBytes a n) := by
  induction n generalizing a with
  | zero => rfl
  | succ n ih =>
      rw [readBytes, ih]
      dsimp only
      rw [readByte_eq, image_touchBytes]
      rfl

/-- Reading gives what the image holds, and touches what it reads. -/
theorem read_eq (m : Memory) (a : Word) (width : Nat) :
    m.read a width = (Image.value m.image a width, m.touchBytes a width) := by
  rw [read, readBytes_eq]
  rfl

theorem fst_read (m : Memory) (a : Word) (width : Nat) :
    (m.read a width).1 = Image.value m.image a width := by rw [read_eq]

@[simp] theorem image_read (m : Memory) (a : Word) (width : Nat) :
    (m.read a width).2.image = m.image := by rw [read_eq, image_touchBytes]

/-- Writing a byte into its page replaces the byte at its address. -/
theorem image_writeByte (m : Memory) (a : Word) (b : Byte) :
    (m.writeByte a b).image = Image.update m.image a b := by
  funext x
  unfold image Image.update
  rw [writeByte, openPage_eq]
  dsimp only
  rw [pageAt_insert, pageAt_touch]
  by_cases hpage : pageOf a = pageOf x
  · rw [if_pos hpage, hpage, byteAt, Fin.getElem_fin, Vector.getElem_set]
    by_cases hoffset : offset a = offset x
    · have hx := eq_of_pageOf_offset hpage hoffset
      simp [hx]
    · have hx : x ≠ a := fun h => hoffset (congrArg offset h.symm)
      have hval : (offset a).val ≠ (offset x).val := fun h => hoffset (Fin.eq_of_val_eq h)
      rw [if_neg hval, if_neg hx]
      rfl
  · have hx : x ≠ a := fun h => hpage (congrArg pageOf h.symm)
    rw [if_neg hpage, if_neg hx]

@[simp] theorem image_writeBytes (m : Memory) (a : Word) (bs : List Byte) :
    (m.writeBytes a bs).image = Image.patch m.image a bs := by
  induction bs generalizing m a with
  | nil => rfl
  | cons b bs ih => rw [writeBytes, ih, image_writeByte, Image.patch]

@[simp] theorem image_write (m : Memory) (a : Word) (width : Nat) (value : Word) :
    (m.write a width value).image = Image.store m.image a width value :=
  image_writeBytes m a _

/-! ## Touched pages -/

theorem isTouched_filled (fill : Fill) (a : Word) : (filled fill).isTouched a = false :=
  Std.TreeMap.contains_emptyc

theorem isTouched_insert (m : Memory) (a b : Word) (page : Page) :
    ({ m with pages := m.pages.insert (pageOf a) page } : Memory).isTouched b =
      (m.isTouched b || pageOf a == pageOf b) := by
  rw [isTouched, Std.TreeMap.contains_insert, Bool.or_comm]
  congr 1
  rw [Bool.eq_iff_iff]
  simp

theorem isTouched_touch (m : Memory) (a b : Word) :
    (m.touch a).isTouched b = (m.isTouched b || pageOf a == pageOf b) := by
  unfold touch
  split
  case isTrue h =>
    by_cases hp : pageOf a = pageOf b
    · simp [isTouched, ← hp] at h ⊢
      exact h
    · simp [hp]
  case isFalse => exact isTouched_insert m a b _

theorem isTouched_writeByte (m : Memory) (a : Word) (b : Byte) (x : Word) :
    (m.writeByte a b).isTouched x = (m.isTouched x || pageOf a == pageOf x) := by
  rw [writeByte, openPage_eq]
  dsimp only
  rw [isTouched_insert, isTouched_touch, Bool.or_assoc, Bool.or_self]

/-- A page that is touched stays so. -/
theorem isTouched_touchBytes (m : Memory) (a b : Word) (n : Nat) (h : m.isTouched b = true) :
    (m.touchBytes a n).isTouched b = true := by
  induction n generalizing a with
  | zero => exact h
  | succ n ih => rw [touchBytes, isTouched_touch, ih, Bool.true_or]

/-- A read touches the page that it starts in. -/
theorem isTouched_touchBytes_self (m : Memory) (a : Word) (n : Nat) (hn : 0 < n) :
    (m.touchBytes a n).isTouched a = true := by
  cases n with
  | zero => omega
  | succ n => rw [touchBytes, isTouched_touch, BEq.rfl, Bool.or_true]

/-- The words of an image that a page holds, by their places in it. -/
theorem extract_pageAt (m : Memory) (a : Word) :
    ((m.pageAt (pageOf a)).toArray.extract ((offset a).val / 4 * 4) ((offset a).val / 4 * 4 + 4)).toList =
      Image.bytesAt m.image (Word.wordAligned a) 4 := by
  apply List.ext_getElem?
  intro i
  have hstart : (offset a).val / 4 * 4 + 4 ≤ 4096 := by omega
  have hlength :
      ((m.pageAt (pageOf a)).toArray.extract ((offset a).val / 4 * 4) ((offset a).val / 4 * 4 + 4)).toList.length
        = 4 := by simp; omega
  by_cases hi : i < 4
  · -- the byte `i` places after the start of the word lies in the same page
    have haligned := Word.toNat_wordAligned a
    have hlt := a.isLt
    have hoffset : (offset a).val = a.toNat % 4096 := rfl
    have hx : (Word.wordAligned a + BitVec.ofNat 32 i - Word.wordAligned a).toNat = i := by bv_omega
    have hsum : (Word.wordAligned a + BitVec.ofNat 32 i).toNat = a.toNat / 4 * 4 + i := by bv_omega
    have hpage : pageOf (Word.wordAligned a + BitVec.ofNat 32 i) = pageOf a := by
      unfold pageOf
      omega
    have hplace : (offset (Word.wordAligned a + BitVec.ofNat 32 i)).val = (offset a).val / 4 * 4 + i := by
      rw [offset]
      dsimp only
      omega
    have hbyte := Image.getElem?_bytesAt m.image (Word.wordAligned a) (Word.wordAligned a + BitVec.ofNat 32 i) 4
      (by omega)
    rw [hx] at hbyte
    rw [hbyte, image, hpage, List.getElem?_eq_getElem (by omega)]
    simp [byteAt, hplace]
  · rw [List.getElem?_eq_none (by omega), List.getElem?_eq_none (by rw [Image.length_bytesAt]; omega)]

/-- Looking at a word of a touched page gives its value. -/
theorem peek?_of_isTouched (m : Memory) (a : Word) (h : m.isTouched a = true) :
    m.peek? a = some (Image.word m.image (Word.wordAligned a)) := by
  rw [isTouched, Std.TreeMap.contains_eq_isSome_getElem?] at h
  obtain ⟨page, hpage⟩ := Option.isSome_iff_exists.mp h
  have hat : m.pageAt (pageOf a) = page := by rw [pageAt, hpage, Option.getD_some]
  rw [peek?, hpage, Option.map_some, ← hat]
  dsimp only
  rw [extract_pageAt]
  rfl

/-- There is nothing to look at in a page that was not made. -/
theorem peek?_of_not_isTouched (m : Memory) (a : Word) (h : ¬ m.isTouched a = true) : m.peek? a = none := by
  rw [isTouched, Std.TreeMap.contains_eq_isSome_getElem?, Bool.not_eq_true, Option.isSome_eq_false_iff,
    Option.isNone_iff_eq_none] at h
  rw [peek?, h, Option.map_none]

end Memory

end MipsLab
