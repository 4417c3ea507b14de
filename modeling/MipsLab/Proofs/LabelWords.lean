import MipsLab.Proofs.Resolution
import MipsLab.Proofs.Storage

set_option autoImplicit false

/-!
# Words that hold the addresses of labels

A word of data for the address of a label is placed as four bytes of zeros, and the second pass
writes the address over them. Without errors, all words of this kind have bytes of their own
(`Reserved`), and so each of them holds its address in the assembled program
(`Assembly.holdsWord_of_mem_labelWords`), whatever else is written.
-/

namespace MipsLab

/-- Two words for addresses of labels share no byte, and neither runs past the other's. -/
def LabelWord.Apart (v w : LabelWord) : Prop :=
  v.address.toNat + 4 ≤ w.address.toNat ∨ w.address.toNat + 4 ≤ v.address.toNat

namespace Placement

/-! ## Bytes of their own -/

/-- A word whose bytes are taken and one whose bytes are free share none. -/
theorem apart_of_free {data : DataImage} {v w : LabelWord}
    (taken : ∀ k < 4, data.contains (v.address.toNat + k) = true)
    (free : ∀ k < 4, data.contains (w.address.toNat + k) = false) : v.Apart w := by
  have hdistinct : ∀ i < 4, ∀ j < 4, v.address.toNat + i ≠ w.address.toNat + j := by
    intro i hi j hj heq
    have htaken := taken i hi
    rw [heq, free j hj] at htaken
    cases htaken
  -- if they overlapped, the first byte of one would be a byte of the other
  unfold LabelWord.Apart
  rcases Nat.le_total v.address.toNat w.address.toNat with hle | hle
  · have hfirst := hdistinct (w.address.toNat - v.address.toNat)
    by_cases hlt : w.address.toNat - v.address.toNat < 4
    · exact absurd (Nat.add_sub_cancel' hle) (hfirst hlt 0 (by decide))
    · omega
  · have hfirst := hdistinct 0 (by decide) (v.address.toNat - w.address.toNat)
    by_cases hlt : v.address.toNat - w.address.toNat < 4
    · exact absurd (Nat.add_sub_cancel' hle).symm (hfirst hlt)
    · omega

/-- The words for addresses of labels have bytes of their own. -/
structure Reserved (p : Placement) : Prop where
  bounded : ∀ w ∈ p.labelWords.toList, w.address.toNat + 4 ≤ 0x100000000
  taken : ∀ w ∈ p.labelWords.toList, ∀ k < 4, p.data.contains (w.address.toNat + k) = true
  apart : p.labelWords.toList.Pairwise LabelWord.Apart

namespace Reserved

theorem of_eq {p q : Placement} (hp : Reserved p) (labelWords : q.labelWords = p.labelWords)
    (data : q.data = p.data) : Reserved q :=
  ⟨labelWords ▸ hp.bounded, by rw [labelWords, data]; exact hp.taken, labelWords ▸ hp.apart⟩

/-- More bytes do no harm. -/
theorem writeBytes {p : Placement} (hp : Reserved p) (a : Nat) (bytes : List Byte) :
    Reserved { p with data := writeBytes p.data a bytes } :=
  ⟨hp.bounded, fun w hw k hk => contains_writeBytes.mpr (.inl (hp.taken w hw k hk)), hp.apart⟩

theorem move {p q : Placement} (hp : Reserved p) (h : Move p q) (clean : q.Clean) : Reserved q := by
  cases h with
  | quiet h => exact hp.of_eq h.labelWords h.data
  | instr => exact hp.of_eq rfl rfl
  | bytes =>
      rw [(placeBytes_of_clean clean).2.2]
      exact (hp.writeBytes _ _).of_eq rfl rfl
  | labelWord site l =>
      obtain ⟨hfits, hfree, hplaced⟩ := placeBytes_of_clean clean
      rw [hplaced]
      let w : LabelWord := ⟨p.locals.size, site, p.here, l⟩
      refine ⟨?_, ?_, ?_⟩
      · intro v hv
        rcases Array.mem_push.mp (Array.mem_toList_iff.mp hv) with hv | rfl
        · exact hp.bounded v (Array.mem_toList_iff.mpr hv)
        · exact hfits
      · intro v hv k hk
        rcases Array.mem_push.mp (Array.mem_toList_iff.mp hv) with hv | rfl
        · exact contains_writeBytes.mpr (.inl (hp.taken v (Array.mem_toList_iff.mpr hv) k hk))
        · exact contains_writeBytes.mpr (.inr ⟨Nat.le_add_right _ _, Nat.add_lt_add_left hk _⟩)
      · show (p.labelWords.push w).toList.Pairwise LabelWord.Apart
        rw [Array.toList_push, List.pairwise_append]
        refine ⟨hp.apart, List.pairwise_singleton _ _, ?_⟩
        intro v hv v' hv'
        obtain rfl := List.mem_singleton.mp hv'
        exact apart_of_free (hp.taken v hv) hfree

/-- **A pass without errors gives the words for addresses of labels bytes of their own.** -/
theorem pass {p q : Placement} (hp : Reserved p) (h : Pass p q) (clean : q.Clean) : Reserved q := by
  induction h with
  | refl => exact hp
  | @tail r q _ hstep ih =>
      cases hstep with
      | move h => exact (ih (h.extends.clean clean)).move h clean
      | beginUnit => exact (ih clean).of_eq rfl rfl
      | endUnit => exact (ih clean).of_eq rfl rfl

end Reserved

/-! ## Filling in addresses -/

theorem getElem?_writeWrapped {data : DataImage} {a : Word} {bytes : List Byte}
    (h : a.toNat + bytes.length ≤ 0x100000000) (k : Nat) :
    (fillLabelWord.writeWrapped data a bytes)[k]? =
      if a.toNat ≤ k ∧ k < a.toNat + bytes.length then bytes[k - a.toNat]? else data[k]? := by
  induction bytes generalizing data a with
  | nil =>
      rw [fillLabelWord.writeWrapped, List.length_nil, if_neg (by omega)]
  | cons b bytes ih =>
      rw [List.length_cons] at h
      -- the last byte may stand at the last address, and then no more bytes follow
      have hnext : bytes.length = 0 ∨ (a + 1).toNat = a.toNat + 1 := by bv_omega
      rw [fillLabelWord.writeWrapped, ih (by omega), Std.TreeMap.getElem?_insert, List.length_cons]
      simp only [Nat.compare_eq_eq]
      by_cases hfirst : a.toNat = k
      · rw [if_neg (by omega), if_pos hfirst, if_pos (by omega), hfirst, Nat.sub_self]
        rfl
      · rw [if_neg hfirst]
        by_cases hin : a.toNat ≤ k ∧ k < a.toNat + (bytes.length + 1)
        · have hindex : k - a.toNat = k - (a + 1).toNat + 1 := by omega
          rw [if_pos hin, if_pos (by omega), hindex, List.getElem?_cons_succ]
        · rw [if_neg hin, if_neg (by omega)]

variable {p : Placement}

theorem fillLabelWords_cons {w : LabelWord} {ws : List LabelWord} {data : DataImage} {a : Word}
    (ha : SymbolicInstr.addressOf (p.lookup w.unit) w.label = .ok a) :
    p.fillLabelWords (w :: ws) data =
      p.fillLabelWords ws (fillLabelWord.writeWrapped data w.address (Word.bytes a)) := by
  rw [fillLabelWords, fillLabelWord, ha]

/-- Filling in addresses reports those that nobody has defined. -/
theorem mem_fillLabelWords_of_error {w : LabelWord} {ws : List LabelWord} {data : DataImage}
    {c : Cause} (hw : w ∈ ws)
    (h : SymbolicInstr.addressOf (p.lookup w.unit) w.label = .error c) :
    w.site.report c ∈ (p.fillLabelWords ws data).2 := by
  induction ws generalizing data with
  | nil => cases hw
  | cons v ws ih =>
      rw [fillLabelWords]
      rcases List.mem_cons.mp hw with rfl | hw
      · rw [fillLabelWord, h]
        exact List.mem_cons_self
      · split
        · exact ih hw
        · exact List.mem_cons_of_mem _ (ih hw)

/-- Filling in addresses changes no bytes but those of the words. -/
theorem getElem?_fillLabelWords_of_apart {ws : List LabelWord} {data : DataImage}
    (bounded : ∀ w ∈ ws, w.address.toNat + 4 ≤ 0x100000000) {k : Nat}
    (h : ∀ w ∈ ws, k < w.address.toNat ∨ w.address.toNat + 4 ≤ k) :
    (p.fillLabelWords ws data).1[k]? = data[k]? := by
  induction ws generalizing data with
  | nil => rfl
  | cons w ws ih =>
      have hrest : ∀ filled, (p.fillLabelWords ws filled).1[k]? = filled[k]? := fun filled =>
        ih (fun v hv => bounded v (List.mem_cons_of_mem _ hv))
          (fun v hv => h v (List.mem_cons_of_mem _ hv))
      cases ha : SymbolicInstr.addressOf (p.lookup w.unit) w.label with
      | ok a =>
          have hfits := bounded w List.mem_cons_self
          have houtside := h w List.mem_cons_self
          rw [fillLabelWords_cons ha, hrest, getElem?_writeWrapped hfits, if_neg]
          show ¬ (w.address.toNat ≤ k ∧ k < w.address.toNat + 4)
          omega
      | error c =>
          rw [fillLabelWords, fillLabelWord, ha]
          exact hrest data

/-- **Filling in addresses leaves each of them in its word.** -/
theorem getElem?_fillLabelWords {ws : List LabelWord} {data : DataImage}
    (bounded : ∀ w ∈ ws, w.address.toNat + 4 ≤ 0x100000000) (apart : ws.Pairwise LabelWord.Apart)
    {w : LabelWord} (hw : w ∈ ws) {a : Word}
    (ha : SymbolicInstr.addressOf (p.lookup w.unit) w.label = .ok a) {k : Nat} (hk : k < 4) :
    (p.fillLabelWords ws data).1[w.address.toNat + k]? = (Word.bytes a)[k]? := by
  induction ws generalizing data with
  | nil => cases hw
  | cons v ws ih =>
      obtain ⟨hfirst, hrest⟩ := List.pairwise_cons.mp apart
      have hbounded := fun u hu => bounded u (List.mem_cons_of_mem v hu)
      rcases List.mem_cons.mp hw with rfl | hw
      -- the later words lie elsewhere
      · rw [fillLabelWords_cons ha, getElem?_fillLabelWords_of_apart hbounded]
        · rw [getElem?_writeWrapped (bounded w List.mem_cons_self), if_pos, Nat.add_sub_cancel_left]
          show w.address.toNat ≤ w.address.toNat + k ∧ w.address.toNat + k < w.address.toNat + 4
          omega
        · intro u hu
          have := hfirst u hu
          unfold LabelWord.Apart at this
          omega
      · rw [fillLabelWords]
        split <;> exact ih hbounded hrest hw

theorem reserved_initial (extended : Bool) (layout : MemoryLayout) :
    Reserved (initial extended layout) where
  bounded := by simp [initial]
  taken := by simp [initial]
  apart := by simp [initial]

end Placement

/-! ## Assembled programs -/

/-- The data of a program holds a word at an address, in little-endian order. -/
def AssembledProgram.HoldsWord (p : AssembledProgram) (x value : Word) : Prop :=
  ∀ k < 4, ∃ d ∈ p.data, d.byteAt? (x + BitVec.ofNat 32 k) = (Word.bytes value)[k]?

namespace Assembly

open Placement

/-- **In a program that assembles, every word for the address of a label holds that address.** -/
theorem holdsWord_of_mem_labelWords {options : AssemblyOptions} {units : List SourceUnit}
    {p : AssembledProgram} (ok : (assemble options units).1 = .ok p) {w : LabelWord}
    (hw : w ∈ (firstPass options units).labelWords.toList) :
    ∃ a, SymbolicInstr.addressOf ((firstPass options units).lookup w.unit) w.label = .ok a ∧
      p.HoldsWord w.address a := by
  have clean := clean_firstPass ok
  obtain ⟨hfinish, without⟩ := eq_finish_of_ok ok
  have hpass : Pass _ (firstPass options units) := pass_placeUnits _ units
  generalize firstPass options units = q at hw clean hfinish hpass ⊢
  subst hfinish
  have hreserved : q.Reserved := (reserved_initial _ _).pass hpass clean
  have hsound : q.Sound := (sound_initial _ _).pass hpass
  cases ha : SymbolicInstr.addressOf (q.lookup w.unit) w.label with
  | error c =>
      -- the second pass would have reported it
      obtain ⟨-, rfl⟩ := SymbolicInstr.addressOf_eq_error_iff.mp ha
      have hreported : w.site.report _ ∈ (q.fillLabelWords q.labelWords.toList q.data).2 :=
        mem_fillLabelWords_of_error hw ha
      have hwarning := Diagnostics.isWarning_of_mem without
        (List.mem_append_left _ (List.mem_append_right _ hreported))
      cases hwarning
  | ok a =>
      refine ⟨a, rfl, ?_⟩
      intro k hk
      have hfilled : (q.fillLabelWords q.labelWords.toList q.data).1[w.address.toNat + k]? =
          (Word.bytes a)[k]? :=
        getElem?_fillLabelWords hreserved.bounded hreserved.apart hw ha hk
      obtain ⟨b, hbyte⟩ : ∃ b, (Word.bytes a)[k]? = some b :=
        ⟨_, List.getElem?_eq_getElem (show k < (Word.bytes a).length from hk)⟩
      rw [hbyte] at hfilled ⊢
      obtain ⟨d, hd, hholds⟩ := exists_block_of_getElem?
        (fun _ => contains_fillLabelWords hsound.bounded) hfilled
      rw [BitVec.ofNat_add, BitVec.ofNat_toNat, BitVec.setWidth_eq] at hholds
      exact ⟨d, hd, hholds⟩

end Assembly

end MipsLab
