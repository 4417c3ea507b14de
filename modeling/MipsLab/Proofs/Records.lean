import MipsLab.History
import MipsLab.Proofs.Image
import MipsLab.Proofs.Registers

set_option autoImplicit false

/-!
# Undo records

The state that an undo record is about is a *snapshot*: the registers, the image of memory and the
address of the next instruction. A record *tracks* the change from one snapshot to another if it
holds the earlier value of everything that differs. Whoever puts back a record that tracks a change
is where the change began (`restore_of_tracks`). The second half of the module says what the
operations of the history do to the list of records.
-/

namespace MipsLab

/-- What an instruction can change and an undo record can put back. -/
structure Snapshot where
  registers : Registers
  image : Image
  pc : Word

/-- The snapshot with everything in a record put back. -/
def Snapshot.restore (s : Snapshot) (u : UndoRecord) : Snapshot where
  registers := u.registers.foldl (fun rs (r, old) => rs.write r old) s.registers
  image := u.memory.foldl (fun g (a, old) => Image.store g a 4 old) s.image
  pc := u.pc

/-! ## Records that track a change -/

namespace UndoRecord

/-- The record holds the value in `before` of everything that `after` differs in. Memory is
recorded by whole words at their aligned addresses, and `$zero` is never recorded. -/
structure Tracks (u : UndoRecord) (before after : Snapshot) : Prop where
  pc : u.pc = before.pc
  register_saved : ∀ p ∈ u.registers, p.1 ≠ .general .zero ∧ p.2 = before.registers.read p.1
  register_kept : ∀ r, (∀ p ∈ u.registers, p.1 ≠ r) →
    after.registers.read r = before.registers.read r
  word_saved : ∀ p ∈ u.memory, Word.wordAligned p.1 = p.1 ∧ p.2 = Image.word before.image p.1
  byte_kept : ∀ x, (∀ p ∈ u.memory, p.1 ≠ Word.wordAligned x) → after.image x = before.image x

theorem tracks_empty (s : Snapshot) : (⟨s.pc, [], []⟩ : UndoRecord).Tracks s s where
  pc := rfl
  register_saved := by simp
  register_kept := fun _ _ => rfl
  word_saved := by simp
  byte_kept := fun _ _ => rfl

variable {u : UndoRecord} {before after : Snapshot}

/-- Recording a register before it is written keeps track of the change. -/
theorem Tracks.addRegister (h : u.Tracks before after) {r : Register} (hr : r ≠ .general .zero)
    (v : Word) :
    (u.addRegister r (after.registers.read r)).Tracks before
      { after with registers := after.registers.write r v } := by
  have hkept : ∀ s, s ≠ r → (after.registers.write r v).read s = after.registers.read s :=
    fun s hs => Registers.read_write_of_ne _ _ (Ne.symm hs)
  unfold UndoRecord.addRegister
  split
  case isTrue hold =>
    -- the register was recorded before: its first value is the one that counts
    obtain ⟨p, hp, hpr⟩ := List.any_eq_true.mp hold
    have hpr : p.1 = r := by simpa using hpr
    refine ⟨h.pc, h.register_saved, fun s hs => ?_, h.word_saved, h.byte_kept⟩
    rw [hkept s (fun e => hs p hp (hpr.trans e.symm)), h.register_kept s hs]
  case isFalse hnew =>
    have hold : after.registers.read r = before.registers.read r := by
      apply h.register_kept
      intro p hp e
      exact hnew (List.any_eq_true.mpr ⟨p, hp, by simp [e]⟩)
    refine ⟨h.pc, fun p hp => ?_, fun s hs => ?_, h.word_saved, h.byte_kept⟩
    · rcases List.mem_append.mp hp with hp | hp
      · exact h.register_saved p hp
      · rw [List.mem_singleton.mp hp]
        exact ⟨hr, hold⟩
    · have hsr : s ≠ r := fun e => hs (r, after.registers.read r) (by simp) e.symm
      rw [hkept s hsr, h.register_kept s (fun p hp => hs p (List.mem_append_left _ hp))]

/-- Recording the word around an aligned access before it is written keeps track of the change. -/
theorem Tracks.addMemory (h : u.Tracks before after) {a : Word} {width : Nat}
    (hw : width = 1 ∨ width = 2 ∨ width = 4) (ha : Word.isAligned a width = true) (v : Word) :
    (u.addMemory (Word.wordAligned a) (Image.word after.image (Word.wordAligned a))).Tracks before
      { after with image := Image.store after.image a width v } := by
  have hkept : ∀ x, Word.wordAligned x ≠ Word.wordAligned a →
      Image.store after.image a width v x = after.image x := by
    intro x hx
    apply Image.store_of_le hw
    exact Nat.not_lt.mp fun hlt => hx (Word.wordAligned_of_sub_lt hw ha hlt)
  unfold UndoRecord.addMemory
  split
  case isTrue hold =>
    obtain ⟨p, hp, hpa⟩ := List.any_eq_true.mp hold
    have hpa : p.1 = Word.wordAligned a := by simpa using hpa
    refine ⟨h.pc, h.register_saved, h.register_kept, h.word_saved, fun x hx => ?_⟩
    exact (hkept x (fun e => hx p hp (hpa.trans e.symm))).trans (h.byte_kept x hx)
  case isFalse hnew =>
    have hsame : ∀ p ∈ u.memory, p.1 ≠ Word.wordAligned a :=
      fun p hp e => hnew (List.any_eq_true.mpr ⟨p, hp, by simp [e]⟩)
    -- no byte of this word was recorded, so the word is still the earlier one
    have hold : Image.word after.image (Word.wordAligned a) =
        Image.word before.image (Word.wordAligned a) := by
      apply Image.word_congr
      intro x hx
      apply h.byte_kept
      rw [(Word.wordAligned_eq_iff a x).mpr hx]
      exact hsame
    refine ⟨h.pc, h.register_saved, h.register_kept, fun p hp => ?_, fun x hx => ?_⟩
    · rcases List.mem_append.mp hp with hp | hp
      · exact h.word_saved p hp
      · rw [List.mem_singleton.mp hp]
        exact ⟨Word.wordAligned_wordAligned a, hold⟩
    · have hxa : Word.wordAligned x ≠ Word.wordAligned a :=
        fun e => hx (Word.wordAligned a, Image.word after.image (Word.wordAligned a)) (by simp) e.symm
      exact (hkept x hxa).trans (h.byte_kept x (fun p hp => hx p (List.mem_append_left _ hp)))

/-- Putting back saved registers gives the earlier register file, in whatever order they stand. -/
theorem foldl_write_eq {before : Registers} (ps : List (Register × Word)) (rs : Registers)
    (saved : ∀ p ∈ ps, p.1 ≠ .general .zero ∧ p.2 = before.read p.1)
    (kept : ∀ r, (∀ p ∈ ps, p.1 ≠ r) → rs.read r = before.read r) :
    ps.foldl (fun rs (r, old) => rs.write r old) rs = before := by
  induction ps generalizing rs with
  | nil => exact Registers.eq_of_read_eq fun r => kept r (by simp)
  | cons p ps ih =>
      obtain ⟨hz, hold⟩ := saved p List.mem_cons_self
      apply ih
      · exact fun q hq => saved q (List.mem_cons_of_mem _ hq)
      · intro r hr
        by_cases hpr : p.1 = r
        · subst hpr
          rw [Registers.read_write_self _ _ hz, hold]
        · rw [Registers.read_write_of_ne _ _ hpr]
          apply kept
          simpa [hpr] using hr

/-- Putting back saved words gives the earlier image, in whatever order they stand. -/
theorem foldl_store_eq {before : Image} (ps : List (Word × Word)) (g : Image)
    (saved : ∀ p ∈ ps, Word.wordAligned p.1 = p.1 ∧ p.2 = Image.word before p.1)
    (kept : ∀ x, (∀ p ∈ ps, p.1 ≠ Word.wordAligned x) → g x = before x) :
    ps.foldl (fun g (a, old) => Image.store g a 4 old) g = before := by
  induction ps generalizing g with
  | nil => exact funext fun x => kept x (by simp)
  | cons p ps ih =>
      obtain ⟨ha, hold⟩ := saved p List.mem_cons_self
      apply ih
      · exact fun q hq => saved q (List.mem_cons_of_mem _ hq)
      · intro x hx
        show Image.store g p.1 4 p.2 x = before x
        rw [hold, Image.store_word]
        split
        -- outside of the word that was put back, the other saved words decide
        · rfl
        case isFalse hfar =>
          apply kept
          intro q hq
          rcases List.mem_cons.mp hq with rfl | hq
          · rw [← ha]
            intro e
            rw [← ha] at hfar
            exact hfar ((Word.wordAligned_eq_iff _ _).mp e.symm)
          · exact hx q hq

/-- **Putting back a record that tracks a change gives the state before the change.** -/
theorem restore_of_tracks (h : u.Tracks before after) : after.restore u = before := by
  obtain ⟨registers, image, pc⟩ := before
  simp only [Snapshot.restore, Snapshot.mk.injEq]
  exact ⟨foldl_write_eq _ _ h.register_saved h.register_kept,
    foldl_store_eq _ _ h.word_saved h.byte_kept, h.pc⟩

end UndoRecord

/-! ## The list of records -/

namespace History

theorem records_push (h : History) (u : UndoRecord) :
    (h.push u).records = (u :: h.records).take h.limit := by
  have hrecords : u :: h.records = (u :: h.stored).take (h.size + 1) := rfl
  rw [hrecords, List.take_take]
  unfold push
  split
  · -- old records are dropped, but none that counts
    have hdrop : u :: h.stored.take h.limit = (u :: h.stored).take (h.limit + 1) := rfl
    simp only [records]
    rw [hdrop, List.take_take]
    congr 1
    omega
  · simp only [records, Nat.min_comm]

@[simp] theorem limit_push (h : History) (u : UndoRecord) : (h.push u).limit = h.limit := by
  unfold push
  split <;> rfl

theorem records_commit {h : History} {u : UndoRecord} (hu : h.current = some u) :
    h.commit.records = (u :: h.records).take h.limit := by
  unfold commit
  rw [hu]
  exact records_push h u

@[simp] theorem limit_commit (h : History) : h.commit.limit = h.limit := by
  unfold commit
  split
  · exact limit_push h _
  · rfl

@[simp] theorem current_commit (h : History) : h.commit.current = none := by
  unfold commit
  split
  · rfl
  case h_2 hnone => exact hnone

theorem pop?_of_records_eq_nil {h : History} (hr : h.records = []) : h.pop? = none := by
  obtain ⟨limit, size, stored, storedSize, current⟩ := h
  simp only [records] at hr
  cases size with
  | zero => rfl
  | succ n =>
      cases stored with
      | nil => rfl
      | cons v vs => cases hr

theorem current_of_pop? {h rest : History} {u : UndoRecord} (hpop : h.pop? = some (u, rest)) :
    rest.current = h.current := by
  unfold pop? at hpop
  split at hpop
  · cases hpop
    rfl
  · cases hpop

/-- Taking a record takes the newest one. -/
theorem pop?_of_records_eq_cons {h : History} {u : UndoRecord} {us : List UndoRecord}
    (hr : h.records = u :: us) :
    ∃ rest, h.pop? = some (u, rest) ∧ rest.records = us ∧ rest.limit = h.limit ∧
      rest.current = h.current := by
  obtain ⟨limit, size, stored, storedSize, current⟩ := h
  simp only [records] at hr
  cases size with
  | zero => simp at hr
  | succ n =>
      cases stored with
      | nil => simp at hr
      | cons v vs =>
          obtain ⟨rfl, rfl⟩ : v = u ∧ vs.take n = us := by simpa using hr
          exact ⟨_, rfl, rfl, rfl, rfl⟩

end History

end MipsLab
