import MipsLab.Proofs.Reachable

set_option autoImplicit false

/-!
# Records name nothing twice

An undo record that is *tidy* names each register and each memory word at most once, never `$zero`,
and words by their aligned addresses. So the order in which a record is put back does not matter. In
every state that a machine can get into all records are tidy (`Reachable.tidy`): a register or word is
added to a record only by its first write.
-/

namespace MipsLab

namespace UndoRecord

/-- The record names nothing twice, and nothing that cannot be written. -/
structure Tidy (u : UndoRecord) : Prop where
  registers : (u.registers.map Prod.fst).Nodup
  writable : ∀ p ∈ u.registers, p.1 ≠ .general .zero
  words : (u.memory.map Prod.fst).Nodup
  aligned : ∀ p ∈ u.memory, Word.wordAligned p.1 = p.1

theorem tidy_empty (pc : Word) : (⟨pc, [], []⟩ : UndoRecord).Tidy where
  registers := List.nodup_nil
  writable := by simp
  words := List.nodup_nil
  aligned := by simp

/-- A key that a list of pairs does not have yet may be added at its end. -/
theorem nodup_keys_append {α β : Type} {ps : List (α × β)} (h : (ps.map Prod.fst).Nodup) {a : α}
    (ha : ∀ p ∈ ps, p.1 ≠ a) (b : β) : ((ps ++ [(a, b)]).map Prod.fst).Nodup := by
  rw [List.map_append, List.nodup_append]
  refine ⟨h, by simp, ?_⟩
  intro x hx y hy hxy
  obtain ⟨p, hp, rfl⟩ := List.mem_map.mp hx
  apply ha p hp
  simpa [hxy] using hy

variable {u : UndoRecord}

theorem Tidy.addRegister (h : u.Tidy) {r : Register} (hr : r ≠ .general .zero) (old : Word) :
    (u.addRegister r old).Tidy := by
  unfold UndoRecord.addRegister
  split
  case isTrue => exact h
  case isFalse hnew =>
    have hfresh : ∀ p ∈ u.registers, p.1 ≠ r :=
      fun p hp e => hnew (List.any_eq_true.mpr ⟨p, hp, by simp [e]⟩)
    refine { h with registers := nodup_keys_append h.registers hfresh old, writable := ?_ }
    intro p hp
    rcases List.mem_append.mp hp with hp | hp
    · exact h.writable p hp
    · rw [List.mem_singleton.mp hp]
      exact hr

theorem Tidy.addMemory (h : u.Tidy) {a : Word} (ha : Word.wordAligned a = a) (old : Word) :
    (u.addMemory a old).Tidy := by
  unfold UndoRecord.addMemory
  split
  case isTrue => exact h
  case isFalse hnew =>
    have hfresh : ∀ p ∈ u.memory, p.1 ≠ a :=
      fun p hp e => hnew (List.any_eq_true.mpr ⟨p, hp, by simp [e]⟩)
    refine { h with words := nodup_keys_append h.words hfresh old, aligned := ?_ }
    intro p hp
    rcases List.mem_append.mp hp with hp | hp
    · exact h.aligned p hp
    · rw [List.mem_singleton.mp hp]
      exact ha

end UndoRecord

namespace History

/-- All records of the history are tidy, and so is the one that is open. -/
structure Tidy (h : History) : Prop where
  stored : ∀ u ∈ h.stored, u.Tidy
  current : ∀ u, h.current = some u → u.Tidy

variable {h : History}

theorem tidy_empty (limit : Nat) : (empty limit).Tidy := ⟨by simp [empty], nofun⟩

theorem Tidy.start (hh : h.Tidy) (pc : Word) : (h.start pc).Tidy where
  stored := hh.stored
  current := by
    rintro u ⟨⟩
    exact UndoRecord.tidy_empty pc

theorem Tidy.addRegister (hh : h.Tidy) {r : Register} (hr : r ≠ .general .zero) (old : Word) :
    (h.addRegister r old).Tidy where
  stored := hh.stored
  current := by
    intro u hu
    obtain ⟨v, hv, rfl⟩ := Option.map_eq_some_iff.mp hu
    exact (hh.current v hv).addRegister hr old

theorem Tidy.addMemory (hh : h.Tidy) {a : Word} (ha : Word.wordAligned a = a) (old : Word) :
    (h.addMemory a old).Tidy where
  stored := hh.stored
  current := by
    intro u hu
    obtain ⟨v, hv, rfl⟩ := Option.map_eq_some_iff.mp hu
    exact (hh.current v hv).addMemory ha old

/-- A record that is pushed comes before some of those that were there. -/
theorem mem_stored_push {u v : UndoRecord} (hv : v ∈ (h.push u).stored) : v = u ∨ v ∈ h.stored := by
  unfold push at hv
  split at hv
  · rcases List.mem_cons.mp hv with hv | hv
    · exact .inl hv
    · exact .inr (List.mem_of_mem_take hv)
  · exact List.mem_cons.mp hv

theorem Tidy.commit (hh : h.Tidy) : h.commit.Tidy := by
  refine ⟨?_, fun u hu => by rw [current_commit] at hu; cases hu⟩
  intro v hv
  unfold History.commit at hv
  split at hv
  case h_1 u hu =>
    rcases mem_stored_push hv with rfl | hv
    · exact hh.current _ hu
    · exact hh.stored v hv
  case h_2 => exact hh.stored v hv

theorem Tidy.pop? (hh : h.Tidy) {u : UndoRecord} {rest : History} (hpop : h.pop? = some (u, rest)) :
    u.Tidy ∧ rest.Tidy := by
  unfold History.pop? at hpop
  split at hpop
  case h_1 n v vs hsize hstored =>
    cases hpop
    have hall := hh.stored
    rw [hstored] at hall
    exact ⟨hall _ List.mem_cons_self, fun w hw => hall w (List.mem_cons_of_mem _ hw), hh.current⟩
  case h_2 => cases hpop

end History

namespace Machine

/-- All undo records of the machine are tidy. -/
def Tidy (m : Machine) : Prop := ∀ h, m.history = some h → h.Tidy

/-- Executions keep records tidy. -/
theorem stable_tidy : Stable Tidy where
  observed := fun _ _ h => h
  putRegister := by
    intro m r value hr hm h hh
    obtain ⟨k, hk, rfl⟩ := Option.map_eq_some_iff.mp hh
    exact (hm k hk).addRegister hr _
  touched := fun _ _ h => h
  putMemory := by
    intro m a width value _ _ hm h hh
    obtain ⟨k, hk, rfl⟩ := Option.map_eq_some_iff.mp hh
    exact (hm k hk).addMemory (Word.wordAligned_wordAligned a) _
  withConsole := fun _ _ h => h

variable {m : Machine}

theorem Tidy.commit (hm : m.Tidy) : m.commit.Tidy := by
  intro h hh
  obtain ⟨k, hk, rfl⟩ := Option.map_eq_some_iff.mp hh
  exact (hm k hk).commit

theorem Tidy.rollBack (hm : m.Tidy) : m.rollBack.Tidy := by
  intro h hh
  rw [history_rollBack] at hh
  obtain ⟨k, hk, rfl⟩ := Option.map_eq_some_iff.mp hh
  exact ⟨(hm k hk).stored, nofun⟩

theorem Tidy.perform (hm : m.Tidy) (i : Instr) : (m.perform i).2.Tidy := by
  have hstarted : m.started.Tidy := by
    intro h hh
    obtain ⟨k, hk, rfl⟩ := Option.map_eq_some_iff.mp hh
    exact (hm k hk).start m.pc
  have hran := stable_tidy.execute m.pc i m.started hstarted
  have hout := performed_perform m i
  generalize m.perform i = out at hout ⊢
  cases hout with
  | next ran =>
      rw [ran] at hran
      exact Tidy.commit hran
  | exit ran =>
      rw [ran] at hran
      exact Tidy.commit hran
  | fault ran =>
      rw [ran] at hran
      exact Tidy.rollBack hran

theorem Tidy.advance (hm : m.Tidy) : m.advance.2.Tidy := by
  have hout := attempt_advance m
  generalize m.advance = out at hout ⊢
  cases hout with
  | performed => exact Tidy.perform (m := m.touched m.pc 4) hm _
  | _ => exact hm

theorem Tidy.stepBack (hm : m.Tidy) : m.stepBack.2.Tidy := by
  unfold Machine.stepBack
  split
  case h_1 => exact hm
  case h_2 hist hh =>
    split
    case h_1 => exact hm
    case h_2 u rest hpop =>
      intro k hk
      have hrest : k = rest := Option.some.inj (hk.symm.trans (history_undo _ u))
      rw [hrest]
      exact ((hm hist hh).pop? hpop).2

theorem tidy_load (m : Machine) (p : AssembledProgram) : (m.load p).Tidy := by
  intro h hh
  unfold load at hh
  dsimp only at hh
  split at hh
  · cases hh
    exact History.tidy_empty _
  · cases hh

/-- **In every state that a machine can get into all undo records are tidy.** -/
theorem Reachable.tidy (hm : Reachable m) : m.Tidy := by
  induction hm with
  | initial options => exact fun _ hh => by cases hh
  | load p _ _ => exact tidy_load _ p
  | attempt _ ih => exact ih.advance
  | stepBack _ ih => exact ih.stepBack
  | edit _ h ih => exact fun k hk => ih k (h.history ▸ hk)

end Machine

end MipsLab
