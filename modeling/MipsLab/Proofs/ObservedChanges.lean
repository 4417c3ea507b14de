import Mathlib.Tactic.ByContra
import Std.Data.TreeMap.Lemmas
import MipsLab.Proofs.FaultAtomicity
import MipsLab.Proofs.TidyRecords
import MipsLab.Proofs.Writes

set_option autoImplicit false

/-!
# What the observer reports

After a step, and after a step back, the observer lists as modified exactly the registers and memory
words whose value differs from before (`observed_changes`). Accesses are noted one by one and only
added up, so this rests on two facts: an instruction writes no place twice (`Writes`), and a record that
is put back names no place twice (`Reachable.tidy`). Whatever is written still has the value that it
had before the step, and so the single accesses add up to the difference (`Exact`).
-/

namespace MipsLab

/-- The value at a location differs between two machines. A memory word has an aligned address. -/
def Location.Differs (l : Location) (m n : Machine) : Prop :=
  match l with
  | .register r => n.registers.read r ≠ m.registers.read r
  | .memory a =>
    Word.wordAligned a = a ∧ Image.word n.memory.image a ≠ Image.word m.memory.image a

/-- The observer lists, in their order and each once, the locations whose value differs. -/
structure Observer.Reports (o : Observer) (m n : Machine) : Prop where
  mem_iff : ∀ l, l ∈ o.modified ↔ l.Differs m n
  ascending : (o.modified.map Location.position).Pairwise (· < ·)

/-! ## Locations and accesses -/

namespace Location

theorem ofPosition_position (l : Location) : ofPosition l.position = l := by
  cases l with
  | memory a =>
      have hnone : Register.ofPosition? (a.toNat + 34) = none := by
        simp [Register.ofPosition?, Reg.ofNumber?]
      simp [position, ofPosition, hnone]
  | register r =>
      cases r with
      | hi => rfl
      | lo => rfl
      | general r =>
          have hlt := r.number_lt
          have hsome : Register.ofPosition? r.number = some (.general r) := by
            rw [Register.ofPosition?, if_neg (by omega), if_neg (by omega), Reg.ofNumber?, if_pos hlt]
            simp [Reg.number]
          simp [position, ofPosition, Register.position, hsome]

theorem position_inj {l l' : Location} : l.position = l'.position ↔ l = l' := by
  constructor
  · intro h
    rw [← ofPosition_position l, h, ofPosition_position]
  · rintro rfl
    rfl

end Location

namespace Observer

theorem record_of_disabled {o : Observer} (h : o.enabled = false) (l : Location) (a : Access) :
    o.record l a = o := by
  simp [record, h]

@[simp] theorem enabled_record (o : Observer) (l : Location) (a : Access) :
    (o.record l a).enabled = o.enabled := by
  unfold record
  split <;> rfl

theorem get_record {o : Observer} (h : o.enabled = true) (l l' : Location) (a : Access) :
    (o.record l a).get l' = if l = l' then (o.get l).merge a else o.get l' := by
  rw [record, if_pos h, get, Std.TreeMap.getElem?_insert]
  by_cases hl : l = l'
  · simp [hl]
  · have hne : l.position ≠ l'.position := fun e => hl (Location.position_inj.mp e)
    simp [hl, hne, get]

/-- Every key is the position of a location. -/
def Proper (o : Observer) : Prop := ∀ n ∈ o.accesses, ∃ l : Location, n = l.position

theorem Proper.record {o : Observer} (h : o.Proper) (l : Location) (a : Access) :
    (o.record l a).Proper := by
  unfold Observer.record
  split
  · intro n hn
    rcases Std.TreeMap.mem_insert.mp hn with hn | hn
    · exact ⟨l, (Nat.compare_eq_eq.mp hn).symm⟩
    · exact h n hn
  · exact h

/-- A listed location is one at whose position there is a modifying access. -/
theorem mem_modified {o : Observer} (h : o.Proper) (l : Location) :
    l ∈ o.modified ↔ (o.get l).modified = true := by
  have hkey : ∀ n a, (n, a) ∈ o.accesses.toList ↔ o.accesses[n]? = some a := fun _ _ =>
    Std.TreeMap.mem_toList_iff_getElem?_eq_some
  simp only [modified, toList, List.mem_filterMap, List.mem_map, get]
  constructor
  · rintro ⟨⟨l', b⟩, ⟨⟨n, a⟩, hmem, hpair⟩, hmodified⟩
    obtain ⟨rfl, rfl⟩ := Prod.mk.inj hpair
    have hget := (hkey n a).mp hmem
    obtain ⟨l', rfl⟩ := h n (Std.TreeMap.mem_iff_isSome_getElem?.mpr (by rw [hget]; rfl))
    rw [Location.ofPosition_position] at hmodified
    dsimp only at hmodified
    split at hmodified
    case isTrue ha =>
      cases hmodified
      rw [hget]
      exact ha
    case isFalse => cases hmodified
  · intro hmodified
    cases hget : o.accesses[l.position]? with
    | none =>
        rw [hget] at hmodified
        cases hmodified
    | some a =>
        rw [hget] at hmodified
        refine ⟨(l, a), ⟨(l.position, a), (hkey _ _).mpr hget, ?_⟩, if_pos hmodified⟩
        rw [Location.ofPosition_position]

/-- Locations are listed in the order of their positions. -/
theorem ascending_modified {o : Observer} (h : o.Proper) :
    (o.modified.map Location.position).Pairwise (· < ·) := by
  have hkeys : o.accesses.toList.Pairwise fun p q => p.1 < q.1 :=
    Std.TreeMap.ordered_keys_toList.imp fun h => Nat.compare_eq_lt.mp h
  have hposition : ∀ p ∈ o.accesses.toList, (Location.ofPosition p.1).position = p.1 := by
    intro p hp
    have hget := Std.TreeMap.mem_toList_iff_getElem?_eq_some.mp (show (p.1, p.2) ∈ _ from hp)
    obtain ⟨l, hl⟩ := h p.1 (Std.TreeMap.mem_iff_isSome_getElem?.mpr (by rw [hget]; rfl))
    rw [hl, Location.ofPosition_position]
  rw [modified, toList, List.filterMap_map, List.map_filterMap, List.pairwise_filterMap]
  refine hkeys.imp_of_mem fun {p q} hp hq hlt x hx y hy => ?_
  simp only [Function.comp, Option.map_eq_some_iff] at hx hy
  obtain ⟨l, hl, rfl⟩ := hx
  obtain ⟨l', hl', rfl⟩ := hy
  have hfirst : l = Location.ofPosition p.1 := by
    split at hl <;> cases hl
    rfl
  have hsecond : l' = Location.ofPosition q.1 := by
    split at hl' <;> cases hl'
    rfl
  rw [hfirst, hsecond, hposition p hp, hposition q hq]
  exact hlt

end Observer

/-! ## Words that differ -/

namespace Image

/-- Two images have different words at an address if one of the four bytes differs. -/
theorem word_ne_iff (g g' : Image) (a : Word) :
    word g a ≠ word g' a ↔ ∃ x, (x - a).toNat < 4 ∧ g x ≠ g' x := by
  constructor
  · intro hne
    by_contra hall
    apply hne
    apply word_congr
    intro x hx
    by_contra hbyte
    exact hall ⟨x, hx, hbyte⟩
  · rintro ⟨x, hx, hne⟩ h
    have hbyte := (word_eq_iff g a (word g' a)).mp h x hx
    rw [bytes_word, getElem?_bytesAt _ _ _ _ hx] at hbyte
    exact hne (Option.some.inj hbyte).symm

end Image

namespace Machine

/-! ## Accesses that add up -/

/-- What was observed since the machine was in the state `s` is what differs from `s`. -/
structure Exact (s n : Machine) : Prop where
  enabled : n.observer.enabled = true
  proper : n.observer.Proper
  modified : ∀ l, (n.observer.get l).modified = true ↔ l.Differs s n

/-- Two machines have the same registers and bytes of memory. -/
def SameValues (s n : Machine) : Prop :=
  n.registers = s.registers ∧ n.memory.image = s.memory.image

variable {s m n k : Machine}

theorem SameValues.trans (hmn : SameValues m n) (hnk : SameValues n k) : SameValues m k :=
  ⟨hnk.1.trans hmn.1, hnk.2.trans hmn.2⟩

theorem SameValues.differs_iff (h : SameValues m n) (l : Location) :
    l.Differs s n ↔ l.Differs s m := by
  obtain ⟨hregisters, himage⟩ := h
  cases l with
  | register r => simp only [Location.Differs, hregisters]
  | memory a => simp only [Location.Differs, himage]

theorem Exact.reports (h : Exact s n) : n.observer.Reports s n where
  mem_iff := fun l => (Observer.mem_modified h.proper l).trans (h.modified l)
  ascending := Observer.ascending_modified h.proper

/-- Nothing differs where nothing was observed yet. -/
theorem exact_of_clear (h : SameValues s n) (hclear : n.observer = ⟨true, ∅⟩) : Exact s n where
  enabled := by rw [hclear]
  proper := by
    intro p hp
    rw [hclear] at hp
    exact absurd hp Std.TreeMap.not_mem_emptyc
  modified := by
    intro l
    have hsame : ¬ l.Differs s n := by
      obtain ⟨hregisters, himage⟩ := h
      cases l with
      | register r => simp [Location.Differs, hregisters]
      | memory a => simp [Location.Differs, himage]
    have hget : n.observer.get l = .none := by
      rw [hclear]
      simp [Observer.get]
    rw [hget]
    exact iff_of_false (by decide) hsame

theorem Exact.congr (h : Exact s m) (hsame : SameValues m n) (hobserver : n.observer = m.observer) :
    Exact s n where
  enabled := by rw [hobserver, h.enabled]
  proper := by rw [hobserver]; exact h.proper
  modified := fun l => by rw [hobserver, h.modified l, hsame.differs_iff]

/-- Reads report no difference. -/
theorem Exact.read (h : Exact s m) (l : Location) : Exact s (m.observed l .ofRead) where
  enabled := (Observer.enabled_record _ _ _).trans h.enabled
  proper := h.proper.record l _
  modified := by
    intro l'
    have hsame : SameValues m (m.observed l .ofRead) := ⟨rfl, rfl⟩
    rw [hsame.differs_iff, ← h.modified l', observed, Observer.get_record h.enabled]
    by_cases hl : l = l'
    · simp [hl, Access.merge, Access.ofRead]
    · simp [hl]

/-- A write to a register that still has its value adds the difference at that register. -/
theorem Exact.register (h : Exact s m) {r : Register} {value : Word} (hr : r ≠ .general .zero)
    (fresh : m.registers.read r = s.registers.read r)
    (hregisters : n.registers = m.registers.write r value)
    (himage : n.memory.image = m.memory.image)
    (hobserver :
      n.observer = m.observer.record (.register r) (.ofWrite (m.registers.read r) value)) :
    Exact s n where
  enabled := by rw [hobserver, Observer.enabled_record, h.enabled]
  proper := by rw [hobserver]; exact h.proper.record _ _
  modified := by
    intro l
    rw [hobserver, Observer.get_record h.enabled]
    by_cases hl : .register r = l
    · subst hl
      -- nothing was reported about the register before
      have hbefore : (m.observer.get (.register r)).modified = false := by
        rw [← Bool.not_eq_true, h.modified]
        simp [Location.Differs, fresh]
      simp only [if_true, Access.merge, Access.ofWrite, hbefore, Bool.false_or, bne_iff_ne,
        Location.Differs, hregisters, Registers.read_write_self _ _ hr, fresh]
      exact ne_comm
    · rw [if_neg hl, h.modified]
      cases l with
      | register r' =>
          have hne : r ≠ r' := fun e => hl (by rw [e])
          simp only [Location.Differs, hregisters, Registers.read_write_of_ne _ _ hne]
      | memory a => simp only [Location.Differs, himage]

/-- A write inside one word, to bytes that still have their values, adds the difference at that
word. -/
theorem Exact.word (h : Exact s m) {a : Word} (ha : Word.wordAligned a = a)
    (hregisters : n.registers = m.registers)
    (inside : ∀ x, Word.wordAligned x ≠ a → n.memory.image x = m.memory.image x)
    (fresh : ∀ x, n.memory.image x ≠ m.memory.image x → m.memory.image x = s.memory.image x)
    (hobserver : n.observer = m.observer.record (.memory a)
      (.ofWrite (Image.word m.memory.image a) (Image.word n.memory.image a))) :
    Exact s n where
  enabled := by rw [hobserver, Observer.enabled_record, h.enabled]
  proper := by rw [hobserver]; exact h.proper.record _ _
  modified := by
    intro l
    rw [hobserver, Observer.get_record h.enabled]
    by_cases hl : .memory a = l
    · subst hl
      have hbefore := h.modified (.memory a)
      simp only [Location.Differs, ha, true_and, Image.word_ne_iff] at hbefore
      simp only [if_true, Access.merge, Access.ofWrite, Bool.or_eq_true, bne_iff_ne, hbefore,
        Location.Differs, ha, true_and, Image.word_ne_iff]
      -- byte by byte: one that is written now differed neither from `s` nor was it written before
      constructor
      · rintro (⟨x, hx, hne⟩ | ⟨x, hx, hne⟩)
        · refine ⟨x, hx, ?_⟩
          by_cases hsame : n.memory.image x = m.memory.image x
          · rwa [hsame]
          · exact absurd (fresh x hsame) hne
        · refine ⟨x, hx, ?_⟩
          rw [← fresh x (Ne.symm hne)]
          exact Ne.symm hne
      · rintro ⟨x, hx, hne⟩
        by_cases hsame : n.memory.image x = m.memory.image x
        · exact .inl ⟨x, hx, by rwa [← hsame]⟩
        · exact .inr ⟨x, hx, Ne.symm hsame⟩
    · rw [if_neg hl, h.modified]
      cases l with
      | register r => simp only [Location.Differs, hregisters]
      | memory b =>
          simp only [Location.Differs]
          refine and_congr_right fun hb => ?_
          have hword : Image.word n.memory.image b = Image.word m.memory.image b := by
            apply Image.word_congr
            intro x hx
            apply inside
            rw [← hb] at hx
            rw [(Word.wordAligned_eq_iff b x).mpr hx, hb]
            exact fun e => hl (by rw [e])
          rw [hword]

/-! ## Instructions -/

theorem Looked.sameValues (h : Looked m n) : SameValues m n := by
  induction h with
  | refl => exact ⟨rfl, rfl⟩
  | observed _ l ih => exact ih.trans ⟨rfl, rfl⟩
  | touched _ a k ih => exact ih.trans ⟨rfl, image_touched _ a k⟩
  | withConsole _ console running ih => exact ih.trans ⟨rfl, rfl⟩

theorem Exact.looked (h : Exact s m) (hlooked : Looked m n) : Exact s n := by
  induction hlooked with
  | refl => exact h
  | observed _ l ih => exact ih.read l
  | touched _ a k ih => exact ih.congr ⟨rfl, image_touched _ a k⟩ rfl
  | withConsole _ console running ih => exact ih.congr ⟨rfl, rfl⟩ rfl

theorem Exact.wrote (h : Exact s m) {r : Register} (fresh : m.registers.read r = s.registers.read r)
    (value : Word) : Exact s (m.wrote r value) := by
  unfold Machine.wrote
  split
  case isTrue => exact h
  case isFalse hr => exact h.register hr fresh rfl rfl rfl

theorem read_wrote_of_ne (m : Machine) {r r' : Register} (h : r ≠ r') (value : Word) :
    (m.wrote r value).registers.read r' = m.registers.read r' := by
  unfold Machine.wrote
  split
  · rfl
  · exact Registers.read_write_of_ne _ _ h

theorem Exact.storedTo (h : Exact s m) {a : Word} {width : Nat}
    (hw : width = 1 ∨ width = 2 ∨ width = 4) (ha : Word.isAligned a width = true)
    (fresh : ∀ x, (x - a).toNat < width → m.memory.image x = s.memory.image x) (value : Word) :
    Exact s (m.storedTo a width value) := by
  have hkept : ∀ x, width ≤ (x - a).toNat →
      (m.storedTo a width value).memory.image x = m.memory.image x := by
    intro x hx
    rw [image_storedTo, Image.store_of_le hw _ _ hx]
  refine h.word (Word.wordAligned_wordAligned a) rfl ?_ ?_ rfl
  · intro x hx
    apply hkept
    by_contra hlt
    exact hx (Word.wordAligned_of_sub_lt hw ha (by omega))
  · intro x hx
    apply fresh
    by_contra hle
    exact hx (hkept x (by omega))

theorem Exact.storedBytes {a : Word} {bytes : List Byte} (h : Exact s m)
    (hlength : bytes.length ≤ 0x100000000)
    (fresh : ∀ x, (x - a).toNat < bytes.length → m.memory.image x = s.memory.image x) :
    Exact s (m.storedBytes a bytes) := by
  induction bytes generalizing m a with
  | nil => exact h
  | cons b bs ih =>
      rw [List.length_cons] at hlength fresh
      apply ih
      · refine h.storedTo (.inl rfl) (isAligned_one a) (fun x hx => fresh x (by omega)) _
      · omega
      · -- the bytes behind the first one were not written with it
        intro x hx
        have hne : x ≠ a := by
          rintro rfl
          have hlast : (x - (x + 1)).toNat = 0xFFFFFFFF := by bv_omega
          omega
        have hnext := Word.toNat_sub_eq_add_one hne
        rw [image_storedTo, Image.store_of_le (.inl rfl) _ _ (by omega)]
        exact fresh x (by omega)

/-- **What one instruction writes adds up to the difference.** -/
theorem Exact.writes (h : Exact s m) (same : SameValues s m) (hwrites : Writes m n) : Exact s n := by
  obtain ⟨hregisters, himage⟩ := same
  cases hwrites with
  | nothing => exact h
  | register r value => exact h.wrote (by rw [hregisters]) value
  | product hi lo =>
      have hne : Register.hi ≠ Register.lo := by decide
      refine (h.wrote (by rw [hregisters]) hi).wrote ?_ lo
      rw [read_wrote_of_ne m hne, hregisters]
  | word value hw ha => exact h.storedTo hw ha (fun x _ => by rw [himage]) value
  | string a bytes hlength => exact h.storedBytes hlength (fun x _ => by rw [himage])

theorem Exact.execute (h : Exact s m) (same : SameValues s m) (pc : Word) (i : Instr) :
    Exact s ((execute pc i).run.run m).2 := by
  obtain ⟨k, hlooked, hwrites⟩ := writesOnce_execute pc i m
  exact (h.looked hlooked).writes (same.trans hlooked.sameValues) hwrites

/-! ## Steps -/

/-- Rolling back an instruction that has written nothing observes nothing. -/
theorem rollBack_of_quiet_started (h : Quiet m.started n) :
    SameValues n n.rollBack ∧ n.rollBack.observer = n.observer := by
  have hhistory : n.history = m.history.map (·.start m.pc) := h.history
  unfold rollBack
  rw [hhistory]
  cases m.history with
  | none => exact ⟨⟨rfl, rfl⟩, rfl⟩
  | some k => exact ⟨⟨rfl, rfl⟩, rfl⟩

theorem Exact.perform (h : Exact s m) (same : SameValues s m) (i : Instr) :
    Exact s (m.perform i).2 := by
  have hstarted : Exact s m.started := h.congr ⟨rfl, rfl⟩ rfl
  have hran := hstarted.execute same m.pc i
  have hout := performed_perform m i
  generalize m.perform i = out at hout ⊢
  cases hout with
  | next ran =>
      rw [ran] at hran
      exact hran.congr ⟨rfl, rfl⟩ rfl
  | exit ran =>
      rw [ran] at hran
      exact hran.congr ⟨rfl, rfl⟩ rfl
  | fault ran =>
      rw [ran] at hran
      -- what faults has written nothing, so there is nothing to put back
      obtain ⟨hsame, hobserver⟩ :=
        rollBack_of_quiet_started (faultsQuietly_execute m.pc i _ _ _ ran)
      exact hran.congr hsame hobserver

theorem Exact.advance (h : Exact s m) (same : SameValues s m) : Exact s m.advance.2 := by
  have hout := attempt_advance m
  generalize m.advance = out at hout ⊢
  have htouched : SameValues m (m.touched m.pc 4) := ⟨rfl, image_touched _ _ _⟩
  cases hout with
  | exited => exact h
  | notLoaded => exact h
  | invalidFetch => exact h
  | pastCode => exact h.congr ⟨rfl, rfl⟩ rfl
  | illegal => exact h.congr htouched rfl
  | performed => exact (h.congr htouched rfl).perform (same.trans htouched) _

theorem exact_step (m : Machine) : Exact m m.step.2 := by
  have hbegin : Exact m m.beginStep := exact_of_clear ⟨rfl, rfl⟩ rfl
  have hadvance := hbegin.advance ⟨rfl, rfl⟩
  unfold step
  split
  case h_1 hadv => rwa [hadv] at hadvance
  case h_2 hadv =>
    rw [hadv] at hadvance
    exact hadvance.congr ⟨rfl, rfl⟩ rfl
  case h_3 hadv => rwa [hadv] at hadvance

/-! ## Steps back -/

/-- Putting back registers that still have their values adds up to the difference. -/
theorem Exact.undoRegisters {ps : List (Register × Word)} (h : Exact s m)
    (distinct : (ps.map Prod.fst).Nodup) (writable : ∀ p ∈ ps, p.1 ≠ .general .zero)
    (fresh : ∀ p ∈ ps, m.registers.read p.1 = s.registers.read p.1) :
    Exact s (m.undoRegisters ps) := by
  induction ps generalizing m with
  | nil => exact h
  | cons p ps ih =>
      obtain ⟨hp, hps⟩ := List.nodup_cons.mp distinct
      rw [undoRegisters_cons]
      apply ih
      · exact h.register (writable p List.mem_cons_self) (fresh p List.mem_cons_self) rfl rfl rfl
      · exact hps
      · exact fun q hq => writable q (List.mem_cons_of_mem _ hq)
      · intro q hq
        have hne : p.1 ≠ q.1 := fun e => hp (e ▸ List.mem_map_of_mem hq)
        show ((m.registers.write p.1 p.2).read q.1) = _
        rw [Registers.read_write_of_ne _ _ hne, fresh q (List.mem_cons_of_mem _ hq)]

theorem registers_undoWord (m : Machine) (a old : Word) :
    (m.undoWord a old).registers = m.registers := by
  rw [undoWord]

theorem image_undoWord (m : Machine) (a old : Word) :
    (m.undoWord a old).memory.image = Image.store m.memory.image a 4 old := by
  rw [undoWord, Memory.image_write, Memory.image_touchBytes]

theorem observer_undoWord (m : Machine) (a old : Word) :
    (m.undoWord a old).observer =
      m.observer.record (.memory a) (.ofWrite (Image.word m.memory.image a) old) := by
  rw [undoWord]

/-- Putting back words that still have their bytes adds up to the difference. -/
theorem Exact.undoWords {ps : List (Word × Word)} (h : Exact s m)
    (distinct : (ps.map Prod.fst).Nodup) (aligned : ∀ p ∈ ps, Word.wordAligned p.1 = p.1)
    (fresh : ∀ p ∈ ps, ∀ x, Word.wordAligned x = p.1 → m.memory.image x = s.memory.image x) :
    Exact s (m.undoWords ps) := by
  -- the words are distinct, so putting one back leaves the others as they are
  induction ps generalizing m with
  | nil => exact h
  | cons p ps ih =>
      obtain ⟨hp, hps⟩ := List.nodup_cons.mp distinct
      have ha := aligned p List.mem_cons_self
      have hkept : ∀ x, Word.wordAligned x ≠ p.1 →
          (m.undoWord p.1 p.2).memory.image x = m.memory.image x := by
        intro x hx
        rw [image_undoWord]
        apply Image.store_of_le (.inr (.inr rfl))
        rw [← ha] at hx
        have hfar := mt (Word.wordAligned_eq_iff p.1 x).mpr hx
        rw [ha] at hfar
        omega
      rw [undoWords_cons]
      apply ih
      · refine h.word ha (registers_undoWord m p.1 p.2) hkept ?_ ?_
        · intro x hx
          apply fresh p List.mem_cons_self
          by_contra hne
          exact hx (hkept x hne)
        · rw [image_undoWord, Image.word_store_self, observer_undoWord]
      · exact hps
      · exact fun q hq => aligned q (List.mem_cons_of_mem _ hq)
      · intro q hq x hx
        have hne : p.1 ≠ q.1 := fun e => hp (e ▸ List.mem_map_of_mem hq)
        rw [hkept x (fun e => hne (e.symm.trans hx)), fresh q (List.mem_cons_of_mem _ hq) x hx]

theorem Exact.undo {u : UndoRecord} (h : Exact s m) (same : SameValues s m) (tidy : u.Tidy) :
    Exact s (m.undo u) := by
  obtain ⟨hregisters, himage⟩ := same
  obtain ⟨-, hmemory, -⟩ := undoRegisters_spec m u.registers
  have hfirst := h.undoRegisters tidy.registers tidy.writable fun p _ => by rw [hregisters]
  have hboth := hfirst.undoWords tidy.words tidy.aligned fun p _ x _ => by rw [hmemory, himage]
  rw [undo_eq]
  exact hboth.congr ⟨rfl, rfl⟩ rfl

theorem exact_stepBack (tidy : m.Tidy) {pc : Word} (undone : m.stepBack.1 = .undone pc) :
    Exact m m.stepBack.2 := by
  unfold stepBack at undone ⊢
  split at undone
  case h_1 => cases undone
  case h_2 hist hh =>
    split at undone
    case h_1 => cases undone
    case h_2 u rest hpop =>
      obtain ⟨htidy, -⟩ := (tidy hist hh).pop? hpop
      have hbegin : Exact m { m with history := some rest }.beginStep :=
        exact_of_clear ⟨rfl, rfl⟩ rfl
      exact (hbegin.undo ⟨rfl, rfl⟩ htidy).congr ⟨rfl, rfl⟩ rfl

/-! ## Free runs -/

/-- Nothing is observed while the observer is switched off. -/
theorem stable_observer {o : Observer} (off : o.enabled = false) :
    Stable fun n => n.observer = o where
  observed := by
    intro n l a h
    rw [observed, h, Observer.record_of_disabled off]
  putRegister := fun _ _ _ h => h
  touched := fun _ _ h => h
  putMemory := fun _ _ _ _ _ h => h
  withConsole := fun _ _ h => h

theorem observer_undo {o : Observer} (off : o.enabled = false) (h : m.observer = o)
    (u : UndoRecord) : (m.undo u).observer = o := by
  have hregisters : ∀ (ps : List (Register × Word)) (m : Machine), m.observer = o →
      (m.undoRegisters ps).observer = o := by
    intro ps
    induction ps with
    | nil => exact fun _ h => h
    | cons p ps ih =>
        intro m h
        rw [undoRegisters_cons]
        apply ih
        rw [undoRegister, h, Observer.record_of_disabled off]
  have hwords : ∀ (ps : List (Word × Word)) (m : Machine), m.observer = o →
      (m.undoWords ps).observer = o := by
    intro ps
    induction ps with
    | nil => exact fun _ h => h
    | cons p ps ih =>
        intro m h
        rw [undoWords_cons]
        apply ih
        rw [observer_undoWord, h, Observer.record_of_disabled off]
  rw [undo_eq]
  exact hwords _ _ (hregisters _ _ h)

theorem observer_advance {o : Observer} (off : o.enabled = false) (h : m.observer = o) :
    m.advance.2.observer = o := by
  have hperform : ∀ (m : Machine) (i : Instr), m.observer = o → (m.perform i).2.observer = o := by
    intro m i h
    have hran := (stable_observer off).execute m.pc i m.started h
    have hout := performed_perform m i
    generalize m.perform i = out at hout ⊢
    cases hout with
    | next ran => rwa [ran] at hran
    | exit ran => rwa [ran] at hran
    | @fault cause n ran =>
        have hran : n.observer = o := by rwa [ran] at hran
        show n.rollBack.observer = o
        unfold rollBack
        split
        · exact hran
        · split
          case h_1 u rest _ => exact observer_undo (m := { n with history := some rest }) off hran u
          case h_2 => exact hran
  have hout := attempt_advance m
  generalize m.advance = out at hout ⊢
  cases hout with
  | performed => exact hperform (m.touched m.pc 4) _ h
  | _ => exact h

theorem accesses_simulate {limit : Option Count} {fuel : Nat} {outcome : Except Fault Bool}
    (ran : m.simulate limit fuel = some (outcome, n)) :
    n.observer.accesses = m.observer.accesses := by
  rw [simulate_eq, Option.map_eq_some_iff] at ran
  obtain ⟨r, ran, hr⟩ := ran
  obtain ⟨-, rfl⟩ := Prod.mk.inj hr
  have hrun : r.machine.observer = ⟨false, m.observer.accesses⟩ := by
    apply runLoop_invariant (I := fun _ n _ => n.observer = ⟨false, m.observer.accesses⟩)
      (fun _ _ _ h => h) (fun _ _ _ h => observer_advance rfl h) (fun _ _ _ _ h => h) rfl ran
    exact []
  rw [hrun]

/-- **The observer lists exactly what a step, or a step back, has changed**, from every state that a
machine can get into, and however the step ends; a free run leaves the accesses of the last step as
they were. -/
theorem observed_changes (hm : Reachable m) :
    m.step.2.observer.Reports m m.step.2 ∧
      (∀ pc, m.stepBack.1 = .undone pc → m.stepBack.2.observer.Reports m m.stepBack.2) ∧
      ∀ (limit : Option Count) (fuel : Nat) (outcome : Except Fault Bool) (n : Machine),
        m.simulate limit fuel = some (outcome, n) →
        n.observer.accesses = m.observer.accesses :=
  ⟨(exact_step m).reports, fun _ undone => (exact_stepBack hm.tidy undone).reports,
    fun _ _ _ _ ran => accesses_simulate ran⟩

/-- The machine that is about to read a line into the last two bytes of memory and the first ones. All
words are filled with the bytes of `abc` and a line feed, and the line is `c`. -/
def readingAcrossEnd (p : AssembledProgram) : Machine :=
  let m := (Machine.initial { fill := .known 0x0A636261 }).load p
  { m with
    registers := ((m.registers.set .v0 8).set .a0 0xFFFFFFFE).set .a1 10
    console := .buffered ⟨[0x63, 0x0A], #[]⟩ }

/-- The last word is written, but with the bytes that it has; only the first word is modified, by the
zero byte. Going back modifies it again, and a run leaves that as it is. -/
theorem observed_changes_acrossEnd :
    ∃ p, assembled? "syscall" = some p ∧
      let m := readingAcrossEnd p
      m.step.2.observer.get (.memory 0xFFFFFFFC) = ⟨false, true, false⟩ ∧
        m.step.2.observer.modified = [.memory 0] ∧ m.step.2.observer.Reports m m.step.2 ∧
        m.step.2.stepBack.2.observer.Reports m.step.2 m.step.2.stepBack.2 ∧
        ∃ outcome n, m.step.2.simulate none 2 = some (outcome, n) ∧
          n.observer.accesses = m.step.2.observer.accesses := by
  have hrun : (assembled? "syscall").map (fun p =>
      let m := readingAcrossEnd p
      (m.step.2.observer.get (.memory 0xFFFFFFFC), m.step.2.observer.modified,
        m.step.2.stepBack.1, (m.step.2.simulate none 2).isSome,
        decide (m.registers.get .zero = 0))) =
      some (⟨false, true, false⟩, [.memory 0], .undone 0x00400000, true, true) := by decide +kernel
  obtain ⟨p, hp, hrun⟩ := Option.map_eq_some_iff.mp hrun
  simp only [Prod.mk.injEq, decide_eq_true_eq] at hrun
  obtain ⟨hget, hmodified, hundone, hsimulate, hzero⟩ := hrun
  have hloaded : Reachable ((Machine.initial { fill := .known 0x0A636261 }).load p) :=
    .load p (.initial _)
  have hm : Reachable (readingAcrossEnd p) :=
    .edit hloaded ⟨rfl, rfl, rfl, rfl, hzero.trans hloaded.get_zero.symm⟩
  obtain ⟨⟨outcome, n⟩, ran⟩ := Option.isSome_iff_exists.mp hsimulate
  exact ⟨p, hp, hget, hmodified, (observed_changes hm).1, (observed_changes hm.step).2.1 _ hundone,
    outcome, n, ran, (observed_changes hm.step).2.2 _ _ _ _ ran⟩

end Machine

end MipsLab
