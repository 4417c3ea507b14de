import MipsLab.Proofs.Footprints
import MipsLab.Proofs.TidyRecords

set_option autoImplicit false

/-!
# What a program has touched

A breakpoint on a memory word holds only if memory has a page for the word. A page comes into being when one of
its bytes is loaded with the program, or when an instruction fetches, reads or writes it (`Debugging.paged`), and
by nothing else: what is put back after a fault or by a step back has been written before. So a page tells that
some byte of it was touched, and not that the word was (`check_memory_iff`).
-/

namespace MipsLab

open Memory (pageOf)
open Memory.Operation (addressesFrom)

/-! ## Words that are put back -/

namespace History

/-- All words that the records name, the one that is open included, have a property. -/
def Names (h : History) (P : Word → Prop) : Prop :=
  ∀ u, u ∈ h.stored ∨ h.current = some u → ∀ q ∈ u.memory, P q.1

variable {h : History} {P Q : Word → Prop}

theorem names_empty (limit : Nat) : (empty limit).Names P := by
  rintro u (hu | hu) <;> cases hu

namespace Names

theorem mono (hh : h.Names P) (hPQ : ∀ a, P a → Q a) : h.Names Q := fun u hu q hq => hPQ _ (hh u hu q hq)

theorem start (hh : h.Names P) (pc : Word) : (h.start pc).Names P := by
  rintro u (hu | hu)
  · exact hh u (.inl hu)
  · cases hu
    exact nofun

theorem addRegister (hh : h.Names P) (r : Register) (old : Word) : (h.addRegister r old).Names P := by
  rintro u (hu | hu)
  · exact hh u (.inl hu)
  · obtain ⟨v, hv, rfl⟩ := Option.map_eq_some_iff.mp hu
    have hmemory : (v.addRegister r old).memory = v.memory := by
      unfold UndoRecord.addRegister
      split <;> rfl
    rw [hmemory]
    exact hh v (.inr hv)

theorem addMemory (hh : h.Names P) {a : Word} (ha : P a) (old : Word) : (h.addMemory a old).Names P := by
  rintro u (hu | hu)
  · exact hh u (.inl hu)
  · obtain ⟨v, hv, rfl⟩ := Option.map_eq_some_iff.mp hu
    unfold UndoRecord.addMemory
    split
    · exact hh v (.inr hv)
    · intro q hq
      rcases List.mem_append.mp hq with hq | hq
      · exact hh v (.inr hv) q hq
      · rw [List.mem_singleton.mp hq]
        exact ha

theorem commit (hh : h.Names P) : h.commit.Names P := by
  unfold History.commit
  split
  case h_1 v hv =>
    rintro u (hu | hu)
    · rcases mem_stored_push hu with rfl | hu
      · exact hh _ (.inr hv)
      · exact hh u (.inl hu)
    · cases hu
  case h_2 => exact hh

theorem pop? (hh : h.Names P) {u : UndoRecord} {rest : History} (hpop : h.pop? = some (u, rest)) :
    (∀ q ∈ u.memory, P q.1) ∧ rest.Names P := by
  unfold History.pop? at hpop
  split at hpop
  case h_1 n v vs hsize hstored =>
    cases hpop
    have hall (w : UndoRecord) (hw : w ∈ u :: vs) : ∀ q ∈ w.memory, P q.1 := hh w (.inl (hstored ▸ hw))
    refine ⟨hall u List.mem_cons_self, ?_⟩
    rintro w (hw | hw)
    · exact hall w (List.mem_cons_of_mem _ hw)
    · exact hh w (.inr hw)
  case h_2 => cases hpop

/-- Giving up the record that is open. -/
theorem close (hh : h.Names P) : ({ h with current := none } : History).Names P := by
  rintro u (hu | hu)
  · exact hh u (.inl hu)
  · cases hu

end Names

end History

namespace Machine

/-- The words that can be put back have pages. -/
def Restorable (m : Machine) : Prop :=
  ∀ h, m.history = some h → h.Names fun a => Word.wordAligned a = a ∧ m.memory.isTouched a = true

theorem Restorable.congr {m n : Machine} (hm : m.Restorable) (hhistory : n.history = m.history)
    (hpages : ∀ x, m.memory.isTouched x = true → n.memory.isTouched x = true) : n.Restorable :=
  fun h hh => (hm h (hhistory ▸ hh)).mono fun a ha => ⟨ha.1, hpages a ha.2⟩

/-- Executions record words that they write, and pages stay. -/
theorem stable_restorable : Stable Restorable where
  observed := fun _ _ hm => hm
  putRegister := by
    intro m r value _ hm h hh
    obtain ⟨k, hk, rfl⟩ := Option.map_eq_some_iff.mp hh
    exact (hm k hk).addRegister r _
  touched := fun a n hm => hm.congr rfl fun x hx => Memory.isTouched_touchBytes _ a x n hx
  putMemory := by
    intro m a width value hw ha hm h hh
    have hpages := Touches.putMemory m a hw value
    obtain ⟨k, hk, rfl⟩ := Option.map_eq_some_iff.mp hh
    refine ((hm k hk).mono fun x hx => ⟨hx.1, (hpages x).mpr (.inl hx.2)⟩).addMemory ?_ _
    have hbase : pageOf a = pageOf (Word.wordAligned a) :=
      (Memory.pageOf_congr (Word.wordAligned_wordAligned a)).symm
    exact ⟨Word.wordAligned_wordAligned a,
      (hpages _).mpr (.inr ((exists_mem_addressesFrom_iff hw ha _).mpr hbase))⟩
  withConsole := fun _ _ hm => hm

/-- What lies in pages that exist touches nothing new. -/
theorem Touches.absorb {m n : Machine} {as : List Word} (h : Touches m n as)
    (hall : ∀ a ∈ as, m.memory.isTouched a = true) : Touches m n [] := by
  intro x
  rw [h x]
  constructor
  · rintro (hx | ⟨a, ha, hpage⟩)
    · exact .inl hx
    · exact .inl (m.memory.isTouched_congr hpage ▸ hall a ha)
  · rintro (hx | ⟨_, ha, -⟩)
    · exact .inl hx
    · cases ha

theorem touches_undoWords {m : Machine} (ps : List (Word × Word))
    (hps : ∀ q ∈ ps, Word.wordAligned q.1 = q.1 ∧ m.memory.isTouched q.1 = true) :
    Touches m (m.undoWords ps) [] := by
  induction ps generalizing m with
  | nil => exact .of_memory rfl
  | cons q ps ih =>
      obtain ⟨⟨haligned, hq⟩, hps⟩ := List.forall_mem_cons.mp hps
      have hw : 4 = 1 ∨ 4 = 2 ∨ 4 = 4 := by decide
      have hword : Touches m (m.undoWord q.1 q.2) (addressesFrom q.1 4 ++ addressesFrom q.1 4) :=
        (Touches.touched m q.1 4).trans (Touches.putMemory (m.touched q.1 4) q.1 hw q.2)
      have hsame := hword.absorb fun a ha => by
        have ha := or_self_iff.mp (List.mem_append.mp ha)
        rw [m.memory.isTouched_congr
          (pageOf_of_mem_addressesFrom hw (Word.isAligned_of_wordAligned haligned) ha)]
        exact hq
      rw [undoWords_cons]
      exact hsame.trans (ih fun r hr => ⟨(hps r hr).1, (hsame _).mpr (.inl (hps r hr).2)⟩)

/-- **Putting words back touches nothing new.** -/
theorem touches_undo {m : Machine} {u : UndoRecord}
    (hu : ∀ q ∈ u.memory, Word.wordAligned q.1 = q.1 ∧ m.memory.isTouched q.1 = true) :
    Touches m (m.undo u) [] := by
  have hmemory := (undoRegisters_spec m u.registers).2.1
  have hundone := touches_undoWords (m := m.undoRegisters u.registers) u.memory (by rwa [hmemory])
  intro x
  rw [← hmemory]
  exact hundone x

/-! ## Attempts -/

/-- The addresses that an attempt to execute the next instruction accesses: those of the instruction that is
fetched, and those that it reads or writes. -/
inductive Accesses (m : Machine) : Word → Prop
  | fetched (going : m.exitCode = none) (here : m.AtCode) {a : Word} (ha : a ∈ addressesFrom m.pc 4) : Accesses m a
  | executed (going : m.exitCode = none) (here : m.AtCode) {i : Instr}
      (decoded : Instr.decode? m.nextWord = some i) {a : Word} (ha : a ∈ m.accessed i) : Accesses m a

theorem touches_rollBack {m : Machine} (hm : m.Restorable) : Touches m m.rollBack [] := by
  unfold rollBack
  split
  case h_1 => exact .of_memory rfl
  case h_2 h hh =>
    split
    case h_1 u k habort =>
      obtain ⟨hu, rfl⟩ := Prod.mk.inj habort
      exact touches_undo (m := { m with history := some { h with current := none } }) (hm h hh u (.inr hu))
    case h_2 => exact .of_memory rfl

theorem restorable_rollBack {m : Machine} (hm : m.Restorable) : m.rollBack.Restorable := by
  intro h hh
  rw [history_rollBack] at hh
  obtain ⟨k, hk, rfl⟩ := Option.map_eq_some_iff.mp hh
  exact (hm k hk).close.mono fun a ha => ⟨ha.1, (touches_rollBack hm a).mpr (.inl ha.2)⟩

theorem restorable_commit {m : Machine} (hm : m.Restorable) : m.commit.Restorable := by
  intro h hh
  obtain ⟨k, hk, rfl⟩ := Option.map_eq_some_iff.mp hh
  exact (hm k hk).commit

/-- Performing an instruction touches what its execution accesses, also if that is undone after a fault. -/
theorem touches_perform {m : Machine} (hm : m.Restorable) (i : Instr) :
    (m.perform i).2.Restorable ∧ Touches m (m.perform i).2 (m.accessed i) := by
  have hstarted : m.started.Restorable := by
    intro h hh
    obtain ⟨k, hk, rfl⟩ := Option.map_eq_some_iff.mp hh
    exact (hm k hk).start m.pc
  have hran := stable_restorable.execute m.pc i m.started hstarted
  have haccessed : Touches m ((execute m.pc i).run.run m.started).2 (m.accessed i) :=
    Touches.execute m.started m.pc i
  have hout := performed_perform m i
  generalize m.perform i = out at hout ⊢
  cases hout with
  | next ran =>
      rw [ran] at hran haccessed
      exact ⟨restorable_commit hran, haccessed⟩
  | exit ran =>
      rw [ran] at hran haccessed
      exact ⟨restorable_commit hran, haccessed⟩
  | fault ran =>
      rw [ran] at hran haccessed
      have hall := haccessed.trans (touches_rollBack hran)
      rw [List.append_nil] at hall
      exact ⟨restorable_rollBack hran, hall⟩

section Accesses

variable {m : Machine} {a : Word}

theorem not_accesses (h : m.exitCode ≠ none ∨ ¬ m.AtCode) : ¬ m.Accesses a := by
  rintro (⟨going, here, -⟩ | ⟨going, here, -, -⟩)
  · exact h.elim (fun h => h going) fun h => h here
  · exact h.elim (fun h => h going) fun h => h here

variable (going : m.exitCode = none) (here : m.AtCode)
include going here

theorem accesses_iff_of_undecoded (undecoded : Instr.decode? m.nextWord = none) :
    m.Accesses a ↔ a ∈ addressesFrom m.pc 4 := by
  refine ⟨?_, .fetched going here⟩
  rintro (⟨-, -, ha⟩ | ⟨-, -, decoded, -⟩)
  · exact ha
  · rw [undecoded] at decoded
    cases decoded

theorem accesses_iff_of_decoded {i : Instr} (decoded : Instr.decode? m.nextWord = some i) :
    m.Accesses a ↔ a ∈ addressesFrom m.pc 4 ++ m.accessed i := by
  rw [List.mem_append]
  constructor
  · rintro (⟨-, -, ha⟩ | ⟨-, -, decoded', ha⟩)
    · exact .inl ha
    · rw [decoded] at decoded'
      rw [← Option.some.inj decoded'] at ha
      exact .inr ha
  · rintro (ha | ha)
    · exact .fetched going here ha
    · exact .executed going here decoded ha

end Accesses

/-- **An attempt touches what it accesses.** -/
theorem touches_advance {m : Machine} (hm : m.Restorable) :
    m.advance.2.Restorable ∧ ∀ x, m.advance.2.memory.isTouched x = true ↔
      m.memory.isTouched x = true ∨ ∃ a, m.Accesses a ∧ pageOf a = pageOf x := by
  have hfetched : (m.touched m.pc 4).Restorable := stable_restorable.touched m.pc 4 hm
  have hfetch := Touches.touched m m.pc 4
  -- an attempt that fetches nothing leaves memory alone
  have hnothing (hidle : m.exitCode ≠ none ∨ ¬ m.AtCode) (x : Word) :
      m.memory.isTouched x = true ↔ m.memory.isTouched x = true ∨ ∃ a, m.Accesses a ∧ pageOf a = pageOf x := by
    refine (or_iff_left ?_).symm
    rintro ⟨a, ha, -⟩
    exact not_accesses hidle ha
  have hout := attempt_advance m
  generalize m.advance = out at hout ⊢
  cases hout with
  | exited done => exact ⟨hm, hnothing (.inl (by rw [done]; exact nofun))⟩
  | notLoaded going unloaded => exact ⟨hm, hnothing (.inr (not_atCode_of_unloaded unloaded))⟩
  | invalidFetch going outside => exact ⟨hm, hnothing (.inr fun here => outside here.1)⟩
  | pastCode going past => exact ⟨hm, hnothing (.inr past.not_atCode)⟩
  | illegal going here undecoded =>
      refine ⟨hfetched, fun x => ?_⟩
      simp only [accesses_iff_of_undecoded going here undecoded]
      exact hfetch x
  | @performed i going here decoded =>
      obtain ⟨hrestorable, hperform⟩ := touches_perform hfetched i
      rw [accessed_touched] at hperform
      refine ⟨hrestorable, fun x => ?_⟩
      simp only [accesses_iff_of_decoded going here decoded]
      exact hfetch.trans hperform x

/-! ## Debugging a program -/

/-- What is done with a program from when it was loaded: single steps, runs and steps back in any order, and
whatever the owner of the machine sets that is not memory. The list is that of the states in which instructions
were attempted. The states inside of a run count as well, because breakpoints are looked at after each attempt. -/
inductive Debugging (p : AssembledProgram) : Machine → List Machine → Prop
  | loaded (m : Machine) : Debugging p (m.load p) []
  | step {m : Machine} {past : List Machine} (h : Debugging p m past) :
      Debugging p m.step.2 (past ++ [m.beginStep])
  | simulate {m n : Machine} {past : List Machine} {limit : Option Count} {fuel : Nat} {o : Except Fault Bool}
      (h : Debugging p m past) (ran : m.simulate limit fuel = some (o, n)) :
      Debugging p n (past ++ attemptsWhile (limitTripwire limit m.executed) () m fuel)
  | attempt {m : Machine} {past : List Machine} (h : Debugging p m past) : Debugging p m.advance.2 (past ++ [m])
  | stepBack {m : Machine} {past : List Machine} (h : Debugging p m past) : Debugging p m.stepBack.2 past
  | edit {m n : Machine} {past : List Machine} (h : Debugging p m past) (he : m.EditOf n)
      (hmemory : n.memory = m.memory) : Debugging p n past

/-- The addresses that were touched since a program was loaded: those of its code and data, and those that the
attempts to execute instructions have accessed. -/
inductive Touched (p : AssembledProgram) (past : List Machine) : Word → Prop
  | code {c : CodeWord} (hc : c ∈ p.code) {a : Word} (ha : a ∈ addressesFrom c.address 4) : Touched p past a
  | data {d : DataBlock} (hd : d ∈ p.data) {a : Word} (ha : a ∈ addressesFrom d.address d.bytes.length) :
      Touched p past a
  | accessed {m : Machine} (hm : m ∈ past) {a : Word} (ha : m.Accesses a) : Touched p past a

/-- The pages of a machine are those of the addresses that were touched, and it can put back nothing else. -/
structure Paged (p : AssembledProgram) (past : List Machine) (m : Machine) : Prop where
  pages : ∀ x, m.memory.isTouched x = true ↔ ∃ a, Touched p past a ∧ pageOf a = pageOf x
  restorable : m.Restorable

/-- Loading a program is writing its code and then its data. -/
def loadOperations (p : AssembledProgram) : List Memory.Operation :=
  p.code.map (fun c => .write c.address ⟨4, .inr (.inr rfl)⟩ c.word) ++
    p.data.map fun d => .copy d.address d.bytes

theorem loadMemory_eq (memory : Memory) (p : AssembledProgram) :
    loadMemory memory p = memory.performAll (loadOperations p) := by
  rw [loadMemory, Memory.performAll, loadOperations, List.foldl_append, List.foldl_map, List.foldl_map]
  rfl

variable {p : AssembledProgram} {past : List Machine} {m n : Machine}

theorem paged_load (m : Machine) (p : AssembledProgram) : Paged p [] (m.load p) where
  pages x := by
    show (loadMemory (.filled m.options.fill) p).isTouched x = true ↔ _
    rw [loadMemory_eq, Memory.isTouched_performAll_iff, Memory.isTouched_filled, loadOperations]
    constructor
    · rintro (hnone | ⟨op, hop, a, ha, hpage⟩)
      · cases hnone
      · rcases List.mem_append.mp hop with hop | hop
        · obtain ⟨c, hc, rfl⟩ := List.mem_map.mp hop
          exact ⟨a, .code hc ha, hpage⟩
        · obtain ⟨d, hd, rfl⟩ := List.mem_map.mp hop
          exact ⟨a, .data hd ha, hpage⟩
    · rintro ⟨a, ⟨hc, ha⟩ | ⟨hd, ha⟩ | ⟨hm, -⟩, hpage⟩
      · exact .inr ⟨_, List.mem_append_left _ (List.mem_map_of_mem hc), a, ha, hpage⟩
      · exact .inr ⟨_, List.mem_append_right _ (List.mem_map_of_mem hd), a, ha, hpage⟩
      · cases hm
  restorable := by
    intro h hh
    unfold load at hh
    dsimp only at hh
    split at hh
    · cases hh
      exact History.names_empty _
    · cases hh

/-- What is touched stays so, and an attempt adds what it accesses. -/
theorem touched_append_iff (past : List Machine) (m : Machine) (a : Word) :
    Touched p (past ++ [m]) a ↔ Touched p past a ∨ m.Accesses a := by
  constructor
  · rintro (⟨hc, ha⟩ | ⟨hd, ha⟩ | ⟨hn, ha⟩)
    · exact .inl (.code hc ha)
    · exact .inl (.data hd ha)
    · rcases List.mem_append.mp hn with hn | hn
      · exact .inl (.accessed hn ha)
      · rw [List.mem_singleton.mp hn] at ha
        exact .inr ha
  · rintro ((⟨hc, ha⟩ | ⟨hd, ha⟩ | ⟨hn, ha⟩) | ha)
    · exact .code hc ha
    · exact .data hd ha
    · exact .accessed (List.mem_append_left _ hn) ha
    · exact .accessed (List.mem_append_right _ List.mem_cons_self) ha

namespace Paged

theorem advance (h : Paged p past m) : Paged p (past ++ [m]) m.advance.2 := by
  obtain ⟨hrestorable, hpages⟩ := touches_advance h.restorable
  refine ⟨fun x => ?_, hrestorable⟩
  rw [hpages x, h.pages x]
  simp only [touched_append_iff, or_and_right, exists_or]

theorem edit (h : Paged p past m) (hhistory : n.history = m.history) (hmemory : n.memory = m.memory) :
    Paged p past n where
  pages := by
    rw [hmemory]
    exact h.pages
  restorable := h.restorable.congr hhistory fun x hx => by rwa [hmemory]

theorem step (h : Paged p past m) : Paged p (past ++ [m.beginStep]) m.step.2 := by
  have hbegin : Paged p past m.beginStep := h.edit rfl rfl
  have hadvance := hbegin.advance
  unfold Machine.step
  split
  case h_1 hadv =>
    rw [hadv] at hadvance
    exact hadvance
  case h_2 hadv =>
    rw [hadv] at hadvance
    exact hadvance.edit rfl rfl
  case h_3 hadv =>
    rw [hadv] at hadvance
    exact hadvance

theorem simulate (h : Paged p past m) {limit : Option Count} {fuel : Nat} {o : Except Fault Bool}
    (ran : m.simulate limit fuel = some (o, n)) :
    Paged p (past ++ attemptsWhile (limitTripwire limit m.executed) () m fuel) n := by
  rw [simulate_eq, Option.map_eq_some_iff] at ran
  obtain ⟨r, ran, hr⟩ := ran
  obtain ⟨-, rfl⟩ := Prod.mk.inj hr
  have hbegin : Paged p past { m with running := true }.beginRun := h.edit rfl rfl
  exact runLoop_invariant (I := fun _ n past => Paged p past n) (fun _ _ _ h => h) (fun _ _ _ h => h.advance)
    (fun _ _ _ _ h => h.edit rfl rfl) hbegin ran

/-- A step back touches nothing new. -/
theorem stepBack (h : Paged p past m) : Paged p past m.stepBack.2 := by
  unfold Machine.stepBack
  split
  case h_1 => exact h
  case h_2 hist hh =>
    split
    case h_1 => exact h
    case h_2 u rest hpop =>
      obtain ⟨hu, hrest⟩ := (h.restorable hist hh).pop? hpop
      let n := { m with history := some rest }.beginStep
      have hundo : Touches n (n.undo u) [] := touches_undo hu
      have hpages (x : Word) : (n.undo u).memory.isTouched x = true ↔ m.memory.isTouched x = true :=
        (hundo x).trans (or_iff_left (by simp))
      refine ⟨fun x => (hpages x).trans (h.pages x), fun k hk => ?_⟩
      have hkeep : k = rest := Option.some.inj (hk.symm.trans (history_undo n u))
      rw [hkeep]
      exact hrest.mono fun a ha => ⟨ha.1, (hpages a).mpr ha.2⟩

end Paged

/-- **The pages tell what was touched.** -/
theorem Debugging.paged (h : Debugging p m past) : Paged p past m := by
  induction h with
  | loaded m => exact paged_load m p
  | step _ ih => exact ih.step
  | simulate _ ran ih => exact ih.simulate ran
  | attempt _ ih => exact ih.advance
  | stepBack _ ih => exact ih.stepBack
  | edit _ he hmemory ih => exact ih.edit he.history hmemory

/-- **A breakpoint on a memory word holds if its condition holds of the word and some byte in the page of the word
was touched.** The word itself need not have been touched. -/
theorem check_memory_iff (h : Debugging p m past) (address : Word) (condition : Comparator) :
    (Breakpoint.memory address condition).check m.pc m.registers m.memory = true ↔
      condition.check (Image.word m.memory.image (Word.wordAligned address)) = true ∧
        ∃ a, Touched p past a ∧ pageOf a = pageOf address := by
  rw [← h.paged.pages address]
  show (m.memory.peek? address).any (fun value => condition.check value) = true ↔ _
  by_cases ha : m.memory.isTouched address = true
  · rw [Memory.peek?_of_isTouched _ _ ha]
    exact (and_iff_left ha).symm
  · rw [Memory.peek?_of_not_isTouched _ _ ha]
    exact iff_of_false Bool.false_ne_true fun h => ha h.2

/-- A breakpoint on a word that no one has touched holds at once: after the only instruction of a program was
executed, all that was touched are the four bytes of this instruction, in the page of the word. -/
theorem check_memory_untouched :
    ∃ p past m, assembled? "nop" = some p ∧ Debugging p m past ∧ past ≠ [] ∧
      (∀ a, Touched p past a → Word.wordAligned a ≠ 0x00400800) ∧
        (Breakpoint.memory 0x00400800 (.eq 0)).check m.pc m.registers m.memory = true := by
  have hrun : (assembled? "nop").map (fun p =>
      let m := (Machine.initial {}).load p
      (p.code.map (·.address), p.data.length, m.pc, Instr.decode? m.nextWord,
        Image.word m.step.2.memory.image 0x00400800)) =
      some ([0x00400000], 0, 0x00400000, some (.shift .sll .zero .zero 0), 0) := by decide +kernel
  obtain ⟨p, hp, hrun⟩ := Option.map_eq_some_iff.mp hrun
  simp only [Prod.mk.injEq] at hrun
  obtain ⟨hcode, hdata, hpc, hdecode, hword⟩ := hrun
  have hm : Debugging p ((Machine.initial {}).load p).step.2 [((Machine.initial {}).load p).beginStep] :=
    .step (.loaded _)
  generalize (Machine.initial {}).load p = m at hm hpc hdecode hword
  obtain ⟨c, hc, haddress⟩ := List.map_eq_singleton_iff.mp hcode
  have hfirst (a : Word) (ha : a ∈ addressesFrom 0x00400000 4) : Word.wordAligned a ≠ 0x00400800 := by
    rw [Word.wordAligned_of_sub_lt (.inr (.inr rfl)) (by decide) (sub_lt_of_mem_addressesFrom ha)]
    decide
  have huntouched : ∀ a, Touched p [m.beginStep] a → Word.wordAligned a ≠ 0x00400800 := by
    intro a ha
    cases ha with
    | code hd ha =>
        rw [hc] at hd
        rw [List.mem_singleton.mp hd, haddress] at ha
        exact hfirst a ha
    | data hd _ =>
        rw [List.length_eq_zero_iff.mp hdata] at hd
        cases hd
    | accessed hk ha =>
        rw [List.mem_singleton.mp hk] at ha
        cases ha with
        | fetched _ _ ha =>
            have hbegin : m.beginStep.pc = 0x00400000 := hpc
            rw [hbegin] at ha
            exact hfirst a ha
        | executed _ _ decoded ha =>
            have hbegin : m.beginStep.nextWord = m.nextWord := rfl
            rw [hbegin, hdecode] at decoded
            cases decoded
            cases ha
  have htouched : Touched p [m.beginStep] 0x00400000 := by
    refine .code (hc ▸ List.mem_cons_self) ?_
    rw [haddress]
    exact List.mem_cons_self
  refine ⟨p, _, _, hp, hm, List.cons_ne_nil _ _, huntouched, (check_memory_iff hm _ _).mpr ⟨?_, _, htouched, ?_⟩⟩
  · have haligned : Word.wordAligned 0x00400800 = 0x00400800 := by decide
    rw [haligned, hword]
    rfl
  · decide

end Machine

end MipsLab
