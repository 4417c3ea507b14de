import MipsLab.Proofs.RoundTrip
import MipsLab.Proofs.TidyRecords

set_option autoImplicit false

/-!
# The history between operations

An attempt to execute an instruction leaves the history as it was or puts one record in front
(`history_advance`). So a history has as many records as it says (`History.Counted`), no more than its
limit allows and, as long as the number of instructions executed does not come round to zero, no more than
that number. This holds whatever a machine goes through, also what the tripwires of its runs do to it
(`Operates.orderly`), and so a machine can be stepped back exactly as often as its history says
(`history_of_operates`).
-/

namespace MipsLab

/-! ## Sizes -/

namespace History

/-- The history has as many records as it says, and no more than the limit. -/
structure Counted (h : History) : Prop where
  stored : h.storedSize = h.stored.length
  size_le : h.size ≤ h.stored.length
  within : h.size ≤ h.limit

variable {h : History}

theorem counted_empty (limit : Nat) : (empty limit).Counted := ⟨rfl, Nat.le_refl 0, Nat.zero_le limit⟩

theorem Counted.length_records (hh : h.Counted) : h.records.length = h.size := by
  rw [records, List.length_take]
  exact Nat.min_eq_left hh.size_le

theorem Counted.push (hh : h.Counted) (u : UndoRecord) : (h.push u).Counted := by
  obtain ⟨hstored, hsize, hwithin⟩ := hh
  unfold History.push
  split
  · -- what is dropped has passed the limit, and the size is at most the limit
    refine ⟨rfl, ?_, Nat.min_le_right _ _⟩
    show min (h.size + 1) h.limit ≤ (u :: h.stored.take h.limit).length
    rw [List.length_cons, List.length_take]
    omega
  · refine ⟨congrArg (· + 1) hstored, ?_, Nat.min_le_right _ _⟩
    exact Nat.le_trans (Nat.min_le_left _ _) (Nat.succ_le_succ hsize)

theorem size_push_le (h : History) (u : UndoRecord) : (h.push u).size ≤ h.size + 1 := by
  unfold push
  split <;> exact Nat.min_le_left _ _

/-- Keeping the record that is open puts it in front and leaves none open. -/
theorem commit_open (idle : h.current = none) (u : UndoRecord) :
    ({ h with current := some u } : History).commit = h.push u := by
  obtain ⟨limit, size, stored, storedSize, current⟩ := h
  obtain rfl : current = none := idle
  unfold commit push
  dsimp only
  split <;> rfl

theorem Counted.pop? (hh : h.Counted) {u : UndoRecord} {rest : History} (hpop : h.pop? = some (u, rest)) :
    rest.Counted ∧ rest.limit = h.limit ∧ rest.size + 1 = h.size := by
  obtain ⟨hstored, hsize, hwithin⟩ := hh
  unfold History.pop? at hpop
  split at hpop
  case h_1 n v vs hn hvs =>
    cases hpop
    rw [hvs, List.length_cons] at hstored hsize
    rw [hn] at hsize hwithin
    refine ⟨⟨?_, Nat.le_of_succ_le_succ hsize, Nat.le_of_succ_le hwithin⟩, rfl, hn.symm⟩
    show h.storedSize - 1 = vs.length
    omega
  case h_2 => cases hpop

end History

namespace Machine

/-! ## What an attempt does to the history -/

/-- `n` has the history of `m`, but for a record that is open, and the program and options of `m`. -/
structure Opened (m n : Machine) : Prop where
  history : ∃ u, n.history = m.history.map fun h => { h with current := some u }
  executed : n.executed = m.executed
  setup : (n.code, n.options) = (m.code, m.options)

/-- Executions change no more of the history than the open record. -/
theorem stable_opened (m : Machine) : Stable (Opened m) where
  observed := fun _ _ h => ⟨h.history, h.executed, h.setup⟩
  putRegister := by
    intro n r value _ h
    obtain ⟨u, hu⟩ := h.history
    refine ⟨⟨u.addRegister r (n.registers.read r), ?_⟩, h.executed, h.setup⟩
    rw [putRegister, hu, Option.map_map]
    rfl
  touched := fun _ _ h => ⟨h.history, h.executed, h.setup⟩
  putMemory := by
    intro n a width value _ _ h
    obtain ⟨u, hu⟩ := h.history
    let base := Word.wordAligned a
    refine ⟨⟨u.addMemory base (Image.word n.memory.image base), ?_⟩, h.executed, h.setup⟩
    rw [putMemory, hu, Option.map_map]
    rfl
  withConsole := fun _ _ h => ⟨h.history, h.executed, h.setup⟩

theorem opened_started (m : Machine) : Opened m m.started := ⟨⟨⟨m.pc, [], []⟩, rfl⟩, rfl, rfl⟩

theorem setup_rollBack (m : Machine) : (m.rollBack.code, m.rollBack.options) = (m.code, m.options) := by
  unfold rollBack
  split
  · rfl
  · split
    · obtain ⟨_, _, _, _, hundo⟩ := (undo_spec _ _).1
      rw [hundo]
    · rfl

theorem setup_perform (m : Machine) (i : Instr) :
    ((m.perform i).2.code, (m.perform i).2.options) = (m.code, m.options) := by
  have hopened := (stable_opened m).execute m.pc i m.started (opened_started m)
  have hout := performed_perform m i
  generalize m.perform i = out at hout ⊢
  cases hout with
  | next ran =>
      rw [ran] at hopened
      exact hopened.setup
  | exit ran =>
      rw [ran] at hopened
      exact hopened.setup
  | fault ran =>
      rw [ran] at hopened
      exact (setup_rollBack _).trans hopened.setup

/-- Attempts leave the program and the options alone. -/
theorem setup_advance (m : Machine) : m.advance.2.code = m.code ∧ m.advance.2.options = m.options := by
  rw [← Prod.mk.injEq]
  have hout := attempt_advance m
  generalize m.advance = out at hout ⊢
  cases hout with
  | performed => exact setup_perform (m.touched m.pc 4) _
  | _ => rfl

/-- The history is as before and nothing was executed, or one record more is in front and one
instruction more was executed. -/
def Notes (m n : Machine) : Prop :=
  n.history = m.history ∧ n.executed = m.executed ∨
    ∃ u, n.history = m.history.map (·.push u) ∧ n.executed = m.executed + 1

theorem Opened.notes_commit {m n : Machine} (idle : m.Idle) (h : Opened m n) (pc : Word)
    (exitCode : Option Int) : Notes m { n with pc, exitCode }.commit := by
  obtain ⟨u, hu⟩ := h.history
  refine .inr ⟨u, ?_, congrArg (· + 1) h.executed⟩
  show n.history.map (·.commit) = _
  rw [hu, Option.map_map]
  cases hm : m.history with
  | none => rfl
  | some k => exact congrArg some (History.commit_open (idle k hm) u)

theorem notes_perform {m : Machine} (idle : m.Idle) (i : Instr) : Notes m (m.perform i).2 := by
  have hopened := (stable_opened m).execute m.pc i m.started (opened_started m)
  have hout := performed_perform m i
  generalize hperform : m.perform i = out at hout ⊢
  cases hout with
  | @next pc n ran =>
      rw [ran] at hopened
      exact hopened.notes_commit idle pc n.exitCode
  | exit ran =>
      rw [ran] at hopened
      exact hopened.notes_commit idle _ _
  | fault =>
      have hquiet := quiet_perform idle hperform
      exact .inl ⟨hquiet.history, hquiet.executed⟩

/-- **An attempt leaves the history as it was or puts one record in front.** -/
theorem history_advance {m : Machine} (idle : m.Idle) : Notes m m.advance.2 := by
  have hout := attempt_advance m
  generalize m.advance = out at hout ⊢
  cases hout with
  | performed => exact notes_perform (m := m.touched m.pc 4) idle _
  | _ => exact .inl ⟨rfl, rfl⟩

/-! ## Operations -/

/-- The number of instructions executed does not come round to zero with the next attempt. -/
def CountsOn (m : Machine) : Prop := m.executed ≤ m.advance.2.executed

instance (m : Machine) : Decidable m.CountsOn := inferInstanceAs (Decidable (_ ≤ _))

/-- What the tripwire of a run is asked, in order. -/
def asks {σ : Type} (tripwire : Tripwire σ) (s : σ) (m : Machine) : Nat → List (σ × Machine)
  | 0 => []
  | fuel + 1 =>
    if !m.running then []
    else
      (s, m) ::
        match tripwire s m with
        | (false, _, _) => []
        | (true, s, m) =>
          match m.advance with
          | (.ok (), n) => if n.meetsBreakpoint then [] else asks tripwire s n fuel
          | (.error _, _) => []

/-- What the tripwire of `runWhile` is asked. -/
def asksWhile {σ : Type} (tripwire : Tripwire σ) (s : σ) (m : Machine) (fuel : Nat) :
    List (σ × Machine) :=
  asks tripwire s { m with running := true }.beginRun fuel

/-- `n` is a state that some operations lead to from `m`, with the number of instructions executed not
coming round to zero on the way. The tripwire of a run may itself carry out operations whenever it is
asked. On the side the owner may change the console, the breakpoints and whether a run goes on. -/
inductive Operates : Machine → Machine → Prop
  | refl (m : Machine) : Operates m m
  | load {m n : Machine} (h : Operates m n) (p : AssembledProgram) : Operates m (n.load p)
  | step {m n : Machine} (h : Operates m n) (counts : n.beginStep.CountsOn) : Operates m n.step.2
  | stepBack {m n : Machine} (h : Operates m n) : Operates m n.stepBack.2
  | simulate {m n k : Machine} {limit : Option Count} {fuel : Nat} {outcome : Except Fault Bool}
      (h : Operates m n)
      (counts : ∀ l ∈ attemptsWhile (limitTripwire limit n.executed) () n fuel, l.CountsOn)
      (ran : n.simulate limit fuel = some (outcome, k)) : Operates m k
  | runWhile {m n : Machine} {σ : Type} {tripwire : Tripwire σ} {s : σ} {fuel : Nat} {r : RunResult σ}
      (h : Operates m n)
      (inner : ∀ q ∈ asksWhile tripwire s n fuel, Operates q.2 (tripwire q.1 q.2).2.2)
      (counts : ∀ l ∈ attemptsWhile tripwire s n fuel, l.CountsOn)
      (ran : n.runWhile tripwire s fuel = some r) : Operates m r.machine
  | aside {m n k : Machine} (h : Operates m n) (same : SameState n k) (options : k.options = n.options) :
      Operates m k

/-- A machine with these options is as it should be between operations. -/
structure Orderly (options : MachineOptions) (m : Machine) : Prop where
  setup : m.options = options
  zero : m.registers.get .zero = 0
  /-- There is a history once a program was loaded, if the options ask for one. -/
  kept : m.history.isSome = (m.code.isSome && options.keepsHistory)
  idle : m.Idle
  tidy : m.Tidy
  counted : ∀ h, m.history = some h →
    h.Counted ∧ h.limit = options.historyLimit ∧ h.size ≤ m.executed.toNat

namespace Orderly

variable {options : MachineOptions} {m n : Machine}

theorem initial (options : MachineOptions) : Orderly options (.initial options) where
  setup := rfl
  zero := get_zero_initialRegisters _ _
  kept := rfl
  idle := nofun
  tidy := nofun
  counted := nofun

theorem load (hm : Orderly options m) (p : AssembledProgram) : Orderly options (m.load p) := by
  obtain ⟨rfl, -, -, -, -, -⟩ := hm
  have hhistory : (m.load p).history =
      if m.options.keepsHistory then some (.empty m.options.historyLimit) else none := rfl
  refine ⟨rfl, get_zero_initialRegisters _ _, ?_, fun h hh => ?_, tidy_load m p, fun h hh => ?_⟩
  · rw [hhistory]
    show _ = m.options.keepsHistory
    cases m.options.keepsHistory <;> rfl
  all_goals
    rw [hhistory] at hh
    split at hh <;> cases hh
  · rfl
  · exact ⟨History.counted_empty _, rfl, Nat.zero_le _⟩

theorem of_sameState (hm : Orderly options m) (same : SameState m n) (kept : n.options = m.options) :
    Orderly options n where
  setup := kept.trans hm.setup
  zero := by rw [same.registers, hm.zero]
  kept := by rw [same.history, same.code, hm.kept]
  idle := fun h hh => hm.idle h (same.history ▸ hh)
  tidy := fun h hh => hm.tidy h (same.history ▸ hh)
  counted := by rw [same.history, same.executed]; exact hm.counted

theorem counted_of_notes (hm : Orderly options m) (notes : Notes m n) (counts : m.executed ≤ n.executed) :
    ∀ h, n.history = some h →
      h.Counted ∧ h.limit = options.historyLimit ∧ h.size ≤ n.executed.toNat := by
  intro h hh
  rcases notes with ⟨hhistory, hexecuted⟩ | ⟨u, hhistory, hexecuted⟩
  · rw [hexecuted]
    exact hm.counted h (hhistory ▸ hh)
  · rw [hhistory] at hh
    obtain ⟨k, hk, rfl⟩ := Option.map_eq_some_iff.mp hh
    obtain ⟨hcounted, hlimit, hsize⟩ := hm.counted k hk
    refine ⟨hcounted.push u, (History.limit_push k u).trans hlimit, ?_⟩
    have hsucc : n.executed.toNat = m.executed.toNat + 1 := by bv_omega
    rw [hsucc]
    exact Nat.le_trans (k.size_push_le u) (Nat.succ_le_succ hsize)

theorem advance (hm : Orderly options m) (counts : m.CountsOn) : Orderly options m.advance.2 where
  setup := (setup_advance m).2.trans hm.setup
  zero := (get_zero_advance m).trans hm.zero
  kept := by
    rw [(setup_advance m).1, ← hm.kept]
    rcases history_advance hm.idle with ⟨hhistory, -⟩ | ⟨u, hhistory, -⟩
    · rw [hhistory]
    · rw [hhistory, Option.isSome_map]
  idle := idle_advance hm.idle
  tidy := hm.tidy.advance
  counted := hm.counted_of_notes (history_advance hm.idle) counts

theorem step (hm : Orderly options m) (counts : m.beginStep.CountsOn) : Orderly options m.step.2 := by
  have hbegin : SameState m m.beginStep := ⟨rfl, rfl, rfl, rfl, rfl, rfl, rfl, rfl⟩
  have hadvance := (hm.of_sameState hbegin rfl).advance counts
  unfold Machine.step
  split
  case h_1 hadv => rwa [hadv] at hadvance
  case h_2 n hadv =>
    rw [hadv] at hadvance
    have hend : SameState n { n with pause := .completed } := ⟨rfl, rfl, rfl, rfl, rfl, rfl, rfl, rfl⟩
    exact hadvance.of_sameState hend rfl
  case h_3 hadv => rwa [hadv] at hadvance

theorem stepBack (hm : Orderly options m) : Orderly options m.stepBack.2 := by
  have hidle := idle_stepBack hm.idle
  have htidy := hm.tidy.stepBack
  unfold Machine.stepBack at hidle htidy ⊢
  split
  case h_1 => exact hm
  case h_2 hist hh =>
    rw [hh] at hidle htidy
    dsimp only at hidle htidy
    split
    case h_1 => exact hm
    case h_2 u rest hpop =>
      rw [hpop] at hidle htidy
      obtain ⟨hcounted, hlimit, hsize⟩ := hm.counted hist hh
      obtain ⟨hrest, hlimit', hsize'⟩ := hcounted.pop? hpop
      -- undoing puts registers and memory back and leaves everything else alone
      let popped := { m with history := some rest }.beginStep
      obtain ⟨_, _, _, _, hundo⟩ := (undo_spec popped u).1
      have hhistory : (popped.undo u).history = some rest := history_undo popped u
      refine ⟨?_, (get_zero_undo popped u).trans hm.zero, ?_, hidle, htidy, fun k hk => ?_⟩
      · show (popped.undo u).options = options
        rw [hundo]
        exact hm.setup
      · show (popped.undo u).history.isSome = ((popped.undo u).code.isSome && options.keepsHistory)
        rw [hhistory, hundo]
        show true = (m.code.isSome && options.keepsHistory)
        rw [← hm.kept, hh]
        rfl
      · obtain rfl : rest = k := Option.some.inj (hhistory.symm.trans hk)
        refine ⟨hrest, hlimit'.trans hlimit, ?_⟩
        show rest.size ≤ (popped.undo u).executed.pred.toNat
        rw [executed_undo, Count.toNat_pred]
        show rest.size ≤ m.executed.toNat - 1
        omega

/-- A run keeps a machine orderly if its tripwire does so whenever it is asked. -/
theorem runLoop {σ : Type} {tripwire : Tripwire σ} {s : σ} {fuel : Nat} {r : RunResult σ}
    (hm : Orderly options m)
    (inner : ∀ q ∈ asks tripwire s m fuel, Orderly options q.2 → Orderly options (tripwire q.1 q.2).2.2)
    (counts : ∀ l ∈ attempts tripwire s m fuel, l.CountsOn)
    (ran : m.runLoop tripwire s fuel = some r) : Orderly options r.machine := by
  have hstop {n : Machine} (hn : Orderly options n) (pause : Pause) :
      Orderly options { n with running := false, pause } :=
    hn.of_sameState ⟨rfl, rfl, rfl, rfl, rfl, rfl, rfl, rfl⟩ rfl
  induction fuel generalizing s m with
  | zero => cases ran
  | succ fuel ih =>
      unfold Machine.runLoop at ran
      unfold asks at inner
      unfold attempts at counts
      cases hrunning : m.running with
      | false =>
          rw [hrunning] at ran
          cases ran
          exact hstop hm .stopped
      | true =>
          simp only [hrunning, Bool.not_true, Bool.false_eq_true, if_false] at ran inner counts
          have hasked := inner _ List.mem_cons_self hm
          rcases trip : tripwire s m with ⟨_ | _, t, n⟩
          · rw [trip] at ran hasked
            cases ran
            exact hstop hasked .tripwire
          · simp only [trip] at ran inner counts hasked
            have hadvance := hasked.advance (counts n List.mem_cons_self)
            rcases adv : n.advance with ⟨(code | cause) | ⟨⟩, k⟩
            · rw [adv] at ran hadvance
              cases ran
              exact hstop hadvance .completed
            · rw [adv] at ran hadvance
              cases ran
              exact hstop hadvance k.pause
            · simp only [adv] at ran inner counts hadvance
              cases hbreak : k.meetsBreakpoint with
              | true =>
                  rw [hbreak] at ran
                  cases ran
                  exact hstop hadvance .breakpoint
              | false =>
                  rw [hbreak] at ran inner counts
                  exact ih hadvance (fun q hq => inner q (List.mem_cons_of_mem _ hq))
                    (fun l hl => counts l (List.mem_cons_of_mem _ hl)) ran

theorem runWhile {σ : Type} {tripwire : Tripwire σ} {s : σ} {fuel : Nat} {r : RunResult σ}
    (hm : Orderly options m)
    (inner : ∀ q ∈ asksWhile tripwire s m fuel,
      Orderly options q.2 → Orderly options (tripwire q.1 q.2).2.2)
    (counts : ∀ l ∈ attemptsWhile tripwire s m fuel, l.CountsOn)
    (ran : m.runWhile tripwire s fuel = some r) : Orderly options r.machine := by
  have hbegin : SameState m { m with running := true }.beginRun := ⟨rfl, rfl, rfl, rfl, rfl, rfl, rfl, rfl⟩
  exact (hm.of_sameState hbegin rfl).runLoop inner counts ran

theorem simulate {limit : Option Count} {fuel : Nat} {outcome : Except Fault Bool} (hm : Orderly options m)
    (counts : ∀ l ∈ attemptsWhile (limitTripwire limit m.executed) () m fuel, l.CountsOn)
    (ran : m.simulate limit fuel = some (outcome, n)) : Orderly options n := by
  rw [simulate_eq, Option.map_eq_some_iff] at ran
  obtain ⟨r, ran, hr⟩ := ran
  obtain ⟨-, rfl⟩ := Prod.mk.inj hr
  exact hm.runWhile (fun _ _ h => h) counts ran

end Orderly

/-- **Operations keep a machine orderly.** -/
theorem Operates.orderly {m n : Machine} (h : Operates m n) {options : MachineOptions}
    (hm : Orderly options m) : Orderly options n := by
  induction h with
  | refl => exact hm
  | load _ p ih => exact (ih hm).load p
  | step _ counts ih => exact (ih hm).step counts
  | stepBack _ ih => exact (ih hm).stepBack
  | simulate _ counts ran ih => exact (ih hm).simulate counts ran
  | runWhile _ _ counts ran ih inner => exact (ih hm).runWhile inner counts ran
  | aside _ same kept ih => exact (ih hm).of_sameState same kept

/-! ## Stepping back as often as possible -/

/-- There are as many steps back as records, and the next one finds nothing. -/
theorem stepsBack_to_end {limit : Nat} {us : List UndoRecord} {m : Machine} (hm : m.HasRecords limit us) :
    (stepsBack (us.length + 1) m).1 = us.map (fun u => .undone u.pc) ++ [.nothing] := by
  induction us generalizing m with
  | nil =>
      obtain ⟨h, hh, -, hrecords, -⟩ := hm
      show [m.stepBack.1] = [.nothing]
      unfold stepBack
      rw [hh]
      dsimp only
      rw [History.pop?_of_records_eq_nil hrecords]
  | cons u us ih =>
      obtain ⟨n, hn, hrecords, -⟩ := stepBack_of_hasRecords hm
      rw [List.length_cons, stepsBack, hn]
      exact congrArg (StepBack.undone u.pc :: ·) (ih hrecords)

/-- **The history between operations.** Take a machine with some options and whatever operations it goes
through: programs that are loaded, steps, runs with and without a tripwire of their own, steps back, as long
as the number of instructions executed stays below 2 ^ 64. Then `$zero` holds zero, and the machine keeps a
history exactly if a program was loaded and the options ask for one. In such a history no record is open,
there are no more records than the limit allows and no more than instructions were executed, and each of them
names every register and every memory word at most once, words by their aligned addresses and `$zero` never.
And it takes exactly as many steps back as the history says, through its records one after the other, until
one finds nothing to undo. -/
theorem history_of_operates {options : MachineOptions} {m : Machine} (h : Operates (.initial options) m) :
    m.registers.get .zero = 0 ∧ m.history.isSome = (m.code.isSome && options.keepsHistory) ∧
    ∀ hist, m.history = some hist →
      hist.limit = options.historyLimit ∧ hist.current = none ∧ hist.records.length = hist.size ∧
      hist.size ≤ min options.historyLimit m.executed.toNat ∧ (∀ u ∈ hist.records, u.Tidy) ∧
      (stepsBack (hist.size + 1) m).1 = hist.records.map (fun u => .undone u.pc) ++ [.nothing] := by
  have orderly := h.orderly (.initial options)
  refine ⟨orderly.zero, orderly.kept, fun hist hh => ?_⟩
  obtain ⟨counted, limit, size⟩ := orderly.counted hist hh
  have idle := orderly.idle hist hh
  refine ⟨limit, idle, counted.length_records, Nat.le_min.mpr ⟨limit ▸ counted.within, size⟩, ?_, ?_⟩
  · exact fun u hu => (orderly.tidy hist hh).stored u (List.mem_of_mem_take hu)
  · rw [← counted.length_records]
    exact stepsBack_to_end ⟨hist, hh, rfl, rfl, idle⟩

/-- The tripwire that steps back once, when two instructions were executed. -/
def backOnce : Tripwire Bool := fun done m =>
  if !done && m.executed == 2 then (true, true, m.stepBack.2) else (true, done, m)

/-- A run of four instructions, one of which is undone and executed again on the way, in a history with
room for two. -/
theorem history_of_operates_backOnce :
    let m := (Machine.initial { historyLimit := 2 }).load selfModifying
    ∃ r hist, runWhile backOnce false m 6 = some r ∧ r.machine.history = some hist ∧
      r.machine.executed = 4 ∧ hist.size = 2 ∧ (∀ u ∈ hist.records, u.Tidy) ∧
      (stepsBack 3 r.machine).1 = [.undone 0x0040000C, .undone 0x00400008, .nothing] := by
  intro m
  have hran : (runWhile backOnce false m 6).map (fun r =>
      (r.machine.history.map fun h => (h.size, h.records.map (·.pc)), r.machine.executed)) =
      some (some (2, [0x0040000C, 0x00400008]), 4) := by decide +kernel
  obtain ⟨r, ran, hr⟩ := Option.map_eq_some_iff.mp hran
  obtain ⟨hhistory, hexecuted⟩ := Prod.mk.inj hr
  obtain ⟨hist, hh, hhist⟩ := Option.map_eq_some_iff.mp hhistory
  obtain ⟨hsize, hpcs⟩ := Prod.mk.inj hhist
  have inner : ∀ q ∈ asksWhile backOnce false m 6, Operates q.2 (backOnce q.1 q.2).2.2 := by
    intro q _
    unfold backOnce
    split
    · exact .stepBack (.refl q.2)
    · exact .refl q.2
  have counts : ∀ l ∈ attemptsWhile backOnce false m 6, l.CountsOn := by decide +kernel
  have operates : Operates (.initial { historyLimit := 2 }) r.machine :=
    .runWhile (.load (.refl _) selfModifying) inner counts ran
  obtain ⟨-, -, hhold⟩ := history_of_operates operates
  obtain ⟨-, -, -, -, htidy, hback⟩ := hhold hist hh
  refine ⟨r, hist, ran, hh, hexecuted, hsize, htidy, ?_⟩
  rw [hsize] at hback
  rw [hback, show (fun u : UndoRecord => StepBack.undone u.pc) = StepBack.undone ∘ (·.pc) from rfl,
    ← List.map_map, hpcs]
  rfl

end Machine

end MipsLab
