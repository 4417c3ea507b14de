import MipsLab.Proofs.FaultAtomicity
import MipsLab.Proofs.Lockstep

set_option autoImplicit false

/-!
# Attempts of machines that are alike

What an attempt to execute an instruction leaves alone whatever comes of it, how many instructions it
counts, and that it does the same to machines that differ only in what they note about themselves:
what was observed, whether the last thing done was a single step, and why they paused (`Alike`).
-/

namespace MipsLab.Machine

/-! ## What an attempt leaves alone -/

/-- The machines have the same options, breakpoints and program, and the same notes on what was done
last. -/
def SameSetup (m n : Machine) : Prop :=
  ∃ memory registers pc executed exitCode observer history running console,
    n = { m with memory, registers, pc, executed, exitCode, observer, history, running, console }

theorem SameSetup.refl (m : Machine) : SameSetup m m := ⟨_, _, _, _, _, _, _, _, _, rfl⟩

theorem SameSetup.trans {m n k : Machine} (hmn : SameSetup m n) (hnk : SameSetup n k) :
    SameSetup m k := by
  obtain ⟨_, _, _, _, _, _, _, _, _, rfl⟩ := hmn
  obtain ⟨_, _, _, _, _, _, _, _, _, rfl⟩ := hnk
  exact ⟨_, _, _, _, _, _, _, _, _, rfl⟩

theorem SameButSnapshot.sameSetup {m n : Machine} (h : m.SameButSnapshot n) : SameSetup m n := by
  obtain ⟨registers, memory, observer, pc, rfl⟩ := h
  exact ⟨memory, registers, pc, _, _, observer, _, _, _, rfl⟩

theorem stable_sameSetup (m : Machine) : Stable (SameSetup m) where
  observed := fun _ _ h => h.trans ⟨_, _, _, _, _, _, _, _, _, rfl⟩
  putRegister := fun _ _ _ h => h.trans ⟨_, _, _, _, _, _, _, _, _, rfl⟩
  touched := fun _ _ h => h.trans ⟨_, _, _, _, _, _, _, _, _, rfl⟩
  putMemory := fun _ _ _ _ _ h => h.trans ⟨_, _, _, _, _, _, _, _, _, rfl⟩
  withConsole := fun _ _ h => h.trans ⟨_, _, _, _, _, _, _, _, _, rfl⟩

theorem sameSetup_rollBack (m : Machine) : SameSetup m m.rollBack := by
  unfold rollBack
  split
  · exact .refl m
  case h_2 h _ =>
    have hhistory : ∀ h, SameSetup m { m with history := some h } :=
      fun h => ⟨_, _, _, _, _, _, some h, _, _, rfl⟩
    split
    · exact (hhistory _).trans (undo_spec _ _).1.sameSetup
    · exact hhistory _

theorem sameSetup_perform (m : Machine) (i : Instr) : SameSetup m (m.perform i).2 := by
  have hstarted : SameSetup m m.started := ⟨_, _, _, _, _, _, _, _, _, rfl⟩
  have h := (stable_sameSetup m).execute m.pc i m.started hstarted
  have hout := performed_perform m i
  generalize m.perform i = out at hout ⊢
  cases hout with
  | next ran =>
      rw [ran] at h
      exact h.trans ⟨_, _, _, _, _, _, _, _, _, rfl⟩
  | exit ran =>
      rw [ran] at h
      exact h.trans ⟨_, _, _, _, _, _, _, _, _, rfl⟩
  | fault ran =>
      rw [ran] at h
      exact h.trans (sameSetup_rollBack _)

theorem sameSetup_advance (m : Machine) : SameSetup m m.advance.2 := by
  have hout := attempt_advance m
  generalize m.advance = out at hout ⊢
  cases hout with
  | exited => exact .refl m
  | notLoaded => exact .refl m
  | invalidFetch => exact .refl m
  | pastCode => exact ⟨_, _, _, _, some 0, _, _, _, _, rfl⟩
  | illegal => exact ⟨_, _, _, _, _, _, _, _, _, rfl⟩
  | performed =>
      have htouched : SameSetup m (m.touched m.pc 4) := ⟨_, _, _, _, _, _, _, _, _, rfl⟩
      exact htouched.trans (sameSetup_perform _ _)

/-- A step leaves the options and the breakpoints alone. -/
theorem setup_step (m : Machine) : m.step.2.options = m.options ∧ m.step.2.breakpoints = m.breakpoints := by
  obtain ⟨_, _, _, _, _, _, _, _, _, h⟩ := sameSetup_advance m.beginStep
  have hsetup : m.beginStep.advance.2.options = m.options ∧
      m.beginStep.advance.2.breakpoints = m.breakpoints := by
    rw [h]
    exact ⟨rfl, rfl⟩
  unfold step
  split
  case h_1 hadv => rwa [hadv] at hsetup
  case h_2 hadv => rwa [hadv] at hsetup
  case h_3 hadv => rwa [hadv] at hsetup

theorem pause_advance (m : Machine) : m.advance.2.pause = m.pause := by
  obtain ⟨_, _, _, _, _, _, _, _, _, h⟩ := sameSetup_advance m
  rw [h]

/-! ## Counting instructions -/

theorem stable_executed (n : Count) : Stable fun m => m.executed = n where
  observed := fun _ _ h => h
  putRegister := fun _ _ _ h => h
  touched := fun _ _ h => h
  putMemory := fun _ _ _ _ _ h => h
  withConsole := fun _ _ h => h

theorem executed_rollBack (m : Machine) : m.rollBack.executed = m.executed := by
  unfold rollBack
  split
  · rfl
  · split
    · rw [executed_undo]
    · rfl

/-- How many instructions an attempt counts. A system call that ends the program counts as well. -/
def Counts (result : Except Halt Unit) (before after : Count) : Prop :=
  match result with
  | .ok () => after = before + 1
  | .error (.exit _) => after = before ∨ after = before + 1
  | .error (.fault _) => after = before

theorem counts_perform (m : Machine) (i : Instr) :
    Counts (m.perform i).1 m.executed (m.perform i).2.executed := by
  have h := (stable_executed m.executed).execute m.pc i m.started rfl
  have hout := performed_perform m i
  generalize m.perform i = out at hout ⊢
  cases hout with
  | next ran =>
      rw [ran] at h
      exact congrArg (· + 1) h
  | exit ran =>
      rw [ran] at h
      exact .inr (congrArg (· + 1) h)
  | fault ran =>
      rw [ran] at h
      exact (executed_rollBack _).trans h

theorem counts_advance (m : Machine) : Counts m.advance.1 m.executed m.advance.2.executed := by
  have hout := attempt_advance m
  generalize m.advance = out at hout ⊢
  cases hout with
  | exited => exact .inl rfl
  | notLoaded => rfl
  | invalidFetch => rfl
  | pastCode => exact .inl rfl
  | illegal => rfl
  | performed => exact counts_perform (m.touched m.pc 4) _

/-! ## Machines that differ in what they note -/

/-- The end of an attempt: what becomes of the result of an execution that began at `pc`. -/
def concluded (pc : Word) : Except Halt Word × Machine → Except Halt Unit × Machine
  | (.ok next, m) => (.ok (), { m with pc := next }.commit)
  | (.error (.exit code), m) =>
    (.error (.exit code), { m with pc := pc + 4, exitCode := some code }.commit)
  | (.error (.fault cause), m) => (.error (.fault cause), m.rollBack)

theorem perform_eq (m : Machine) (i : Instr) :
    m.perform i = concluded m.pc ((execute m.pc i).run.run m.started) := rfl

/-- The machines differ in nothing but what was observed, whether the last thing done was a single
step, and why they paused. -/
def Alike (m n : Machine) : Prop := ∃ observer stepped pause, n = { m with observer, stepped, pause }

namespace Alike

variable {m n k : Machine}

theorem refl (m : Machine) : Alike m m := ⟨_, _, _, rfl⟩

theorem symm (h : Alike m n) : Alike n m := by
  obtain ⟨_, _, _, rfl⟩ := h
  exact ⟨m.observer, m.stepped, m.pause, rfl⟩

theorem trans (hmn : Alike m n) (hnk : Alike n k) : Alike m k := by
  obtain ⟨_, _, _, rfl⟩ := hmn
  obtain ⟨_, _, _, rfl⟩ := hnk
  exact ⟨_, _, _, rfl⟩

theorem lockstep : Lockstep Alike where
  registers := by rintro m _ ⟨_, _, _, rfl⟩; rfl
  image := by rintro m _ ⟨_, _, _, rfl⟩; rfl
  observed := by rintro m _ l a ⟨_, _, _, rfl⟩; exact ⟨_, _, _, rfl⟩
  putRegister := by rintro m _ r value ⟨_, _, _, rfl⟩; exact ⟨_, _, _, rfl⟩
  touched := by rintro m _ a k ⟨_, _, _, rfl⟩; exact ⟨_, _, _, rfl⟩
  putMemory := by rintro m _ a width value ⟨_, _, _, rfl⟩; exact ⟨_, _, _, rfl⟩
  printed := by rintro m _ bytes ⟨_, _, _, rfl⟩; exact ⟨_, _, _, rfl⟩

theorem sameInput : SameInput Alike where
  console := by rintro m _ ⟨_, _, _, rfl⟩; rfl
  running := by rintro m _ ⟨_, _, _, rfl⟩; rfl
  answered := by rintro _ m _ r ⟨_, _, _, rfl⟩; exact ⟨_, _, _, rfl⟩

theorem undoRegisters (h : Alike m n) (ps : List (Register × Word)) :
    Alike (m.undoRegisters ps) (n.undoRegisters ps) := by
  induction ps generalizing m n with
  | nil => exact h
  | cons p ps ih =>
      obtain ⟨_, _, _, rfl⟩ := h
      exact ih ⟨_, _, _, rfl⟩

theorem undoWords (h : Alike m n) (ps : List (Word × Word)) :
    Alike (m.undoWords ps) (n.undoWords ps) := by
  induction ps generalizing m n with
  | nil => exact h
  | cons p ps ih =>
      obtain ⟨observer, stepped, pause, rfl⟩ := h
      have hword : Alike (m.undoWord p.1 p.2) ({ m with observer, stepped, pause }.undoWord p.1 p.2) := by
        unfold undoWord
        dsimp only
        exact ⟨_, _, _, rfl⟩
      rw [undoWords_cons, undoWords_cons]
      exact ih hword

theorem undo (h : Alike m n) (u : UndoRecord) : Alike (m.undo u) (n.undo u) := by
  obtain ⟨_, _, _, hwords⟩ := (h.undoRegisters u.registers).undoWords u.memory
  rw [undo_eq, undo_eq, hwords]
  exact ⟨_, _, _, rfl⟩

theorem rollBack (h : Alike m n) : Alike m.rollBack n.rollBack := by
  have hhistory : ∀ k, Alike { m with history := k } { n with history := k } := by
    obtain ⟨_, _, _, rfl⟩ := h
    exact fun k => ⟨_, _, _, rfl⟩
  have hsame : n.history = m.history := by
    obtain ⟨_, _, _, rfl⟩ := h
    rfl
  unfold Machine.rollBack
  rw [hsame]
  split
  · exact h
  · split
    · exact (hhistory _).undo _
    · exact hhistory _

theorem concluded (h : Alike m n) (pc : Word) (result : Except Halt Word) :
    (Machine.concluded pc (result, n)).1 = (Machine.concluded pc (result, m)).1 ∧
      Alike (Machine.concluded pc (result, m)).2 (Machine.concluded pc (result, n)).2 := by
  obtain ⟨_, _, _, rfl⟩ := id h
  match result with
  | .ok next => exact ⟨rfl, _, _, _, rfl⟩
  | .error (.exit code) => exact ⟨rfl, _, _, _, rfl⟩
  | .error (.fault cause) => exact ⟨rfl, h.rollBack⟩

theorem perform (h : Alike m n) (i : Instr) :
    (n.perform i).1 = (m.perform i).1 ∧ Alike (m.perform i).2 (n.perform i).2 := by
  have hstarted : Alike m.started n.started := by
    obtain ⟨_, _, _, rfl⟩ := h
    exact ⟨_, _, _, rfl⟩
  have hpc : n.pc = m.pc := by
    obtain ⟨_, _, _, rfl⟩ := h
    rfl
  obtain ⟨hresult, hend⟩ :=
    lockstep.execute (fun _ : True => sameInput) m.pc (i := i) (fun _ _ => trivial) hstarted
  rw [perform_eq, perform_eq, hpc, ← Prod.eta ((execute m.pc i).run.run n.started), hresult]
  exact hend.concluded m.pc _

theorem advance (h : Alike m n) :
    n.advance.1 = m.advance.1 ∧ Alike m.advance.2 n.advance.2 := by
  obtain ⟨observer, stepped, pause, rfl⟩ := id h
  have hmemory : ∀ memory, Alike { m with memory } { m with memory, observer, stepped, pause } :=
    fun memory => ⟨observer, stepped, pause, rfl⟩
  unfold Machine.advance
  dsimp only
  split
  · exact ⟨rfl, h⟩
  · exact ⟨rfl, h⟩
  · split
    · exact ⟨rfl, h⟩
    split
    · exact ⟨rfl, observer, stepped, pause, rfl⟩
    rcases m.memory.read m.pc 4 with ⟨word, memory⟩
    dsimp only
    split
    · exact ⟨rfl, hmemory memory⟩
    · exact (hmemory memory).perform _

theorem meetsBreakpoint (h : Alike m n) : n.meetsBreakpoint = m.meetsBreakpoint := by
  obtain ⟨_, _, _, rfl⟩ := h
  rfl

theorem running (h : Alike m n) : n.running = m.running := by
  obtain ⟨_, _, _, rfl⟩ := h
  rfl

theorem sameState (h : Alike m n) : SameState m n := by
  obtain ⟨_, _, _, rfl⟩ := h
  exact ⟨rfl, rfl, rfl, rfl, rfl, rfl, rfl, rfl⟩

end Alike

/-! ## Steps -/

/-- What a step reports of the attempt that it makes. -/
def verdict (result : Except Halt Unit) (m : Machine) : Except Fault Bool :=
  match result with
  | .ok () => .ok false
  | .error (.exit _) => .ok true
  | .error (.fault cause) => .error (m.faultOf cause)

/-- A step does what an attempt does. -/
theorem Alike.step {m n : Machine} (h : Alike m n) :
    n.step.1 = verdict m.advance.1 m.advance.2 ∧ Alike m.advance.2 n.step.2 := by
  have hbegin : Alike n n.beginStep := ⟨_, _, _, rfl⟩
  obtain ⟨hresult, hend⟩ := (h.trans hbegin).advance
  obtain ⟨_, _, _, hout⟩ := id hend
  unfold Machine.step
  split
  case h_1 hadv =>
    rw [hadv] at hresult hend
    rw [← hresult]
    exact ⟨rfl, hend⟩
  case h_2 k hadv =>
    have hpause : Alike k { k with pause := .completed } := ⟨_, _, _, rfl⟩
    rw [hadv] at hresult hend
    rw [← hresult]
    exact ⟨rfl, hend.trans hpause⟩
  case h_3 hadv =>
    rw [hadv] at hresult hend hout
    rw [← hresult]
    refine ⟨?_, hend⟩
    dsimp only at hout
    rw [hout]
    rfl

end MipsLab.Machine
