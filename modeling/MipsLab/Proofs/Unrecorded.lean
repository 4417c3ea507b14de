import Mathlib.Data.List.Forall2
import Mathlib.Data.Option.Basic
import MipsLab.Proofs.FreeRun

set_option autoImplicit false

/-!
# Recording changes nothing else

Whether a machine keeps a history, and how long a one, makes no difference to what it does. Two machines
that differ in their history, and in the options about it, execute each instruction alike
(`Unrecorded.advance`): no access looks at the history, and when an instruction is undone because it
faulted, there is nothing in its record. So they go through the same states in every sequence of steps
and runs (`calling_load_unrecorded`).
-/

namespace MipsLab.Machine

/-! ## Machines that record differently -/

/-- The machines differ in nothing but their history and the options about it. -/
def Unrecorded (m n : Machine) : Prop :=
  ∃ history keepsHistory historyLimit,
    n = { m with
      history
      options := { m.options with keepsHistory, historyLimit } }

namespace Unrecorded

/-- No access looks at the history or the options. -/
theorem lockstep : Lockstep Unrecorded where
  registers := by rintro m _ ⟨_, _, _, rfl⟩; rfl
  image := by rintro m _ ⟨_, _, _, rfl⟩; rfl
  observed := by rintro m _ l a ⟨_, _, _, rfl⟩; exact ⟨_, _, _, rfl⟩
  putRegister := by rintro m _ r value ⟨_, _, _, rfl⟩; exact ⟨_, _, _, rfl⟩
  touched := by rintro m _ a k ⟨_, _, _, rfl⟩; exact ⟨_, _, _, rfl⟩
  putMemory := by rintro m _ a width value ⟨_, _, _, rfl⟩; exact ⟨_, _, _, rfl⟩
  printed := by rintro m _ bytes ⟨_, _, _, rfl⟩; exact ⟨_, _, _, rfl⟩

theorem sameInput : SameInput Unrecorded where
  console := by rintro m _ ⟨_, _, _, rfl⟩; rfl
  running := by rintro m _ ⟨_, _, _, rfl⟩; rfl
  answered := by rintro _ m _ r ⟨_, _, _, rfl⟩; exact ⟨_, _, _, rfl⟩

end Unrecorded

/-! ## Attempts -/

/-- Rolling back an instruction that has written nothing closes its record and does nothing else. -/
theorem rollBack_of_quiet {m n : Machine} (h : Quiet m.started n) :
    ∃ history, n.rollBack = { n with history } := by
  have hhistory : n.history = m.history.map (·.start m.pc) := h.history
  have hpc : n.pc = m.pc := h.pc
  unfold rollBack
  cases hm : m.history with
  | none =>
      rw [hm] at hhistory
      rw [hhistory]
      exact ⟨n.history, rfl⟩
  | some k =>
      rw [hm] at hhistory
      rw [hhistory]
      refine ⟨some { k with current := none }, ?_⟩
      show Machine.undo _ ⟨m.pc, [], []⟩ = _
      rw [← hpc]
      rfl

namespace Unrecorded

variable {m n : Machine}

theorem perform (h : Unrecorded m n) (i : Instr) :
    (n.perform i).1 = (m.perform i).1 ∧ Unrecorded (m.perform i).2 (n.perform i).2 := by
  have hstarted : Unrecorded m.started n.started := by
    obtain ⟨_, _, _, rfl⟩ := h
    exact ⟨_, _, _, rfl⟩
  have hpc : n.pc = m.pc := by
    obtain ⟨_, _, _, rfl⟩ := h
    rfl
  obtain ⟨hresult, hend⟩ :=
    lockstep.execute (fun _ : True => sameInput) m.pc (i := i) (fun _ _ => trivial) hstarted
  rw [perform_eq, perform_eq, hpc]
  rcases hm : (execute m.pc i).run.run m.started with ⟨result, m'⟩
  rcases hn : (execute m.pc i).run.run n.started with ⟨result', n'⟩
  rw [hm, hn] at hresult hend
  obtain rfl : result' = result := hresult
  obtain ⟨_, _, _, rfl⟩ := hend
  match result' with
  | .ok next => exact ⟨rfl, _, _, _, rfl⟩
  | .error (.exit code) => exact ⟨rfl, _, _, _, rfl⟩
  | .error (.fault cause) =>
      -- neither machine has anything to undo
      obtain ⟨_, hback⟩ := rollBack_of_quiet (faultsQuietly_execute _ _ _ _ _ hm)
      obtain ⟨_, hback'⟩ := rollBack_of_quiet (faultsQuietly_execute _ _ _ _ _ hn)
      refine ⟨rfl, ?_⟩
      show Unrecorded m'.rollBack (rollBack _)
      rw [hback, hback']
      exact ⟨_, _, _, rfl⟩

/-- **An attempt comes to the same with and without a history.** -/
theorem advance (h : Unrecorded m n) :
    n.advance.1 = m.advance.1 ∧ Unrecorded m.advance.2 n.advance.2 := by
  obtain ⟨history, kept, limit, rfl⟩ := id h
  have hmemory : ∀ memory, Unrecorded { m with memory }
      { m with
        memory, history
        options := { m.options with keepsHistory := kept, historyLimit := limit } } :=
    fun memory => ⟨_, _, _, rfl⟩
  unfold Machine.advance
  dsimp only
  split
  · exact ⟨rfl, h⟩
  · exact ⟨rfl, h⟩
  · split
    · exact ⟨rfl, h⟩
    split
    · exact ⟨rfl, _, _, _, rfl⟩
    rcases m.memory.read m.pc 4 with ⟨word, memory⟩
    dsimp only
    split
    · exact ⟨rfl, hmemory memory⟩
    · exact (hmemory memory).perform _

theorem meetsBreakpoint (h : Unrecorded m n) : n.meetsBreakpoint = m.meetsBreakpoint := by
  obtain ⟨_, _, _, rfl⟩ := h
  rfl

theorem faultOf (h : Unrecorded m n) (cause : FaultCause) : n.faultOf cause = m.faultOf cause := by
  obtain ⟨_, _, _, rfl⟩ := h
  rfl

theorem beginStep (h : Unrecorded m n) : Unrecorded m.beginStep n.beginStep := by
  obtain ⟨_, _, _, rfl⟩ := h
  exact ⟨_, _, _, rfl⟩

/-- A step comes to the same with and without a history. -/
theorem step (h : Unrecorded m n) :
    n.step.1 = m.step.1 ∧ Unrecorded m.step.2 n.step.2 := by
  obtain ⟨hresult, hend⟩ := h.beginStep.advance
  unfold Machine.step
  rcases hm : m.beginStep.advance with ⟨result, m'⟩
  rcases hn : n.beginStep.advance with ⟨result', n'⟩
  rw [hm, hn] at hresult hend
  obtain rfl : result' = result := hresult
  match result' with
  | .ok () => exact ⟨rfl, hend⟩
  | .error (.exit code) =>
      obtain ⟨_, _, _, rfl⟩ := hend
      exact ⟨rfl, _, _, _, rfl⟩
  | .error (.fault cause) => exact ⟨congrArg Except.error (hend.faultOf cause), hend⟩

end Unrecorded

/-! ## Runs -/

/-- Two runs have ended alike. -/
structure SameResult (r s : RunResult Unit) : Prop where
  outcome : s.outcome = r.outcome
  machine : Unrecorded r.machine s.machine

theorem sameResult_pauseRun {m n : Machine} (h : Unrecorded m n) (pause : Pause) :
    SameResult (pauseRun pause () m) (pauseRun pause () n) := by
  obtain ⟨_, _, _, rfl⟩ := h
  exact ⟨rfl, _, _, _, rfl⟩

theorem sameResult_faultRun {m n : Machine} (h : Unrecorded m n)
    (cause : FaultCause) : SameResult (faultRun cause () m) (faultRun cause () n) := by
  obtain ⟨_, _, _, rfl⟩ := h
  exact ⟨rfl, _, _, _, rfl⟩

/-- **A run makes the same attempts and comes to the same end with and without a history.** -/
theorem Unrecorded.runLoop {m n : Machine} (h : Unrecorded m n)
    (limit : Option Count) (start : Count) (fuel : Nat) :
    List.Forall₂ (Unrecorded) (attempts (limitTripwire limit start) () m fuel)
        (attempts (limitTripwire limit start) () n fuel) ∧
      Option.Rel (SameResult) (Machine.runLoop (limitTripwire limit start) () m fuel)
        (Machine.runLoop (limitTripwire limit start) () n fuel) := by
  -- both loops decide alike at every turn, so they are opened together
  induction fuel generalizing m n with
  | zero => exact ⟨.nil, .none⟩
  | succ fuel ih =>
      have hrunning : n.running = m.running := sameInput.running h
      have hwithin : isWithin limit start n = isWithin limit start m := by
        obtain ⟨_, _, _, rfl⟩ := h
        rfl
      obtain ⟨hresult, hend⟩ := h.advance
      have htrip (k : Machine) :
          limitTripwire limit start () k = (isWithin limit start k, (), k) := rfl
      unfold Machine.runLoop attempts
      rw [htrip m, htrip n, hrunning, hwithin]
      cases m.running with
      | false => exact ⟨.nil, .some (sameResult_pauseRun h .stopped)⟩
      | true =>
          cases isWithin limit start m with
          | false => exact ⟨.nil, .some (sameResult_pauseRun h .tripwire)⟩
          | true =>
              rcases hm : m.advance with ⟨result, m'⟩
              rcases hn : n.advance with ⟨result', n'⟩
              rw [hm, hn] at hresult hend
              obtain rfl : result' = result := hresult
              simp only [hm, hn, Bool.not_true, Bool.false_eq_true, if_false]
              match result' with
              | .error (.exit code) =>
                  exact ⟨.cons h .nil, .some (sameResult_pauseRun hend .completed)⟩
              | .error (.fault cause) =>
                  exact ⟨.cons h .nil, .some (sameResult_faultRun hend cause)⟩
              | .ok () =>
                  have hbreak : n'.meetsBreakpoint = m'.meetsBreakpoint := hend.meetsBreakpoint
                  dsimp only
                  rw [hbreak]
                  cases m'.meetsBreakpoint with
                  | true => exact ⟨.cons h .nil, .some (sameResult_pauseRun hend .breakpoint)⟩
                  | false => exact ⟨.cons h (ih hend).1, (ih hend).2⟩

/-- Calls have ended with the same outcome and the same machine but for what was recorded, or neither
has ended. -/
abbrev SameEnd : (x y : Option (Except Fault Bool × Machine)) → Prop :=
  Option.Rel fun a b => b.1 = a.1 ∧ Unrecorded a.2 b.2

/-- A run with a limit comes to the same with and without a history. -/
theorem Unrecorded.simulate {m n : Machine} (h : Unrecorded m n)
    (limit : Option Count) (fuel : Nat) :
    List.Forall₂ (Unrecorded) (attemptsWhile (limitTripwire limit m.executed) () m fuel)
        (attemptsWhile (limitTripwire limit n.executed) () n fuel) ∧
      SameEnd (m.simulate limit fuel) (n.simulate limit fuel) := by
  have hbegin : Unrecorded m.unstopped.beginRun n.unstopped.beginRun := by
    obtain ⟨_, _, _, rfl⟩ := h
    exact ⟨_, _, _, rfl⟩
  have hstart : n.executed = m.executed := by
    obtain ⟨_, _, _, rfl⟩ := h
    rfl
  obtain ⟨hattempts, hend⟩ : _ ∧ Option.Rel (SameResult) _ _ :=
    hbegin.runLoop limit m.executed fuel
  rw [simulate_eq, simulate_eq, hstart]
  refine ⟨hattempts, ?_⟩
  unfold runWhile
  change Option.Rel _ (Machine.runLoop _ () { m with running := true }.beginRun fuel)
    (Machine.runLoop _ () { n with running := true }.beginRun fuel) at hend
  generalize Machine.runLoop _ () { m with running := true }.beginRun fuel = x at hend ⊢
  generalize Machine.runLoop _ () { n with running := true }.beginRun fuel = y at hend ⊢
  cases hend with
  | none => exact .none
  | some hresult =>
      obtain ⟨houtcome, hmachine⟩ := hresult
      refine .some ⟨?_, hmachine⟩
      obtain ⟨_, _, _, hn⟩ := hmachine
      simp only [houtcome, hn]
      rfl

/-! ## Sessions -/

/-- A call on a machine with a program. -/
inductive Call where
  | step
  | simulate (limit : Option Count)
  /-- The owner uses the console, or the run control. -/
  | aside (act : Console → Bool → Console × Bool)

/-- What a call does: the states in which it attempts to execute an instruction, and its outcome and
the machine that it leaves, if it ends. -/
structure Passage where
  attempted : List Machine
  ended : Option (Except Fault Bool × Machine)

/-- What a call on a machine does. -/
def Call.passage (fuel : Nat) (m : Machine) : Call → Passage
  | step => ⟨[m.beginStep], some m.step⟩
  | simulate limit =>
    ⟨attemptsWhile (limitTripwire limit m.executed) () m fuel, m.simulate limit fuel⟩
  | aside act =>
    let (console, running) := act m.console m.running
    ⟨[], some (.ok m.isCompleted, { m with console, running })⟩

/-- What calls do that are made one after the other, as long as they end. -/
def calling (fuel : Nat) (m : Machine) : List Call → List Passage
  | [] => []
  | c :: cs =>
    let passage := c.passage fuel m
    passage ::
      match passage.ended with
      | some (_, n) => calling fuel n cs
      | none => []

/-- Two calls have gone through the same states and come to the same outcome, but for what was
recorded. -/
structure SamePassage (x y : Passage) : Prop where
  attempted : List.Forall₂ (Unrecorded) x.attempted y.attempted
  ended : SameEnd x.ended y.ended

variable {m n : Machine}

theorem Unrecorded.passage (h : Unrecorded m n) (fuel : Nat) (c : Call) :
    SamePassage (c.passage fuel m) (c.passage fuel n) := by
  cases c with
  | step => exact ⟨.cons h.beginStep .nil, .some h.step⟩
  | simulate limit => exact ⟨(h.simulate limit fuel).1, (h.simulate limit fuel).2⟩
  | aside act =>
      obtain ⟨_, _, _, rfl⟩ := h
      exact ⟨.nil, .some ⟨rfl, _, _, _, rfl⟩⟩

theorem Unrecorded.calling (h : Unrecorded m n) (fuel : Nat) (cs : List Call) :
    List.Forall₂ (SamePassage) (Machine.calling fuel m cs) (Machine.calling fuel n cs) := by
  induction cs generalizing m n with
  | nil => exact .nil
  | cons c cs ih =>
      have hpassage := h.passage fuel c
      unfold Machine.calling
      refine .cons hpassage ?_
      have hended := hpassage.ended
      generalize (c.passage fuel m).ended = x at hended ⊢
      generalize (c.passage fuel n).ended = y at hended ⊢
      cases hended with
      | none => exact .nil
      | some hend => exact ih hend.2

/-- **Recording is no part of what a machine does.** Two machines that load a program with the same known
fill, breakpoints, console and run control, and keep different histories or none, go through the same states
with the same outcomes in every sequence of steps and runs, whatever their owner does with the console and
the run control in between. -/
theorem calling_load_unrecorded {v : Word} {atMain kept kept' : Bool} {limit limit' : Nat}
    (hm : m.options = ⟨kept, limit, .known v, atMain⟩)
    (hn : n.options = ⟨kept', limit', .known v, atMain⟩)
    (breakpoints : n.breakpoints = m.breakpoints) (console : n.console = m.console)
    (running : n.running = m.running) (p : AssembledProgram) (fuel : Nat) (cs : List Call) :
    List.Forall₂ SamePassage (calling fuel (m.load p) cs) (calling fuel (n.load p) cs) := by
  have hload : Unrecorded (m.load p) (n.load p) := by
    refine ⟨(n.load p).history, kept', limit', ?_⟩
    simp [load, reset, initial, hm, hn, breakpoints, console, running, startOf]
  exact hload.calling fuel cs

/-- A loop goes through the same instructions without a history and with one that keeps nothing. -/
theorem calling_load_unrecorded_countingLoop :
    let m := Machine.initial { keepsHistory := false }
    let n := Machine.initial { historyLimit := 0 }
    let cs := [.simulate (some 3), .step]
    List.Forall₂ SamePassage (calling 4 (m.load countingLoop) cs)
        (calling 4 (n.load countingLoop) cs) ∧
      (calling 4 (m.load countingLoop) cs).map (fun x => x.ended.map fun e => (e.1, e.2.executed)) =
        [some (.ok false, 3), some (.ok false, 4)] := by
  intro m n cs
  have hcalls : List.Forall₂ SamePassage
      (calling 4 (m.load countingLoop) cs) (calling 4 (n.load countingLoop) cs) :=
    calling_load_unrecorded (m := m) (n := n) rfl rfl rfl rfl rfl countingLoop 4 cs
  exact ⟨hcalls, by decide +kernel⟩

end MipsLab.Machine
