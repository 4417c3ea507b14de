import MipsLab.Machine.Step

set_option autoImplicit false

/-!
# Runs

Executing instructions until the program ends or faults, a breakpoint holds, the run is asked to
stop, or a tripwire says so. The tripwire is asked before each instruction, and the breakpoints are
looked at after each one. A run without a limit need not end, so runs are given a number of
instructions after which the result is `none`.
-/

namespace MipsLab.Machine

/-- Decides whether a run goes on. It can carry a state of its own from instruction to instruction,
and it can change the machine. -/
abbrev Tripwire (σ : Type) := σ → Machine → Bool × σ × Machine

/-- How a run ended, with the state of the tripwire and the machine. -/
structure RunResult (σ : Type) where
  outcome : Except Fault Unit
  state : σ
  machine : Machine

/-- Ends a run without a fault. -/
def pauseRun {σ : Type} (pause : Pause) (s : σ) (m : Machine) : RunResult σ :=
  ⟨.ok (), s, { m with running := false, pause }⟩

/-- Ends a run with a fault. -/
def faultRun {σ : Type} (cause : FaultCause) (s : σ) (m : Machine) : RunResult σ :=
  ⟨.error (m.faultOf cause), s, { m with running := false }⟩

/-- Runs at most `fuel` instructions of a run that is under way. -/
def runLoop {σ : Type} (tripwire : Tripwire σ) (s : σ) (m : Machine) : Nat → Option (RunResult σ)
  | 0 => none
  | fuel + 1 =>
    if !m.running then some (pauseRun .stopped s m)
    else
      match tripwire s m with
      | (false, s, m) => some (pauseRun .tripwire s m)
      | (true, s, m) =>
        match m.advance with
        | (.error (.exit _), m) => some (pauseRun .completed s m)
        | (.error (.fault cause), m) => some (faultRun cause s m)
        | (.ok (), m) =>
          if m.meetsBreakpoint then some (pauseRun .breakpoint s m)
          else runLoop tripwire s m fuel

/-- What a run starts from: accesses are not observed, and the machine has not paused. -/
def beginRun (m : Machine) : Machine := { m.setStepped false with pause := .none }

/-- Runs the machine as long as a tripwire allows. -/
def runWhile {σ : Type} (tripwire : Tripwire σ) (s : σ) (m : Machine) (fuel : Nat) :
    Option (RunResult σ) :=
  runLoop tripwire s { m with running := true }.beginRun fuel

/-- Whether fewer than `limit` instructions were executed since `start`. -/
def isWithin (limit : Option Count) (start : Count) (m : Machine) : Bool :=
  limit.all fun n => decide (m.executed - start < n)

/-- Runs the machine for at most `limit` instructions, if there is a limit. The outcome tells
whether the program has ended. -/
def simulate (limit : Option Count) (m : Machine) (fuel : Nat) :
    Option (Except Fault Bool × Machine) :=
  (runWhile (fun _ n => (isWithin limit m.executed n, (), n)) () m fuel).map fun r =>
    (r.outcome.map fun _ => r.machine.isCompleted, r.machine)

/-! ## Runs that report -/

/-- What a reporting run reports. -/
inductive RunEvent where
  /-- The instruction at this address is about to be executed. -/
  | step (pc : Word)
  /-- A breakpoint or the limit was reached. -/
  | paused (pc : Word)
  | completed (exitCode : Int)
  | faulted (f : Fault)
  /-- The run was asked to stop. -/
  | stopped (pc : Word)
deriving DecidableEq, Repr

/-- The tripwire of a reporting run, which carries the events so far along, last one first. -/
def reportStep (limit : Option Count) (start : Count) (notify : Bool) : Tripwire (List RunEvent) :=
  fun events m =>
    if isWithin limit start m then (true, if notify then .step m.pc :: events else events, m)
    else (false, events, m)

/-- The last event of a run. -/
def finalEvent (outcome : Except Fault Unit) (m : Machine) : RunEvent :=
  match outcome with
  | .error f => .faulted f
  | .ok () =>
    match m.pause with
    | .completed => .completed (m.exitCode.getD 0)
    | .stopped => .stopped m.pc
    | _ => .paused m.pc

/-- What a reporting run gives: its events in order, the outcome as of `simulate`, and the
machine. -/
structure Report where
  events : List RunEvent
  outcome : Except Fault Bool
  machine : Machine

/-- Adds breakpoints and runs the machine like `simulate`, with a report of what happens. -/
def simulateReporting (breakpoints : List Breakpoint) (limit : Option Count) (notify : Bool)
    (m : Machine) (fuel : Nat) : Option Report :=
  (runWhile (reportStep limit m.executed notify) [] (m.addBreakpoints breakpoints) fuel).map fun r =>
    ⟨(finalEvent r.outcome r.machine :: r.state).reverse,
      r.outcome.map fun _ => r.machine.isCompleted, r.machine⟩

end MipsLab.Machine
