import MipsLab.Machine.Run
import MipsLab.Proofs.Execution

set_option autoImplicit false

/-!
# Attempts

Every step and every run consists of attempts to execute the next instruction. An attempt has six
forms (`Attempt`), and performing a decoded instruction has three (`Performed`); later proofs go by
these forms and never open `advance` or `perform` again. The attempts of a run are listed by
`attempts`, and the end of a run is the end of its last attempt.
-/

namespace MipsLab.Machine

/-! ## One attempt -/

/-- The next instruction may be fetched: its address is aligned and in a text segment. -/
def MayFetch (m : Machine) : Prop := Word.isAligned m.pc 4 = true ∧ m.layout.inText m.pc = true

/-- The machine has a program, and the program has code where the next instruction is. -/
def AtCode (m : Machine) : Prop :=
  m.MayFetch ∧ ∃ code, m.code = some code ∧ code.contains m.pc.toNat = true

/-- The machine has a program, and the program has no code where the next instruction would be. -/
def PastCode (m : Machine) : Prop :=
  m.MayFetch ∧ ∃ code, m.code = some code ∧ code.contains m.pc.toNat = false

theorem not_atCode_of_unloaded {m : Machine} (unloaded : m.code = none) : ¬ m.AtCode := by
  rintro ⟨-, code, hcode, -⟩
  rw [unloaded] at hcode
  cases hcode

theorem PastCode.not_atCode {m : Machine} (past : m.PastCode) : ¬ m.AtCode := by
  rintro ⟨-, code, hcode, hcontains⟩
  obtain ⟨-, code', hcode', hpast⟩ := past
  obtain rfl : code = code' := Option.some.inj (hcode.symm.trans hcode')
  rw [hcontains] at hpast
  cases hpast

/-- The word that is fetched next. -/
def nextWord (m : Machine) : Word := Image.word m.memory.image m.pc

/-- The machine with a record open for the instruction that is next. -/
def started (m : Machine) : Machine := { m with history := m.history.map (·.start m.pc) }

/-- What an attempt to execute the next instruction comes to. -/
inductive Attempt (m : Machine) : Except Halt Unit × Machine → Prop
  | exited {code : Int} (done : m.exitCode = some code) : Attempt m (.error (.exit code), m)
  | notLoaded (going : m.exitCode = none) (empty : m.code = none) :
      Attempt m (.error (.fault .notLoaded), m)
  | invalidFetch (going : m.exitCode = none) (outside : ¬ m.MayFetch) :
      Attempt m (.error (.fault (.invalidFetch m.pc)), m)
  | pastCode (going : m.exitCode = none) (past : m.PastCode) :
      Attempt m (.error (.exit 0), { m with exitCode := some 0 })
  | illegal (going : m.exitCode = none) (here : m.AtCode)
      (undecoded : Instr.decode? m.nextWord = none) :
      Attempt m (.error (.fault (.illegalInstruction m.nextWord)), m.touched m.pc 4)
  | performed {i : Instr} (going : m.exitCode = none) (here : m.AtCode)
      (decoded : Instr.decode? m.nextWord = some i) :
      Attempt m ((m.touched m.pc 4).perform i)

theorem attempt_advance (m : Machine) : Attempt m m.advance := by
  have hread : m.memory.read m.pc 4 = (m.nextWord, m.memory.touchBytes m.pc 4) :=
    Memory.read_eq _ _ _
  unfold advance
  split
  case h_1 code _ done => exact .exited done
  case h_2 going empty => exact .notLoaded going empty
  case h_3 code going hcode =>
    split
    case isTrue h =>
      refine .invalidFetch going fun hfetch => ?_
      rw [hfetch.1, hfetch.2] at h
      exact absurd h (by decide)
    case isFalse h =>
      have hfetch : m.MayFetch := by
        simp only [Bool.or_eq_true, Bool.not_eq_true', not_or, Bool.not_eq_false] at h
        exact h
      split
      case isTrue hpast => exact .pastCode going ⟨hfetch, code, hcode, by simpa using hpast⟩
      case isFalse hat =>
        have here : m.AtCode := ⟨hfetch, code, hcode, by simpa using hat⟩
        rw [hread]
        dsimp only
        split
        case h_1 undecoded => exact .illegal going here undecoded
        case h_2 i decoded => exact .performed going here decoded

/-- The next instruction is performed, if it can be fetched and decoded. -/
theorem advance_eq_perform {m : Machine} {i : Instr} (going : m.exitCode = none) (here : m.AtCode)
    (decoded : Instr.decode? m.nextWord = some i) :
    m.advance = (m.touched m.pc 4).perform i := by
  have hout := attempt_advance m
  generalize m.advance = out at hout
  cases hout with
  | exited done => rw [going] at done; cases done
  | notLoaded _ unloaded => exact absurd here (not_atCode_of_unloaded unloaded)
  | invalidFetch _ outside => exact absurd here.1 outside
  | pastCode _ past => exact absurd here past.not_atCode
  | illegal _ _ undecoded => rw [decoded] at undecoded; cases undecoded
  | performed _ _ decoded' =>
      obtain rfl := Option.some.inj (decoded.symm.trans decoded')
      rfl

/-- What performing an instruction comes to. -/
inductive Performed (m : Machine) (i : Instr) : Except Halt Unit × Machine → Prop
  | next {pc : Word} {n : Machine} (ran : (execute m.pc i).run.run m.started = (.ok pc, n)) :
      Performed m i (.ok (), { n with pc }.commit)
  | exit {code : Int} {n : Machine}
      (ran : (execute m.pc i).run.run m.started = (.error (.exit code), n)) :
      Performed m i (.error (.exit code), { n with pc := m.pc + 4, exitCode := some code }.commit)
  | fault {cause : FaultCause} {n : Machine}
      (ran : (execute m.pc i).run.run m.started = (.error (.fault cause), n)) :
      Performed m i (.error (.fault cause), n.rollBack)

theorem performed_perform (m : Machine) (i : Instr) : Performed m i (m.perform i) := by
  unfold perform
  dsimp only
  split
  case h_1 ran => exact .next ran
  case h_2 ran => exact .exit ran
  case h_3 ran => exact .fault ran

/-! ## The attempts of a run -/

/-- The states in which a run attempts instructions, in order. -/
def attempts {σ : Type} (tripwire : Tripwire σ) (s : σ) (m : Machine) : Nat → List Machine
  | 0 => []
  | fuel + 1 =>
    if !m.running then []
    else
      match tripwire s m with
      | (false, _, _) => []
      | (true, s, m) =>
        m ::
          match m.advance with
          | (.ok (), n) => if n.meetsBreakpoint then [] else attempts tripwire s n fuel
          | (.error _, _) => []

/-- The states in which `runWhile` attempts instructions. -/
def attemptsWhile {σ : Type} (tripwire : Tripwire σ) (s : σ) (m : Machine) (fuel : Nat) :
    List Machine :=
  attempts tripwire s { m with running := true }.beginRun fuel

/-- The tripwire of a run with a limit. -/
def limitTripwire (limit : Option Count) (start : Count) : Tripwire Unit :=
  fun _ m => (isWithin limit start m, (), m)

theorem simulate_eq (limit : Option Count) (m : Machine) (fuel : Nat) :
    m.simulate limit fuel = (runWhile (limitTripwire limit m.executed) () m fuel).map fun r =>
      (r.outcome.map fun _ => r.machine.isCompleted, r.machine) := rfl

/-- What a run that is under way comes to. It ends before an attempt or with one, or it makes an
attempt and goes on. The list is that of the states in which instructions are attempted. -/
inductive Ran {σ : Type} (tripwire : Tripwire σ) : σ → Machine → List Machine → RunResult σ → Prop
  | stopped {s : σ} {m : Machine} (asked : m.running = false) :
      Ran tripwire s m [] (pauseRun .stopped s m)
  | tripped {s t : σ} {m n : Machine} (trip : tripwire s m = (false, t, n)) :
      Ran tripwire s m [] (pauseRun .tripwire t n)
  | completed {s t : σ} {m n k : Machine} {code : Int} (trip : tripwire s m = (true, t, n))
      (adv : n.advance = (.error (.exit code), k)) :
      Ran tripwire s m [n] (pauseRun .completed t k)
  | faulted {s t : σ} {m n k : Machine} {cause : FaultCause} (trip : tripwire s m = (true, t, n))
      (adv : n.advance = (.error (.fault cause), k)) : Ran tripwire s m [n] (faultRun cause t k)
  | broken {s t : σ} {m n k : Machine} (trip : tripwire s m = (true, t, n))
      (adv : n.advance = (.ok (), k)) : Ran tripwire s m [n] (pauseRun .breakpoint t k)
  | next {s t : σ} {m n k : Machine} {later : List Machine} {r : RunResult σ}
      (trip : tripwire s m = (true, t, n)) (adv : n.advance = (.ok (), k))
      (rest : Ran tripwire t k later r) : Ran tripwire s m (n :: later) r

section Runs

variable {σ : Type} {tripwire : Tripwire σ} {s : σ} {m : Machine} {fuel : Nat} {r : RunResult σ}

theorem ran_of_runLoop (ran : runLoop tripwire s m fuel = some r) :
    Ran tripwire s m (attempts tripwire s m fuel) r := by
  induction fuel generalizing s m with
  | zero => cases ran
  | succ fuel ih =>
      unfold runLoop at ran
      unfold attempts
      cases hrunning : m.running with
      | false =>
          rw [hrunning] at ran
          cases ran
          exact .stopped hrunning
      | true =>
          simp only [hrunning, Bool.not_true, Bool.false_eq_true, if_false] at ran ⊢
          rcases trip : tripwire s m with ⟨_ | _, t, n⟩
          · rw [trip] at ran
            cases ran
            exact .tripped trip
          · simp only [trip] at ran ⊢
            rcases adv : n.advance with ⟨(code | cause) | ⟨⟩, k⟩
            · rw [adv] at ran
              cases ran
              exact .completed trip adv
            · rw [adv] at ran
              cases ran
              exact .faulted trip adv
            · simp only [adv] at ran ⊢
              cases hbreak : k.meetsBreakpoint with
              | true =>
                  rw [hbreak] at ran
                  cases ran
                  exact .broken trip adv
              | false =>
                  rw [hbreak] at ran
                  exact .next trip adv (ih ran)

/-- What the tripwire, the attempts and the end of a run keep, the run keeps. The list is that of
the states in which instructions were attempted. -/
theorem runLoop_invariant {I : σ → Machine → List Machine → Prop}
    (trip : ∀ s m past, I s m past → I (tripwire s m).2.1 (tripwire s m).2.2 past)
    (attempt : ∀ s m past, I s m past → I s m.advance.2 (past ++ [m]))
    (stop : ∀ s m past pause, I s m past → I s { m with running := false, pause } past)
    {past : List Machine} (start : I s m past) (ran : runLoop tripwire s m fuel = some r) :
    I r.state r.machine (past ++ attempts tripwire s m fuel) := by
  -- one round: the tripwire, and then the attempt if the run goes on
  have hattempt {s t : σ} {m n k : Machine} {result : Except Halt Unit} {past : List Machine}
      (start : I s m past) (htrip : tripwire s m = (true, t, n)) (adv : n.advance = (result, k)) :
      I t k (past ++ [n]) := by
    have hkeep := trip s m past start
    rw [htrip] at hkeep
    have hnext := attempt t n past hkeep
    rwa [adv] at hnext
  replace ran := ran_of_runLoop ran
  generalize attempts tripwire s m fuel = later at ran ⊢
  induction ran generalizing past with
  | stopped =>
      rw [List.append_nil]
      exact stop _ _ past _ start
  | @tripped s t m n htrip =>
      have hkeep := trip s m past start
      rw [htrip] at hkeep
      rw [List.append_nil]
      exact stop t n past _ hkeep
  | completed htrip adv => exact stop _ _ _ _ (hattempt start htrip adv)
  | @faulted s t m n k cause htrip adv => exact stop t k _ k.pause (hattempt start htrip adv)
  | broken htrip adv => exact stop _ _ _ _ (hattempt start htrip adv)
  | @next s t m n k later r htrip adv _ ih =>
      have hrest := ih (hattempt start htrip adv)
      rwa [List.append_assoc] at hrest

/-- A run that ends in a fault ends in that of its last attempt. -/
theorem runLoop_fault {f : Fault} (ran : runLoop tripwire s m fuel = some r)
    (failed : r.outcome = .error f) :
    ∃ before cause after, (attempts tripwire s m fuel).getLast? = some before ∧
      before.advance = (.error (.fault cause), after) ∧ f = after.faultOf cause ∧
      r.machine = { after with running := false } := by
  replace ran := ran_of_runLoop ran
  generalize attempts tripwire s m fuel = later at ran ⊢
  induction ran with
  | stopped => cases failed
  | tripped => cases failed
  | completed => cases failed
  | broken => cases failed
  | @faulted s t m n k cause htrip adv =>
      cases failed
      exact ⟨n, cause, k, rfl, adv, rfl, rfl⟩
  | next htrip adv _ ih =>
      obtain ⟨before, cause, after, hlast, h⟩ := ih failed
      refine ⟨before, cause, after, ?_, h⟩
      rw [List.getLast?_cons, hlast, Option.getD_some]

end Runs

end MipsLab.Machine
