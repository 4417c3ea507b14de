import MipsLab.Proofs.FreeRun

set_option autoImplicit false

/-!
# Runs that report

A reporting run is a run with a limit whose tripwire also notes which instruction is about to be
executed, so it ends in the same machine (`simulateReporting_eq`). Unless it is asked to stop, the event
that it ends its report with tells the outcome (`Announced`), and the events before are one for each
attempt to execute an instruction, at the addresses that single steps would go through
(`simulateReporting_follows_simulate`).
-/

namespace MipsLab

/-! ## Consoles that leave runs alone -/

namespace Console

/-- The console never clears the run control, whatever it is asked for from now on while it is set. -/
def NeverStops : Console → Prop
  | .custom behaviour asked =>
    ∀ request later, (∀ a ∈ later, a.running = true) →
      behaviour.running (⟨request, true⟩ :: (later ++ asked)) = true
  | _ => True

/-- The answer leaves the run control set, and so will all others. -/
def StaysRunning {α : Type} (r : Answered α) : Prop := r.running = true ∧ NeverStops r.console

theorem NeverStops.asked {behaviour : Behaviour} {asked : List Asked}
    (h : NeverStops (.custom behaviour asked)) (request : Request) :
    NeverStops (.custom behaviour (⟨request, true⟩ :: asked)) := by
  intro next later hlater
  have hnext := h next (later ++ [⟨request, true⟩]) (List.forall_mem_append.mpr ⟨hlater, by simp⟩)
  rwa [List.append_assoc] at hnext

theorem staysRunning_readByte {c : Console} (h : NeverStops c) : StaysRunning (c.readByte true) := by
  cases c with
  | custom behaviour asked => exact ⟨h .byte [] nofun, h.asked .byte⟩
  | _ => exact ⟨rfl, trivial⟩

theorem staysRunning_print {c : Console} (h : NeverStops c) (bytes : List Byte) :
    StaysRunning (c.print true bytes) := by
  cases c with
  | custom behaviour asked => exact ⟨h (.print bytes) [] nofun, h.asked (.print bytes)⟩
  | _ => exact ⟨rfl, trivial⟩

theorem staysRunning_lineFrom {before : List Byte} {c : Console} {turns : Nat}
    {r : Answered (Option (List Byte))} (h : NeverStops c)
    (line : c.lineFrom before true turns = some r) : StaysRunning r := by
  induction turns generalizing before c with
  | zero => cases line
  | succ turns ih =>
      obtain ⟨hrunning, hquiet⟩ := staysRunning_readByte h
      unfold lineFrom at line
      dsimp only at line
      split at line
      case h_1 b _ =>
        split at line
        · cases line
          exact ⟨hrunning, hquiet⟩
        · rw [hrunning] at line
          exact ih hquiet line
      case h_2 =>
        cases line
        exact ⟨hrunning, hquiet⟩

theorem staysRunning_readLine {c : Console} (h : NeverStops c) : StaysRunning (c.readLine true) := by
  unfold readLine
  cases line : c.lineFrom [] true (c.turns true) with
  | none => exact ⟨rfl, h⟩
  | some r => exact staysRunning_lineFrom h line

end Console

namespace Machine

/-! ## The report of a run -/

/-- The events of attempts to execute the instructions at some addresses. -/
def stepEvents (notify : Bool) (pcs : List Word) : List RunEvent :=
  if notify then pcs.map .step else []

theorem stepEvents_cons (notify : Bool) (pc : Word) (pcs : List Word) :
    stepEvents notify (pc :: pcs) = stepEvents notify [pc] ++ stepEvents notify pcs := by
  cases notify <;> rfl

theorem reportStep_eq (limit : Option Count) (start : Count) (notify : Bool) (events : List RunEvent)
    (m : Machine) :
    reportStep limit start notify events m =
      (isWithin limit start m,
        if isWithin limit start m then (stepEvents notify [m.pc]).reverse ++ events else events, m) := by
  unfold reportStep
  cases isWithin limit start m <;> cases notify <;> rfl

/-- A run under way goes on in the same way whether or not it reports. -/
theorem runLoop_reportStep (limit : Option Count) (start : Count) (notify : Bool)
    (events : List RunEvent) (m : Machine) (fuel : Nat) :
    runLoop (reportStep limit start notify) events m fuel =
      (runLoop (limitTripwire limit start) () m fuel).map fun r =>
        ⟨r.outcome,
          (stepEvents notify
            ((attempts (limitTripwire limit start) () m fuel).map (·.pc))).reverse ++ events,
          r.machine⟩ := by
  induction fuel generalizing events m with
  | zero => rfl
  | succ fuel ih =>
      have hnone : stepEvents notify [] = [] := by cases notify <;> rfl
      have htrip : limitTripwire limit start () m = (isWithin limit start m, (), m) := rfl
      unfold runLoop attempts
      rw [reportStep_eq, htrip]
      cases hrunning : m.running with
      | false => simp [hnone, pauseRun]
      | true =>
          cases hwithin : isWithin limit start m with
          | false => simp [hnone, pauseRun]
          | true =>
              rcases adv : m.advance with ⟨(code | cause) | ⟨⟩, n⟩
              · simp [adv, pauseRun]
              · simp [adv, faultRun]
              · -- only this case goes on, with the event of the attempt in front
                cases hbreak : n.meetsBreakpoint with
                | true => simp [adv, hbreak, pauseRun]
                | false =>
                    simp only [adv, hbreak, Bool.not_true, Bool.false_eq_true, if_false, if_true, ih]
                    rw [List.map_cons, stepEvents_cons notify m.pc (List.map _ _),
                      List.reverse_append, List.append_assoc]

/-- **A reporting run is a run with a limit**, and its report lists the attempts of that run. -/
theorem simulateReporting_eq (bs : List Breakpoint) (limit : Option Count) (notify : Bool)
    (m : Machine) (fuel : Nat) :
    m.simulateReporting bs limit notify fuel =
      (runWhile (limitTripwire limit m.executed) () (m.addBreakpoints bs) fuel).map fun r =>
        ⟨stepEvents notify
            ((attemptsWhile (limitTripwire limit m.executed) () (m.addBreakpoints bs) fuel).map
              (·.pc)) ++ [finalEvent r.outcome r.machine],
          r.outcome.map fun _ => r.machine.isCompleted, r.machine⟩ := by
  unfold simulateReporting runWhile
  rw [runLoop_reportStep, Option.map_map]
  congr 1
  funext r
  simp [attemptsWhile]

/-! ## Runs that nobody asks to stop -/

/-- The program has not ended, nobody has asked the run to stop, and the console never does. -/
structure Going (m : Machine) : Prop where
  exitCode : m.exitCode = none
  running : m.running = true
  quiet : m.console.NeverStops

theorem going_observed {m : Machine} (h : m.Going) (l : Location) (a : Access) :
    (m.observed l a).Going := ⟨h.exitCode, h.running, h.quiet⟩

theorem going_answered {m : Machine} (h : m.Going) {α : Type} (request : Console → Bool → Answered α)
    (stays : Console.StaysRunning (request m.console true)) :
    (m.answered (request m.console m.running)).Going := by
  rw [h.running]
  exact ⟨h.exitCode, stays.1, stays.2⟩

/-- No access ends the program or asks the run to stop. -/
theorem keeps_going {inputs : Prop} {α : Type} {x : Exec α} (hx : Accessing inputs x) :
    Keeps Going x := by
  induction hx with
  | pure a => exact .pure a
  | throw e => exact .throw e
  | bind _ _ ihx ihf => exact .bind ihx ihf
  | readRegister r => exact fun m h => going_observed h _ _
  | writeRegister r value =>
      intro m h
      rw [run_writeRegister_eq]
      unfold wrote
      split
      · exact h
      · exact ⟨h.exitCode, h.running, h.quiet⟩
  | readMemory a width =>
      intro m h
      rw [run_readMemory]
      split
      · exact ⟨h.exitCode, h.running, h.quiet⟩
      · exact h
  | writeMemory a width value =>
      intro m h
      rw [run_writeMemory]
      split
      · exact ⟨h.exitCode, h.running, h.quiet⟩
      · exact h
  | print bytes =>
      exact fun m h => going_answered h (fun c running => c.print running bytes)
        (Console.staysRunning_print h.quiet bytes)
  | inputByte =>
      exact fun m h => going_answered h Console.readByte (Console.staysRunning_readByte h.quiet)
  | inputLine =>
      exact fun m h => going_answered h Console.readLine (Console.staysRunning_readLine h.quiet)

theorem keeps_going_execute (pc : Word) (i : Instr) : Keeps Going (execute pc i) :=
  keeps_going (.staged (.execute_any pc i))

theorem SameButSnapshot.going {m n : Machine} (same : m.SameButSnapshot n) (h : m.Going) :
    n.Going := by
  obtain ⟨_, _, _, _, rfl⟩ := same
  exact ⟨h.exitCode, h.running, h.quiet⟩

theorem going_rollBack {m : Machine} (h : m.Going) : m.rollBack.Going := by
  have hhistory (k : Option History) : Going { m with history := k } :=
    ⟨h.exitCode, h.running, h.quiet⟩
  unfold rollBack
  split
  · exact h
  · split
    · exact (undo_spec _ _).1.going (hhistory _)
    · exact hhistory _

/-- What an attempt in a machine that is going comes to: it goes on, or the attempt ends the program
or faults. -/
inductive Leads (m : Machine) : Except Halt Unit × Machine → Prop
  | next {n : Machine} (going : n.Going) (count : n.executed = m.executed + 1) : Leads m (.ok (), n)
  | exited {code : Int} {n : Machine} (exit : n.exitCode = some code)
      (count : n.executed = m.executed + 1) : Leads m (.error (.exit code), n)
  | fellOff {n : Machine} (exit : n.exitCode = some 0) (past : n.PastCode)
      (count : n.executed = m.executed) : Leads m (.error (.exit 0), n)
  | faulted {cause : FaultCause} {n : Machine} (going : n.Going) (count : n.executed = m.executed) :
      Leads m (.error (.fault cause), n)

theorem leads_perform {m : Machine} (h : m.Going) (i : Instr) : Leads m (m.perform i) := by
  have hstarted : m.started.Going := ⟨h.exitCode, h.running, h.quiet⟩
  have hgoing := keeps_going_execute m.pc i m.started hstarted
  have hcount := (stable_executed m.executed).execute m.pc i m.started rfl
  have hout := performed_perform m i
  generalize m.perform i = out at hout ⊢
  cases hout with
  | next ran =>
      rw [ran] at hgoing hcount
      exact .next ⟨hgoing.exitCode, hgoing.running, hgoing.quiet⟩ (congrArg (· + 1) hcount)
  | exit ran =>
      rw [ran] at hcount
      exact .exited rfl (congrArg (· + 1) hcount)
  | fault ran =>
      rw [ran] at hgoing hcount
      exact .faulted (going_rollBack hgoing) ((executed_rollBack _).trans hcount)

theorem leads_advance {m : Machine} (h : m.Going) : Leads m m.advance := by
  have hout := attempt_advance m
  generalize m.advance = out at hout ⊢
  cases hout with
  | exited done =>
      rw [h.exitCode] at done
      cases done
  | notLoaded => exact .faulted h rfl
  | invalidFetch => exact .faulted h rfl
  | pastCode _ past => exact .fellOff rfl past rfl
  | illegal => exact .faulted ⟨h.exitCode, h.running, h.quiet⟩ rfl
  | @performed i =>
      have htouched : (m.touched m.pc 4).Going := ⟨h.exitCode, h.running, h.quiet⟩
      have hleads := leads_perform htouched i
      generalize (m.touched m.pc 4).perform i = out at hleads ⊢
      cases hleads with
      | next going count => exact .next going count
      | exited exit count => exact .exited exit count
      | fellOff exit past count => exact .fellOff exit past count
      | faulted going count => exact .faulted going count

/-! ## What is announced -/

/-- The outcome of a run and its last event, if `k` instructions were attempted since `executed` had
been executed and the machine is `n` in the end. All of them were executed, or all but the last
one. -/
inductive Announced (executed : Count) (k : Nat) (n : Machine) : Except Fault Bool → RunEvent → Prop
  | paused (going : n.exitCode = none) (count : n.executed = executed + BitVec.ofNat 64 k) :
      Announced executed k n (.ok false) (.paused n.pc)
  | exited {code : Int} (exit : n.exitCode = some code) (count : n.executed = executed + BitVec.ofNat 64 k) :
      Announced executed k n (.ok true) (.completed code)
  | fellOff (exit : n.exitCode = some 0) (past : n.PastCode)
      (count : n.executed + 1 = executed + BitVec.ofNat 64 k) :
      Announced executed k n (.ok true) (.completed 0)
  | faulted {f : Fault} (going : n.exitCode = none) (count : n.executed + 1 = executed + BitVec.ofNat 64 k) :
      Announced executed k n (.error f) (.faulted f)

namespace Announced

variable {executed : Count} {k : Nat} {m n : Machine} {outcome : Except Fault Bool} {e : RunEvent}

/-- An attempt that executes an instruction is one more attempt. -/
theorem earlier (h : Announced (executed + 1) k n outcome e) :
    Announced executed (k + 1) n outcome e := by
  have hcount : executed + 1 + BitVec.ofNat 64 k = executed + BitVec.ofNat 64 (k + 1) := by
    rw [Count.ofNat_succ, BitVec.add_assoc, BitVec.add_comm 1]
  cases h with
  | paused going count => exact .paused going (count.trans hcount)
  | exited exit count => exact .exited exit (count.trans hcount)
  | fellOff exit past count => exact .fellOff exit past (count.trans hcount)
  | faulted going count => exact .faulted going (count.trans hcount)

/-- The end of a run that a limit or a breakpoint pauses. -/
theorem of_pauseRun {pause : Pause} (h : m.Going) (count : m.executed = executed + BitVec.ofNat 64 k)
    (silent : pause = .tripwire ∨ pause = .breakpoint) :
    Announced executed k (pauseRun pause () m).machine
      (.ok (pauseRun pause () m).machine.isCompleted)
      (finalEvent (.ok ()) (pauseRun pause () m).machine) := by
  have houtcome : (pauseRun pause () m).machine.isCompleted = false := congrArg Option.isSome h.exitCode
  have hevent : finalEvent (.ok ()) (pauseRun pause () m).machine = .paused m.pc := by
    rcases silent with rfl | rfl <;> rfl
  rw [houtcome, hevent]
  exact .paused h.exitCode count

/-- The end of a run that ends the program. -/
theorem of_exit {code : Int} (exit : m.exitCode = some code)
    (h : Announced executed k m (.ok true) (.completed code)) :
    Announced executed k (pauseRun .completed () m).machine
      (.ok (pauseRun .completed () m).machine.isCompleted)
      (finalEvent (.ok ()) (pauseRun .completed () m).machine) := by
  have houtcome : (pauseRun .completed () m).machine.isCompleted = true := congrArg Option.isSome exit
  have hevent : finalEvent (.ok ()) (pauseRun .completed () m).machine = .completed code :=
    congrArg (fun c : Option Int => RunEvent.completed (c.getD 0)) exit
  rw [houtcome, hevent]
  cases h with
  | exited exit count => exact .exited exit count
  | fellOff exit past count => exact .fellOff exit past count

end Announced

variable {limit : Option Count} {start : Count} {u : Unit} {m s : Machine} {later : List Machine}
  {r : RunResult Unit}

/-- A limit changes nothing. -/
theorem eq_of_limitTripwire {b : Bool} {t : Unit} {n : Machine}
    (trip : limitTripwire limit start u m = (b, t, n)) : n = m :=
  (congrArg (·.2.2) trip).symm

/-- What an attempt within a limit comes to. -/
theorem leads_of_limitTripwire {b : Bool} {t : Unit} {n : Machine} {out : Except Halt Unit × Machine}
    (h : m.Going) (trip : limitTripwire limit start u m = (b, t, n)) (adv : n.advance = out) :
    n = m ∧ Leads m out := by
  obtain rfl := eq_of_limitTripwire trip
  exact ⟨rfl, adv ▸ leads_advance h⟩

/-- A run that nobody asks to stop announces its outcome. -/
theorem announced_of_ran (ran : Ran (limitTripwire limit start) u m later r) (h : m.Going) :
    Announced m.executed later.length r.machine (r.outcome.map fun _ => r.machine.isCompleted)
      (finalEvent r.outcome r.machine) := by
  -- by induction on the run: each attempt but the last leads to a machine that is going
  induction ran with
  | stopped asked =>
      rw [h.running] at asked
      cases asked
  | tripped trip =>
      obtain rfl := eq_of_limitTripwire trip
      exact .of_pauseRun h (BitVec.add_zero _).symm (.inl rfl)
  | completed trip adv =>
      obtain ⟨rfl, hleads⟩ := leads_of_limitTripwire h trip adv
      cases hleads with
      | exited exit count => exact .of_exit exit (.exited exit count)
      | fellOff exit past count => exact .of_exit exit (.fellOff exit past (congrArg (· + 1) count))
  | faulted trip adv =>
      obtain ⟨rfl, hleads⟩ := leads_of_limitTripwire h trip adv
      cases hleads with
      | faulted going count => exact .faulted going.exitCode (congrArg (· + 1) count)
  | broken trip adv =>
      obtain ⟨rfl, hleads⟩ := leads_of_limitTripwire h trip adv
      cases hleads with
      | next going count => exact .of_pauseRun going count (.inr rfl)
  | next trip adv _ ih =>
      obtain ⟨rfl, hleads⟩ := leads_of_limitTripwire h trip adv
      cases hleads with
      | next going count =>
          have hrest := ih going
          rw [count] at hrest
          exact hrest.earlier

/-- A run attempts instructions where single steps would be made. -/
theorem pcs_of_ran (ran : Ran (limitTripwire limit start) u m later r) (h : Alike m s) :
    later.map (·.pc) = (List.range later.length).map fun i => (afterSteps i s).pc := by
  induction ran generalizing s with
  | stopped => rfl
  | tripped => rfl
  | completed trip | faulted trip | broken trip =>
      obtain rfl := eq_of_limitTripwire trip
      exact congrArg (fun pc : Word => [pc]) h.symm.sameState.pc
  | next trip adv _ ih =>
      obtain rfl := eq_of_limitTripwire trip
      have hstep := h.step.2
      rw [adv] at hstep
      rw [List.map_cons, List.length_cons, List.range_succ_eq_map, List.map_cons, List.map_map,
        ih hstep, h.symm.sameState.pc]
      rfl

/-! ## Reports -/

/-- **A run that reports does what a run with a limit does, and its report tells what that was.** The
last event, and no other, announces the outcome. If asked for, there is an event in front of it for each
attempted instruction, with the address that single steps would have led to. -/
theorem simulateReporting_follows_simulate {m : Machine} (going : m.exitCode = none)
    (quiet : m.console.NeverStops) (bs : List Breakpoint) (limit : Option Count)
    (notify : Bool) :
    (∀ fuel,
        (m.simulateReporting bs limit notify fuel).map (fun r => (r.outcome, r.machine)) =
          (m.addBreakpoints bs).simulate limit fuel) ∧
      ∀ fuel r, m.simulateReporting bs limit notify fuel = some r →
        ∃ k last,
          r.events =
              stepEvents notify
                ((List.range k).map fun i => (afterSteps i (m.addBreakpoints bs).unstopped).pc) ++
                [last] ∧
            Announced m.executed k r.machine r.outcome last := by
  refine ⟨fun fuel => ?_, fun fuel r hr => ?_⟩
  · rw [simulateReporting_eq, simulate_eq, Option.map_map]
    rfl
  · rw [simulateReporting_eq, Option.map_eq_some_iff] at hr
    obtain ⟨result, hrun, rfl⟩ := hr
    let s := (m.addBreakpoints bs).unstopped
    have ran := ran_of_runLoop (m := s.beginRun) hrun
    have hgoing : s.beginRun.Going := ⟨going, rfl, quiet⟩
    have halike : Alike s.beginRun s := ⟨s.observer, s.stepped, s.pause, rfl⟩
    have hlast := announced_of_ran ran hgoing
    refine ⟨_, _, ?_, hlast⟩
    exact congrArg (stepEvents notify · ++ [_]) (pcs_of_ran ran halike)

/-- A loop that starts at a breakpoint reports its two instructions, and then that it is back there. -/
theorem simulateReporting_follows_simulate_countingLoop :
    let m := (Machine.initial {}).load countingLoop
    ∃ r k last, m.simulateReporting [.pc 0x00400000] none true 3 = some r ∧
      r.events = [.step 0x00400000, .step 0x00400004, .paused 0x00400000] ∧
      (m.addBreakpoints [.pc 0x00400000]).simulate none 3 = some (r.outcome, r.machine) ∧
      Announced m.executed k r.machine r.outcome last := by
  intro m
  have hevents : (m.simulateReporting [.pc 0x00400000] none true 3).map (·.events) =
      some [.step 0x00400000, .step 0x00400004, .paused 0x00400000] := by decide +kernel
  obtain ⟨r, hr, hevents⟩ := Option.map_eq_some_iff.mp hevents
  obtain ⟨hsame, hreport⟩ :=
    simulateReporting_follows_simulate (m := m) rfl trivial [.pc 0x00400000] none true
  obtain ⟨k, last, -, h⟩ := hreport 3 r hr
  refine ⟨r, k, last, hr, hevents, ?_, h⟩
  rw [← hsame, hr]
  rfl

end Machine

end MipsLab
