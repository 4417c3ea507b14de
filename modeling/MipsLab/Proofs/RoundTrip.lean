import MipsLab.Proofs.Rewind

set_option autoImplicit false

/-!
# Stepping back undoes what was executed

However instructions were executed, by single steps, by runs with a limit or by runs with a tripwire,
going back as many steps leads to the state before, as long as the history has room for them.
-/

namespace MipsLab.Machine

/-! ## Operations -/

/-- The machine is run forwards from one state to another. The instructions executed are listed by
their addresses. A tripwire may look at the machine and change what the owner of the machine can
change at any time without touching its state, and so may the owner between runs. -/
inductive Forward : Machine → List Word → Machine → Prop
  | step (m : Machine) : Forward m (executedPcs [m.beginStep]) m.step.2
  | runWhile {σ : Type} {tripwire : Tripwire σ} {s : σ} {m : Machine} {fuel : Nat} {r : RunResult σ}
      (passive : ∀ t n, SameState n (tripwire t n).2.2)
      (ran : runWhile tripwire s m fuel = some r) :
      Forward m (executedPcs (attemptsWhile tripwire s m fuel)) r.machine
  | simulate {limit : Option Count} {m n : Machine} {fuel : Nat} {outcome : Except Fault Bool}
      (ran : m.simulate limit fuel = some (outcome, n)) :
      Forward m (executedPcs (attemptsWhile (limitTripwire limit m.executed) () m fuel)) n
  | aside {m n : Machine} (same : SameState m n) : Forward m [] n

/-- Any mix of operations that run the machine forwards. -/
inductive Executes : Machine → List Word → Machine → Prop
  | refl (m : Machine) : Executes m [] m
  | append {m n k : Machine} {pcs later : List Word} (h : Executes m pcs n)
      (next : Forward n later k) : Executes m (pcs ++ later) k

/-- Any mix of operations that run the machine forwards or backwards. The number is that of all
instructions executed on the way, those that were undone included. -/
inductive Session (start : Machine) : Nat → Machine → Prop
  | refl : Session start 0 start
  | forward {k : Nat} {m n : Machine} {pcs : List Word} (h : Session start k m)
      (next : Forward m pcs n) : Session start (k + pcs.length) n
  | stepBack {k : Nat} {m : Machine} (h : Session start k m) : Session start k m.stepBack.2

section Invariant

variable {I : List Word → Machine → Prop}
  (same : ∀ {pcs m n}, SameState m n → I pcs m → I pcs n)
  (attempt : ∀ {pcs m}, I pcs m → I (pcs ++ executedPcs [m]) m.advance.2)
include same attempt

/-- What attempts keep, and what depends on the state of the machine only, is kept by runs whose
tripwire leaves the state alone. -/
theorem runWhile_invariant {σ : Type} {tripwire : Tripwire σ} {s : σ} {m : Machine} {fuel : Nat}
    {r : RunResult σ} (passive : ∀ t n, SameState n (tripwire t n).2.2)
    (ran : Machine.runWhile tripwire s m fuel = some r) {pcs : List Word} (hm : I pcs m) :
    I (pcs ++ executedPcs (attemptsWhile tripwire s m fuel)) r.machine := by
  have start : I (pcs ++ executedPcs []) { m with running := true }.beginRun := by
    rw [show executedPcs [] = [] from rfl, List.append_nil]
    have hbegin : SameState m { m with running := true }.beginRun :=
      ⟨rfl, rfl, rfl, rfl, rfl, rfl, rfl, rfl⟩
    exact same hbegin hm
  refine runLoop_invariant (I := fun _ n past => I (pcs ++ executedPcs past) n) ?_ ?_ ?_ start ran
  · exact fun t n past h => same (passive t n) h
  · intro t n past h
    rw [executedPcs_append, ← List.append_assoc]
    exact attempt h
  · intro t n past pause h
    have hstop : SameState n { n with running := false, pause } :=
      ⟨rfl, rfl, rfl, rfl, rfl, rfl, rfl, rfl⟩
    exact same hstop h

/-- The same is kept by running the machine forwards in any way. -/
theorem Forward.invariant {m n : Machine} {later : List Word} (h : Forward m later n)
    (pcs : List Word) (hm : I pcs m) : I (pcs ++ later) n := by
  cases h with
  | step =>
      have hbegin : SameState m m.beginStep := ⟨rfl, rfl, rfl, rfl, rfl, rfl, rfl, rfl⟩
      have hstep := attempt (same hbegin hm)
      unfold Machine.step
      split
      case h_1 hadv => rwa [hadv] at hstep
      case h_2 n hadv =>
        rw [hadv] at hstep
        have hend : SameState n { n with pause := .completed } :=
          ⟨rfl, rfl, rfl, rfl, rfl, rfl, rfl, rfl⟩
        exact same hend hstep
      case h_3 hadv => rwa [hadv] at hstep
  | runWhile passive ran => exact runWhile_invariant (I := I) same attempt passive ran hm
  -- a run with a limit is a run with a tripwire that only counts
  | simulate ran =>
      rw [simulate_eq, Option.map_eq_some_iff] at ran
      obtain ⟨r, ran, hr⟩ := ran
      obtain ⟨-, rfl⟩ := Prod.mk.inj hr
      exact runWhile_invariant (I := I) same attempt (fun _ n => SameState.refl n) ran hm
  | aside hsame =>
      rw [List.append_nil]
      exact same hsame hm

end Invariant

/-! ## The round trip -/

theorem Recorded.hasRecords {limit : Nat} {us : List UndoRecord} {m n : Machine}
    (hm : m.HasRecords limit us) (h : Recorded limit us m n) : ∃ vs, n.HasRecords limit vs := by
  cases h with
  | executed u _ _ _ records => exact ⟨_, records⟩
  | unchanged same => exact ⟨us, same.hasRecords hm⟩
  | ended _ same => exact ⟨us, same.hasRecords hm⟩

theorem hasRecords_stepBack {limit : Nat} {us : List UndoRecord} {m : Machine}
    (hm : m.HasRecords limit us) : ∃ vs, m.stepBack.2.HasRecords limit vs := by
  cases us with
  | nil =>
      obtain ⟨h, hh, -, hrecords, -⟩ := id hm
      refine ⟨[], ?_⟩
      unfold stepBack
      rw [hh]
      dsimp only
      rw [History.pop?_of_records_eq_nil hrecords]
      exact hm
  | cons u us =>
      obtain ⟨n, hn, hrecords, -⟩ := stepBack_of_hasRecords hm
      exact ⟨us, by rwa [hn]⟩

/-- The history of a loaded machine keeps its limit. -/
theorem Session.hasRecords {m n : Machine} {p : AssembledProgram} {k : Nat}
    (kept : m.options.keepsHistory = true) (h : Session (m.load p) k n) :
    ∃ us, n.HasRecords m.options.historyLimit us := by
  induction h with
  | refl =>
      refine ⟨[], .empty m.options.historyLimit, ?_, rfl, rfl, rfl⟩
      unfold load
      dsimp only
      rw [if_pos kept]
  | forward _ next ih =>
      -- which records there are does not matter here, only that some are kept under the limit
      let I : List Word → Machine → Prop := fun _ n => ∃ us, n.HasRecords m.options.historyLimit us
      refine next.invariant (I := I) ?_ ?_ [] ih
      · rintro _ _ _ same ⟨us, hus⟩
        exact ⟨us, same.hasRecords hus⟩
      · rintro _ k ⟨us, hus⟩
        exact (recorded_advance hus).hasRecords hus
  | stepBack _ ih =>
      obtain ⟨us, hus⟩ := ih
      exact hasRecords_stepBack hus

theorem Executes.rewinds {limit : Nat} {us : List UndoRecord} {m n : Machine} {pcs : List Word}
    (hm : m.HasRecords limit us) (going : m.exitCode = none) (h : Executes m pcs n) :
    Rewinds limit m pcs n := by
  induction h with
  | refl => exact .refl hm going
  | append _ next ih =>
      exact next.invariant (I := Rewinds limit m) (fun same h => h.of_sameState same)
        (fun h => h.attempt) _ ih

/-- **As many steps back as instructions were executed undo them, newest first**, whatever the
machine did since the program was loaded and in whatever way the instructions were executed. The
state afterwards is the one they were executed from, also if the execution ended in a fault, an
exit or past the end of the code. There are two exceptions. At a state at which the code ends already,
an attempt executes nothing but ends the program, and no step back takes that back. And the number of
instructions executed comes round to zero after 2 ^ 64 of them, but going back it stops at zero. -/
theorem stepsBack_of_executes {m s e : Machine} {p : AssembledProgram} {pcs : List Word} {k : Nat}
    (kept : m.options.keepsHistory = true) (session : Session (m.load p) k s)
    (going : s.exitCode = none) (ran : Executes s pcs e)
    (within : pcs.length ≤ m.options.historyLimit) :
    ∃ r, stepsBack pcs.length e = (pcs.reverse.map .undone, r) ∧ r.registers = s.registers ∧
      r.memory.image = s.memory.image ∧ r.pc = s.pc ∧
      r.executed = (if s.executed.toNat + pcs.length < 2 ^ 64 then s.executed else 0) ∧
      (r.exitCode = none ∨ pcs = [] ∧ r.exitCode = some 0 ∧ s.PastCode) := by
  obtain ⟨us, hus⟩ := session.hasRecords kept
  obtain ⟨r, hr, hsnapshot, hexecuted, hexit⟩ := (ran.rewinds hus going).stepsBack_eq within
  refine ⟨r, hr, ?_, ?_, ?_, hexecuted, hexit⟩
  · exact congrArg Snapshot.registers hsnapshot
  · exact congrArg Snapshot.image hsnapshot
  · exact congrArg Snapshot.pc hsnapshot

/-- A program that overwrites its own code and then exits. -/
def selfModifying : AssembledProgram where
  code := [
    ⟨⟨⟨"a.s", 1, "lui $t0, 0x40"⟩, []⟩, 0x00400000, .lui ⟨8⟩ 0x40⟩,
    ⟨⟨⟨"a.s", 2, "sw $t0, 0($t0)"⟩, []⟩, 0x00400004, .store .sw ⟨8⟩ ⟨8⟩ 0⟩,
    ⟨⟨⟨"a.s", 3, "li $v0, 10"⟩, []⟩, 0x00400008, .aluImm .addiu .v0 .zero 10⟩,
    ⟨⟨⟨"a.s", 4, "syscall"⟩, []⟩, 0x0040000C, .syscall⟩]
  data := []
  globals := .empty "(global)"
  locals := [.empty "a.s"]
  warnings := []
  layout := {}

/-- The first instruction is executed, undone and executed again. The history then has just enough
room for the rest of the run. -/
theorem stepsBack_of_executes_selfModifying :
    let s := ((Machine.initial { historyLimit := 3 }).load selfModifying).step.2.stepBack.2.step.2
    ∃ e r, Executes s [0x00400004, 0x00400008, 0x0040000C] e ∧ e.exitCode = some 0 ∧
      stepsBack 3 e = ([.undone 0x0040000C, .undone 0x00400008, .undone 0x00400004], r) ∧
      r.registers = s.registers ∧ r.memory.image = s.memory.image ∧ r.pc = s.pc ∧
      r.executed = s.executed ∧ r.exitCode = none := by
  intro s
  have going : s.exitCode = none := by decide +kernel
  have hsim : (s.simulate none 4).map (fun r => r.2.exitCode) = some (some 0) := by decide +kernel
  have hpcs : executedPcs (attemptsWhile (limitTripwire none s.executed) () s 4) =
      [0x00400004, 0x00400008, 0x0040000C] := by decide +kernel
  obtain ⟨⟨o, e⟩, hsim, hexit⟩ := Option.map_eq_some_iff.mp hsim
  have ran := (Executes.refl s).append (.simulate hsim)
  rw [hpcs] at ran
  have session : Session ((Machine.initial { historyLimit := 3 }).load selfModifying) _ s :=
    ((Session.refl.forward (.step _)).stepBack).forward (.step _)
  have hcount : s.executed.toNat + 3 < 2 ^ 64 := by decide +kernel
  obtain ⟨r, hr, hregisters, himage, hpc, hexecuted, hcode⟩ :=
    stepsBack_of_executes rfl session going ran (by decide)
  refine ⟨e, r, ran, hexit, hr, hregisters, himage, hpc, hexecuted.trans (if_pos hcount), ?_⟩
  rcases hcode with hcode | ⟨hnil, -⟩
  · exact hcode
  · cases hnil

/-! ## A loop that is never left -/

/-- The machine is about to execute a jump to itself. -/
structure Looping (m : Machine) : Prop where
  going : m.exitCode = none
  here : m.AtCode
  decoded : Instr.decode? m.nextWord = some (.jump false 0x00100000)
  pc : m.pc = 0x00400000

/-- An attempt to execute a jump to itself does nothing but count. -/
theorem advance_of_looping {m : Machine} (h : m.Looping) :
    m.advance.2.executed = m.executed + 1 ∧ m.advance.2.Looping := by
  let k := (m.touched m.pc 4).started
  have hrun : (execute m.pc (.jump false 0x00100000)).run.run k =
      (.ok (((m.pc + 4) &&& 0xF0000000#32) ||| BitVec.ofNat 32 (0x00100000 * 4)), k) := rfl
  have htarget : ((m.pc + 4) &&& 0xF0000000#32) ||| BitVec.ofNat 32 (0x00100000 * 4) = m.pc := by
    rw [h.pc]
    decide
  have hadvance : m.advance = (.ok (), { k with pc := m.pc }.commit) := by
    rw [advance_eq_perform h.going h.here h.decoded]
    have hperformed := performed_perform (m.touched m.pc 4) (.jump false 0x00100000)
    generalize (m.touched m.pc 4).perform (.jump false 0x00100000) = out at hperformed ⊢
    cases hperformed with
    | next ran =>
        obtain ⟨hnext, rfl⟩ := Prod.mk.inj (ran.symm.trans hrun)
        rw [Except.ok.inj hnext, htarget]
    | exit ran => cases ran.symm.trans hrun
    | fault ran => cases ran.symm.trans hrun
  rw [hadvance]
  refine ⟨rfl, h.going, h.here, ?_, h.pc⟩
  have hword : ({ k with pc := m.pc }.commit).nextWord = m.nextWord := by
    show Image.word (m.touched m.pc 4).memory.image m.pc = Image.word m.memory.image m.pc
    rw [image_touched]
  rw [hword, h.decoded]

theorem executedPcs_of_looping {m : Machine} (h : m.Looping) :
    executedPcs [m.beginStep] = [0x00400000] := by
  have hbegin : m.beginStep.Looping := ⟨h.going, h.here, h.decoded, h.pc⟩
  rw [executedPcs_of_succ (advance_of_looping hbegin).1]
  exact congrArg (fun pc => [pc]) h.pc

/-- A step of the loop counts as well. -/
theorem step_of_looping {m : Machine} (h : m.Looping) :
    m.step.2.executed = m.executed + 1 ∧ m.step.2.Looping := by
  have hbegin : m.beginStep.Looping := ⟨h.going, h.here, h.decoded, h.pc⟩
  obtain ⟨hcount, hlooping⟩ := advance_of_looping hbegin
  unfold step
  split
  case h_1 hadv =>
    rw [hadv] at hcount hlooping
    exact ⟨hcount, hlooping⟩
  case h_2 hadv =>
    rw [hadv] at hcount hlooping
    exact ⟨hcount, hlooping.going, hlooping.here, hlooping.decoded, hlooping.pc⟩
  case h_3 hadv =>
    rw [hadv] at hcount hlooping
    exact ⟨hcount, hlooping⟩

/-- In the loop any number of instructions can be executed. -/
theorem exists_session_of_looping {m : Machine} (h : m.Looping) (k : Nat) :
    ∃ s, Session m k s ∧ s.executed = m.executed + BitVec.ofNat 64 k ∧ s.Looping := by
  induction k with
  | zero => exact ⟨m, .refl, (BitVec.add_zero _).symm, h⟩
  | succ k ih =>
      obtain ⟨s, session, hexecuted, hlooping⟩ := ih
      obtain ⟨hcount, hnext⟩ := step_of_looping hlooping
      have hsession := session.forward (.step s)
      rw [executedPcs_of_looping hlooping] at hsession
      refine ⟨s.step.2, hsession, ?_, hnext⟩
      rw [hcount, hexecuted, Count.ofNat_succ, BitVec.add_assoc]

/-! ## What steps back do not restore -/

/-- Where the code ends, an attempt executes nothing and ends the program: it is still ended after no
step back. And when all 2 ^ 64 - 1 instructions that can be counted were executed, one more and a step
back leave none of them. -/
theorem stepsBack_exceptions :
    (∃ p, assembled? "nop" = some p ∧
      let s := ((Machine.initial {}).load p).step.2
      Session ((Machine.initial {}).load p) 1 s ∧ s.exitCode = none ∧ Executes s [] s.step.2 ∧
        (stepsBack 0 s.step.2).2.exitCode = some 0) ∧
    ∃ p s, assembled? "loop: j loop" = some p ∧
      Session ((Machine.initial {}).load p) (2 ^ 64 - 1) s ∧ s.exitCode = none ∧
        Executes s [0x00400000] s.step.2 ∧ s.executed ≠ 0 ∧
        (stepsBack 1 s.step.2).2.executed = 0 := by
  constructor
  · let s := fun p => ((Machine.initial {}).load p).step.2
    have hrun : (assembled? "nop").map (fun p => (executedPcs [((Machine.initial {}).load p).beginStep],
        (s p).exitCode, executedPcs [(s p).beginStep], (stepsBack 0 (s p).step.2).2.exitCode)) =
          some ([0x00400000], none, [], some 0) := by decide +kernel
    obtain ⟨p, hp, hrun⟩ := Option.map_eq_some_iff.mp hrun
    obtain ⟨hfirst, going, hpcs, hexit⟩ : _ ∧ _ ∧ _ ∧ _ := by simpa only [Prod.mk.injEq] using hrun
    have session := Session.refl.forward (.step ((Machine.initial {}).load p))
    have ran := (Executes.refl (s p)).append (.step (s p))
    rw [hfirst] at session
    rw [hpcs] at ran
    exact ⟨p, hp, session, going, ran, hexit⟩
  · let m := fun p => (Machine.initial {}).load p
    have hrun : (assembled? "loop: j loop").map (fun p => ((m p).code.map (·.contains (m p).pc.toNat),
        (m p).layout.inText (m p).pc, (m p).pc, Instr.decode? (m p).nextWord)) =
          some (some true, true, 0x00400000, some (.jump false 0x00100000)) := by decide +kernel
    obtain ⟨p, hp, hrun⟩ := Option.map_eq_some_iff.mp hrun
    obtain ⟨hcode, htext, hpc, hdecoded⟩ : _ ∧ _ ∧ _ ∧ _ := by simpa only [Prod.mk.injEq] using hrun
    have here : (m p).AtCode := ⟨⟨by rw [hpc]; decide, htext⟩, Option.map_eq_some_iff.mp hcode⟩
    have hlooping : (m p).Looping := ⟨rfl, here, hdecoded, hpc⟩
    obtain ⟨s, session, hexecuted, hloop⟩ := exists_session_of_looping hlooping (2 ^ 64 - 1)
    have hcount : s.executed = BitVec.ofNat 64 (2 ^ 64 - 1) := hexecuted.trans (BitVec.zero_add _)
    have ran := (Executes.refl s).append (.step s)
    rw [executedPcs_of_looping hloop, List.nil_append] at ran
    have kept : (Machine.initial {}).options.keepsHistory = true := rfl
    obtain ⟨us, hus⟩ := session.hasRecords kept
    obtain ⟨r, hr, -, hback, -⟩ := (ran.rewinds hus hloop.going).stepsBack_eq (by decide)
    refine ⟨p, s, hp, session, hloop.going, ran, ?_, ?_⟩
    · rw [hcount]
      decide
    · rw [hcount, if_neg (by decide)] at hback
      have hone : stepsBack 1 s.step.2 = (_, r) := hr
      rw [hone]
      exact hback

end MipsLab.Machine
