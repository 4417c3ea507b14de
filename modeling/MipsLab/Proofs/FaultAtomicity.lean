import MipsLab.Proofs.Reachable

set_option autoImplicit false

/-!
# Faults leave nothing behind

Undo records are kept only if the machine is asked to keep a history, so it is not by undoing that a
faulting instruction leaves registers and memory alone. Every instruction first looks
(`Looks`), then perhaps fails, and only then writes, and what it does after its first write cannot
fail any more (`NeverFaults`). So no execution that ends in a fault has written anything
(`FaultsQuietly`), its undo record is still empty, and undoing that record does nothing.
-/

namespace MipsLab.Machine

/-! ## Executions that write nothing, and those that cannot fault -/

/-- Two machines have the same registers, bytes of memory, program, history and place in the program.
Their consoles, options, breakpoints and touched pages may differ. -/
structure SameState (m n : Machine) : Prop where
  registers : n.registers = m.registers
  image : n.memory.image = m.memory.image
  pc : n.pc = m.pc
  executed : n.executed = m.executed
  exitCode : n.exitCode = m.exitCode
  history : n.history = m.history
  code : n.code = m.code
  layout : n.layout = m.layout

theorem SameState.refl (m : Machine) : SameState m m := ⟨rfl, rfl, rfl, rfl, rfl, rfl, rfl, rfl⟩

theorem SameState.trans {m n k : Machine} (hmn : SameState m n) (hnk : SameState n k) :
    SameState m k where
  registers := hnk.registers.trans hmn.registers
  image := hnk.image.trans hmn.image
  pc := hnk.pc.trans hmn.pc
  executed := hnk.executed.trans hmn.executed
  exitCode := hnk.exitCode.trans hmn.exitCode
  history := hnk.history.trans hmn.history
  code := hnk.code.trans hmn.code
  layout := hnk.layout.trans hmn.layout

theorem SameState.snapshot {m n : Machine} (h : SameState m n) : n.snapshot = m.snapshot := by
  rw [Machine.snapshot, h.registers, h.image, h.pc]
  rfl

theorem SameState.pastCode {m n : Machine} (h : SameState m n) : n.PastCode ↔ m.PastCode := by
  rw [PastCode, MayFetch, h.pc, h.code, h.layout]
  rfl

/-- Two machines have the same state, and the pages that the first has touched the second has touched
as well. -/
structure Quiet (m n : Machine) : Prop extends SameState m n where
  touched : ∀ a, m.memory.isTouched a = true → n.memory.isTouched a = true

theorem Quiet.refl (m : Machine) : Quiet m m := ⟨SameState.refl m, fun _ h => h⟩

theorem Quiet.trans {m n k : Machine} (hmn : Quiet m n) (hnk : Quiet n k) : Quiet m k :=
  ⟨hmn.toSameState.trans hnk.toSameState, fun a h => hnk.touched a (hmn.touched a h)⟩

theorem quiet_observed (m : Machine) (l : Location) (a : Access) : Quiet m (m.observed l a) :=
  ⟨⟨rfl, rfl, rfl, rfl, rfl, rfl, rfl, rfl⟩, fun _ h => h⟩

theorem quiet_touched (m : Machine) (a : Word) (n : Nat) : Quiet m (m.touched a n) :=
  ⟨⟨rfl, image_touched m a n, rfl, rfl, rfl, rfl, rfl, rfl⟩,
    fun b h => Memory.isTouched_touchBytes m.memory a b n h⟩

/-- However it ends, the execution writes nothing. -/
def Looks {α : Type} (x : Exec α) : Prop := ∀ m, Quiet m (x.run.run m).2

/-- If the execution ends in a fault, it has written nothing. -/
def FaultsQuietly {α : Type} (x : Exec α) : Prop :=
  ∀ m cause n, x.run.run m = (.error (.fault cause), n) → Quiet m n

/-- The execution does not end in a fault. -/
def NeverFaults {α : Type} (x : Exec α) : Prop :=
  ∀ m cause n, x.run.run m ≠ (.error (.fault cause), n)

section Rules

variable {α β : Type} {x : Exec α} {f : α → Exec β}

theorem Looks.pure (a : α) : Looks (pure a : Exec α) := fun m => Quiet.refl m

theorem Looks.throw (e : Halt) : Looks (throw e : Exec α) := fun m => Quiet.refl m

theorem Looks.bind (hx : Looks x) (hf : ∀ a, Looks (f a)) : Looks (x >>= f) := by
  intro m
  have hx := hx m
  rw [run_bind]
  rcases hrun : x.run.run m with ⟨_ | a, n⟩ <;> rw [hrun] at hx
  · exact hx
  · exact hx.trans (hf a n)

theorem Looks.faultsQuietly (hx : Looks x) : FaultsQuietly x := by
  intro m cause n ran
  have h := hx m
  rwa [ran] at h

theorem NeverFaults.pure (a : α) : NeverFaults (pure a : Exec α) := by
  intro m cause n ran
  cases ran

theorem NeverFaults.bind (hx : NeverFaults x) (hf : ∀ a, NeverFaults (f a)) :
    NeverFaults (x >>= f) := by
  intro m cause n ran
  rw [run_bind] at ran
  rcases hrun : x.run.run m with ⟨e | a, k⟩ <;> rw [hrun] at ran
  · cases ran
    exact hx m cause _ hrun
  · exact hf a k cause n ran

theorem NeverFaults.faultsQuietly (hx : NeverFaults x) : FaultsQuietly x :=
  fun m cause n ran => absurd ran (hx m cause n)

/-- An execution may look first. -/
theorem FaultsQuietly.bind_looks (hx : Looks x) (hf : ∀ a, FaultsQuietly (f a)) :
    FaultsQuietly (x >>= f) := by
  intro m cause n ran
  have hx := hx m
  rw [run_bind] at ran
  rcases hrun : x.run.run m with ⟨e | a, k⟩ <;> rw [hrun] at hx ran
  · cases ran
    exact hx
  · exact hx.trans (hf a k cause n ran)

/-- An execution may go on in any way that cannot fault. -/
theorem FaultsQuietly.bind_neverFaults (hx : FaultsQuietly x) (hf : ∀ a, NeverFaults (f a)) :
    FaultsQuietly (x >>= f) := by
  intro m cause n ran
  rw [run_bind] at ran
  rcases hrun : x.run.run m with ⟨e | a, k⟩ <;> rw [hrun] at ran
  · cases ran
    exact hx m cause _ hrun
  · exact absurd ran (hf a k cause n)

end Rules

/-! ## Accesses -/

theorem looks_readRegister (r : Register) : Looks (readRegister r) :=
  fun m => quiet_observed m _ _

theorem looks_readMemory (a : Word) (width : Nat) : Looks (readMemory a width) := by
  intro m
  rw [run_readMemory]
  split
  · exact (quiet_observed m _ _).trans (quiet_touched _ _ _)
  · exact Quiet.refl m

theorem looks_print (bytes : List Byte) : Looks (print bytes) :=
  fun _ => ⟨⟨rfl, rfl, rfl, rfl, rfl, rfl, rfl, rfl⟩, fun _ h => h⟩

theorem looks_inputByte : Looks inputByte :=
  fun _ => ⟨⟨rfl, rfl, rfl, rfl, rfl, rfl, rfl, rfl⟩, fun _ h => h⟩

theorem looks_inputLine : Looks inputLine :=
  fun _ => ⟨⟨rfl, rfl, rfl, rfl, rfl, rfl, rfl, rfl⟩, fun _ h => h⟩

theorem neverFaults_writeRegister (r : Register) (value : Word) :
    NeverFaults (writeRegister r value) := by
  intro m cause n ran
  by_cases hr : r = .general .zero
  · rw [hr, run_writeRegister_zero] at ran
    cases ran
  · rw [run_writeRegister hr] at ran
    cases ran

theorem neverFaults_writeHiLo (hi lo : Word) : NeverFaults (writeHiLo hi lo) :=
  (neverFaults_writeRegister _ _).bind fun _ => neverFaults_writeRegister _ _

/-- A write faults only for its address, and then it has not begun. -/
theorem faultsQuietly_writeMemory (a : Word) (width : Nat) (value : Word) :
    FaultsQuietly (writeMemory a width value) := by
  intro m cause n ran
  rw [run_writeMemory] at ran
  split at ran
  · cases ran
  · cases ran
    exact Quiet.refl m

theorem neverFaults_writeByte (a value : Word) : NeverFaults (writeMemory a 1 value) := by
  intro m cause n ran
  rw [run_writeMemory_of_isAligned (isAligned_one a)] at ran
  cases ran

theorem neverFaults_writeString (a : Word) (bytes : List Byte) :
    NeverFaults (writeString a bytes) := by
  induction bytes generalizing a with
  | nil => exact NeverFaults.pure _
  | cons b bs ih => exact (neverFaults_writeByte _ _).bind fun _ => ih _

/-! ## Instructions -/

section Staged

variable {inputs memory : Prop} {α : Type} {x : Exec α}

theorem Inspects.looks (hx : Inspects inputs memory x) : Looks x := by
  induction hx with
  | pure a => exact Looks.pure a
  | throw e => exact Looks.throw e
  | bind _ _ ihx ihf => exact ihx.bind ihf
  | readRegister r => exact looks_readRegister r
  | readMemory _ a width => exact looks_readMemory a width
  | print bytes => exact looks_print bytes
  | inputByte => exact looks_inputByte
  | inputLine => exact looks_inputLine

/-- What is written at the end is written without a fault, or not at all. -/
theorem Staged.faultsQuietly (hx : Staged inputs memory x) : FaultsQuietly x := by
  induction hx with
  | inspects hx => exact hx.looks.faultsQuietly
  | after hx _ ih => exact .bind_looks hx.looks ih
  | result _ b ih => exact .bind_neverFaults ih fun _ => .pure b
  | writeRegister r value => exact (neverFaults_writeRegister r value).faultsQuietly
  | writeHiLo hi lo => exact (neverFaults_writeHiLo hi lo).faultsQuietly
  -- the write itself may fault, but then for its address, before it begins
  | writeMemory _ a _ value => exact faultsQuietly_writeMemory a _ value
  | writeString _ a bytes => exact (neverFaults_writeString a bytes).faultsQuietly

end Staged

/-- **An instruction that ends in a fault has written nothing.** -/
theorem faultsQuietly_execute (pc : Word) (i : Instr) : FaultsQuietly (execute pc i) :=
  (Staged.execute_any pc i).faultsQuietly

/-! ## Attempts -/

/-- Undoing an instruction that has written nothing closes its record. -/
theorem quiet_rollBack_started {m n : Machine} (h : Quiet m.started n) :
    Quiet { m with history := m.history.map fun k => { k with current := none } } n.rollBack := by
  have hhistory : n.history = m.history.map (·.start m.pc) := h.history
  unfold rollBack
  cases hm : m.history with
  | none =>
      rw [hm] at hhistory
      rw [hhistory]
      exact ⟨{ h with history := hhistory }, h.touched⟩
  | some k =>
      rw [hm] at hhistory
      rw [hhistory]
      exact ⟨{ h with pc := rfl, history := rfl }, h.touched⟩

/-- Rolling back an instruction that has written nothing takes the machine back before it. -/
theorem quiet_rollBack {m n : Machine} (idle : m.Idle) (h : Quiet m.started n) :
    Quiet m n.rollBack := by
  have hclosed : m.history.map (fun k => { k with current := none }) = m.history := by
    cases hm : m.history with
    | none => rfl
    | some k =>
        obtain ⟨limit, size, stored, storedSize, current⟩ := k
        rw [show current = none from idle _ hm]
        rfl
  have hquiet := quiet_rollBack_started h
  rwa [hclosed] at hquiet

theorem quiet_perform {m n : Machine} {i : Instr} {cause : FaultCause} (idle : m.Idle)
    (failed : m.perform i = (.error (.fault cause), n)) : Quiet m n := by
  have hout := performed_perform m i
  rw [failed] at hout
  cases hout with
  | fault ran => exact quiet_rollBack idle (faultsQuietly_execute _ _ _ _ _ ran)

/-- An attempt that ends in a fault has changed nothing. If there was an instruction word, its page
has been touched. -/
theorem quiet_advance {m n : Machine} {cause : FaultCause} (idle : m.Idle)
    (failed : m.advance = (.error (.fault cause), n)) :
    Quiet m n ∧ (cause.hasInstruction = true →
      Word.isAligned m.pc 4 = true ∧ n.memory.isTouched m.pc = true) := by
  have hout := attempt_advance m
  rw [failed] at hout
  have hpage : (m.touched m.pc 4).memory.isTouched m.pc = true :=
    Memory.isTouched_touchBytes_self _ _ _ (by decide)
  generalize hend : (Except.error (Halt.fault cause), n) = out at hout
  cases hout with
  | exited => cases hend
  | notLoaded =>
      cases hend
      exact ⟨.refl _, fun h => by cases h⟩
  | invalidFetch =>
      cases hend
      exact ⟨.refl _, fun h => by cases h⟩
  | pastCode => cases hend
  | illegal _ here =>
      cases hend
      exact ⟨quiet_touched _ _ _, fun _ => ⟨here.1.1, hpage⟩⟩
  | performed _ here =>
      have h : Quiet (m.touched m.pc 4) n := quiet_perform idle hend.symm
      exact ⟨(quiet_touched m _ _).trans h, fun _ => ⟨here.1.1, h.touched _ hpage⟩⟩

/-- The fault `f` came of an attempt in the state `before`, and the state `after` differs from that
in nothing but what was touched, observed or exchanged with the console. The fault has the address
of the instruction, and the word there if one was fetched. -/
structure FaultedFrom (before : Machine) (f : Fault) (after : Machine) : Prop where
  registers : after.registers = before.registers
  image : after.memory.image = before.memory.image
  pc : after.pc = before.pc
  executed : after.executed = before.executed
  exitCode : after.exitCode = before.exitCode
  history : after.history = before.history
  fault_pc : f.pc = before.pc
  instruction : f.instruction =
    match f.cause with
    | .invalidFetch _ | .notLoaded => none
    | _ => some (Image.word before.memory.image before.pc)

theorem faultedFrom_of_advance {m n : Machine} {cause : FaultCause} (idle : m.Idle)
    (failed : m.advance = (.error (.fault cause), n)) : m.FaultedFrom (n.faultOf cause) n := by
  obtain ⟨h, hpage⟩ := quiet_advance idle failed
  have hword : cause.hasInstruction = true →
      n.memory.peek? n.pc = some (Image.word m.memory.image m.pc) := by
    intro hc
    obtain ⟨haligned, htouched⟩ := hpage hc
    rw [h.pc, Memory.peek?_of_isTouched _ _ htouched, Word.wordAligned_of_isAligned haligned,
      h.image]
  refine ⟨h.registers, h.image, h.pc, h.executed, h.exitCode, h.history, h.pc, ?_⟩
  cases cause with
  | invalidFetch => rfl
  | notLoaded => rfl
  | _ => exact hword rfl

/-- **A fault leaves the machine as it was before the attempt that ended in it**, in single steps, in
runs with any tripwire and in runs with a limit, from every state that a machine can get into. -/
theorem fault_atomic {m : Machine} (hm : Reachable m) :
    (∀ f n, m.step = (.error f, n) → m.FaultedFrom f n) ∧
      (∀ (σ : Type) (tripwire : Tripwire σ) (s : σ) (fuel : Nat) (r : RunResult σ) (f : Fault),
        (∀ t n, Reachable n → Reachable (tripwire t n).2.2) →
        runWhile tripwire s m fuel = some r → r.outcome = .error f →
        ∃ before, (attemptsWhile tripwire s m fuel).getLast? = some before ∧ Reachable before ∧
          before.FaultedFrom f r.machine) ∧
      ∀ (limit : Option Count) (fuel : Nat) (f : Fault) (n : Machine),
        m.simulate limit fuel = some (.error f, n) →
        ∃ before,
          (attemptsWhile (limitTripwire limit m.executed) () m fuel).getLast? = some before ∧
            Reachable before ∧ before.FaultedFrom f n := by
  -- a run with a limit is a run with a tripwire, so this is shown first
  have hrun : ∀ (σ : Type) (tripwire : Tripwire σ) (s : σ) (fuel : Nat) (r : RunResult σ)
      (f : Fault), (∀ t n, Reachable n → Reachable (tripwire t n).2.2) →
      runWhile tripwire s m fuel = some r → r.outcome = .error f →
      ∃ before, (attemptsWhile tripwire s m fuel).getLast? = some before ∧ Reachable before ∧
        before.FaultedFrom f r.machine := by
    intro σ tripwire s fuel r f ht ran failed
    -- the fault of the run is that of its last attempt, which was made in a reachable state
    obtain ⟨before, cause, after, hlast, hadv, rfl, hend⟩ := runLoop_fault ran failed
    have hbefore := (hm.runWhile ht ran).2 before (List.mem_of_getLast? hlast)
    refine ⟨before, hlast, hbefore, ?_⟩
    rw [hend]
    exact { faultedFrom_of_advance hbefore.idle hadv with }
  refine ⟨?_, hrun, ?_⟩
  · intro f n failed
    unfold step at failed
    split at failed
    case h_1 => cases failed
    case h_2 => cases failed
    case h_3 cause k hadv =>
      cases failed
      exact { faultedFrom_of_advance hm.beginStep.idle hadv with }
  · intro limit fuel f n ran
    rw [simulate_eq, Option.map_eq_some_iff] at ran
    obtain ⟨r, ran, hr⟩ := ran
    obtain ⟨houtcome, rfl⟩ := Prod.mk.inj hr
    have failed : r.outcome = .error f := by
      cases ho : r.outcome with
      | error e =>
          rw [ho] at houtcome
          cases houtcome
          rfl
      | ok _ =>
          rw [ho] at houtcome
          cases houtcome
    exact hrun Unit _ () fuel r f (fun _ _ h => h) ran failed

deriving instance DecidableEq for Except

/-- Both a step and a run come to the fault of a load from an address that is not aligned. No history
is kept. -/
theorem fault_atomic_unalignedLoad :
    ∃ p, assembled? "lw $t0, 1($zero)" = some p ∧
      let m := (Machine.initial { keepsHistory := false }).load p
      let f : Fault := ⟨.misaligned 1, 0x00400000, some 0x8C080001⟩
      (∃ n, m.step = (.error f, n) ∧ m.FaultedFrom f n) ∧
        ∃ before n, m.simulate none 3 = some (.error f, n) ∧ Reachable before ∧
          before.FaultedFrom f n := by
  let m := fun p => (Machine.initial { keepsHistory := false }).load p
  let f : Fault := ⟨.misaligned 1, 0x00400000, some 0x8C080001⟩
  have hran : (assembled? "lw $t0, 1($zero)").map
      (fun p => ((m p).step.1, ((m p).simulate none 3).map Prod.fst)) =
        some (.error f, some (.error f)) := by decide +kernel
  obtain ⟨p, hp, hran⟩ := Option.map_eq_some_iff.mp hran
  obtain ⟨hstep, hsim⟩ := Prod.mk.inj hran
  obtain ⟨⟨o, n⟩, hsim, rfl⟩ := Option.map_eq_some_iff.mp hsim
  have hm : Reachable (m p) := .load p (.initial _)
  have hstep : (m p).step = (.error f, (m p).step.2) := Prod.ext hstep rfl
  obtain ⟨before, -, hbefore, h⟩ := (fault_atomic hm).2.2 none 3 f n hsim
  exact ⟨p, hp, ⟨_, hstep, (fault_atomic hm).1 f _ hstep⟩, before, n, hsim, hbefore, h⟩

end MipsLab.Machine
