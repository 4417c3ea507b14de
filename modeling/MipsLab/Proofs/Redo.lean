import MipsLab.Proofs.Alike
import MipsLab.Proofs.Effect
import MipsLab.Proofs.RoundTrip

set_option autoImplicit false

/-!
# Redoing what was undone

An instruction that reads no input does the same whenever it is executed in a state with the same
registers, bytes of memory and program, and it leaves the same record (`redone_perform`). So each
record that a machine keeps is *truthful*: where it leads back to, executing the next instruction
leads forth again and leaves that record (`Truthful`). A step after a step back therefore restores
what the step back has undone.
-/

namespace MipsLab.Machine

/-! ## Executing an instruction twice -/

/-- The record of the instruction that is being executed. -/
def openRecord (m : Machine) : Option UndoRecord := m.history.bind (·.current)

theorem openRecord_putRegister (m : Machine) (r : Register) (value : Word) :
    (m.putRegister r value).openRecord =
      m.openRecord.map (·.addRegister r (m.registers.read r)) := by
  unfold openRecord putRegister
  cases m.history <;> rfl

theorem openRecord_putMemory (m : Machine) (a : Word) (width : Nat) (value : Word) :
    (m.putMemory a width value).openRecord =
      m.openRecord.map (·.addMemory (Word.wordAligned a)
        (Image.word m.memory.image (Word.wordAligned a))) := by
  unfold openRecord putMemory
  cases m.history <;> rfl

/-- Two executions have come equally far: the registers and memory are the same, and so is what was
recorded. -/
structure SameProgress (m n : Machine) : Prop where
  registers : n.registers = m.registers
  image : n.memory.image = m.memory.image
  exitCode : n.exitCode = m.exitCode
  openRecord : n.openRecord = m.openRecord

theorem lockstep_sameProgress : Lockstep SameProgress where
  registers := fun h => h.registers
  image := fun h => h.image
  observed := fun _ _ h => ⟨h.registers, h.image, h.exitCode, h.openRecord⟩
  putRegister := by
    intro m n r value h
    refine ⟨congrArg (·.write r value) h.registers, h.image, h.exitCode, ?_⟩
    rw [openRecord_putRegister, openRecord_putRegister, h.openRecord, h.registers]
  touched := by
    intro m n a k h
    refine ⟨h.registers, ?_, h.exitCode, h.openRecord⟩
    rw [image_touched, image_touched, h.image]
  putMemory := by
    intro m n a width value h
    refine ⟨h.registers, ?_, h.exitCode, ?_⟩
    · simp only [putMemory, Memory.image_write, h.image]
    · rw [openRecord_putMemory, openRecord_putMemory, h.openRecord, h.image]
  printed := fun _ h => ⟨h.registers, h.image, h.exitCode, h.openRecord⟩

/-- An instruction was executed: the state, the exit code and the records after it, where `vs` are
the records before it and `u` is its own. -/
structure Redone (limit : Nat) (u : UndoRecord) (vs : List UndoRecord) (after : Snapshot)
    (exit : Option Int) (before m : Machine) : Prop where
  snapshot : m.snapshot = after
  exitCode : m.exitCode = exit
  executed : m.executed = before.executed + 1
  records : m.HasRecords limit ((u :: vs).take limit)

section Perform

variable {limit : Nat} {us : List UndoRecord} {m n : Machine} {i : Instr}

theorem redone_commit {k l : Machine} {u : UndoRecord} (h : Recording limit us m k)
    (same : SameProgress l k) (hu : l.openRecord = some u) (pc : Word) (code : Option Int) :
    Redone limit u us ⟨l.registers, l.memory.image, pc⟩ (code <|> l.exitCode) m
      { k with pc, exitCode := code <|> k.exitCode }.commit := by
  rw [← same.openRecord] at hu
  rw [← same.registers, ← same.image, ← same.exitCode]
  obtain ⟨hist, v, hhist, hlimit, hus, hv, -⟩ := h.history
  obtain rfl : v = u := by
    rw [openRecord, hhist] at hu
    exact Option.some.inj (hv.symm.trans hu)
  refine ⟨rfl, rfl, congrArg (· + 1) h.executed, hist.commit, congrArg (Option.map _) hhist, ?_, ?_,
    History.current_commit hist⟩
  · rw [History.limit_commit, hlimit]
  · rw [History.records_commit hv, hus, hlimit]

/-- The end of an attempt that does not fault depends on the execution only by its result. -/
theorem concluded_eq_commit {result : Except Halt Word}
    (succeeds : ∀ cause, result ≠ .error (.fault cause)) (pc : Word) :
    ∃ (next : Word) (code : Option Int), ∀ k, concluded pc (result, k) =
      (result.map fun _ => (), { k with pc := next, exitCode := code <|> k.exitCode }.commit) := by
  match result with
  | .ok next => exact ⟨next, none, fun k => rfl⟩
  | .error (.exit code) => exact ⟨pc + 4, some code, fun k => rfl⟩
  | .error (.fault cause) => exact absurd rfl (succeeds cause)

/-- Two executions that begin in the same state have come equally far. -/
theorem sameProgress_started {vs : List UndoRecord} (hm : m.HasRecords limit us)
    (hn : n.HasRecords limit vs) (same : n.snapshot = m.snapshot) (exit : n.exitCode = m.exitCode) :
    SameProgress m.started n.started := by
  obtain ⟨h, hh, -⟩ := hm
  obtain ⟨k, hk, -⟩ := hn
  have hpc : n.pc = m.pc := congrArg Snapshot.pc same
  refine ⟨congrArg Snapshot.registers same, congrArg Snapshot.image same, exit, ?_⟩
  simp only [openRecord, started, hh, hk, hpc]
  rfl

/-- **An instruction that does not fault does the same in every state with the same registers and
memory**, if it reads no input. -/
theorem redone_perform (hm : m.HasRecords limit us)
    (succeeds : ∀ cause, (m.perform i).1 ≠ .error (.fault cause)) :
    ∃ u after exit, Redone limit u us after exit m (m.perform i).2 ∧ after.restore u = m.snapshot ∧
      ∀ n vs, n.snapshot = m.snapshot → n.exitCode = m.exitCode →
        (i = .syscall → ¬ ReadsConsole (m.registers.get .v0)) → n.HasRecords limit vs →
        (n.perform i).1 = (m.perform i).1 ∧ Redone limit u vs after exit n (n.perform i).2 := by
  have hran := (stable_recording limit us m).execute m.pc i m.started (recording_started hm)
  rw [perform_eq] at succeeds ⊢
  rcases hrun : (execute m.pc i).run.run m.started with ⟨result, k⟩
  rw [hrun] at hran succeeds
  have hresult : ∀ cause, result ≠ .error (.fault cause) := by
    rintro cause rfl
    exact succeeds cause rfl
  obtain ⟨next, code, hconcluded⟩ := concluded_eq_commit hresult m.pc
  obtain ⟨hist, u, hhist, -, -, hu, htracks⟩ := hran.history
  have hopen : k.openRecord = some u := by
    rw [openRecord, hhist]
    exact hu
  have hrestore : (⟨k.registers, k.memory.image, next⟩ : Snapshot).restore u = m.snapshot :=
    UndoRecord.restore_of_tracks { htracks with }
  refine ⟨u, _, code <|> k.exitCode, ?_, hrestore, ?_⟩
  · rw [hconcluded]
    exact redone_commit hran ⟨rfl, rfl, rfl, rfl⟩ hopen next code
  · intro n vs same exit quiet hn
    have hpc : n.pc = m.pc := congrArg Snapshot.pc same
    -- the second execution runs in lockstep with the first one
    have hagain := (stable_recording limit vs n).execute n.pc i n.started (recording_started hn)
    obtain ⟨hend, hsame⟩ := lockstep_sameProgress.execute (m := m.started) False.elim m.pc quiet
      (sameProgress_started hm hn same exit)
    rw [hpc] at hagain
    rw [perform_eq, hpc]
    rcases hrun' : (execute m.pc i).run.run n.started with ⟨result', k'⟩
    rw [hrun, hrun'] at hend hsame
    rw [hrun'] at hagain
    obtain rfl : result' = result := hend
    rw [hconcluded, hconcluded]
    exact ⟨rfl, redone_commit hagain hsame hopen next code⟩

end Perform

/-! ## Truthful records -/

/-- The instruction that is next is a service that reads from the console. -/
def ReadsInput (m : Machine) : Prop :=
  Instr.decode? m.nextWord = some .syscall ∧ ReadsConsole (m.registers.get .v0)

instance (m : Machine) : Decidable m.ReadsInput := inferInstanceAs (Decidable (_ ∧ _))

/-- Wherever the machine is in the state `before`, executing the next instruction leads to `after`
and leaves the record `u`. The program is that of the machine `loaded`. -/
def Redoes (loaded : Machine) (limit : Nat) (u : UndoRecord) (before after : Snapshot)
    (exit : Option Int) : Prop :=
  ∀ n vs, n.snapshot = before → n.code = loaded.code → n.layout = loaded.layout →
    n.exitCode = none → ¬ n.ReadsInput → n.HasRecords limit vs →
    (∀ cause, n.advance.1 ≠ .error (.fault cause)) ∧ Redone limit u vs after exit n n.advance.2

/-- Each record leads back to a state from which executing the next instruction leads forth again. -/
inductive Truthful (loaded : Machine) (limit : Nat) : Snapshot → Option Int → List UndoRecord → Prop
  | nil (after : Snapshot) (exit : Option Int) : Truthful loaded limit after exit []
  | cons {after : Snapshot} {exit : Option Int} {u : UndoRecord} {us : List UndoRecord}
      (redoes : Redoes loaded limit u (after.restore u) after exit)
      (rest : Truthful loaded limit (after.restore u) none us) :
      Truthful loaded limit after exit (u :: us)

/-- The machine runs the program of `loaded` and has executed `k` instructions, and all its records are
truthful. Its exit code is that of the last instruction, unless the program has ended since by running past
its code. There are no more records than the machine counts instructions, unless the count has come round to
zero. -/
structure Keeping (loaded : Machine) (limit k : Nat) (m : Machine) : Prop where
  records : ∃ us exit, m.HasRecords limit us ∧ us.length ≤ limit ∧
    (k < 2 ^ 64 → us.length ≤ m.executed.toNat ∧ m.executed.toNat ≤ k) ∧
    Truthful loaded limit m.snapshot exit us ∧
    (m.exitCode = exit ∨ exit = none ∧ m.exitCode = some 0 ∧ m.PastCode)
  code : m.code = loaded.code
  layout : m.layout = loaded.layout

section Attempts

variable {limit k : Nat} {us : List UndoRecord} {loaded m n : Machine} {i : Instr}

theorem Truthful.take {after : Snapshot} {exit : Option Int}
    (h : Truthful loaded limit after exit us) (k : Nat) :
    Truthful loaded limit after exit (us.take k) := by
  induction h generalizing k with
  | nil after exit =>
      rw [List.take_nil]
      exact .nil after exit
  | cons redoes _ ih =>
      cases k with
      | zero => exact .nil _ _
      | succ k => exact .cons redoes (ih k)

theorem HasRecords.idle (hm : m.HasRecords limit us) : m.Idle := by
  obtain ⟨h, hh, -, -, hcurrent⟩ := hm
  intro k hk
  rwa [Option.some.inj (hk.symm.trans hh)]

/-- Executing the next instruction leaves a truthful record. -/
theorem redoes_advance (hm : m.HasRecords limit us) (going : m.exitCode = none) (here : m.AtCode)
    (decoded : Instr.decode? m.nextWord = some i)
    (succeeds : ∀ cause, m.advance.1 ≠ .error (.fault cause)) :
    ∃ u after exit, Redone limit u us after exit m m.advance.2 ∧ after.restore u = m.snapshot ∧
      Redoes m limit u m.snapshot after exit := by
  have hquiet : ∀ k : Machine, (k.touched k.pc 4).snapshot = k.snapshot :=
    fun k => (quiet_touched k k.pc 4).snapshot
  rw [advance_eq_perform going here decoded] at succeeds ⊢
  obtain ⟨u, after, exit, hredone, hrestore, hagain⟩ :=
    redone_perform (m := m.touched m.pc 4) hm succeeds
  refine ⟨u, after, exit, ⟨hredone.1, hredone.2, hredone.3, hredone.4⟩, ?_, ?_⟩
  · rw [hrestore, hquiet]
  · intro n vs same hcode hlayout hgoing reads hn
    have hpc : n.pc = m.pc := congrArg Snapshot.pc same
    have himage : n.memory.image = m.memory.image := congrArg Snapshot.image same
    have hregisters : n.registers = m.registers := congrArg Snapshot.registers same
    have hword : n.nextWord = m.nextWord := by rw [nextWord, nextWord, himage, hpc]
    have hdecoded : Instr.decode? n.nextWord = some i := by rw [hword, decoded]
    have hhere : n.AtCode := by
      rw [AtCode, MayFetch, hpc, hcode, hlayout]
      exact here
    have hsilent : i = .syscall → ¬ ReadsConsole (m.registers.get .v0) := by
      rintro rfl hreads
      exact reads ⟨hdecoded, by rwa [hregisters]⟩
    obtain ⟨hresult, hredone'⟩ := hagain (n.touched n.pc 4) vs (by rw [hquiet, hquiet, same])
      (hgoing.trans going.symm) hsilent hn
    rw [advance_eq_perform hgoing hhere hdecoded]
    exact ⟨fun cause => hresult ▸ succeeds cause, hredone'.1, hredone'.2, hredone'.3, hredone'.4⟩

theorem Keeping.of_sameState (h : Keeping loaded limit k m) (same : SameState m n) :
    Keeping loaded limit k n := by
  obtain ⟨us, exit, hus, hlimit, hcount, htruth, hexit⟩ := h.records
  refine ⟨⟨us, exit, same.hasRecords hus, hlimit, ?_, ?_, ?_⟩, same.code.trans h.code,
    same.layout.trans h.layout⟩
  · rwa [same.executed]
  · rwa [same.snapshot]
  · rwa [same.exitCode, same.pastCode]

/-- If the machine has not ended, neither had it after the last instruction. -/
theorem exit_eq_none {exit : Option Int} (going : m.exitCode = none)
    (hexit : m.exitCode = exit ∨ exit = none ∧ m.exitCode = some 0 ∧ m.PastCode) : exit = none := by
  rcases hexit with hexit | ⟨hnone, -⟩
  · rw [← hexit, going]
  · exact hnone

/-- An instruction that does not fault leaves one more truthful record. -/
theorem Keeping.succeed (h : Keeping loaded limit k m) (going : m.exitCode = none) (here : m.AtCode)
    (decoded : Instr.decode? m.nextWord = some i)
    (succeeds : ∀ cause, m.advance.1 ≠ .error (.fault cause)) :
    Keeping loaded limit (k + (executedPcs [m]).length) m.advance.2 := by
  obtain ⟨us, exit, hus, -, hcount, htruth, hexit⟩ := id h.records
  have hnone : exit = none := exit_eq_none going hexit
  obtain ⟨_, _, _, _, _, _, _, _, _, hsetup⟩ := sameSetup_advance m
  obtain ⟨u, after, exit', hredone, hrestore, hredoes⟩ := redoes_advance hus going here decoded succeeds
  have hfirst : Truthful loaded limit after exit' (u :: us) := by
    refine .cons ?_ ?_
    · rw [hrestore]
      intro n vs same hcode hlayout
      exact hredoes n vs same (hcode.trans h.code.symm) (hlayout.trans h.layout.symm)
    · rw [hrestore, ← hnone]
      exact htruth
  have hlength : ((u :: us).take limit).length ≤ us.length + 1 := List.length_take_le' ..
  rw [executedPcs_of_succ hredone.executed, List.length_singleton]
  refine ⟨⟨_, exit', hredone.records, List.length_take_le .., fun hk => ?_, ?_, .inl hredone.exitCode⟩, ?_, ?_⟩
  · obtain ⟨hrecords, hexecuted⟩ := hcount (by omega)
    have hnext : (m.executed + 1).toNat = m.executed.toNat + 1 := by bv_omega
    rw [hredone.executed, hnext]
    omega
  · rw [hredone.snapshot]
    exact hfirst.take limit
  · rw [hsetup]
    exact h.code
  · rw [hsetup]
    exact h.layout

/-- Records stay truthful, whatever an attempt comes to. -/
theorem Keeping.attempt (h : Keeping loaded limit k m) :
    Keeping loaded limit (k + (executedPcs [m]).length) m.advance.2 := by
  obtain ⟨us, exit, hus, hlimit, hcount, htruth, hexit⟩ := id h.records
  -- an attempt that executes nothing leaves the number as it is
  have hidle {n : Machine} (hn : m.advance.2 = n) (hsame : n.executed = m.executed)
      (hkeep : Keeping loaded limit k n) : Keeping loaded limit (k + (executedPcs [m]).length) n := by
    rwa [executedPcs_of_eq (hn ▸ hsame)]
  have hout := attempt_advance m
  generalize hadv : m.advance = out at hout
  have hend := congrArg Prod.snd hadv
  cases hout with
  | exited => exact hidle hend rfl h
  | notLoaded => exact hidle hend rfl h
  | invalidFetch => exact hidle hend rfl h
  | pastCode going past =>
      have hnone : exit = none := exit_eq_none going hexit
      exact hidle hend rfl
        ⟨⟨us, exit, hus, hlimit, hcount, htruth, .inr ⟨hnone, rfl, past⟩⟩, h.code, h.layout⟩
  | illegal => exact hidle hend rfl (h.of_sameState (quiet_touched _ _ _).toSameState)
  | @performed i going here decoded =>
      have hquiet : SameState m (m.touched m.pc 4) := (quiet_touched m m.pc 4).toSameState
      by_cases hfault : ∃ cause, ((m.touched m.pc 4).perform i).1 = .error (.fault cause)
      · obtain ⟨cause, hcause⟩ := hfault
        have hundone := hquiet.trans
          (quiet_perform (m := m.touched m.pc 4) hus.idle (Prod.ext hcause rfl)).toSameState
        exact hidle hend hundone.executed (h.of_sameState hundone)
      · have succeeds : ∀ cause, m.advance.1 ≠ .error (.fault cause) := by
          rw [hadv]
          exact fun cause hcause => hfault ⟨cause, hcause⟩
        rw [← hadv]
        exact h.succeed going here decoded succeeds

end Attempts

/-! ## Steps back -/

/-- A step back leaves the program alone. -/
theorem program_stepBack (m : Machine) :
    m.stepBack.2.code = m.code ∧ m.stepBack.2.layout = m.layout := by
  unfold stepBack
  split
  · exact ⟨rfl, rfl⟩
  split
  · exact ⟨rfl, rfl⟩
  case h_2 u rest _ =>
    obtain ⟨_, _, _, _, h⟩ := (undo_spec { m with history := some rest }.beginStep u).1
    rw [h]
    exact ⟨rfl, rfl⟩

theorem stepBack_of_hasRecords_nil {limit : Nat} {m : Machine} (hm : m.HasRecords limit []) :
    m.stepBack.2 = m := by
  obtain ⟨h, hh, -, hrecords, -⟩ := hm
  unfold stepBack
  rw [hh]
  dsimp only
  rw [History.pop?_of_records_eq_nil hrecords]

theorem Keeping.stepBack {limit k : Nat} {loaded m : Machine} (h : Keeping loaded limit k m) :
    Keeping loaded limit k m.stepBack.2 := by
  obtain ⟨us, exit, hus, hlimit, hcount, htruth, -⟩ := id h.records
  obtain ⟨hcode, hlayout⟩ := program_stepBack m
  cases htruth with
  | nil => rwa [stepBack_of_hasRecords_nil hus]
  | @cons _ _ u us _ rest =>
      obtain ⟨n, hn, hrecords, hsnapshot, hexecuted, hexit⟩ := stepBack_of_hasRecords hus
      rw [List.length_cons] at hlimit hcount
      rw [hn] at hcode hlayout ⊢
      refine ⟨⟨us, none, hrecords, by omega, fun hk => ?_, ?_, .inl hexit⟩, hcode.trans h.code,
        hlayout.trans h.layout⟩
      · have hk := hcount hk
        rw [hexecuted, Count.toNat_pred]
        omega
      · rw [hsnapshot]
        exact rest

/-- The records by which instructions can be undone, newest first. -/
def records (m : Machine) : List UndoRecord := (m.history.map (·.records)).getD []

end MipsLab.Machine
