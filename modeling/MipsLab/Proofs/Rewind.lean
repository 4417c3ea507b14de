import MipsLab.Proofs.FaultAtomicity

set_option autoImplicit false

/-!
# Records of executed instructions

An attempt that executes an instruction leaves a record by which the state before it can be put
back, and any other attempt leaves registers, memory and the history alone (`recorded_advance`). So
after any number of attempts the newest records lead back, one after the other, to where the
attempts began (`Rewinds`), and `stepsBack` goes back through them.
-/

namespace MipsLab.Machine

/-! ## The record of one instruction -/

/-- The machine keeps a history that holds these records and no more than `limit` of them, and no
record is open. -/
def HasRecords (limit : Nat) (us : List UndoRecord) (m : Machine) : Prop :=
  ∃ h, m.history = some h ∧ h.limit = limit ∧ h.records = us ∧ h.current = none

/-- While an instruction that began in `m` is executed, the open record tracks what it has changed
so far. -/
structure Recording (limit : Nat) (us : List UndoRecord) (m n : Machine) : Prop where
  history : ∃ h u, n.history = some h ∧ h.limit = limit ∧ h.records = us ∧ h.current = some u ∧
    u.Tracks m.snapshot n.snapshot
  executed : n.executed = m.executed
  code : n.code = m.code
  layout : n.layout = m.layout

theorem snapshot_putMemory (m : Machine) (a : Word) (width : Nat) (value : Word) :
    (m.putMemory a width value).snapshot =
      { m.snapshot with image := Image.store m.memory.image a width value } := by
  rw [snapshot, putMemory, Memory.image_write]
  rfl

theorem stable_recording (limit : Nat) (us : List UndoRecord) (m : Machine) :
    Stable (Recording limit us m) where
  observed := fun _ _ h => ⟨h.history, h.executed, h.code, h.layout⟩
  putRegister := by
    intro n r value hr hn
    obtain ⟨h, u, hh, hlimit, hus, hu, htracks⟩ := hn.history
    refine ⟨⟨h.addRegister r (n.registers.read r), u.addRegister r (n.registers.read r), ?_, hlimit,
      hus, ?_, htracks.addRegister hr value⟩, hn.executed, hn.code, hn.layout⟩
    · exact congrArg (Option.map _) hh
    · exact congrArg (Option.map _) hu
  touched := by
    intro n a k hn
    obtain ⟨h, u, hh, hlimit, hus, hu, htracks⟩ := hn.history
    refine ⟨⟨h, u, hh, hlimit, hus, hu, ?_⟩, hn.executed, hn.code, hn.layout⟩
    rwa [(quiet_touched n a k).snapshot]
  putMemory := by
    intro n a width value hwidth ha hn
    obtain ⟨h, u, hh, hlimit, hus, hu, htracks⟩ := hn.history
    have htracks' := htracks.addMemory hwidth ha value
    let base := Word.wordAligned a
    let old := Image.word n.memory.image base
    refine ⟨⟨h.addMemory base old, u.addMemory base old, ?_, hlimit, hus, ?_, ?_⟩, hn.executed,
      hn.code, hn.layout⟩
    · exact congrArg (Option.map _) hh
    · exact congrArg (Option.map _) hu
    · rwa [snapshot_putMemory]
  withConsole := fun _ _ h => ⟨h.history, h.executed, h.code, h.layout⟩

/-- Starting the record of an instruction opens one that tracks nothing yet. -/
theorem recording_started {limit : Nat} {us : List UndoRecord} {m : Machine}
    (hm : m.HasRecords limit us) : Recording limit us m m.started := by
  obtain ⟨h, hh, hlimit, hus, -⟩ := hm
  refine ⟨⟨h.start m.pc, _, ?_, hlimit, hus, rfl, UndoRecord.tracks_empty m.snapshot⟩, rfl, rfl, rfl⟩
  exact congrArg (Option.map _) hh

/-- What an attempt to execute the next instruction does to the records. -/
inductive Recorded (limit : Nat) (us : List UndoRecord) (m : Machine) : Machine → Prop
  | executed {n : Machine} (u : UndoRecord) (pc : u.pc = m.pc)
      (restores : n.snapshot.restore u = m.snapshot) (count : n.executed = m.executed + 1)
      (records : n.HasRecords limit ((u :: us).take limit)) (code : n.code = m.code)
      (layout : n.layout = m.layout) : Recorded limit us m n
  | unchanged {n : Machine} (same : SameState m n) : Recorded limit us m n
  | ended {n : Machine} (past : m.PastCode) (same : SameState { m with exitCode := some 0 } n) :
      Recorded limit us m n

/-- Two machines of the same state have the same records. -/
theorem SameState.hasRecords {limit : Nat} {us : List UndoRecord} {m n : Machine}
    (same : SameState m n) (hm : m.HasRecords limit us) : n.HasRecords limit us := by
  obtain ⟨h, hh, hrest⟩ := hm
  exact ⟨h, same.history.trans hh, hrest⟩

theorem Recorded.of_sameState {limit : Nat} {us : List UndoRecord} {m n k : Machine}
    (same : SameState m n) (h : Recorded limit us n k) : Recorded limit us m k := by
  cases h with
  | executed u pc restores count records code layout =>
      refine .executed u (pc.trans same.pc) (restores.trans same.snapshot) ?_ records
        (code.trans same.code) (layout.trans same.layout)
      rw [count, same.executed]
  | unchanged same' => exact .unchanged (same.trans same')
  | ended past same' =>
      have hended : SameState { m with exitCode := some 0 } { n with exitCode := some 0 } :=
        { same with exitCode := rfl }
      exact .ended (same.pastCode.mp past) (hended.trans same')

/-- Committing the record of an instruction keeps it, wherever the next instruction is. -/
theorem recorded_commit {limit : Nat} {us : List UndoRecord} {m n : Machine}
    (h : Recording limit us m n) (pc : Word) (exitCode : Option Int) :
    Recorded limit us m { n with pc, exitCode }.commit := by
  obtain ⟨k, u, hk, hlimit, hus, hu, htracks⟩ := h.history
  have htracks' : u.Tracks m.snapshot { n with pc, exitCode }.commit.snapshot := { htracks with }
  refine .executed u htracks.pc (UndoRecord.restore_of_tracks htracks') ?_ ?_ h.code h.layout
  · exact congrArg (· + 1) h.executed
  · refine ⟨k.commit, congrArg (Option.map _) hk, ?_, ?_, History.current_commit k⟩
    · rw [History.limit_commit, hlimit]
    · rw [History.records_commit hu, hus, hlimit]

theorem recorded_perform {limit : Nat} {us : List UndoRecord} {m : Machine}
    (hm : m.HasRecords limit us) (i : Instr) : Recorded limit us m (m.perform i).2 := by
  have idle : m.Idle := by
    obtain ⟨h, hh, -, -, hcurrent⟩ := hm
    intro k hk
    rwa [Option.some.inj (hk.symm.trans hh)]
  have hran := (stable_recording limit us m).execute m.pc i m.started (recording_started hm)
  have hout := performed_perform m i
  generalize hperform : m.perform i = out at hout ⊢
  cases hout with
  | @next pc n ran =>
      rw [ran] at hran
      exact recorded_commit hran pc n.exitCode
  | exit ran =>
      rw [ran] at hran
      exact recorded_commit hran _ _
  | fault => exact .unchanged (quiet_perform idle hperform).toSameState

/-- **An attempt either executes an instruction and leaves a record that restores the state before
it, or it leaves the state alone, or it finds that the program has ended.** -/
theorem recorded_advance {limit : Nat} {us : List UndoRecord} {m : Machine}
    (hm : m.HasRecords limit us) : Recorded limit us m m.advance.2 := by
  have hout := attempt_advance m
  generalize m.advance = out at hout ⊢
  cases hout with
  | exited => exact .unchanged (SameState.refl m)
  | notLoaded => exact .unchanged (SameState.refl m)
  | invalidFetch => exact .unchanged (SameState.refl m)
  | pastCode _ past => exact .ended past (SameState.refl _)
  | illegal => exact .unchanged (quiet_touched m _ _).toSameState
  | @performed i _ _ _ =>
      have h : Recorded limit us (m.touched m.pc 4) ((m.touched m.pc 4).perform i).2 :=
        recorded_perform (m := m.touched m.pc 4) hm i
      exact h.of_sameState (quiet_touched m _ _).toSameState

/-! ## Going back through the records -/

/-- Goes back one instruction after the other. The results are listed in order. -/
def stepsBack : Nat → Machine → List StepBack × Machine
  | 0, m => ([], m)
  | k + 1, m =>
    let (result, n) := m.stepBack
    let (results, r) := stepsBack k n
    (result :: results, r)

/-- A step back puts back the newest record. -/
theorem stepBack_of_hasRecords {limit : Nat} {u : UndoRecord} {us : List UndoRecord} {m : Machine}
    (hm : m.HasRecords limit (u :: us)) :
    ∃ n, m.stepBack = (.undone u.pc, n) ∧ n.HasRecords limit us ∧
      n.snapshot = m.snapshot.restore u ∧ n.executed = m.executed.pred ∧ n.exitCode = none := by
  obtain ⟨h, hh, hlimit, hus, hcurrent⟩ := hm
  obtain ⟨rest, hpop, hrest, hlimit', hcurrent'⟩ := History.pop?_of_records_eq_cons hus
  let undone := { m with history := some rest }.beginStep.undo u
  refine ⟨{ undone with executed := undone.executed.pred, exitCode := none }, ?_, ?_, ?_, ?_, rfl⟩
  · unfold stepBack
    rw [hh]
    dsimp only
    rw [hpop]
  · exact ⟨rest, history_undo _ u, hlimit'.trans hlimit, hrest, hcurrent'.trans hcurrent⟩
  · exact snapshot_undo _ u
  · show undone.executed.pred = m.executed.pred
    rw [executed_undo]
    rfl

/-- Steps back put back the newest records in order. They count down to zero and no further. -/
theorem stepsBack_of_hasRecords {limit : Nat} {us rest : List UndoRecord} {m : Machine}
    (hm : m.HasRecords limit (us ++ rest)) :
    ∃ n, stepsBack us.length m = (us.map fun u => .undone u.pc, n) ∧
      n.snapshot = us.foldl Snapshot.restore m.snapshot ∧
      n.executed.toNat = m.executed.toNat - us.length ∧ (n.exitCode = none ∨ us = [] ∧ n = m) := by
  -- by induction on the records, newest first; only no step back at all leaves an exit code
  induction us generalizing m with
  | nil => exact ⟨m, rfl, rfl, rfl, .inr ⟨rfl, rfl⟩⟩
  | cons u us ih =>
      obtain ⟨k, hk, hrecords, hsnapshot, hexecuted, hexit⟩ := stepBack_of_hasRecords hm
      obtain ⟨n, hn, hsnapshot', hexecuted', hexit'⟩ := ih hrecords
      refine ⟨n, ?_, ?_, ?_, .inl ?_⟩
      · rw [List.length_cons, stepsBack, hk]
        dsimp only
        rw [hn]
        rfl
      · rw [hsnapshot', hsnapshot, List.foldl_cons]
      · rw [hexecuted', hexecuted, Count.toNat_pred, List.length_cons]
        omega
      · rcases hexit' with hexit' | ⟨-, rfl⟩
        · exact hexit'
        · exact hexit

/-! ## Any number of attempts -/

/-- The addresses of the instructions executed by some attempts, which are listed by the states in
which they were made. -/
def executedPcs (past : List Machine) : List Word :=
  (past.filter fun m => m.advance.2.executed != m.executed).map (·.pc)

theorem executedPcs_append (past later : List Machine) :
    executedPcs (past ++ later) = executedPcs past ++ executedPcs later := by
  rw [executedPcs, List.filter_append, List.map_append]
  rfl

theorem executedPcs_of_succ {m : Machine} (h : m.advance.2.executed = m.executed + 1) :
    executedPcs [m] = [m.pc] := by
  have hne : m.advance.2.executed ≠ m.executed := by
    rw [h]
    bv_omega
  simp [executedPcs, hne]

theorem executedPcs_of_eq {m : Machine} (h : m.advance.2.executed = m.executed) :
    executedPcs [m] = [] := by
  simp [executedPcs, h]

/-- The newest records of `n` lead back to the state `start`, through the instructions at `pcs`,
which are listed in the order of execution. As many records as fit are there. -/
structure Rewinds (limit : Nat) (start : Machine) (pcs : List Word) (n : Machine) : Prop where
  records : ∃ us kept : List UndoRecord, n.HasRecords limit kept ∧ us.take limit <+: kept ∧
    us.map (·.pc) = pcs.reverse ∧ us.foldl Snapshot.restore n.snapshot = start.snapshot
  executed : n.executed = start.executed + BitVec.ofNat 64 pcs.length
  code : n.code = start.code
  layout : n.layout = start.layout
  exitCode : n.exitCode = none ∨ pcs ≠ [] ∨ n.exitCode = some 0 ∧ start.PastCode

namespace Rewinds

variable {limit : Nat} {start m n : Machine} {pcs : List Word}

theorem refl {us : List UndoRecord} (hm : m.HasRecords limit us) (going : m.exitCode = none) :
    Rewinds limit m [] m where
  records := ⟨[], us, hm, by simp, rfl, rfl⟩
  executed := (BitVec.add_zero _).symm
  code := rfl
  layout := rfl
  exitCode := .inl going

theorem of_sameState (h : Rewinds limit start pcs m) (same : SameState m n) :
    Rewinds limit start pcs n where
  records := by
    obtain ⟨us, kept, hkept, hfront, hpcs, hsnapshot⟩ := h.records
    exact ⟨us, kept, same.hasRecords hkept, hfront, hpcs, by rw [same.snapshot, hsnapshot]⟩
  executed := same.executed.trans h.executed
  code := same.code.trans h.code
  layout := same.layout.trans h.layout
  exitCode := by rw [same.exitCode]; exact h.exitCode

/-- Where nothing was executed, the program is at its end if it was when the attempts began. -/
theorem pastCode (h : Rewinds limit start [] m) (past : m.PastCode) : start.PastCode := by
  obtain ⟨us, -, -, -, hpcs, hsnapshot⟩ := h.records
  obtain rfl : us = [] := List.map_eq_nil_iff.mp hpcs
  have hpc : m.pc = start.pc := congrArg Snapshot.pc hsnapshot
  obtain ⟨hfetch, hcode⟩ := past
  rw [MayFetch, hpc, h.layout] at hfetch
  rw [hpc, h.code] at hcode
  exact ⟨hfetch, hcode⟩

/-- One more record is put in front, and as many of them as before are kept. -/
theorem prefix_take_cons {us kept : List UndoRecord} (h : us.take limit <+: kept) (u : UndoRecord) :
    (u :: us).take limit <+: (u :: kept).take limit := by
  cases limit with
  | zero => simp
  | succ limit =>
      rw [List.take_succ_cons, List.take_succ_cons, List.prefix_cons_inj, List.prefix_take_iff]
      have hless := (List.take_prefix_take_left (l := us) (Nat.le_succ limit)).trans h
      exact ⟨hless, List.length_take_le limit us⟩

/-- **What an attempt leaves behind leads back to where the attempts began.** -/
theorem attempt (h : Rewinds limit start pcs m) :
    Rewinds limit start (pcs ++ executedPcs [m]) m.advance.2 := by
  obtain ⟨us, kept, hkept, hfront, hpcs, hsnapshot⟩ := h.records
  have hrec := recorded_advance hkept
  generalize hn : m.advance.2 = n at hrec ⊢
  cases hrec with
  | executed u pc restores count records code layout =>
      -- the new record goes in front of those that lead back so far
      rw [executedPcs_of_succ (by rw [hn, count])]
      refine ⟨⟨u :: us, _, records, prefix_take_cons hfront u, ?_, ?_⟩, ?_, code.trans h.code,
        layout.trans h.layout, .inr (.inl (by simp))⟩
      · rw [List.map_cons, pc, hpcs, List.reverse_append]
        rfl
      · rw [List.foldl_cons, restores, hsnapshot]
      · rw [count, h.executed, List.length_append, BitVec.add_assoc]
        exact congrArg (start.executed + ·) (Count.ofNat_succ pcs.length).symm
  | unchanged same =>
      rw [executedPcs_of_eq (by rw [hn, same.executed]), List.append_nil]
      exact h.of_sameState same
  | ended past same =>
      rw [executedPcs_of_eq (by rw [hn, same.executed]), List.append_nil]
      -- the program ended here without executing anything: either something was executed before, or
      -- the attempts began at this very place
      have hexit : pcs ≠ [] ∨ start.PastCode := by
        by_cases hpcs : pcs = []
        · subst hpcs
          exact .inr (h.pastCode past)
        · exact .inl hpcs
      have hended : Rewinds limit start pcs { m with exitCode := some 0 } :=
        { h with exitCode := .inr (hexit.imp_right fun hpast => ⟨rfl, hpast⟩) }
      exact hended.of_sameState same

/-- What is left of a count that has gone up and then down by the same number. If it has come round to zero
on its way up, it stays at zero on its way down. -/
theorem toNat_add_sub (start : Count) (k : Nat) :
    (start + BitVec.ofNat 64 k).toNat - k = if start.toNat + k < 2 ^ 64 then start.toNat else 0 := by
  have hstart := start.isLt
  rw [BitVec.toNat_add, BitVec.toNat_ofNat]
  split <;> omega

/-- **As many steps back as instructions were executed lead back to where the attempts began**, if
the history has room for that many. -/
theorem stepsBack_eq (h : Rewinds limit start pcs n) (within : pcs.length ≤ limit) :
    ∃ r, stepsBack pcs.length n = (pcs.reverse.map .undone, r) ∧ r.snapshot = start.snapshot ∧
      r.executed = (if start.executed.toNat + pcs.length < 2 ^ 64 then start.executed else 0) ∧
      (r.exitCode = none ∨ pcs = [] ∧ r.exitCode = some 0 ∧ start.PastCode) := by
  obtain ⟨us, kept, hkept, ⟨rest, hfront⟩, hpcs, hsnapshot⟩ := h.records
  have hlength : us.length = pcs.length := by
    rw [← List.length_map (·.pc), hpcs, List.length_reverse]
  rw [List.take_of_length_le (by omega)] at hfront
  obtain ⟨r, hr, hsnapshot', hexecuted, hexit⟩ := stepsBack_of_hasRecords (hfront ▸ hkept)
  refine ⟨r, ?_, hsnapshot'.trans hsnapshot, ?_, ?_⟩
  · rw [← hlength, hr, ← hpcs, List.map_map]
    rfl
  · apply BitVec.eq_of_toNat_eq
    rw [hexecuted, h.executed, hlength, toNat_add_sub]
    split <;> rfl
  · rcases hexit with hexit | ⟨hus, rfl⟩
    · exact .inl hexit
    · have hnil : pcs = [] := List.length_eq_zero_iff.mp (by rw [← hlength, hus]; rfl)
      rcases h.exitCode with hexit | hne | hexit
      · exact .inl hexit
      · exact absurd hnil hne
      · exact .inr ⟨hnil, hexit⟩

end Rewinds

end MipsLab.Machine
