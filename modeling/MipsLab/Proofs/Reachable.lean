import MipsLab.Proofs.Attempt
import MipsLab.Proofs.Undo
import MipsLab.SourceUnit

set_option autoImplicit false

/-!
# Reachable states

The states that a machine can get into: a new machine, the loading of programs, attempts to execute
instructions, steps backwards, and whatever else its owner may set. All ways to run a machine stay
among them, and in all of them no undo record is open and `$zero` holds zero.
-/

namespace MipsLab.Machine

/-- `n` differs from `m` in nothing but what the owner of a machine can set at any time. The program,
its layout, its exit code and the history are not the owner's to set, and neither is `$zero`. -/
structure EditOf (m n : Machine) : Prop where
  code : n.code = m.code
  layout : n.layout = m.layout
  exitCode : n.exitCode = m.exitCode
  history : n.history = m.history
  zero : n.registers.get .zero = m.registers.get .zero

/-- The states that a machine can get into. -/
inductive Reachable : Machine → Prop
  | initial (options : MachineOptions) : Reachable (.initial options)
  | load {m : Machine} (p : AssembledProgram) (hm : Reachable m) : Reachable (m.load p)
  | attempt {m : Machine} (hm : Reachable m) : Reachable m.advance.2
  | stepBack {m : Machine} (hm : Reachable m) : Reachable m.stepBack.2
  | edit {m n : Machine} (hm : Reachable m) (h : m.EditOf n) : Reachable n

/-- The program of a single unit with the given text, if that can be assembled. -/
def assembled? (text : String) : Option AssembledProgram :=
  (Assembly.assemble {} [.ofText "a.s" text]).1.toOption

/-! ## Every operation stays among the reachable states -/

namespace Reachable

variable {m : Machine}

theorem reset (m : Machine) : Reachable m.reset :=
  .edit (.initial m.options) ⟨rfl, rfl, rfl, rfl, rfl⟩

theorem beginStep (hm : Reachable m) : Reachable m.beginStep := .edit hm ⟨rfl, rfl, rfl, rfl, rfl⟩

theorem step (hm : Reachable m) : Reachable m.step.2 := by
  have h := hm.beginStep.attempt
  unfold Machine.step
  split
  case h_1 hadv => rwa [hadv] at h
  case h_2 hadv =>
    rw [hadv] at h
    exact .edit h ⟨rfl, rfl, rfl, rfl, rfl⟩
  case h_3 hadv => rwa [hadv] at h

/-- A run stays among the reachable states if its tripwire does, and so do all its attempts. -/
theorem runWhile {σ : Type} {tripwire : Tripwire σ}
    (ht : ∀ s n, Reachable n → Reachable (tripwire s n).2.2) {s : σ} {fuel : Nat} {r : RunResult σ}
    (hm : Reachable m) (ran : Machine.runWhile tripwire s m fuel = some r) :
    Reachable r.machine ∧ ∀ n ∈ attemptsWhile tripwire s m fuel, Reachable n := by
  have hbegin : Reachable { m with running := true }.beginRun := .edit hm ⟨rfl, rfl, rfl, rfl, rfl⟩
  have start : Reachable { m with running := true }.beginRun ∧ ∀ k ∈ [], Reachable k :=
    ⟨hbegin, by simp⟩
  -- the invariant speaks of the machine and of all states in which attempts were made
  refine runLoop_invariant (I := fun _ n past => Reachable n ∧ ∀ k ∈ past, Reachable k) ?_ ?_ ?_
    start ran
  · exact fun s n past h => ⟨ht s n h.1, h.2⟩
  · intro s n past h
    refine ⟨h.1.attempt, fun k hk => ?_⟩
    rcases List.mem_append.mp hk with hk | hk
    · exact h.2 k hk
    · rw [List.mem_singleton.mp hk]
      exact h.1
  · exact fun s n past pause h => ⟨.edit h.1 ⟨rfl, rfl, rfl, rfl, rfl⟩, h.2⟩

theorem simulate {limit : Option Count} {fuel : Nat} {o : Except Fault Bool} {n : Machine}
    (hm : Reachable m) (ran : m.simulate limit fuel = some (o, n)) : Reachable n := by
  rw [simulate_eq, Option.map_eq_some_iff] at ran
  obtain ⟨r, ran, hr⟩ := ran
  obtain ⟨-, rfl⟩ := Prod.mk.inj hr
  exact (hm.runWhile (fun _ _ h => h) ran).1

end Reachable

/-! ## No record is open between attempts -/

/-- No undo record is open. -/
def Idle (m : Machine) : Prop := ∀ h, m.history = some h → h.current = none

theorem history_rollBack (m : Machine) :
    m.rollBack.history = m.history.map fun h => { h with current := none } := by
  unfold rollBack
  cases hh : m.history with
  | none => rw [hh]; rfl
  | some h =>
      cases hc : h.current with
      | none => simp only [History.abort, hc]; rfl
      | some u => simp only [History.abort, hc, history_undo]; rfl

theorem idle_commit (m : Machine) : m.commit.Idle := by
  intro h hh
  obtain ⟨h, -, rfl⟩ := Option.map_eq_some_iff.mp hh
  exact History.current_commit h

theorem idle_perform (m : Machine) (i : Instr) : (m.perform i).2.Idle := by
  have hout := performed_perform m i
  generalize m.perform i = out at hout ⊢
  cases hout with
  | next => exact idle_commit _
  | exit => exact idle_commit _
  | fault =>
      intro h hh
      rw [history_rollBack] at hh
      obtain ⟨h, -, rfl⟩ := Option.map_eq_some_iff.mp hh
      rfl

theorem idle_advance {m : Machine} (h : m.Idle) : m.advance.2.Idle := by
  have hout := attempt_advance m
  generalize m.advance = out at hout ⊢
  cases hout with
  | performed => exact idle_perform _ _
  | _ => exact h

theorem idle_stepBack {m : Machine} (h : m.Idle) : m.stepBack.2.Idle := by
  unfold stepBack
  split
  case h_1 => exact h
  case h_2 hist hh =>
    split
    case h_1 => exact h
    case h_2 u rest hpop =>
      intro k hk
      -- undoing leaves the history alone, so what is left of it is what `pop?` left
      have hrest : k = rest := (Option.some.inj (hk.symm.trans (history_undo _ u)))
      rw [hrest, History.current_of_pop? hpop]
      exact h hist hh

theorem Reachable.idle {m : Machine} (hm : Reachable m) : m.Idle := by
  induction hm with
  | initial options => exact fun _ hh => by cases hh
  | load p _ _ =>
      intro h hh
      unfold Machine.load at hh
      dsimp only at hh
      split at hh
      · cases hh
        rfl
      · cases hh
  | attempt _ ih => exact idle_advance ih
  | stepBack _ ih => exact idle_stepBack ih
  | edit _ h ih => exact fun k hk => ih k (h.history ▸ hk)

/-! ## The register `$zero` holds zero -/

/-- Executions do not write `$zero`. -/
theorem stable_zero (v : Word) : Stable fun m => m.registers.get .zero = v where
  observed := fun _ _ h => h
  putRegister := fun r value _ h => (Registers.get_zero_write _ r value).trans h
  touched := fun _ _ h => h
  putMemory := fun _ _ _ _ _ h => h
  withConsole := fun _ _ h => h

theorem get_zero_undo (m : Machine) (u : UndoRecord) :
    (m.undo u).registers.get .zero = m.registers.get .zero := by
  have hregisters : (m.undo u).registers = (m.snapshot.restore u).registers :=
    congrArg Snapshot.registers (snapshot_undo m u)
  rw [hregisters]
  -- memory and the address do not matter: only the registers of the record are written back
  rw [Snapshot.restore]
  show (u.registers.foldl _ m.registers).get .zero = _
  generalize m.registers = rs
  induction u.registers generalizing rs with
  | nil => rfl
  | cons p ps ih => rw [List.foldl_cons, ih, Registers.get_zero_write]

theorem get_zero_rollBack (m : Machine) :
    m.rollBack.registers.get .zero = m.registers.get .zero := by
  unfold rollBack
  split
  · rfl
  · split
    · exact get_zero_undo _ _
    · rfl

theorem get_zero_perform (m : Machine) (i : Instr) :
    (m.perform i).2.registers.get .zero = m.registers.get .zero := by
  have h := (stable_zero (m.registers.get .zero)).execute m.pc i m.started rfl
  have hout := performed_perform m i
  generalize m.perform i = out at hout ⊢
  cases hout with
  | next ran => rwa [ran] at h
  | exit ran => rwa [ran] at h
  | fault ran =>
      rw [ran] at h
      exact (get_zero_rollBack _).trans h

theorem get_zero_advance (m : Machine) :
    m.advance.2.registers.get .zero = m.registers.get .zero := by
  have hout := attempt_advance m
  generalize m.advance = out at hout ⊢
  cases hout with
  | performed => exact get_zero_perform (m.touched m.pc 4) _
  | _ => rfl

theorem get_zero_initialRegisters (fill : Fill) (layout : MemoryLayout) :
    (initialRegisters fill layout).get .zero = 0 := by
  unfold initialRegisters
  rw [Registers.get_set_of_ne _ _ (by decide), Registers.get_set_of_ne _ _ (by decide)]
  simp [Registers.get_eq, Registers.filled, Reg.zero, Reg.number]

theorem Reachable.get_zero {m : Machine} (hm : Reachable m) : m.registers.get .zero = 0 := by
  induction hm with
  | initial options => exact get_zero_initialRegisters _ _
  | load p _ _ => exact get_zero_initialRegisters _ _
  | attempt _ ih => rw [get_zero_advance, ih]
  | stepBack _ ih =>
      unfold Machine.stepBack
      split
      · exact ih
      · split
        · exact ih
        · exact (get_zero_undo _ _).trans ih
  | edit _ h ih => rw [h.zero, ih]

end MipsLab.Machine
