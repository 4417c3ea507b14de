import MipsLab.Proofs.Alike

set_option autoImplicit false

/-!
# Runs and single steps

A run with a limit does what single steps would do, made one after the other up to a place that can
be told from the single steps alone (`FirstEnd`): the first place where a breakpoint holds, the run
was asked to stop, the limit is reached, or a step ends the program or faults. A run observes no
accesses and single steps do, and they keep different notes of why the machine paused; apart from
that a run and its single steps are in the same states all the way.
-/

namespace MipsLab.Machine

/-! ## Single steps -/

/-- The machine after a number of single steps, whatever they report. -/
def afterSteps : Nat → Machine → Machine
  | 0, m => m
  | n + 1, m => afterSteps n m.step.2

/-- Why no more single steps are made. -/
inductive Ending where
  /-- A breakpoint holds. -/
  | breakpoint
  /-- The run was asked to stop. -/
  | stopped
  | limit
  /-- The step that is next ends the program. -/
  | completed
  /-- The step that is next faults. -/
  | fault (f : Fault)
deriving DecidableEq

/-- Whether no more steps are made in a state that `n` steps have led to, and why. No breakpoint
counts before the first step. -/
def endsAt (limit : Option Nat) (n : Nat) (m : Machine) : Option Ending :=
  if 0 < n ∧ m.meetsBreakpoint = true then some .breakpoint
  else if m.running = false then some .stopped
  else if limit = some n then some .limit
  else
    match m.step.1 with
    | .ok false => none
    | .ok true => some .completed
    | .error f => some (.fault f)

/-- Single steps that are made where `past` steps have led to end after `n` more of them. -/
structure FirstEnd (limit : Option Nat) (past : Nat) (m : Machine) (n : Nat) (e : Ending) : Prop where
  ends : endsAt limit (past + n) (afterSteps n m) = some e
  first : ∀ k < n, endsAt limit (past + k) (afterSteps k m) = none

namespace Ending

/-- How many steps are attempted: a step that ends the program or faults comes after those that
executed an instruction. -/
def attempted (n : Nat) : Ending → Nat
  | breakpoint | stopped | limit => n
  | completed | fault _ => n + 1

/-- The outcome of a run that ends like this. -/
def outcome : Ending → Except Fault Unit
  | fault f => .error f
  | _ => .ok ()

/-- The note that a run leaves which ends like this. -/
def pause : Ending → Pause
  | breakpoint => .breakpoint
  | stopped => .stopped
  | limit => .tripwire
  | completed => .completed
  | fault _ => .none

end Ending

/-- A run has ended like this, where single steps would have led to. -/
structure EndsLike (e : Ending) (m : Machine) (r : RunResult Unit) : Prop where
  outcome : r.outcome = e.outcome
  pause : r.machine.pause = e.pause
  state : SameState m r.machine
  console : r.machine.console = m.console

/-! ## Runs with a limit -/

variable {limit : Option Nat} {past : Nat} {m s : Machine}

theorem FirstEnd.zero {e : Ending} (h : endsAt limit past s = some e) : FirstEnd limit past s 0 e :=
  ⟨h, fun _ hk => absurd hk (Nat.not_lt_zero _)⟩

theorem FirstEnd.succ {n : Nat} {e : Ending} (h : endsAt limit past s = none)
    (next : FirstEnd limit (past + 1) s.step.2 n e) : FirstEnd limit past s (n + 1) e := by
  refine ⟨?_, fun k hk => ?_⟩
  · rw [show past + (n + 1) = past + 1 + n by omega]
    exact next.ends
  · cases k with
    | zero => exact h
    | succ k =>
        rw [show past + (k + 1) = past + 1 + k by omega]
        exact next.first k (by omega)

/-- A run is under way where `past` single steps would have led to, and no breakpoint holds. -/
structure UnderWay (limit : Option Count) (start : Count) (past : Nat) (m s : Machine) : Prop where
  alike : Alike m s
  pause : m.pause = .none
  executed : m.executed = start + BitVec.ofNat 64 past
  within : ∀ l, limit = some l → past ≤ l.toNat
  clear : 0 < past → m.meetsBreakpoint = false

namespace UnderWay

variable {limit : Option Count} {start : Count}

/-- A run that executes an instruction and meets no breakpoint goes on. -/
theorem next {n : Machine} (h : UnderWay limit start past m s)
    (going : limit.map BitVec.toNat ≠ some past)
    (adv : m.advance = (.ok (), n)) (clear : n.meetsBreakpoint = false) :
    UnderWay limit start (past + 1) n s.step.2 where
  alike := by
    have halike := h.alike.step.2
    rwa [adv] at halike
  pause := by
    have hpause := pause_advance m
    rw [adv] at hpause
    exact hpause.trans h.pause
  executed := by
    have hcount := counts_advance m
    rw [adv] at hcount
    calc n.executed = m.executed + 1 := hcount
      _ = start + BitVec.ofNat 64 (past + 1) := by rw [h.executed, Count.ofNat_succ, BitVec.add_assoc]
  within := by
    rintro l rfl
    have hl := h.within l rfl
    have hne : l.toNat ≠ past := fun e => going (congrArg some e)
    omega
  clear := fun _ => clear

end UnderWay

/-- What a run tells about single steps: where they end, or that they do not end within `fuel`. -/
def Tells (limit : Option Nat) (past : Nat) (s : Machine) (fuel : Nat) :
    Option (RunResult Unit) → Prop
  | some r => ∃ n e, FirstEnd limit past s n e ∧ EndsLike e (afterSteps (e.attempted n) s) r
  | none => ∀ k < fuel, endsAt limit (past + k) (afterSteps k s) = none

theorem Tells.here {fuel : Nat} {e : Ending} {r : RunResult Unit} (ends : endsAt limit past s = some e)
    (like : EndsLike e (afterSteps (e.attempted 0) s) r) : Tells limit past s fuel (some r) :=
  ⟨0, e, .zero ends, like⟩

theorem Tells.later {fuel : Nat} {r : Option (RunResult Unit)} (going : endsAt limit past s = none)
    (h : Tells limit (past + 1) s.step.2 fuel r) : Tells limit past s (fuel + 1) r := by
  cases r with
  | none =>
      intro k hk
      cases k with
      | zero => exact going
      | succ k =>
          rw [show past + (k + 1) = past + 1 + k by omega]
          exact h k (by omega)
  | some r =>
      obtain ⟨n, e, hfirst, like⟩ := h
      refine ⟨n + 1, e, .succ going hfirst, ?_⟩
      have hattempted : e.attempted (n + 1) = e.attempted n + 1 := by cases e <;> rfl
      rw [hattempted]
      exact like

/-- No breakpoint holds where a step is attempted, but possibly before the first one. -/
theorem FirstEnd.meetsBreakpoint {n k : Nat} {e : Ending} (h : FirstEnd limit 0 s n e) (hk : 0 < k)
    (attempted : k < e.attempted n) : (afterSteps k s).meetsBreakpoint = false := by
  have hends : endsAt limit k (afterSteps k s) ≠ some .breakpoint := by
    have hn : e.attempted n = n ∨ e.attempted n = n + 1 ∧ e ≠ .breakpoint := by
      cases e <;> simp [Ending.attempted]
    by_cases hkn : k < n
    · have hnone := h.first k hkn
      rw [Nat.zero_add] at hnone
      rw [hnone]
      exact fun h => by cases h
    · obtain ⟨-, hne⟩ : e.attempted n = n + 1 ∧ e ≠ .breakpoint := hn.resolve_left (by omega)
      obtain rfl : k = n := by omega
      have hsome := h.ends
      rw [Nat.zero_add] at hsome
      rw [hsome]
      exact fun h => hne (Option.some.inj h)
  exact Bool.eq_false_iff.mpr fun hmeets => hends (if_pos ⟨hk, hmeets⟩)

/-- The machine without a request to stop, as at the start of every run. -/
def unstopped (m : Machine) : Machine := { m with running := true }

/-- A program that counts in a loop. -/
def countingLoop : AssembledProgram where
  code := [
    ⟨⟨⟨"a.s", 1, "loop: addi $t0, $t0, 1"⟩, []⟩, 0x00400000, .aluImm .addi ⟨8⟩ ⟨8⟩ 1⟩,
    ⟨⟨⟨"a.s", 2, "j loop"⟩, []⟩, 0x00400004, .jump false 0x00100000⟩]
  data := []
  globals := .empty "(global)"
  locals := [.empty "a.s"]
  warnings := []
  layout := {}

end MipsLab.Machine
