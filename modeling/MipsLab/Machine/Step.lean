import MipsLab.Instr.Decode
import MipsLab.Machine.Execute

set_option autoImplicit false

/-!
# Single steps

One instruction forwards or backwards. An instruction that faults leaves nothing behind but what was
observed of it, and one that was executed leaves a record by which it can be undone.
-/

namespace MipsLab.Machine

/-- Puts back the registers and the memory words of a record. -/
def undo (m : Machine) (u : UndoRecord) : Machine :=
  let m := u.registers.foldl (fun m (r, old) =>
    { m with
      registers := m.registers.write r old
      observer := m.observer.record (.register r) (.ofWrite (m.registers.read r) old) }) m
  let m := u.memory.foldl (fun m (a, old) =>
    let (value, memory) := m.memory.read a 4
    { m with
      memory := memory.write a 4 old
      observer := m.observer.record (.memory a) (.ofWrite value old) }) m
  { m with pc := u.pc }

/-- Undoes what an instruction did before it faulted. -/
def rollBack (m : Machine) : Machine :=
  match m.history with
  | none => m
  | some h =>
    match h.abort with
    | (some u, h) => { m with history := some h }.undo u
    | (none, h) => { m with history := some h }

/-- Keeps the record of an instruction that was executed. -/
def commit (m : Machine) : Machine :=
  { m with history := m.history.map (·.commit), executed := m.executed + 1 }

/-- Executes a decoded instruction and keeps its record, or undoes it if it faults. -/
def perform (m : Machine) (i : Instr) : Except Halt Unit × Machine :=
  let pc := m.pc
  match (execute pc i).run.run { m with history := m.history.map (·.start pc) } with
  | (.ok next, m) => (.ok (), { m with pc := next }.commit)
  | (.error (.exit code), m) =>
    (.error (.exit code), { m with pc := pc + 4, exitCode := some code }.commit)
  | (.error (.fault cause), m) => (.error (.fault cause), m.rollBack)

/-- Executes the next instruction. Where the text segments hold no code, the program ends. -/
def advance (m : Machine) : Except Halt Unit × Machine :=
  match m.exitCode, m.code with
  | some code, _ => (.error (.exit code), m)
  | none, none => (.error (.fault .notLoaded), m)
  | none, some code =>
    if !Word.isAligned m.pc 4 || !m.layout.inText m.pc then
      (.error (.fault (.invalidFetch m.pc)), m)
    else if !code.contains m.pc.toNat then (.error (.exit 0), { m with exitCode := some 0 })
    else
      let (word, memory) := m.memory.read m.pc 4
      match Instr.decode? word with
      | none => (.error (.fault (.illegalInstruction word)), { m with memory })
      | some i => { m with memory }.perform i

/-- Forgets what was observed and why the machine paused, and observes what follows. -/
def beginStep (m : Machine) : Machine :=
  { m.setStepped true with observer := ⟨true, ∅⟩, pause := .none }

/-- Executes one instruction, whatever the breakpoints. The result tells whether the program has
ended. -/
def step (m : Machine) : Except Fault Bool × Machine :=
  match m.beginStep.advance with
  | (.ok (), m) => (.ok false, m)
  | (.error (.exit _), m) => (.ok true, { m with pause := .completed })
  | (.error (.fault cause), m) => (.error (m.faultOf cause), m)

/-- What came of an attempt to undo an instruction. -/
inductive StepBack where
  /-- The instruction at this address was undone. -/
  | undone (pc : Word)
  /-- There is no record. -/
  | nothing
  /-- No records are kept. -/
  | disabled
deriving DecidableEq, Repr

/-- Undoes the last instruction. Input and output stay as they are. -/
def stepBack (m : Machine) : StepBack × Machine :=
  match m.history with
  | none => (.disabled, m)
  | some h =>
    match h.pop? with
    | none => (.nothing, m)
    | some (u, h) =>
      let undone := { m with history := some h }.beginStep.undo u
      (.undone u.pc, { undone with executed := undone.executed.pred, exitCode := none })

end MipsLab.Machine
