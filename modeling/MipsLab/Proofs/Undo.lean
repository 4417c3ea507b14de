import MipsLab.Machine.Step
import MipsLab.Proofs.Records

set_option autoImplicit false

/-!
# Undoing a record

Undoing puts the snapshot of a record back and leaves alone what no record holds: the history, the
console, the exit code and the number of instructions executed.
-/

namespace MipsLab.Machine

/-- What an instruction can change and an undo record can put back, of a machine. -/
def snapshot (m : Machine) : Snapshot := ⟨m.registers, m.memory.image, m.pc⟩

/-- Nothing but the registers, memory, the observer and the address of the next instruction differ
between two machines. -/
def SameButSnapshot (m n : Machine) : Prop :=
  ∃ registers memory observer pc, n = { m with registers, memory, observer, pc }

theorem SameButSnapshot.trans {m n k : Machine} (hmn : m.SameButSnapshot n)
    (hnk : n.SameButSnapshot k) : m.SameButSnapshot k := by
  obtain ⟨_, _, _, _, rfl⟩ := hmn
  obtain ⟨_, _, _, _, rfl⟩ := hnk
  exact ⟨_, _, _, _, rfl⟩

/-! ## The two halves of undoing -/

/-- Puts back a register. -/
def undoRegister (m : Machine) (r : Register) (old : Word) : Machine :=
  { m with
    registers := m.registers.write r old
    observer := m.observer.record (.register r) (.ofWrite (m.registers.read r) old) }

/-- Puts back a memory word. -/
def undoWord (m : Machine) (a old : Word) : Machine :=
  { m with
    memory := (m.memory.touchBytes a 4).write a 4 old
    observer := m.observer.record (.memory a) (.ofWrite (Image.word m.memory.image a) old) }

/-- Puts back registers in order. -/
def undoRegisters (m : Machine) (ps : List (Register × Word)) : Machine :=
  ps.foldl (fun m (r, old) =>
    { m with
      registers := m.registers.write r old
      observer := m.observer.record (.register r) (.ofWrite (m.registers.read r) old) }) m

/-- Puts back memory words in order. -/
def undoWords (m : Machine) (ps : List (Word × Word)) : Machine :=
  ps.foldl (fun m (a, old) =>
    let (value, memory) := m.memory.read a 4
    { m with
      memory := memory.write a 4 old
      observer := m.observer.record (.memory a) (.ofWrite value old) }) m

theorem undo_eq (m : Machine) (u : UndoRecord) :
    m.undo u = { (m.undoRegisters u.registers).undoWords u.memory with pc := u.pc } := rfl

theorem undoRegisters_cons (m : Machine) (p : Register × Word) (ps : List (Register × Word)) :
    m.undoRegisters (p :: ps) = (m.undoRegister p.1 p.2).undoRegisters ps := rfl

theorem undoWords_cons (m : Machine) (p : Word × Word) (ps : List (Word × Word)) :
    m.undoWords (p :: ps) = (m.undoWord p.1 p.2).undoWords ps := by
  obtain ⟨a, old⟩ := p
  rw [undoWords, List.foldl_cons]
  dsimp only
  rw [Memory.read_eq]
  rfl

theorem undoRegisters_spec (m : Machine) (ps : List (Register × Word)) :
    m.SameButSnapshot (m.undoRegisters ps) ∧ (m.undoRegisters ps).memory = m.memory ∧
      (m.undoRegisters ps).registers =
        ps.foldl (fun rs (r, old) => rs.write r old) m.registers := by
  induction ps generalizing m with
  | nil => exact ⟨⟨m.registers, m.memory, m.observer, m.pc, rfl⟩, rfl, rfl⟩
  | cons p ps ih =>
      have hfirst : m.SameButSnapshot (m.undoRegister p.1 p.2) := ⟨_, m.memory, _, m.pc, rfl⟩
      obtain ⟨hsame, hmemory, hregisters⟩ := ih (m.undoRegister p.1 p.2)
      rw [undoRegisters_cons]
      exact ⟨hfirst.trans hsame, hmemory, hregisters⟩

theorem undoWords_spec (m : Machine) (ps : List (Word × Word)) :
    m.SameButSnapshot (m.undoWords ps) ∧ (m.undoWords ps).registers = m.registers ∧
      (m.undoWords ps).memory.image =
        ps.foldl (fun g (a, old) => Image.store g a 4 old) m.memory.image := by
  induction ps generalizing m with
  | nil => exact ⟨⟨m.registers, m.memory, m.observer, m.pc, rfl⟩, rfl, rfl⟩
  | cons p ps ih =>
      have hfirst : m.SameButSnapshot (m.undoWord p.1 p.2) := ⟨m.registers, _, _, m.pc, rfl⟩
      have hkept : (m.undoWord p.1 p.2).registers = m.registers := by rw [undoWord]
      have hword : (m.undoWord p.1 p.2).memory.image = Image.store m.memory.image p.1 4 p.2 := by
        rw [undoWord, Memory.image_write, Memory.image_touchBytes]
      obtain ⟨hsame, hregisters, himage⟩ := ih (m.undoWord p.1 p.2)
      rw [undoWords_cons, List.foldl_cons]
      rw [hkept] at hregisters
      rw [hword] at himage
      exact ⟨hfirst.trans hsame, hregisters, himage⟩

/-! ## Undoing -/

/-- **Undoing a record restores its snapshot and leaves everything else alone.** -/
theorem undo_spec (m : Machine) (u : UndoRecord) :
    m.SameButSnapshot (m.undo u) ∧ (m.undo u).snapshot = m.snapshot.restore u := by
  -- registers are put back before memory, and neither touches the other
  obtain ⟨hsame, hmemory, hregisters⟩ := undoRegisters_spec m u.registers
  obtain ⟨hsame', hkept, himage⟩ := undoWords_spec (m.undoRegisters u.registers) u.memory
  rw [undo_eq]
  refine ⟨(hsame.trans hsame').trans ⟨_, _, _, u.pc, rfl⟩, ?_⟩
  simp only [snapshot, Snapshot.restore, Snapshot.mk.injEq, and_true]
  rw [hkept, hregisters, himage, hmemory]
  exact ⟨rfl, rfl⟩

theorem snapshot_undo (m : Machine) (u : UndoRecord) :
    (m.undo u).snapshot = m.snapshot.restore u :=
  (undo_spec m u).2

@[simp] theorem history_undo (m : Machine) (u : UndoRecord) : (m.undo u).history = m.history := by
  obtain ⟨_, _, _, _, h⟩ := (undo_spec m u).1
  rw [h]

@[simp] theorem executed_undo (m : Machine) (u : UndoRecord) :
    (m.undo u).executed = m.executed := by
  obtain ⟨_, _, _, _, h⟩ := (undo_spec m u).1
  rw [h]

end MipsLab.Machine
