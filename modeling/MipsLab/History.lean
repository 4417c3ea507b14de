import MipsLab.Reg
import MipsLab.Word

set_option autoImplicit false

/-!
# History

What it takes to undo the last instructions. The record of an instruction holds its address and the
previous value of each register and memory word that it wrote. The history holds the records of the
last instructions up to a limit.
-/

namespace MipsLab

/-- What it takes to undo an instruction. -/
structure UndoRecord where
  pc : Word
  registers : List (Register × Word)
  /-- The previous values of memory words, by word address. -/
  memory : List (Word × Word)
deriving DecidableEq, Repr

namespace UndoRecord

/-- Adds the value that a register held before it was written. Only the first write counts. -/
def addRegister (u : UndoRecord) (r : Register) (old : Word) : UndoRecord :=
  if u.registers.any fun (s, _) => s == r then u
  else { u with registers := u.registers ++ [(r, old)] }

/-- Adds the value that a memory word held before it was written. Only the first write counts. -/
def addMemory (u : UndoRecord) (a old : Word) : UndoRecord :=
  if u.memory.any fun (b, _) => b == a then u else { u with memory := u.memory ++ [(a, old)] }

end UndoRecord

/-- The records of the last instructions. Records that have passed the limit are dropped now and
then, so that adding a record takes constant time on average. -/
structure History where
  limit : Nat
  /-- The number of instructions that can be undone. -/
  size : Nat
  /-- Records, newest first, of which only the first `size` count. -/
  stored : List UndoRecord
  /-- The number of stored records. -/
  storedSize : Nat
  /-- The record of the instruction that is being executed. -/
  current : Option UndoRecord
deriving Repr

namespace History

/-- A history without records. -/
def empty (limit : Nat) : History := ⟨limit, 0, [], 0, none⟩

/-- The records, newest first. -/
def records (h : History) : List UndoRecord := h.stored.take h.size

/-- Starts the record of the instruction at an address. -/
def start (h : History) (pc : Word) : History := { h with current := some ⟨pc, [], []⟩ }

/-- Adds a register that is about to be written to the record of the current instruction. -/
def addRegister (h : History) (r : Register) (old : Word) : History :=
  { h with current := h.current.map (·.addRegister r old) }

/-- Adds a memory word that is about to be written to the record of the current instruction. -/
def addMemory (h : History) (a old : Word) : History :=
  { h with current := h.current.map (·.addMemory a old) }

/-- Puts a record in front, and drops those past the limit once there are many of them. -/
def push (h : History) (u : UndoRecord) : History :=
  if h.limit * 2 ≤ h.storedSize then
    { h with
      size := min (h.size + 1) h.limit
      stored := u :: h.stored.take h.limit
      storedSize := (h.stored.take h.limit).length + 1 }
  else
    { h with
      size := min (h.size + 1) h.limit
      stored := u :: h.stored
      storedSize := h.storedSize + 1 }

/-- Ends the current instruction and keeps its record. -/
def commit (h : History) : History :=
  match h.current with
  | some u => { h.push u with current := none }
  | none => h

/-- Ends the current instruction and takes its record. -/
def abort (h : History) : Option UndoRecord × History := (h.current, { h with current := none })

/-- Takes the newest record. -/
def pop? (h : History) : Option (UndoRecord × History) :=
  match h.size, h.stored with
  | n + 1, u :: rest =>
    some (u, { h with size := n, stored := rest, storedSize := h.storedSize - 1 })
  | _, _ => none

end History

end MipsLab
