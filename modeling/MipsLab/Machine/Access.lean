import MipsLab.Machine

set_option autoImplicit false

/-!
# What instructions do to the machine

Executing an instruction is a sequence of accesses to registers, memory and the console. Each access
is observed, and each write first puts the old value into the record of the instruction, so that it
can be undone.
-/

namespace MipsLab

/-- Why an instruction does not go on to the next one. -/
inductive Halt where
  | exit (code : Int)
  | fault (cause : FaultCause)
deriving DecidableEq, Repr

/-- Part of the execution of an instruction. What it did to the machine stays also if it halts. -/
abbrev Exec := ExceptT Halt (StateM Machine)

namespace Machine

/-- Notes that a location was read or written. -/
def observe (l : Location) (a : Access) : Exec Unit :=
  modify fun m => { m with observer := m.observer.record l a }

/-- Reads a register. -/
def readRegister (r : Register) : Exec Word := do
  observe (.register r) .ofRead
  return (← get).registers.read r

/-- Reads a general-purpose register. -/
def readGeneral (r : Reg) : Exec Word := readRegister (.general r)

/-- Writes a register. Writing to `$zero` is no access at all. -/
def writeRegister (r : Register) (value : Word) : Exec Unit := do
  if r ≠ .general .zero then
    let old := (← get).registers.read r
    modify fun m =>
      { m with
        history := m.history.map (·.addRegister r old)
        registers := m.registers.write r value }
    observe (.register r) (.ofWrite old value)

/-- Writes a general-purpose register. -/
def writeGeneral (r : Reg) (value : Word) : Exec Unit := writeRegister (.general r) value

/-- Writes `hi` and `lo`. -/
def writeHiLo (hi lo : Word) : Exec Unit := do
  writeRegister .hi hi
  writeRegister .lo lo

/-- Reads from memory without an access being noted. -/
def fetch (a : Word) (width : Nat) : Exec Word :=
  modifyGet fun m =>
    let (value, memory) := m.memory.read a width
    (value, { m with memory })

/-- Reads the zero-extended value at an address, which has to be a multiple of the width. -/
def readMemory (a : Word) (width : Nat) : Exec Word := do
  if !Word.isAligned a width then throw (.fault (.misaligned a))
  observe (.memory (Word.wordAligned a)) .ofRead
  fetch a width

/-- Writes to an address, which has to be a multiple of the width. -/
def writeMemory (a : Word) (width : Nat) (value : Word) : Exec Unit := do
  if !Word.isAligned a width then throw (.fault (.misaligned a))
  let base := Word.wordAligned a
  let old ← fetch base 4
  modify fun m =>
    { m with
      history := m.history.map (·.addMemory base old)
      memory := m.memory.write a width value }
  let new ← fetch base 4
  observe (.memory base) (.ofWrite old new)

/-- Asks the console for something. It may change the run control. -/
def ask {α : Type} (request : Console → Bool → Answered α) : Exec α :=
  modifyGet fun m =>
    let r := request m.console m.running
    (r.answer, { m with console := r.console, running := r.running })

/-- Prints bytes, whether or not the console accepts them. -/
def print (bytes : List Byte) : Exec Unit := do
  let _ ← ask (·.print · bytes)

/-- Takes a byte of input. -/
def inputByte : Exec (Option Byte) := ask Console.readByte

/-- Takes a line of input. -/
def inputLine : Exec (Option (List Byte)) := ask Console.readLine

/-- Ends the instruction with a fault. -/
def fail {α : Type} (cause : FaultCause) : Exec α := throw (.fault cause)

end Machine

end MipsLab
