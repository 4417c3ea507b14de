import MipsLab.Assembly
import MipsLab.Breakpoint
import MipsLab.Console
import MipsLab.Fault
import MipsLab.History
import MipsLab.Observer

set_option autoImplicit false

/-!
# The machine

The state of the machine, and how a program gets into it. Loading a program starts from fresh
registers and memory, whatever ran before; only the options, the breakpoints, the console and the
run control stay.
-/

namespace MipsLab

/-- How the machine is set up. Options take effect when a program is loaded. -/
structure MachineOptions where
  /-- Whether instructions can be undone. -/
  keepsHistory : Bool := true
  /-- How many instructions can be undone. -/
  historyLimit : Nat := 2000
  /-- What registers and memory hold before anything is written. -/
  fill : Fill := .known 0
  /-- Whether a program starts at its label `main`, if all units see one. -/
  startAtMain : Bool := false

/-- Why the machine paused. -/
inductive Pause where
  /-- The program has ended. -/
  | completed
  /-- The run was asked to stop. -/
  | stopped
  | breakpoint
  /-- A limit of the run was reached. -/
  | tripwire
  /-- A fault occurred, or nothing was run yet. -/
  | none
deriving DecidableEq, Repr

/-- The state of the machine. -/
structure Machine where
  memory : Memory
  registers : Registers
  pc : Word
  /-- The number of instructions executed and not undone since the program was loaded. -/
  executed : Count
  pause : Pause
  exitCode : Option Int
  /-- Whether the last thing done was a single step, forwards or backwards. -/
  stepped : Bool
  observer : Observer
  history : Option History
  /-- The code of the loaded program, by address. -/
  code : Option (Std.TreeMap Nat CodeWord)
  layout : MemoryLayout
  /-- Cleared to ask a run to stop before its next instruction. -/
  running : Bool
  options : MachineOptions
  breakpoints : List Breakpoint
  console : Console

namespace Machine

/-- The registers before anything is executed. -/
def initialRegisters (fill : Fill) (layout : MemoryLayout) : Registers :=
  ((Registers.filled fill).set .sp layout.stackPointer).set .gp layout.globalPointer

/-- A machine without a program. -/
def initial (options : MachineOptions) : Machine where
  memory := .filled options.fill
  registers := initialRegisters options.fill {}
  pc := ({} : MemoryLayout).textBase
  executed := 0
  pause := .none
  exitCode := none
  stepped := false
  observer := .empty
  history := none
  code := none
  layout := {}
  running := false
  options := options
  breakpoints := []
  console := .empty

/-- Takes the machine back to where it was before a program was loaded. -/
def reset (m : Machine) : Machine :=
  { initial m.options with
    running := m.running
    breakpoints := m.breakpoints
    console := m.console }

/-- Writes the code and the data of a program into memory. Data covers code. -/
def loadMemory (memory : Memory) (p : AssembledProgram) : Memory :=
  let withCode := p.code.foldl (fun mem c => mem.write c.address 4 c.word) memory
  p.data.foldl (fun mem block => mem.writeBytes block.address block.bytes) withCode

/-- Where a program starts. -/
def startOf (options : MachineOptions) (p : AssembledProgram) : Word :=
  if options.startAtMain then (p.globals.addressOf? "main").getD p.layout.textBase
  else p.layout.textBase

/-- Loads a program. -/
def load (m : Machine) (p : AssembledProgram) : Machine :=
  let fresh := m.reset
  { fresh with
    memory := loadMemory fresh.memory p
    registers := initialRegisters m.options.fill p.layout
    pc := startOf m.options p
    history := if m.options.keepsHistory then some (.empty m.options.historyLimit) else none
    code := some (.ofList (p.code.map fun c => (c.address.toNat, c)))
    layout := p.layout }

/-- The code that is next. -/
def currentCode? (m : Machine) : Option CodeWord := m.code.bind fun code => code[m.pc.toNat]?

/-- Whether the program has ended: it has exited, or gone past the end of its code. -/
def isCompleted (m : Machine) : Bool := m.exitCode.isSome

/-- Whether the last run was paused by a breakpoint. -/
def hitBreakpoint (m : Machine) : Bool := m.pause == .breakpoint

/-- Whether some breakpoint holds. -/
def meetsBreakpoint (m : Machine) : Bool :=
  m.breakpoints.any fun b => b.check m.pc m.registers m.memory

/-- Adds breakpoints that are not there yet. -/
def addBreakpoints (m : Machine) (bs : List Breakpoint) : Machine :=
  { m with
    breakpoints := bs.foldl (fun all b => if all.contains b then all else all ++ [b])
      m.breakpoints }

/-- Removes a breakpoint. -/
def removeBreakpoint (m : Machine) (b : Breakpoint) : Machine :=
  { m with breakpoints := m.breakpoints.filter (· != b) }

/-- Sets whether accesses are observed, as they are during single steps only. -/
def setStepped (m : Machine) (stepped : Bool) : Machine :=
  { m with stepped, observer := { m.observer with enabled := stepped } }

/-- The fault that a cause amounts to at the instruction that is next. -/
def faultOf (m : Machine) (cause : FaultCause) : Fault :=
  ⟨cause, m.pc, if cause.hasInstruction then m.memory.peek? m.pc else none⟩

end Machine

end MipsLab
