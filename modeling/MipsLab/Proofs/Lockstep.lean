import MipsLab.Proofs.Execution

set_option autoImplicit false

/-!
# Executions in lockstep

An execution is put together from accesses (`Accessing`), so it can tell two machines apart only by
what the accesses give: the values of registers, the bytes of memory, and the input of the console.
If a relation between machines fixes the values and the bytes, and every access keeps it (`Lockstep`),
then executions from related machines end in the same way and in related machines
(`Lockstep.run`). The input only matters to executions that read it, which among the instructions are
three services.
-/

namespace MipsLab.Machine

/-! ## Executions made of accesses -/

/-- The execution is put together from accesses. Input is read from the console only if `inputs`
holds. -/
inductive Accessing (inputs : Prop) : {α : Type} → Exec α → Prop
  | pure {α : Type} (a : α) : Accessing inputs (pure a : Exec α)
  | throw {α : Type} (h : Halt) : Accessing inputs (throw h : Exec α)
  | bind {α β : Type} {x : Exec α} {f : α → Exec β} (hx : Accessing inputs x)
      (hf : ∀ a, Accessing inputs (f a)) : Accessing inputs (x >>= f)
  | readRegister (r : Register) : Accessing inputs (readRegister r)
  | writeRegister (r : Register) (value : Word) : Accessing inputs (writeRegister r value)
  | readMemory (a : Word) (width : Nat) : Accessing inputs (readMemory a width)
  | writeMemory (a : Word) (width : Nat) (value : Word) : Accessing inputs (writeMemory a width value)
  | print (bytes : List Byte) : Accessing inputs (print bytes)
  | inputByte (allowed : inputs) : Accessing inputs inputByte
  | inputLine (allowed : inputs) : Accessing inputs inputLine

/-- A service is chosen by `$v0` and gets `$a0`; both are noted as read. -/
theorem run_service (m : Machine) :
    service.run.run m = (serve (m.registers.get .v0) (m.registers.get .a0)).run.run
      ((m.observed (.register (.general .v0)) .ofRead).observed (.register (.general .a0))
        .ofRead) := by
  rw [service_eq]
  simp only [run_bind, run_readGeneral]
  rfl

/-- A system call serves, and goes on to the next instruction. -/
theorem run_execute_syscall (pc : Word) (m : Machine) :
    (execute pc .syscall).run.run m =
      (do serve (m.registers.get .v0) (m.registers.get .a0); return pc + 4 : Exec Word).run.run
        ((m.observed (.register (.general .v0)) .ofRead).observed (.register (.general .a0))
          .ofRead) := by
  show (service >>= fun _ => pure (pc + 4)).run.run m = _
  rw [run_bind, run_service, run_bind]

namespace Accessing

variable {inputs memory : Prop} {α : Type} {x : Exec α}

theorem writeString (a : Word) (bytes : List Byte) : Accessing inputs (writeString a bytes) := by
  induction bytes generalizing a with
  | nil => exact .pure _
  | cons b bs ih => exact .bind (.writeMemory _ _ _) fun _ => ih _

theorem inspects (hx : Inspects inputs memory x) : Accessing inputs x := by
  induction hx with
  | pure a => exact .pure a
  | throw e => exact .throw e
  | bind _ _ ihx ihf => exact .bind ihx ihf
  | readRegister r => exact .readRegister r
  | readMemory _ a width => exact .readMemory a width
  | print bytes => exact .print bytes
  | inputByte allowed => exact .inputByte allowed
  | inputLine allowed => exact .inputLine allowed

theorem staged (hx : Staged inputs memory x) : Accessing inputs x := by
  induction hx with
  | inspects hx => exact .inspects hx
  | after hx _ ih => exact .bind (.inspects hx) ih
  | result _ b ih => exact .bind ih fun _ => .pure b
  | writeRegister r value => exact .writeRegister r value
  | writeHiLo hi lo => exact .bind (.writeRegister .hi hi) fun _ => .writeRegister .lo lo
  | writeMemory _ a _ value => exact .writeMemory a _ value
  | writeString _ a bytes => exact .writeString a bytes

/-- Only the services that read from the console need input. -/
theorem serve {number : Word} (allowed : ReadsConsole number → inputs) (a0 : Word) :
    Accessing inputs (serve number a0) :=
  have hserve : Staged inputs True (Machine.serve number a0) :=
    .serve allowed (fun _ => trivial) (fun _ => trivial) a0
  .staged hserve

/-- Every instruction but `syscall` is executed by accesses to registers and memory. -/
theorem execute (pc : Word) {i : Instr} (h : i ≠ .syscall) : Accessing inputs (execute pc i) :=
  have hexecute : Staged inputs True (Machine.execute pc i) := .execute pc h fun _ => trivial
  .staged hexecute

end Accessing

/-! ## Relations that executions keep -/

/-- The machine with bytes printed. -/
def printed (m : Machine) (bytes : List Byte) : Machine :=
  m.answered (m.console.print m.running bytes)

/-- Related machines have the same registers and bytes of memory, and a single access, made to both,
keeps them related. -/
structure Lockstep (R : Machine → Machine → Prop) : Prop where
  registers : ∀ {m n}, R m n → n.registers = m.registers
  image : ∀ {m n}, R m n → n.memory.image = m.memory.image
  observed : ∀ {m n} l a, R m n → R (m.observed l a) (n.observed l a)
  putRegister : ∀ {m n} r value, R m n → R (m.putRegister r value) (n.putRegister r value)
  touched : ∀ {m n} a k, R m n → R (m.touched a k) (n.touched a k)
  putMemory : ∀ {m n} a width value, R m n → R (m.putMemory a width value) (n.putMemory a width value)
  printed : ∀ {m n} bytes, R m n → R (m.printed bytes) (n.printed bytes)

/-- Related machines have the same console and run control, and the same answer keeps them related. -/
structure SameInput (R : Machine → Machine → Prop) : Prop where
  console : ∀ {m n}, R m n → n.console = m.console
  running : ∀ {m n}, R m n → n.running = m.running
  answered : ∀ {α : Type} {m n} (r : Answered α), R m n → R (m.answered r) (n.answered r)

namespace Lockstep

variable {R : Machine → Machine → Prop} (hR : Lockstep R)
include hR

theorem read {m n : Machine} (h : R m n) (r : Register) :
    n.registers.read r = m.registers.read r := by
  rw [hR.registers h]

theorem wrote {m n : Machine} (h : R m n) (r : Register) (value : Word) :
    R (m.wrote r value) (n.wrote r value) := by
  unfold Machine.wrote
  split
  · exact h
  · rw [hR.read h]
    exact hR.observed _ _ (hR.putRegister r value h)

theorem storedTo {m n : Machine} (h : R m n) (a : Word) (width : Nat) (value : Word) :
    R (m.storedTo a width value) (n.storedTo a width value) := by
  have hput := hR.touched (Word.wordAligned a) 4
    (hR.putMemory a width value (hR.touched (Word.wordAligned a) 4 h))
  unfold Machine.storedTo
  dsimp only
  rw [hR.image h, hR.image hput]
  exact hR.observed _ _ hput

omit hR in
/-- The console gives related machines the same answer. -/
theorem ask (same : SameInput R) {α : Type} (request : Console → Bool → Answered α) {m n : Machine} (h : R m n) :
    ((ask request).run.run n).1 = ((ask request).run.run m).1 ∧
      R ((ask request).run.run m).2 ((ask request).run.run n).2 := by
  rw [run_ask, run_ask, same.console h, same.running h]
  exact ⟨rfl, same.answered _ h⟩

/-- **Executions from related machines end in the same way and in related machines.** -/
theorem run {inputs : Prop} (same : inputs → SameInput R) {α : Type} {x : Exec α}
    (hx : Accessing inputs x) {m n : Machine} (h : R m n) :
    (x.run.run n).1 = (x.run.run m).1 ∧ R (x.run.run m).2 (x.run.run n).2 := by
  induction hx generalizing m n with
  | pure a => exact ⟨rfl, h⟩
  | throw e => exact ⟨rfl, h⟩
  | @bind α β x f _ _ ihx ihf =>
      obtain ⟨hresult, hend⟩ := ihx h
      rw [run_bind, run_bind]
      -- both first parts give the same value, or both halt
      rcases hm : x.run.run m with ⟨e | a, m'⟩ <;> rcases hn : x.run.run n with ⟨e' | a', n'⟩ <;>
        rw [hm, hn] at hresult hend <;> cases hresult
      · exact ⟨rfl, hend⟩
      · exact ihf a hend
  | readRegister r =>
      rw [run_readRegister, run_readRegister]
      exact ⟨congrArg Except.ok (hR.read h r), hR.observed _ _ h⟩
  | writeRegister r value =>
      rw [run_writeRegister_eq, run_writeRegister_eq]
      exact ⟨rfl, hR.wrote h r value⟩
  | readMemory a width =>
      rw [run_readMemory, run_readMemory, hR.image h]
      split
      · exact ⟨rfl, hR.touched _ _ (hR.observed _ _ h)⟩
      · exact ⟨rfl, h⟩
  | writeMemory a width value =>
      rw [run_writeMemory, run_writeMemory]
      split
      · exact ⟨rfl, hR.storedTo h a width value⟩
      · exact ⟨rfl, h⟩
  | print bytes => exact ⟨rfl, hR.printed bytes h⟩
  | inputByte allowed => exact ask (same allowed) _ h
  | inputLine allowed => exact ask (same allowed) _ h

/-- Instructions in lockstep, unless they read from the console and the consoles may differ. -/
theorem execute {inputs : Prop} (same : inputs → SameInput R) (pc : Word) {i : Instr}
    {m n : Machine} (allowed : i = .syscall → ReadsConsole (m.registers.get .v0) → inputs)
    (h : R m n) :
    ((execute pc i).run.run n).1 = ((execute pc i).run.run m).1 ∧
      R ((execute pc i).run.run m).2 ((execute pc i).run.run n).2 := by
  by_cases hi : i = .syscall
  · subst hi
    have hserve : Accessing inputs (serve (m.registers.get .v0) (m.registers.get .a0)) :=
      .serve (allowed rfl) _
    have hread := hR.observed (.register (.general .a0)) .ofRead
      (hR.observed (.register (.general .v0)) .ofRead h)
    -- the number of the service is read first, and the rest of the execution depends on it
    rw [run_execute_syscall, run_execute_syscall, hR.registers h]
    exact hR.run same (.bind hserve fun _ => .pure _) hread
  · exact hR.run same (.execute pc hi) h

end Lockstep

end MipsLab.Machine
