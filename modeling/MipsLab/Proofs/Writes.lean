import MipsLab.Proofs.Lockstep

set_option autoImplicit false

/-!
# What an instruction writes

An instruction first looks at registers, memory and input, and then writes at most once: one
register, `hi` and `lo` together, part of one memory word, or a string of bytes (`Writes`). The main
statement, `writesOnce_execute`, says so of every instruction, however its execution ends. A property
of what is written therefore needs one case for each of these forms, and none for each instruction.
-/

namespace MipsLab.Machine

/-! ## Looking and writing -/

/-- `n` comes of `m` by looking: accesses are noted as reads, pages are touched, and the console is
used. -/
inductive Looked (m : Machine) : Machine → Prop
  | refl : Looked m m
  | observed {n : Machine} (h : Looked m n) (l : Location) : Looked m (n.observed l .ofRead)
  | touched {n : Machine} (h : Looked m n) (a : Word) (k : Nat) : Looked m (n.touched a k)
  | withConsole {n : Machine} (h : Looked m n) (console : Console) (running : Bool) :
      Looked m { n with console, running }

theorem Looked.trans {m n k : Machine} (hmn : Looked m n) (hnk : Looked n k) : Looked m k := by
  induction hnk with
  | refl => exact hmn
  | observed _ l ih => exact ih.observed l
  | touched _ a k ih => exact ih.touched a k
  | withConsole _ console running ih => exact ih.withConsole console running

/-- The machine after bytes were written one by one from an address on. -/
def storedBytes (m : Machine) (a : Word) : List Byte → Machine
  | [] => m
  | b :: bs => (m.storedTo a 1 (b.setWidth 32)).storedBytes (a + 1) bs

/-- `n` comes of `m` by all that one instruction writes. A string does not come round to its own
beginning. -/
inductive Writes (m : Machine) : Machine → Prop
  | nothing : Writes m m
  | register (r : Register) (value : Word) : Writes m (m.wrote r value)
  | product (hi lo : Word) : Writes m ((m.wrote .hi hi).wrote .lo lo)
  | word {a : Word} {width : Nat} (value : Word) (hw : width = 1 ∨ width = 2 ∨ width = 4)
      (ha : Word.isAligned a width = true) : Writes m (m.storedTo a width value)
  | string (a : Word) (bytes : List Byte) (h : bytes.length ≤ 0x100000000) :
      Writes m (m.storedBytes a bytes)

/-- However it ends, the execution only looks. -/
def OnlyLooks {α : Type} (x : Exec α) : Prop := ∀ m, Looked m (x.run.run m).2

/-- However it ends, the execution looks and then writes. -/
def WritesOnce {α : Type} (x : Exec α) : Prop := ∀ m, ∃ k, Looked m k ∧ Writes k (x.run.run m).2

section Rules

variable {α β : Type} {x : Exec α} {f : α → Exec β}

theorem OnlyLooks.pure (a : α) : OnlyLooks (pure a : Exec α) := fun _ => .refl

theorem OnlyLooks.throw (e : Halt) : OnlyLooks (throw e : Exec α) := fun _ => .refl

theorem OnlyLooks.bind (hx : OnlyLooks x) (hf : ∀ a, OnlyLooks (f a)) : OnlyLooks (x >>= f) := by
  intro m
  have hfirst := hx m
  rw [run_bind]
  rcases hrun : x.run.run m with ⟨_ | a, n⟩ <;> rw [hrun] at hfirst
  · exact hfirst
  · exact hfirst.trans (hf a n)

theorem OnlyLooks.writesOnce (hx : OnlyLooks x) : WritesOnce x :=
  fun m => ⟨_, hx m, .nothing⟩

/-- An execution may look before it writes. -/
theorem WritesOnce.bind (hx : OnlyLooks x) (hf : ∀ a, WritesOnce (f a)) : WritesOnce (x >>= f) := by
  intro m
  have hfirst := hx m
  rw [run_bind]
  rcases hrun : x.run.run m with ⟨_ | a, n⟩ <;> rw [hrun] at hfirst
  · exact ⟨n, hfirst, .nothing⟩
  · obtain ⟨k, hlooked, hwrites⟩ := hf a n
    exact ⟨k, hfirst.trans hlooked, hwrites⟩

/-- Giving a value at the end writes nothing. -/
theorem WritesOnce.result (hx : WritesOnce x) (b : β) : WritesOnce (x >>= fun _ => pure b) := by
  intro m
  obtain ⟨k, hlooked, hwrites⟩ := hx m
  refine ⟨k, hlooked, ?_⟩
  rw [run_bind]
  rcases hrun : x.run.run m with ⟨_ | a, n⟩ <;> rw [hrun] at hwrites <;> exact hwrites

end Rules

/-! ## Accesses -/

theorem onlyLooks_readRegister (r : Register) : OnlyLooks (readRegister r) :=
  fun _ => Looked.refl.observed _

theorem onlyLooks_readMemory (a : Word) (width : Nat) : OnlyLooks (readMemory a width) := by
  intro m
  rw [run_readMemory]
  split
  · exact (Looked.refl.observed _).touched _ _
  · exact .refl

theorem onlyLooks_ask {α : Type} (request : Console → Bool → Answered α) : OnlyLooks (ask request) :=
  fun _ => Looked.refl.withConsole _ _

theorem onlyLooks_print (bytes : List Byte) : OnlyLooks (print bytes) :=
  .bind (onlyLooks_ask _) fun _ => .pure _

theorem writesOnce_writeRegister (r : Register) (value : Word) :
    WritesOnce (writeRegister r value) := by
  intro m
  rw [run_writeRegister_eq]
  exact ⟨m, .refl, .register r value⟩

theorem writesOnce_writeHiLo (hi lo : Word) : WritesOnce (writeHiLo hi lo) := by
  intro m
  rw [writeHiLo, run_bind, run_writeRegister_eq]
  dsimp only
  rw [run_writeRegister_eq]
  exact ⟨m, .refl, .product hi lo⟩

theorem writesOnce_writeMemory (a : Word) {width : Nat} (hw : width = 1 ∨ width = 2 ∨ width = 4)
    (value : Word) : WritesOnce (writeMemory a width value) := by
  intro m
  rw [run_writeMemory]
  split
  case isTrue ha => exact ⟨m, .refl, .word value hw ha⟩
  case isFalse => exact ⟨m, .refl, .nothing⟩

theorem run_writeString (a : Word) (bytes : List Byte) (m : Machine) :
    (writeString a bytes).run.run m = (.ok (), m.storedBytes a bytes) := by
  induction bytes generalizing a m with
  | nil => rfl
  | cons b bs ih =>
      rw [writeString, run_bind, run_writeMemory_of_isAligned (isAligned_one a)]
      dsimp only
      rw [ih, storedBytes]

theorem writesOnce_writeString (a : Word) {bytes : List Byte} (h : bytes.length ≤ 0x100000000) :
    WritesOnce (writeString a bytes) := by
  intro m
  rw [run_writeString]
  exact ⟨m, .refl, .string a bytes h⟩

/-! ## Instructions -/

section Staged

variable {inputs memory : Prop} {α : Type} {x : Exec α}

theorem Inspects.onlyLooks (hx : Inspects inputs memory x) : OnlyLooks x := by
  induction hx with
  | pure a => exact .pure a
  | throw e => exact .throw e
  | bind _ _ ihx ihf => exact .bind ihx ihf
  | readRegister r => exact onlyLooks_readRegister r
  | readMemory _ a width => exact onlyLooks_readMemory a width
  | print bytes => exact onlyLooks_print bytes
  | inputByte => exact onlyLooks_ask _
  | inputLine => exact onlyLooks_ask _

theorem Staged.writesOnce (hx : Staged inputs memory x) : WritesOnce x := by
  induction hx with
  | inspects hx => exact hx.onlyLooks.writesOnce
  | after hx _ ih => exact .bind hx.onlyLooks ih
  | result _ b ih => exact ih.result b
  | writeRegister r value => exact writesOnce_writeRegister r value
  | writeHiLo hi lo => exact writesOnce_writeHiLo hi lo
  | writeMemory _ a hw value => exact writesOnce_writeMemory a hw value
  | writeString _ a bytes h => exact writesOnce_writeString a h

end Staged

/-- **Every instruction looks and then writes at most once.** -/
theorem writesOnce_execute (pc : Word) (i : Instr) : WritesOnce (execute pc i) :=
  (Staged.execute_any pc i).writesOnce

end MipsLab.Machine
