import MipsLab.Machine.Execute
import MipsLab.Proofs.Records

set_option autoImplicit false

/-!
# Executions as sequences of accesses

An instruction is executed by accesses to registers, memory and the console. The first part of this
module says what each access does to the machine, so that executions can be computed. The second part
says how accesses are put together: every instruction first inspects the machine (`Inspects`) and then
writes at most once (`Staged.execute`). What holds of the accesses is carried over to instructions by
induction on this account, with no case for each instruction; the third part does so for whatever
every access keeps (`Stable.execute`).
-/

namespace MipsLab.Machine

/-! ## Running an execution -/

theorem run_pure {α : Type} (a : α) (m : Machine) : (pure a : Exec α).run.run m = (.ok a, m) := rfl

theorem run_bind {α β : Type} (x : Exec α) (f : α → Exec β) (m : Machine) :
    (x >>= f).run.run m =
      match x.run.run m with
      | (.ok a, n) => (f a).run.run n
      | (.error h, n) => (.error h, n) := by
  rw [ExceptT.run_bind, StateT.run_bind]
  rcases x.run.run m with ⟨_ | _, n⟩ <;> rfl

/-! ## Accesses -/

/-- The machine with an access noted. -/
def observed (m : Machine) (l : Location) (a : Access) : Machine :=
  { m with observer := m.observer.record l a }

/-- The machine with a register recorded and written. -/
def putRegister (m : Machine) (r : Register) (value : Word) : Machine :=
  { m with
    history := m.history.map (·.addRegister r (m.registers.read r))
    registers := m.registers.write r value }

/-- The machine with the pages of `n` bytes touched. -/
def touched (m : Machine) (a : Word) (n : Nat) : Machine :=
  { m with memory := m.memory.touchBytes a n }

/-- The machine with a word recorded and some of its bytes written. -/
def putMemory (m : Machine) (a : Word) (width : Nat) (value : Word) : Machine :=
  { m with
    history := m.history.map
      (·.addMemory (Word.wordAligned a) (Image.word m.memory.image (Word.wordAligned a)))
    memory := m.memory.write a width value }

/-- The machine after an answer of the console. -/
def answered {α : Type} (m : Machine) (r : Answered α) : Machine :=
  { m with console := r.console, running := r.running }

@[simp] theorem image_touched (m : Machine) (a : Word) (n : Nat) :
    (m.touched a n).memory.image = m.memory.image :=
  Memory.image_touchBytes _ _ _

theorem run_modify (f : Machine → Machine) (m : Machine) :
    (modify f : Exec Unit).run.run m = (.ok (), f m) := rfl

theorem run_ask {α : Type} (request : Console → Bool → Answered α) (m : Machine) :
    (ask request).run.run m =
      (.ok (request m.console m.running).answer, m.answered (request m.console m.running)) := rfl

theorem run_print (bytes : List Byte) (m : Machine) :
    (print bytes).run.run m = (.ok (), m.answered (m.console.print m.running bytes)) := rfl

theorem run_inputLine (m : Machine) :
    inputLine.run.run m =
      (.ok (m.console.readLine m.running).answer, m.answered (m.console.readLine m.running)) := rfl

theorem run_observe (l : Location) (a : Access) (m : Machine) :
    (observe l a).run.run m = (.ok (), m.observed l a) := rfl

theorem run_readRegister (r : Register) (m : Machine) :
    (readRegister r).run.run m =
      (.ok (m.registers.read r), m.observed (.register r) .ofRead) := rfl

theorem run_readGeneral (r : Reg) (m : Machine) :
    (readGeneral r).run.run m =
      (.ok (m.registers.get r), m.observed (.register (.general r)) .ofRead) := rfl

theorem run_writeRegister_zero (value : Word) (m : Machine) :
    (writeRegister (.general .zero) value).run.run m = (.ok (), m) := rfl

theorem run_writeRegister {r : Register} (h : r ≠ .general .zero) (value : Word) (m : Machine) :
    (writeRegister r value).run.run m =
      (.ok (), (m.putRegister r value).observed (.register r)
        (.ofWrite (m.registers.read r) value)) := by
  unfold writeRegister
  rw [if_pos h]
  rfl

/-- The machine after a write to any register. Writing `$zero` is no access. -/
def wrote (m : Machine) (r : Register) (value : Word) : Machine :=
  if r = .general .zero then m
  else (m.putRegister r value).observed (.register r) (.ofWrite (m.registers.read r) value)

theorem run_writeRegister_eq (r : Register) (value : Word) (m : Machine) :
    (writeRegister r value).run.run m = (.ok (), m.wrote r value) := by
  unfold wrote
  split
  case isTrue h => rw [h, run_writeRegister_zero]
  case isFalse h => rw [run_writeRegister h]

theorem run_writeGeneral (r : Reg) (value : Word) (m : Machine) :
    (writeGeneral r value).run.run m = (.ok (), m.wrote (.general r) value) :=
  run_writeRegister_eq _ _ _

theorem run_fetch (a : Word) (width : Nat) (m : Machine) :
    (fetch a width).run.run m = (.ok (Image.value m.memory.image a width), m.touched a width) := by
  show (Except.ok (m.memory.read a width).1, { m with memory := (m.memory.read a width).2 }) = _
  rw [Memory.read_eq]
  rfl

theorem run_readMemory_of_isAligned {a : Word} {width : Nat} (h : Word.isAligned a width = true)
    (m : Machine) :
    (readMemory a width).run.run m =
      (.ok (Image.value m.memory.image a width),
        (m.observed (.memory (Word.wordAligned a)) .ofRead).touched a width) := by
  unfold readMemory
  rw [h]
  exact run_fetch a width (m.observed (.memory (Word.wordAligned a)) .ofRead)

theorem run_readMemory_of_not_isAligned {a : Word} {width : Nat}
    (h : Word.isAligned a width = false) (m : Machine) :
    (readMemory a width).run.run m = (.error (.fault (.misaligned a)), m) := by
  unfold readMemory
  rw [h]
  rfl

/-- A read succeeds exactly if it is aligned. -/
theorem run_readMemory (a : Word) (width : Nat) (m : Machine) :
    (readMemory a width).run.run m =
      if Word.isAligned a width then
        (.ok (Image.value m.memory.image a width),
          (m.observed (.memory (Word.wordAligned a)) .ofRead).touched a width)
      else (.error (.fault (.misaligned a)), m) := by
  split
  case isTrue h => exact run_readMemory_of_isAligned h m
  case isFalse h => exact run_readMemory_of_not_isAligned (Bool.eq_false_iff.mpr h) m

/-- Every address is aligned for a byte. -/
theorem isAligned_one (a : Word) : Word.isAligned a 1 = true :=
  (Word.isAligned_iff a 1).mpr (Nat.mod_one _)

/-- The machine after an aligned write: the word is looked at before and after. -/
def storedTo (m : Machine) (a : Word) (width : Nat) (value : Word) : Machine :=
  let base := Word.wordAligned a
  let n := ((m.touched base 4).putMemory a width value).touched base 4
  n.observed (.memory base)
    (.ofWrite (Image.word m.memory.image base) (Image.word n.memory.image base))

theorem image_storedTo (m : Machine) (a : Word) (width : Nat) (value : Word) :
    (m.storedTo a width value).memory.image = Image.store m.memory.image a width value := by
  show ((((m.touched _ 4).putMemory a width value).touched _ 4)).memory.image = _
  rw [image_touched]
  show ((m.touched _ 4).memory.write a width value).image = _
  rw [Memory.image_write, image_touched]

theorem run_writeMemory_of_isAligned {a : Word} {width : Nat} (h : Word.isAligned a width = true)
    (value : Word) (m : Machine) :
    (writeMemory a width value).run.run m = (.ok (), m.storedTo a width value) := by
  unfold writeMemory
  rw [h]
  -- the word is fetched, patched and fetched again for the observer
  simp only [Bool.not_true, Bool.false_eq_true, if_false, run_bind, run_fetch, run_modify,
    run_observe]
  simp only [storedTo, putMemory, image_touched]
  rfl

theorem run_writeMemory_of_not_isAligned {a : Word} {width : Nat}
    (h : Word.isAligned a width = false) (value : Word) (m : Machine) :
    (writeMemory a width value).run.run m = (.error (.fault (.misaligned a)), m) := by
  unfold writeMemory
  rw [h]
  rfl

/-- A write succeeds exactly if it is aligned. -/
theorem run_writeMemory (a : Word) (width : Nat) (value : Word) (m : Machine) :
    (writeMemory a width value).run.run m =
      if Word.isAligned a width then (.ok (), m.storedTo a width value)
      else (.error (.fault (.misaligned a)), m) := by
  split
  case isTrue h => exact run_writeMemory_of_isAligned h value m
  case isFalse h => exact run_writeMemory_of_not_isAligned (Bool.eq_false_iff.mpr h) value m

/-! ## How accesses are put together -/

/-- The execution inspects the machine: it reads registers and memory, uses the console, and may halt,
but it writes nothing. It takes input only if `inputs` holds, and reads memory only if `memory`
holds. -/
inductive Inspects (inputs memory : Prop) : {α : Type} → Exec α → Prop
  | pure {α : Type} (a : α) : Inspects inputs memory (pure a : Exec α)
  | throw {α : Type} (h : Halt) : Inspects inputs memory (throw h : Exec α)
  | bind {α β : Type} {x : Exec α} {f : α → Exec β} (hx : Inspects inputs memory x)
      (hf : ∀ a, Inspects inputs memory (f a)) : Inspects inputs memory (x >>= f)
  | readRegister (r : Register) : Inspects inputs memory (readRegister r)
  | readMemory (allowed : memory) (a : Word) (width : Nat) : Inspects inputs memory (readMemory a width)
  | print (bytes : List Byte) : Inspects inputs memory (print bytes)
  | inputByte (allowed : inputs) : Inspects inputs memory inputByte
  | inputLine (allowed : inputs) : Inspects inputs memory inputLine

/-- The execution inspects the machine and then writes at most once: a register, `hi` and `lo`
together, part of a memory word, or a string. Memory is written only if `memory` holds. -/
inductive Staged (inputs memory : Prop) : {α : Type} → Exec α → Prop
  | inspects {α : Type} {x : Exec α} (hx : Inspects inputs memory x) : Staged inputs memory x
  | after {α β : Type} {x : Exec α} {f : α → Exec β} (hx : Inspects inputs memory x)
      (hf : ∀ a, Staged inputs memory (f a)) : Staged inputs memory (x >>= f)
  | result {α β : Type} {x : Exec α} (hx : Staged inputs memory x) (b : β) :
      Staged inputs memory (x >>= fun _ => pure b)
  | writeRegister (r : Register) (value : Word) : Staged inputs memory (writeRegister r value)
  | writeHiLo (hi lo : Word) : Staged inputs memory (writeHiLo hi lo)
  | writeMemory (allowed : memory) (a : Word) {width : Nat}
      (hw : width = 1 ∨ width = 2 ∨ width = 4) (value : Word) :
      Staged inputs memory (writeMemory a width value)
  | writeString (allowed : memory) (a : Word) (bytes : List Byte) (h : bytes.length ≤ 0x100000000) :
      Staged inputs memory (writeString a bytes)

/-- The services that read from the console, by the number in `$v0`. -/
def ReadsConsole (number : Word) : Prop := number = 5 ∨ number = 8 ∨ number = 12

instance (number : Word) : Decidable (ReadsConsole number) :=
  inferInstanceAs (Decidable (_ ∨ _ ∨ _))

/-- Loads and stores, the instructions other than `syscall` that access memory. -/
def AccessesMemory : Instr → Prop
  | .load .. | .store .. => True
  | _ => False

/-- The service of a given number, called with the argument `a0`. -/
def serve (number a0 : Word) : Exec Unit :=
  match number.toNat with
  | 1 => print (textBytes (Numeral.int a0.toInt))
  | 4 => do print (← readString [] a0 printLimit)
  | 5 => do writeGeneral .v0 (← inputInt)
  | 8 => do inputString a0 (← readGeneral .a1).toInt
  | 10 => throw (.exit 0)
  | 11 => print [a0.setWidth 8]
  | 12 => do
    match ← inputByte with
    | some b => writeGeneral .v0 (b.setWidth 32)
    | none => fail .invalidInput
  | 17 => throw (.exit a0.toInt)
  | 34 => print (textBytes (Numeral.hex8 a0.toNat))
  | 35 => print (textBytes (Numeral.binary32 a0.toNat))
  | 36 => print (textBytes (Numeral.nat a0.toNat))
  | _ => fail (.invalidService number)

theorem service_eq :
    service = (do
      let number ← readGeneral .v0
      let a0 ← readGeneral .a0
      serve number a0) := rfl

/-- A buffer holds at most as many bytes as were asked for. -/
theorem length_lineBuffer_le (capacity : Nat) (line : List Byte) :
    (lineBuffer capacity line).length ≤ capacity + 1 := by
  rw [lineBuffer, List.length_append]
  exact Nat.add_le_add_right (List.length_take_le _ _) 1

namespace Inspects

variable {inputs memory : Prop}

theorem readGeneral (r : Reg) : Inspects inputs memory (readGeneral r) := .readRegister _

theorem fail {α : Type} (cause : FaultCause) : Inspects inputs memory (fail cause : Exec α) :=
  .throw _

theorem checked (result : Option Word) : Inspects inputs memory (checked result) := by
  cases result with
  | none => exact .fail _
  | some value => exact .pure _

theorem readString (allowed : memory) (before : List Byte) (a : Word) (limit : Nat) :
    Inspects inputs memory (readString before a limit) := by
  induction limit generalizing before a with
  | zero => exact .pure _
  | succ limit ih =>
      refine .bind (.readMemory allowed _ _) fun b => ?_
      dsimp only
      split
      · exact .pure _
      · exact ih _ _

theorem inputInt (allowed : inputs) : Inspects inputs memory inputInt := by
  refine .bind (.inputLine allowed) fun line => ?_
  cases line with
  | none => exact .fail _
  | some line =>
      dsimp only
      split
      · exact .pure _
      · exact .fail _

end Inspects

namespace Staged

variable {inputs memory : Prop}

theorem writeGeneral (r : Reg) (value : Word) : Staged inputs memory (writeGeneral r value) :=
  .writeRegister _ _

/-- Writing a register and going on to some address. -/
theorem put (r : Register) (value next : Word) :
    Staged inputs memory (do Machine.writeRegister r value; return next) :=
  .result (.writeRegister _ _) next

/-- The bytes of a buffer are at most as many as its size says, which is a word. -/
theorem inputString (input : inputs) (access : memory) (a size : Word) :
    Staged inputs memory (inputString a size.toInt) := by
  have hsize : size.toInt < 2147483648 := BitVec.toInt_lt
  have hwrite : ∀ line,
      Staged inputs memory (Machine.writeString a (lineBuffer (size.toInt - 1).toNat line)) := by
    intro line
    have hlength := length_lineBuffer_le (size.toInt - 1).toNat line
    exact .writeString access _ _ (by omega)
  unfold Machine.inputString
  split
  · exact .inspects (.pure ())
  split
  case isTrue hone =>
    have hfirst := hwrite []
    rw [hone] at hfirst
    exact hfirst
  case isFalse => exact .after (.inputLine input) fun _ => hwrite _

/-- Only the services that read from the console need input, and only those for strings access
memory. -/
theorem serve {number : Word} (input : ReadsConsole number → inputs)
    (print : number.toNat = 4 → memory) (read : number.toNat = 8 → memory) (a0 : Word) :
    Staged inputs memory (serve number a0) := by
  have hreads {n : Nat} (h : number.toNat = n)
      (hn : BitVec.ofNat 32 n = 5 ∨ BitVec.ofNat 32 n = 8 ∨ BitVec.ofNat 32 n = 12) : inputs := by
    have hnumber : number = BitVec.ofNat 32 n := by rw [← h, BitVec.ofNat_toNat, BitVec.setWidth_eq]
    exact input (hnumber ▸ hn)
  unfold Machine.serve
  split
  · exact .inspects (.print _)
  case h_2 h => exact .inspects (.bind (.readString (print h) _ _ _) fun _ => .print _)
  case h_3 h => exact .after (.inputInt (hreads h (by decide))) fun _ => .writeGeneral _ _
  case h_4 h =>
    exact .after (.readGeneral _) fun _ => .inputString (hreads h (by decide)) (read h) _ _
  · exact .inspects (.throw _)
  · exact .inspects (.print _)
  case h_7 h =>
    refine .after (.inputByte (hreads h (by decide))) fun b => ?_
    cases b with
    | none => exact .inspects (.fail _)
    | some b => exact .writeGeneral _ _
  · exact .inspects (.throw _)
  · exact .inspects (.print _)
  · exact .inspects (.print _)
  · exact .inspects (.print _)
  · exact .inspects (.fail _)

theorem service : Staged True True service :=
  .after (.readGeneral _) fun _ => .after (.readGeneral _) fun _ =>
    .serve (fun _ => trivial) (fun _ => trivial) (fun _ => trivial) _

/-- **Every instruction but `syscall` inspects the machine and then writes at most once.** It takes no
input. -/
theorem execute (pc : Word) {i : Instr} (hi : i ≠ .syscall) (access : AccessesMemory i → memory) :
    Staged inputs memory (execute pc i) := by
  cases i with
  | alu op rd rs rt =>
      refine .after (.readGeneral _) fun a => .after (.readGeneral _) fun b => ?_
      exact .after (.checked _) fun _ => .put _ _ _
  | shift op rd rt amount => exact .after (.readGeneral _) fun _ => .put _ _ _
  | shiftBy op rd rt rs =>
      exact .after (.readGeneral _) fun _ => .after (.readGeneral _) fun _ => .put _ _ _
  | mulDiv op rs rt =>
      refine .after (.readGeneral _) fun a => .after (.readGeneral _) fun b => ?_
      dsimp only
      split
      · exact .result (.writeHiLo _ _) _
      · exact .result (.inspects (.pure ())) _
  | mul rd rs rt =>
      exact .after (.readGeneral _) fun _ => .after (.readGeneral _) fun _ => .put _ _ _
  | moveFrom half rd => exact .after (.readRegister _) fun _ => .put _ _ _
  | moveTo half rs => exact .after (.readGeneral _) fun _ => .put _ _ _
  | jr rs => exact .inspects (.readGeneral rs)
  | jalr rd rs => exact .after (.readGeneral _) fun _ => .put _ _ _
  | syscall => exact absurd rfl hi
  | brk code => exact .inspects (.fail _)
  | aluImm op rt rs imm =>
      exact .after (.readGeneral _) fun _ => .after (.checked _) fun _ => .put _ _ _
  | lui rt imm => exact .put _ _ _
  | load op rt base offset =>
      refine .after (.readGeneral _) fun a => ?_
      exact .after (.readMemory (access trivial) _ _) fun _ => .put _ _ _
  | store op rt base offset =>
      have hw : op.width = 1 ∨ op.width = 2 ∨ op.width = 4 := by cases op <;> simp [StoreOp.width]
      refine .after (.readGeneral _) fun a => .after (.readGeneral _) fun _ => ?_
      exact .result (.writeMemory (access trivial) _ hw _) _
  | branch cond rs rt offset =>
      refine .inspects ?_
      exact .bind (.readGeneral _) fun _ => .bind (.readGeneral _) fun _ => .pure _
  | branchSign cond rs offset => exact .inspects (.bind (.readGeneral _) fun _ => .pure _)
  | jump link index =>
      dsimp only [Machine.execute]
      split
      · exact .put _ _ _
      · exact .inspects (.bind (.pure ()) fun _ => .pure _)

/-- **So does every instruction**, if it may take input and access memory. -/
theorem execute_any (pc : Word) (i : Instr) : Staged True True (Machine.execute pc i) := by
  by_cases hi : i = .syscall
  · subst hi
    exact .result .service _
  · exact .execute pc hi fun _ => trivial

end Staged

/-! ## What every access keeps -/

/-- Running the execution keeps a property of the machine, whether or not it halts. -/
def Keeps {α : Type} (P : Machine → Prop) (x : Exec α) : Prop := ∀ m, P m → P (x.run.run m).2

section Keeps

variable {α β : Type} {P : Machine → Prop}

theorem Keeps.pure (a : α) : Keeps P (pure a : Exec α) := fun _ h => h

theorem Keeps.throw (e : Halt) : Keeps P (throw e : Exec α) := fun _ h => h

theorem Keeps.bind {x : Exec α} {f : α → Exec β} (hx : Keeps P x) (hf : ∀ a, Keeps P (f a)) :
    Keeps P (x >>= f) := by
  intro m hm
  have hx := hx m hm
  rw [run_bind]
  -- if the first part halts, the second is not run
  rcases hrun : x.run.run m with ⟨_ | a, n⟩ <;> rw [hrun] at hx
  · exact hx
  · exact hf a n hx

end Keeps

/-- The property is kept by every single access that instructions are made of. -/
structure Stable (P : Machine → Prop) : Prop where
  observed : ∀ {m} l a, P m → P (m.observed l a)
  putRegister : ∀ {m} r value, r ≠ .general .zero → P m → P (m.putRegister r value)
  touched : ∀ {m} a n, P m → P (m.touched a n)
  putMemory : ∀ {m} a width value, width = 1 ∨ width = 2 ∨ width = 4 →
    Word.isAligned a width = true → P m → P (m.putMemory a width value)
  withConsole : ∀ {m : Machine} console running, P m → P { m with console, running }

namespace Stable

variable {P : Machine → Prop} (hP : Stable P)
include hP

theorem readRegister (r : Register) : Keeps P (readRegister r) :=
  fun _ h => hP.observed _ _ h

theorem writeRegister (r : Register) (value : Word) : Keeps P (writeRegister r value) := by
  intro m h
  by_cases hr : r = .general .zero
  · rw [hr, run_writeRegister_zero]
    exact h
  · rw [run_writeRegister hr]
    exact hP.observed _ _ (hP.putRegister _ _ hr h)

theorem writeHiLo (hi lo : Word) : Keeps P (writeHiLo hi lo) :=
  Keeps.bind (hP.writeRegister _ _) fun _ => hP.writeRegister _ _

theorem readMemory (a : Word) (width : Nat) : Keeps P (readMemory a width) := by
  intro m h
  rw [run_readMemory]
  split
  · exact hP.touched _ _ (hP.observed _ _ h)
  · exact h

theorem writeMemory (a : Word) {width : Nat} (hw : width = 1 ∨ width = 2 ∨ width = 4)
    (value : Word) : Keeps P (writeMemory a width value) := by
  intro m h
  rw [run_writeMemory]
  split
  case isTrue ha =>
    exact hP.observed _ _ (hP.touched _ _ (hP.putMemory _ _ _ hw ha (hP.touched _ _ h)))
  case isFalse => exact h

theorem ask {β : Type} (request : Console → Bool → Answered β) : Keeps P (ask request) :=
  fun _ h => hP.withConsole _ _ h

theorem print (bytes : List Byte) : Keeps P (print bytes) := Keeps.bind (hP.ask _) fun _ => Keeps.pure _

theorem writeString (a : Word) (bytes : List Byte) : Keeps P (writeString a bytes) := by
  induction bytes generalizing a with
  | nil => exact Keeps.pure _
  | cons b bs ih => exact Keeps.bind (hP.writeMemory _ (.inl rfl) _) fun _ => ih _

variable {inputs memory : Prop} {α : Type} {x : Exec α}

theorem inspects (hx : Inspects inputs memory x) : Keeps P x := by
  induction hx with
  | pure a => exact Keeps.pure a
  | throw e => exact Keeps.throw e
  | bind _ _ ihx ihf => exact Keeps.bind ihx ihf
  | readRegister r => exact hP.readRegister r
  | readMemory _ a width => exact hP.readMemory a width
  | print bytes => exact hP.print bytes
  | inputByte => exact hP.ask _
  | inputLine => exact hP.ask _

theorem staged (hx : Staged inputs memory x) : Keeps P x := by
  induction hx with
  | inspects hx => exact hP.inspects hx
  | after hx _ ih => exact Keeps.bind (hP.inspects hx) ih
  | result _ b ih => exact Keeps.bind ih fun _ => Keeps.pure b
  | writeRegister r value => exact hP.writeRegister r value
  | writeHiLo hi lo => exact hP.writeHiLo hi lo
  | writeMemory _ a hw value => exact hP.writeMemory a hw value
  | writeString _ a bytes => exact hP.writeString a bytes

/-- **What every access keeps, the execution of every instruction keeps.** -/
theorem execute (pc : Word) (i : Instr) : Keeps P (execute pc i) := hP.staged (.execute_any pc i)

end Stable

end MipsLab.Machine
