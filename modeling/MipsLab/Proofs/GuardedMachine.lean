import MipsLab.Machine.Run
import MipsLab.Proofs.Ranges

set_option autoImplicit false

/-!
# A machine with partial operations

Shifts are asked for amounts below 32, registers have numbers below 32, and memory is accessed in one, two or
four bytes. The machine of this module has no result at all where an instruction asks for anything else. It runs
like the machine itself, from every state and for every instruction that can be decoded
(`Machine.runLoop?_eq`): so nothing else is ever asked for.
-/

namespace MipsLab.Machine

/-! ## Operations -/

/-- Part of the execution of an instruction that need not have a result. -/
abbrev Guarded := ExceptT Halt (StateT Machine Option)

/-- A computation as one that has a result. -/
def defined {α : Type} (x : Exec α) : Guarded α := ExceptT.mk fun m => some (x.run.run m)

/-- An operation that has a result under a condition only. -/
def onlyIf {α : Type} (p : Prop) [Decidable p] (x : Exec α) : Guarded α :=
  if p then defined x else ExceptT.mk fun _ => none

section Defined

variable {α β : Type}

theorem run_defined (x : Exec α) (m : Machine) : (defined x).run.run m = some (x.run.run m) := rfl

theorem defined_bind (x : Exec α) (f : α → Exec β) :
    (defined x >>= fun a => defined (f a)) = defined (x >>= f) := by
  refine ExceptT.ext (funext fun m => ?_)
  rw [ExceptT.run_bind]
  show StateT.run (_ >>= _) m = some ((x >>= f).run.run m)
  rw [StateT.run_bind, ExceptT.run_bind, StateT.run_bind]
  show (do let p ← some (x.run.run m); _) = _
  rcases x.run.run m with ⟨_ | _, _⟩ <;> rfl

/-- A computation that starts with one that has a result has one if the rest has. -/
theorem bind_eq_defined {x : Guarded α} {y : Exec α} {g : α → Guarded β} {f : α → Exec β} (hx : x = defined y)
    (hf : ∀ a, g a = defined (f a)) : x >>= g = defined (y >>= f) := by
  rw [hx, ← defined_bind]
  exact bind_congr hf

theorem onlyIf_eq {p : Prop} [Decidable p] (h : p) (x : Exec α) : onlyIf p x = defined x := if_pos h

end Defined

/-- Reads the register of a number below 32. -/
def readGeneral? (r : Reg) : Guarded Word := onlyIf (r.number < 32) (readGeneral r)

/-- Writes the register of a number below 32. -/
def writeGeneral? (r : Reg) (value : Word) : Guarded Unit := onlyIf (r.number < 32) (writeGeneral r value)

/-- The widths that memory is accessed in. -/
def IsWidth (width : Nat) : Prop := width = 1 ∨ width = 2 ∨ width = 4

instance (width : Nat) : Decidable (IsWidth width) := inferInstanceAs (Decidable (_ ∨ _))

/-- Reads one, two or four bytes. -/
def readMemory? (a : Word) (width : Nat) : Guarded Word := onlyIf (IsWidth width) (readMemory a width)

/-- Writes one, two or four bytes. -/
def writeMemory? (a : Word) (width : Nat) (value : Word) : Guarded Unit :=
  onlyIf (IsWidth width) (writeMemory a width value)

/-- Shifts by less than 32 bits. -/
def shift? (value : Word) (amount : Nat) (op : ShiftOp) : Guarded Word :=
  onlyIf (amount < 32) (pure (shiftResult value amount op))

theorem readGeneral?_eq (r : Reg) : readGeneral? r = defined (readGeneral r) := onlyIf_eq r.number_lt _

theorem writeGeneral?_eq (r : Reg) (value : Word) : writeGeneral? r value = defined (writeGeneral r value) :=
  onlyIf_eq r.number_lt _

theorem readMemory?_eq (a : Word) {width : Nat} (h : IsWidth width) :
    readMemory? a width = defined (readMemory a width) := onlyIf_eq h _

theorem writeMemory?_eq (a : Word) {width : Nat} (h : IsWidth width) (value : Word) :
    writeMemory? a width value = defined (writeMemory a width value) := onlyIf_eq h _

theorem shift?_eq (value : Word) {amount : Nat} (h : amount < 32) (op : ShiftOp) :
    shift? value amount op = pure (shiftResult value amount op) := onlyIf_eq h _

theorem isWidth_load (op : LoadOp) : IsWidth op.width := by cases op <;> decide

theorem isWidth_store (op : StoreOp) : IsWidth op.width := by cases op <;> decide

/-! ## Services -/

/-- The bytes from an address on, up to the first zero byte and at most `limit` of them. -/
def readString? (before : List Byte) (a : Word) : Nat → Guarded (List Byte)
  | 0 => return before.reverse
  | limit + 1 => do
    let b := (← readMemory? a 1).setWidth 8
    if b = 0 then return before.reverse
    else readString? (b :: before) (a + 1) limit

/-- Writes bytes one by one from an address on. -/
def writeString? (a : Word) : List Byte → Guarded Unit
  | [] => return ()
  | b :: bs => do
    writeMemory? a 1 (b.setWidth 32)
    writeString? (a + 1) bs

/-- Reads a line into a buffer of a given size. -/
def inputString? (a : Word) (size : Int) : Guarded Unit :=
  if size < 1 then return ()
  else if size = 1 then writeString? a (lineBuffer 0 [])
  else do
    let line := (← defined inputLine).getD []
    writeString? a (lineBuffer (size - 1).toNat line)

/-- Carries out the service that `$v0` selects. -/
def service? : Guarded Unit := do
  let number ← readGeneral? .v0
  let a0 ← readGeneral? .a0
  match number.toNat with
  | 1 => defined (print (textBytes (Numeral.int a0.toInt)))
  | 4 => defined (print (← readString? [] a0 printLimit))
  | 5 => writeGeneral? .v0 (← defined inputInt)
  | 8 => inputString? a0 (← readGeneral? .a1).toInt
  | 10 => throw (.exit 0)
  | 11 => defined (print [a0.setWidth 8])
  | 12 =>
    match ← defined inputByte with
    | some b => writeGeneral? .v0 (b.setWidth 32)
    | none => defined (fail .invalidInput)
  | 17 => throw (.exit a0.toInt)
  | 34 => defined (print (textBytes (Numeral.hex8 a0.toNat)))
  | 35 => defined (print (textBytes (Numeral.binary32 a0.toNat)))
  | 36 => defined (print (textBytes (Numeral.nat a0.toNat)))
  | _ => defined (fail (.invalidService number))

theorem readString?_eq (before : List Byte) (a : Word) (limit : Nat) :
    readString? before a limit = defined (readString before a limit) := by
  induction limit generalizing before a with
  | zero => rfl
  | succ limit ih =>
      refine bind_eq_defined (readMemory?_eq a (.inl rfl)) fun b => ?_
      dsimp only
      split
      · rfl
      · exact ih _ _

theorem writeString?_eq (a : Word) (bytes : List Byte) : writeString? a bytes = defined (writeString a bytes) := by
  induction bytes generalizing a with
  | nil => rfl
  | cons b bytes ih => exact bind_eq_defined (writeMemory?_eq a (.inl rfl) _) fun _ => ih (a + 1)

theorem inputString?_eq (a : Word) (size : Int) : inputString? a size = defined (inputString a size) := by
  unfold inputString? inputString
  split
  · rfl
  · split
    · exact writeString?_eq _ _
    · exact bind_eq_defined rfl fun line => writeString?_eq _ _

theorem service?_eq : service? = defined service := by
  refine bind_eq_defined (readGeneral?_eq .v0) fun number => ?_
  refine bind_eq_defined (readGeneral?_eq .a0) fun a0 => ?_
  -- the services are told apart by a number, and each is defined on its own
  generalize number.toNat = selected
  split
  case h_2 => exact bind_eq_defined (readString?_eq [] a0 printLimit) fun _ => rfl
  case h_3 => exact bind_eq_defined rfl fun _ => writeGeneral?_eq .v0 _
  case h_4 => exact bind_eq_defined (readGeneral?_eq .a1) fun _ => inputString?_eq a0 _
  case h_7 =>
    refine bind_eq_defined rfl fun b => ?_
    cases b with
    | some b => exact writeGeneral?_eq .v0 _
    | none => rfl
  case h_12 => simp only [*]
  all_goals rfl

/-! ## Instructions -/

/-- Executes an instruction at the address `pc`, and gives the address of the instruction after it. -/
def execute? (pc : Word) (i : Instr) : Guarded Word :=
  let next := pc + 4
  match i with
  | .alu op rd rs rt => do
    let a ← readGeneral? rs
    let b ← readGeneral? rt
    writeGeneral? rd (← defined (checked (aluResult? a b op)))
    return next
  | .shift op rd rt amount => do
    writeGeneral? rd (← shift? (← readGeneral? rt) amount op)
    return next
  | .shiftBy op rd rt rs => do
    let value ← readGeneral? rt
    let amount ← readGeneral? rs
    writeGeneral? rd (← shift? value (amount.toNat % 32) op)
    return next
  | .mulDiv op rs rt => do
    let a ← readGeneral? rs
    let b ← readGeneral? rt
    match mulDivResult? a b op with
    | some (hi, lo) => defined (writeHiLo hi lo)
    | none => pure ()
    return next
  | .mul rd rs rt => do
    let a ← readGeneral? rs
    let b ← readGeneral? rt
    writeGeneral? rd (a * b)
    return next
  | .moveFrom half rd => do
    writeGeneral? rd (← defined (readRegister half.register))
    return next
  | .moveTo half rs => do
    let value ← readGeneral? rs
    defined (writeRegister half.register value)
    return next
  | .jr rs => readGeneral? rs
  | .jalr rd rs => do
    let target ← readGeneral? rs
    writeGeneral? rd next
    return target
  | .syscall => do
    service?
    return next
  | .brk code => defined (fail (.brk code))
  | .aluImm op rt rs imm => do
    let a ← readGeneral? rs
    writeGeneral? rt (← defined (checked (immResult? a imm op)))
    return next
  | .lui rt imm => do
    writeGeneral? rt (imm ++ 0#16)
    return next
  | .load op rt base offset => do
    let a := (← readGeneral? base) + offset.signExtend 32
    writeGeneral? rt (loadResult (← readMemory? a op.width) op)
    return next
  | .store op rt base offset => do
    let a := (← readGeneral? base) + offset.signExtend 32
    writeMemory? a op.width (← readGeneral? rt)
    return next
  | .branch cond rs rt offset => do
    let a ← readGeneral? rs
    let b ← readGeneral? rt
    return if cond.holds a b then branchTarget next offset else next
  | .branchSign cond rs offset => do
    let a ← readGeneral? rs
    return if cond.holds a then branchTarget next offset else next
  | .jump link index => do
    if link then writeGeneral? .ra next
    return (next &&& 0xF0000000#32) ||| BitVec.ofNat 32 (index * 4)

/-- **An instruction whose numbers fit their fields asks for nothing that has no result.** -/
theorem execute?_eq (pc : Word) {i : Instr} (range : i.InRange) : execute? pc i = defined (execute pc i) := by
  -- every instruction writes at most one register by number, and then goes on to an address that it knows
  have hwrite (rd : Reg) (value next : Word) :
      (do writeGeneral? rd value; return next) = defined (do writeGeneral rd value; return next) :=
    bind_eq_defined (writeGeneral?_eq rd value) fun _ => rfl
  cases i with
  | alu op rd rs rt =>
      refine bind_eq_defined (readGeneral?_eq rs) fun a => bind_eq_defined (readGeneral?_eq rt) fun b => ?_
      exact bind_eq_defined rfl fun value => hwrite rd value _
  | shift op rd rt amount =>
      refine bind_eq_defined (readGeneral?_eq rt) fun value => ?_
      rw [shift?_eq value range op, pure_bind]
      exact hwrite rd _ _
  | shiftBy op rd rt rs =>
      refine bind_eq_defined (readGeneral?_eq rt) fun value =>
        bind_eq_defined (readGeneral?_eq rs) fun amount => ?_
      rw [shift?_eq value (Nat.mod_lt _ (by decide)) op, pure_bind]
      exact hwrite rd _ _
  | mulDiv op rs rt =>
      refine bind_eq_defined (readGeneral?_eq rs) fun a => bind_eq_defined (readGeneral?_eq rt) fun b => ?_
      dsimp only
      cases mulDivResult? a b op with
      | none => rfl
      | some halves => exact bind_eq_defined rfl fun _ => rfl
  | mul rd rs rt =>
      refine bind_eq_defined (readGeneral?_eq rs) fun a => bind_eq_defined (readGeneral?_eq rt) fun b => ?_
      exact hwrite rd _ _
  | moveFrom half rd => exact bind_eq_defined rfl fun value => hwrite rd value _
  | moveTo half rs =>
      exact bind_eq_defined (readGeneral?_eq rs) fun value => bind_eq_defined rfl fun _ => rfl
  | jr rs => exact readGeneral?_eq rs
  | jalr rd rs => exact bind_eq_defined (readGeneral?_eq rs) fun target => hwrite rd _ target
  | syscall => exact bind_eq_defined service?_eq fun _ => rfl
  | brk code => rfl
  | aluImm op rt rs imm =>
      refine bind_eq_defined (readGeneral?_eq rs) fun a => ?_
      exact bind_eq_defined rfl fun value => hwrite rt value _
  | lui rt imm => exact hwrite rt _ _
  | load op rt base offset =>
      refine bind_eq_defined (readGeneral?_eq base) fun b => ?_
      exact bind_eq_defined (readMemory?_eq _ (isWidth_load op)) fun raw => hwrite rt _ _
  | store op rt base offset =>
      refine bind_eq_defined (readGeneral?_eq base) fun b => bind_eq_defined (readGeneral?_eq rt) fun value => ?_
      exact bind_eq_defined (writeMemory?_eq _ (isWidth_store op) value) fun _ => rfl
  | branch cond rs rt offset =>
      exact bind_eq_defined (readGeneral?_eq rs) fun a => bind_eq_defined (readGeneral?_eq rt) fun b => rfl
  | branchSign cond rs offset => exact bind_eq_defined (readGeneral?_eq rs) fun a => rfl
  | jump link index =>
      cases link with
      | false => rfl
      | true => exact hwrite .ra _ _

/-! ## Runs -/

/-- Executes a decoded instruction and keeps its record, or undoes it if it faults. -/
def perform? (m : Machine) (i : Instr) : Option (Except Halt Unit × Machine) := do
  let pc := m.pc
  match ← (execute? pc i).run.run { m with history := m.history.map (·.start pc) } with
  | (.ok next, m) => some (.ok (), { m with pc := next }.commit)
  | (.error (.exit code), m) =>
    some (.error (.exit code), { m with pc := pc + 4, exitCode := some code }.commit)
  | (.error (.fault cause), m) => some (.error (.fault cause), m.rollBack)

/-- Executes the next instruction. -/
def advance? (m : Machine) : Option (Except Halt Unit × Machine) :=
  match m.exitCode, m.code with
  | some code, _ => some (.error (.exit code), m)
  | none, none => some (.error (.fault .notLoaded), m)
  | none, some code =>
    if !Word.isAligned m.pc 4 || !m.layout.inText m.pc then
      some (.error (.fault (.invalidFetch m.pc)), m)
    else if !code.contains m.pc.toNat then some (.error (.exit 0), { m with exitCode := some 0 })
    else
      let (word, memory) := m.memory.read m.pc 4
      match Instr.decode? word with
      | none => some (.error (.fault (.illegalInstruction word)), { m with memory })
      | some i => { m with memory }.perform? i

/-- Runs at most `fuel` instructions of a run that is under way. -/
def runLoop? {σ : Type} (tripwire : Tripwire σ) (s : σ) (m : Machine) : Nat → Option (Option (RunResult σ))
  | 0 => some none
  | fuel + 1 =>
    if !m.running then some (some (pauseRun .stopped s m))
    else
      match tripwire s m with
      | (false, s, m) => some (some (pauseRun .tripwire s m))
      | (true, s, m) => do
        match ← m.advance? with
        | (.error (.exit _), m) => some (some (pauseRun .completed s m))
        | (.error (.fault cause), m) => some (some (faultRun cause s m))
        | (.ok (), m) =>
          if m.meetsBreakpoint then some (some (pauseRun .breakpoint s m))
          else runLoop? tripwire s m fuel

theorem perform?_eq (m : Machine) {i : Instr} (range : i.InRange) : m.perform? i = some (m.perform i) := by
  unfold perform? perform
  dsimp only
  rw [execute?_eq m.pc range, run_defined]
  generalize (execute m.pc i).run.run { m with history := m.history.map (·.start m.pc) } = executed
  rcases executed with ⟨(code | cause) | next, n⟩ <;> rfl

/-- **A step asks for nothing that has no result**: whatever the program has put into memory, what is executed
was decoded. -/
theorem advance?_eq (m : Machine) : m.advance? = some m.advance := by
  unfold advance? advance
  cases hexit : m.exitCode with
  | some code => rfl
  | none =>
      cases hcode : m.code with
      | none => rfl
      | some code =>
          dsimp only
          split
          · rfl
          split
          · rfl
          rcases m.memory.read m.pc 4 with ⟨word, memory⟩
          dsimp only
          cases hdecode : Instr.decode? word with
          | none => rfl
          | some i => exact perform?_eq _ (Instr.inRange_of_decode? hdecode)

/-- **Nor does any run.** -/
theorem runLoop?_eq {σ : Type} (tripwire : Tripwire σ) (s : σ) (m : Machine) (fuel : Nat) :
    runLoop? tripwire s m fuel = some (runLoop tripwire s m fuel) := by
  induction fuel generalizing s m with
  | zero => rfl
  | succ fuel ih =>
      unfold runLoop? runLoop
      split
      · rfl
      rcases tripwire s m with ⟨_ | _, s', m'⟩
      · rfl
      · dsimp only
        rw [advance?_eq]
        rcases m'.advance with ⟨(code | cause) | _, n⟩
        · rfl
        · rfl
        · dsimp only [Option.bind_eq_bind, Option.bind_some]
          split
          · rfl
          · exact ih _ _

end MipsLab.Machine
