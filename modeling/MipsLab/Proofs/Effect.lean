import MipsLab.Proofs.Encoding
import MipsLab.Proofs.FaultAtomicity

set_option autoImplicit false

/-!
# Effects of instructions

Apart from what is observed of it, an instruction that leaves the console alone is a function of
registers, memory and the address of the next instruction (`Instr.effect?`). This module says so of
the machine, for a single attempt and for instructions that stand one after the other.
-/

namespace MipsLab

namespace Snapshot

/-- The snapshot after an instruction that puts a value into a general-purpose register. -/
def put (s : Snapshot) (r : Reg) (value : Word) : Snapshot :=
  { s with registers := s.registers.set r value, pc := s.pc + 4 }

end Snapshot

open Machine in
/-- What an instruction does to a snapshot. There is no answer for `syscall`, which depends on the
console. -/
def Instr.effect? (s : Snapshot) : Instr → Option (Except FaultCause Snapshot)
  | alu op rd rs rt =>
    match aluResult? (s.registers.get rs) (s.registers.get rt) op with
    | some value => some (.ok (s.put rd value))
    | none => some (.error .overflow)
  | shift op rd rt amount => some (.ok (s.put rd (shiftResult (s.registers.get rt) amount op)))
  | shiftBy op rd rt rs =>
    some (.ok (s.put rd
      (shiftResult (s.registers.get rt) ((s.registers.get rs).toNat % 32) op)))
  | mulDiv op rs rt =>
    match mulDivResult? (s.registers.get rs) (s.registers.get rt) op with
    | some (hi, lo) =>
      some (.ok { s with registers := { s.registers with hi, lo }, pc := s.pc + 4 })
    | none => some (.ok { s with pc := s.pc + 4 })
  | mul rd rs rt => some (.ok (s.put rd (s.registers.get rs * s.registers.get rt)))
  | moveFrom half rd => some (.ok (s.put rd (s.registers.read half.register)))
  | moveTo half rs =>
    some (.ok { s with
      registers := s.registers.write half.register (s.registers.get rs), pc := s.pc + 4 })
  | jr rs => some (.ok { s with pc := s.registers.get rs })
  | jalr rd rs => some (.ok { s.put rd (s.pc + 4) with pc := s.registers.get rs })
  | syscall => none
  | brk code => some (.error (.brk code))
  | aluImm op rt rs imm =>
    match immResult? (s.registers.get rs) imm op with
    | some value => some (.ok (s.put rt value))
    | none => some (.error .overflow)
  | lui rt imm => some (.ok (s.put rt (imm ++ 0#16)))
  | load op rt base offset =>
    let a := s.registers.get base + offset.signExtend 32
    if Word.isAligned a op.width then
      some (.ok (s.put rt (loadResult (Image.value s.image a op.width) op)))
    else some (.error (.misaligned a))
  | store op rt base offset =>
    let a := s.registers.get base + offset.signExtend 32
    if Word.isAligned a op.width then
      some (.ok { s with
        image := Image.store s.image a op.width (s.registers.get rt), pc := s.pc + 4 })
    else some (.error (.misaligned a))
  | branch cond rs rt offset =>
    some (.ok { s with
      pc := if cond.holds (s.registers.get rs) (s.registers.get rt) then
        branchTarget (s.pc + 4) offset else s.pc + 4 })
  | branchSign cond rs offset =>
    some (.ok { s with
      pc := if cond.holds (s.registers.get rs) then branchTarget (s.pc + 4) offset
        else s.pc + 4 })
  | jump link index =>
    let target := ((s.pc + 4) &&& 0xF0000000#32) ||| BitVec.ofNat 32 (index * 4)
    some (.ok { (if link then s.put .ra (s.pc + 4) else s) with pc := target })

namespace Machine

/-! ## Executions -/

/-- What the execution of instructions goes by besides the snapshot: whether the program has ended,
its code, and where there may be code. -/
def program (m : Machine) : Option Int × Option (Std.TreeMap Nat CodeWord) × MemoryLayout :=
  (m.exitCode, m.code, m.layout)

/-- `n` has the registers and the image of a snapshot, and the program of `m`. The address of the next
instruction is left open. -/
structure Became (m : Machine) (s : Snapshot) (n : Machine) : Prop where
  registers : n.registers = s.registers
  image : n.memory.image = s.image
  program : n.program = m.program

theorem Became.refl (m : Machine) : Became m m.snapshot m := ⟨rfl, rfl, rfl⟩

namespace Became

variable {m n : Machine} {s : Snapshot} (h : Became m s n)
include h

theorem observed (l : Location) (a : Access) : Became m s (n.observed l a) :=
  ⟨h.registers, h.image, h.program⟩

theorem touched (a : Word) (k : Nat) : Became m s (n.touched a k) :=
  ⟨h.registers, (image_touched n a k).trans h.image, h.program⟩

theorem moved (pc : Word) : Became m { s with pc } n := ⟨h.registers, h.image, h.program⟩

theorem wrote (r : Register) (value pc : Word) :
    Became m ⟨s.registers.write r value, s.image, pc⟩ (n.wrote r value) := by
  unfold Machine.wrote
  split
  case isTrue hr =>
    subst hr
    exact h.moved pc
  case isFalse => exact ⟨congrArg (·.write r value) h.registers, h.image, h.program⟩

theorem storedTo (a : Word) (width : Nat) (value pc : Word) :
    Became m ⟨s.registers, Image.store s.image a width value, pc⟩ (n.storedTo a width value) := by
  refine ⟨h.registers, ?_, h.program⟩
  show (Memory.touchBytes (Memory.write (n.touched _ 4).memory a width value) _ 4).image = _
  rw [Memory.image_touchBytes, Memory.image_write, image_touched, h.image]

end Became

/-- The execution of an instruction in `m` comes to the given effect. -/
def Comes (m : Machine) (i : Instr) : Except FaultCause Snapshot → Prop
  | .ok s => ∃ n, (execute m.pc i).run.run m = (.ok s.pc, n) ∧ Became m s n
  | .error cause => ∃ n, (execute m.pc i).run.run m = (.error (.fault cause), n)

theorem registers_observed (m : Machine) (l : Location) (a : Access) :
    (m.observed l a).registers = m.registers := rfl

theorem registers_snapshot (m : Machine) : m.snapshot.registers = m.registers := rfl

section Comes

variable {m n : Machine} {i : Instr} {r : Except FaultCause Snapshot}

/-- The execution ends by writing a register and going on to some address. -/
theorem comes_put {rd : Reg} {value next : Word}
    (ran : (execute m.pc i).run.run m = (do writeGeneral rd value; return next : Exec Word).run.run n)
    (became : Became m m.snapshot n) :
    m.Comes i (.ok { m.snapshot.put rd value with pc := next }) := by
  refine ⟨n.wrote (.general rd) value, ?_, became.wrote (.general rd) value next⟩
  rw [ran, run_bind, run_writeGeneral]
  rfl

/-- The execution ends by writing a result that may overflow. -/
theorem comes_checked {rd : Reg} {result : Option Word}
    (h : (match result with
      | some value => some (.ok (m.snapshot.put rd value))
      | none => some (.error .overflow)) = some r)
    (ran : (execute m.pc i).run.run m =
      (do writeGeneral rd (← checked result); return m.pc + 4 : Exec Word).run.run n)
    (became : Became m m.snapshot n) : m.Comes i r := by
  cases result with
  | some value =>
      cases h
      exact comes_put ran became
  | none =>
      cases h
      exact ⟨n, ran⟩

/-- A load from an address that is aligned gives a value, any other faults. -/
theorem comes_load {op : LoadOp} {rt base : Reg} {offset : Half}
    (h : (Instr.load op rt base offset).effect? m.snapshot = some r) :
    m.Comes (.load op rt base offset) r := by
  let a := m.registers.get base + offset.signExtend 32
  let k := m.observed (.register (.general base)) .ofRead
  have hk : Became m m.snapshot k := (Became.refl m).observed _ _
  have hread : (execute m.pc (.load op rt base offset)).run.run m =
      (do writeGeneral rt (loadResult (← readMemory a op.width) op); return m.pc + 4 :
        Exec Word).run.run k := rfl
  have h : (if Word.isAligned a op.width then
      some (.ok (m.snapshot.put rt (loadResult (Image.value m.memory.image a op.width) op)))
    else some (.error (.misaligned a))) = some r := h
  split at h
  case isTrue ha =>
    cases h
    refine comes_put ?_ ((hk.observed (.memory (Word.wordAligned a)) .ofRead).touched a op.width)
    rw [hread, run_bind, run_readMemory_of_isAligned ha]
    rfl
  case isFalse ha =>
    cases h
    refine ⟨k, ?_⟩
    rw [hread, run_bind, run_readMemory_of_not_isAligned (Bool.eq_false_iff.mpr ha)]

/-- A store to an address that is aligned changes memory, any other faults. -/
theorem comes_store {op : StoreOp} {rt base : Reg} {offset : Half}
    (h : (Instr.store op rt base offset).effect? m.snapshot = some r) :
    m.Comes (.store op rt base offset) r := by
  let a := m.registers.get base + offset.signExtend 32
  let k := (m.observed (.register (.general base)) .ofRead).observed (.register (.general rt)) .ofRead
  have hk : Became m m.snapshot k := ((Became.refl m).observed _ _).observed _ _
  have hwrite : (execute m.pc (.store op rt base offset)).run.run m =
      (do writeMemory a op.width (m.registers.get rt); return m.pc + 4 : Exec Word).run.run k := rfl
  have h : (if Word.isAligned a op.width then
      some (.ok { m.snapshot with
        image := Image.store m.memory.image a op.width (m.registers.get rt), pc := m.pc + 4 })
    else some (.error (.misaligned a))) = some r := h
  split at h
  case isTrue ha =>
    cases h
    refine ⟨_, ?_, hk.storedTo a op.width (m.registers.get rt) (m.pc + 4)⟩
    rw [hwrite, run_bind, run_writeMemory_of_isAligned ha]
    rfl
  case isFalse ha =>
    cases h
    refine ⟨k, ?_⟩
    rw [hwrite, run_bind, run_writeMemory_of_not_isAligned (Bool.eq_false_iff.mpr ha)]

/-- A division by zero writes nothing, any other multiplication or division both halves. -/
theorem comes_mulDiv {op : MulDivOp} {rs rt : Reg}
    (h : (Instr.mulDiv op rs rt).effect? m.snapshot = some r) : m.Comes (.mulDiv op rs rt) r := by
  let k := (m.observed (.register (.general rs)) .ofRead).observed (.register (.general rt)) .ofRead
  have hk : Became m m.snapshot k := ((Became.refl m).observed _ _).observed _ _
  simp only [Instr.effect?, registers_snapshot] at h
  cases hresult : mulDivResult? (m.registers.get rs) (m.registers.get rt) op with
  | some value =>
      obtain ⟨hi, lo⟩ := value
      rw [hresult] at h
      cases h
      refine ⟨_, ?_, (hk.wrote .hi hi m.pc).wrote .lo lo (m.pc + 4)⟩
      simp only [execute, run_bind, run_readGeneral, registers_observed, hresult, writeHiLo,
        run_writeRegister_eq]
      rfl
  | none =>
      rw [hresult] at h
      cases h
      refine ⟨k, ?_, hk.moved (m.pc + 4)⟩
      simp only [execute, run_bind, run_readGeneral, registers_observed, hresult]
      rfl

/-- **The execution of an instruction comes to its effect.** -/
theorem comes_of_effect? (h : i.effect? m.snapshot = some r) : m.Comes i r := by
  have hm := Became.refl m
  -- whatever is written is written last, so the run up to it is known by computation
  cases i with
  | alu op rd rs rt => exact comes_checked h rfl ((hm.observed _ _).observed _ _)
  | shift op rd rt amount =>
      cases h
      exact comes_put rfl (hm.observed _ _)
  | shiftBy op rd rt rs =>
      cases h
      exact comes_put rfl ((hm.observed _ _).observed _ _)
  | mulDiv op rs rt => exact comes_mulDiv h
  | mul rd rs rt =>
      cases h
      exact comes_put rfl ((hm.observed _ _).observed _ _)
  | moveFrom half rd =>
      cases h
      exact comes_put rfl (hm.observed _ _)
  | moveTo half rs =>
      cases h
      let k := m.observed (.register (.general rs)) .ofRead
      have hk : Became m m.snapshot k := hm.observed _ _
      refine ⟨_, ?_, hk.wrote half.register (m.registers.get rs) (m.pc + 4)⟩
      simp only [execute, run_bind, run_readGeneral, run_writeRegister_eq]
      rfl
  | jr rs =>
      cases h
      exact ⟨_, rfl, (hm.observed _ _).moved _⟩
  | jalr rd rs =>
      cases h
      exact comes_put rfl (hm.observed _ _)
  | syscall => cases h
  | brk code =>
      cases h
      exact ⟨_, rfl⟩
  | aluImm op rt rs imm => exact comes_checked h rfl (hm.observed _ _)
  | lui rt imm =>
      cases h
      exact comes_put rfl hm
  | load op rt base offset => exact comes_load h
  | store op rt base offset => exact comes_store h
  | branch cond rs rt offset =>
      cases h
      exact ⟨_, rfl, ((hm.observed _ _).observed _ _).moved _⟩
  | branchSign cond rs offset =>
      cases h
      exact ⟨_, rfl, (hm.observed _ _).moved _⟩
  | jump link index =>
      cases h
      cases link with
      | false => exact ⟨_, rfl, hm.moved _⟩
      | true => exact comes_put rfl hm

end Comes

/-! ## Attempts -/

/-- An instruction whose execution comes to a snapshot is performed. -/
theorem perform_of_comes_ok {m : Machine} {i : Instr} {s : Snapshot} (h : m.started.Comes i (.ok s)) :
    ∃ n, m.perform i = (.ok (), n) ∧ n.snapshot = s ∧ n.program = m.program := by
  obtain ⟨n, ran, became⟩ := h
  have ran : (execute m.pc i).run.run { m with history := m.history.map (·.start m.pc) } =
      (.ok s.pc, n) := ran
  refine ⟨{ n with pc := s.pc }.commit, ?_, ?_, became.program⟩
  · unfold perform
    dsimp only
    rw [ran]
  · show (⟨n.registers, n.memory.image, s.pc⟩ : Snapshot) = s
    rw [became.registers, became.image]

/-- An instruction whose execution comes to a fault is undone. -/
theorem perform_of_comes_error {m : Machine} {i : Instr} {cause : FaultCause}
    (h : m.started.Comes i (.error cause)) :
    ∃ n, (execute m.pc i).run.run m.started = (.error (.fault cause), n) ∧
      m.perform i = (.error (.fault cause), n.rollBack) := by
  obtain ⟨n, ran⟩ := h
  refine ⟨n, ran, ?_⟩
  have ran : (execute m.pc i).run.run { m with history := m.history.map (·.start m.pc) } =
      (.error (.fault cause), n) := ran
  unfold perform
  dsimp only
  rw [ran]

/-- An attempt at an instruction performs it once its word was fetched. -/
theorem advance_of_effect? {m : Machine} {i : Instr} (going : m.exitCode = none) (here : m.AtCode)
    (decoded : Instr.decode? m.nextWord = some i) {r : Except FaultCause Snapshot}
    (h : i.effect? m.snapshot = some r) :
    m.advance = (m.touched m.pc 4).perform i ∧ (m.touched m.pc 4).started.Comes i r := by
  have hsnapshot : (m.touched m.pc 4).snapshot = m.snapshot := (quiet_touched m m.pc 4).snapshot
  exact ⟨advance_eq_perform going here decoded,
    comes_of_effect? (show i.effect? (m.touched m.pc 4).snapshot = _ by rwa [hsnapshot])⟩

section Advance

variable {m : Machine} {i : Instr} (going : m.exitCode = none) (here : m.AtCode)
  (word : m.nextWord = i.encode) (range : i.InRange)
include going here word range

/-- An attempt at an instruction leaves what its effect says. -/
theorem advance_of_effect?_ok {s : Snapshot} (h : i.effect? m.snapshot = some (.ok s)) :
    ∃ n, m.advance = (.ok (), n) ∧ n.snapshot = s ∧ n.program = m.program := by
  have decoded : Instr.decode? m.nextWord = some i := by rw [word, Instr.decode?_encode range]
  obtain ⟨hadvance, hcomes⟩ := advance_of_effect? going here decoded h
  rw [hadvance]
  exact perform_of_comes_ok hcomes

/-- An attempt at an instruction whose effect is a fault ends in it and leaves the state alone. -/
theorem advance_of_effect?_error {cause : FaultCause} (idle : m.Idle)
    (h : i.effect? m.snapshot = some (.error cause)) :
    ∃ n, m.advance = (.error (.fault cause), n) ∧ n.snapshot = m.snapshot := by
  have decoded : Instr.decode? m.nextWord = some i := by rw [word, Instr.decode?_encode range]
  obtain ⟨hadvance, hcomes⟩ := advance_of_effect? going here decoded h
  obtain ⟨n, -, hperform⟩ := perform_of_comes_error hcomes
  have hadv : m.advance = (.error (.fault cause), n.rollBack) := hadvance.trans hperform
  exact ⟨n.rollBack, hadv, (quiet_advance idle hadv).1.snapshot⟩

end Advance

/-! ## Instructions in a row -/

/-- Instructions stand in the code of the machine from an address on. -/
def HasCode (m : Machine) : Word → List Instr → Prop
  | _, [] => True
  | a, i :: is =>
    { m with pc := a }.AtCode ∧ Image.word m.memory.image a = i.encode ∧ m.HasCode (a + 4) is

theorem HasCode.congr {m n : Machine} (hprogram : n.program = m.program)
    (himage : n.memory.image = m.memory.image) {a : Word} {is : List Instr}
    (h : m.HasCode a is) : n.HasCode a is := by
  induction is generalizing a with
  | nil => trivial
  | cons i is ih =>
      obtain ⟨hat, hword, hrest⟩ := h
      obtain ⟨-, hcode, hlayout⟩ : n.exitCode = m.exitCode ∧ n.code = m.code ∧
          n.layout = m.layout := by simpa only [program, Prod.mk.injEq] using hprogram
      refine ⟨?_, by rw [himage]; exact hword, ih hrest⟩
      unfold AtCode MayFetch at hat ⊢
      rw [hcode, hlayout]
      exact hat

/-- Instructions in a row that go on to the next one and leave memory alone. -/
inductive Setup : List Instr → Snapshot → Snapshot → Prop
  | nil (s : Snapshot) : Setup [] s s
  | cons {i : Instr} {is : List Instr} {s t u : Snapshot} (range : i.InRange)
      (effect : i.effect? s = some (.ok t)) (pc : t.pc = s.pc + 4) (image : t.image = s.image)
      (rest : Setup is t u) : Setup (i :: is) s u

theorem Setup.append {is js : List Instr} {s t u : Snapshot} (h : Setup is s t)
    (h' : Setup js t u) : Setup (is ++ js) s u := by
  induction h with
  | nil => exact h'
  | cons range effect pc image _ ih => exact .cons range effect pc image (ih h')

theorem Setup.pc_eq {is : List Instr} {s t : Snapshot} (h : Setup is s t) :
    t.pc = s.pc + BitVec.ofNat 32 (4 * is.length) := by
  induction h with
  | nil s => simp
  | cons range effect pc image _ ih => rw [ih, pc, List.length_cons, add_four_add]

/-- Makes attempts until one does not go on. -/
def attemptMany : Nat → Machine → Except Halt Unit × Machine
  | 0, m => (.ok (), m)
  | k + 1, m =>
    match m.advance with
    | (.ok (), n) => attemptMany k n
    | (.error halt, n) => (.error halt, n)

theorem attemptMany_add {m n : Machine} {j : Nat} (k : Nat) (h : attemptMany j m = (.ok (), n)) :
    attemptMany (j + k) m = attemptMany k n := by
  induction j generalizing m with
  | zero =>
      cases h
      rw [Nat.zero_add]
  | succ j ih =>
      rw [Nat.succ_add, attemptMany]
      rw [attemptMany] at h
      split at h
      · exact ih h
      · cases h

/-- Attempts at instructions in a row lead to the state after them, and to what stands behind
them. -/
theorem attemptMany_of_setup {m : Machine} {is rest : List Instr} {s : Snapshot} (hm : Reachable m)
    (going : m.exitCode = none) (code : m.HasCode m.pc (is ++ rest)) (h : Setup is m.snapshot s) :
    ∃ n, attemptMany is.length m = (.ok (), n) ∧ Reachable n ∧ n.exitCode = none ∧ n.snapshot = s ∧
      n.HasCode n.pc rest := by
  generalize hs : m.snapshot = start at h
  -- by induction on the instructions; the code stays in place because memory is left alone
  induction h generalizing m with
  | nil => exact ⟨m, rfl, hm, going, hs, code⟩
  | @cons i is _ t u range effect pc image _ ih =>
      subst hs
      obtain ⟨hat, hword, hrest⟩ := code
      obtain ⟨k, hadv, hsnapshot, hprogram⟩ := advance_of_effect?_ok going hat hword range effect
      have hpc : k.pc = m.pc + 4 := (congrArg Snapshot.pc hsnapshot).trans pc
      have himage : k.memory.image = m.memory.image :=
        (congrArg Snapshot.image hsnapshot).trans image
      have hk : Reachable k := by
        have h := hm.attempt
        rwa [hadv] at h
      have hgoing : k.exitCode = none := (congrArg Prod.fst hprogram).trans going
      have hcode : k.HasCode k.pc (is ++ rest) := by
        rw [hpc]
        exact hrest.congr hprogram himage
      obtain ⟨n, hn, hend⟩ := ih hk hgoing hcode hsnapshot
      refine ⟨n, ?_, hend⟩
      rw [List.length_cons, attemptMany, hadv]
      exact hn

end Machine

end MipsLab
