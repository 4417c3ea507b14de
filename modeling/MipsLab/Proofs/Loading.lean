import MipsLab.Proofs.Alike
import MipsLab.Proofs.Registers
import MipsLab.Proofs.Storage

set_option autoImplicit false

/-!
# What loading a program leaves

Loading a program starts from a machine that nothing has been executed on, writes the words of the
code and then the data, and sets the registers that the layout gives a value to (`StartOf`). Of what
the machine was before, only what its owner has set up matters: the options, the breakpoints, the
console and the run control (`Machine.startOf_load`).
-/

namespace MipsLab

/-! ## Registers -/

/-- The value that a register starts with, where `v` is what registers are filled with. -/
def MemoryLayout.startValue (layout : MemoryLayout) (v : Word) (r : Register) : Word :=
  if r = .general .zero then 0
  else if r = .general .sp then layout.stackPointer
  else if r = .general .gp then layout.globalPointer
  else v

namespace Registers

theorem get_filled_known (v : Word) (r : Reg) :
    (filled (.known v)).get r = if r = .zero then 0 else v := by
  have hzero : r.number = 0 ↔ r = .zero :=
    ⟨fun h => Reg.eq_of_number_eq h, fun h => h ▸ rfl⟩
  rw [get_eq, filled]
  simp only [Fin.getElem_fin, Vector.getElem_ofFn, hzero]
  rfl

theorem read_filled_known (v : Word) (r : Register) :
    (filled (.known v)).read r = if r = .general .zero then 0 else v := by
  cases r with
  | general r =>
      show (filled (.known v)).get r = _
      simp only [get_filled_known, Register.general.injEq]
  | hi => rfl
  | lo => rfl

end Registers

theorem Machine.read_initialRegisters (v : Word) (layout : MemoryLayout) (r : Register) :
    (initialRegisters (.known v) layout).read r = layout.startValue v r := by
  show (((Registers.filled (.known v)).write (.general .sp) layout.stackPointer).write
    (.general .gp) layout.globalPointer).read r = _
  have hne : (Register.general .sp) ≠ .general .gp := by decide
  rw [Registers.read_write, Registers.read_write, Registers.read_filled_known,
    MemoryLayout.startValue]
  by_cases hzero : r = .general .zero
  · subst hzero
    rfl
  by_cases hgp : r = .general .gp
  · subst hgp
    rfl
  by_cases hsp : r = .general .sp
  · subst hsp
    rfl
  · simp [hzero, hgp, hsp, Ne.symm hgp, Ne.symm hsp]

/-! ## Memory -/

theorem DataBlock.covers_of_byteAt? {d : DataBlock} {x : Word} {b : Byte}
    (h : d.byteAt? x = some b) : d.Covers x := by
  obtain ⟨hlt, -⟩ := List.getElem?_eq_some_iff.mp h
  exact hlt

namespace Machine

/-- The machine is at the start of a program, in memory and registers that were filled with `v`. -/
structure StartOf (p : AssembledProgram) (v : Word) (m : Machine) : Prop where
  /-- Data has been written last, so a byte of data is there even if it lies on code. -/
  data : ∀ d ∈ p.data, ∀ x b, d.byteAt? x = some b → m.memory.image x = b
  code : ∀ c ∈ p.code, ∀ x b, (∀ d ∈ p.data, ¬ d.Covers x) → c.block.byteAt? x = some b →
    m.memory.image x = b
  rest : ∀ x, (∀ b ∈ p.blocks, ¬ b.Covers x) → m.memory.image x = Word.byte v (x.toNat % 4)
  registers : ∀ r, m.registers.read r = p.layout.startValue v r
  atMain : ∀ a, m.options.startAtMain = true → p.globals.addressOf? "main" = some a → m.pc = a
  atText : m.options.startAtMain = false ∨ p.globals.addressOf? "main" = none →
    m.pc = p.layout.textBase
  executed : m.executed = 0
  exitCode : m.exitCode = none
  pause : m.pause = .none
  stepped : m.stepped = false
  observer : m.observer = .empty
  history : m.history =
    if m.options.keepsHistory then some (.empty m.options.historyLimit) else none
  layout : m.layout = p.layout

/-- The owner of both machines has set up the same. -/
structure SameOwner (m n : Machine) : Prop where
  options : n.options = m.options
  breakpoints : n.breakpoints = m.breakpoints
  console : n.console = m.console
  running : n.running = m.running

theorem sameOwner_load (m : Machine) (p : AssembledProgram) : m.SameOwner (m.load p) :=
  ⟨rfl, rfl, rfl, rfl⟩

/-- Loading looks at nothing but what the owner has set up. -/
theorem SameOwner.load_eq {m n : Machine} (h : m.SameOwner n) (p : AssembledProgram) :
    n.load p = m.load p := by
  have hreset : n.reset = m.reset := by
    rw [reset, reset, h.options, h.breakpoints, h.console, h.running]
  rw [load, load, hreset, h.options]

/-- The image after loading: the data over the code over what memory was filled with. -/
theorem image_load (m : Machine) (p : AssembledProgram) :
    (m.load p).memory.image =
      p.data.foldl (fun g d => Image.patch g d.address d.bytes)
        ((p.code.map (·.block)).foldl (fun g b => Image.patch g b.address b.bytes)
          (Memory.filled m.options.fill).image) := by
  rw [← List.foldl_append]
  exact image_loadMemory m.reset.memory p

theorem startOf_load_of_blocks {p : AssembledProgram} {m : Machine} {v : Word}
    (fill : m.options.fill = .known v)
    (code : (p.code.map (·.block)).Pairwise DataBlock.Disjoint)
    (data : p.data.Pairwise DataBlock.Disjoint)
    (size : ∀ b ∈ p.blocks, b.bytes.length ≤ 0x100000000) : StartOf p v (m.load p) := by
  have hcodeSize : ∀ b ∈ p.code.map (·.block), b.bytes.length ≤ 0x100000000 :=
    fun b hb => size b (List.mem_append_left _ hb)
  have hdataSize : ∀ d ∈ p.data, d.bytes.length ≤ 0x100000000 :=
    fun d hd => size d (List.mem_append_right _ hd)
  have hfill : ∀ x, (Memory.filled m.options.fill).image x = Word.byte v (x.toNat % 4) := by
    intro x
    rw [fill, Memory.image_filled, Fill.known]
  constructor
  case data =>
    intro d hd x b hb
    apply Option.some.inj
    rw [image_load, DataBlock.foldl_patch_of_covers _ hdataSize data hd
      (DataBlock.covers_of_byteAt? hb), hb]
  case code =>
    intro c hc x b free hb
    apply Option.some.inj
    rw [image_load, DataBlock.foldl_patch_of_not_covers _ hdataSize free,
      DataBlock.foldl_patch_of_covers _ hcodeSize code (List.mem_map_of_mem hc)
        (DataBlock.covers_of_byteAt? hb), hb]
  case rest =>
    intro x free
    rw [image_load,
      DataBlock.foldl_patch_of_not_covers _ hdataSize
        fun d hd => free d (List.mem_append_right _ hd),
      DataBlock.foldl_patch_of_not_covers _ hcodeSize
        fun b hb => free b (List.mem_append_left _ hb),
      hfill]
  case registers =>
    intro r
    show (initialRegisters m.options.fill p.layout).read r = _
    rw [fill, read_initialRegisters]
  case atMain =>
    intro a hmain ha
    have hmain : m.options.startAtMain = true := hmain
    show startOf m.options p = a
    rw [startOf, if_pos hmain, ha, Option.getD_some]
  case atText =>
    intro h
    show startOf m.options p = p.layout.textBase
    rcases h with hmain | hnone
    · have hmain : m.options.startAtMain = false := hmain
      rw [startOf, hmain]
      rfl
    · rw [startOf, hnone, Option.getD_none, ite_self]
  case executed | exitCode | pause | stepped | observer | history | layout => rfl

/-- **A machine that has loaded a program is at its start**, whatever it did before: memory holds the
data, then the code, then what it was filled with, and nothing has been executed. What its owner has set
up stays as it is, and two machines with the same set up are the same after loading. -/
theorem startOf_load {options : AssemblyOptions} {units : List SourceUnit} {p : AssembledProgram}
    (ok : (Assembly.assemble options units).1 = .ok p) {m : Machine} {v : Word}
    (fill : m.options.fill = .known v) :
    StartOf p v (m.load p) ∧ m.SameOwner (m.load p) ∧
      ∀ n, m.SameOwner n → n.load p = m.load p := by
  obtain ⟨hcode, hdata, hsize⟩ := Assembly.blocks_spec ok
  exact ⟨startOf_load_of_blocks fill hcode hdata hsize, sameOwner_load m p, fun n h => h.load_eq p⟩

/-- A machine that is in the middle of another program loads one that starts at its label `main`. -/
theorem startOf_load_atMain :
    let v : Word := 0xA1B2C3D4
    let used := fun q => ((Machine.initial { fill := .known v, startAtMain := true }).load q).step.2
    ∃ p q, assembled? ".globl main\n.text 0x00400010\nmain: nop\n.data\n.byte 7" = some p ∧
      assembled? "ori $t1, $zero, 5" = some q ∧ (used q).registers.get ⟨9⟩ = 5 ∧
      (used q).options.fill = .known v ∧ StartOf p v ((used q).load p) ∧
      ((used q).load p).registers.get ⟨9⟩ = v ∧ ((used q).load p).pc = 0x00400010 ∧
      ((used q).load p).memory.image 0x10010000 = 7 ∧
      ((used q).load p).memory.image 0x10010001 = 0xC3 := by
  intro v used
  have hp : (assembled? ".globl main\n.text 0x00400010\nmain: nop\n.data\n.byte 7").map
      (fun p => (p.code.map (·.address), p.data, p.globals.addressOf? "main")) =
        some ([0x00400010], [⟨0x10010000, [7]⟩], some 0x00400010) := by decide +kernel
  have hq : (assembled? "ori $t1, $zero, 5").map (fun q => (used q).registers.get ⟨9⟩) = some 5 := by
    decide +kernel
  obtain ⟨p, hp, hparts⟩ := Option.map_eq_some_iff.mp hp
  obtain ⟨hcode, hdata, hmain⟩ : p.code.map (·.address) = [0x00400010] ∧
      p.data = [⟨0x10010000, [7]⟩] ∧ p.globals.addressOf? "main" = some 0x00400010 := by
    simpa only [Prod.mk.injEq] using hparts
  obtain ⟨q, hq, hregister⟩ := Option.map_eq_some_iff.mp hq
  have hoptions : (used q).options = { fill := .known v, startAtMain := true } := (setup_step _).1
  have hfill : (used q).options.fill = .known v := by rw [hoptions]
  obtain ⟨hstart, -, -⟩ := startOf_load (eq_ok_of_toOption hp) hfill
  refine ⟨p, q, hp, hq, hregister, hfill, hstart, hstart.registers (.general ⟨9⟩), ?_, ?_, ?_⟩
  · exact hstart.atMain _ (congrArg MachineOptions.startAtMain hoptions) hmain
  · exact hstart.data ⟨0x10010000, [7]⟩ (by simp [hdata]) _ _ (by decide)
  · rw [hstart.rest _ ?_]
    · decide
    · intro b hb
      rcases List.mem_append.mp hb with hb | hb
      · obtain ⟨c, hc, rfl⟩ := List.mem_map.mp hb
        have hc : c.address ∈ p.code.map (·.address) := List.mem_map_of_mem hc
        rw [hcode, List.mem_singleton] at hc
        show ¬ (0x10010001 - c.address : Word).toNat < 4
        rw [hc]
        decide
      · obtain rfl : b = ⟨0x10010000, [7]⟩ := by simpa [hdata] using hb
        decide

end Machine

end MipsLab
