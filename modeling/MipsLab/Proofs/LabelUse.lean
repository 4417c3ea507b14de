import MipsLab.Proofs.Expansion
import MipsLab.Proofs.Ranges
import MipsLab.Proofs.Resolution

set_option autoImplicit false

/-!
# What instructions do with labels

A written instruction has one use for the address of the label among its operands: the address is put
into a register, memory is accessed there, or a branch or jump goes there (`LabelUse`). The machine
instructions that it stands for get ready for that, and the last of them does it
(`usesIn_of_lower`). So does a machine that executes them (`Machine.uses_of_usesIn`).
-/

namespace MipsLab

open Lowering Machine

/-! ## Uses -/

/-- What the address of a label is used for. -/
inductive LabelUse where
  /-- It is put into a register. -/
  | value (rt : Reg)
  | load (op : LoadOp) (rt : Reg)
  | store (op : StoreOp) (rt : Reg)
  /-- A branch or jump goes there. -/
  | target

/-- What a written instruction uses the address of its label for. -/
def Mnemonic.labelUse (m : Mnemonic) (operands : List Operand) : LabelUse :=
  match m, operands with
  | la, .reg rt :: _ => .value rt
  | load op, .reg rt :: _ => .load op rt
  | store op, .reg rt :: _ => .store op rt
  | _, _ => .target

/-- What comes of `i` in `s` is the given use of the address `a`. -/
def LabelUse.Outcome (s : Snapshot) (i : Instr) (a : Word) (o : Except FaultCause Snapshot) :
    LabelUse → Prop
  | value rt => o = s.result (s.pc + 4) rt (some a)
  | load op rt => o = s.loaded (s.pc + 4) op rt a
  | store op rt => o = s.stored (s.pc + 4) op rt a
  | target => ∃ taken t, i.taken? s.registers = some taken ∧ o = .ok t ∧
      t.pc = if taken then a else s.pc + 4

/-- Instructions in a row of which the last one makes a use of an address. -/
inductive UsesIn (use : LabelUse) (a : Word) (s : Snapshot) (code : List Instr) : Prop
  | intro {is : List Instr} {i : Instr} {t : Snapshot} {o : Except FaultCause Snapshot}
      (split : code = is ++ [i]) (setup : Setup is s t) (effect : i.effect? t = some o)
      (outcome : use.Outcome t i a o)

/-! ## Expansions -/

section Forms

variable {lookup : String → Option Word} {s : Snapshot} {code : List Instr}

/-- A branch or jump after instructions that get ready for it goes to its label. -/
theorem usesIn_target {is : List Instr} {t : Snapshot} {x : SymbolicInstr} {l : LabelRef} {i : Instr}
    (setup : Setup is s t) (hl : x.target? = some l) (h : x.resolve lookup t.pc = .ok i) :
    ∃ a, SymbolicInstr.addressOf lookup l = .ok a ∧ UsesIn .target a s (is ++ [i]) := by
  obtain ⟨a, ha, goes⟩ := goes_of_resolve hl h
  obtain ⟨taken, u, htaken, effect, hpc⟩ := goes t rfl
  exact ⟨a, ha, .intro rfl setup effect ⟨taken, u, htaken, rfl, hpc⟩⟩

theorem usesIn_singleton {x : SymbolicInstr} {l : LabelRef} (hl : x.target? = some l)
    (h : resolveAll lookup s.pc [x] = .ok code) :
    ∃ a, SymbolicInstr.addressOf lookup l = .ok a ∧ UsesIn .target a s code := by
  obtain ⟨i, hi, rfl⟩ := resolveAll_singleton h
  exact usesIn_target (.nil s) hl hi

/-- After the upper half of an address was put into the scratch register, the rest is resolved with
the same address. -/
theorem lui_of_resolveAll {l : LabelRef} {part : AddressPart} {x : SymbolicInstr}
    (h : resolveAll lookup s.pc [.lui .scratch l part, x] = .ok code) :
    ∃ a i, SymbolicInstr.addressOf lookup l = .ok a ∧ x.resolve lookup (s.pc + 4) = .ok i ∧
      code = [.lui .scratch (part.of a)] ++ [i] ∧
      Setup [.lui .scratch (part.of a)] s (s.put .scratch (part.of a ++ 0#16)) := by
  obtain ⟨j, js, hj, hjs, rfl⟩ := resolveAll_cons h
  obtain ⟨a, ha, rfl⟩ := addressOf_of_resolve_lui hj
  obtain ⟨i, hi, rfl⟩ := resolveAll_singleton hjs
  exact ⟨a, i, ha, hi, rfl, (setup_lui (.nil s) (.refl s) (part.of a)).1⟩

theorem usesIn_loadAddress {rt : Reg} {l : LabelRef}
    (h : resolveAll lookup s.pc (loadAddress rt l) = .ok code) :
    ∃ a, SymbolicInstr.addressOf lookup l = .ok a ∧ UsesIn (.value rt) a s code := by
  obtain ⟨a, i, ha, hi, rfl, setup⟩ := lui_of_resolveAll h
  rw [SymbolicInstr.resolve, ha] at hi
  cases hi
  refine ⟨a, ha, .intro rfl setup (Instr.effect?_aluImm _ _ _ _ _) ?_⟩
  rw [immResult?, Snapshot.get_put_scratch, high_or_low]
  rfl

theorem usesIn_loadLabel {op : LoadOp} {rt : Reg} {l : LabelRef}
    (h : resolveAll lookup s.pc [.lui .scratch l .highRounded, .load op rt .scratch l] = .ok code) :
    ∃ a, SymbolicInstr.addressOf lookup l = .ok a ∧ UsesIn (.load op rt) a s code := by
  obtain ⟨a, i, ha, hi, rfl, setup⟩ := lui_of_resolveAll h
  rw [SymbolicInstr.resolve, ha] at hi
  cases hi
  refine ⟨a, ha, .intro rfl setup (Instr.effect?_load _ _ _ _ _) ?_⟩
  rw [Snapshot.get_put_scratch, highRounded_add_low]
  rfl

theorem usesIn_storeLabel {op : StoreOp} {rt : Reg} {l : LabelRef}
    (h : resolveAll lookup s.pc [.lui .scratch l .highRounded, .store op rt .scratch l] = .ok code) :
    ∃ a, SymbolicInstr.addressOf lookup l = .ok a ∧ UsesIn (.store op rt) a s code := by
  obtain ⟨a, i, ha, hi, rfl, setup⟩ := lui_of_resolveAll h
  rw [SymbolicInstr.resolve, ha] at hi
  cases hi
  refine ⟨a, ha, .intro rfl setup (Instr.effect?_store _ _ _ _ _) ?_⟩
  rw [Snapshot.get_put_scratch, highRounded_add_low]
  rfl

theorem label_of_memoryAccess? {direct : Reg → Reg → Half → SymbolicInstr}
    {labelled : Reg → LabelRef → SymbolicInstr} {operands : List Operand} {l : LabelRef}
    {is : List SymbolicInstr} (h : memoryAccess? direct labelled operands = some is)
    (hl : .label l ∈ operands) :
    ∃ rt, operands = [.reg rt, .label l] ∧ is = [.lui .scratch l .highRounded, labelled rt l] := by
  unfold memoryAccess? at h
  split at h
  case h_1 rt l' =>
    cases h
    have hl : l = l' := by simpa using hl
    subst hl
    exact ⟨rt, rfl, rfl⟩
  case h_2 | h_3 => simp at hl
  case h_4 => cases h

/-- A source that an expansion can make ready is no label. -/
theorem ne_label_of_sourceOf? {operand : Operand} {r : List SymbolicInstr × Reg}
    (h : sourceOf? operand = some r) (l : LabelRef) : operand ≠ .label l := by
  rintro rfl
  cases h

theorem usesIn_compareAndBranch? (hzero : s.registers.get .zero = 0#32) {c : Comparison}
    {signed : Bool} {rs : Reg} {other : Operand} {l : LabelRef} {is : List SymbolicInstr}
    (h : compareAndBranch? c signed rs other l = some is)
    (resolved : resolveAll lookup s.pc is = .ok code) :
    ∃ a, SymbolicInstr.addressOf lookup l = .ok a ∧ UsesIn .target a s code := by
  unfold compareAndBranch? at h
  obtain ⟨⟨setup, rt⟩, hsource, h⟩ := Option.bind_eq_some_iff.mp h
  cases h
  obtain ⟨is, t, rfl, hsetup, scratched, -⟩ := setup_sourceOf? hzero hsource
  obtain ⟨js, hjs, rfl⟩ := resolveAll_plain_append resolved
  obtain ⟨j, ks, hj, hks, rfl⟩ := resolveAll_cons hjs
  cases hj
  obtain ⟨k, hk, rfl⟩ := resolveAll_singleton hks
  -- the comparison goes to the scratch register, and the branch looks there
  obtain ⟨hsetup', -⟩ := setup_scratch hsetup scratched
    (i := .alu (if signed then .slt else .sltu) .scratch (comparisonOrder rs rt c).1
      (comparisonOrder rs rt c).2.1) trivial (by rw [Instr.effect?_alu, aluResult?_below])
  rw [← hsetup.pc_eq] at hk
  obtain ⟨a, ha, huses⟩ := usesIn_target hsetup' (l := l) rfl hk
  rw [List.append_assoc] at huses
  exact ⟨a, ha, huses⟩

/-- The divisor of an expansion is no label. -/
theorem not_label_of_division? {op : MulDivOp} {half : HiLo} {rd rs : Reg} {divisor : Operand}
    {is : List SymbolicInstr} (h : division? op half rd rs divisor = some is) {l : LabelRef} :
    .label l ∉ [.reg rd, .reg rs, divisor] := by
  obtain ⟨_, hsource, -⟩ := Option.bind_eq_some_iff.mp h
  intro hl
  have hdivisor : Operand.label l = divisor := by simpa using hl
  exact ne_label_of_sourceOf? hsource l hdivisor.symm

/-- The last instruction of an expansion uses the address of the label. -/
theorem usesIn_expansion? (hzero : s.registers.get .zero = 0#32) {m : Mnemonic}
    {operands : List Operand} {l : LabelRef} {is : List SymbolicInstr}
    (h : expansion? m operands = some is) (hl : .label l ∈ operands)
    (resolved : resolveAll lookup s.pc is = .ok code) :
    ∃ a, SymbolicInstr.addressOf lookup l = .ok a ∧ UsesIn (m.labelUse operands) a s code := by
  cases m with
  | load =>
      simp only [expansion?] at h
      obtain ⟨rt, rfl, rfl⟩ := label_of_memoryAccess? h hl
      exact usesIn_loadLabel resolved
  | store =>
      simp only [expansion?] at h
      obtain ⟨rt, rfl, rfl⟩ := label_of_memoryAccess? h hl
      exact usesIn_storeLabel resolved
  | la =>
      simp only [expansion?] at h
      split at h
      case h_1 rt l' =>
        cases h
        obtain rfl : l = l' := by simpa using hl
        exact usesIn_loadAddress resolved
      case h_2 | h_3 => simp at hl
      case h_4 => cases h
  | branch =>
      simp only [expansion?] at h
      split at h <;> cases h
      case h_1 l' =>
        obtain rfl : l = l' := by simpa using hl
        obtain ⟨is, i, t, rfl, setup, -, -, hi⟩ := afterConstant_spec hzero resolved
        exact usesIn_target setup rfl hi
  | always | branchZero =>
      simp only [expansion?] at h
      split at h <;> cases h
      case h_1 l' =>
        obtain rfl : l = l' := by simpa using hl
        exact usesIn_singleton rfl resolved
  | compare =>
      simp only [expansion?] at h
      split at h
      case h_1 rs other l' =>
        have hother : Operand.label l = other ∨ l = l' := by simpa using hl
        rcases hother with hother | rfl
        · obtain ⟨_, hsource, -⟩ := Option.bind_eq_some_iff.mp h
          exact absurd hother.symm (ne_label_of_sourceOf? hsource l)
        · exact usesIn_compareAndBranch? hzero h resolved
      case h_2 => cases h
  | rem =>
      simp only [expansion?] at h
      split at h
      · exact absurd hl (not_label_of_division? h)
      · cases h
  | mulDiv op =>
      cases op
      case div | divu =>
        simp only [expansion?] at h
        split at h
        · exact absurd hl (not_label_of_division? h)
        · cases h
      all_goals cases h
  -- the operands of the other expansions are registers and numbers
  | alu | aluImm | li | move | not | neg | subImm | mul =>
      simp only [expansion?] at h
      split at h
      · simp at hl
      · cases h
  | _ => cases h

/-- Of basic forms, only branches and jumps have a label. -/
theorem target_of_basicForm {m : Mnemonic} {operands : List Operand} {l : LabelRef}
    {x : SymbolicInstr} (h : basicForm m operands = .fits x) (hl : .label l ∈ operands) :
    x.target? = some l ∧ m.labelUse operands = .target := by
  cases m with
  | li | la | move | not | neg | subImm | always | branchZero | compare | rem => cases h
  | branch | branchSign | jump =>
      simp only [basicForm] at h
      split at h
      case h_1 l' =>
        cases h
        obtain rfl : l = l' := by simpa using hl
        exact ⟨rfl, rfl⟩
      case h_2 => simp at hl
      case h_3 => cases h
  | jalr | brk =>
      simp only [basicForm] at h
      split at h
      · simp at hl
      · simp at hl
      · cases h
  | _ =>
      simp only [basicForm] at h
      split at h
      · simp at hl
      · cases h

end Forms

/-- **The instructions for a written one use the address of its label**, whatever the registers and
memory are. -/
theorem usesIn_of_lower {lookup : String → Option Word} {pc : Word} {code : List Instr} {name : String}
    {operands : List Operand} {extended : Bool} {l : LabelRef} {is : List SymbolicInstr}
    (h : lower name operands extended = .ok is) (hl : .label l ∈ operands)
    (resolved : resolveAll lookup pc is = .ok code) :
    ∃ m a, Mnemonic.ofName? name.toLower = some m ∧ SymbolicInstr.addressOf lookup l = .ok a ∧
      ∀ s : Snapshot, s.pc = pc → s.registers.get .zero = 0#32 →
        UsesIn (m.labelUse operands) a s code := by
  obtain ⟨m, named, hforms⟩ := mnemonic_of_lower h
  have huses : ∀ s : Snapshot, s.pc = pc → s.registers.get .zero = 0#32 →
      ∃ a, SymbolicInstr.addressOf lookup l = .ok a ∧ UsesIn (m.labelUse operands) a s code := by
    rintro s rfl hzero
    rcases hforms with ⟨x, hbasic, rfl⟩ | hexpansion
    · obtain ⟨htarget, huse⟩ := target_of_basicForm hbasic hl
      rw [huse]
      exact usesIn_singleton htarget resolved
    · exact usesIn_expansion? hzero hexpansion hl resolved
  -- the address does not depend on the snapshot, so any one tells it
  obtain ⟨a, ha, -⟩ := huses { (Machine.initial {}).snapshot with pc } rfl rfl
  refine ⟨m, a, named, ha, ?_⟩
  intro s hpc hzero
  obtain ⟨b, hb, uses⟩ := huses s hpc hzero
  obtain rfl := Except.ok.inj (ha.symm.trans hb)
  exact uses

/-! ## Execution -/

namespace Machine

/-- The next attempt comes to an outcome: it leaves a snapshot, or it faults and leaves the state
alone. -/
def AttemptsTo (m : Machine) : Except FaultCause Snapshot → Prop
  | .ok s => ∃ n, m.advance = (.ok (), n) ∧ n.snapshot = s
  | .error cause => ∃ n, m.advance = (.error (.fault cause), n) ∧ n.snapshot = m.snapshot

/-- The machine executes instructions in a row up to the last one, and the attempt at that one makes
a use of an address. -/
def Uses (m : Machine) (code : List Instr) (use : LabelUse) (a : Word) : Prop :=
  ∃ is i n o, code = is ++ [i] ∧ attemptMany is.length m = (.ok (), n) ∧
    n.nextWord = i.encode ∧ n.AttemptsTo o ∧ use.Outcome n.snapshot i a o

/-- Where instructions stand that use an address, a machine that executes them does so. -/
theorem uses_of_usesIn {m : Machine} (hm : Reachable m) (going : m.exitCode = none)
    {code : List Instr} (placed : m.HasCode m.pc code) (range : ∀ i ∈ code, i.InRange)
    {use : LabelUse} {a : Word} (h : UsesIn use a m.snapshot code) : m.Uses code use a := by
  obtain @⟨is, i, t, o, split, setup, effect, outcome⟩ := h
  subst split
  obtain ⟨n, hn, hreachable, hgoing, rfl, hat, hword, -⟩ := attemptMany_of_setup hm going placed setup
  refine ⟨is, i, n, o, rfl, hn, hword, ?_, outcome⟩
  have hi : i.InRange := range i List.mem_concat_self
  cases o with
  | ok s =>
      obtain ⟨k, hk, hsnapshot, -⟩ := advance_of_effect?_ok hgoing hat hword hi effect
      exact ⟨k, hk, hsnapshot⟩
  | error cause => exact advance_of_effect?_error hgoing hat hword hi hreachable.idle effect

end Machine

end MipsLab
