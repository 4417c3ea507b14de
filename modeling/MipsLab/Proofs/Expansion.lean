import MipsLab.Proofs.ExpansionPieces
import MipsLab.Proofs.MnemonicTables

set_option autoImplicit false

/-!
# Expansions do what the extended instruction says

Every expansion performs the outcome of the extended instruction taken as a single one
(`carries_expansion?`), and so the machine that executes it comes to that outcome
(`Machine.follows_outcome`). Loads and stores, divisions and comparisons come first; the other forms
load a constant or use a single instruction. Each family of extended instructions then has its own lemma.
-/

namespace MipsLab

open Lowering Machine

/-! ## Loads and stores -/

/-- A kind of access to memory with a given register: the instruction for it, how expansions write it
with a base and with a label, and its outcome at an address. -/
structure IsAccess (lookup : String → Option Word) (dest : Option Reg) (rt : Reg)
    (access : Reg → Half → Instr) (direct : Reg → Reg → Half → SymbolicInstr)
    (labelled : Reg → LabelRef → SymbolicInstr)
    (outcome : Snapshot → Word → Word → Except FaultCause Snapshot) : Prop where
  direct : ∀ base offset, direct rt base offset = .plain (access base offset)
  labelled : ∀ pc l a, SymbolicInstr.addressOf lookup l = .ok a →
    (labelled rt l).resolve lookup pc = .ok (access .scratch (AddressPart.low.of a))
  range : ∀ base offset, (access base offset).InRange
  effect : ∀ t base offset, (access base offset).effect? t =
    some (outcome t (t.pc + 4) (t.registers.get base + offset.signExtend 32))
  alike : ∀ s t next a, Snapshot.Scratched s t →
    Snapshot.Alike dest (outcome s next a) (outcome t next a)

theorem isAccess_load (lookup : String → Option Word) (op : LoadOp) (rt : Reg) :
    IsAccess lookup (some rt) rt (.load op rt) (fun rt base n => .plain (.load op rt base n))
      (fun rt l => .load op rt .scratch l) (fun s next a => s.loaded next op rt a) where
  direct _ _ := rfl
  labelled pc l a ha := by
    rw [SymbolicInstr.resolve, ha]
    rfl
  range _ _ := trivial
  effect t base offset := Instr.effect?_load t op rt base offset
  alike _ _ next a h := h.loaded next op rt a

theorem isAccess_store (lookup : String → Option Word) (op : StoreOp) {rt : Reg}
    (hrt : rt ≠ .scratch) : IsAccess lookup none rt (.store op rt)
      (fun rt base n => .plain (.store op rt base n)) (fun rt l => .store op rt .scratch l)
      (fun s next a => s.stored next op rt a) where
  direct _ _ := rfl
  labelled pc l a ha := by
    rw [SymbolicInstr.resolve, ha]
    rfl
  range _ _ := trivial
  effect t base offset := Instr.effect?_store t op rt base offset
  alike _ _ next a h := h.stored next op hrt a

theorem address?_label {lookup : String → Option Word} {l : LabelRef} {a : Word}
    (h : SymbolicInstr.addressOf lookup l = .ok a) (s : Snapshot) :
    (Operand.label l).address? lookup s = some a := by
  rw [Operand.address?, h]
  rfl

theorem memoryAccess?_eq_some {direct : Reg → Reg → Half → SymbolicInstr}
    {labelled : Reg → LabelRef → SymbolicInstr} {operands : List Operand} {is : List SymbolicInstr}
    (h : memoryAccess? direct labelled operands = some is) :
    ∃ rt place, operands = [.reg rt, place] := by
  unfold memoryAccess? at h
  split at h
  · exact ⟨_, _, rfl⟩
  · exact ⟨_, _, rfl⟩
  · exact ⟨_, _, rfl⟩
  · cases h

section Access

variable {lookup : String → Option Word} {dest : Option Reg} {rt : Reg}
  {access : Reg → Half → Instr} {direct : Reg → Reg → Half → SymbolicInstr}
  {labelled : Reg → LabelRef → SymbolicInstr}
  {outcome : Snapshot → Word → Word → Except FaultCause Snapshot}
  (acc : IsAccess lookup dest rt access direct labelled outcome)
include acc

/-- An access whose base and offset add up to an address is an access at this address. -/
theorem performs_access {is : List Instr} {s t : Snapshot} (setup : Setup is s t)
    (hscratched : Snapshot.Scratched s t) {base : Reg} {offset : Half} {a : Word}
    (ha : t.registers.get base + offset.signExtend 32 = a) :
    Performs dest s (is ++ [access base offset])
      (outcome s (s.after (is ++ [access base offset])) a) := by
  rw [setup.after_eq]
  refine performs_of_alike setup hscratched (acc.range base offset) (acc.effect t base offset) ?_
  rw [ha]
  exact acc.alike s t _ a hscratched

/-- With the upper half of its address in the scratch register, an access adds the lower half. -/
theorem performs_access_upper (s : Snapshot) (a : Word) :
    Performs dest s [.lui .scratch (AddressPart.highRounded.of a),
        access .scratch (AddressPart.low.of a)]
      (outcome s (s.after [.lui .scratch (AddressPart.highRounded.of a),
        access .scratch (AddressPart.low.of a)]) a) := by
  obtain ⟨setup, hscratched⟩ := setup_lui (.nil s) (.refl s) (AddressPart.highRounded.of a)
  refine performs_access acc setup hscratched ?_
  rw [Snapshot.get_put_scratch, highRounded_add_low]

/-- Wherever it is, the place of a load or store is accessed at its address. -/
theorem performs_memoryAccess? {s : Snapshot} {code : List Instr}
    (hzero : s.registers.get .zero = 0#32) {place : Operand} (intact : .scratch ∉ place.registers)
    {is : List SymbolicInstr} (h : memoryAccess? direct labelled [.reg rt, place] = some is)
    (resolved : resolveAll lookup s.pc is = .ok code) :
    ∃ a, place.address? lookup s = some a ∧ Performs dest s code (outcome s (s.after code) a) := by
  cases place with
  | label l =>
      cases h
      obtain ⟨j, js, hj, hjs, rfl⟩ := resolveAll_cons resolved
      obtain ⟨a, ha, rfl⟩ := addressOf_of_resolve_lui hj
      obtain ⟨k, hk, rfl⟩ := resolveAll_singleton hjs
      rw [acc.labelled _ _ _ ha] at hk
      cases hk
      exact ⟨a, address?_label ha s, performs_access_upper acc s a⟩
  | imm n =>
      refine ⟨Word.ofInt n, rfl, ?_⟩
      rw [memoryAccess?] at h
      split at h
      case isTrue hfits =>
        cases h
        obtain ⟨j, hj, rfl⟩ := resolveAll_singleton resolved
        rw [acc.direct] at hj
        cases hj
        refine performs_access acc (.nil s) (.refl s) ?_
        rw [hzero, signExtend_half hfits, BitVec.zero_add]
      case isFalse =>
        cases h
        obtain ⟨j, js, hj, hjs, rfl⟩ := resolveAll_cons resolved
        cases hj
        obtain ⟨k, hk, rfl⟩ := resolveAll_singleton hjs
        rw [acc.direct] at hk
        cases hk
        exact performs_access_upper acc s (Word.ofInt n)
  | mem n base =>
      refine ⟨_, rfl, ?_⟩
      have hbase : base ≠ .scratch := fun e => intact (e ▸ List.mem_singleton_self _)
      cases h
      obtain ⟨j, js, hj, hjs, rfl⟩ := resolveAll_cons resolved
      cases hj
      obtain ⟨k, ks, hk, hks, rfl⟩ := resolveAll_cons hjs
      cases hk
      obtain ⟨l, hl, rfl⟩ := resolveAll_singleton hks
      rw [acc.direct] at hl
      cases hl
      obtain ⟨setup, hscratched⟩ :=
        setup_lui (.nil s) (.refl s) (AddressPart.highRounded.of (Word.ofInt n))
      obtain ⟨setup', hscratched'⟩ := setup_scratch setup hscratched
        (i := .alu .addu .scratch .scratch base) trivial (Instr.effect?_alu _ _ _ _ _)
      refine performs_access acc setup' hscratched' ?_
      -- the base is added to the upper half before the access adds the lower one
      rw [Snapshot.get_put_scratch, Snapshot.get_put_scratch, hscratched.get hbase,
        BitVec.add_comm _ (s.registers.get base), BitVec.add_assoc, highRounded_add_low]
  | reg | str => cases h

end Access

/-! ## Divisions -/

/-- A division sets `hi` and `lo` and goes on, and the half asked for is moved from there. -/
theorem performs_divided {is : List Instr} {s t : Snapshot} (setup : Setup is s t)
    (hscratched : Snapshot.Scratched s t) (op : MulDivOp) (half : HiLo) (rd rt : Reg) {rs : Reg}
    (hrs : rs ≠ .scratch) :
    Performs (some rd) s (is ++ [.mulDiv op rs rt] ++ [.moveFrom half rd])
      (s.divided (s.after (is ++ [.mulDiv op rs rt] ++ [.moveFrom half rd])) op half rd
        (s.registers.get rs) (t.registers.get rt)) := by
  let results := t.withResults op (t.registers.get rs) (t.registers.get rt)
  let u : Snapshot := { results with pc := t.pc + 4 }
  -- by zero or not, a division leaves memory alone and goes on
  have himage : u.image = t.image := by
    show (t.withResults op _ _).image = t.image
    unfold Snapshot.withResults
    split <;> rfl
  have setup' : Setup (is ++ [.mulDiv op rs rt]) s u :=
    setup.append (.cons trivial (Instr.effect?_mulDiv t op rs rt) rfl himage (.nil u))
  have hu : Snapshot.Scratched
      (s.withResults op (s.registers.get rs) (t.registers.get rt)) u := by
    rw [← hscratched.get hrs]
    exact hscratched.withResults op _ _ _
  have hhalf : u.registers.read half.register = (s.withResults op (s.registers.get rs)
      (t.registers.get rt)).registers.read half.register := by
    apply hu.registers
    cases half <;> nofun
  have effect : (Instr.moveFrom half rd).effect? u =
      some (u.result (u.pc + 4) rd (some (u.registers.read half.register))) := rfl
  rw [hhalf] at effect
  rw [setup'.after_eq]
  have halike := hu.result (u.pc + 4) rd (some ((s.withResults op (s.registers.get rs)
    (t.registers.get rt)).registers.read half.register))
  cases halike with
  | ok hmatches => exact .ok rfl setup' trivial effect hmatches

theorem performs_division? {lookup : String → Option Word} {s : Snapshot} {code : List Instr}
    (hzero : s.registers.get .zero = 0#32) {op : MulDivOp} {half : HiLo} {rd rs : Reg}
    {divisor : Operand} (hrs : rs ≠ .scratch)
    {is : List SymbolicInstr} (h : division? op half rd rs divisor = some is)
    (resolved : resolveAll lookup s.pc is = .ok code) :
    ∃ b, divisor.value? s = some b ∧
      Performs (some rd) s code (s.divided (s.after code) op half rd (s.registers.get rs) b) := by
  obtain ⟨⟨setup, rt⟩, hsource, h⟩ := Option.bind_eq_some_iff.mp h
  cases h
  obtain ⟨is, t, rfl, hsetup, scratched, hvalue⟩ := setup_sourceOf? hzero hsource
  obtain ⟨js, hjs, rfl⟩ := resolveAll_plain_append resolved
  obtain ⟨j, ks, hj, hks, rfl⟩ := resolveAll_cons hjs
  cases hj
  obtain ⟨k, hk, rfl⟩ := resolveAll_singleton hks
  cases hk
  have performs := performs_divided hsetup scratched op half rd rt hrs
  rw [List.append_assoc] at performs
  exact ⟨_, hvalue, performs⟩

/-! ## Comparisons -/

theorem performs_compareAndBranch? {lookup : String → Option Word} {s : Snapshot}
    {code : List Instr} (hzero : s.registers.get .zero = 0#32) {c : Comparison} {signed : Bool} {rs : Reg}
    {other : Operand} {l : LabelRef} (hrs : rs ≠ .scratch)
    {is : List SymbolicInstr} (h : compareAndBranch? c signed rs other l = some is)
    (resolved : resolveAll lookup s.pc is = .ok code) :
    ∃ b a, other.value? s = some b ∧ SymbolicInstr.addressOf lookup l = .ok a ∧
      Performs none s code
        (s.branched (s.after code) (c.holdsOf signed (s.registers.get rs) b) a) := by
  unfold compareAndBranch? at h
  obtain ⟨⟨setup, rt⟩, hsource, h⟩ := Option.bind_eq_some_iff.mp h
  rcases horder : comparisonOrder rs rt c with ⟨a, b, cond⟩
  dsimp only at h
  rw [horder] at h
  dsimp only at h
  cases h
  obtain ⟨is, t, rfl, hsetup, scratched, hvalue⟩ := setup_sourceOf? hzero hsource
  obtain ⟨js, hjs, rfl⟩ := resolveAll_plain_append resolved
  obtain ⟨j, ks, hj, hks, rfl⟩ := resolveAll_cons hjs
  cases hj
  obtain ⟨k, hk, rfl⟩ := resolveAll_singleton hks
  obtain ⟨target, htarget, range, effect⟩ := effect?_of_resolve_branch hk
  -- what the scratch register holds once the comparison is made
  let below := Comparison.lt.holdsOf signed (t.registers.get a) (t.registers.get b)
  obtain ⟨hsetup', scratched'⟩ := setup_scratch hsetup scratched
    (i := .alu (if signed then .slt else .sltu) .scratch a b) trivial
    (by rw [Instr.effect?_alu, aluResult?_below])
  -- the branch compares the truth value with `$zero`
  have taken : cond.holds (truth below) 0#32 =
      c.holdsOf signed (t.registers.get rs) (t.registers.get rt) :=
    holds_comparisonOrder horder signed t.registers
  have effect := effect (t.put .scratch (truth below)) (congrArg (· + 4) hsetup.pc_eq)
  rw [Snapshot.get_put_scratch, scratched'.get (by decide), hzero, taken,
    scratched.get hrs] at effect
  have performs := performs_branched hsetup' scratched' range effect
  rw [List.append_assoc] at performs
  exact ⟨_, target, hvalue, htarget, performs⟩

/-! ## Families of extended instructions -/

/-- The registers that an instruction reads are those of its inputs. -/
theorem Extended.not_mem_registers {r : Reg} {mnemonic : Mnemonic} {operands : List Operand} {o : Operand}
    (h : r ∉ sources mnemonic operands) (ho : o ∈ inputs mnemonic operands) : r ∉ o.registers :=
  fun hr => h (List.mem_flatMap_of_mem ho hr)

theorem Extended.ne_of_mem_inputs {r q : Reg} {mnemonic : Mnemonic} {operands : List Operand}
    (h : r ∉ sources mnemonic operands) (hq : .reg q ∈ inputs mnemonic operands) : q ≠ r :=
  fun e => not_mem_registers h hq (List.mem_singleton.mpr e.symm)

/-- The instructions perform what a mnemonic with operands says. -/
def Carries (lookup : String → Option Word) (s : Snapshot) (code : List Instr) (mnemonic : Mnemonic)
    (operands : List Operand) : Prop :=
  ∃ outcome, Extended.outcome? lookup (s.after code) s mnemonic operands = some outcome ∧
    Performs (Extended.destination? mnemonic operands) s code outcome

section Families

variable {lookup : String → Option Word} {s : Snapshot} {code : List Instr} {operands : List Operand}
  {is : List SymbolicInstr}

/-! ### Operations on a register and a constant -/

theorem carries_alu (hzero : s.registers.get .zero = 0#32) {op : AluOp}
    (intact : .scratch ∉ Extended.sources (.alu op) operands)
    (h : expansion? (.alu op) operands = some is) (resolved : resolveAll lookup s.pc is = .ok code) :
    Carries lookup s code (.alu op) operands := by
  simp only [expansion?] at h
  split at h <;> cases h
  exact ⟨_, rfl, performs_aluConstant hzero (Extended.ne_of_mem_inputs intact (.head _)) resolved⟩

theorem carries_aluImm (hzero : s.registers.get .zero = 0#32) {op : ImmOp}
    (intact : .scratch ∉ Extended.sources (.aluImm op) operands)
    (h : expansion? (.aluImm op) operands = some is) (resolved : resolveAll lookup s.pc is = .ok code) :
    Carries lookup s code (.aluImm op) operands := by
  simp only [expansion?] at h
  split at h <;> cases h
  refine ⟨_, rfl, ?_⟩
  rw [← aluResult?_registerForm]
  exact performs_alu_afterConstant hzero (Extended.ne_of_mem_inputs intact (.head _)) resolved

theorem carries_subImm (hzero : s.registers.get .zero = 0#32) {traps : Bool}
    (intact : .scratch ∉ Extended.sources (.subImm traps) operands)
    (h : expansion? (.subImm traps) operands = some is)
    (resolved : resolveAll lookup s.pc is = .ok code) :
    Carries lookup s code (.subImm traps) operands := by
  simp only [expansion?] at h
  split at h <;> cases h
  exact ⟨_, rfl, performs_aluConstant hzero (Extended.ne_of_mem_inputs intact (.head _)) resolved⟩

theorem carries_mul (hzero : s.registers.get .zero = 0#32)
    (intact : .scratch ∉ Extended.sources .mul operands)
    (h : expansion? .mul operands = some is) (resolved : resolveAll lookup s.pc is = .ok code) :
    Carries lookup s code .mul operands := by
  simp only [expansion?] at h
  split at h <;> cases h
  refine ⟨_, rfl, performs_afterConstant hzero resolved trivial ?_⟩
  intro t scratched hvalue
  rw [Instr.effect?_mul, scratched.get (Extended.ne_of_mem_inputs intact (.head _)), hvalue]

/-! ### Loads and stores -/

theorem carries_load (hzero : s.registers.get .zero = 0#32) {op : LoadOp}
    (intact : .scratch ∉ Extended.sources (.load op) operands)
    (h : expansion? (.load op) operands = some is) (resolved : resolveAll lookup s.pc is = .ok code) :
    Carries lookup s code (.load op) operands := by
  simp only [expansion?] at h
  obtain ⟨rt, place, rfl⟩ := memoryAccess?_eq_some h
  obtain ⟨a, ha, performs⟩ := performs_memoryAccess? (isAccess_load lookup op rt) hzero
    (Extended.not_mem_registers intact (.head _)) h resolved
  refine ⟨_, ?_, performs⟩
  -- there is an outcome as soon as the place has an address
  change Option.bind _ _ = _
  rw [ha]
  rfl

theorem carries_store (hzero : s.registers.get .zero = 0#32) {op : StoreOp}
    (intact : .scratch ∉ Extended.sources (.store op) operands)
    (h : expansion? (.store op) operands = some is) (resolved : resolveAll lookup s.pc is = .ok code) :
    Carries lookup s code (.store op) operands := by
  simp only [expansion?] at h
  obtain ⟨rt, place, rfl⟩ := memoryAccess?_eq_some h
  have access := isAccess_store lookup op (Extended.ne_of_mem_inputs intact (.head _))
  obtain ⟨a, ha, performs⟩ := performs_memoryAccess? access hzero
    (Extended.not_mem_registers intact (.tail _ (.head _))) h resolved
  refine ⟨_, ?_, performs⟩
  change Option.bind _ _ = _
  rw [ha]
  rfl

/-! ### Constants and addresses in a register -/

/-- The address of an offset from a base is their sum, whether or not the offset fits. -/
theorem performs_loadOffset (hzero : s.registers.get .zero = 0#32) {rt base : Reg} (hbase : base ≠ .scratch)
    {n : Int} (h : expansion? .la [.reg rt, .mem n base] = some is)
    (resolved : resolveAll lookup s.pc is = .ok code) :
    Performs (some rt) s code
      (s.result (s.after code) rt (some (s.registers.get base + Word.ofInt n))) := by
  simp only [expansion?] at h
  split at h
  case isTrue hfits =>
    cases h
    refine performs_plain resolved trivial ?_
    rw [Instr.effect?_aluImm, immResult?, signExtend_half hfits]
  case isFalse =>
    cases h
    refine performs_afterConstant hzero resolved trivial ?_
    intro t scratched hvalue
    rw [Instr.effect?_alu, scratched.get hbase, hvalue, aluResult?, BitVec.add_comm (Word.ofInt n)]

theorem carries_li (hzero : s.registers.get .zero = 0#32) (h : expansion? .li operands = some is)
    (resolved : resolveAll lookup s.pc is = .ok code) : Carries lookup s code .li operands := by
  simp only [expansion?] at h
  split at h <;> cases h
  exact ⟨_, rfl, performs_loadConstant hzero resolved⟩

theorem carries_la (hzero : s.registers.get .zero = 0#32)
    (intact : .scratch ∉ Extended.sources .la operands) (h : expansion? .la operands = some is)
    (resolved : resolveAll lookup s.pc is = .ok code) : Carries lookup s code .la operands := by
  have hexpansion := h
  simp only [expansion?] at h
  split at h
  case h_1 rt l =>
    cases h
    obtain ⟨a, ha, performs⟩ := performs_loadAddress resolved
    refine ⟨_, ?_, performs⟩
    change Option.bind _ _ = _
    rw [address?_label ha]
    rfl
  case h_2 rt n =>
    cases h
    exact ⟨_, rfl, performs_loadConstant hzero resolved⟩
  case h_3 rt n base =>
    have hbase : base ≠ .scratch := fun e =>
      Extended.not_mem_registers intact (.head _) (List.mem_singleton.mpr e.symm)
    exact ⟨_, rfl, performs_loadOffset hzero hbase hexpansion resolved⟩
  case h_4 => cases h

/-! ### Operations on one register -/

theorem carries_move (hzero : s.registers.get .zero = 0#32) (h : expansion? .move operands = some is)
    (resolved : resolveAll lookup s.pc is = .ok code) : Carries lookup s code .move operands := by
  simp only [expansion?] at h
  split at h <;> cases h
  refine ⟨_, rfl, performs_plain resolved trivial ?_⟩
  rw [Instr.effect?_alu, aluResult?, hzero, BitVec.zero_add]

theorem carries_not (hzero : s.registers.get .zero = 0#32) (h : expansion? .not operands = some is)
    (resolved : resolveAll lookup s.pc is = .ok code) : Carries lookup s code .not operands := by
  simp only [expansion?] at h
  split at h <;> cases h
  refine ⟨_, rfl, performs_plain resolved trivial ?_⟩
  rw [Instr.effect?_alu, aluResult?, hzero, BitVec.or_zero]

theorem carries_neg (hzero : s.registers.get .zero = 0#32) (h : expansion? .neg operands = some is)
    (resolved : resolveAll lookup s.pc is = .ok code) : Carries lookup s code .neg operands := by
  simp only [expansion?] at h
  split at h <;> cases h
  refine ⟨_, rfl, performs_plain resolved trivial ?_⟩
  rw [Instr.effect?_alu, aluResult?, hzero]
  rfl

/-! ### Divisions into a register -/

theorem carries_mulDiv (hzero : s.registers.get .zero = 0#32) {op : MulDivOp}
    (intact : .scratch ∉ Extended.sources (.mulDiv op) operands)
    (h : expansion? (.mulDiv op) operands = some is) (resolved : resolveAll lookup s.pc is = .ok code) :
    Carries lookup s code (.mulDiv op) operands := by
  cases op with
  | mult | multu => cases h
  | div | divu =>
      simp only [expansion?] at h
      split at h
      · obtain ⟨b, hb, performs⟩ :=
          performs_division? hzero (Extended.ne_of_mem_inputs intact (.head _)) h resolved
        refine ⟨_, ?_, performs⟩
        change Option.bind _ _ = _
        rw [hb]
        rfl
      · cases h

theorem carries_rem (hzero : s.registers.get .zero = 0#32) {signed : Bool}
    (intact : .scratch ∉ Extended.sources (.rem signed) operands)
    (h : expansion? (.rem signed) operands = some is) (resolved : resolveAll lookup s.pc is = .ok code) :
    Carries lookup s code (.rem signed) operands := by
  simp only [expansion?] at h
  split at h
  · obtain ⟨b, hb, performs⟩ :=
      performs_division? hzero (Extended.ne_of_mem_inputs intact (.head _)) h resolved
    refine ⟨_, ?_, performs⟩
    change Option.bind _ _ = _
    rw [hb]
    rfl
  · cases h

/-! ### Branches -/

theorem carries_branch (hzero : s.registers.get .zero = 0#32) {cond : BranchCond}
    (intact : .scratch ∉ Extended.sources (.branch cond) operands)
    (h : expansion? (.branch cond) operands = some is) (resolved : resolveAll lookup s.pc is = .ok code) :
    Carries lookup s code (.branch cond) operands := by
  simp only [expansion?] at h
  split at h <;> cases h
  obtain ⟨a, ha, performs⟩ :=
    performs_branch_afterConstant hzero (Extended.ne_of_mem_inputs intact (.head _)) resolved
  refine ⟨_, ?_, performs⟩
  change Option.bind _ _ = _
  rw [address?_label ha]
  rfl

theorem carries_always (h : expansion? .always operands = some is)
    (resolved : resolveAll lookup s.pc is = .ok code) : Carries lookup s code .always operands := by
  simp only [expansion?] at h
  split at h <;> cases h
  obtain ⟨a, ha, performs⟩ := performs_branch resolved
  have taken : BranchCond.eq.holds (s.registers.get .zero) (s.registers.get .zero) = true :=
    beq_self_eq_true _
  rw [taken] at performs
  refine ⟨_, ?_, performs⟩
  change Option.bind _ _ = _
  rw [address?_label ha]
  rfl

theorem carries_branchZero (hzero : s.registers.get .zero = 0#32) {cond : BranchCond}
    (h : expansion? (.branchZero cond) operands = some is)
    (resolved : resolveAll lookup s.pc is = .ok code) :
    Carries lookup s code (.branchZero cond) operands := by
  simp only [expansion?] at h
  split at h <;> cases h
  obtain ⟨a, ha, performs⟩ := performs_branch resolved
  refine ⟨_, ?_, performs⟩
  change Option.bind _ _ = _
  rw [address?_label ha, hzero]
  rfl

theorem carries_compare (hzero : s.registers.get .zero = 0#32) {c : Comparison} {signed : Bool}
    (intact : .scratch ∉ Extended.sources (.compare c signed) operands)
    (h : expansion? (.compare c signed) operands = some is)
    (resolved : resolveAll lookup s.pc is = .ok code) :
    Carries lookup s code (.compare c signed) operands := by
  simp only [expansion?] at h
  split at h
  · obtain ⟨b, a, hb, ha, performs⟩ :=
      performs_compareAndBranch? hzero (Extended.ne_of_mem_inputs intact (.head _)) h resolved
    refine ⟨_, ?_, performs⟩
    change Option.bind _ _ = _
    rw [address?_label ha, hb]
    rfl
  · cases h

/-- Every expansion performs what the extended instruction says. -/
theorem carries_expansion? (hzero : s.registers.get .zero = 0#32) {mnemonic : Mnemonic}
    (intact : .scratch ∉ Extended.sources mnemonic operands)
    (h : expansion? mnemonic operands = some is) (resolved : resolveAll lookup s.pc is = .ok code) :
    Carries lookup s code mnemonic operands := by
  cases mnemonic with
  | alu => exact carries_alu hzero intact h resolved
  | aluImm => exact carries_aluImm hzero intact h resolved
  | subImm => exact carries_subImm hzero intact h resolved
  | mul => exact carries_mul hzero intact h resolved
  | load => exact carries_load hzero intact h resolved
  | store => exact carries_store hzero intact h resolved
  | li => exact carries_li hzero h resolved
  | la => exact carries_la hzero intact h resolved
  | move => exact carries_move hzero h resolved
  | not => exact carries_not hzero h resolved
  | neg => exact carries_neg hzero h resolved
  | mulDiv => exact carries_mulDiv hzero intact h resolved
  | rem => exact carries_rem hzero intact h resolved
  | branch => exact carries_branch hzero intact h resolved
  | always => exact carries_always h resolved
  | branchZero => exact carries_branchZero hzero h resolved
  | compare => exact carries_compare hzero intact h resolved
  -- the other mnemonics have no expansion
  | _ => cases h

end Families

/-- What is only accepted if expansions are allowed is accepted through one. -/
theorem expansion?_of_lower {name : String} {mnemonic : Mnemonic} {operands : List Operand}
    {is : List SymbolicInstr} (named : Mnemonic.ofName? name.toLower = some mnemonic)
    (accepted : lower name operands true = .ok is)
    (extended : ∀ js, lower name operands false ≠ .ok js) :
    expansion? mnemonic operands = some is := by
  obtain ⟨m, hm, hforms⟩ := mnemonic_of_lower accepted
  obtain rfl := Option.some.inj (named.symm.trans hm)
  rcases hforms with ⟨i, hbasic, rfl⟩ | hexpansion
  · -- a basic form is accepted without expansions too
    refine absurd ?_ (extended [i])
    rw [lower_eq, named]
    simp only [lowerKnown, hbasic]
  · exact hexpansion

/-! ## Execution of expansions -/

namespace Machine

/-- `k` attempts from `m` come to an outcome, apart from the scratch register. A fault is the last of
them, and leaves everything else as it was in `m`. -/
def Follows (m : Machine) (k : Nat) (dest : Option Reg) : Except FaultCause Snapshot → Prop
  | .ok s => ∃ n, attemptMany k m = (.ok (), n) ∧ Snapshot.Matches dest s n.snapshot
  | .error cause => ∃ n, attemptMany k m = (.error (.fault cause), n) ∧
      Snapshot.Scratched m.snapshot n.snapshot

theorem follows_of_performs {m : Machine} {dest : Option Reg} {code : List Instr}
    {outcome : Except FaultCause Snapshot} (hm : Reachable m) (going : m.exitCode = none)
    (placed : m.HasCode m.pc code) (h : Performs dest m.snapshot code outcome) :
    m.Follows code.length dest outcome := by
  cases h with
  | ok split setup range effect hmatches =>
      subst split
      obtain ⟨k, hk, -, hgoing, rfl, hat, hword, -⟩ := attemptMany_of_setup hm going placed setup
      obtain ⟨n, hn, rfl, -⟩ := advance_of_effect?_ok hgoing hat hword range effect
      refine ⟨n, ?_, hmatches⟩
      rw [List.length_append, attemptMany_add _ hk, List.length_singleton, attemptMany, hn]
      rfl
  | error split setup range effect scratched =>
      subst split
      obtain ⟨k, hk, hreachable, hgoing, rfl, hat, hword, -⟩ :=
        attemptMany_of_setup hm going placed setup
      obtain ⟨n, hn, hsnapshot⟩ :=
        advance_of_effect?_error hgoing hat hword range hreachable.idle effect
      refine ⟨n, ?_, hsnapshot ▸ scratched⟩
      rw [List.length_append, attemptMany_add _ hk, List.length_singleton, attemptMany, hn]

/-- **An expansion does what the extended instruction says.** If a mnemonic with operands is accepted
only through an expansion, then the expansion, resolved and placed where the machine stands, has the
outcome of the single instruction on words: the same result, the same memory, the same address to go
on at, and the same fault. Only the scratch register may differ, and not even that if it is the
destination. -/
theorem follows_outcome {m : Machine} (hm : Reachable m) (going : m.exitCode = none) {name : String}
    {mnemonic : Mnemonic} {operands : List Operand} {is : List SymbolicInstr}
    (named : Mnemonic.ofName? name.toLower = some mnemonic)
    (accepted : lower name operands true = .ok is)
    (extended : ∀ js, lower name operands false ≠ .ok js)
    (intact : .scratch ∉ Extended.sources mnemonic operands) {lookup : String → Option Word}
    {code : List Instr} (resolved : resolveAll lookup m.pc is = .ok code)
    (placed : m.HasCode m.pc code) :
    ∃ outcome,
      Extended.outcome? lookup (m.snapshot.after code) m.snapshot mnemonic operands = some outcome ∧
      m.Follows code.length (Extended.destination? mnemonic operands) outcome := by
  have hexpansion := expansion?_of_lower named accepted extended
  have hzero : m.snapshot.registers.get .zero = 0#32 := hm.get_zero
  obtain ⟨outcome, houtcome, performs⟩ := carries_expansion? hzero intact hexpansion resolved
  exact ⟨outcome, houtcome, follows_of_performs hm going placed performs⟩

/-- The expansion of `add $t0, $t1, 100000` as a program. -/
def addConstant : AssembledProgram where
  code := [
    ⟨⟨⟨"a.s", 1, "add $t0, $t1, 100000"⟩, []⟩, 0x00400000, .lui .scratch 1⟩,
    ⟨⟨⟨"a.s", 1, "add $t0, $t1, 100000"⟩, []⟩, 0x00400004, .aluImm .ori .scratch .scratch 0x86A0⟩,
    ⟨⟨⟨"a.s", 1, "add $t0, $t1, 100000"⟩, []⟩, 0x00400008, .alu .add ⟨8⟩ ⟨9⟩ .scratch⟩]
  data := []
  globals := .empty "(global)"
  locals := [.empty "a.s"]
  warnings := []
  layout := {}

/-- The sum overflows, and so does the expansion, with nothing but the scratch register changed. -/
theorem follows_outcome_addConstant :
    let loaded := (Machine.initial {}).load addConstant
    let m := { loaded with registers := loaded.registers.set ⟨9⟩ 0x7FFFFFFF }
    let code := addConstant.code.map fun w => w.instr
    ∃ n, Reachable m ∧ m.HasCode m.pc code ∧
      lower "add" [.reg ⟨8⟩, .reg ⟨9⟩, .imm 100000] true = .ok (code.map .plain) ∧
      attemptMany 3 m = (.error (.fault .overflow), n) ∧
      Snapshot.Scratched m.snapshot n.snapshot := by
  intro loaded m code
  let operands : List Operand := [.reg ⟨8⟩, .reg ⟨9⟩, .imm 100000]
  have hm : Reachable m :=
    .edit (.load addConstant (.initial {})) ⟨rfl, rfl, rfl, rfl, by decide +kernel⟩
  have placed : m.HasCode m.pc code := by
    refine ⟨⟨⟨?_, ?_⟩, _, rfl, ?_⟩, ?_, ⟨⟨?_, ?_⟩, _, rfl, ?_⟩, ?_, ⟨⟨?_, ?_⟩, _, rfl, ?_⟩, ?_,
      trivial⟩ <;> decide +kernel
  have named : Mnemonic.ofName? "add".toLower = some (.alu .add) := by decide +kernel
  have accepted : lower "add" operands true = .ok (code.map .plain) := by decide +kernel
  have rejected : lower "add" operands false = .error (.extendedNotAllowed "add") := by
    decide +kernel
  have extended : ∀ js, lower "add" operands false ≠ .ok js := by
    intro js
    rw [rejected]
    nofun
  have resolved : resolveAll (fun _ => none) m.pc (code.map .plain) = .ok code := rfl
  obtain ⟨outcome, houtcome, follows⟩ :=
    follows_outcome hm rfl named accepted extended (by decide) resolved placed
  have hsum : outcome = m.snapshot.result (m.snapshot.after code) ⟨8⟩
      (aluResult? (m.registers.get ⟨9⟩) (Word.ofInt 100000) .add) := (Option.some.inj houtcome).symm
  have hoverflow : aluResult? (m.registers.get ⟨9⟩) (Word.ofInt 100000) .add = none := by
    decide +kernel
  rw [hsum, hoverflow] at follows
  obtain ⟨n, hn, scratched⟩ := follows
  exact ⟨n, hm, placed, accepted, hn, scratched⟩

end Machine

end MipsLab
