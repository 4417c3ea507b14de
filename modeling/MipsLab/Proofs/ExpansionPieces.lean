import MipsLab.Proofs.Except
import MipsLab.Proofs.Scratch

set_option autoImplicit false

/-!
# What expansions are made of

Most expansions put a constant or an address into the scratch register before the instruction that
uses it. Once the labels are resolved, such expansions perform what the extended instruction says:
the ways to load a constant all give the word that the number denotes, and a branch goes to its
label.
-/

namespace MipsLab

open Lowering Machine

/-! ## Resolving -/

/-- The machine instructions that symbolic ones stand for when they are placed from `pc` on. -/
def resolveAll (lookup : String → Option Word) (pc : Word) :
    List SymbolicInstr → Except Cause (List Instr)
  | [] => .ok []
  | i :: is => do return (← i.resolve lookup pc) :: (← resolveAll lookup (pc + 4) is)

section Resolve

variable {lookup : String → Option Word} {pc : Word} {code : List Instr}

theorem resolveAll_cons {i : SymbolicInstr} {is : List SymbolicInstr}
    (h : resolveAll lookup pc (i :: is) = .ok code) :
    ∃ j js, i.resolve lookup pc = .ok j ∧ resolveAll lookup (pc + 4) is = .ok js ∧
      code = j :: js := by
  rw [resolveAll] at h
  obtain ⟨j, hj, h⟩ := exists_ok_of_bind h
  obtain ⟨js, hjs, h⟩ := exists_ok_of_bind h
  exact ⟨j, js, hj, hjs, (Except.ok.inj h).symm⟩

theorem resolveAll_singleton {i : SymbolicInstr} (h : resolveAll lookup pc [i] = .ok code) :
    ∃ j, i.resolve lookup pc = .ok j ∧ code = [j] := by
  obtain ⟨j, js, hj, hjs, rfl⟩ := resolveAll_cons h
  cases hjs
  exact ⟨j, hj, rfl⟩

/-- Plain instructions stand for themselves, and what comes after them is resolved further on. -/
theorem resolveAll_plain_append {is : List Instr} {rest : List SymbolicInstr}
    (h : resolveAll lookup pc (is.map .plain ++ rest) = .ok code) :
    ∃ js, resolveAll lookup (pc + BitVec.ofNat 32 (4 * is.length)) rest = .ok js ∧
      code = is ++ js := by
  -- each plain instruction moves the rest on by four
  induction is generalizing pc code with
  | nil => exact ⟨code, by simpa using h, rfl⟩
  | cons i is ih =>
      obtain ⟨j, js, hj, hjs, rfl⟩ := resolveAll_cons h
      cases hj
      obtain ⟨ks, hks, rfl⟩ := ih hjs
      refine ⟨ks, ?_, rfl⟩
      rw [← hks, List.length_cons, add_four_add]

theorem addressOf_of_resolve_lui {rt : Reg} {l : LabelRef} {part : AddressPart} {j : Instr}
    (h : (SymbolicInstr.lui rt l part).resolve lookup pc = .ok j) :
    ∃ a, SymbolicInstr.addressOf lookup l = .ok a ∧ j = .lui rt (part.of a) := by
  rw [SymbolicInstr.resolve] at h
  obtain ⟨a, ha, h⟩ := exists_ok_of_bind h
  exact ⟨a, ha, (Except.ok.inj h).symm⟩

theorem branchOffset?_of_branchTo {l : LabelRef} {offset : Half}
    (h : SymbolicInstr.branchTo lookup pc l = .ok offset) :
    ∃ a, SymbolicInstr.addressOf lookup l = .ok a ∧
      SymbolicInstr.branchOffset? pc a = some offset := by
  rw [SymbolicInstr.branchTo] at h
  obtain ⟨a, ha, h⟩ := exists_ok_of_bind h
  refine ⟨a, ha, ?_⟩
  split at h
  case h_1 hoffset =>
    cases h
    exact hoffset
  case h_2 => cases h

theorem jumpIndex?_of_jumpTo {link : Bool} {target : Word} {name : String} {j : Instr}
    (h : SymbolicInstr.jumpTo pc link target name = .ok j) :
    ∃ index, SymbolicInstr.jumpIndex? pc target = some index ∧ j = .jump link index := by
  rw [SymbolicInstr.jumpTo] at h
  split at h
  case h_1 index hindex => exact ⟨index, hindex, (Except.ok.inj h).symm⟩
  case h_2 => cases h

/-- A branch to a label goes to the address of the label. -/
theorem effect?_of_resolve_branch {cond : BranchCond} {rs rt : Reg} {l : LabelRef} {j : Instr}
    (h : (SymbolicInstr.branch cond rs rt l).resolve lookup pc = .ok j) :
    ∃ a, SymbolicInstr.addressOf lookup l = .ok a ∧ j.InRange ∧ ∀ s : Snapshot, s.pc = pc →
      j.effect? s = some (s.branched (s.pc + 4)
        (cond.holds (s.registers.get rs) (s.registers.get rt)) a) := by
  rw [SymbolicInstr.resolve] at h
  obtain ⟨offset, hoffset, h⟩ := exists_ok_of_bind h
  cases h
  obtain ⟨a, ha, hcounts⟩ := branchOffset?_of_branchTo hoffset
  refine ⟨a, ha, trivial, ?_⟩
  rintro s rfl
  rw [Instr.effect?, branchTarget_of_branchOffset? hcounts]
  rfl

end Resolve

/-! ## Constants and addresses -/

/-- The instructions that load a constant put it into their register at the end. -/
theorem loadConstant_spec (rt : Reg) (n : Int) :
    ∃ is i, loadConstant rt n = is.map .plain ++ [.plain i] ∧ i.InRange ∧
      ∀ s : Snapshot, s.registers.get .zero = 0#32 → ∃ t, Setup is s t ∧ Snapshot.Scratched s t ∧
        i.effect? t = some (t.result (t.pc + 4) rt (some (Word.ofInt n))) := by
  unfold loadConstant
  dsimp only
  split
  case isTrue hfits =>
    refine ⟨[], _, rfl, trivial, ?_⟩
    intro s hzero
    refine ⟨s, .nil s, .refl s, ?_⟩
    rw [Instr.effect?_aluImm, immResult?, hzero, signExtend_half hfits, Word.ofInt_toInt,
      BitVec.zero_add]
  case isFalse =>
    split
    case isTrue hfits =>
      refine ⟨[], _, rfl, trivial, ?_⟩
      intro s hzero
      refine ⟨s, .nil s, .refl s, ?_⟩
      rw [Instr.effect?_aluImm, immResult?, hzero, setWidth_half hfits, Word.ofInt_toNat,
        BitVec.zero_or]
    -- both halves are needed: the upper one goes through the scratch register
    case isFalse =>
      refine ⟨[.lui .scratch (AddressPart.high.of (Word.ofInt n))], _, rfl, trivial, ?_⟩
      intro s _
      obtain ⟨setup, h⟩ := setup_lui (.nil s) (.refl s) (AddressPart.high.of (Word.ofInt n))
      refine ⟨_, setup, h, ?_⟩
      rw [Instr.effect?_aluImm, immResult?, Snapshot.get_put_scratch, high_or_low]

theorem setup_loadConstant {s : Snapshot} (hzero : s.registers.get .zero = 0#32) (n : Int) :
    ∃ is t, loadConstant .scratch n = is.map .plain ∧ Setup is s t ∧ Snapshot.Scratched s t ∧
      t.registers.get .scratch = Word.ofInt n := by
  obtain ⟨is, i, hload, range, hspec⟩ := loadConstant_spec .scratch n
  obtain ⟨t, setup, h, effect⟩ := hspec s hzero
  obtain ⟨setup', h'⟩ := setup_scratch setup h range effect
  refine ⟨is ++ [i], _, ?_, setup', h', Snapshot.get_put_scratch _ _⟩
  rw [hload, List.map_append, List.map_singleton]

/-- The instructions that make a source ready leave its value in the register that holds it. -/
theorem setup_sourceOf? {s : Snapshot} (hzero : s.registers.get .zero = 0#32) {operand : Operand}
    {setup : List SymbolicInstr} {rt : Reg} (h : sourceOf? operand = some (setup, rt)) :
    ∃ is t, setup = is.map .plain ∧ Setup is s t ∧ Snapshot.Scratched s t ∧
      operand.value? s = some (t.registers.get rt) := by
  cases operand with
  | reg r =>
      cases h
      exact ⟨[], s, rfl, .nil s, .refl s, rfl⟩
  | imm n =>
      cases h
      obtain ⟨is, t, hload, hsetup, hscratched, hvalue⟩ := setup_loadConstant hzero n
      exact ⟨is, t, hload, hsetup, hscratched, by rw [hvalue]; rfl⟩
  | label | mem | str => cases h

/-! ## Single instructions, alone and after a constant -/

section Forms

variable {lookup : String → Option Word} {s : Snapshot} {code : List Instr}

/-- Resolving an instruction after a constant leaves the value of the constant in the scratch
register when the instruction is reached. -/
theorem afterConstant_spec (hzero : s.registers.get .zero = 0#32) {n : Int} {x : SymbolicInstr}
    (h : resolveAll lookup s.pc (afterConstant n x) = .ok code) :
    ∃ is i t, code = is ++ [i] ∧ Setup is s t ∧ Snapshot.Scratched s t ∧
      t.registers.get .scratch = Word.ofInt n ∧ x.resolve lookup t.pc = .ok i := by
  obtain ⟨is, t, hload, setup, scratched, hvalue⟩ := setup_loadConstant hzero n
  rw [afterConstant, hload] at h
  obtain ⟨js, hjs, rfl⟩ := resolveAll_plain_append h
  obtain ⟨i, hi, rfl⟩ := resolveAll_singleton hjs
  refine ⟨is, i, t, rfl, setup, scratched, hvalue, ?_⟩
  rwa [setup.pc_eq]

theorem performs_loadConstant (hzero : s.registers.get .zero = 0#32) {rt : Reg} {n : Int}
    (h : resolveAll lookup s.pc (loadConstant rt n) = .ok code) :
    Performs (some rt) s code (s.result (s.after code) rt (some (Word.ofInt n))) := by
  obtain ⟨is, i, hload, range, hspec⟩ := loadConstant_spec rt n
  obtain ⟨t, setup, scratched, effect⟩ := hspec s hzero
  rw [hload] at h
  obtain ⟨js, hjs, rfl⟩ := resolveAll_plain_append h
  obtain ⟨j, hj, rfl⟩ := resolveAll_singleton hjs
  cases hj
  exact performs_result setup scratched range effect

theorem performs_loadAddress {rt : Reg} {l : LabelRef}
    (h : resolveAll lookup s.pc (loadAddress rt l) = .ok code) :
    ∃ a, SymbolicInstr.addressOf lookup l = .ok a ∧
      Performs (some rt) s code (s.result (s.after code) rt (some a)) := by
  obtain ⟨j, js, hj, hjs, rfl⟩ := resolveAll_cons h
  obtain ⟨a, ha, rfl⟩ := addressOf_of_resolve_lui hj
  obtain ⟨k, hk, rfl⟩ := resolveAll_singleton hjs
  rw [SymbolicInstr.resolve, ha] at hk
  cases hk
  obtain ⟨setup, scratched⟩ := setup_lui (.nil s) (.refl s) (AddressPart.high.of a)
  refine ⟨a, ha, performs_result setup scratched ?_ ?_⟩
  · trivial
  · rw [Instr.effect?_aluImm, immResult?, Snapshot.get_put_scratch, high_or_low]

/-- A single instruction that is its own expansion. -/
theorem performs_plain {rd : Reg} {i : Instr} {value? : Option Word}
    (h : resolveAll lookup s.pc [.plain i] = .ok code) (range : i.InRange)
    (effect : i.effect? s = some (s.result (s.pc + 4) rd value?)) :
    Performs (some rd) s code (s.result (s.after code) rd value?) := by
  obtain ⟨j, hj, rfl⟩ := resolveAll_singleton h
  cases hj
  exact performs_result (.nil s) (.refl s) range effect

/-- An instruction after a constant performs what it does with the constant in the scratch
register. -/
theorem performs_afterConstant (hzero : s.registers.get .zero = 0#32) {rd : Reg} {n : Int}
    {i : Instr} {value? : Option Word} (h : resolveAll lookup s.pc (afterConstant n (.plain i)) = .ok code)
    (range : i.InRange)
    (effect : ∀ t : Snapshot, Snapshot.Scratched s t → t.registers.get .scratch = Word.ofInt n →
      i.effect? t = some (t.result (t.pc + 4) rd value?)) :
    Performs (some rd) s code (s.result (s.after code) rd value?) := by
  obtain ⟨is, j, t, rfl, setup, scratched, hvalue, hj⟩ := afterConstant_spec hzero h
  cases hj
  exact performs_result setup scratched range (effect t scratched hvalue)

theorem performs_alu_afterConstant (hzero : s.registers.get .zero = 0#32) {op : AluOp} {rd rs : Reg}
    {n : Int} (hrs : rs ≠ .scratch)
    (h : resolveAll lookup s.pc (afterConstant n (.plain (.alu op rd rs .scratch))) = .ok code) :
    Performs (some rd) s code (s.result (s.after code) rd
      (aluResult? (s.registers.get rs) (Word.ofInt n) op)) := by
  refine performs_afterConstant hzero h trivial ?_
  intro t scratched hvalue
  rw [Instr.effect?_alu, scratched.get hrs, hvalue]

/-- An operation with a constant performs it on the word that the constant denotes, whether an
immediate can hold it or not. -/
theorem performs_aluConstant (hzero : s.registers.get .zero = 0#32) {op : AluOp} {rd rs : Reg}
    {n : Int} (hrs : rs ≠ .scratch)
    (h : resolveAll lookup s.pc (aluConstant op rd rs n) = .ok code) :
    Performs (some rd) s code (s.result (s.after code) rd
      (aluResult? (s.registers.get rs) (Word.ofInt n) op)) := by
  unfold aluConstant at h
  split at h
  case h_1 immOp k himm =>
    split at h
    case isTrue hfits =>
      refine performs_plain h trivial ?_
      rw [Instr.effect?_aluImm, immResult?_half _ hfits, wordResult?_immediateForm _ himm hfits]
    case isFalse => exact performs_alu_afterConstant hzero hrs h
  case h_2 => exact performs_alu_afterConstant hzero hrs h

theorem performs_branch {cond : BranchCond} {rs rt : Reg} {l : LabelRef}
    (h : resolveAll lookup s.pc [.branch cond rs rt l] = .ok code) :
    ∃ a, SymbolicInstr.addressOf lookup l = .ok a ∧ Performs none s code
      (s.branched (s.after code) (cond.holds (s.registers.get rs) (s.registers.get rt)) a) := by
  obtain ⟨j, hj, rfl⟩ := resolveAll_singleton h
  obtain ⟨a, ha, range, effect⟩ := effect?_of_resolve_branch hj
  exact ⟨a, ha, performs_branched (.nil s) (.refl s) range (effect s rfl)⟩

theorem performs_branch_afterConstant (hzero : s.registers.get .zero = 0#32) {cond : BranchCond}
    {rs : Reg} {n : Int} {l : LabelRef} (hrs : rs ≠ .scratch)
    (h : resolveAll lookup s.pc (afterConstant n (.branch cond rs .scratch l)) = .ok code) :
    ∃ a, SymbolicInstr.addressOf lookup l = .ok a ∧ Performs none s code
      (s.branched (s.after code) (cond.holds (s.registers.get rs) (Word.ofInt n)) a) := by
  obtain ⟨is, j, t, rfl, setup, scratched, hvalue, hj⟩ := afterConstant_spec hzero h
  obtain ⟨a, ha, range, effect⟩ := effect?_of_resolve_branch hj
  have effect := effect t rfl
  rw [scratched.get hrs, hvalue] at effect
  exact ⟨a, ha, performs_branched setup scratched range effect⟩

end Forms

end MipsLab
