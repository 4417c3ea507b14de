import MipsLab.Proofs.ExpansionPieces

set_option autoImplicit false

/-!
# Resolving labels

What keeps an instruction from being resolved (`SymbolicInstr.resolve_eq_error_iff`), and where
branches and jumps go that were resolved. A branch counts the exact distance from the instruction
after it, and a jump stays in the region of that instruction; both then go to the address that they
were resolved with.
-/

namespace MipsLab

/-! ## Reach -/

/-- A branch at `pc` can go to `target`: the exact distance from the next instruction is a multiple
of four that its field can count. -/
def BranchReaches (pc target : Word) : Prop :=
  let distance : Int := (target.toNat : Int) - ((pc + 4).toNat : Int)
  4 ∣ distance ∧ -131072 ≤ distance ∧ distance ≤ 131068

/-- A jump at `pc` can go to `target`: it is the address of a word in the 256 MiB region of the next
instruction. -/
def JumpReaches (pc target : Word) : Prop :=
  4 ∣ target.toNat ∧ target.toNat / 0x10000000 = (pc + 4).toNat / 0x10000000

theorem toNat_and_region (a : Word) :
    (a &&& 0xF0000000#32).toNat = a.toNat / 0x10000000 * 0x10000000 :=
  Word.toNat_and_of_getLsbD (n := 28) (by decide) a

theorem and_region_eq_iff (a b : Word) :
    a &&& 0xF0000000#32 = b &&& 0xF0000000#32 ↔ a.toNat / 0x10000000 = b.toNat / 0x10000000 := by
  rw [← BitVec.toNat_inj, toNat_and_region, toNat_and_region]
  omega

namespace SymbolicInstr

theorem branchOffset?_eq_none_iff {pc target : Word} :
    branchOffset? pc target = none ↔ ¬ BranchReaches pc target := by
  have hfits : BranchReaches pc target ↔
      ((target.toNat : Int) - ((pc + 4).toNat : Int)) % 4 = 0 ∧
        FitsSigned16 (((target.toNat : Int) - ((pc + 4).toNat : Int)) / 4) := by
    unfold BranchReaches FitsSigned16
    omega
  rw [hfits, branchOffset?]
  split
  case isTrue h => exact ⟨nofun, fun hnot => absurd h hnot⟩
  case isFalse h => exact ⟨fun _ => h, fun _ => rfl⟩

theorem jumpIndex?_eq_none_iff {pc target : Word} :
    jumpIndex? pc target = none ↔ ¬ JumpReaches pc target := by
  have hreaches : JumpReaches pc target ↔
      target &&& 0xF0000000#32 = (pc + 4) &&& 0xF0000000#32 ∧ target.toNat % 4 = 0 := by
    rw [and_region_eq_iff, JumpReaches]
    omega
  rw [hreaches, jumpIndex?]
  split
  case isTrue h => exact ⟨nofun, fun hnot => absurd h hnot⟩
  case isFalse h => exact ⟨fun _ => h, fun _ => rfl⟩

/-! ## What keeps an instruction from being resolved -/

/-- The label that an instruction refers to. -/
def label? : SymbolicInstr → Option LabelRef
  | plain _ | jump _ (.address _) => none
  | aluImm _ _ _ l _ | lui _ l _ | load _ _ _ l | store _ _ _ l | branch _ _ _ l
  | branchSign _ _ l | jump _ (.label l) => some l

/-- The label that a branch goes to. -/
def branchLabel? : SymbolicInstr → Option LabelRef
  | branch _ _ _ l | branchSign _ _ l => some l
  | _ => none

end SymbolicInstr

/-- The address that a jump goes to. -/
def JumpTarget.addressOf (lookup : String → Option Word) : JumpTarget → Except Cause Word
  | label l => SymbolicInstr.addressOf lookup l
  | address a => .ok a

/-- How messages call the place that a jump goes to. -/
def JumpTarget.name : JumpTarget → String
  | label l => l.name
  | address a => Numeral.hex8 a.toNat

namespace SymbolicInstr

/-- What keeps an instruction at `pc` from being resolved, and the message about it. -/
inductive Unresolvable (lookup : String → Option Word) (pc : Word) : SymbolicInstr → Cause → Prop
  /-- Nobody has defined the label. -/
  | undefined {i : SymbolicInstr} {l : LabelRef} (refers : i.label? = some l)
      (absent : lookup l.name = none) : Unresolvable lookup pc i (.symbol (.undefined l.name))
  | branch {i : SymbolicInstr} {l : LabelRef} {a : Word} (goes : i.branchLabel? = some l)
      (target : addressOf lookup l = .ok a) (far : ¬ BranchReaches pc a) :
      Unresolvable lookup pc i (.encoding (.branchOutOfRange l.name))
  | jump {link : Bool} {t : JumpTarget} {a : Word} (target : t.addressOf lookup = .ok a)
      (far : ¬ JumpReaches pc a) :
      Unresolvable lookup pc (.jump link t) (.encoding (.jumpOutOfRange t.name))

/-- An instruction that cannot be resolved is an error. -/
theorem Unresolvable.isWarning {lookup : String → Option Word} {pc : Word} {i : SymbolicInstr}
    {c : Cause} (h : Unresolvable lookup pc i c) : c.isWarning = false := by
  cases h <;> rfl

theorem addressOf_eq_ok {lookup : String → Option Word} {l : LabelRef} {a : Word}
    (h : addressOf lookup l = .ok a) :
    ∃ b, lookup l.name = some b ∧ b + Word.ofInt l.offset = a := by
  unfold addressOf at h
  split at h
  case h_1 b hb => exact ⟨b, hb, Except.ok.inj h⟩
  case h_2 => cases h

theorem addressOf_eq_error_iff {lookup : String → Option Word} {l : LabelRef} {c : Cause} :
    addressOf lookup l = .error c ↔ lookup l.name = none ∧ c = .symbol (.undefined l.name) := by
  unfold addressOf
  cases lookup l.name with
  | none => simp [eq_comm]
  | some a => simp

theorem branchTo_eq_error_iff {lookup : String → Option Word} {pc : Word} {l : LabelRef} {c : Cause} :
    branchTo lookup pc l = .error c ↔
      addressOf lookup l = .error c ∨ ∃ a, addressOf lookup l = .ok a ∧ ¬ BranchReaches pc a ∧
        c = .encoding (.branchOutOfRange l.name) := by
  rw [branchTo, bind_eq_error_iff]
  refine or_congr_right (exists_congr fun a => and_congr_right fun _ => ?_)
  rw [← branchOffset?_eq_none_iff]
  split
  case h_1 hoffset => simp [hoffset]
  case h_2 hoffset => simp [hoffset, eq_comm]

theorem jumpTo_eq_error_iff {pc target : Word} {link : Bool} {name : String} {c : Cause} :
    jumpTo pc link target name = .error c ↔
      ¬ JumpReaches pc target ∧ c = .encoding (.jumpOutOfRange name) := by
  rw [jumpTo, ← jumpIndex?_eq_none_iff]
  split
  case h_1 hindex => simp [hindex]
  case h_2 hindex => simp [hindex, eq_comm]

theorem unresolvable_of_resolve {lookup : String → Option Word} {pc : Word} {i : SymbolicInstr}
    {c : Cause} (h : i.resolve lookup pc = .error c) : Unresolvable lookup pc i c := by
  have hundefined : ∀ {l}, i.label? = some l → addressOf lookup l = .error c →
      Unresolvable lookup pc i c := by
    intro l hl haddress
    obtain ⟨absent, rfl⟩ := addressOf_eq_error_iff.mp haddress
    exact .undefined hl absent
  -- the label is looked up first; a branch or a jump may still be too far from what was found
  cases i with
  | plain => cases h
  | aluImm | lui | load | store =>
      rcases bind_eq_error_iff.mp h with h | ⟨a, -, h⟩
      · exact hundefined rfl h
      · cases h
  | branch | branchSign =>
      rcases bind_eq_error_iff.mp h with h | ⟨a, -, h⟩
      · rcases branchTo_eq_error_iff.mp h with h | ⟨a, target, far, rfl⟩
        · exact hundefined rfl h
        · exact .branch rfl target far
      · cases h
  | jump link t =>
      cases t with
      | label l =>
          rcases bind_eq_error_iff.mp h with h | ⟨a, target, h⟩
          · exact hundefined rfl h
          · obtain ⟨far, rfl⟩ := jumpTo_eq_error_iff.mp h
            exact .jump (t := .label l) target far
      | address a =>
          obtain ⟨far, rfl⟩ := jumpTo_eq_error_iff.mp h
          exact .jump (t := .address a) rfl far

theorem resolve_of_unresolvable {lookup : String → Option Word} {pc : Word} {i : SymbolicInstr}
    {c : Cause} (h : Unresolvable lookup pc i c) : i.resolve lookup pc = .error c := by
  cases h with
  | @undefined _ l refers absent =>
      have h := addressOf_eq_error_iff.mpr ⟨absent, rfl⟩
      cases i with
      | plain => cases refers
      | aluImm | lui | load | store =>
          cases refers
          exact bind_eq_error_iff.mpr (.inl h)
      | branch | branchSign =>
          cases refers
          exact bind_eq_error_iff.mpr (.inl (branchTo_eq_error_iff.mpr (.inl h)))
      | jump link t =>
          cases t <;> cases refers
          exact bind_eq_error_iff.mpr (.inl h)
  | branch goes target far =>
      have h := branchTo_eq_error_iff.mpr (.inr ⟨_, target, far, rfl⟩)
      cases i <;> cases goes <;> exact bind_eq_error_iff.mpr (.inl h)
  | @jump link t a target far =>
      have h : jumpTo pc link a t.name = .error (.encoding (.jumpOutOfRange t.name)) :=
        jumpTo_eq_error_iff.mpr ⟨far, rfl⟩
      cases t with
      | label l => exact bind_eq_error_iff.mpr (.inr ⟨a, target, h⟩)
      | address b =>
          cases target
          exact h

/-- **An instruction cannot be resolved exactly if its label is not defined, or if it is a branch or
a jump that does not reach its target.** -/
theorem resolve_eq_error_iff {lookup : String → Option Word} {pc : Word} {i : SymbolicInstr}
    {c : Cause} : i.resolve lookup pc = .error c ↔ Unresolvable lookup pc i c :=
  ⟨unresolvable_of_resolve, resolve_of_unresolvable⟩

end SymbolicInstr

/-! ## Where branches and jumps go -/

/-- Whether a branch or jump is taken with the given registers. -/
def Instr.taken? (s : Registers) : Instr → Option Bool
  | branch cond rs rt _ => some (cond.holds (s.get rs) (s.get rt))
  | branchSign cond rs _ => some (cond.holds (s.get rs))
  | jump _ _ => some true
  | _ => none

/-- A jump goes to the address that its index was computed from. -/
theorem jumpTarget_of_jumpIndex? {pc target : Word} {index : Nat}
    (h : SymbolicInstr.jumpIndex? pc target = some index) :
    ((pc + 4) &&& 0xF0000000#32) ||| BitVec.ofNat 32 (index * 4) = target := by
  unfold SymbolicInstr.jumpIndex? at h
  split at h
  case isFalse => cases h
  case isTrue hreaches =>
    obtain ⟨hregion, haligned⟩ := hreaches
    cases h
    have hmask : ∀ i : Fin 32, (0xF0000000#32).getLsbD i.val = decide (28 ≤ i.val) := by decide
    have hlow : target.toNat / 4 % 0x4000000 * 4 = target.toNat % 2 ^ 28 := by omega
    rw [← hregion, hlow]
    -- the region gives the four high bits, and the index the others
    apply BitVec.eq_of_getLsbD_eq
    intro i hi
    have hbit := hmask ⟨i, hi⟩
    rw [BitVec.getLsbD_or, BitVec.getLsbD_and, hbit, BitVec.getLsbD_ofNat, Nat.testBit_mod_two_pow,
      BitVec.testBit_toNat]
    grind

/-- The label that a branch or jump goes to. -/
def SymbolicInstr.target? : SymbolicInstr → Option LabelRef
  | branch _ _ _ l | branchSign _ _ l | jump _ (.label l) => some l
  | _ => none

/-- **A branch or jump to a label goes to the address of the label, if it is taken.** -/
theorem goes_of_resolve {lookup : String → Option Word} {pc : Word} {i : SymbolicInstr} {l : LabelRef}
    {j : Instr} (hl : i.target? = some l) (h : i.resolve lookup pc = .ok j) :
    ∃ a, SymbolicInstr.addressOf lookup l = .ok a ∧ ∀ s : Snapshot, s.pc = pc → ∃ taken t,
      j.taken? s.registers = some taken ∧ j.effect? s = some (.ok t) ∧
        t.pc = if taken then a else s.pc + 4 := by
  cases i with
  | plain | aluImm | lui | load | store => cases hl
  | branch | branchSign =>
      cases hl
      obtain ⟨offset, hoffset, h⟩ := exists_ok_of_bind h
      cases h
      obtain ⟨a, ha, hcounts⟩ := branchOffset?_of_branchTo hoffset
      refine ⟨a, ha, ?_⟩
      rintro s rfl
      refine ⟨_, _, rfl, rfl, ?_⟩
      rw [branchTarget_of_branchOffset? hcounts]
  | jump link target =>
      cases target with
      | address => cases hl
      | label =>
          cases hl
          obtain ⟨a, ha, h⟩ := exists_ok_of_bind h
          obtain ⟨index, hindex, rfl⟩ := jumpIndex?_of_jumpTo h
          refine ⟨a, ha, ?_⟩
          rintro s rfl
          exact ⟨true, _, rfl, rfl, jumpTarget_of_jumpIndex? hindex⟩

end MipsLab
