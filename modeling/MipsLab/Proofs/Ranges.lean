import MipsLab.Proofs.ExpansionPieces
import MipsLab.Proofs.MnemonicTables
import MipsLab.Proofs.Storage

set_option autoImplicit false

/-!
# Encoder and decoder agree

Encoding cuts off what does not fit a field, so a word decodes to the instruction it encodes only if
the numbers of that instruction fit (`Instr.InRange`). Two kinds of instructions have this property:
the ones that decoding gives, because a field holds nothing else, and the ones that are assembled,
because lowering refuses other numbers and resolving computes none. So encoder and decoder agree on
all words that stand for an instruction and on all assembled code (`Assembly.encoder_decoder_agree`).
-/

namespace MipsLab

/-! ## Decoded instructions -/

namespace Instr

theorem inRange_of_map {α : Type} {f : α → Instr} (hf : ∀ x, (f x).InRange) {x? : Option α} :
    ∀ i, x?.map f = some i → i.InRange := by
  intro i h
  obtain ⟨x, -, rfl⟩ := Option.map_eq_some_iff.mp h
  exact hf x

theorem inRange_of_orElse {a b : Option Instr} (ha : ∀ i, a = some i → i.InRange)
    (hb : ∀ i, b = some i → i.InRange) : ∀ i, (a <|> b) = some i → i.InRange := by
  intro i h
  cases a with
  | some j => exact ha i h
  | none => exact hb i h

theorem inRange_of_decodeFunction {w : Word} {i : Instr} (h : decodeFunction w = some i) :
    i.InRange := by
  unfold decodeFunction at h
  dsimp only at h
  split at h
  -- the only numbers are the code of a `break` and the amount of a shift, both of them fields
  case h_4 =>
    cases h
    exact (w.extractLsb' 6 20).isLt
  case h_9 =>
    have hshift : (w.extractLsb' 6 5).toNat < 32 := (w.extractLsb' 6 5).isLt
    refine inRange_of_orElse (inRange_of_map fun _ => by exact hshift) ?_ i h
    refine inRange_of_orElse (inRange_of_map fun _ => by trivial) ?_
    exact inRange_of_orElse (inRange_of_map fun _ => by trivial) (inRange_of_map fun _ => by trivial)
  all_goals
    cases h
    trivial

/-- Decoding gives numbers that fit their fields. -/
theorem inRange_of_decode? {w : Word} {i : Instr} (h : decode? w = some i) : i.InRange := by
  unfold decode? at h
  dsimp only at h
  split at h
  case h_1 => exact inRange_of_decodeFunction h
  case h_2 =>
    split at h
    · cases h
      trivial
    · split at h <;> cases h
      trivial
  case h_3 | h_4 =>
    cases h
    exact (w.extractLsb' 0 26).isLt
  case h_10 =>
    split at h <;> cases h
    trivial
  case h_11 =>
    refine inRange_of_orElse (inRange_of_map fun _ => by trivial) ?_ i h
    exact inRange_of_orElse (inRange_of_map fun _ => by trivial) (inRange_of_map fun _ => by trivial)
  all_goals
    cases h
    trivial

end Instr

/-! ## Lowered instructions -/

/-- The numbers that a symbolic instruction holds fit their fields. Numbers that come from labels
are not there yet. -/
def SymbolicInstr.InRange : SymbolicInstr → Prop
  | plain i => i.InRange
  | _ => True

namespace Lowering

theorem withNumber_eq_fits {value : Int} {p : Prop} [Decidable p] {i j : SymbolicInstr}
    (h : withNumber value p i = .fits j) : p ∧ j = i := by
  unfold withNumber at h
  split at h
  case isTrue hp =>
    cases h
    exact ⟨hp, rfl⟩
  case isFalse => cases h

theorem inRange_of_basicForm {m : Mnemonic} {operands : List Operand} {i : SymbolicInstr}
    (h : basicForm m operands = .fits i) : i.InRange := by
  cases m with
  | li | la | move | not | neg | subImm | always | branchZero | compare | rem => cases h
  | shift =>
      simp only [basicForm] at h
      split at h
      · obtain ⟨⟨hlow, hhigh⟩, rfl⟩ := withNumber_eq_fits h
        show Int.toNat _ < 32
        omega
      · cases h
  | aluImm | load | store | lui =>
      simp only [basicForm] at h
      split at h
      · obtain ⟨-, rfl⟩ := withNumber_eq_fits h
        trivial
      · cases h
  | branch | branchSign =>
      simp only [basicForm] at h
      split at h
      · cases h
        trivial
      · obtain ⟨-, rfl⟩ := withNumber_eq_fits h
        trivial
      · cases h
  | jump =>
      simp only [basicForm] at h
      split at h
      · cases h
        trivial
      · split at h <;> cases h
        trivial
      · cases h
  | brk =>
      simp only [basicForm] at h
      split at h
      · cases h
        show 0 < 0x100000
        decide
      · split at h
        case isTrue hcode =>
          cases h
          show Int.toNat _ < 0x100000
          omega
        case isFalse => cases h
      · cases h
  | nop =>
      simp only [basicForm] at h
      split at h <;> cases h
      show 0 < 32
      decide
  | alu | shiftBy | mulDiv | mul | moveFrom | moveTo | jr | jalr | syscall =>
      simp only [basicForm] at h
      split at h <;> cases h
      all_goals trivial

/-! The expansions hold no numbers but those of immediates, which fill their fields. -/

theorem inRange_loadConstant (rt : Reg) (value : Int) : ∀ i ∈ loadConstant rt value, i.InRange := by
  unfold loadConstant
  dsimp only
  split
  · simp [SymbolicInstr.InRange, Instr.InRange]
  · split <;> simp [SymbolicInstr.InRange, Instr.InRange]

theorem inRange_afterConstant {value : Int} {i : SymbolicInstr} (hi : i.InRange) :
    ∀ j ∈ afterConstant value i, j.InRange := by
  exact List.forall_mem_append.mpr ⟨inRange_loadConstant _ _, List.forall_mem_singleton.mpr hi⟩

theorem inRange_sourceOf? {operand : Operand} {setup : List SymbolicInstr} {rt : Reg}
    (h : sourceOf? operand = some (setup, rt)) : ∀ i ∈ setup, i.InRange := by
  cases operand with
  | reg r =>
      cases h
      nofun
  | imm value =>
      cases h
      exact inRange_loadConstant _ _
  | label | mem | str => cases h

theorem inRange_aluConstant (op : AluOp) (rd rs : Reg) (value : Int) :
    ∀ i ∈ aluConstant op rd rs value, i.InRange := by
  have hlong : ∀ i ∈ afterConstant value (.plain (.alu op rd rs .scratch)), i.InRange :=
    inRange_afterConstant trivial
  unfold aluConstant
  split
  · split
    · simp [SymbolicInstr.InRange, Instr.InRange]
    · exact hlong
  · exact hlong

theorem inRange_memoryAccess? {direct : Reg → Reg → Half → SymbolicInstr}
    {labelled : Reg → LabelRef → SymbolicInstr} (hdirect : ∀ rt base n, (direct rt base n).InRange)
    (hlabelled : ∀ rt l, (labelled rt l).InRange) {operands : List Operand} {is : List SymbolicInstr}
    (h : memoryAccess? direct labelled operands = some is) : ∀ i ∈ is, i.InRange := by
  unfold memoryAccess? at h
  split at h
  case h_1 rt l =>
    cases h
    exact List.forall_mem_cons.mpr ⟨trivial, List.forall_mem_singleton.mpr (hlabelled rt l)⟩
  case h_2 =>
    split at h <;> cases h
    · exact List.forall_mem_singleton.mpr (hdirect _ _ _)
    · exact List.forall_mem_cons.mpr ⟨trivial, List.forall_mem_singleton.mpr (hdirect _ _ _)⟩
  case h_3 =>
    cases h
    refine List.forall_mem_cons.mpr ⟨trivial, List.forall_mem_cons.mpr ⟨trivial, ?_⟩⟩
    exact List.forall_mem_singleton.mpr (hdirect _ _ _)
  case h_4 => cases h

theorem inRange_division? {op : MulDivOp} {result : HiLo} {rd rs : Reg} {divisor : Operand}
    {is : List SymbolicInstr} (h : division? op result rd rs divisor = some is) :
    ∀ i ∈ is, i.InRange := by
  obtain ⟨⟨setup, rt⟩, hsource, h⟩ := Option.bind_eq_some_iff.mp h
  cases h
  refine List.forall_mem_append.mpr ⟨inRange_sourceOf? hsource, ?_⟩
  exact List.forall_mem_cons.mpr ⟨trivial, List.forall_mem_singleton.mpr trivial⟩

theorem inRange_compareAndBranch? {c : Comparison} {signed : Bool} {rs : Reg} {other : Operand}
    {l : LabelRef} {is : List SymbolicInstr} (h : compareAndBranch? c signed rs other l = some is) :
    ∀ i ∈ is, i.InRange := by
  obtain ⟨⟨setup, rt⟩, hsource, h⟩ := Option.bind_eq_some_iff.mp h
  cases h
  refine List.forall_mem_append.mpr ⟨inRange_sourceOf? hsource, ?_⟩
  exact List.forall_mem_cons.mpr ⟨trivial, List.forall_mem_singleton.mpr trivial⟩

theorem inRange_expansion? {m : Mnemonic} {operands : List Operand} {is : List SymbolicInstr}
    (h : expansion? m operands = some is) : ∀ i ∈ is, i.InRange := by
  cases m with
  | load | store =>
      simp only [expansion?] at h
      exact inRange_memoryAccess? (fun _ _ _ => by trivial) (fun _ _ => by trivial) h
  | alu | subImm =>
      simp only [expansion?] at h
      split at h <;> cases h
      exact inRange_aluConstant _ _ _ _
  | aluImm | branch | mul =>
      simp only [expansion?] at h
      split at h <;> cases h
      exact inRange_afterConstant trivial
  | li =>
      simp only [expansion?] at h
      split at h <;> cases h
      exact inRange_loadConstant _ _
  | la =>
      simp only [expansion?] at h
      split at h
      · cases h
        simp [loadAddress, SymbolicInstr.InRange]
      · cases h
        exact inRange_loadConstant _ _
      · split at h <;> cases h
        · exact List.forall_mem_singleton.mpr trivial
        · exact inRange_afterConstant trivial
      · cases h
  | move | not | neg | always | branchZero =>
      simp only [expansion?] at h
      split at h <;> cases h
      exact List.forall_mem_singleton.mpr trivial
  | mulDiv op =>
      cases op
      case div | divu =>
        simp only [expansion?] at h
        split at h
        · exact inRange_division? h
        · cases h
      all_goals cases h
  | rem =>
      simp only [expansion?] at h
      split at h
      · exact inRange_division? h
      · cases h
  | compare =>
      simp only [expansion?] at h
      split at h
      · exact inRange_compareAndBranch? h
      · cases h
  | _ => cases h

end Lowering

/-- **Lowering gives numbers that fit their fields.** -/
theorem inRange_of_lower {name : String} {operands : List Operand} {extended : Bool}
    {is : List SymbolicInstr} (h : lower name operands extended = .ok is) : ∀ i ∈ is, i.InRange := by
  obtain ⟨m, -, ⟨i, hbasic, rfl⟩ | hexpansion⟩ := mnemonic_of_lower h
  · exact List.forall_mem_singleton.mpr (Lowering.inRange_of_basicForm hbasic)
  · exact Lowering.inRange_expansion? hexpansion

/-! ## Assembled instructions -/

/-- The address of a label brings no number out of its field. -/
theorem SymbolicInstr.inRange_of_resolve {lookup : String → Option Word} {pc : Word}
    {i : SymbolicInstr} {j : Instr} (hi : i.InRange) (h : i.resolve lookup pc = .ok j) : j.InRange := by
  have hjump : ∀ {link : Bool} {target : Word} {name : String},
      jumpTo pc link target name = .ok j → j.InRange := by
    intro link target name h
    obtain ⟨index, hindex, rfl⟩ := jumpIndex?_of_jumpTo h
    unfold jumpIndex? at hindex
    split at hindex <;> cases hindex
    exact Nat.mod_lt _ (by decide)
  cases i with
  | plain i =>
      cases h
      exact hi
  | aluImm | lui | load | store | branch | branchSign =>
      obtain ⟨_, -, h⟩ := exists_ok_of_bind h
      cases h
      trivial
  | jump link target =>
      cases target with
      | label l =>
          obtain ⟨_, -, h⟩ := exists_ok_of_bind h
          exact hjump h
      | address a => exact hjump h

namespace Placement

theorem instrs_placeBytes (p : Placement) (site : Site) (bytes : List Byte) :
    (p.placeBytes site bytes).instrs = p.instrs := by
  unfold placeBytes
  dsimp only
  split
  · rfl
  · split <;> rfl

/-- Everything that a pass places was lowered from a written instruction. -/
theorem inRange_of_pass {p q : Placement} (h : Pass p q) (hp : ∀ i ∈ p.instrs, i.instr.InRange) :
    ∀ i ∈ q.instrs, i.instr.InRange := by
  induction h with
  | refl => exact hp
  | @tail q r _ hstep ih =>
      intro j hj
      cases hstep with
      | beginUnit | endUnit => exact ih j hj
      | move hmove =>
          cases hmove with
          | quiet hquiet => exact ih j (hquiet.instrs ▸ hj)
          | bytes | labelWord =>
              rw [instrs_placeBytes] at hj
              exact ih j hj
          | instr lowered hi =>
              rcases Array.mem_push.mp hj with hj | rfl
              · exact ih j hj
              · exact inRange_of_lower lowered _ hi

end Placement

/-- The instructions of an assembled program fit their words. -/
theorem Assembly.inRange_of_ok {options : AssemblyOptions} {units : List SourceUnit}
    {p : AssembledProgram} (ok : (assemble options units).1 = .ok p) :
    ∀ c ∈ p.code, c.instr.InRange := by
  obtain ⟨rfl, -⟩ := eq_finish_of_ok ok
  have hplaced : ∀ i ∈ (firstPass options units).instrs, i.instr.InRange :=
    Placement.inRange_of_pass (pass_placeUnits _ units) (by simp [Placement.initial])
  intro c hc
  obtain ⟨i, hi, hresolve⟩ := List.mem_map.mp (Placement.mem_successes.mp (List.mem_mergeSort.mp hc))
  unfold Placement.resolveInstr at hresolve
  split at hresolve
  case h_1 j hj =>
    cases hresolve
    exact SymbolicInstr.inRange_of_resolve (hplaced i (Array.mem_def.mpr hi)) hj
  case h_2 => cases hresolve

/-- **Encoder and decoder agree.** An instruction whose numbers fit their fields is what its word
decodes to. A word decodes only to such an instruction, which also is what its own word decodes to.
And the words of an assembled program decode to the instructions that they were encoded from. -/
theorem Assembly.encoder_decoder_agree :
    (∀ i : Instr, i.InRange → Instr.decode? i.encode = some i) ∧
      (∀ w i, Instr.decode? w = some i → i.InRange ∧ Instr.decode? i.encode = some i) ∧
      ∀ (options : AssemblyOptions) (units : List SourceUnit) (p : AssembledProgram),
        (assemble options units).1 = .ok p →
          ∀ c ∈ p.code, c.word = c.instr.encode ∧ Instr.decode? c.word = some c.instr := by
  refine ⟨fun i => Instr.decode?_encode, ?_, ?_⟩
  · intro w i h
    have range := Instr.inRange_of_decode? h
    exact ⟨range, Instr.decode?_encode range⟩
  · intro options units p ok c hc
    exact ⟨rfl, Instr.decode?_encode (inRange_of_ok ok c hc)⟩

/-- The largest shift amount, the largest code of a `break`, and an assembled jump to itself. -/
theorem Assembly.encoder_decoder_agree_largest :
    let shift : Instr := .shift .sra ⟨8⟩ ⟨9⟩ 31
    let units : List SourceUnit := [.ofText "a.s" "loop: j loop"]
    Instr.decode? shift.encode = some shift ∧
      Instr.decode? 0x03FFFFCD = some (.brk 0xFFFFF) ∧ (Instr.brk 0xFFFFF).InRange ∧
      ∃ p, (assemble {} units).1 = .ok p ∧ ∃ c ∈ p.code, c.word = 0x08100000 ∧
        Instr.decode? c.word = some (.jump false 0x100000) := by
  intro shift units
  obtain ⟨hshift, hbreak, hassembled⟩ := encoder_decoder_agree
  have hran : (assemble {} units).1.toOption.map (fun p => p.code.map (·.instr)) =
      some [.jump false 0x100000] := by decide +kernel
  obtain ⟨p, hp, hcode⟩ := Option.map_eq_some_iff.mp hran
  have ok : (assemble {} units).1 = .ok p := eq_ok_of_toOption hp
  obtain ⟨c, hc, hinstr⟩ := List.mem_map.mp (hcode ▸ List.mem_singleton_self _)
  obtain ⟨hword, hdecode⟩ := hassembled {} units p ok c hc
  have hbrk : Instr.decode? 0x03FFFFCD = some (.brk 0xFFFFF) := by decide
  refine ⟨hshift shift (show 31 < 32 by decide), hbrk, (hbreak _ _ hbrk).1, p, ok, c, hc, ?_, ?_⟩
  · rw [hword, hinstr]
    rfl
  · rw [hdecode, hinstr]

end MipsLab
