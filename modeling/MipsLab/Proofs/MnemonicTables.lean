import Mathlib.Data.List.Basic
import MipsLab.Proofs.Mnemonics

set_option autoImplicit false

/-!
# The tables of mnemonics agree

`lower` asks one table of operations after the other for a name, then matches the names that stand alone
together with their operands, and keeps lists of names for what was not found there. Each of these is
described by mnemonics: a table has the names of its family and no others, a match of names and operands
has the forms of `basicForm` or `expansion?`, and the lists have the names whose forms were left out. So a
name is unknown to all of them or it is that of one mnemonic, whose forms are then all that is ever accepted
(`lower_eq`).
-/

namespace MipsLab

namespace Lowering

/-! ## The tables of operations -/

/-- Each table has the names of its family and no others. -/
theorem tables_name (m : Mnemonic) :
    (aluOp? m.name = match m with
      | .alu op => some op
      | _ => none) ∧
    (immOp? m.name = match m with
      | .aluImm op => some op
      | _ => none) ∧
    (shiftOp? m.name = match m with
      | .shift op => some (op, false)
      | .shiftBy op => some (op, true)
      | _ => none) ∧
    (mulDivOp? m.name = match m with
      | .mulDiv op => some op
      | _ => none) ∧
    (loadOp? m.name = match m with
      | .load op => some op
      | _ => none) ∧
    (storeOp? m.name = match m with
      | .store op => some op
      | _ => none) ∧
    (branchCond? m.name = match m with
      | .branch cond => some cond
      | _ => none) ∧
    (signCond? m.name = match m with
      | .branchSign cond => some cond
      | _ => none) := by
  revert m
  exact Mnemonic.forall_of_all (by decide)

/-! ## Matches of names and operands -/

/-- What is found under a name is the form of its mnemonic, if that is one of those admitted by `p`, and what
is left for other names if not. -/
inductive Finds {α : Type} (p : Mnemonic → Bool) (form : Mnemonic → α) (rest : α) (name : String)
    (found : α) : Prop
  | here (m : Mnemonic) (admitted : p m = true) (hname : m.name = name) (eq : found = form m)
  | elsewhere (ne : ∀ m, p m = true → m.name ≠ name) (eq : found = rest)

namespace Finds

variable {α : Type} {p : Mnemonic → Bool} {form : Mnemonic → α} {rest found : α} {name : String}

/-- It is enough that what is left for other names is also the form of each mnemonic with the name. -/
theorem of_rest (h : ∀ m, p m = true → m.name = name → rest = form m) :
    Finds p form rest name rest := by
  by_cases hm : ∃ m, p m = true ∧ m.name = name
  · obtain ⟨m, admitted, hname⟩ := hm
    exact .here m admitted hname (h m admitted hname)
  · exact .elsewhere (fun m admitted hname => hm ⟨m, admitted, hname⟩) rfl

theorem eq_form {m : Mnemonic} (h : Finds p form rest m.name found) (admitted : p m = true) :
    found = form m := by
  cases h with
  | here n _ hname eq => rw [eq, Mnemonic.eq_of_name hname rfl]
  | elsewhere ne _ => exact absurd rfl (ne m admitted)

theorem eq_rest {m : Mnemonic} (h : Finds p form rest m.name found) (admitted : p m = false) :
    found = rest := by
  cases h with
  | here n hn hname _ =>
      rw [Mnemonic.eq_of_name hname rfl, admitted] at hn
      cases hn
  | elsewhere _ eq => exact eq

theorem eq_rest_of_unknown (h : Finds p form rest name found) (named : Mnemonic.ofName? name = none) :
    found = rest := by
  cases h with
  | here m _ hname => exact absurd hname (Mnemonic.name_ne_of_ofName? named m)
  | elsewhere _ eq => exact eq

end Finds

variable (name : String) (operands : List Operand)

/-- The mnemonics whose basic forms are matched by name and operands together. -/
def matchedByName : Mnemonic → Bool
  | .mul | .moveFrom _ | .moveTo _ | .lui | .jr | .jalr | .jump _ | .syscall | .brk | .nop => true
  | _ => false

/-- Each name is matched with operands that fit and once more with any others, so only an unknown name or an
extended one is left. -/
theorem matchNamed_finds :
    Finds matchedByName (basicForm · operands) .unknown name (matchNamed name operands) := by
  unfold matchNamed
  split
  case h_1 => exact .here .mul rfl rfl rfl
  case h_2 => exact .here (.moveFrom .hi) rfl rfl rfl
  case h_3 => exact .here (.moveFrom .lo) rfl rfl rfl
  case h_4 => exact .here (.moveTo .hi) rfl rfl rfl
  case h_5 => exact .here (.moveTo .lo) rfl rfl rfl
  case h_6 => exact .here .lui rfl rfl rfl
  case h_7 => exact .here .jr rfl rfl rfl
  case h_8 | h_9 => exact .here .jalr rfl rfl rfl
  case h_10 | h_12 => exact .here (.jump false) rfl rfl rfl
  case h_11 | h_13 => exact .here (.jump true) rfl rfl rfl
  case h_14 => exact .here .syscall rfl rfl rfl
  case h_15 | h_16 => exact .here .brk rfl rfl rfl
  case h_17 => exact .here .nop rfl rfl rfl
  case h_18 => exact .here .mul rfl rfl (by simp only [basicForm])
  case h_19 => exact .here (.moveFrom .hi) rfl rfl (by simp only [basicForm])
  case h_20 => exact .here (.moveFrom .lo) rfl rfl (by simp only [basicForm])
  case h_21 => exact .here (.moveTo .hi) rfl rfl (by simp only [basicForm])
  case h_22 => exact .here (.moveTo .lo) rfl rfl (by simp only [basicForm])
  case h_23 => exact .here .lui rfl rfl (by simp only [basicForm])
  case h_24 => exact .here .jr rfl rfl (by simp only [basicForm])
  case h_25 => exact .here .jalr rfl rfl (by simp only [basicForm])
  case h_26 => exact .here (.jump false) rfl rfl (by simp only [basicForm])
  case h_27 => exact .here (.jump true) rfl rfl (by simp only [basicForm])
  case h_28 => exact .here .syscall rfl rfl (by simp only [basicForm])
  case h_29 => exact .here .brk rfl rfl (by simp only [basicForm])
  case h_30 => exact .here .nop rfl rfl (by simp only [basicForm])
  case h_31 =>
    refine .elsewhere (fun m admitted hname => ?_) rfl
    cases m with
    | mul | lui | jr | jalr | syscall | brk | nop => exact absurd hname.symm (by assumption)
    | moveFrom half | moveTo half => cases half <;> exact absurd hname.symm (by assumption)
    | jump link => cases link <;> exact absurd hname.symm (by assumption)
    | _ => cases admitted

/-- The mnemonics whose expansions are branches. -/
def expandsToBranch : Mnemonic → Bool
  | .always | .branchZero _ | .compare _ _ => true
  | _ => false

theorem expandBranch?_finds :
    Finds expandsToBranch (expansion? · operands) none name (expandBranch? name operands) := by
  unfold expandBranch?
  split
  case h_1 => exact .here .always rfl rfl rfl
  case h_2 => exact .here (.branchZero .eq) rfl rfl rfl
  case h_3 => exact .here (.branchZero .ne) rfl rfl rfl
  case h_4 => exact .here (.compare .lt true) rfl rfl rfl
  case h_5 => exact .here (.compare .gt true) rfl rfl rfl
  case h_6 => exact .here (.compare .le true) rfl rfl rfl
  case h_7 => exact .here (.compare .ge true) rfl rfl rfl
  case h_8 => exact .here (.compare .lt false) rfl rfl rfl
  case h_9 => exact .here (.compare .gt false) rfl rfl rfl
  case h_10 => exact .here (.compare .le false) rfl rfl rfl
  case h_11 => exact .here (.compare .ge false) rfl rfl rfl
  case h_12 =>
    refine .of_rest fun m admitted hname => ?_
    subst hname
    cases m with
    | always =>
        simp only [expansion?]
        split
        · simp_all +decide
        · rfl
    | branchZero cond =>
        cases cond
        all_goals
          simp only [expansion?]
          split
          · simp_all +decide
          · rfl
    | compare c signed =>
        cases c <;> cases signed
        all_goals
          simp only [expansion?]
          split
          · simp_all +decide
          · rfl
    | _ => cases admitted

/-- The mnemonics whose expansions are divisions, or that are not expanded but divide or multiply. -/
def expandsToDivision : Mnemonic → Bool
  | .mulDiv _ | .rem _ => true
  | _ => false

theorem expandDivision?_finds :
    Finds expandsToDivision (expansion? · operands) (expandBranch? name operands) name
      (expandDivision? name operands) := by
  unfold expandDivision?
  split
  case h_1 => exact .here (.mulDiv .div) rfl rfl rfl
  case h_2 => exact .here (.mulDiv .divu) rfl rfl rfl
  case h_3 => exact .here (.rem true) rfl rfl rfl
  case h_4 => exact .here (.rem false) rfl rfl rfl
  case h_5 =>
    refine .of_rest fun m admitted hname => ?_
    subst hname
    cases m with
    | mulDiv op =>
        rw [(expandBranch?_finds (Mnemonic.mulDiv op).name operands).eq_rest rfl]
        cases op with
        | mult | multu => rfl
        | div | divu =>
            simp only [expansion?]
            split
            · simp_all +decide
            · rfl
    | rem signed =>
        rw [(expandBranch?_finds (Mnemonic.rem signed).name operands).eq_rest rfl]
        cases signed
        all_goals
          simp only [expansion?]
          split
          · simp_all +decide
          · rfl
    | _ => cases admitted

/-- The mnemonics whose expansions are looked for first, after those of the tables. -/
def expandedByName : Mnemonic → Bool
  | .li | .la | .move | .not | .neg | .subImm _ | .mul => true
  | _ => false

theorem expandNamed?_finds :
    Finds expandedByName (expansion? · operands) (expandDivision? name operands) name
      (expandNamed? name operands) := by
  unfold expandNamed?
  split
  case h_1 => exact .here .li rfl rfl rfl
  case h_2 | h_3 | h_4 => exact .here .la rfl rfl rfl
  case h_5 => exact .here .move rfl rfl rfl
  case h_6 => exact .here .not rfl rfl rfl
  case h_7 => exact .here .neg rfl rfl rfl
  case h_8 => exact .here (.subImm true) rfl rfl rfl
  case h_9 => exact .here (.subImm false) rfl rfl rfl
  case h_10 => exact .here .mul rfl rfl rfl
  case h_11 =>
    refine .of_rest fun m admitted hname => ?_
    have hrest : expandDivision? name operands = none := by
      subst hname
      rw [(expandDivision?_finds m.name operands).eq_rest, (expandBranch?_finds m.name operands).eq_rest]
      all_goals cases m <;> first | rfl | cases admitted
    rw [hrest]
    subst hname
    clear hrest
    cases m with
    | li | la | move | not | neg | mul =>
        simp only [expansion?]
        split
        all_goals first
          | rfl
          | simp_all +decide
    | subImm traps =>
        cases traps
        all_goals
          simp only [expansion?]
          split
          · simp_all +decide
          · rfl
    | _ => cases admitted

/-! ## The names of mnemonics -/

/-- The names that only have expansions are those of the extended mnemonics. -/
theorem pseudoMnemonics_eq : pseudoMnemonics = (Mnemonic.all.filter (·.isExtended)).map (·.name) := by
  decide

theorem mem_pseudoMnemonics {s : String} :
    s ∈ pseudoMnemonics ↔ ∃ m : Mnemonic, m.isExtended = true ∧ m.name = s := by
  rw [pseudoMnemonics_eq]
  simp [Mnemonic.mem_all]

theorem contains_pseudoMnemonics_name (m : Mnemonic) : pseudoMnemonics.contains m.name = m.isExtended := by
  rw [Bool.eq_iff_iff, List.contains_iff_mem, mem_pseudoMnemonics]
  constructor
  · rintro ⟨n, hn, hname⟩
    rwa [Mnemonic.eq_of_name hname rfl] at hn
  · exact fun h => ⟨m, h, rfl⟩

/-- The basic forms of a mnemonic are found by its name. -/
theorem matchBasic_name (m : Mnemonic) : matchBasic m.name operands = basicForm m operands := by
  obtain ⟨halu, himm, hshift, hmulDiv, hload, hstore, hbranch, hsign⟩ := tables_name m
  unfold matchBasic
  rw [halu, himm, hshift, hmulDiv, hload, hstore, hbranch, hsign]
  cases m with
  | alu | aluImm | mulDiv | load | store | branch | branchSign => rfl
  | shift op =>
      simp only [basicForm]
      split
      · rfl
      · contradiction
      · split
        · simp_all
        · rfl
  | shiftBy op =>
      simp only [basicForm]
      split
      · contradiction
      · rfl
      · split
        · simp_all
        · rfl
  | mul | moveFrom | moveTo | lui | jr | jalr | jump | syscall | brk | nop =>
      exact (matchNamed_finds _ operands).eq_form rfl
  | li | la | move | not | neg | subImm | always | branchZero | compare | rem =>
      exact (matchNamed_finds _ operands).eq_rest rfl

theorem expandNamed?_eq_branch {m : Mnemonic} (h : expandedByName m = false)
    (hdivision : expandsToDivision m = false) :
    expandNamed? m.name operands = expandBranch? m.name operands := by
  rw [(expandNamed?_finds m.name operands).eq_rest h, (expandDivision?_finds m.name operands).eq_rest hdivision]

/-- The expansions of a mnemonic are found by its name. -/
theorem expandPseudo?_name (m : Mnemonic) : expandPseudo? m.name operands = expansion? m operands := by
  obtain ⟨halu, himm, -, -, hload, hstore, hbranch, -⟩ := tables_name m
  unfold expandPseudo?
  rw [halu, himm, hload, hstore, hbranch]
  cases m with
  | alu | aluImm | load | store | branch => rfl
  | li | la | move | not | neg | subImm | mul => exact (expandNamed?_finds _ operands).eq_form rfl
  | mulDiv | rem =>
      exact ((expandNamed?_finds _ operands).eq_rest rfl).trans ((expandDivision?_finds _ operands).eq_form rfl)
  | always | branchZero | compare =>
      exact (expandNamed?_eq_branch operands rfl rfl).trans ((expandBranch?_finds _ operands).eq_form rfl)
  | shift | shiftBy | branchSign | moveFrom | moveTo | lui | jr | jalr | jump | syscall | brk | nop =>
      exact (expandNamed?_eq_branch operands rfl rfl).trans ((expandBranch?_finds _ operands).eq_rest rfl)

/-! ## Names that no mnemonic has -/

section NotNamed

variable {name} (named : Mnemonic.ofName? name = none)

include named

/-- A table of operations has no such name, if each operation has the name of a mnemonic. -/
theorem find?_eq_none_of_named {α : Type} {table : List α} {written : α → String}
    (toMnemonic : α → Mnemonic) (h : ∀ op, (toMnemonic op).name = written op) :
    table.find? (written · == name) = none :=
  List.find?_eq_none.mpr fun op _ => by
    simpa [h op] using Mnemonic.name_ne_of_ofName? named (toMnemonic op)

theorem aluOp?_eq_none : aluOp? name = none := find?_eq_none_of_named named .alu fun _ => rfl

theorem immOp?_eq_none : immOp? name = none := find?_eq_none_of_named named .aluImm fun _ => rfl

theorem mulDivOp?_eq_none : mulDivOp? name = none := find?_eq_none_of_named named .mulDiv fun _ => rfl

theorem loadOp?_eq_none : loadOp? name = none := find?_eq_none_of_named named .load fun _ => rfl

theorem storeOp?_eq_none : storeOp? name = none := find?_eq_none_of_named named .store fun _ => rfl

theorem branchCond?_eq_none : branchCond? name = none := by
  unfold branchCond?
  split
  · exact absurd rfl (Mnemonic.name_ne_of_ofName? named (.branch .eq))
  · exact absurd rfl (Mnemonic.name_ne_of_ofName? named (.branch .ne))
  · rfl

theorem signCond?_eq_none : signCond? name = none := by
  unfold signCond?
  split
  · exact absurd rfl (Mnemonic.name_ne_of_ofName? named (.branchSign .lez))
  · exact absurd rfl (Mnemonic.name_ne_of_ofName? named (.branchSign .gtz))
  · exact absurd rfl (Mnemonic.name_ne_of_ofName? named (.branchSign .ltz))
  · exact absurd rfl (Mnemonic.name_ne_of_ofName? named (.branchSign .gez))
  · rfl

/-- A name that continues that of a shift in one of the two ways is that of a mnemonic. -/
theorem shiftOp?_eq_none : shiftOp? name = none := by
  refine List.findSome?_eq_none_iff.mpr fun op _ => ?_
  split
  · rename_i h
    refine absurd ?_ (Mnemonic.name_ne_of_ofName? named (.shift op))
    rw [List.isPrefixOf?_eq_some_iff_append_eq, List.append_nil] at h
    exact String.toList_injective h
  · rename_i h
    refine absurd ?_ (Mnemonic.name_ne_of_ofName? named (.shiftBy op))
    rw [List.isPrefixOf?_eq_some_iff_append_eq] at h
    exact String.toList_injective (by rw [← h, Mnemonic.name, String.toList_append]; rfl)
  · rfl

theorem matchBasic_eq_unknown : matchBasic name operands = .unknown := by
  unfold matchBasic
  rw [aluOp?_eq_none named, immOp?_eq_none named, shiftOp?_eq_none named, mulDivOp?_eq_none named,
    loadOp?_eq_none named, storeOp?_eq_none named, branchCond?_eq_none named, signCond?_eq_none named]
  exact (matchNamed_finds name operands).eq_rest_of_unknown named

theorem expandPseudo?_eq_none : expandPseudo? name operands = none := by
  unfold expandPseudo?
  rw [aluOp?_eq_none named, immOp?_eq_none named, loadOp?_eq_none named, storeOp?_eq_none named,
    branchCond?_eq_none named]
  exact ((expandNamed?_finds name operands).eq_rest_of_unknown named).trans
    (((expandDivision?_finds name operands).eq_rest_of_unknown named).trans
      ((expandBranch?_finds name operands).eq_rest_of_unknown named))

theorem contains_pseudoMnemonics_eq_false : pseudoMnemonics.contains name = false := by
  rw [Bool.eq_false_iff, Ne, List.contains_iff_mem, mem_pseudoMnemonics]
  rintro ⟨m, -, hname⟩
  exact Mnemonic.name_ne_of_ofName? named m hname

end NotNamed

/-! ## What comes of an instruction -/

/-- A mnemonic that is not extended has a basic form, which operands fit or do not fit. -/
theorem isExtended_of_basicForm {m : Mnemonic} (h : basicForm m operands = .unknown) :
    m.isExtended = true := by
  cases m with
  | li | la | move | not | neg | subImm | always | branchZero | compare | rem => rfl
  | _ =>
      simp only [basicForm] at h
      split at h
      all_goals first
        | cases h
        | unfold withNumber at h; split at h <;> cases h
        | split at h <;> cases h

end Lowering

/-- An instruction is refused as unknown if no mnemonic has its name, and what else comes of it is a matter
of the forms of that mnemonic. -/
theorem lower_eq (mnemonic : String) (operands : List Operand) (extended : Bool) :
    lower mnemonic operands extended =
      match Mnemonic.ofName? mnemonic.toLower with
      | none => .error (.unknownInstruction mnemonic.toLower)
      | some m => Lowering.lowerKnown m mnemonic.toLower operands extended := by
  unfold lower
  cases named : Mnemonic.ofName? mnemonic.toLower with
  | none =>
      simp only [Lowering.matchBasic_eq_unknown operands named, Lowering.expandPseudo?_eq_none operands named,
        Lowering.contains_pseudoMnemonics_eq_false named]
      rfl
  | some m =>
      have hname := Mnemonic.name_of_ofName? named
      simp only [← hname, Lowering.matchBasic_name, Lowering.expandPseudo?_name,
        Lowering.contains_pseudoMnemonics_name, Lowering.lowerKnown]
      cases hform : Lowering.basicForm m operands with
      | unknown =>
          rw [Lowering.isExtended_of_basicForm operands hform]
          cases Lowering.expansion? m operands <;> cases extended <;> rfl
      | _ => cases Lowering.expansion? m operands <;> cases extended <;> rfl

/-- What is accepted has a mnemonic, and is a basic form of it or an expansion. -/
theorem mnemonic_of_lower {name : String} {operands : List Operand} {extended : Bool}
    {is : List SymbolicInstr} (h : lower name operands extended = .ok is) :
    ∃ m, Mnemonic.ofName? name.toLower = some m ∧
      ((∃ i, Lowering.basicForm m operands = .fits i ∧ is = [i]) ∨
        Lowering.expansion? m operands = some is) := by
  rw [lower_eq] at h
  split at h
  case h_1 => cases h
  case h_2 m named =>
    refine ⟨m, named, ?_⟩
    unfold Lowering.lowerKnown at h
    split at h
    case h_1 _ i hbasic =>
      cases h
      exact .inl ⟨i, hbasic, rfl⟩
    case h_2 hexpansion | h_4 hexpansion | h_5 hexpansion =>
      split at h <;> cases h
      exact .inr hexpansion
    case h_3 | h_6 | h_7 => cases h

end MipsLab
