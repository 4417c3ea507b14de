import MipsLab.Proofs.Disassembly

set_option autoImplicit false

/-!
# Known and unknown mnemonics

A written instruction is refused either because of its mnemonic or because of its operands, and never the
one in place of the other (`known_or_unknown`). A mnemonic that is known has operands it accepts, and what
else is written after it is invalid or out of range. A mnemonic that is unknown is so whatever follows it.
-/

namespace MipsLab

namespace Lowering

/-! ## What is accepted -/

/-- Operands that a mnemonic accepts. -/
def usage : Mnemonic → List Operand
  | .syscall | .brk | .nop => []
  | .moveFrom _ | .moveTo _ | .jr | .jalr => [.reg .v0]
  | .jump _ | .always => [.label ⟨"main", 0⟩]
  | .mulDiv _ | .move | .not | .neg => [.reg .v0, .reg .a0]
  | .lui | .li => [.reg .v0, .imm 1]
  | .la | .branchSign _ | .branchZero _ => [.reg .v0, .label ⟨"main", 0⟩]
  | .load _ | .store _ => [.reg .v0, .mem 4 .sp]
  | .alu _ | .shiftBy _ | .mul | .rem _ => [.reg .v0, .reg .a0, .reg .a1]
  | .aluImm _ | .shift _ | .subImm _ => [.reg .v0, .reg .a0, .imm 1]
  | .branch _ | .compare _ _ => [.reg .v0, .reg .a0, .label ⟨"main", 0⟩]

/-- Each mnemonic has a basic form or an expansion. -/
theorem accepts_usage (m : Mnemonic) :
    (∃ i, basicForm m (usage m) = .fits i) ∨ ∃ is, expansion? m (usage m) = some is := by
  cases m with
  | aluImm op => cases op <;> exact .inl ⟨_, rfl⟩
  | li | la | move | not | neg | subImm | always | branchZero | compare => exact .inr ⟨_, rfl⟩
  | rem signed => cases signed <;> exact .inr ⟨_, rfl⟩
  | _ => exact .inl ⟨_, rfl⟩

/-! ## What is refused -/

/-- A number is written among operands: as an immediate, or as the offset of an address. -/
def Given (value : Int) (operands : List Operand) : Prop :=
  .imm value ∈ operands ∨ ∃ base, .mem value base ∈ operands

theorem Given.of_imm {value : Int} {operands : List Operand} (h : operands.getLast? = some (.imm value)) :
    Given value operands :=
  .inl (List.mem_of_getLast? h)

theorem Given.of_mem {value : Int} {base : Reg} {operands : List Operand}
    (h : operands.getLast? = some (.mem value base)) : Given value operands :=
  .inr ⟨base, List.mem_of_getLast? h⟩

theorem eq_of_withNumber {value other : Int} {p : Prop} [Decidable p] {i : SymbolicInstr}
    (h : withNumber value p i = .outOfRange other) : other = value := by
  unfold withNumber at h
  split at h
  · cases h
  · exact (BasicForm.outOfRange.inj h).symm

/-- A number that is out of range was written. It is that of the last operand. -/
theorem given_of_outOfRange {m : Mnemonic} {operands : List Operand} {value : Int}
    (h : basicForm m operands = .outOfRange value) : Given value operands := by
  cases m with
  | li | la | move | not | neg | subImm | always | branchZero | compare | rem => cases h
  | _ =>
      simp only [basicForm] at h
      split at h
      all_goals first
        | exact Given.of_imm (by rw [eq_of_withNumber h]; rfl)
        | exact Given.of_mem (by rw [eq_of_withNumber h]; rfl)
        | cases h
        | split at h <;> cases h

/-- The ways in which an instruction with a mnemonic that exists is refused. Only a form that is not basic
is refused for want of expansions. -/
theorem error_of_named {name : String} {m : Mnemonic} {operands : List Operand} {extended : Bool}
    {e : EncodeError} (named : Mnemonic.ofName? name.toLower = some m)
    (h : lower name operands extended = .error e) :
    e = .invalidOperands name.toLower ∨
      (∃ value, Given value operands ∧ e = .immediateOutOfRange name.toLower value) ∨
        extended = false ∧ e = .extendedNotAllowed name.toLower := by
  simp only [lower_eq, named, lowerKnown] at h
  split at h
  case h_1 => cases h
  case h_2 value _ hform _ =>
    cases extended with
    | true => cases h
    | false => exact .inr (.inl ⟨value, given_of_outOfRange hform, (Except.error.inj h).symm⟩)
  case h_3 value hform _ =>
    exact .inr (.inl ⟨value, given_of_outOfRange hform, (Except.error.inj h).symm⟩)
  case h_4 | h_5 =>
    cases extended with
    | true => cases h
    | false => exact .inr (.inr ⟨rfl, (Except.error.inj h).symm⟩)
  case h_6 | h_7 => exact .inl (Except.error.inj h).symm

/-! ## Known and unknown names -/

/-- A name is that of instructions: some operands are accepted, and whatever else is written after it is at
fault, not the name. -/
structure Known (name : String) : Prop where
  accepted : ∃ operands is, lower name operands true = .ok is
  misused : ∀ operands e, lower name operands true = .error e →
    e = .invalidOperands name.toLower ∨
      ∃ value, Given value operands ∧ e = .immediateOutOfRange name.toLower value
  found : ∀ operands extended other,
    lower name operands extended ≠ .error (.unknownInstruction other)

/-- A name is not that of instructions, and is reported whatever is written after it. -/
def Unknown (name : String) : Prop :=
  ∀ operands extended, lower name operands extended = .error (.unknownInstruction name.toLower)

theorem known_of_named {name : String} {m : Mnemonic}
    (named : Mnemonic.ofName? name.toLower = some m) : Known name where
  accepted := by
    obtain ⟨i, hform⟩ | ⟨is, hexpansion⟩ := accepts_usage m
    · exact ⟨usage m, [i], by simp only [lower_eq, named, lowerKnown, hform]⟩
    · simp only [lower_eq, named, lowerKnown]
      cases hform : basicForm m (usage m) with
      | fits i => exact ⟨usage m, [i], by rw [hform]⟩
      | outOfRange value | mismatch | unknown => exact ⟨usage m, is, by rw [hform, hexpansion]; rfl⟩
  misused operands e h := by
    obtain hinvalid | hrange | ⟨hoff, -⟩ := error_of_named named h
    · exact .inl hinvalid
    · exact .inr hrange
    · cases hoff
  found operands extended other h := by
    obtain hinvalid | ⟨value, -, hrange⟩ | ⟨-, hneeded⟩ := error_of_named named h
    · cases hinvalid
    · cases hrange
    · cases hneeded

theorem unknown_of_not_named {name : String} (named : Mnemonic.ofName? name.toLower = none) :
    Unknown name := fun _ _ => by
  simp only [lower_eq, named]

/-- The case of letters does not matter. -/
theorem lower_congr {name other : String} (h : other.toLower = name.toLower) : lower other = lower name := by
  funext operands extended
  simp only [lower, h]

/-- **A misused instruction is never reported as nonexistent, and a nonexistent one never as misused.** Every
name is known or unknown, it is known exactly if it is written like one of the mnemonics, and the case of its
letters does not matter. -/
theorem known_or_unknown (name : String) :
    ((∃ m : Mnemonic, m.name = name.toLower) ∧ Known name ∨
        (∀ m : Mnemonic, m.name ≠ name.toLower) ∧ Unknown name) ∧
      ∀ other : String, other.toLower = name.toLower → lower other = lower name := by
  refine ⟨?_, fun other => lower_congr⟩
  cases named : Mnemonic.ofName? name.toLower with
  | some m => exact .inl ⟨⟨m, Mnemonic.name_of_ofName? named⟩, known_of_named named⟩
  | none => exact .inr ⟨Mnemonic.name_ne_of_ofName? named, unknown_of_not_named named⟩

end Lowering

end MipsLab
