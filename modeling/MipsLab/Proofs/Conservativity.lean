import MipsLab.Proofs.MnemonicTables
import MipsLab.Proofs.Reading

set_option autoImplicit false

/-!
# Programs that need no expansions

The first pass asks in one place only whether instructions may be expanded: where a written instruction is
lowered, and there a basic form comes first (`lower_cases`). So a line that is placed without errors while
expansions are refused is placed in the same way while they are allowed (`Placement.allow_placeLine`), and what
assembles without expansions is the same program with them (`Assembly.assemble_extended`).
-/

namespace MipsLab

/-! ## Lowering -/

section Lower

variable {name : String} {operands : List Operand}

/-- Whether expansions are allowed makes a difference only where there is one, and then the instruction cannot be
lowered without it. -/
theorem lower_cases (name : String) (operands : List Operand) :
    (∃ result, (∀ extended, lower name operands extended = result) ∧
        ∀ m, result ≠ .error (.extendedNotAllowed m)) ∨
      ∃ is e, lower name operands true = .ok is ∧ lower name operands false = .error e := by
  simp only [lower_eq]
  split
  case h_1 => exact .inl ⟨_, fun _ => rfl, nofun⟩
  case h_2 m _ =>
    unfold Lowering.lowerKnown
    cases Lowering.basicForm m operands with
    | fits i => exact .inl ⟨_, fun _ => rfl, nofun⟩
    | outOfRange value | mismatch | unknown =>
        cases Lowering.expansion? m operands with
        | none => exact .inl ⟨_, fun _ => rfl, nofun⟩
        | some is => exact .inr ⟨is, _, rfl, rfl⟩

/-- What is lowered without expansions is lowered to the same with them. -/
theorem lower_true_of_ok {extended : Bool} {is : List SymbolicInstr}
    (h : lower name operands extended = .ok is) : lower name operands true = .ok is := by
  cases extended with
  | true => exact h
  | false =>
      rcases lower_cases name operands with ⟨result, hlower, -⟩ | ⟨_, e, -, herror⟩
      · rw [hlower true, ← hlower false, h]
      · cases herror.symm.trans h

/-- What cannot be lowered even with expansions has the same error without them. -/
theorem lower_false_of_error {e : EncodeError} (h : lower name operands true = .error e) :
    lower name operands false = .error e := by
  rcases lower_cases name operands with ⟨result, hlower, -⟩ | ⟨is, _, hok, -⟩
  · rw [hlower false, ← hlower true, h]
  · cases hok.symm.trans h

/-- Where the error is that expansions are not allowed, there is an expansion. -/
theorem exists_lower_of_extendedNotAllowed {m : String}
    (h : lower name operands false = .error (.extendedNotAllowed m)) :
    ∃ is, lower name operands true = .ok is := by
  rcases lower_cases name operands with ⟨result, hlower, hother⟩ | ⟨is, _, hok, -⟩
  · exact absurd ((hlower false).symm.trans h) (hother m)
  · exact ⟨is, hok⟩

end Lower

/-! ## Operations that do not ask -/

namespace Placement

/-- The same placement, with expansions allowed. -/
def allow (p : Placement) : Placement := { p with extended := true }

section Allow

variable (p : Placement)

/-- What is done for each element of a list does not ask if no single step does. -/
theorem allow_foldl {α : Type} {f : Placement → α → Placement} (h : ∀ p a, f p.allow a = (f p a).allow)
    (l : List α) : l.foldl f p.allow = (l.foldl f p).allow := by
  induction l generalizing p with
  | nil => rfl
  | cons a l ih => rw [List.foldl_cons, List.foldl_cons, h p a, ih]

theorem allow_enterLabel (label : String × Site) :
    p.allow.enterLabel label = (p.enterLabel label).allow := by
  unfold enterLabel
  dsimp only
  rw [show p.allow.unit = p.unit from rfl, show p.allow.here = p.here from rfl]
  split <;> rfl

theorem allow_enterLabels : p.allow.enterLabels = p.enterLabels.allow :=
  allow_foldl { p with unit := { p.unit with waiting := [] } } allow_enterLabel p.unit.waiting

theorem allow_checkUnused : p.allow.checkUnused = p.checkUnused.allow := by
  unfold checkUnused
  rw [show p.allow.unit = p.unit from rfl]
  split <;> rfl

theorem allow_alignTo (size : Word) : p.allow.alignTo size = (p.alignTo size).allow :=
  allow_enterLabels (p.moveTo (Word.alignUp p.here size))

theorem allow_placeBytes (site : Site) (bytes : List Byte) :
    p.allow.placeBytes site bytes = (p.placeBytes site bytes).allow := by
  unfold placeBytes
  dsimp only
  rw [show p.allow.here = p.here from rfl, show p.allow.data = p.data from rfl]
  split
  · rfl
  · split <;> rfl

theorem allow_placeWordItem? (site : Site) (operand : Operand) :
    placeWordItem? site p.allow operand = (placeWordItem? site p operand).map allow := by
  cases operand with
  | imm n => exact congrArg some (allow_placeBytes p site _)
  | label l => exact congrArg some (allow_placeBytes { p with labelWords := p.labelWords.push _ } site _)
  | _ => rfl

theorem allow_placeSmallItem? (name : String) (width : Nat) (fits : Int → Bool) (site : Site)
    (operand : Operand) : placeSmallItem? name width fits site p.allow operand =
      (placeSmallItem? name width fits site p operand).map allow := by
  cases operand with
  | imm n =>
      unfold placeSmallItem?
      dsimp only
      split
      · exact congrArg some (allow_placeBytes p site _)
      · exact congrArg some (allow_placeBytes (p.report site _) site _)
  | _ => rfl

theorem allow_placeString? (terminated : Bool) (site : Site) (operand : Operand) :
    placeString? terminated site p.allow operand =
      (placeString? terminated site p operand).map allow := by
  cases operand with
  | str text => exact congrArg some (allow_placeBytes p site _)
  | _ => rfl

theorem allow_placeItems {name : String} {site : Site} {place? : Placement → Operand → Option Placement}
    (h : ∀ p operand, place? p.allow operand = (place? p operand).map allow) (operands : List Operand) :
    placeItems name site place? p.allow operands = (placeItems name site place? p operands).allow := by
  induction operands generalizing p with
  | nil => rfl
  | cons operand rest ih =>
      unfold placeItems
      rw [h p operand]
      cases place? p operand with
      | none => rfl
      | some q => exact ih q

theorem allow_placeData (site : Site) (name : String) (operands : List Operand) :
    p.allow.placeData site name operands = (p.placeData site name operands).allow := by
  unfold placeData
  split
  · split
    · exact allow_alignTo p _
    · rfl
  · split
    · dsimp only
      rw [allow_enterLabels]
      rfl
    · rfl
  · rw [allow_alignTo, allow_placeItems _ fun p => allow_placeWordItem? p site]
  · rw [allow_alignTo, allow_placeItems _ fun p => allow_placeSmallItem? p "half" 2 fitsHalf site]
  · rw [allow_alignTo, allow_placeItems _ fun p => allow_placeSmallItem? p "byte" 1 fitsByte site]
  · rw [allow_enterLabels, allow_placeItems _ fun p => allow_placeString? p false site]
  · rw [allow_enterLabels, allow_placeItems _ fun p => allow_placeString? p true site]
  · rfl

theorem allow_select (site : Site) (name : String) (segment : Segment) (operands : List Operand) :
    p.allow.select site name segment operands = (p.select site name segment operands).allow := by
  unfold select
  dsimp only
  rw [allow_enterLabels, allow_checkUnused]
  split
  · rfl
  · split <;> rfl
  · rfl

theorem allow_declareExports (site : Site) (name : String) (operands : List Operand) :
    p.allow.declareExports site name operands = (p.declareExports site name operands).allow := by
  induction operands generalizing p with
  | nil => rfl
  | cons operand rest ih =>
      unfold declareExports
      split
      case h_1 heq => cases heq
      case h_2 label rest' heq =>
        obtain ⟨rfl, rfl⟩ := List.cons.inj heq
        exact ih { p with unit := { p.unit with exports := p.unit.exports ++ [(label, site)] } }
      case h_3 => rfl

theorem allow_reserve (site : Site) (name label : String) (size : Int) :
    p.allow.reserve site name label size = (p.reserve site name label size).allow := by
  unfold reserve
  dsimp only
  rw [show p.allow.globals = p.globals from rfl, show p.allow.nextExtern = p.nextExtern from rfl]
  split
  · split <;> rfl
  · rfl

theorem allow_directive (site : Site) (name : String) (operands : List Operand) :
    p.allow.directive site name operands = (p.directive site name operands).allow := by
  unfold directive
  rw [show p.allow.unit = p.unit from rfl]
  split
  · exact allow_select p site name _ operands
  split
  · split
    · rfl
    · exact allow_declareExports p site name operands
  split
  · split
    · exact allow_reserve p site name _ _
    · rfl
  split
  · rfl
  split
  · rfl
  split
  · split
    · rfl
    · exact allow_placeData p.markUsed site name operands
  · rfl

theorem allow_awaitLabels (line : TokenLine) (labels : List (String × Span)) :
    p.allow.awaitLabels line labels = (p.awaitLabels line labels).allow :=
  allow_foldl p (fun _ _ => rfl) labels

theorem allow_exportLabel (declared : String × Site) :
    p.allow.exportLabel declared = (p.exportLabel declared).allow := by
  unfold exportLabel
  dsimp only
  rw [show p.allow.globals = p.globals from rfl, show p.allow.unit = p.unit from rfl]
  split
  · rfl
  · split
    · rfl
    · split <;> rfl

theorem allow_endUnit : p.allow.endUnit = p.endUnit.allow := by
  unfold endUnit
  dsimp only
  rw [allow_enterLabels, allow_checkUnused,
    show p.enterLabels.checkUnused.allow.unit = p.enterLabels.checkUnused.unit from rfl,
    allow_foldl _ allow_exportLabel]
  rfl

end Allow

/-! ## The second pass -/

theorem allow_fillLabelWords (p : Placement) (words : List LabelWord) (data : DataImage) :
    p.allow.fillLabelWords words data = p.fillLabelWords words data := by
  induction words generalizing data with
  | nil => rfl
  | cons w words ih =>
      unfold fillLabelWords
      rw [show p.allow.fillLabelWord data w = p.fillLabelWord data w from rfl]
      cases p.fillLabelWord data w with
      | ok filled => exact ih filled
      | error d =>
          dsimp only
          rw [ih data]

/-- What is made of a placement does not ask. -/
theorem allow_finish (p : Placement) (layout : MemoryLayout) :
    p.allow.finish layout = p.finish layout := by
  unfold finish
  rw [allow_fillLabelWords]
  rfl

/-! ## Lines and units -/

/-- An instruction that is placed without errors is placed in the same way with expansions. -/
theorem allow_placeInstr {p : Placement} {line : TokenLine} {column : Nat} {name : String}
    {operands : List Operand} (clean : (p.placeInstr line column name operands).Clean) :
    p.allow.placeInstr line column name operands = (p.placeInstr line column name operands).allow := by
  unfold placeInstr at clean ⊢
  dsimp only at clean ⊢
  rw [show p.allow.unit = p.unit from rfl]
  split at clean
  case isTrue => exact absurd clean (not_clean_report p _ rfl)
  case isFalse hdata =>
    rw [if_neg hdata, if_neg hdata]
    split at clean
    case h_1 => exact absurd clean (not_clean_report p _ rfl)
    case h_2 is lowered =>
      rw [show p.allow.extended = true from rfl, lower_true_of_ok lowered]
      dsimp only
      rw [show p.allow.markUsed = p.markUsed.allow from rfl, allow_alignTo, allow_foldl _ fun _ _ => rfl]

/-- **A line that is placed without errors is placed in the same way with expansions.** -/
theorem allow_placeLine {p : Placement} {line : TokenLine} (clean : (p.placeLine line).Clean) :
    p.allow.placeLine line = (p.placeLine line).allow := by
  unfold placeLine at clean ⊢
  split
  · rfl
  case h_2 s hs =>
    rw [hs] at clean
    have hlabels := allow_awaitLabels p line s.labels
    unfold awaitLabels at hlabels
    dsimp only at clean hlabels ⊢
    rw [hlabels]
    split
    · rfl
    case h_2 name operands hn =>
      rw [hn] at clean
      exact allow_placeInstr clean
    case h_3 name operands hn => exact allow_directive _ _ name operands

theorem allow_placeLines {lines : List TokenLine} {p : Placement} (clean : (lines.foldl placeLine p).Clean) :
    lines.foldl placeLine p.allow = (lines.foldl placeLine p).allow := by
  induction lines generalizing p with
  | nil => rfl
  | cons line lines ih =>
      rw [List.foldl_cons] at clean
      -- errors would stay to the end
      have hline : (p.placeLine line).Clean :=
        (pass_of_moves (moves_placeLines _ lines)).extends.clean clean
      rw [List.foldl_cons, List.foldl_cons, allow_placeLine hline, ih clean]

end Placement

namespace Assembly

open Placement

theorem allow_placeUnit {p : Placement} {u : SourceUnit} (clean : (placeUnit p u).1.Clean) :
    (placeUnit p.allow u).1 = (placeUnit p u).1.allow := by
  rw [placeUnit_eq, placeUnit_eq p]
  split
  case isTrue => rfl
  case isFalse readable =>
    rw [placeUnit_eq, if_neg readable] at clean
    have hlines := (pass_endUnit _).extends.clean clean
    rw [show beginUnit p.allow u = (beginUnit p u).allow from rfl, allow_placeLines hlines, allow_endUnit]

theorem allow_placeUnits {units : List SourceUnit} {p : Placement} (clean : (placeUnits p units).1.Clean) :
    placeUnits p.allow units = ((placeUnits p units).1.allow, (placeUnits p units).2) := by
  refine Prod.ext ?_ ?_
  · induction units generalizing p with
    | nil => rfl
    | cons u rest ih =>
        have hstep (p : Placement) : (placeUnits p (u :: rest)).1 = (placeUnits (placeUnit p u).1 rest).1 := rfl
        rw [hstep] at clean
        have hunit : (placeUnit p u).1.Clean := (pass_placeUnits _ rest).extends.clean clean
        rw [hstep, hstep, allow_placeUnit hunit, ih clean]
  · rw [snd_placeUnits, snd_placeUnits]

/-- **Extended mode is conservative.** What is assembled while expansions are refused is assembled while they
are allowed, with the same code, data, tables and warnings, and leaves the same units. An instruction that
cannot be lowered even with expansions has the same error without them, and one whose error is that expansions
are refused can be lowered with them. -/
theorem assemble_extended :
    (∀ (options : AssemblyOptions) (units units' : List SourceUnit) (program : AssembledProgram),
      assemble { options with extended := false } units = (.ok program, units') →
        assemble { options with extended := true } units = (.ok program, units')) ∧
    (∀ (name : String) (operands : List Operand) (e : EncodeError),
      lower name operands true = .error e → lower name operands false = .error e) ∧
    ∀ (name : String) (operands : List Operand) (m : String),
      lower name operands false = .error (.extendedNotAllowed m) →
        ∃ is, lower name operands true = .ok is := by
  refine ⟨fun options units units' program ok => ?_, fun _ _ _ => lower_false_of_error,
    fun _ _ _ => exists_lower_of_extendedNotAllowed⟩
  -- what was assembled left no error in the first pass, so no line asked for an expansion
  have clean : (placeUnits (.initial false options.layout) units).1.Clean :=
    clean_firstPass (congrArg Prod.fst ok)
  have hpass : placeUnits (.initial true options.layout) units = _ := allow_placeUnits clean
  unfold assemble at ok ⊢
  dsimp only at ok ⊢
  rw [hpass]
  dsimp only
  rw [allow_finish]
  exact ok

/-- A branch to itself, a number that no form of its mnemonic can hold, and a shorthand. -/
theorem assemble_extended_branchToItself :
    let u : SourceUnit := .ofText "a.s" "loop: bne $t0, $zero, loop\n.data\n.word loop"
    ∃ program units', assemble { extended := false } [u] = (.ok program, units') ∧
      assemble { extended := true } [u] = (.ok program, units') ∧
      program.code.map (·.instr) = [.branch .ne ⟨8⟩ .zero (-1)] ∧
      lower "lui" [.reg .v0, .imm 0x10000] true = .error (.immediateOutOfRange "lui" 0x10000) ∧
      lower "lui" [.reg .v0, .imm 0x10000] false = .error (.immediateOutOfRange "lui" 0x10000) ∧
      lower "li" [.reg .v0, .imm 0x10000] false = .error (.extendedNotAllowed "li") ∧
      ∃ is, lower "li" [.reg .v0, .imm 0x10000] true = .ok is := by
  intro u
  have hran : (assemble { extended := false } [u]).1.toOption.map (fun p => p.code.map (·.instr)) =
      some [.branch .ne ⟨8⟩ .zero (-1)] := by decide +kernel
  obtain ⟨program, hprogram, hcode⟩ := Option.map_eq_some_iff.mp hran
  have hok := eq_ok_of_toOption hprogram
  rcases ok : assemble { extended := false } [u] with ⟨result, units'⟩
  rw [ok] at hok
  subst hok
  have hlui : lower "lui" [.reg .v0, .imm 0x10000] true =
      .error (.immediateOutOfRange "lui" 0x10000) := by
    rw [lower_eq, show "lui".toLower = "lui" by decide +kernel,
      show Mnemonic.ofName? "lui" = some .lui by decide +kernel]
    rfl
  have hli : lower "li" [.reg .v0, .imm 0x10000] false = .error (.extendedNotAllowed "li") := by
    rw [lower_eq, show "li".toLower = "li" by decide +kernel,
      show Mnemonic.ofName? "li" = some .li by decide +kernel]
    rfl
  obtain ⟨hassemble, hlower, hexpands⟩ := assemble_extended
  have hon : assemble { extended := true } [u] = (.ok program, units') := hassemble {} [u] _ program ok
  exact ⟨program, units', rfl, hon, hcode, hlui, hlower "lui" _ _ hlui, hli,
    hexpands "li" _ "li" hli⟩

end Assembly

end MipsLab
