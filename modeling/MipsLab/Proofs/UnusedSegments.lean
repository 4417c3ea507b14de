import MipsLab.Proofs.AllOrNothing
import MipsLab.Proofs.DiagnosticPlaces
import MipsLab.Proofs.WarningMarks

set_option autoImplicit false

/-!
# Unused segments

A segment directive is warned of where the next one shows that nothing was placed in between, or at the end of the
unit. All other warnings are given at once. So a placement has an outlook: the warnings it has given, and those
that are to come where some marks follow. No step of the pass changes it, whatever comes later
(`Placement.Leaves`), and what is left at the end are the warnings of the program (`Assembly.warnings_exact`).
-/

namespace MipsLab

namespace Placement

/-! ## Operations without warnings -/

/-- What a placement has warned of. -/
def warned (p : Placement) : Diagnostics := p.diagnostics.filter (·.isWarning)

/-- `q` has no more warnings than `p`, and the same segment directive is waiting. -/
structure Silent (p q : Placement) : Prop where
  warned : q.warned = p.warned
  unused : q.unit.unused = p.unit.unused

namespace Silent

theorem of_eq {p q : Placement} (diagnostics : q.diagnostics = p.diagnostics)
    (unused : q.unit.unused = p.unit.unused) : Silent p q :=
  ⟨congrArg (List.filter _) diagnostics, unused⟩

theorem trans {p q r : Placement} (hpq : Silent p q) (hqr : Silent q r) : Silent p r :=
  ⟨hqr.warned.trans hpq.warned, hqr.unused.trans hpq.unused⟩

theorem foldl {α : Type} {f : Placement → α → Placement} (h : ∀ p a, Silent p (f p a)) (l : List α)
    (p : Placement) : Silent p (l.foldl f p) := by
  induction l generalizing p with
  | nil => exact ⟨rfl, rfl⟩
  | cons a l ih => exact (h p a).trans (ih (f p a))

variable (p : Placement)

theorem report (site : Site) {cause : Cause} (h : cause.isWarning = false) :
    Silent p (p.report site cause) := by
  refine ⟨?_, rfl⟩
  have hd : (site.report cause).isWarning = false := h
  simp [Placement.warned, Placement.report, hd]

theorem enterLabel (label : String × Site) : Silent p (p.enterLabel label) := by
  unfold Placement.enterLabel
  split
  split
  · exact ⟨rfl, rfl⟩
  · exact report p _ rfl

theorem enterLabels : Silent p p.enterLabels :=
  Silent.trans (.of_eq (by rfl) (by rfl)) (foldl enterLabel p.unit.waiting _)

theorem alignTo (size : Word) : Silent p (p.alignTo size) :=
  Silent.trans (.of_eq (by rfl) (by rfl)) (enterLabels (p.moveTo _))

theorem placeBytes (site : Site) (bytes : List Byte) : Silent p (p.placeBytes site bytes) := by
  unfold Placement.placeBytes
  dsimp only
  split
  · exact report p site rfl
  · split
    · exact (Silent.trans (.of_eq (by rfl) (by rfl)) (report _ site rfl)).trans (.of_eq (by rfl) (by rfl))
    · exact ⟨rfl, rfl⟩

theorem placeItems {name : String} {site : Site} {place? : Placement → Operand → Option Placement}
    (hplace : ∀ {p q operand}, place? p operand = some q → Silent p q) (operands : List Operand) :
    Silent p (placeItems name site place? p operands) := by
  induction operands generalizing p with
  | nil => exact ⟨rfl, rfl⟩
  | cons operand rest ih =>
    rw [Placement.placeItems]
    split
    case h_1 q hq => exact (hplace hq).trans (ih q)
    case h_2 => exact report p site rfl

theorem declareExports (site : Site) (name : String) (operands : List Operand) :
    Silent p (p.declareExports site name operands) := by
  induction operands generalizing p with
  | nil => exact ⟨rfl, rfl⟩
  | cons operand rest ih =>
    unfold Placement.declareExports
    split
    case h_1 => exact ⟨rfl, rfl⟩
    case h_2 label rest' heq =>
      obtain ⟨-, rfl⟩ := List.cons.inj heq
      exact Silent.trans (.of_eq (by rfl) (by rfl)) (ih _)
    case h_3 => exact report p site rfl

theorem reserve (site : Site) (name label : String) (size : Int) :
    Silent p (p.reserve site name label size) := by
  unfold Placement.reserve
  dsimp only
  split
  · split
    · exact ⟨rfl, rfl⟩
    · exact report p site rfl
  · exact report p site rfl

theorem exportLabel (declared : String × Site) : Silent p (p.exportLabel declared) := by
  unfold Placement.exportLabel
  split
  split
  · exact ⟨rfl, rfl⟩
  · split
    · exact report p _ rfl
    · dsimp only
      split
      · exact ⟨rfl, rfl⟩
      · exact Silent.trans (.of_eq (by rfl) (by rfl)) (report _ _ rfl)

end Silent

theorem silent_placeWordItem? {site : Site} {p q : Placement} {operand : Operand}
    (h : placeWordItem? site p operand = some q) : Silent p q := by
  unfold placeWordItem? at h
  split at h
  · cases h
    exact .placeBytes p site _
  · cases h
    exact Silent.trans (.of_eq (by rfl) (by rfl)) (.placeBytes _ site _)
  · cases h

theorem silent_placeString? {terminated : Bool} {site : Site} {p q : Placement} {operand : Operand}
    (h : placeString? terminated site p operand = some q) : Silent p q := by
  unfold placeString? at h
  split at h
  · cases h
    exact .placeBytes p site _
  · cases h

/-! ## Operations with warnings -/

/-- The warnings so far, and those that are to come where some marks follow. -/
def outlook (p : Placement) (marks : List Mark) : Diagnostics := p.warned ++ Mark.warnings p.unit.unused marks

/-- Some marks lead from a placement to another one: whatever follows, the warnings in the end are the same. -/
def Leaves (p : Placement) (marks : List Mark) (q : Placement) : Prop :=
  ∀ rest, p.outlook (marks ++ rest) = q.outlook rest

theorem Silent.leaves {p q : Placement} (h : Silent p q) : Leaves p [] q := fun rest => by
  rw [List.nil_append, outlook, outlook, h.warned, h.unused]

theorem Leaves.trans {p q r : Placement} {marks marks' : List Mark} (hpq : Leaves p marks q)
    (hqr : Leaves q marks' r) : Leaves p (marks ++ marks') r := fun rest => by
  rw [List.append_assoc, hpq, hqr]

theorem leaves_markUsed (p : Placement) : Leaves p [.content] p.markUsed := fun _ => rfl

/-- A warning about a mark is given at once. -/
theorem leaves_report (p : Placement) (site : Site) {w : Warning} {mark : Mark}
    (h : ∀ waiting rest, Mark.warnings waiting (mark :: rest) =
      site.report (.warning w) :: Mark.warnings waiting rest) :
    Leaves p [mark] (p.report site (.warning w)) := fun rest => by
  have hd : (site.report (.warning w)).isWarning = true := rfl
  simp [outlook, warned, report, h, hd]

theorem warned_checkUnused (p : Placement) :
    p.checkUnused.warned = p.warned ++ p.unit.unused.toList.map Mark.emptySegment := by
  unfold checkUnused
  split
  case h_1 name site hunused =>
    have hd : (site.report (.warning (.emptySegment name))).isWarning = true := rfl
    simp [warned, report, markUsed, hunused, hd, Mark.emptySegment]
  case h_2 hnone => simp [hnone]

section Line

variable {line : TokenLine} {column : Nat} {site : Site} {p : Placement} {name : String}
  {operands : List Operand}

theorem leaves_placeInstr {is : List SymbolicInstr} (text : p.unit.segment.isText = true)
    (lowered : lower name operands p.extended = .ok is) :
    Leaves p [.content] (p.placeInstr line column name operands) := by
  simp only [placeInstr, text, lowered]
  have hplaced : Silent p.markUsed (is.foldl (placeWord line column) (p.markUsed.alignTo 4)) :=
    (Silent.alignTo _ 4).trans (.foldl (fun _ _ => .of_eq (by rfl) (by rfl)) is _)
  exact (leaves_markUsed p).trans hplaced.leaves

/-- A segment directive settles the one before it and waits itself. -/
theorem leaves_select {s : Segment}
    (address : operands = [] ∨
      ∃ n, operands = [.imm n] ∧ IsUnsigned32 n ∧ (s.isText = true → n % 4 = 0)) :
    Leaves p [.segment name site] (p.select site name s operands) := by
  obtain ⟨hwarned, hunused⟩ := Silent.enterLabels p
  have hchecked : p.enterLabels.checkUnused.warned =
      p.warned ++ p.unit.unused.toList.map Mark.emptySegment := by
    rw [warned_checkUnused, hwarned, hunused]
  have hselected {q : Placement} (hq : q.warned = p.enterLabels.checkUnused.warned)
      (hwaits : q.unit.unused = some (name, site)) : Leaves p [.segment name site] q := fun rest => by
    rw [outlook, outlook, hq, hchecked, hwaits, List.append_assoc]
    rfl
  obtain rfl | ⟨n, rfl, hn, haligned⟩ := address
  · exact hselected rfl rfl
  · have hallowed : IsUnsigned32 n ∧ (s.isText = false ∨ n % 4 = 0) := by
      refine ⟨hn, ?_⟩
      cases htext : s.isText with
      | false => exact .inl rfl
      | true => exact .inr (haligned htext)
    simp only [select, if_pos hallowed]
    exact hselected rfl rfl

/-- Numbers that do not fit are warned of in order. -/
theorem leaves_placeSmallItems {width : Nat} {fits : Int → Bool} (hfits : ∀ n, fits n = !decide (Exceeds name n))
    (allowed : ∀ o ∈ operands, ∃ n, o = .imm n) :
    Leaves p (Mark.truncations site name operands)
      (placeItems name site (placeSmallItem? name width fits site) p operands) := by
  induction operands generalizing p with
  | nil => exact Silent.leaves ⟨rfl, rfl⟩
  | cons operand rest ih =>
    obtain ⟨⟨n, rfl⟩, hrest⟩ := List.forall_mem_cons.mp allowed
    rw [placeItems]
    simp only [placeSmallItem?, hfits]
    by_cases hn : Exceeds name n
    · have htruncated : Leaves p [.truncated name n site]
          (p.report site (.warning (.valueTruncated name n))) := leaves_report p site fun _ _ => rfl
      have hmarks : Mark.truncations site name (.imm n :: rest) =
          [.truncated name n site] ++ ([] ++ Mark.truncations site name rest) := by
        simp [Mark.truncations, hn]
      rw [hmarks]
      simp only [hn]
      exact htruncated.trans ((Silent.placeBytes _ site _).leaves.trans (ih hrest))
    · have hmarks : Mark.truncations site name (.imm n :: rest) =
          [] ++ Mark.truncations site name rest := by
        simp [Mark.truncations, hn]
      rw [hmarks]
      simp only [hn]
      exact (Silent.placeBytes _ site _).leaves.trans (ih hrest)

theorem eq_not_exceeds_half (n : Int) : fitsHalf n = !decide (Exceeds "half" n) := by
  have hname : "half" ≠ "byte" := by decide
  rw [fitsHalf, ← decide_not, decide_eq_decide]
  simp only [Exceeds, FitsSigned16, FitsUnsigned16, hname, true_and, false_and, or_false]
  omega

theorem eq_not_exceeds_byte (n : Int) : fitsByte n = !decide (Exceeds "byte" n) := by
  rw [fitsByte, ← decide_not, decide_eq_decide]
  simp [Exceeds]

/-- Only the items of two directives can be too large. -/
theorem truncations_eq_nil (hhalf : name ≠ "half") (hbyte : name ≠ "byte") :
    Mark.truncations site name operands = [] := by
  refine List.filterMap_eq_nil_iff.mpr fun o _ => ?_
  cases o <;> simp [Exceeds, hhalf, hbyte]

theorem exists_imm_of_ofOperand? (hname : name = "half" ∨ name = "byte") {o : Operand}
    (allowed : (Part.ofOperand? name o).isSome = true) : ∃ n, o = .imm n := by
  cases o with
  | imm n => exact ⟨n, rfl⟩
  | reg | label | mem | str => rcases hname with rfl | rfl <;> cases allowed

theorem leaves_items (named : name ∈ ["word", "half", "byte", "ascii", "asciiz"])
    (allowed : ∀ o ∈ operands, (Part.ofOperand? name o).isSome = true) :
    Leaves p (Mark.truncations site name operands) (p.placeData site name operands) := by
  simp only [List.mem_cons, List.not_mem_nil, or_false] at named
  rcases named with rfl | rfl | rfl | rfl | rfl
  · rw [truncations_eq_nil (by decide) (by decide)]
    exact ((Silent.alignTo p 4).trans (.placeItems _ silent_placeWordItem? operands)).leaves
  · exact (Silent.alignTo p 2).leaves.trans (leaves_placeSmallItems eq_not_exceeds_half fun o ho =>
      exists_imm_of_ofOperand? (.inl rfl) (allowed o ho))
  · exact (Silent.alignTo p 1).leaves.trans (leaves_placeSmallItems eq_not_exceeds_byte fun o ho =>
      exists_imm_of_ofOperand? (.inr rfl) (allowed o ho))
  · rw [truncations_eq_nil (by decide) (by decide)]
    exact ((Silent.enterLabels p).trans (.placeItems _ silent_placeString? operands)).leaves
  · rw [truncations_eq_nil (by decide) (by decide)]
    exact ((Silent.enterLabels p).trans (.placeItems _ silent_placeString? operands)).leaves

/-- In a data segment, a data directive counts as content even if it places no bytes. -/
theorem leaves_directive_data (named : name ∈ dataDirectives) (data : p.unit.segment.isText = false)
    (h : Leaves p.markUsed (Mark.truncations site name operands) (p.markUsed.placeData site name operands)) :
    Leaves p (Nucleus.marks site (.directive name operands)) (p.directive site name operands) := by
  have hmarks : Nucleus.marks site (.directive name operands) =
      [.content] ++ Mark.truncations site name operands := by
    simp only [dataDirectives, List.mem_cons, List.not_mem_nil, or_false] at named
    rcases named with rfl | rfl | rfl | rfl | rfl | rfl | rfl <;> rfl
  have hplaced : p.directive site name operands = p.markUsed.placeData site name operands := by
    simp only [dataDirectives, List.mem_cons, List.not_mem_nil, or_false] at named
    rcases named with rfl | rfl | rfl | rfl | rfl | rfl | rfl <;>
      exact if_neg (by rw [data]; exact Bool.false_ne_true)
  rw [hmarks, hplaced]
  exact (leaves_markUsed p).trans h

theorem leaves_exports (named : name = "globl" ∨ name = "global") (nonempty : operands ≠ []) :
    Leaves p (Nucleus.marks site (.directive name operands)) (p.directive site name operands) := by
  have hsome : ¬ (operands.isEmpty = true) := mt List.isEmpty_iff.mp nonempty
  have hmarks : Nucleus.marks site (.directive name operands) = [] := by
    rcases named with rfl | rfl <;> rfl
  have hplaced : p.directive site name operands = p.declareExports site name operands := by
    rcases named with rfl | rfl <;> exact if_neg hsome
  rw [hmarks, hplaced]
  exact (Silent.declareExports p site name operands).leaves

open MipsLab.Nucleus (Acceptable)

/-- **The marks of what a statement does say what it warns of.** -/
theorem leaves_placeNucleus {n : Option Nucleus} (acceptable : Acceptable p.extended p.unit.segment n) :
    Leaves p (n.elim [] (Nucleus.marks ⟨line.source, column⟩)) (placeNucleus line column p n) := by
  cases acceptable with
  | none => exact Silent.leaves ⟨rfl, rfl⟩
  | instr text lowered => exact leaves_placeInstr text lowered
  | @select name operands s named address =>
    simp only [placeNucleus, directive, Option.elim_some, Nucleus.marks, named, Option.isSome_some, if_true]
    exact leaves_select address
  | exports named nonempty => exact leaves_exports named nonempty
  | reserve bounds => exact (Silent.reserve p _ "extern" _ _).leaves
  | set operands => exact leaves_report p _ fun _ _ => rfl
  | align data bounds =>
    refine leaves_directive_data (show "align" ∈ dataDirectives by decide) data ?_
    rw [truncations_eq_nil (by decide) (by decide), placeData, if_pos bounds]
    exact (Silent.alignTo _ _).leaves
  | space data bounds =>
    refine leaves_directive_data (show "space" ∈ dataDirectives by decide) data ?_
    rw [truncations_eq_nil (by decide) (by decide), placeData, if_pos bounds]
    exact ((Silent.enterLabels _).trans (.of_eq (by rfl) (by rfl))).leaves
  | items data named allowed =>
    refine leaves_directive_data ?_ data (leaves_items named allowed)
    revert named
    simp only [dataDirectives, List.mem_cons, List.not_mem_nil, or_false]
    tauto

theorem leaves_awaitLabels (labels : List (String × Span)) :
    Leaves p (labels.map fun _ => .content) (p.awaitLabels line labels) := by
  induction labels generalizing p with
  | nil => exact Silent.leaves ⟨rfl, rfl⟩
  | cons label labels ih =>
    have hfirst : Leaves p [.content] (p.markUsed.await (label.1, ⟨line.source, label.2.start + 1⟩)) :=
      fun _ => rfl
    exact hfirst.trans ih

theorem leaves_placeLine (clean : (p.placeLine line).Clean) : Leaves p line.marks (p.placeLine line) := by
  obtain ⟨s, hs⟩ := exists_statement_of_clean clean
  rw [placeLine_eq_placeNucleus hs] at clean ⊢
  have hmarks : line.marks = s.labels.map (fun _ => .content) ++
      s.nucleus.elim [] (Nucleus.marks ⟨line.source, s.span.start + 1⟩) := by
    rw [TokenLine.marks, hs]
  rw [hmarks]
  exact (leaves_awaitLabels s.labels).trans (leaves_placeNucleus (acceptable_of_spares (clean.spares _)))

/-- Lines that are placed without errors have the warnings that their marks say. -/
theorem leaves_placeLines {lines : List TokenLine} (clean : (lines.foldl placeLine p).Clean) :
    Leaves p (lines.flatMap (·.marks)) (lines.foldl placeLine p) := by
  induction lines generalizing p with
  | nil => exact Silent.leaves ⟨rfl, rfl⟩
  | cons line lines ih =>
    have hline : (p.placeLine line).Clean :=
      (pass_of_moves (moves_placeLines _ lines)).extends.clean clean
    exact (leaves_placeLine hline).trans (ih clean)

/-- The end of a unit settles the last segment directive. -/
theorem warned_endUnit (p : Placement) : p.endUnit.warned = p.outlook [] := by
  obtain ⟨hwarned, hunused⟩ := Silent.enterLabels p
  have hexported : Silent p.enterLabels.checkUnused p.endUnit :=
    (Silent.foldl Silent.exportLabel _ _).trans (.of_eq (by rfl) (by rfl))
  rw [hexported.warned, warned_checkUnused, hwarned, hunused]
  rfl

end Line

end Placement

namespace Assembly

open Placement

/-! ## Units -/

/-- What is wrong with the text and the macros of a unit are errors. -/
theorem isWarning_of_mem_reportsOf {u : SourceUnit} {d : Diagnostic} (h : d ∈ reportsOf u) :
    d.isWarning = false := by
  unfold reportsOf at h
  split at h
  case h_1 tokens _ =>
    obtain ⟨line, e, -, rfl⟩ := MacroPool.exists_of_mem_diagnostics (P := fun _ => True) .empty none tokens
      (fun _ _ => trivial) (fun _ _ _ => trivial) d h
    rfl
  case h_2 =>
    unfold SourceUnit.read SourceUnit.tokenize at h
    split at h
    · cases h
    · split at h
      case h_1 => cases h
      case h_2 errors _ hread =>
        rw [show errors = (SourceUnit.readLines [] u.lines).2 by rw [hread]] at h
        exact SourceUnit.isWarning_of_mem_readLines [] u.lines h

/-- A unit that is placed without errors has the warnings of its marks, and of these alone. -/
theorem warned_placeUnit {p : Placement} {u : SourceUnit} (clean : (placeUnit p u).1.Clean) :
    (placeUnit p u).1.warned = p.warned ++ Mark.warnings none u.marks := by
  have hunit := placeUnit_of_clean clean
  rw [hunit] at clean ⊢
  have hlines := leaves_placeLines ((pass_endUnit _).extends.clean clean) []
  have hbegin : (beginUnit p u).warned = p.warned := by
    have hreports : (reportsOf u).filter (·.isWarning) = [] :=
      List.filter_eq_nil_iff.mpr fun d hd => by simp [isWarning_of_mem_reportsOf hd]
    rw [warned, beginUnit, List.filter_append, hreports, List.append_nil, warned]
  rw [warned_endUnit, ← hlines, outlook, hbegin, List.append_nil]
  rfl

theorem warned_placeUnits {p : Placement} {units : List SourceUnit} (clean : (placeUnits p units).1.Clean) :
    (placeUnits p units).1.warned = p.warned ++ units.flatMap fun u => Mark.warnings none u.marks := by
  induction units generalizing p with
  | nil => exact (List.append_nil _).symm
  | cons u rest ih =>
    have hunit : (placeUnit p u).1.Clean := (pass_placeUnits _ rest).extends.clean clean
    rw [List.flatMap_cons, ← List.append_assoc, ← warned_placeUnit hunit]
    exact ih clean

/-! ## Programs -/

theorem isWarning_of_mem_failures {q : Placement} {d : Diagnostic}
    (h : d ∈ failures (q.instrs.toList.map q.resolveInstr)) : d.isWarning = false := by
  obtain ⟨i, -, hi⟩ := List.mem_map.mp (mem_failures.mp h)
  unfold resolveInstr at hi
  split at hi
  case h_1 => cases hi
  case h_2 cause hresolve =>
    cases hi
    exact (SymbolicInstr.resolve_eq_error_iff.mp hresolve).isWarning

theorem isWarning_of_mem_fillLabelWords {q : Placement} {words : List LabelWord} {data : DataImage}
    {d : Diagnostic} (h : d ∈ (q.fillLabelWords words data).2) : d.isWarning = false := by
  induction words generalizing data with
  | nil => cases h
  | cons w words ih =>
    unfold fillLabelWords at h
    split at h
    case h_1 => exact ih h
    case h_2 e he =>
      rcases List.mem_cons.mp h with rfl | h
      · unfold fillLabelWord at he
        split at he <;> cases he
        case h_2 cause haddress =>
          obtain ⟨-, rfl⟩ := SymbolicInstr.addressOf_eq_error_iff.mp haddress
          rfl
      · exact ih h

/-- The second pass reports errors only. -/
theorem filter_isWarning_finish (q : Placement) (layout : MemoryLayout) :
    (q.finish layout).warnings.filter (·.isWarning) = q.warned := by
  have hnone {ds : Diagnostics} (h : ∀ d ∈ ds, d.isWarning = false) : ds.filter (·.isWarning) = [] :=
    List.filter_eq_nil_iff.mpr fun d hd => by simp [h d hd]
  unfold finish
  dsimp only
  rw [List.filter_append, List.filter_append, List.filter_append, hnone fun _ => isWarning_of_mem_failures,
    hnone fun _ => isWarning_of_mem_fillLabelWords, hnone fun _ => isWarning_of_mem_codeConflicts,
    List.append_nil, List.append_nil, List.append_nil, warned]

/-- **The warnings of a program are those of its units in order.** -/
theorem warnings_of_ok {options : AssemblyOptions} {units : List SourceUnit} {p : AssembledProgram}
    (ok : (assemble options units).1 = .ok p) :
    p.warnings = units.flatMap fun u => Mark.warnings none u.marks := by
  have hunits := warned_placeUnits (clean_firstPass ok)
  obtain ⟨rfl, without⟩ := eq_finish_of_ok ok
  have hall := List.filter_eq_self.mpr fun d hd => Diagnostics.isWarning_of_mem without hd
  rw [← hall, filter_isWarning_finish]
  exact hunits

/-- If warnings count, a program that would assemble is refused exactly if it has one. -/
theorem refused_iff_of_ok {options : AssemblyOptions} {units : List SourceUnit} {p : AssembledProgram}
    (ok : (assemble options units).1 = .ok p) :
    (∃ ds, (assemble { options with strict := true } units).1 = .error ds) ↔ p.warnings ≠ [] := by
  obtain ⟨rfl, without, -⟩ := (ok_iff options units p).mp ok
  have hrefused : (∃ ds, (assemble { options with strict := true } units).1 = .error ds) ↔
      AssemblyOptions.refuses { options with strict := true } (draft options units).warnings = true := by
    rw [assemble_eq]
    show (∃ ds, (if AssemblyOptions.refuses { options with strict := true } (draft options units).warnings = true
      then _ else _ : Except Diagnostics AssembledProgram × List SourceUnit).1 = .error ds) ↔ _
    split
    case isTrue h => exact iff_of_true ⟨_, rfl⟩ h
    case isFalse h => exact iff_of_false nofun h
  have hcount : (draft options units).warnings.warningCount = (draft options units).warnings.length :=
    List.countP_eq_length.mpr fun d hd => Diagnostics.isWarning_of_mem without hd
  rw [hrefused, AssemblyOptions.refuses, without, hcount]
  simp [List.length_pos_iff]

/-- **The warnings of unused segments are exact.** In a program that assembles, they are in order those of the
segment directives behind which there is no label, instruction or data directive before the next segment
directive or the end of the unit, and they point at the directives. All other warnings are those of `.set` and
of numbers that do not fit. If warnings count, the program is refused exactly if it has one of these. -/
theorem warnings_exact {options : AssemblyOptions} {units : List SourceUnit} {p : AssembledProgram}
    (ok : (assemble options units).1 = .ok p) :
    p.warnings.filter (·.isEmptySegment) =
        units.flatMap (fun u => (Mark.unused u.marks).map Mark.emptySegment) ∧
      (∀ u ∈ units, ∀ x ∈ Mark.unused u.marks, (Segment.ofDirective? x.1).isSome = true ∧
        ∃ line ∈ u.expandedLines, ∃ t ∈ line.tokens,
          t.token = .directive x.1 ∧ x.2 = ⟨line.source, t.span.start + 1⟩) ∧
      p.warnings.filter (!·.isEmptySegment) = units.flatMap (fun u => u.marks.filterMap Mark.warning?) ∧
      ((∃ ds, (assemble { options with strict := true } units).1 = .error ds) ↔
        ∃ u ∈ units, Mark.unused u.marks ≠ [] ∨ ∃ line ∈ u.expandedLines, line.IsSet ∨ line.Truncates) := by
  have hwarnings := warnings_of_ok ok
  refine ⟨?_, fun u _ x => SourceUnit.exists_token_of_mem_unused, ?_, ?_⟩
  · rw [hwarnings, List.filter_flatMap]
    exact List.flatMap_congr fun u _ => Mark.filter_isEmptySegment_none u.marks
  · rw [hwarnings, List.filter_flatMap]
    exact List.flatMap_congr fun u _ => Mark.filter_not_isEmptySegment none u.marks
  · rw [refused_iff_of_ok ok, hwarnings, ne_eq, List.flatMap_eq_nil_iff]
    push Not
    exact exists_congr fun u => and_congr_right fun _ => SourceUnit.warnings_ne_nil_iff

/-- Two units. In the first one, `.data` is followed by a number that is cut and `.ktext` by nothing; the second
one starts anew, so that its instruction does not count for `.ktext`. -/
theorem warnings_exact_twoUnits :
    let units : List SourceUnit :=
      [.ofText "a.s" ".data\nv: .byte 300\n .ktext", .ofText "b.s" "nop\n.set at"]
    ∃ p, (assemble {} units).1 = .ok p ∧
      p.warnings = [⟨.warning (.valueTruncated "byte" 300), "a.s", 2, 4⟩,
        ⟨.warning (.emptySegment "ktext"), "a.s", 3, 2⟩, ⟨.warning .setIgnored, "b.s", 2, 1⟩] ∧
      p.warnings.filter (·.isEmptySegment) =
        units.flatMap (fun u => (Mark.unused u.marks).map Mark.emptySegment) ∧
      ∃ ds, (assemble { strict := true } units).1 = .error ds := by
  intro units
  have hran : (assemble {} units).1.toOption.map (·.warnings) =
      some [⟨.warning (.valueTruncated "byte" 300), "a.s", 2, 4⟩,
        ⟨.warning (.emptySegment "ktext"), "a.s", 3, 2⟩, ⟨.warning .setIgnored, "b.s", 2, 1⟩] := by
    decide +kernel
  obtain ⟨p, hp, hwarnings⟩ := Option.map_eq_some_iff.mp hran
  have ok := eq_ok_of_toOption hp
  obtain ⟨hsegments, -, -, hrefused⟩ := warnings_exact ok
  have hunused : Mark.unused (SourceUnit.marks (.ofText "a.s" ".data\nv: .byte 300\n .ktext")) ≠ [] := by
    decide +kernel
  exact ⟨p, ok, hwarnings, hsegments, hrefused.mpr ⟨_, List.mem_cons_self, .inl hunused⟩⟩

end Assembly

end MipsLab
