import MipsLab.Proofs.UnitSymbols

set_option autoImplicit false

/-!
# Symbols in spite of errors

The first pass goes on after an error. What it does to symbols is still one of few steps (`SymbolStep`), and
each of them keeps track of every label: a label waits for its address, or it has one, or it has an error
(`Known`); and a label whose name the unit has already gets an error (`Repeats`).
-/

namespace MipsLab

/-- The line gives a name to what follows it. -/
def TokenLine.Labels (line : TokenLine) (name : String) : Prop :=
  ∃ s, Statement.ofTokens line.tokens = .ok s ∧ name ∈ s.labels.map (·.1)

/-- The line reserves storage for a name. -/
def TokenLine.Reserves (line : TokenLine) (name : String) : Prop :=
  ∃ s size, Statement.ofTokens line.tokens = .ok s ∧
    s.nucleus = some (.directive "extern" [.label ⟨name, 0⟩, .imm size])

namespace Placement

/-- What the first pass over the lines of a unit can do to symbols at a time. -/
inductive SymbolStep (lines : List TokenLine) : Placement → Placement → Prop
  | other {p q : Placement} (more : Extends p q) (same : q.symbols = p.symbols) : SymbolStep lines p q
  | await (p : Placement) {line : TokenLine} {name : String} (hline : line ∈ lines)
      (named : line.Labels name) (column : Nat) : SymbolStep lines p (p.await (name, ⟨line.source, column⟩))
  | enter (p : Placement) : SymbolStep lines p p.enterLabels
  | declare (p : Placement) {line : TokenLine} (hline : line ∈ lines) (name : String) (column : Nat) :
      SymbolStep lines p
        { p with unit := { p.unit with exports := p.unit.exports ++ [(name, ⟨line.source, column⟩)] } }
  | reserve {p : Placement} {line : TokenLine} {name : String} {a : Word} {globals : SymbolTable}
      (hline : line ∈ lines) (reserves : line.Reserves name)
      (added : p.globals.addGlobal name ⟨a, line.source.file, line.source.number, .global⟩ = .ok globals) :
      SymbolStep lines p { p with globals }

/-- Any number of steps. -/
abbrev SymbolSteps (lines : List TokenLine) : Placement → Placement → Prop :=
  Relation.ReflTransGen (SymbolStep lines)

/-! ## The steps of a line -/

section Steps

variable {lines : List TokenLine}

theorem steps_other {p q : Placement} (more : Extends p q) (same : q.symbols = p.symbols) :
    SymbolSteps lines p q := .single (.other more same)

theorem SymbolStep.of_eq {p q : Placement} (output : q.output = p.output) (same : q.symbols = p.symbols) :
    SymbolStep lines p q := .other (PlacesNothing.extends (.of_output_eq output)) same

/-- Neither reports nor parts that are put change symbols. -/
theorem steps_report (p : Placement) (site : Site) (c : Cause) :
    SymbolSteps lines p (p.report site c) := steps_other (PlacesNothing.report p site c).extends rfl

theorem Puts.steps {line : TokenLine} {column : Nat} {p q : Placement} {parts : List Part}
    (puts : Puts line column p parts q) : SymbolSteps lines p q := steps_other puts.extends puts.symbols

theorem steps_checkUnused (p : Placement) : SymbolSteps lines p p.checkUnused :=
  steps_other (PlacesNothing.checkUnused p).extends (symbols_checkUnused p)

theorem steps_alignTo (p : Placement) (size : Word) : SymbolSteps lines p (p.alignTo size) := by
  have hmoved : SymbolStep lines p (p.moveTo (Word.alignUp p.here size)) := .of_eq (by rfl) rfl
  exact .head hmoved (.single (.enter _))

theorem steps_placeItems {name : String} {line : TokenLine} {column : Nat}
    {place? : Placement → Operand → Option Placement}
    (hplace : ∀ {p q operand}, place? p operand = some q →
      ∃ part, Part.ofOperand? name operand = some part ∧ Puts line column p [part] q)
    (p : Placement) (operands : List Operand) :
    SymbolSteps lines p (placeItems name ⟨line.source, column⟩ place? p operands) := by
  induction operands generalizing p with
  | nil => exact .refl
  | cons operand rest ih =>
      rw [placeItems]
      split
      case h_1 q hq =>
        obtain ⟨_, -, hputs⟩ := hplace hq
        exact hputs.steps.trans (ih q)
      case h_2 => exact steps_report p _ _

theorem steps_placeData (p : Placement) (line : TokenLine) (column : Nat) (name : String)
    (operands : List Operand) :
    SymbolSteps lines p (p.placeData ⟨line.source, column⟩ name operands) := by
  unfold placeData
  split
  · split
    · exact steps_alignTo p _
    · exact steps_report p _ _
  · split
    · exact .tail (.single (.enter p)) (.of_eq (by rfl) rfl)
    · exact steps_report p _ _
  · exact (steps_alignTo p _).trans (steps_placeItems puts_placeWordItem? _ _)
  · exact (steps_alignTo p _).trans (steps_placeItems (puts_placeSmallItem? fun n => rfl) _ _)
  · exact (steps_alignTo p _).trans (steps_placeItems (puts_placeSmallItem? fun n => rfl) _ _)
  · exact .head (.enter p)
      (steps_placeItems (puts_placeString? fun text => by simp [Part.ofOperand?]) _ _)
  · exact .head (.enter p) (steps_placeItems (puts_placeString? fun text => rfl) _ _)
  · exact steps_report p _ _

theorem steps_placeInstr (p : Placement) (line : TokenLine) (column : Nat) (name : String)
    (operands : List Operand) : SymbolSteps lines p (p.placeInstr line column name operands) := by
  unfold placeInstr
  dsimp only
  split
  · exact steps_report p _ _
  · split
    · exact steps_report p _ _
    case h_2 is _ =>
      have hused : SymbolSteps lines p p.markUsed :=
        .single (.of_eq (by rfl) rfl)
      have hputs : Puts line column (p.markUsed.alignTo 4) _ _ := puts_placeWords is _
      exact (hused.trans (steps_alignTo _ 4)).trans hputs.steps

theorem steps_select (p : Placement) (site : Site) (name : String) (s : Segment)
    (operands : List Operand) : SymbolSteps lines p (p.select site name s operands) := by
  have hclosed : SymbolSteps lines p p.enterLabels.checkUnused := .head (.enter p) (steps_checkUnused _)
  unfold select
  split
  · exact hclosed.tail (.of_eq (by rfl) rfl)
  · split
    · exact hclosed.tail (.of_eq (by rfl) rfl)
    · exact hclosed.trans (steps_report _ _ _)
  · exact hclosed.trans (steps_report _ _ _)

theorem steps_declareExports {line : TokenLine} (hline : line ∈ lines) (p : Placement) (column : Nat)
    (name : String) (operands : List Operand) :
    SymbolSteps lines p (p.declareExports ⟨line.source, column⟩ name operands) := by
  induction operands generalizing p with
  | nil => exact .refl
  | cons operand rest ih =>
      unfold declareExports
      split
      case h_1 => exact .refl
      case h_2 label rest' heq =>
        obtain ⟨-, rfl⟩ := List.cons.inj heq
        exact .head (.declare p hline label column) (ih _)
      case h_3 => exact steps_report p _ _

theorem steps_reserve {line : TokenLine} {column : Nat} {label : String} {size : Int} (hline : line ∈ lines)
    (reserves : line.Reserves label) (p : Placement) (name : String) :
    SymbolSteps lines p (p.reserve ⟨line.source, column⟩ name label size) := by
  unfold reserve
  dsimp only
  split
  · split
    case h_1 globals added =>
      exact .tail (.single (.reserve hline reserves added))
        (.of_eq (by rfl) rfl)
    case h_2 => exact steps_report p _ _
  · exact steps_report p _ _

section Line

variable {line : TokenLine} (hline : line ∈ lines) {s : Statement}
  (hs : Statement.ofTokens line.tokens = .ok s)
include hline hs

theorem steps_directive {name : String} {operands : List Operand}
    (hn : s.nucleus = some (.directive name operands)) (p : Placement) (column : Nat) :
    SymbolSteps lines p (p.directive ⟨line.source, column⟩ name operands) := by
  unfold directive
  split
  case h_1 => exact steps_select p _ _ _ _
  case h_2 =>
    split
    · split
      · exact steps_report p _ _
      · exact steps_declareExports hline p _ _ _
    split
    case isTrue hextern =>
      subst hextern
      split
      case h_1 label size => exact steps_reserve hline ⟨s, size, hs, hn⟩ p _
      case h_2 => exact steps_report p _ _
    split
    · exact steps_report p _ _
    split
    · exact steps_report p _ _
    split
    · split
      · exact steps_report p _ _
      · have hused : SymbolSteps lines p p.markUsed :=
          .single (.of_eq (by rfl) rfl)
        exact hused.trans (steps_placeData _ line column name operands)
    · exact steps_report p _ _

theorem steps_awaitLabels {labels : List (String × Span)} (hlabels : labels ⊆ s.labels) (p : Placement) :
    SymbolSteps lines p (p.awaitLabels line labels) := by
  induction labels generalizing p with
  | nil => exact .refl
  | cons label rest ih =>
      obtain ⟨hlabel, hrest⟩ := List.cons_subset.mp hlabels
      have hused : SymbolStep lines p p.markUsed := .of_eq (by rfl) rfl
      exact .head hused (.head (.await _ hline ⟨s, hs, List.mem_map_of_mem hlabel⟩ _) (ih hrest _))

end Line

/-- **What a line does to symbols after its labels, step by step.** -/
theorem steps_placeNucleus {line : TokenLine} (hline : line ∈ lines) {s : Statement}
    (hs : Statement.ofTokens line.tokens = .ok s) (p : Placement) :
    SymbolSteps lines (p.awaitLabels line s.labels) (p.placeLine line) := by
  rw [placeLine_eq hs]
  cases hn : s.nucleus with
  | none => exact .refl
  | some n =>
      cases n with
      | instr name operands => exact steps_placeInstr _ line _ name operands
      | directive name operands => exact steps_directive hline hs hn _ _

theorem steps_placeLine {line : TokenLine} (hline : line ∈ lines) (p : Placement) :
    SymbolSteps lines p (p.placeLine line) := by
  cases hs : Statement.ofTokens line.tokens with
  | error e =>
      unfold placeLine
      rw [hs]
      exact steps_report p _ _
  | ok s =>
      exact (steps_awaitLabels hline hs (List.Subset.refl s.labels) p).trans (steps_placeNucleus hline hs p)

theorem steps_placeLines {some : List TokenLine} (hsome : some ⊆ lines) (p : Placement) :
    SymbolSteps lines p (some.foldl placeLine p) := by
  induction some generalizing p with
  | nil => exact .refl
  | cons line rest ih =>
      obtain ⟨hline, hrest⟩ := List.cons_subset.mp hsome
      exact (steps_placeLine hline p).trans (ih hrest _)

end Steps

/-! ## Labels that get their addresses -/

/-- There is an error about a symbol at a place. -/
def SymbolErrorAt (p : Placement) (site : Site) : Prop := ∃ e, site.report (.symbol e) ∈ p.diagnostics

theorem SymbolErrorAt.extends {p q : Placement} (h : Extends p q) {site : Site} :
    p.SymbolErrorAt site → q.SymbolErrorAt site :=
  Exists.imp fun _ he => h.diagnostics.subset he

theorem SymbolErrorAt.report (p : Placement) (site : Site) (e : SymbolError) :
    (p.report site (.symbol e)).SymbolErrorAt site :=
  ⟨e, List.mem_append_right _ List.mem_cons_self⟩

/-- A label enters the table of the unit, unless the table has its name already, and then it has an error. -/
theorem enterLabel_cases (p : Placement) (name : String) (site : Site) :
    (∃ locals, p.unit.locals.add name (symbolAt p.here site) = .ok locals ∧
      p.enterLabel (name, site) = { p with unit := { p.unit with locals } }) ∨
    (p.unit.locals.find? name).isSome ∧ ∃ e, p.enterLabel (name, site) = p.report site (.symbol e) := by
  unfold enterLabel
  dsimp only
  split
  case h_1 locals hadd => exact .inl ⟨locals, hadd, rfl⟩
  case h_2 e hadd =>
    refine .inr ⟨?_, e, rfl⟩
    unfold SymbolTable.add at hadd
    split at hadd
    case h_1 hfound => exact Option.isSome_of_eq_some hfound
    case h_2 => cases hadd

/-- From `p` to `q`, some labels were given the address `a`, in order. -/
structure Enters (labels : List (String × Site)) (a : Word) (p q : Placement) : Prop where
  more : Extends p q
  waiting : q.unit.waiting = p.unit.waiting
  exports : q.unit.exports = p.unit.exports
  globals : q.globals = p.globals
  kept : ∀ name s, p.unit.locals.find? name = some s → q.unit.locals.find? name = some s
  /-- Nothing else is in the table. -/
  only : ∀ name s, q.unit.locals.find? name = some s →
    p.unit.locals.find? name = some s ∨ ∃ site, (name, site) ∈ labels ∧ s = symbolAt a site
  defined : ∀ name ∈ labels.map (·.1), (q.unit.locals.find? name).isSome
  /-- A label whose name is new has its address. -/
  entered : ∀ first name site later, labels = first ++ (name, site) :: later → q.SymbolErrorAt site ∨
    q.unit.locals.find? name = some (symbolAt a site) ∧ name ∉ first.map (·.1) ∧
      p.unit.locals.find? name = none

namespace Enters

variable {a : Word} {p q r : Placement} {labels later : List (String × Site)}

theorem refl (a : Word) (p : Placement) : Enters [] a p p :=
  ⟨.refl p, rfl, rfl, rfl, fun _ _ h => h, fun _ _ h => .inl h, by simp, by simp⟩

theorem single (p : Placement) (label : String × Site) : Enters [label] p.here p (p.enterLabel label) := by
  obtain ⟨name, site⟩ := label
  have hmore := (PlacesNothing.enterLabel p (name, site)).extends
  have honly : ∀ {first later : List (String × Site)} {n : String} {st : Site},
      [(name, site)] = first ++ (n, st) :: later → first = [] ∧ n = name ∧ st = site := by
    intro first later n st h
    obtain ⟨rfl, h⟩ | ⟨_, h⟩ := List.singleton_eq_append_iff.mp h
    · obtain ⟨hlabel, -⟩ := List.cons.inj h
      exact ⟨rfl, (Prod.mk.inj hlabel).1.symm, (Prod.mk.inj hlabel).2.symm⟩
    · simp at h
  rcases enterLabel_cases p name site with ⟨locals, hadd, henter⟩ | ⟨hsome, e, henter⟩
  · have hadds := SymbolTable.adds_of_add hadd
    rw [henter] at hmore ⊢
    refine ⟨hmore, rfl, rfl, rfl, fun _ _ => hadds.kept, fun n s hs => ?_, fun n hn => ?_,
      fun first n st later h => ?_⟩
    · refine (hadds.only hs).symm.imp_right ?_
      rintro ⟨rfl, rfl⟩
      exact ⟨site, List.mem_cons_self, rfl⟩
    · obtain rfl := List.mem_singleton.mp hn
      exact Option.isSome_of_eq_some hadds.added
    · obtain ⟨rfl, rfl, rfl⟩ := honly h
      exact .inr ⟨hadds.added, by simp, hadds.new⟩
  · rw [henter] at hmore ⊢
    refine ⟨hmore, rfl, rfl, rfl, fun _ _ h => h, fun _ _ h => .inl h, fun n hn => ?_,
      fun first n st later h => ?_⟩
    · obtain rfl := List.mem_singleton.mp hn
      exact hsome
    · obtain ⟨-, -, rfl⟩ := honly h
      exact .inl (.report p st e)

/-- What is new after some labels is none of them, and was new before. -/
theorem new_of_new (h : Enters labels a p q) {name : String} (hnone : q.unit.locals.find? name = none) :
    name ∉ labels.map (·.1) ∧ p.unit.locals.find? name = none := by
  have hunknown : ∀ s, q.unit.locals.find? name ≠ some s := Option.eq_none_iff_forall_ne_some.mp hnone
  refine ⟨fun hmem => ?_, Option.eq_none_iff_forall_ne_some.mpr fun s hs => hunknown s (h.kept name s hs)⟩
  obtain ⟨s, hs⟩ := Option.isSome_iff_exists.mp (h.defined name hmem)
  exact hunknown s hs

theorem trans (hpq : Enters labels a p q) (hqr : Enters later a q r) : Enters (labels ++ later) a p r where
  more := hpq.more.trans hqr.more
  waiting := hqr.waiting.trans hpq.waiting
  exports := hqr.exports.trans hpq.exports
  globals := hqr.globals.trans hpq.globals
  kept name s h := hqr.kept name s (hpq.kept name s h)
  only name s h := by
    rcases hqr.only name s h with h | ⟨site, hsite, rfl⟩
    · exact (hpq.only name s h).imp_right fun ⟨site, hsite, hs⟩ => ⟨site, List.mem_append_left _ hsite, hs⟩
    · exact .inr ⟨site, List.mem_append_right _ hsite, rfl⟩
  defined name h := by
    rw [List.map_append] at h
    rcases List.mem_append.mp h with h | h
    · obtain ⟨s, hs⟩ := Option.isSome_iff_exists.mp (hpq.defined name h)
      exact Option.isSome_of_eq_some (hqr.kept name s hs)
    · exact hqr.defined name h
  entered first name site rest h := by
    -- a label comes from the second list, or from the first one
    have hsecond : ∀ middle, later = middle ++ (name, site) :: rest → r.SymbolErrorAt site ∨
        r.unit.locals.find? name = some (symbolAt a site) ∧ name ∉ (labels ++ middle).map (·.1) ∧
          p.unit.locals.find? name = none := by
      intro middle hlater
      refine (hqr.entered middle name site rest hlater).imp_right ?_
      rintro ⟨hfound, hnew, hnone⟩
      obtain ⟨hnew', hnone'⟩ := hpq.new_of_new hnone
      exact ⟨hfound, by simp_all, hnone'⟩
    rcases List.append_eq_append_iff.mp h with ⟨middle, rfl, hlater⟩ | ⟨middle, hlabels, hlater⟩
    · exact hsecond middle hlater
    · cases middle with
      | nil =>
          rw [List.append_nil] at hlabels
          subst hlabels
          have hcase := hsecond [] hlater.symm
          rwa [List.append_nil] at hcase
      | cons x middle =>
          obtain ⟨rfl, -⟩ := List.cons.inj hlater
          refine (hpq.entered first name site middle hlabels).imp (.extends hqr.more) ?_
          exact fun ⟨hfound, hnew⟩ => ⟨hqr.kept name _ hfound, hnew⟩

end Enters

theorem enters_foldl_enterLabel (labels : List (String × Site)) (p : Placement) :
    Enters labels p.here p (labels.foldl enterLabel p) := by
  induction labels generalizing p with
  | nil => exact .refl _ p
  | cons label labels ih =>
      obtain ⟨hcounters, hsegment⟩ := here_enterLabel p label
      have hrest := ih (p.enterLabel label)
      rw [here, hcounters, hsegment] at hrest
      exact (Enters.single p label).trans hrest

theorem enters_enterLabels (p : Placement) : Enters p.unit.waiting p.here
    { p with unit := { p.unit with waiting := [] } } p.enterLabels :=
  enters_foldl_enterLabel p.unit.waiting { p with unit := { p.unit with waiting := [] } }

/-! ## What steps keep -/

/-- A label waits for its address, or it has one, or it has an error. -/
def Known (p : Placement) (name : String) (site : Site) : Prop :=
  (name, site) ∈ p.unit.waiting ∨ (∃ a, p.unit.locals.find? name = some (symbolAt a site)) ∨
    p.SymbolErrorAt site

/-- The unit has a label of the name. -/
def Defines (p : Placement) (name : String) : Prop :=
  name ∈ p.unit.waiting.map (·.1) ∨ (p.unit.locals.find? name).isSome

/-- A label waits for its address although the unit has its name already, or it has an error. -/
def Repeats (p : Placement) (name : String) (site : Site) : Prop :=
  (∃ first later, p.unit.waiting = first ++ (name, site) :: later ∧
      (name ∈ first.map (·.1) ∨ (p.unit.locals.find? name).isSome)) ∨
    p.SymbolErrorAt site

/-- What is known of symbols in `p` is known in `q`. -/
structure Keeps (p q : Placement) : Prop where
  more : Extends p q
  globals : ∀ name s, p.globals.find? name = some s → q.globals.find? name = some s
  exports : p.unit.exports ⊆ q.unit.exports
  known : ∀ name site, p.Known name site → q.Known name site
  defines : ∀ name, p.Defines name → q.Defines name
  repeats : ∀ name site, p.Repeats name site → q.Repeats name site

namespace Keeps

variable {p q r : Placement}

theorem trans (hpq : Keeps p q) (hqr : Keeps q r) : Keeps p r where
  more := hpq.more.trans hqr.more
  globals name s h := hqr.globals name s (hpq.globals name s h)
  exports := List.Subset.trans hpq.exports hqr.exports
  known name site h := hqr.known name site (hpq.known name site h)
  defines name h := hqr.defines name (hpq.defines name h)
  repeats name site h := hqr.repeats name site (hpq.repeats name site h)

/-- If the labels of the unit stay as they are, and what is visible to all units stays visible, all is kept. -/
theorem of_labels (more : Extends p q) (waiting : p.unit.waiting <+: q.unit.waiting)
    (locals : q.unit.locals = p.unit.locals) (exports : p.unit.exports ⊆ q.unit.exports)
    (globals : ∀ name s, p.globals.find? name = some s → q.globals.find? name = some s) : Keeps p q where
  more := more
  globals := globals
  exports := exports
  known name site h := by
    rw [Known, locals]
    exact h.imp (waiting.subset ·) (.imp_right (.extends more))
  defines name h := by
    rw [Defines, locals]
    exact h.imp_left ((waiting.map _).subset ·)
  repeats name site h := by
    rw [Repeats, locals]
    refine h.imp ?_ (.extends more)
    rintro ⟨first, later, hsplit, hname⟩
    obtain ⟨rest, hrest⟩ := waiting
    exact ⟨first, later ++ rest, by rw [← hrest, hsplit, List.append_assoc, List.cons_append], hname⟩

theorem enterLabels (p : Placement) : Keeps p p.enterLabels := by
  have h := enters_enterLabels p
  have more := (PlacesNothing.enterLabels p).extends
  refine ⟨more, fun name s hs => h.globals ▸ hs, h.exports ▸ List.Subset.refl _, ?_, ?_, ?_⟩
  · rintro name site (hwaiting | ⟨a, ha⟩ | herror)
    · obtain ⟨first, later, hsplit⟩ := List.append_of_mem hwaiting
      exact .inr ((h.entered first name site later hsplit).symm.imp_left fun hfound => ⟨_, hfound.1⟩)
    · exact .inr (.inl ⟨a, h.kept name _ ha⟩)
    · exact .inr (.inr (.extends more herror))
  · rintro name (hwaiting | hsome)
    · exact .inr (h.defined name hwaiting)
    · obtain ⟨s, hs⟩ := Option.isSome_iff_exists.mp hsome
      exact .inr (Option.isSome_of_eq_some (h.kept name s hs))
  · rintro name site (⟨first, later, hsplit, hname⟩ | herror)
    · rcases h.entered first name site later hsplit with herror | ⟨-, hnew, hnone⟩
      · exact .inr herror
      · rcases hname with hname | hsome
        · exact absurd hname hnew
        · replace hnone : p.unit.locals.find? name = none := hnone
          rw [hnone] at hsome
          cases hsome
    · exact .inr (.extends more herror)

end Keeps

/-- **A step keeps what is known of symbols.** -/
theorem SymbolStep.keeps {lines : List TokenLine} {p q : Placement} (h : SymbolStep lines p q) :
    Keeps p q := by
  cases h with
  | other more same =>
      have hwaiting : q.unit.waiting = p.unit.waiting := congrArg Symbols.waiting same
      have hexports : q.unit.exports = p.unit.exports := congrArg Symbols.exports same
      have hglobals : q.globals = p.globals := congrArg Symbols.globals same
      exact .of_labels more (hwaiting ▸ List.prefix_refl _) (congrArg Symbols.locals same)
        (hexports ▸ List.Subset.refl _) fun name s hs => hglobals ▸ hs
  | await =>
      exact .of_labels (PlacesNothing.extends (.of_output_eq (by rfl))) (List.prefix_append _ _) rfl
        (List.Subset.refl _) fun _ _ hs => hs
  | enter => exact .enterLabels p
  | declare =>
      exact .of_labels (PlacesNothing.extends (.of_output_eq (by rfl))) (List.prefix_refl _) rfl
        (List.subset_append_left _ _) fun _ _ hs => hs
  | reserve _ _ added =>
      exact .of_labels (PlacesNothing.extends (.of_output_eq (by rfl))) (List.prefix_refl _) rfl
        (List.Subset.refl _) fun _ _ => (SymbolTable.adds_of_addGlobal added).kept

theorem SymbolSteps.keeps {lines : List TokenLine} {p q : Placement} (h : SymbolSteps lines p q) :
    Keeps p q := by
  induction h with
  | refl =>
      exact .of_labels (.refl p) (List.prefix_refl _) rfl (List.Subset.refl _) fun _ _ hs => hs
  | tail _ hstep ih => exact ih.trans hstep.keeps

/-! ## Where symbols come from -/

/-- All symbols come from some lines of a unit, or all units could see them before. -/
structure Sourced (lines : List TokenLine) (globals : SymbolTable) (p : Placement) : Prop where
  waiting : ∀ l ∈ p.unit.waiting, ∃ line ∈ lines, line.Labels l.1 ∧ l.2.source = line.source
  locals : ∀ name s, p.unit.locals.find? name = some s →
    ∃ line ∈ lines, line.Labels name ∧ s.file = line.source.file ∧ s.line = line.source.number
  exports : ∀ l ∈ p.unit.exports, ∃ line ∈ lines, l.2.source = line.source
  globals : ∀ name s, p.globals.find? name = some s → globals.find? name = some s ∨
    ∃ line ∈ lines, line.Reserves name ∧ s.file = line.source.file ∧ s.line = line.source.number

/-- **A step finds symbols nowhere else than in the lines.** -/
theorem Sourced.step {lines : List TokenLine} {globals : SymbolTable} {p q : Placement}
    (hp : Sourced lines globals p) (h : SymbolStep lines p q) : Sourced lines globals q := by
  cases h with
  | other _ same =>
      have hwaiting : q.unit.waiting = p.unit.waiting := congrArg Symbols.waiting same
      have hlocals : q.unit.locals = p.unit.locals := congrArg Symbols.locals same
      have hexports : q.unit.exports = p.unit.exports := congrArg Symbols.exports same
      have hglobals : q.globals = p.globals := congrArg Symbols.globals same
      exact ⟨hwaiting ▸ hp.waiting, hlocals ▸ hp.locals, hexports ▸ hp.exports, hglobals ▸ hp.globals⟩
  | @await line name hline named column =>
      refine ⟨fun l hl => ?_, hp.locals, hp.exports, hp.globals⟩
      rcases List.mem_append.mp hl with hl | hl
      · exact hp.waiting l hl
      · obtain rfl := List.mem_singleton.mp hl
        exact ⟨line, hline, named, rfl⟩
  | enter =>
      have h := enters_enterLabels p
      refine ⟨fun l hl => ?_, fun name s hs => ?_, h.exports ▸ hp.exports,
        fun name s hs => hp.globals name s (h.globals ▸ hs)⟩
      · rw [h.waiting] at hl
        cases hl
      · rcases h.only name s hs with hs | ⟨site, hsite, rfl⟩
        · exact hp.locals name s hs
        · obtain ⟨line, hline, named, hsource⟩ := hp.waiting _ hsite
          exact ⟨line, hline, named, congrArg SourceLine.file hsource, congrArg SourceLine.number hsource⟩
  | @declare line hline name column =>
      refine ⟨hp.waiting, hp.locals, fun l hl => ?_, hp.globals⟩
      rcases List.mem_append.mp hl with hl | hl
      · exact hp.exports l hl
      · obtain rfl := List.mem_singleton.mp hl
        exact ⟨line, hline, rfl⟩
  | @reserve line label a globals' hline reserves added =>
      refine ⟨hp.waiting, hp.locals, hp.exports, fun name s hs => ?_⟩
      rcases (SymbolTable.adds_of_addGlobal added).only hs with ⟨rfl, rfl⟩ | hs
      · exact .inr ⟨line, hline, reserves, rfl, rfl⟩
      · exact hp.globals name s hs

theorem Sourced.steps {lines : List TokenLine} {globals : SymbolTable} {p q : Placement}
    (hp : Sourced lines globals p) (h : SymbolSteps lines p q) : Sourced lines globals q := by
  induction h with
  | refl => exact hp
  | tail _ hstep ih => exact ih.step hstep

end Placement

end MipsLab
