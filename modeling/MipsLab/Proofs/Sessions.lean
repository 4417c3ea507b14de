import MipsLab.Proofs.AllOrNothing
import Mathlib.Data.List.Forall2

set_option autoImplicit false

/-!
# Units that are used again and again

Units keep tokens, macros, tables and code from one use to the next. None of it matters to what is assembled
later: a session keeps, for each unit, that it has the lines of its text and that its tokens, if any, are those
of its lines (`Session.holding_run`), and the first pass reads nothing else of a unit
(`Assembly.placeUnit_of_holds`). So a slice of a session is assembled like fresh units with the same texts
(`Session.assemble_session`).
-/

namespace MipsLab

namespace SourceUnit

/-! ## What a unit holds -/

/-- The unit has the lines of a text, and its tokens, if it has any, are those of its lines. -/
structure Holds (u : SourceUnit) (file text : String) : Prop where
  file_eq : u.file = file
  lines_eq : u.lines = SourceLine.ofText file text
  current : u.Current

theorem holds_ofText (file text : String) : (ofText file text).Holds file text :=
  ⟨rfl, rfl, nofun⟩

theorem holds_empty (file : String) : (empty file).Holds file "" :=
  ⟨rfl, rfl, nofun⟩

namespace Holds

variable {u v : SourceUnit} {file text : String}

theorem of_eq (h : u.Holds file text) (tokens : v.tokens = u.tokens) (lines : v.lines = u.lines)
    (sameFile : v.file = u.file) : v.Holds file text :=
  ⟨sameFile.trans h.file_eq, lines.trans h.lines_eq, h.current.of_eq tokens lines⟩

theorem setText (h : u.Holds file text) (new : String) : (u.setText new).Holds file new :=
  h.file_eq ▸ holds_ofText u.file new

theorem tokenize (h : u.Holds file text) : u.tokenize.1.Holds file text := by
  obtain ⟨hlines, hfile⟩ := source_tokenize u
  exact ⟨hfile.trans h.file_eq, hlines.trans h.lines_eq, current_tokenize u⟩

theorem read (h : u.Holds file text) : u.read.1.Holds file text := by
  unfold SourceUnit.read
  split
  · exact h
  · exact h.tokenize

theorem expanded (h : u.Holds file text) : u.expanded.Holds file text := by
  obtain ⟨htokens, hlines, hfile⟩ := tokens_expanded u
  exact h.read.of_eq htokens hlines (hfile.trans (file_read u).symm)

/-- **What is read of a unit is read of its text.** -/
theorem read_eq_read (hu : u.Holds file text) (hv : v.Holds file text) :
    u.read.1.tokens = v.read.1.tokens ∧ (u.read.1.tokens = none → u.read.2 = v.read.2) := by
  have hlines : u.lines = v.lines := hu.lines_eq.trans hv.lines_eq.symm
  rcases read_eq hu.current with ⟨hsome, hnil⟩ | ⟨hnone, herrors, hne⟩ <;>
    rcases read_eq hv.current with ⟨hsome', hnil'⟩ | ⟨hnone', herrors', hne'⟩ <;>
    rw [← hlines] at *
  · rw [hsome, hsome']
    exact ⟨rfl, nofun⟩
  · exact absurd hnil hne'
  · exact absurd hnil' hne
  · exact ⟨hnone.trans hnone'.symm, fun _ => herrors.trans herrors'.symm⟩

end Holds

/-- Each unit holds its text. -/
abbrev Holding : List SourceUnit → List (String × String) → Prop :=
  List.Forall₂ fun u s => u.Holds s.1 s.2

/-- Units made from files and texts. -/
def fresh (texts : List (String × String)) : List SourceUnit := texts.map fun s => ofText s.1 s.2

end SourceUnit

namespace Assembly

open SourceUnit

section Holds

variable {u v : SourceUnit} {file text : String}

theorem expandedLines_of_holds (hu : u.Holds file text) (hv : v.Holds file text) :
    u.expandedLines = v.expandedLines := by
  unfold expandedLines
  rw [(hu.read_eq_read hv).1]

theorem reportsOf_of_holds (hu : u.Holds file text) (hv : v.Holds file text) : reportsOf u = reportsOf v := by
  obtain ⟨htokens, herrors⟩ := hu.read_eq_read hv
  unfold reportsOf
  rw [← htokens]
  split
  · rfl
  case h_2 hnone => exact herrors hnone

/-- **The first pass reads the text of a unit and nothing else.** -/
theorem placeUnit_of_holds (p : Placement) (hu : u.Holds file text) (hv : v.Holds file text) :
    (placeUnit p u).1 = (placeUnit p v).1 := by
  rw [placeUnit_eq, placeUnit_eq, (hu.read_eq_read hv).1, reportsOf_of_holds hu hv, expandedLines_of_holds hu hv]
  unfold beginUnit
  rw [reportsOf_of_holds hu hv, hu.file_eq, hv.file_eq]

/-- Once a unit was read, the first pass leaves nothing of what it held before but its code and labels. -/
theorem install_expanded_of_holds {program : AssembledProgram} (hu : u.Holds file text) (hv : v.Holds file text)
    (readable : u.read.1.tokens ≠ none) {t : SymbolTable} (ht : program.localsOf? file = some t) :
    install program u.expanded = install program v.expanded := by
  obtain ⟨tokens, htokens⟩ := Option.ne_none_iff_exists'.mp readable
  have hu' := hu.expanded
  have hv' := hv.expanded
  have htokens' := (hu.read_eq_read hv).1 ▸ htokens
  have hmacros : u.expanded.macros = v.expanded.macros := by
    unfold expanded
    rw [htokens, htokens']
    rfl
  have htokensEq : u.expanded.tokens = v.expanded.tokens := by
    rw [(tokens_expanded u).1, (tokens_expanded v).1, htokens, htokens']
  unfold install
  rw [hu'.file_eq, hv'.file_eq, hu'.lines_eq, hv'.lines_eq, htokensEq, hmacros, ht]
  rfl

end Holds

/-- All units of a program could be read. -/
theorem readable_of_ok {options : AssemblyOptions} {units : List SourceUnit} {program : AssembledProgram}
    (ok : (assemble options units).1 = .ok program) {u : SourceUnit} (hu : u ∈ units) :
    u.read.1.tokens ≠ none := by
  intro hnone
  obtain ⟨before, after, rfl⟩ := List.append_of_mem hu
  obtain ⟨rfl, without, -⟩ := (ok_iff _ _ _).mp ok
  obtain ⟨d, hd, herror⟩ := List.any_eq_true.mp (hasErrors_read hnone)
  have hreports : reportsOf u = u.read.2 := by rw [reportsOf, hnone]
  have hwarnings := reportsOf_subset options before after (hreports ▸ hd)
  exact Bool.false_ne_true (without.symm.trans (List.any_eq_true.mpr ⟨d, hwarnings, herror⟩))

/-- A program has a table for the file of each of its units. -/
theorem table_of_ok {options : AssemblyOptions} {units : List SourceUnit} {program : AssembledProgram}
    (ok : (assemble options units).1 = .ok program) {u : SourceUnit} (hu : u ∈ units) :
    ∃ t, program.localsOf? u.file = some t := by
  have hscopes := scopes_firstPass (clean_firstPass ok)
  obtain ⟨rfl, -⟩ := (ok_iff _ _ _).mp ok
  obtain ⟨t, ht, hfile⟩ := List.mem_map.mp (hscopes ▸ List.mem_map_of_mem hu)
  exact Option.isSome_iff_exists.mp (List.find?_isSome.mpr ⟨t, ht, beq_iff_eq.mpr hfile⟩)

section Holding

variable {units : List SourceUnit} {texts : List (String × String)} (h : Holding units texts)
include h

theorem placeUnits_of_holding (p : Placement) :
    (placeUnits p units).1 = (placeUnits p (fresh texts)).1 := by
  induction h generalizing p with
  | nil => rfl
  | @cons u s _ _ hu _ ih =>
      have hstep (v : SourceUnit) (rest : List SourceUnit) :
          (placeUnits p (v :: rest)).1 = (placeUnits (placeUnit p v).1 rest).1 := rfl
      rw [fresh, List.map_cons, hstep, hstep, placeUnit_of_holds p hu (holds_ofText s.1 s.2), ih]
      rfl

theorem firstPass_of_holding (options : AssemblyOptions) :
    firstPass options units = firstPass options (fresh texts) :=
  placeUnits_of_holding h _

/-- Assembling units does not change their texts. -/
theorem holding_assemble (options : AssemblyOptions) : Holding (assemble options units).2 texts := by
  have hmap (f : SourceUnit → SourceUnit) (hf : ∀ u, (f u).tokens = u.tokens ∧ (f u).lines = u.lines ∧
      (f u).file = u.file) : Holding ((units.map (·.expanded)).map f) texts := by
    rw [List.map_map]
    refine List.forall₂_map_left_iff.mpr (h.imp fun u s hu => ?_)
    obtain ⟨htokens, hlines, hfile⟩ := hf u.expanded
    exact hu.expanded.of_eq htokens hlines hfile
  unfold assemble
  dsimp only
  rw [snd_placeUnits]
  split
  · exact hmap _ fun u => ⟨rfl, rfl, rfl⟩
  · exact hmap _ fun u => ⟨rfl, rfl, rfl⟩

theorem draft_of_holding (options : AssemblyOptions) : draft options units = draft options (fresh texts) := by
  unfold draft
  rw [firstPass_of_holding h options]

/-- **Units are assembled like fresh ones with the same texts**, and after success nothing tells them apart. -/
theorem assemble_of_holding (options : AssemblyOptions) :
    (assemble options units).1 = (assemble options (fresh texts)).1 ∧
      ∀ program, (assemble options units).1 = .ok program →
        (assemble options units).2 = (assemble options (fresh texts)).2 := by
  have hdraft := draft_of_holding h options
  refine ⟨?_, fun program ok => ?_⟩
  · rw [assemble_eq, assemble_eq, hdraft]
    split <;> rfl
  · have hready : ∀ u ∈ units, u.read.1.tokens ≠ none ∧ ∃ t, program.localsOf? u.file = some t :=
      fun u hu => ⟨readable_of_ok ok hu, table_of_ok ok hu⟩
    have hunits := (List.forall₂_and_left units texts).mpr ⟨hready, h⟩
    obtain ⟨rfl, hallowed⟩ := (ok_iff options units program).mp ok
    rw [← AssemblyOptions.refuses_eq_false_iff] at hallowed
    rw [assemble_eq, assemble_eq, ← hdraft, hallowed, if_neg nofun, if_neg nofun]
    dsimp only
    rw [fresh, List.map_map, List.map_map, List.map_map, ← List.forall₂_eq_eq_eq, List.forall₂_map_left_iff,
      List.forall₂_map_right_iff]
    refine hunits.imp fun u s hu => ?_
    obtain ⟨⟨readable, t, ht⟩, holds⟩ := hu
    exact install_expanded_of_holds holds (holds_ofText s.1 s.2) readable (holds.file_eq ▸ ht)

end Holding

end Assembly

/-! ## Sessions -/

namespace Session

open SourceUnit Assembly

/-- What can be done with a list of units. Units are named by their index, and slices by their first index
and their length. -/
inductive Op where
  | new (file : String)
  | fromText (file text : String)
  | setText (i : Nat) (text : String)
  | tokenize (i : Nat)
  | createPool (i : Nat)
  | setPool (i : Nat) (pool : MacroPool)
  | assemble (options : AssemblyOptions) (start count : Nat)

/-- The elements of a list from an index on, at most as many as given. -/
def slice {α : Type} (start count : Nat) (l : List α) : List α := (l.drop start).take count

/-- What an operation does to the units. -/
def Op.run : Op → List SourceUnit → List SourceUnit
  | new file, units => units ++ [.empty file]
  | fromText file text, units => units ++ [.ofText file text]
  | setText i text, units => units.modify i (·.setText text)
  | tokenize i, units => units.modify i (·.tokenize.1)
  | createPool i, units => units.modify i (·.createPool)
  | setPool i pool, units => units.modify i (·.setPool pool)
  | assemble options start count, units =>
      units.take start ++ (Assembly.assemble options (slice start count units)).2 ++
        (units.drop start).drop count

/-- What an operation does to the files and texts of the units. -/
def Op.edit : Op → List (String × String) → List (String × String)
  | new file, texts => texts ++ [(file, "")]
  | fromText file text, texts => texts ++ [(file, text)]
  | setText i text, texts => texts.modify i fun (file, _) => (file, text)
  | tokenize _, texts | createPool _, texts | setPool _ _, texts | assemble .., texts => texts

/-- The units at the end of a session. -/
def units (ops : List Op) : List SourceUnit := ops.foldl (fun units op => op.run units) []

/-- The files and texts of the units at the end of a session. -/
def texts (ops : List Op) : List (String × String) := ops.foldl (fun texts op => op.edit texts) []

theorem forall₂_modify {α β : Type} {R : α → β → Prop} {f : α → α} {g : β → β} {l : List α} {m : List β}
    (h : List.Forall₂ R l m) (hfg : ∀ a b, R a b → R (f a) (g b)) (i : Nat) :
    List.Forall₂ R (l.modify i f) (m.modify i g) := by
  induction h generalizing i with
  | nil => cases i <;> exact .nil
  | cons hab hrest ih =>
      cases i with
      | zero => exact .cons (hfg _ _ hab) hrest
      | succ i => exact .cons hab (ih i)

/-- Changing a unit without changing its text. -/
theorem holding_modify {units : List SourceUnit} {texts : List (String × String)}
    (h : Holding units texts) {f : SourceUnit → SourceUnit}
    (hf : ∀ u file text, u.Holds file text → (f u).Holds file text) (i : Nat) :
    Holding (units.modify i f) texts := by
  have hmodify := forall₂_modify h (g := id) (fun u s => hf u s.1 s.2) i
  rwa [List.modify_id] at hmodify

/-- **Each operation keeps what the units hold.** -/
theorem holding_run {units : List SourceUnit} {texts : List (String × String)} (h : Holding units texts)
    (op : Op) : Holding (op.run units) (op.edit texts) := by
  cases op with
  | new file => exact List.rel_append h (.cons (holds_empty file) .nil)
  | fromText file text => exact List.rel_append h (.cons (holds_ofText file text) .nil)
  | setText i text => exact forall₂_modify h (fun _ _ hu => hu.setText text) i
  | tokenize i => exact holding_modify h (fun _ _ _ hu => hu.tokenize) i
  | createPool i => exact holding_modify h (f := createPool) (fun _ _ _ hu => hu.of_eq rfl rfl rfl) i
  | setPool i pool =>
      exact holding_modify h (f := (·.setPool pool)) (fun _ _ _ hu => hu.of_eq rfl rfl rfl) i
  | assemble options start count =>
      have hslice := holding_assemble (List.forall₂_take count (List.forall₂_drop start h)) options
      have hparts : texts.take start ++ (texts.drop start).take count ++ (texts.drop start).drop count =
          texts := by rw [List.append_assoc, List.take_append_drop, List.take_append_drop]
      -- the units outside of the slice are left as they are
      show Holding _ texts
      rw [← hparts]
      exact List.rel_append (List.rel_append (List.forall₂_take start h) hslice)
        (List.forall₂_drop count (List.forall₂_drop start h))

/-- What the units hold at the end of a session. -/
theorem holding (ops : List Op) : Holding (units ops) (texts ops) := by
  have hrun (units : List SourceUnit) (texts : List (String × String)) (h : Holding units texts) :
      Holding (ops.foldl (fun units op => op.run units) units)
        (ops.foldl (fun texts op => op.edit texts) texts) := by
    induction ops generalizing units texts with
    | nil => exact h
    | cons op ops ih => exact ih _ _ (holding_run h op)
  exact hrun [] [] .nil

/-- **Assembly does not depend on the session before.** After any operations on the units, a slice of them is
assembled like fresh units with the same files and the texts that they have now: to the same program, or with
the same diagnostics in the same order. After success the units hold the same as the fresh ones. -/
theorem assemble_session (ops : List Op) (options : AssemblyOptions) (start count : Nat) :
    (assemble options (slice start count (units ops))).1 =
        (assemble options (fresh (slice start count (texts ops)))).1 ∧
      ∀ program, (assemble options (slice start count (units ops))).1 = .ok program →
        (assemble options (slice start count (units ops))).2 =
          (assemble options (fresh (slice start count (texts ops)))).2 :=
  assemble_of_holding (List.forall₂_take count (List.forall₂_drop start (holding ops))) options

/-- A unit that cannot be read at first, and one whose tokens and code are out of date, with an assembly that
fails and one that succeeds between the edits. -/
theorem assemble_session_edited :
    let ops : List Op := [.fromText "a.s" "main: \"", .new "b.s", .tokenize 0, .assemble {} 0 2,
      .setText 0 ".globl x", .setText 1 "main: syscall", .tokenize 1, .setPool 1 .empty, .assemble {} 1 1,
      .setText 0 ".data\nx: .word main", .setText 1 ".globl main\nmain: break 7"]
    ∃ program, (assemble {} (slice 0 2 (units ops))).1 = .ok program ∧
      program.code.map (·.instr) = [.brk 7] ∧
      program.data = [⟨0x10010000, [0x00, 0x00, 0x40, 0x00]⟩] ∧
      texts ops = [("a.s", ".data\nx: .word main"), ("b.s", ".globl main\nmain: break 7")] ∧
      (assemble {} (fresh (texts ops))).1 = .ok program ∧
      (assemble {} (slice 0 2 (units ops))).2 = (assemble {} (fresh (texts ops))).2 := by
  intro ops
  have hran : (assemble {} (slice 0 2 (units ops))).1.toOption.map
      (fun p => (p.code.map (·.instr), p.data)) =
        some ([.brk 7], [⟨0x10010000, [0x00, 0x00, 0x40, 0x00]⟩]) := by decide +kernel
  obtain ⟨program, hprogram, hparts⟩ := Option.map_eq_some_iff.mp hran
  obtain ⟨hcode, hdata⟩ := Prod.mk.inj hparts
  have ok := eq_ok_of_toOption hprogram
  obtain ⟨hresult, hunits⟩ := assemble_session ops {} 0 2
  exact ⟨program, ok, hcode, hdata, rfl, hresult.symm.trans ok, hunits program ok⟩

end Session

end MipsLab
