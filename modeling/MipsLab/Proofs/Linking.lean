import MipsLab.Proofs.LabelUse
import MipsLab.Proofs.LabelWords
import MipsLab.Proofs.PlacedLines

set_option autoImplicit false

/-!
# Linking

A label denotes the same address wherever a program that assembles uses it: the one that the program
gives for its name in the file of the unit, plus the offset that is written there. This holds of the
instructions that use it, when they are executed, and of the words of data that hold it
(`Assembly.linked`).
-/

namespace MipsLab

open Placement

/-- The program has instructions from a line, one at each word from an address on. -/
def AssembledProgram.HasRow (p : AssembledProgram) (line : TokenLine) (a : Word)
    (code : List Instr) : Prop :=
  ∀ k i, code[k]? = some i → ⟨line, a + BitVec.ofNat 32 (4 * k), i⟩ ∈ p.code

/-- The program has instructions from a line, one at each word from an address on, and a machine that
executes them there makes a use of the address `a`. -/
def AssembledProgram.UsesAt (p : AssembledProgram) (line : TokenLine) (start : Word)
    (use : LabelUse) (a : Word) : Prop :=
  ∃ code, p.HasRow line start code ∧ ∀ m : Machine, m.Reachable → m.exitCode = none →
    m.pc = start → m.HasCode m.pc code → m.Uses code use a

namespace Assembly

/-- The program has a line, in the given unit and with all macros expanded, that reads as the given
statement, and the first pass has reached the address `here` when it comes to it. -/
def Stands (options : AssemblyOptions) (units : List SourceUnit) (u : SourceUnit) (line : TokenLine)
    (s : Statement) (here : Word) : Prop :=
  ∃ before after above below, units = before ++ u :: after ∧
    u.expandedLines = above ++ line :: below ∧ Statement.ofTokens line.tokens = .ok s ∧
    here = (reached options before u above).here

/-! ## Labels as units see them -/

/-- Where no two elements have the same key, looking a key up finds its element. -/
theorem find?_of_nodup {α β : Type} [DecidableEq β] {f : α → β} {l : List α}
    (distinct : (l.map f).Nodup) {n : Nat} {x : α} (h : l[n]? = some x) :
    l.find? (fun y => f y == f x) = some x := by
  obtain ⟨hn, rfl⟩ := List.getElem?_eq_some_iff.mp h
  rw [List.find?_eq_some_iff_getElem]
  refine ⟨beq_self_eq_true _, n, hn, rfl, ?_⟩
  intro j hj
  have hkey := List.pairwise_iff_getElem.mp distinct j n (by simp; omega) (by simpa using hn) hj
  rw [List.getElem_map, List.getElem_map] at hkey
  simpa using hkey

section Program

variable {options : AssemblyOptions} {units : List SourceUnit} {p : AssembledProgram}
  (ok : (assemble options units).1 = .ok p)
include ok

/-- The second pass looks labels up as the assembled program does, if no two units have the same
file. -/
theorem lookup_firstPass (distinct : (units.map (·.file)).Nodup) {before after : List SourceUnit}
    {u : SourceUnit} (hu : units = before ++ u :: after) (name : String) :
    (firstPass options units).lookup before.length name = p.addressOf? name u.file := by
  have hscopes := scopes_firstPass (clean_firstPass ok)
  have hunit : (units.map (·.file))[before.length]? = some u.file := by
    rw [hu]
    simp
  rw [← hscopes] at distinct
  rw [← hscopes, List.getElem?_map] at hunit
  obtain ⟨t, ht, hscope⟩ := Option.map_eq_some_iff.mp hunit
  have hfind := find?_of_nodup distinct ht
  obtain ⟨rfl, -⟩ := eq_finish_of_ok ok
  have hlocals : ((firstPass options units).finish options.layout).localsOf? u.file = some t := by
    rw [← hscope]
    exact hfind
  rw [AssembledProgram.addressOf?, hlocals, lookup, ← Array.getElem?_toList, ht]
  rfl

/-- All instructions that were placed could be resolved. -/
theorem exists_code_of_mem_instrs {i : PlacedInstr}
    (hi : i ∈ (firstPass options units).instrs.toList) :
    ∃ j, i.instr.resolve ((firstPass options units).lookup i.unit) i.address = .ok j ∧
      ⟨i.line, i.address, j⟩ ∈ p.code := by
  obtain ⟨rfl, without⟩ := eq_finish_of_ok ok
  cases hresolve : i.instr.resolve ((firstPass options units).lookup i.unit) i.address with
  | ok j =>
      refine ⟨j, rfl, List.mem_mergeSort.mpr (mem_successes.mpr (List.mem_map.mpr ⟨i, hi, ?_⟩))⟩
      rw [resolveInstr, hresolve]
  | error c =>
      have hfailed : Site.report ⟨i.line.source, i.column⟩ c ∈
          failures ((firstPass options units).instrs.toList.map
            (firstPass options units).resolveInstr) := by
        refine mem_failures.mpr (List.mem_map.mpr ⟨i, hi, ?_⟩)
        rw [resolveInstr, hresolve]
      have hwarning := Diagnostics.isWarning_of_mem without
        (List.mem_append_left _ (List.mem_append_left _ (List.mem_append_right _ hfailed)))
      have herror : c.isWarning = false :=
        (SymbolicInstr.resolve_eq_error_iff.mp hresolve).isWarning
      exact absurd hwarning (Bool.eq_false_iff.mp herror)

/-- The instructions for a written one are resolved with the addresses of the program, and stand in
its code one after the other. -/
theorem exists_row {line : TokenLine} {unit column : Nat} {pc : Word} {is : List SymbolicInstr}
    (h : ∀ k i, is[k]? = some i → ⟨unit, line, column, pc + BitVec.ofNat 32 (4 * k), i⟩ ∈
      (firstPass options units).instrs.toList) :
    ∃ code, resolveAll ((firstPass options units).lookup unit) pc is = .ok code ∧
      p.HasRow line pc code ∧ ∀ i ∈ code, i.InRange := by
  induction is generalizing pc with
  | nil => exact ⟨[], rfl, by simp [AssembledProgram.HasRow], by simp⟩
  | cons i is ih =>
      obtain ⟨j, hj, hcode⟩ := exists_code_of_mem_instrs ok (h 0 i rfl)
      have hrest : ∀ k i, is[k]? = some i →
          ⟨unit, line, column, pc + 4 + BitVec.ofNat 32 (4 * k), i⟩ ∈
            (firstPass options units).instrs.toList := by
        intro k i hi
        rw [add_four_add]
        exact h (k + 1) i hi
      obtain ⟨js, hjs, hrow, range⟩ := ih hrest
      rw [Nat.mul_zero, BitVec.add_zero] at hj hcode
      refine ⟨j :: js, ?_, ?_, ?_⟩
      · rw [resolveAll, hj, hjs]
        rfl
      · intro k i hi
        cases k with
        | zero =>
            obtain rfl := Option.some.inj hi
            rwa [Nat.mul_zero, BitVec.add_zero]
        | succ k =>
            rw [← add_four_add]
            exact hrow k i hi
      · exact List.forall_mem_cons.mpr ⟨inRange_of_ok ok _ hcode, range⟩

/-! ## Lines of a program -/

/-- Where a line stands, it is placed without errors, and what it places stays. -/
theorem pass_of_stands {u : SourceUnit} {line : TokenLine} {s : Statement} {here : Word}
    (stands : Stands options units u line s here) :
    ∃ (before after : List SourceUnit) (q : Placement), units = before ++ u :: after ∧
      q.locals.size = before.length ∧ q.here = here ∧ Statement.ofTokens line.tokens = .ok s ∧
      Pass (q.placeLine line) (firstPass options units) ∧ (q.placeLine line).Clean := by
  obtain ⟨before, after, above, below, rfl, hlines, hs, rfl⟩ := stands
  have clean := clean_firstPass ok
  obtain ⟨hpass, hline⟩ := pass_placeLine_reached clean hlines
  exact ⟨before, after, _, rfl, size_reached clean above, rfl, hs, hpass, hline⟩

/-- An instruction of the source that has a label uses the address that the program gives for it. -/
theorem uses_of_stands (distinct : (units.map (·.file)).Nodup) {u : SourceUnit} {line : TokenLine}
    {s : Statement} {here : Word} (stands : Stands options units u line s here) {name : String}
    {operands : List Operand} (hn : s.nucleus = some (.instr name operands)) {l : LabelRef}
    (hl : .label l ∈ operands) :
    ∃ m b, Mnemonic.ofName? name.toLower = some m ∧ p.addressOf? l.name u.file = some b ∧
      p.UsesAt line (Word.alignUp here 4) (m.labelUse operands) (b + Word.ofInt l.offset) := by
  obtain ⟨before, after, q, hu, hsize, rfl, hs, hpass, clean⟩ := pass_of_stands ok stands
  obtain ⟨is, column, hlower, hplaced⟩ := mem_instrs_placeLine hs clean hn
  rw [hsize] at hplaced
  obtain ⟨code, resolved, hrow, range⟩ :=
    exists_row ok (fun k i hi => hpass.extends.instrs.subset (hplaced k i hi))
  obtain ⟨m, a, named, ha, uses⟩ := usesIn_of_lower hlower hl resolved
  obtain ⟨b, hb, rfl⟩ := SymbolicInstr.addressOf_eq_ok ha
  rw [lookup_firstPass ok distinct hu] at hb
  refine ⟨m, b, named, hb, code, hrow, ?_⟩
  intro n hreachable going hpc placed
  exact Machine.uses_of_usesIn hreachable going placed range (uses n.snapshot hpc hreachable.get_zero)

/-- A label in a `.word` directive of the source is replaced by the address that the program gives for
it. -/
theorem holdsWord_of_stands (distinct : (units.map (·.file)).Nodup) {u : SourceUnit} {line : TokenLine}
    {s : Statement} {here : Word} (stands : Stands options units u line s here)
    {operands : List Operand} (hn : s.nucleus = some (.directive "word" operands)) {k : Nat}
    {l : LabelRef} (hl : operands[k]? = some (.label l)) :
    ∃ b, p.addressOf? l.name u.file = some b ∧
      p.HoldsWord (Word.alignUp here 4 + BitVec.ofNat 32 (4 * k)) (b + Word.ofInt l.offset) := by
  obtain ⟨before, after, q, hu, hsize, rfl, hs, hpass, clean⟩ := pass_of_stands ok stands
  obtain ⟨site, hplaced⟩ := mem_labelWords_placeLine hs clean hn hl
  obtain ⟨a, ha, holds⟩ := holdsWord_of_mem_labelWords ok (hpass.extends.labelWords.subset hplaced)
  dsimp only at ha holds
  obtain ⟨b, hb, rfl⟩ := SymbolicInstr.addressOf_eq_ok ha
  rw [hsize, lookup_firstPass ok distinct hu] at hb
  exact ⟨b, hb, holds⟩

end Program

/-- **A label denotes one address in a program that assembles, and resolving fails for nothing but
what is out of reach.** Take a program of units with distinct files that assembles, a line in one of
them, and a label with an offset on this line. The label's address in the program, as this unit sees
it, plus the offset, is what the instructions of the line use when they are executed: the value that
is loaded, the address that is accessed, or the target of the branch or jump. In a `.word` directive,
it is the word that the data of the program holds. An instruction cannot be resolved exactly if its
label is neither in the table of its unit nor in that of all units, or if it is a branch or jump that
does not reach its target. -/
theorem linked :
    (∀ (options : AssemblyOptions) (units : List SourceUnit) (p : AssembledProgram),
      (assemble options units).1 = .ok p → (units.map (·.file)).Nodup →
      ∀ (u : SourceUnit) (line : TokenLine) (s : Statement) (here : Word),
        Stands options units u line s here → ∀ (operands : List Operand) (l : LabelRef),
        (∀ name, s.nucleus = some (.instr name operands) → .label l ∈ operands →
          ∃ m b, Mnemonic.ofName? name.toLower = some m ∧ p.addressOf? l.name u.file = some b ∧
            p.UsesAt line (Word.alignUp here 4) (m.labelUse operands) (b + Word.ofInt l.offset)) ∧
        (∀ k, s.nucleus = some (.directive "word" operands) → operands[k]? = some (.label l) →
          ∃ b, p.addressOf? l.name u.file = some b ∧
            p.HoldsWord (Word.alignUp here 4 + BitVec.ofNat 32 (4 * k)) (b + Word.ofInt l.offset))) ∧
    ∀ (q : Placement) (unit : Nat) (locals : SymbolTable), q.locals[unit]? = some locals →
      (∀ name, q.lookup unit name = none ↔
        locals.find? name = none ∧ q.globals.find? name = none) ∧
      ∀ pc i c, i.resolve (q.lookup unit) pc = .error c ↔
        SymbolicInstr.Unresolvable (q.lookup unit) pc i c := by
  constructor
  · intro options units p ok distinct u line s here stands operands l
    exact ⟨fun name hn hl => uses_of_stands ok distinct stands hn hl,
      fun k hn hl => holdsWord_of_stands ok distinct stands hn hl⟩
  · intro q unit locals hlocals
    refine ⟨fun name => ?_, fun pc i c => SymbolicInstr.resolve_eq_error_iff⟩
    rw [lookup, hlocals, Option.bind_some, SymbolTable.addressOf?, SymbolTable.addressOf?]
    cases locals.find? name <;> simp

/-- A label that one unit exports, in a jump of this unit and in a word of another one. -/
theorem linked_exportedLabel :
    let a : SourceUnit := .ofText "a.s" ".globl main\nmain: j main"
    let b : SourceUnit := .ofText "b.s" ".data\nptr: .word 7, main+4"
    ∃ p, (assemble {} [a, b]).1 = .ok p ∧ p.HoldsWord 0x10010004 0x00400004 ∧
      ((Machine.initial {}).load p).Uses [.jump false 0x100000] .target 0x00400000 := by
  intro a b
  have hprogram : (assemble {} [a, b]).1.toOption.map (fun p =>
      (p.addressOf? "main" "a.s", p.addressOf? "main" "b.s",
        p.code.map fun c => (c.address, c.instr))) =
      some (some 0x00400000, some 0x00400000, [(0x00400000, .jump false 0x100000)]) := by
    decide +kernel
  have hmachine : (assemble {} [a, b]).1.toOption.map (fun p =>
      let n := (Machine.initial {}).load p
      (n.pc, n.nextWord, n.layout.inText n.pc, n.code.any fun code => code.contains n.pc.toNat)) =
      some (0x00400000, 0x08100000, true, true) := by decide +kernel
  obtain ⟨p, hp, hprogram⟩ := Option.map_eq_some_iff.mp hprogram
  rw [hp] at hmachine
  simp only [Option.map_some, Option.some.injEq, Prod.mk.injEq] at hprogram hmachine
  obtain ⟨hmainA, hmainB, hcode⟩ := hprogram
  obtain ⟨hpc, hword, htext, hcontains⟩ := hmachine
  have ok : (assemble {} [a, b]).1 = .ok p := eq_ok_of_toOption hp
  have hlinked := linked.1 {} [a, b] p ok (by decide)
  let lineA := a.expandedLines.getLast (by decide +kernel)
  let lineB := b.expandedLines.getLast (by decide +kernel)
  have standsA : Stands {} [a, b] a lineA ⟨[("main", ⟨0, 4⟩)],
      some (.instr "j" [.label ⟨"main", 0⟩]), ⟨6, 12⟩⟩ 0x00400000 :=
    ⟨[], [b], a.expandedLines.dropLast, [], rfl, (List.dropLast_concat_getLast _).symm,
      by decide +kernel, by decide +kernel⟩
  have standsB : Stands {} [a, b] b lineB ⟨[("ptr", ⟨0, 3⟩)],
      some (.directive "word" [.imm 7, .label ⟨"main", 4⟩]), ⟨5, 20⟩⟩ 0x10010000 :=
    ⟨[a], [], b.expandedLines.dropLast, [], rfl, (List.dropLast_concat_getLast _).symm,
      by decide +kernel, by decide +kernel⟩
  refine ⟨p, ok, ?_, ?_⟩
  · obtain ⟨main, hmain, holds⟩ := (hlinked b lineB _ _ standsB _ ⟨"main", 4⟩).2 1 rfl rfl
    obtain rfl := Option.some.inj (hmainB.symm.trans hmain)
    exact holds
  · obtain ⟨m, main, named, hmain, code, hrow, uses⟩ :=
      (hlinked a lineA _ _ standsA _ ⟨"main", 0⟩).1 "j" rfl (List.mem_singleton_self _)
    obtain rfl := Option.some.inj (hmainA.symm.trans hmain)
    have hnamed : Mnemonic.ofName? "j".toLower = some (.jump false) := by decide +kernel
    obtain rfl := Option.some.inj (hnamed.symm.trans named)
    have hreachable : ((Machine.initial {}).load p).Reachable := .load p (.initial {})
    have hplace : ∀ k i, code[k]? = some i →
        (Word.alignUp 0x00400000 4 + BitVec.ofNat 32 (4 * k), i) =
          (0x00400000, .jump false 0x100000) := by
      intro k i hi
      have hmem := List.mem_map_of_mem (f := fun c : CodeWord => (c.address, c.instr)) (hrow k i hi)
      rw [hcode] at hmem
      exact List.mem_singleton.mp hmem
    have hat : ((Machine.initial {}).load p).AtCode := by
      refine ⟨⟨?_, htext⟩, (Option.any_eq_true _ _).mp hcontains⟩
      rw [hpc]
      rfl
    cases code with
    | nil =>
        obtain ⟨is, i, -, -, split, -⟩ := uses _ hreachable rfl hpc trivial
        simp at split
    | cons x rest =>
        obtain rfl : x = .jump false 0x100000 := (Prod.mk.inj (hplace 0 x rfl)).2
        cases rest with
        | nil => exact uses _ hreachable rfl hpc ⟨hat, hword, trivial⟩
        | cons y rest =>
            have haddress := (Prod.mk.inj (hplace 1 y rfl)).1
            exact absurd haddress (by decide)

end Assembly

end MipsLab
