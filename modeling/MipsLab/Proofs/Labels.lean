import MipsLab.Proofs.CodeOrder
import MipsLab.Proofs.ProgramSymbols

set_option autoImplicit false

/-!
# What labels denote

A label denotes what follows it. The first line from its own on that places an item or changes the segment
settles it (`Spot.settler?`): it gets the address of the item, after its alignment, or the address that
the segment has come to. Without such a line it gets the address that its segment has come to at the end
of the unit (`Assembly.labels_denote`).
-/

namespace MipsLab

/-! ## Instructions that an instruction stands for -/

namespace Lowering

theorem loadConstant_ne_nil (rt : Reg) (value : Int) : loadConstant rt value ≠ [] := by
  unfold loadConstant
  dsimp only
  split
  · simp
  · split <;> simp

theorem afterConstant_ne_nil (value : Int) (i : SymbolicInstr) : afterConstant value i ≠ [] := by
  simp [afterConstant]

theorem aluConstant_ne_nil (op : AluOp) (rd rs : Reg) (value : Int) : aluConstant op rd rs value ≠ [] := by
  unfold aluConstant
  split
  · split
    · simp
    · exact afterConstant_ne_nil _ _
  · exact afterConstant_ne_nil _ _

theorem memoryAccess?_ne_nil {direct : Reg → Reg → Half → SymbolicInstr}
    {labelled : Reg → LabelRef → SymbolicInstr} {operands : List Operand} {is : List SymbolicInstr}
    (h : memoryAccess? direct labelled operands = some is) : is ≠ [] := by
  unfold memoryAccess? at h
  split at h
  case h_2 => split at h <;> cases h <;> simp
  all_goals cases h
  all_goals simp

theorem division?_ne_nil {op : MulDivOp} {result : HiLo} {rd rs : Reg} {divisor : Operand}
    {is : List SymbolicInstr} (h : division? op result rd rs divisor = some is) : is ≠ [] := by
  obtain ⟨⟨setup, rt⟩, -, h⟩ := Option.bind_eq_some_iff.mp h
  cases h
  simp

theorem compareAndBranch?_ne_nil {c : Comparison} {signed : Bool} {rs : Reg} {other : Operand}
    {l : LabelRef} {is : List SymbolicInstr} (h : compareAndBranch? c signed rs other l = some is) :
    is ≠ [] := by
  obtain ⟨⟨setup, rt⟩, -, h⟩ := Option.bind_eq_some_iff.mp h
  cases h
  simp

/-- An expansion has at least one instruction. -/
theorem expansion?_ne_nil {m : Mnemonic} {operands : List Operand} {is : List SymbolicInstr}
    (h : expansion? m operands = some is) : is ≠ [] := by
  cases m with
  | load | store =>
      simp only [expansion?] at h
      exact memoryAccess?_ne_nil h
  | alu | subImm =>
      simp only [expansion?] at h
      split at h <;> cases h
      exact aluConstant_ne_nil _ _ _ _
  | aluImm | branch | mul =>
      simp only [expansion?] at h
      split at h <;> cases h
      exact afterConstant_ne_nil _ _
  | li =>
      simp only [expansion?] at h
      split at h <;> cases h
      exact loadConstant_ne_nil _ _
  | la =>
      simp only [expansion?] at h
      split at h
      · cases h
        simp [loadAddress]
      · cases h
        exact loadConstant_ne_nil _ _
      · split at h <;> cases h
        · simp
        · exact afterConstant_ne_nil _ _
      · cases h
  | move | not | neg | always | branchZero =>
      simp only [expansion?] at h
      split at h <;> cases h
      simp
  | mulDiv op =>
      cases op
      case div | divu =>
        simp only [expansion?] at h
        split at h
        · exact division?_ne_nil h
        · cases h
      all_goals cases h
  | rem =>
      simp only [expansion?] at h
      split at h
      · exact division?_ne_nil h
      · cases h
  | compare =>
      simp only [expansion?] at h
      split at h
      · exact compareAndBranch?_ne_nil h
      · cases h
  | _ => cases h

end Lowering

/-- A written instruction stands for at least one machine instruction. -/
theorem lower_ne_nil {name : String} {operands : List Operand} {extended : Bool}
    {is : List SymbolicInstr} (h : lower name operands extended = .ok is) : is ≠ [] := by
  obtain ⟨m, -, ⟨i, -, rfl⟩ | hexpansion⟩ := mnemonic_of_lower h
  · exact List.cons_ne_nil _ _
  · exact Lowering.expansion?_ne_nil hexpansion

/-! ## Settling -/

/-- A directive settles labels if it places data or changes the segment. -/
theorem Role.settled?_ofDirective {name : String} {operands : List Operand} {x position : Nat}
    (h : (ofDirective name operands).settled? x = some position) :
    if (Segment.ofDirective? name).isSome then position = x
    else Placement.dataDirectives.contains name = true ∧ position = roundUp x (alignment name operands) := by
  unfold ofDirective at h
  split at h
  case h_1 s hs =>
    rw [hs]
    exact (Option.some.inj h).symm
  case h_2 hs =>
    rw [hs]
    split at h
    · cases h
    split at h
    · split at h <;> cases h
    split at h
    · next hdata => exact ⟨hdata, (Option.some.inj h).symm⟩
    · cases h

namespace Spot

/-- The line that settles the labels of a line. -/
def settler? (extended : Bool) (x : Spot) : Option Spot :=
  (ofLines extended x.unit x.cursor (x.line :: x.below)).find? fun y =>
    (y.role.settled? y.cursor.here).isSome

/-- Labels get the position that the first line gives that settles them, or where the lines lead to. -/
theorem settle_eq (extended : Bool) (unit : Nat) (c : Cursor) (lines : List TokenLine) :
    c.settle extended lines =
      (((ofLines extended unit c lines).find? fun y => (y.role.settled? y.cursor.here).isSome).bind
        fun y => y.role.settled? y.cursor.here).getD (c.through extended lines).here := by
  induction lines generalizing c with
  | nil => rfl
  | cons line below ih =>
      rw [Cursor.settle, Cursor.through, ofLines]
      cases hs : Statement.ofTokens line.tokens with
      | error e => exact ih c
      | ok s =>
          dsimp only
          rw [List.find?_cons]
          cases hsettled : (Role.ofNucleus extended s.nucleus).settled? c.here with
          | some y => simp [hsettled]
          | none =>
              rw [c.after_of_settled?_eq_none hsettled]
              simpa [hsettled] using ih c

end Spot

namespace AssembledProgram

/-- An address is what a label of a line denotes: that of the first word of the next instruction or of
the next item of data, after its alignment, or the one that the segment has come to at the next change
of segment or at the end of the unit. -/
def LabelAt (p : AssembledProgram) (extended : Bool) (x : Spot) (a : Word) : Prop :=
  match x.settler? extended with
  | none => a = addressAt (x.cursor.through extended (x.line :: x.below)).here
  | some y =>
    match y.statement.nucleus with
    | none => False
    | some (.instr _ _) => (p.row y).head?.map (·.address) = some a
    | some (.directive name operands) =>
      if (Segment.ofDirective? name).isSome then a = addressAt y.cursor.here
      else Placement.dataDirectives.contains name = true ∧
        a = addressAt (roundUp y.cursor.here (Role.alignment name operands))

end AssembledProgram

namespace Assembly

open Placement

section Program

variable {options : AssemblyOptions} {units : List SourceUnit} {p : AssembledProgram}
  (ok : (assemble options units).1 = .ok p)
include ok

/-- The first word of an instruction stands at the next multiple of four. -/
theorem head?_row {y : Spot} (hy : y ∈ spots options units) {name : String} {operands : List Operand}
    (hn : y.statement.nucleus = some (.instr name operands)) :
    (p.row y).head?.map (·.address) = some (addressAt (roundUp y.cursor.here 4)) := by
  have hrow := isRow_row ok hy
  rw [AssembledProgram.IsRow, hn] at hrow
  obtain ⟨is, lowered, -, hcode⟩ := hrow
  obtain ⟨i, rest, rfl⟩ := List.exists_cons_of_ne_nil (lower_ne_nil lowered)
  obtain ⟨j, hj, -⟩ := hcode 0 i rfl
  rw [List.head?_eq_getElem?, hj]
  rfl

/-- The symbol of a label has the address that the label denotes. -/
theorem labelAt_symbol {x : Spot} (hx : x ∈ spots options units) :
    p.LabelAt options.extended x (x.symbol options.extended).address := by
  have hsymbol : (x.symbol options.extended).address =
      addressAt (x.cursor.settle options.extended (x.line :: x.below)) := rfl
  rw [hsymbol, Spot.settle_eq options.extended x.unit]
  unfold AssembledProgram.LabelAt
  cases hsettler : x.settler? options.extended with
  | none =>
      dsimp only
      unfold Spot.settler? at hsettler
      rw [hsettler]
      rfl
  | some y =>
      unfold Spot.settler? at hsettler
      have hmem := List.mem_of_find?_eq_some hsettler
      have hsettles := List.find?_some hsettler
      obtain ⟨position, hposition⟩ := Option.isSome_iff_exists.mp hsettles
      have hy := mem_spots_below hx hmem
      have hrole := (Spot.mem_ofLines hmem).2.2.1
      rw [hsettler, Option.bind_some, hposition, Option.getD_some]
      dsimp only
      cases hn : y.statement.nucleus with
      | none =>
          rw [hrole, hn] at hposition
          cases hposition
      | some n =>
          cases n with
          | instr name operands =>
              obtain ⟨is, -, hitem⟩ := role_of_instr (clean_firstPass ok) hy hn
              rw [hitem] at hposition
              obtain rfl := Option.some.inj hposition
              exact head?_row ok hy hn
          | directive name operands =>
              rw [hrole, hn] at hposition
              have hsettled := Role.settled?_ofDirective hposition
              dsimp only
              split at hsettled
              · next hsegment => rw [if_pos hsegment, hsettled]
              · next hsegment =>
                  rw [if_neg hsegment]
                  exact ⟨hsettled.1, congrArg addressAt hsettled.2⟩

end Program

/-- **Labels denote what follows them.** Take a program that assembles, and a label of one of its lines,
with all macros expanded. If an instruction comes next, the label has the address of its first word; if
an item of data comes next, the address of the item after its own alignment; otherwise it has the address
that the segment in use has come to at the next directive that changes the segment, before this directive
moves it, or at the end of the unit. The symbol, with the line that defines it, is in the table of the unit
or, if the unit declares the label to be exported, in that of all units. -/
theorem labels_denote {options : AssemblyOptions} {units : List SourceUnit} {p : AssembledProgram}
    (ok : (assemble options units).1 = .ok p) :
    (spots options units).map (fun x => (x.unit, x.line)) =
      (units.zipIdx.flatMap fun (u, k) => u.expandedLines.map (k, ·)) ∧
    ∀ x ∈ spots options units, Statement.ofTokens x.line.tokens = .ok x.statement ∧
      ∀ name ∈ x.labels, ∃ a, p.LabelAt options.extended x a ∧ ∃ t, p.locals[x.unit]? = some t ∧
        (t.find? name = some ⟨a, x.line.source.file, x.line.source.number, .internal⟩ ∨
          t.find? name = none ∧
            p.globals.find? name = some ⟨a, x.line.source.file, x.line.source.number, .global⟩ ∧
            ∃ y ∈ spots options units, y.unit = x.unit ∧ name ∈ y.role.exported) := by
  refine ⟨lines_spots (clean_firstPass ok), fun x hx => ?_⟩
  obtain ⟨before, u, after, rfl, hunit, hmem⟩ := Spot.mem_ofUnits hx
  rw [Nat.zero_add] at hunit
  refine ⟨(Spot.mem_ofLines hmem).2.1, fun name hname => ?_⟩
  have hx' : x ∈ unitSpots options before u := mem_unitSpots_iff.mpr ⟨hx, hunit⟩
  have hlabel := (find?_unit_iff ok name _).mpr ⟨x, hx', hname, rfl⟩
  obtain ⟨t, ht, htable⟩ := symbols_of_unit ok name
  rw [← hunit] at ht
  refine ⟨_, labelAt_symbol ok hx, t, ht, ?_⟩
  rcases htable with ⟨hlocal, -⟩ | ⟨s, hs, -, hnone, hshared, y, hy, hdeclared⟩
  · exact .inl (hlocal.trans hlabel)
  · obtain rfl := Option.some.inj (hlabel.symm.trans hs)
    obtain ⟨hy, hindex⟩ := mem_unitSpots_iff.mp hy
    exact .inr ⟨hnone, hshared, y, hy, hindex.trans hunit.symm, hdeclared⟩

/-- A label before an unaligned boundary, and an exported one. -/
theorem labels_denote_unaligned :
    let a : SourceUnit := .ofText "a.s" ".globl main\n.data\n.byte 1\nwhole:\n.word 5\n.text\nmain: nop"
    ∃ p, (assemble {} [a]).1 = .ok p ∧
      (∃ t, p.locals[0]? = some t ∧ t.find? "whole" = some ⟨0x10010004, "a.s", 4, .internal⟩) ∧
      p.globals.find? "main" = some ⟨0x00400000, "a.s", 7, .global⟩ := by
  intro a
  have hassembles : (assemble {} [a]).1.toOption.map (fun p => (p.globals.find? "whole",
      p.locals.map (·.find? "main"), p.globals.addressOf? "main")) =
      some (none, [none], some 0x00400000) := by decide +kernel
  obtain ⟨p, hp, htables⟩ := Option.map_eq_some_iff.mp hassembles
  simp only [Prod.mk.injEq] at htables
  obtain ⟨hwhole, hmain, haddress⟩ := htables
  have ok : (assemble {} [a]).1 = .ok p := eq_ok_of_toOption hp
  obtain ⟨-, hlabels⟩ := labels_denote ok
  have hfirst : ∃ x ∈ spots {} [a], "whole" ∈ x.labels ∧
      (x.unit, x.line.source.file, x.line.source.number) = (0, "a.s", 4) ∧
      (x.settler? true).map (fun y => (y.cursor.here, y.statement.nucleus)) =
        some (0x10010001, some (.directive "word" [.imm 5])) := by decide +kernel
  have hsecond : ∃ x ∈ spots {} [a], "main" ∈ x.labels ∧
      (x.unit, x.line.source.file, x.line.source.number) = (0, "a.s", 7) := by decide +kernel
  obtain ⟨x, hx, hlabel, hsource, hsettler⟩ := hfirst
  obtain ⟨z, hz, hlabel', hsource'⟩ := hsecond
  obtain ⟨y, hy, hword⟩ := Option.map_eq_some_iff.mp hsettler
  simp only [Prod.mk.injEq] at hsource hsource' hword
  obtain ⟨hunit, hfile, hnumber⟩ := hsource
  refine ⟨p, ok, ?_, ?_⟩
  · obtain ⟨b, hb, t, ht, hfound⟩ := (hlabels x hx).2 "whole" hlabel
    unfold AssembledProgram.LabelAt at hb
    rw [show x.settler? _ = some y from hy] at hb
    dsimp only at hb
    rw [hword.2, hword.1] at hb
    obtain ⟨-, rfl⟩ := hb
    rw [hunit] at ht
    rw [hfile, hnumber, hwhole] at hfound
    rcases hfound with hfound | ⟨-, hfound, -⟩
    · exact ⟨t, ht, hfound⟩
    · cases hfound
  · obtain ⟨b, -, t, ht, hfound⟩ := (hlabels z hz).2 "main" hlabel'
    rw [hsource'.1] at ht
    rw [hsource'.2.1, hsource'.2.2] at hfound
    rcases hfound with hfound | ⟨-, hfound, -⟩
    · have hnone := congrArg (·[0]?) hmain
      simp [ht, hfound] at hnone
    · rw [SymbolTable.addressOf?, hfound] at haddress
      obtain rfl := Option.some.inj haddress
      exact hfound

end Assembly

end MipsLab
