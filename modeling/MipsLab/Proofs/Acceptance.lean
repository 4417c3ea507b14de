import MipsLab.Proofs.LayoutPass

set_option autoImplicit false

/-!
# Lines that leave no error

Whether or not other lines have errors, a line that leaves none is well formed and stands where it may
stand (`Placement.acceptable_of_spares`). Its instructions and its words for labels are recorded, and its
bytes go to free addresses below the end of memory (`Placement.Trace.records`, `Placement.Trace.fits`).
-/

namespace MipsLab

/-- What a statement does after its labels is well formed, and allowed in a segment. -/
inductive Nucleus.Acceptable (extended : Bool) (segment : Segment) : Option Nucleus → Prop
  | none : Acceptable extended segment none
  | instr {name : String} {operands : List Operand} {is : List SymbolicInstr}
      (text : segment.isText = true) (lowered : lower name operands extended = .ok is) :
      Acceptable extended segment (some (.instr name operands))
  | select {name : String} {operands : List Operand} {s : Segment}
      (named : Segment.ofDirective? name = some s)
      (address : operands = [] ∨
        ∃ n, operands = [.imm n] ∧ IsUnsigned32 n ∧ (s.isText = true → n % 4 = 0)) :
      Acceptable extended segment (some (.directive name operands))
  | exports {name : String} {operands : List Operand} (named : name = "globl" ∨ name = "global")
      (nonempty : operands ≠ []) (plain : ∀ o ∈ operands, ∃ label, o = .label ⟨label, 0⟩) :
      Acceptable extended segment (some (.directive name operands))
  | reserve {label : String} {size : Int} (bounds : 0 < size ∧ size ≤ 0x8000) :
      Acceptable extended segment (some (.directive "extern" [.label ⟨label, 0⟩, .imm size]))
  | set (operands : List Operand) : Acceptable extended segment (some (.directive "set" operands))
  | align {n : Int} (data : segment.isText = false) (bounds : 0 ≤ n ∧ n ≤ 3) :
      Acceptable extended segment (some (.directive "align" [.imm n]))
  | space {n : Int} (data : segment.isText = false) (bounds : IsUnsigned32 n) :
      Acceptable extended segment (some (.directive "space" [.imm n]))
  | items {name : String} {operands : List Operand} (data : segment.isText = false)
      (named : name ∈ ["word", "half", "byte", "ascii", "asciiz"])
      (allowed : ∀ o ∈ operands, (Part.ofOperand? name o).isSome = true) :
      Acceptable extended segment (some (.directive name operands))

namespace Placement

/-! ## What is well formed -/

section Acceptable

open MipsLab.Nucleus (Acceptable)

variable {line : TokenLine} {column : Nat} {p : Placement} {name : String} {operands : List Operand}

theorem allowed_placeItems {place? : Placement → Operand → Option Placement}
    (hplace : ∀ {p q operand}, place? p operand = some q →
      ∃ part, Part.ofOperand? name operand = some part ∧ Puts line column p [part] q)
    (spares : (placeItems name ⟨line.source, column⟩ place? p operands).Spares ⟨line.source, column⟩) :
    ∀ o ∈ operands, (Part.ofOperand? name o).isSome = true := by
  induction operands generalizing p with
  | nil => exact fun o ho => nomatch ho
  | cons operand rest ih =>
      rw [placeItems] at spares
      split at spares
      case h_1 q hq =>
        obtain ⟨part, hpart, -⟩ := hplace hq
        exact List.forall_mem_cons.mpr ⟨Option.isSome_of_eq_some hpart, ih spares⟩
      case h_2 => exact absurd spares (not_spares_report p _ rfl)

theorem acceptable_placeData {extended : Bool} {segment : Segment} (data : segment.isText = false)
    (spares : (p.placeData ⟨line.source, column⟩ name operands).Spares ⟨line.source, column⟩) :
    Acceptable extended segment (some (.directive name operands)) := by
  unfold placeData at spares
  split at spares
  case h_1 n =>
    split at spares
    case isTrue hn => exact .align data hn
    case isFalse => exact absurd spares (not_spares_report p _ rfl)
  case h_2 n =>
    split at spares
    case isTrue hn => exact .space data hn
    case isFalse => exact absurd spares (not_spares_report p _ rfl)
  case h_3 => exact .items data (by decide) (allowed_placeItems puts_placeWordItem? spares)
  case h_4 | h_5 =>
    exact .items data (by decide) (allowed_placeItems (puts_placeSmallItem? fun n => rfl) spares)
  case h_6 =>
    exact .items data (by decide)
      (allowed_placeItems (puts_placeString? fun text => by simp [Part.ofOperand?]) spares)
  case h_7 => exact .items data (by decide) (allowed_placeItems (puts_placeString? fun text => rfl) spares)
  case h_8 => exact absurd spares (not_spares_report p _ rfl)

theorem plain_of_declareExports {site : Site} (spares : (p.declareExports site name operands).Spares site) :
    ∀ o ∈ operands, ∃ label, o = .label ⟨label, 0⟩ := by
  induction operands generalizing p with
  | nil => exact fun o ho => nomatch ho
  | cons operand rest ih =>
      unfold declareExports at spares
      split at spares
      case h_1 heq => cases heq
      case h_2 label rest' heq =>
        obtain ⟨rfl, rfl⟩ := List.cons.inj heq
        exact List.forall_mem_cons.mpr ⟨⟨label, rfl⟩, ih spares⟩
      case h_3 => exact absurd spares (not_spares_report p _ rfl)

theorem address_of_select {site : Site} {s : Segment}
    (spares : (p.select site name s operands).Spares site) :
    operands = [] ∨ ∃ n, operands = [.imm n] ∧ IsUnsigned32 n ∧ (s.isText = true → n % 4 = 0) := by
  unfold select at spares
  dsimp only at spares
  split at spares
  case h_1 => exact .inl rfl
  case h_2 n =>
    split at spares
    case isTrue hn =>
      refine .inr ⟨n, rfl, hn.1, fun htext => hn.2.resolve_left ?_⟩
      rw [htext]
      exact nofun
    case isFalse => exact absurd spares (not_spares_report _ _ rfl)
  case h_3 => exact absurd spares (not_spares_report _ _ rfl)

theorem bounds_of_reserve {site : Site} {label : String} {size : Int}
    (spares : (p.reserve site name label size).Spares site) : 0 < size ∧ size ≤ 0x8000 := by
  unfold reserve at spares
  dsimp only at spares
  split at spares
  case isTrue bounds => exact bounds
  case isFalse => exact absurd spares (not_spares_report p _ rfl)

theorem acceptable_directive
    (spares : (p.directive ⟨line.source, column⟩ name operands).Spares ⟨line.source, column⟩) :
    Acceptable p.extended p.unit.segment (some (.directive name operands)) := by
  have refused : ∀ {c : Cause}, c.isWarning = false →
      (p.report ⟨line.source, column⟩ c).Spares ⟨line.source, column⟩ →
      Acceptable p.extended p.unit.segment (some (.directive name operands)) :=
    fun hc spares => absurd spares (not_spares_report p _ hc)
  unfold directive at spares
  cases named : Segment.ofDirective? name with
  | some s =>
      rw [named] at spares
      exact .select named (address_of_select spares)
  | none =>
      rw [named] at spares
      dsimp only at spares
      split at spares
      case isTrue hexports =>
        split at spares
        · exact refused rfl spares
        case isFalse hsome =>
          exact .exports hexports (mt List.isEmpty_iff.mpr hsome) (plain_of_declareExports spares)
      split at spares
      case isTrue hextern =>
        subst hextern
        split at spares
        · exact .reserve (bounds_of_reserve spares)
        · exact refused rfl spares
      split at spares
      case isTrue hset =>
        subst hset
        exact .set operands
      split at spares
      case isTrue => exact refused rfl spares
      split at spares
      case isFalse => exact refused rfl spares
      split at spares
      case isTrue => exact refused rfl spares
      case isFalse hdata => exact acceptable_placeData (Bool.not_eq_true _ ▸ hdata) spares

/-- **A line that leaves no error is well formed and stands where it may.** -/
theorem acceptable_of_spares {n : Option Nucleus}
    (spares : (placeNucleus line column p n).Spares ⟨line.source, column⟩) :
    Acceptable p.extended p.unit.segment n := by
  unfold placeNucleus at spares
  split at spares
  case h_1 => exact .none
  case h_2 name operands =>
    obtain ⟨is, lowered, -⟩ := placeInstr_of_spares spares
    exact .instr (isText_of_placeInstr spares) lowered
  case h_3 name operands => exact acceptable_directive spares

end Acceptable

/-! ## What is placed -/

/-- The segment in use, and the positions that the segments have come to. -/
def cursor (p : Placement) : Cursor := ⟨p.unit.segment, fun s => (p.counters.get s).toNat⟩

theorem at_cursor (p : Placement) : At p p.cursor := ⟨rfl, fun _ => (addressAt_toNat _).symm⟩

/-- From the address at a position on, `n` bytes below the end of memory are free. -/
def IsFree (data : DataImage) (x n : Nat) : Prop :=
  (addressAt x).toNat + n ≤ 0x100000000 ∧ ∀ k < n, data.contains ((addressAt x).toNat + k) = false

/-- Where a part goes, it finds as many free bytes as it has. -/
def Fits (data : DataImage) (x : Nat) : Part → Prop
  | .bytes bs => IsFree data x bs.length
  | .address _ => IsFree data x 4
  | _ => True

theorem Fits.mono {data data' : DataImage} (kept : ∀ k, data.contains k = true → data'.contains k = true)
    {x : Nat} {part : Part} (fits : Fits data' x part) : Fits data x part := by
  have hfree : ∀ n, IsFree data' x n → IsFree data x n := fun n free =>
    ⟨free.1, fun k hk => Bool.eq_false_iff.mpr fun h => Bool.eq_false_iff.mp (free.2 k hk) (kept _ h)⟩
  cases part with
  | bytes | address => exact hfree _ fits
  | word | gap => trivial

theorem contains_placeBytes {p : Placement} {site : Site} {bytes : List Byte} {k : Nat}
    (h : p.data.contains k = true) : (p.placeBytes site bytes).data.contains k = true := by
  unfold placeBytes
  dsimp only
  split
  · exact h
  · split <;> exact contains_writeBytes.mpr (.inl h)

theorem contains_put {line : TokenLine} {column : Nat} {p : Placement} {part : Part} {k : Nat}
    (h : p.data.contains k = true) : (put line column p part).data.contains k = true := by
  cases part with
  | word | gap => exact h
  | bytes | address => exact contains_placeBytes h

/-- Parts that are put without an error of their line find free bytes. -/
theorem Trace.fits {p q : Placement} {parts : List PlacedPart} (trace : Trace p parts q)
    {a : PlacedPart} (ha : a ∈ parts) (spares : q.Spares ⟨a.line.source, a.column⟩) :
    Fits p.data a.position a.part := by
  induction trace with
  | nil => cases ha
  | quiet _ same _ ih => exact (Prod.mk.inj (Prod.mk.inj same).2).1 ▸ ih ha spares
  | @put p r line column x part parts here rest ih =>
      rcases List.mem_cons.mp ha with rfl | ha
      -- an error of the part would still be there at the end
      · have hput := rest.extends.spares spares
        have hbytes : ∀ {q : Placement} {bytes : List Byte}, q.here = addressAt x →
            (q.placeBytes ⟨line.source, column⟩ bytes).Spares ⟨line.source, column⟩ →
            IsFree q.data x bytes.length := by
          intro q bytes hq spares
          obtain ⟨hfits, hfree, -⟩ := placeBytes_of_spares spares
          rw [hq] at hfits hfree
          exact ⟨hfits, hfree⟩
        cases part with
        | word | gap => trivial
        | bytes bs => exact hbytes here hput
        | address l =>
            let word : LabelWord := ⟨p.locals.size, ⟨line.source, column⟩, p.here, l⟩
            let q := { p with labelWords := p.labelWords.push word }
            exact hbytes (show q.here = addressAt x from here) hput
      -- what is free after the first part was free before it
      · exact (ih ha spares).mono fun k => contains_put

/-- What the pass records for a part stays recorded. -/
def IsRecorded (p : Placement) (a : PlacedPart) : Prop :=
  match a.part with
  | .word i => ⟨a.unit, a.line, a.column, addressAt a.position, i⟩ ∈ p.instrs.toList
  | .address l => ⟨a.unit, ⟨a.line.source, a.column⟩, addressAt a.position, l⟩ ∈ p.labelWords.toList
  | _ => True

theorem IsRecorded.extends {p q : Placement} (h : Extends p q) {a : PlacedPart} (recorded : p.IsRecorded a) :
    q.IsRecorded a := by
  obtain ⟨unit, line, column, position, part⟩ := a
  cases part with
  | word => exact h.instrs.subset recorded
  | address => exact h.labelWords.subset recorded
  | bytes | gap => trivial

/-- **Parts that are put are recorded.** -/
theorem Trace.records {p q : Placement} {parts : List PlacedPart} (trace : Trace p parts q)
    {a : PlacedPart} (ha : a ∈ parts) : q.IsRecorded a := by
  induction trace with
  | nil => cases ha
  | quiet _ _ _ ih => exact ih ha
  | @put p r line column x part parts here rest ih =>
      rcases List.mem_cons.mp ha with rfl | ha
      · refine IsRecorded.extends rest.extends ?_
        cases part with
        | word i =>
            show _ ∈ (p.instrs.push _).toList
            rw [← here]
            exact Array.mem_toList_iff.mpr Array.mem_push_self
        | address l =>
            refine (extends_placeBytes _ _ _).labelWords.subset ?_
            rw [← here]
            exact Array.mem_toList_iff.mpr Array.mem_push_self
        | bytes | gap => trivial
      · exact ih ha

/-- A pass puts some parts one after the other. -/
theorem Pass.exists_trace {p q : Placement} (h : Pass p q) : ∃ parts, Trace p parts q := by
  induction h with
  | refl => exact ⟨[], .nil p⟩
  | @tail q r _ hstep ih =>
      obtain ⟨parts, trace⟩ := ih
      suffices h : ∃ more, Trace q more r from h.elim fun more htrace => ⟨_, trace.append htrace⟩
      cases hstep with
      | move h =>
          have hput : ∀ (line : TokenLine) (column : Nat) (part : Part),
              Trace q _ (put line column q part) :=
            fun _ _ _ => .put (addressAt_toNat q.here).symm (.nil _)
          cases h with
          | quiet h => exact ⟨_, h.trace⟩
          | @instr _ _ _ i _ _ _ line column => exact ⟨_, hput line column (.word i)⟩
          | bytes site bs => exact ⟨_, hput ⟨site.source, []⟩ site.column (.bytes bs)⟩
          | labelWord site l => exact ⟨_, hput ⟨site.source, []⟩ site.column (.address l)⟩
      | beginUnit file => exact ⟨[], .quiet (Pass.extends (.single (.beginUnit file))) rfl (.nil _)⟩
      | endUnit => exact ⟨[], .quiet (Pass.extends (.single .endUnit)) rfl (.nil _)⟩

end Placement

end MipsLab
