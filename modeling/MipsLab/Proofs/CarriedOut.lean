import MipsLab.Proofs.ExactLayout
import MipsLab.Proofs.PlacedLines

set_option autoImplicit false

/-!
# How a line is carried out

The first pass over a line that leaves no error does one of few things, and which one it is the role
of the line says (`carriedOut_placeNucleus`). Later modules read what a line places, which labels get
their addresses, and what becomes visible to other units off these cases.
-/

namespace MipsLab.Placement

/-! ## Placing parts -/

/-- Places a part at the address reached. -/
def put (line : TokenLine) (column : Nat) (p : Placement) : Part → Placement
  | .word i => placeWord line column p i
  | .bytes bs => p.placeBytes ⟨line.source, column⟩ bs
  | .address l =>
    { p with labelWords := p.labelWords.push ⟨p.locals.size, ⟨line.source, column⟩, p.here, l⟩
      }.placeBytes ⟨line.source, column⟩ [0, 0, 0, 0]
  | .gap n => p.moveTo (p.here + BitVec.ofNat 32 n)

/-- Some parts are placed one after the other, with warnings on the way. -/
inductive Puts (line : TokenLine) (column : Nat) : Placement → List Part → Placement → Prop
  | nil (p : Placement) : Puts line column p [] p
  | warn {p q : Placement} {parts : List Part} (c : Cause)
      (rest : Puts line column (p.report ⟨line.source, column⟩ c) parts q) :
      Puts line column p parts q
  | cons {p q : Placement} {part : Part} {parts : List Part}
      (rest : Puts line column (put line column p part) parts q) :
      Puts line column p (part :: parts) q

variable {line : TokenLine} {column : Nat}

theorem Puts.append {p q r : Placement} {first second : List Part} (h : Puts line column p first q)
    (h' : Puts line column q second r) : Puts line column p (first ++ second) r := by
  induction h with
  | nil => exact h'
  | warn c _ ih => exact .warn c (ih h')
  | cons _ ih => exact .cons (ih h')

theorem puts_single (p : Placement) (part : Part) : Puts line column p [part] (put line column p part) :=
  .cons (.nil _)

/-- The machine instructions of a line are put one after the other. -/
theorem puts_placeWords (is : List SymbolicInstr) (p : Placement) :
    Puts line column p (is.map .word) (is.foldl (placeWord line column) p) := by
  induction is generalizing p with
  | nil => exact .nil p
  | cons i is ih => exact .cons (ih _)

/-- Without errors, the operands of a data directive are all allowed, and what they stand for is
put. -/
theorem puts_placeItems {name : String} {place? : Placement → Operand → Option Placement}
    (hplace : ∀ {p q operand}, place? p operand = some q →
      ∃ part, Part.ofOperand? name operand = some part ∧ Puts line column p [part] q)
    {p : Placement} {operands : List Operand}
    (spares : (placeItems name ⟨line.source, column⟩ place? p operands).Spares ⟨line.source, column⟩) :
    Puts line column p (operands.filterMap (Part.ofOperand? name))
      (placeItems name ⟨line.source, column⟩ place? p operands) := by
  induction operands generalizing p with
  | nil => exact .nil p
  | cons operand rest ih =>
      rw [placeItems] at spares ⊢
      split at spares
      case h_1 q hq =>
        obtain ⟨part, hpart, hputs⟩ := hplace hq
        rw [List.filterMap_cons_some hpart]
        exact hputs.append (ih spares)
      case h_2 => exact absurd spares (not_spares_report p _ rfl)

theorem puts_placeWordItem? {p q : Placement} {operand : Operand}
    (h : placeWordItem? ⟨line.source, column⟩ p operand = some q) :
    ∃ part, Part.ofOperand? "word" operand = some part ∧ Puts line column p [part] q := by
  unfold placeWordItem? at h
  split at h
  case h_1 | h_2 =>
    cases h
    exact ⟨_, rfl, puts_single p _⟩
  case h_3 => cases h

/-- A number that does not fit is cut, with a warning. -/
theorem puts_placeSmallItem? {name : String} {width : Nat} {fits : Int → Bool}
    (hname : ∀ n, Part.ofOperand? name (.imm n) = some (.bytes ((Word.bytes (Word.ofInt n)).take width)))
    {p q : Placement} {operand : Operand}
    (h : placeSmallItem? name width fits ⟨line.source, column⟩ p operand = some q) :
    ∃ part, Part.ofOperand? name operand = some part ∧ Puts line column p [part] q := by
  unfold placeSmallItem? at h
  split at h
  case h_1 n =>
    cases h
    refine ⟨_, hname n, ?_⟩
    split
    · exact puts_single p _
    · exact .warn _ (puts_single _ _)
  case h_2 => cases h

theorem puts_placeString? {name : String} {terminated : Bool}
    (hname : ∀ text, Part.ofOperand? name (.str text) =
      some (.bytes (Utf8.encode text.toList ++ if terminated then [0] else [])))
    {p q : Placement} {operand : Operand}
    (h : placeString? terminated ⟨line.source, column⟩ p operand = some q) :
    ∃ part, Part.ofOperand? name operand = some part ∧ Puts line column p [part] q := by
  unfold placeString? at h
  split at h
  case h_1 text =>
    cases h
    exact ⟨_, hname text, puts_single p _⟩
  case h_2 => cases h

/-! ### Data -/

theorem moveTo_here (p : Placement) : p.moveTo p.here = p := by
  unfold moveTo here
  cases p.unit.segment <;> rfl

/-- Without a wish for alignment, the labels get the address reached. -/
theorem alignTo_one (p : Placement) : p.alignTo 1 = p.enterLabels := by
  have h : Word.alignUp p.here 1 = p.here := by
    show p.here + 0#32 &&& BitVec.allOnes 32 = p.here
    rw [BitVec.add_zero, BitVec.and_allOnes]
  rw [alignTo, h, moveTo_here]

theorem ofInt_eq_ofNat {n : Int} (hn : 0 ≤ n) : Word.ofInt n = BitVec.ofNat 32 n.toNat := by
  rw [Word.ofInt, ← BitVec.ofInt_natCast, Int.toNat_of_nonneg hn]

theorem puts_placeData {p q : Placement} {name : String} {operands : List Operand}
    (hq : p.placeData ⟨line.source, column⟩ name operands = q) (spares : q.Spares ⟨line.source, column⟩) :
    ∃ k ≤ 3, Role.alignment name operands = 2 ^ k ∧
      Puts line column (p.alignTo (BitVec.ofNat 32 (2 ^ k)))
        (operands.filterMap (Part.ofOperand? name)) q := by
  have hone : p.alignTo (BitVec.ofNat 32 (2 ^ 0)) = p.enterLabels := alignTo_one p
  unfold placeData at hq
  split at hq
  case h_1 n =>
    split at hq
    case isTrue hn =>
      subst hq
      have hshift : ∀ k ≤ 3, 1#32 <<< k = BitVec.ofNat 32 (2 ^ k) := by decide
      have hk : n.toNat ≤ 3 := by omega
      refine ⟨n.toNat, hk, rfl, ?_⟩
      rw [hshift _ hk]
      exact .nil _
    case isFalse => exact absurd spares (not_spares_of_report hq rfl)
  case h_2 n =>
    split at hq
    case isTrue hn =>
      subst hq
      refine ⟨0, by decide, rfl, ?_⟩
      rw [hone, ofInt_eq_ofNat hn.1]
      exact puts_single _ (.gap n.toNat)
    case isFalse => exact absurd spares (not_spares_of_report hq rfl)
  case h_3 =>
    subst hq
    exact ⟨2, by decide, rfl, puts_placeItems puts_placeWordItem? spares⟩
  case h_4 =>
    subst hq
    exact ⟨1, by decide, rfl, puts_placeItems (puts_placeSmallItem? fun n => rfl) spares⟩
  case h_5 =>
    subst hq
    exact ⟨0, by decide, rfl, puts_placeItems (puts_placeSmallItem? fun n => rfl) spares⟩
  case h_6 =>
    subst hq
    refine ⟨0, by decide, rfl, ?_⟩
    rw [hone]
    exact puts_placeItems (puts_placeString? fun text => by simp [Part.ofOperand?]) spares
  case h_7 =>
    subst hq
    refine ⟨0, by decide, rfl, ?_⟩
    rw [hone]
    exact puts_placeItems (puts_placeString? fun text => rfl) spares
  case h_8 => exact absurd spares (not_spares_of_report hq rfl)

/-! ## Lines -/

/-- Carries out what a statement does after its labels. -/
def placeNucleus (line : TokenLine) (column : Nat) (p : Placement) : Option Nucleus → Placement
  | none => p
  | some (.instr name operands) => p.placeInstr line column name operands
  | some (.directive name operands) => p.directive ⟨line.source, column⟩ name operands

/-- What a placement turns into when a line of the given role is carried out after its labels. -/
inductive CarriedOut (line : TokenLine) (column : Nat) (p : Placement) : Role → Placement → Prop
  | item {k : Nat} {parts : List Part} {q : Placement} (small : k ≤ 3)
      /- Instructions stand in the text segments and data in the others. -/
      (kind : (p.unit.segment.isText = true ∧ k = 2 ∧ ∃ is : List SymbolicInstr, parts = is.map .word) ∨
        (p.unit.segment.isText = false ∧ ∀ i, .word i ∉ parts))
      (puts : Puts line column (p.markUsed.alignTo (BitVec.ofNat 32 (2 ^ k))) parts q) :
      CarriedOut line column p (.item (2 ^ k) parts) q
  | select (s : Segment) (position : Option Nat) (unused : Option (String × Site)) :
      CarriedOut line column p (.select s position)
        { p.enterLabels.checkUnused with
          counters := position.elim p.enterLabels.checkUnused.counters fun x =>
            p.enterLabels.checkUnused.counters.set s (addressAt x)
          unit := { p.enterLabels.checkUnused.unit with segment := s, unused } }
  | exports (names : List String) :
      CarriedOut line column p (.exports names)
        { p with unit := { p.unit with
          exports := p.unit.exports ++ names.map fun name => (name, ⟨line.source, column⟩) } }
  | reserve {name : String} {size : Int} {globals : SymbolTable}
      (added : p.globals.addGlobal name
        ⟨p.nextExtern, line.source.file, line.source.number, .global⟩ = .ok globals) :
      CarriedOut line column p (.reserve name size)
        { p with globals, nextExtern := Word.alignUp (p.nextExtern + Word.ofInt size) 4 }
  | nothing : CarriedOut line column p .nothing p
  | ignored (c : Cause) : CarriedOut line column p .nothing (p.report ⟨line.source, column⟩ c)

section Carried

variable {p q : Placement}

theorem carriedOut_select {name : String} {s : Segment} {operands : List Operand}
    (hq : p.select ⟨line.source, column⟩ name s operands = q) (spares : q.Spares ⟨line.source, column⟩) :
    CarriedOut line column p (.select s (Role.position? operands)) q := by
  unfold select at hq
  dsimp only at hq
  split at hq
  case h_1 =>
    subst hq
    exact .select s none _
  case h_2 n =>
    split at hq
    case isTrue hn =>
      subst hq
      rw [ofInt_eq_ofNat hn.1.1]
      exact .select s (some n.toNat) _
    case isFalse => exact absurd spares (not_spares_of_report hq rfl)
  case h_3 => exact absurd spares (not_spares_of_report hq rfl)

theorem declareExports_of_spares {name : String} {operands : List Operand}
    (hq : p.declareExports ⟨line.source, column⟩ name operands = q) (spares : q.Spares ⟨line.source, column⟩) :
    q = { p with unit := { p.unit with exports := p.unit.exports ++
      (operands.filterMap Role.exported?).map fun name => (name, ⟨line.source, column⟩) } } := by
  induction operands generalizing p with
  | nil =>
      subst hq
      simp [declareExports]
  | cons operand rest ih =>
      unfold declareExports at hq
      split at hq
      case h_1 heq => cases heq
      case h_2 label rest' heq =>
        obtain ⟨rfl, rfl⟩ := List.cons.inj heq
        rw [ih hq]
        simp [Role.exported?]
      case h_3 => exact absurd spares (not_spares_of_report hq rfl)

theorem carriedOut_reserve {name label : String} {size : Int}
    (hq : p.reserve ⟨line.source, column⟩ name label size = q) (spares : q.Spares ⟨line.source, column⟩) :
    CarriedOut line column p (.reserve label size) q := by
  unfold reserve at hq
  dsimp only at hq
  split at hq
  case isTrue =>
    split at hq
    case h_1 globals hadded =>
      subst hq
      exact .reserve hadded
    case h_2 => exact absurd spares (not_spares_of_report hq rfl)
  case isFalse => exact absurd spares (not_spares_of_report hq rfl)

theorem ne_word_of_ofOperand? {name : String} {operands : List Operand} {i : SymbolicInstr} :
    .word i ∉ operands.filterMap (Part.ofOperand? name) := by
  rw [List.mem_filterMap]
  rintro ⟨operand, -, h⟩
  unfold Part.ofOperand? at h
  split at h <;> cases h

theorem carriedOut_directive {name : String} {operands : List Operand}
    (hq : p.directive ⟨line.source, column⟩ name operands = q) (spares : q.Spares ⟨line.source, column⟩) :
    CarriedOut line column p (.ofDirective name operands) q := by
  unfold directive at hq
  unfold Role.ofDirective
  cases hs : Segment.ofDirective? name with
  | some s =>
      rw [hs] at hq
      exact carriedOut_select hq spares
  | none =>
      rw [hs] at hq
      dsimp only at hq ⊢
      by_cases hexports : name = "globl" ∨ name = "global"
      · rw [if_pos hexports] at hq ⊢
        split at hq
        · exact absurd spares (not_spares_of_report hq rfl)
        · rw [declareExports_of_spares hq spares]
          exact .exports _
      rw [if_neg hexports] at hq ⊢
      by_cases hextern : name = "extern"
      · rw [if_pos hextern] at hq ⊢
        split at hq
        · exact carriedOut_reserve hq spares
        · exact absurd spares (not_spares_of_report hq rfl)
      rw [if_neg hextern] at hq ⊢
      by_cases hset : name = "set"
      · subst hset
        rw [if_pos rfl] at hq
        subst hq
        exact .ignored _
      rw [if_neg hset] at hq
      split at hq
      case isTrue => exact absurd spares (not_spares_of_report hq rfl)
      case isFalse =>
        split at hq
        case isFalse => exact absurd spares (not_spares_of_report hq rfl)
        case isTrue hdata =>
          rw [if_pos hdata]
          split at hq
          case isTrue => exact absurd spares (not_spares_of_report hq rfl)
          case isFalse hsegment =>
            obtain ⟨k, hk, halignment, hputs⟩ := puts_placeData hq spares
            rw [halignment]
            exact .item hk (.inr ⟨Bool.not_eq_true _ ▸ hsegment, fun i => ne_word_of_ofOperand?⟩) hputs

theorem isText_of_placeInstr {name : String} {operands : List Operand}
    (spares : (p.placeInstr line column name operands).Spares ⟨line.source, column⟩) : p.unit.segment.isText = true := by
  unfold placeInstr at spares
  dsimp only at spares
  split at spares
  case isTrue => exact absurd spares (not_spares_report p _ rfl)
  case isFalse htext => simpa using htext

/-- **Without errors, the role of a line says how it is carried out.** -/
theorem carriedOut_placeNucleus {n : Option Nucleus} (hq : placeNucleus line column p n = q)
    (spares : q.Spares ⟨line.source, column⟩) : CarriedOut line column p (.ofNucleus p.extended n) q := by
  unfold placeNucleus at hq
  split at hq
  case h_1 =>
    subst hq
    exact .nothing
  case h_2 name operands =>
    subst hq
    obtain ⟨is, lowered, hplaced⟩ := placeInstr_of_spares spares
    rw [Role.ofNucleus, lowered, hplaced]
    exact .item (k := 2) (by decide) (.inl ⟨isText_of_placeInstr spares, rfl, is, rfl⟩)
      (puts_placeWords is _)
  case h_3 name operands => exact carriedOut_directive hq spares

end Carried

theorem placeLine_eq_placeNucleus {p : Placement} {s : Statement}
    (hs : Statement.ofTokens line.tokens = .ok s) :
    p.placeLine line = placeNucleus line (s.span.start + 1) (p.awaitLabels line s.labels) s.nucleus := by
  rw [placeLine_eq hs]
  cases s.nucleus with
  | none => rfl
  | some n => cases n <;> rfl

end MipsLab.Placement
