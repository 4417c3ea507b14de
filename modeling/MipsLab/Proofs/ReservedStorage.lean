import Mathlib.Data.List.Chain
import MipsLab.Proofs.Acceptance
import MipsLab.Proofs.EndOfMemory
import MipsLab.Proofs.ProgramSymbols

set_option autoImplicit false

/-!
# Reserved storage

Lines reserve storage from a base address on, each at the next multiple of four (`Assembly.reservations`). As
positions, which count on past the end of memory, what they reserve never overlaps. As addresses it does once
all of memory is handed out; and before that, storage past its area lies on the data, since nothing is recorded
of it in the image that conflicts are found with (`Assembly.storage_overlaps`).
-/

namespace MipsLab

/-! ## Reservations -/

/-- Storage that a line reserves. -/
structure Reservation where
  name : String
  source : SourceLine
  position : Nat
  size : Nat
deriving DecidableEq, Repr

namespace Reservation

/-- The position after the storage. -/
def stop (r : Reservation) : Nat := r.position + r.size

/-- The symbol of the storage. -/
def symbol (r : Reservation) : Symbol := ⟨addressAt r.position, r.source.file, r.source.number, .global⟩

end Reservation

/-- The position that storage goes on from after a line, where `x` is the position it has come to. -/
def Role.nextStorage (x : Nat) : Role → Nat
  | reserve _ size => roundUp (x + size.toNat) 4
  | _ => x

namespace Spot

/-- What a line reserves at a position. -/
def reservation? (x : Nat) (y : Spot) : Option Reservation :=
  match y.role with
  | .reserve name size => some ⟨name, y.line.source, x, size.toNat⟩
  | _ => none

/-- What some lines reserve, from a position on. -/
def reservations (x : Nat) : List Spot → List Reservation
  | [] => []
  | y :: ys => (y.reservation? x).toList ++ reservations (y.role.nextStorage x) ys

/-- The position that storage goes on from after some lines. -/
def storageEnd (x : Nat) (ys : List Spot) : Nat := ys.foldl (fun x y => y.role.nextStorage x) x

theorem reservations_append (x : Nat) (ys zs : List Spot) :
    reservations x (ys ++ zs) = reservations x ys ++ reservations (storageEnd x ys) zs := by
  induction ys generalizing x with
  | nil => rfl
  | cons y ys ih =>
      rw [List.cons_append, reservations, reservations, ih, List.append_assoc]
      rfl

theorem storageEnd_append (x : Nat) (ys zs : List Spot) :
    storageEnd x (ys ++ zs) = storageEnd (storageEnd x ys) zs := List.foldl_append

end Spot

/-! ### Positions -/

namespace Spot

/-- A line reserves storage at the position reached, or nothing. -/
theorem reservations_cons_cases (x : Nat) (y : Spot) (ys : List Spot) :
    (∃ r : Reservation, r.position = x ∧
      reservations x (y :: ys) = r :: reservations (roundUp r.stop 4) ys ∧
      storageEnd x (y :: ys) = storageEnd (roundUp r.stop 4) ys) ∨
    (reservations x (y :: ys) = reservations x ys ∧ storageEnd x (y :: ys) = storageEnd x ys) := by
  have hend : storageEnd x (y :: ys) = storageEnd (y.role.nextStorage x) ys := rfl
  rw [reservations, reservation?, hend]
  cases y.role with
  | reserve name size => exact .inl ⟨⟨name, y.line.source, x, size.toNat⟩, rfl, rfl, rfl⟩
  | item | select | exports | nothing => exact .inr ⟨rfl, rfl⟩

/-- What lines reserve lies between the position they start from and the one they lead to. -/
theorem within_reservations (x : Nat) (ys : List Spot) :
    x ≤ storageEnd x ys ∧ ∀ r ∈ reservations x ys, x ≤ r.position ∧ r.stop ≤ storageEnd x ys := by
  induction ys generalizing x with
  | nil => exact ⟨Nat.le_refl x, nofun⟩
  | cons y ys ih =>
      rcases reservations_cons_cases x y ys with ⟨r, rfl, hreserved, hend⟩ | ⟨hreserved, hend⟩
      · obtain ⟨hle, hrest⟩ := ih (roundUp r.stop 4)
        have hstop : r.position ≤ r.stop := Nat.le_add_right _ _
        have hup : r.stop ≤ roundUp r.stop 4 := le_roundUp _ (by decide)
        rw [hreserved, hend]
        refine ⟨by omega, List.forall_mem_cons.mpr ⟨⟨Nat.le_refl _, by omega⟩, fun q hq => ?_⟩⟩
        have hq := hrest q hq
        exact ⟨by omega, hq.2⟩
      · rw [hreserved, hend]
        exact ih x

theorem head?_reservations (x : Nat) (ys : List Spot) :
    ∀ r ∈ (reservations x ys).head?, r.position = x := by
  induction ys with
  | nil => nofun
  | cons y ys ih =>
      rcases reservations_cons_cases x y ys with ⟨r, hr, hreserved, -⟩ | ⟨hreserved, -⟩
      · rw [hreserved]
        simpa using hr
      · rw [hreserved]
        exact ih

/-- **Storage is reserved without gaps**, apart from those that alignment leaves. -/
theorem isChain_reservations (x : Nat) (ys : List Spot) :
    (reservations x ys).IsChain fun q r => r.position = roundUp q.stop 4 := by
  induction ys generalizing x with
  | nil => exact .nil
  | cons y ys ih =>
      rcases reservations_cons_cases x y ys with ⟨r, -, hreserved, -⟩ | ⟨hreserved, -⟩
      · rw [hreserved]
        exact List.isChain_cons.mpr ⟨head?_reservations _ ys, ih _⟩
      · rw [hreserved]
        exact ih x

theorem pairwise_reservations (x : Nat) (ys : List Spot) :
    (reservations x ys).Pairwise fun q r => q.stop ≤ r.position := by
  induction ys generalizing x with
  | nil => exact .nil
  | cons y ys ih =>
      rcases reservations_cons_cases x y ys with ⟨r, -, hreserved, -⟩ | ⟨hreserved, -⟩
      · rw [hreserved]
        refine List.pairwise_cons.mpr ⟨fun q hq => ?_, ih _⟩
        exact (le_roundUp r.stop (by decide)).trans ((within_reservations _ ys).2 q hq).1
      · rw [hreserved]
        exact ih x

theorem dvd_reservations {x : Nat} (hx : 4 ∣ x) (ys : List Spot) :
    ∀ r ∈ reservations x ys, 4 ∣ r.position := by
  induction ys generalizing x with
  | nil => nofun
  | cons y ys ih =>
      rcases reservations_cons_cases x y ys with ⟨r, rfl, hreserved, -⟩ | ⟨hreserved, -⟩
      · rw [hreserved]
        exact List.forall_mem_cons.mpr ⟨hx, ih (dvd_roundUp _ _)⟩
      · rw [hreserved]
        exact ih hx

/-- All multiples of four up to the end are reserved. -/
theorem exists_reservation {x k : Nat} (hk : 4 ∣ k) {ys : List Spot} (low : x ≤ k)
    (high : k < storageEnd x ys) : ∃ r ∈ reservations x ys, r.position ≤ k ∧ k < r.stop := by
  induction ys generalizing x with
  | nil => exact absurd high (Nat.not_lt.mpr low)
  | cons y ys ih =>
      rcases reservations_cons_cases x y ys with ⟨r, rfl, hreserved, hend⟩ | ⟨hreserved, hend⟩
      · rw [hreserved]
        rw [hend] at high
        by_cases hnext : roundUp r.stop 4 ≤ k
        · obtain ⟨q, hq, hcovers⟩ := ih hnext high
          exact ⟨q, List.mem_cons_of_mem r hq, hcovers⟩
        · unfold roundUp at hnext
          exact ⟨r, List.mem_cons_self, low, by omega⟩
      · rw [hreserved]
        rw [hend] at high
        exact ih low high

end Spot

/-! ### Addresses -/

/-- An address is at a position from `a` up to `b`, and at one from `c` up to `d`. -/
def SharesAddress (a b c d : Nat) : Prop :=
  ∃ k l, (a ≤ k ∧ k < b) ∧ (c ≤ l ∧ l < d) ∧ addressAt k = addressAt l

theorem addressAt_eq_iff (k l : Nat) : addressAt k = addressAt l ↔ k % 0x100000000 = l % 0x100000000 := by
  rw [← toNat_addressAt, ← toNat_addressAt, BitVec.toNat_inj]

/-- Among positions that are not further apart than memory is large, only equal ones have one address. -/
theorem sharesAddress_iff (w : Nat) {a b c d : Nat} (ha : w ≤ a) (hb : b ≤ w + 0x100000000) (hc : w ≤ c)
    (hd : d ≤ w + 0x100000000) : SharesAddress a b c d ↔ ∃ k, (a ≤ k ∧ k < b) ∧ c ≤ k ∧ k < d := by
  constructor
  · rintro ⟨k, l, hk, hl, hsame⟩
    rw [addressAt_eq_iff] at hsame
    obtain rfl : k = l := by omega
    exact ⟨k, hk, hl⟩
  · rintro ⟨k, hk, hl⟩
    exact ⟨k, k, hk, hl, rfl⟩

/-- **Storage overlaps exactly if more than all of memory is reserved.** -/
theorem Spot.apart_reservations_iff {x : Nat} (hx : 4 ∣ x) {ys : List Spot}
    (sizes : ∀ r ∈ reservations x ys, 0 < r.size ∧ r.size ≤ 0x8000) :
    ((reservations x ys).Pairwise fun q r => ¬ SharesAddress q.position q.stop r.position r.stop) ↔
      ∀ r ∈ reservations x ys, r.stop ≤ x + 0x100000000 := by
  constructor
  · intro apart r hr
    by_contra hbeyond
    have hstop := ((within_reservations x ys).2 r hr).2
    have hend : x + 0x100000000 < storageEnd x ys := by omega
    have hmultiple : 4 ∣ x + 0x100000000 := by omega
    -- the first address is handed out again
    obtain ⟨q, hq, hlow, hhigh⟩ := exists_reservation hmultiple (Nat.le_add_right x _) hend
    obtain ⟨first, rest, hfirst⟩ := List.exists_cons_of_ne_nil (List.ne_nil_of_mem hr)
    have hposition : first.position = x := head?_reservations x ys first (by simp [hfirst])
    have hsize := sizes q hq
    rw [hfirst] at apart hq sizes
    have hfirstSize := sizes first List.mem_cons_self
    have hrest : q ∈ rest := by
      rcases List.mem_cons.mp hq with rfl | hrest
      · unfold Reservation.stop at hhigh
        omega
      · exact hrest
    refine (List.pairwise_cons.mp apart).1 q hrest ⟨x, x + 0x100000000, ?_, ⟨hlow, hhigh⟩, ?_⟩
    · unfold Reservation.stop
      omega
    · rw [addressAt_eq_iff]
      omega
  · intro bounded
    refine (pairwise_reservations x ys).imp_of_mem fun {q r} hq hr hqr => ?_
    have hqx := ((within_reservations x ys).2 q hq).1
    have hrx := ((within_reservations x ys).2 r hr).1
    rw [sharesAddress_iff x hqx (bounded q hq) hrx (bounded r hr)]
    rintro ⟨k, hk, hl⟩
    omega

/-- What the lines of a program reserve, in order. -/
def Assembly.reservations (options : AssemblyOptions) (units : List SourceUnit) : List Reservation :=
  Spot.reservations options.layout.externBase.toNat (spots options units)

/-! ## The pass -/

namespace Placement

/-! ### What reserves nothing -/

theorem nextExtern_foldl {α : Type} {f : Placement → α → Placement}
    (hf : ∀ p a, (f p a).nextExtern = p.nextExtern) (l : List α) (p : Placement) :
    (l.foldl f p).nextExtern = p.nextExtern := by
  induction l generalizing p with
  | nil => rfl
  | cons a l ih => rw [List.foldl_cons, ih, hf]

theorem nextExtern_enterLabels (p : Placement) : p.enterLabels.nextExtern = p.nextExtern := by
  refine nextExtern_foldl (fun p label => ?_) _ _
  unfold enterLabel
  dsimp only
  split <;> rfl

theorem nextExtern_checkUnused (p : Placement) : p.checkUnused.nextExtern = p.nextExtern := by
  unfold checkUnused
  split <;> rfl

theorem nextExtern_awaitLabels (p : Placement) (line : TokenLine) (labels : List (String × Span)) :
    (p.awaitLabels line labels).nextExtern = p.nextExtern := nextExtern_foldl (fun _ _ => by rfl) labels p

theorem nextExtern_exportLabels (p : Placement) (declared : List (String × Site)) :
    (declared.foldl exportLabel p).nextExtern = p.nextExtern := by
  refine nextExtern_foldl (fun p label => ?_) _ _
  unfold exportLabel
  split
  split
  · rfl
  split
  · rfl
  dsimp only
  split <;> rfl

theorem nextExtern_placeBytes (p : Placement) (site : Site) (bytes : List Byte) :
    (p.placeBytes site bytes).nextExtern = p.nextExtern := by
  unfold placeBytes
  dsimp only
  split
  · rfl
  · split <;> rfl

theorem Puts.nextExtern {line : TokenLine} {column : Nat} {p q : Placement} {parts : List Part}
    (puts : Puts line column p parts q) : q.nextExtern = p.nextExtern := by
  induction puts with
  | nil => rfl
  | warn _ _ ih => exact ih
  | @cons p q part parts _ ih =>
      rw [ih]
      cases part with
      | word | gap => rfl
      | bytes | address => exact nextExtern_placeBytes _ _ _

/-! ### What reserves storage -/

section Line

variable {line : TokenLine} {column x : Nat} {p q : Placement} {role : Role}

/-- Storage goes on from where a line leads it. -/
theorem CarriedOut.nextExtern (done : CarriedOut line column p role q)
    (positive : ∀ name size, role = .reserve name size → 0 < size) (h : p.nextExtern = addressAt x) :
    q.nextExtern = addressAt (role.nextStorage x) := by
  cases done with
  | item small kind puts => exact (puts.nextExtern.trans (nextExtern_enterLabels _)).trans h
  | select s position unused =>
      exact ((nextExtern_checkUnused _).trans (nextExtern_enterLabels _)).trans h
  | exports | nothing | ignored => exact h
  | @reserve name size globals added =>
      have hsize : Word.ofInt size = BitVec.ofNat 32 size.toNat :=
        ofInt_eq_ofNat (Int.le_of_lt (positive name size rfl))
      show Word.alignUp (p.nextExtern + Word.ofInt size) 4 = _
      rw [h, hsize, ← addressAt_add]
      exact alignUp_addressAt (x + size.toNat) (k := 2) (by decide)

/-- The name of storage is a symbol that all units see, at the address that storage had come to. -/
theorem CarriedOut.reserved {name : String} {size : Int}
    (done : CarriedOut line column p (.reserve name size) q) :
    q.globals.find? name = some ⟨p.nextExtern, line.source.file, line.source.number, .global⟩ := by
  cases done with
  | reserve added => exact (SymbolTable.adds_of_addGlobal added).added

end Line

/-- A line that reserves storage is a directive with a name and a size. -/
theorem nucleus_of_reserve {extended : Bool} {n : Option Nucleus} {name : String} {size : Int}
    (h : Role.ofNucleus extended n = .reserve name size) :
    n = some (.directive "extern" [.label ⟨name, 0⟩, .imm size]) := by
  unfold Role.ofNucleus at h
  split at h
  case h_1 => cases h
  case h_2 => split at h <;> cases h
  case h_3 directive operands =>
    unfold Role.ofDirective at h
    split at h
    · cases h
    split at h
    · cases h
    split at h
    case isTrue named =>
      split at h
      · cases h
        rw [named]
      · cases h
    case isFalse => split at h <;> cases h

/-- The size of storage is checked. -/
theorem size_of_reserve {p : Placement} {line : TokenLine} {column : Nat} {n : Option Nucleus}
    (spares : (placeNucleus line column p n).Spares ⟨line.source, column⟩) {name : String} {size : Int}
    (h : Role.ofNucleus p.extended n = .reserve name size) : 0 < size ∧ size ≤ 0x8000 := by
  have hacceptable := acceptable_of_spares spares
  have hnucleus := nucleus_of_reserve h
  generalize p.unit.segment = segment at hacceptable
  cases hacceptable with
  | reserve bounds =>
      cases hnucleus
      exact bounds
  | select named =>
      cases hnucleus
      cases named
  | exports named =>
      cases hnucleus
      exact absurd named (by decide)
  | items _ named =>
      cases hnucleus
      exact absurd named (by decide)
  | none | instr | set | align | space => simp at hnucleus

/-! ### What a pass reserves -/

/-- From `p` to `q`, some lines have reserved storage from a position on, and no symbol was lost. -/
structure Reserves (x : Nat) (ys : List Spot) (p q : Placement) : Prop where
  next : q.nextExtern = addressAt (Spot.storageEnd x ys)
  kept : ∀ name s, p.globals.find? name = some s → q.globals.find? name = some s
  reserved : ∀ r ∈ Spot.reservations x ys,
    0 < r.size ∧ r.size ≤ 0x8000 ∧ q.globals.find? r.name = some r.symbol

namespace Reserves

variable {x : Nat} {ys zs : List Spot} {p q r : Placement}

theorem trans (hpq : Reserves x ys p q) (hqr : Reserves (Spot.storageEnd x ys) zs q r) :
    Reserves x (ys ++ zs) p r where
  next := Spot.storageEnd_append x ys zs ▸ hqr.next
  kept name s h := hqr.kept name s (hpq.kept name s h)
  reserved b hb := by
    rw [Spot.reservations_append] at hb
    rcases List.mem_append.mp hb with hb | hb
    · obtain ⟨hpositive, hbound, hfind⟩ := hpq.reserved b hb
      exact ⟨hpositive, hbound, hqr.kept _ _ hfind⟩
    · exact hqr.reserved b hb

/-- Nothing is reserved, and no symbol is lost. -/
theorem quiet (h : p.nextExtern = addressAt x) (next : q.nextExtern = p.nextExtern)
    (kept : ∀ name s, p.globals.find? name = some s → q.globals.find? name = some s) :
    Reserves x [] p q := ⟨next.trans h, kept, by simp [Spot.reservations]⟩

end Reserves

section Pass

variable {x : Nat} {p : Placement} (h : p.nextExtern = addressAt x)
include h

/-- A line reserves what its role says. -/
theorem reserves_placeLine {line : TokenLine} {s : Statement} (hs : Statement.ofTokens line.tokens = .ok s)
    (clean : (p.placeLine line).Clean) (y : Spot) (hline : y.line = line)
    (hrole : y.role = .ofNucleus p.extended s.nucleus) : Reserves x [y] p (p.placeLine line) := by
  have hdone := carriedOut_placeLine hs (clean.spares _)
  have hglobals : (p.awaitLabels line s.labels).globals = p.globals :=
    congrArg Symbols.globals (symbols_awaitLabels p line s.labels)
  have hnext : (p.awaitLabels line s.labels).nextExtern = addressAt x :=
    (nextExtern_awaitLabels p line s.labels).trans h
  have hsize : ∀ name size, y.role = .reserve name size → 0 < size ∧ size ≤ 0x8000 := by
    intro name size hreserve
    have hspares := clean.spares ⟨line.source, s.span.start + 1⟩
    rw [placeLine_eq_placeNucleus hs] at hspares
    have hrole : Role.ofNucleus (p.awaitLabels line s.labels).extended s.nucleus = .reserve name size := by
      rw [(PlacesNothing.awaitLabels p line s.labels).extended, ← hrole, hreserve]
    exact size_of_reserve hspares hrole
  rw [← hrole] at hdone
  refine ⟨?_, fun name t ht => ?_, fun r hr => ?_⟩
  · exact hdone.nextExtern (fun name size hreserve => (hsize name size hreserve).1) hnext
  · rw [← hglobals] at ht
    rcases hdone.find?_globals clean name with ⟨-, hsame⟩ | ⟨-, hnew, -⟩
    · exact hsame.trans ht
    · rw [hnew] at ht
      cases ht
  · rw [Spot.reservations, Spot.reservations, List.append_nil, Option.mem_toList, Spot.reservation?] at hr
    cases hreserve : y.role with
    | reserve name size =>
        rw [hreserve] at hr hdone
        cases hr
        obtain ⟨hpositive, hbound⟩ := hsize name size hreserve
        refine ⟨by dsimp only; omega, by dsimp only; omega, ?_⟩
        rw [hdone.reserved, hnext, Reservation.symbol, hline]
    | item | select | exports | nothing =>
        rw [hreserve] at hr
        cases hr

/-- **Lines reserve what their spots say.** -/
theorem reserves_placeLines {lines : List TokenLine} (clean : (lines.foldl placeLine p).Clean) (unit : Nat)
    (c : Cursor) : Reserves x (Spot.ofLines p.extended unit c lines) p (lines.foldl placeLine p) := by
  induction lines generalizing x p c with
  | nil => exact .quiet h rfl fun _ _ => id
  | cons line below ih =>
      obtain ⟨s, hs, hline, hextended, -⟩ := exists_carriedOut clean
      have hfirst := reserves_placeLine h hs hline
        ⟨unit, c, line, s, .ofNucleus p.extended s.nucleus, below⟩ rfl rfl
      have hbelow := ih hfirst.next clean (c.after (.ofNucleus p.extended s.nucleus))
      rw [hextended] at hbelow
      rw [Spot.ofLines, hs]
      exact hfirst.trans hbelow

end Pass

end Placement

namespace Assembly

open Placement

section Units

variable {x : Nat} {p : Placement} (h : p.nextExtern = addressAt x)
include h

theorem reserves_placeUnit {u : SourceUnit} (clean : (placeUnit p u).1.Clean) (unit : Nat) (c : Cursor) :
    Reserves x (Spot.ofLines p.extended unit c u.expandedLines) p (placeUnit p u).1 := by
  obtain ⟨-, hclosing⟩ := clean_closing clean
  have hlines := reserves_placeLines (p := beginUnit p u) h (clean_of_closing hclosing).2 unit c
  have hclosed : Reserves (Spot.storageEnd x (Spot.ofLines p.extended unit c u.expandedLines)) []
      (u.expandedLines.foldl placeLine (beginUnit p u)) (placeUnit p u).1 := by
    rw [placeUnit_eq_closing clean]
    refine .quiet hlines.next ?_ fun name s hs => ?_
    · exact ((nextExtern_exportLabels _ _).trans (nextExtern_checkUnused _)).trans (nextExtern_enterLabels _)
    · rw [← (symbols_closing hclosing).2] at hs
      exact (exported_foldl_exportLabel _ _).globals name s hs
  have hunit := hlines.trans hclosed
  rw [List.append_nil] at hunit
  exact ⟨hunit.next, hunit.kept, hunit.reserved⟩

theorem reserves_placeUnits {units : List SourceUnit} (clean : (placeUnits p units).1.Clean) (unit : Nat)
    (c : Cursor) : Reserves x (Spot.ofUnits p.extended unit c units) p (placeUnits p units).1 := by
  induction units generalizing x p unit c with
  | nil => exact .quiet h rfl fun _ _ => id
  | cons u rest ih =>
      have hunit : (placeUnit p u).1.Clean := (pass_placeUnits _ rest).extends.clean clean
      have hfirst := reserves_placeUnit h hunit unit c.beginUnit
      have hrest := ih hfirst.next clean (unit + 1) (c.beginUnit.through p.extended u.expandedLines)
      rw [(pass_placeUnit p u).extends.extended] at hrest
      exact hfirst.trans hrest

end Units

/-- **What a program reserves.** -/
theorem reserves_firstPass {options : AssemblyOptions} {units : List SourceUnit}
    (clean : (firstPass options units).Clean) :
    Reserves options.layout.externBase.toNat (spots options units)
      (.initial options.extended options.layout) (firstPass options units) :=
  reserves_placeUnits (addressAt_toNat _).symm clean 0 _

/-! ## Programs -/

/-- In a segment that no line before has moved, a part lies behind the base. -/
theorem base_le_of_mem_parts {options : AssemblyOptions} {units : List SourceUnit} {before after : List Spot}
    {y : Spot} (hspots : spots options units = before ++ y :: after)
    (stays : ∀ z ∈ before, ¬ z.Relocates y.cursor.segment) {a : Nat × Part} (ha : a ∈ y.parts) :
    ((Counters.ofLayout options.layout).get y.cursor.segment).toNat ≤ a.1 := by
  have hstays : ¬ y.Relocates y.cursor.segment := by
    unfold Spot.Relocates
    unfold Spot.parts at ha
    cases hrole : y.role with
    | item => simp [Role.moved?]
    | select | exports | reserve | nothing =>
        rw [hrole] at ha
        cases ha
  have hsplit : spots options units = (before ++ [y]) ++ after := by simp [hspots]
  have hchained := chained_spots options units
  rw [hsplit] at hchained
  obtain ⟨_, hchained, -⟩ := Spot.chained_append.mp hchained
  have haligned : ∀ x ∈ before ++ [y], ∀ n parts, x.role = .item n parts → 0 < n := by
    intro x hx n parts hrole
    have hmem : x ∈ spots options units := hsplit ▸ List.mem_append_left after hx
    exact Spot.alignment_pos hmem hrole
  have hmoves : ∀ x ∈ before ++ [y], ¬ x.Relocates y.cursor.segment := by
    intro x hx
    rcases List.mem_append.mp hx with hx | hx
    · exact stays x hx
    · rwa [List.mem_singleton.mp hx]
  have hpart : a ∈ Spot.partsIn y.cursor.segment (before ++ [y]) :=
    Spot.mem_partsIn.mpr ⟨y, by simp, rfl, ha⟩
  exact ((Spot.ordered_partsIn haligned hmoves hchained).within a hpart).1

/-- In the default layout, text starts before reserved storage, and the other segments after it. -/
theorem base_default (s : Segment) :
    0x00400000 ≤ ((Counters.ofLayout {}).get s).toNat ∧
      (s ≠ .text → 0x10010000 ≤ ((Counters.ofLayout {}).get s).toNat) := by
  cases s <;> decide

/-- **Where reserved storage lies.** In a program that assembles in the default layout, storage is reserved
from 0x10000000 on, each at the next multiple of four, and its name is a symbol that all units see. It overlaps
itself exactly if it goes on past 0x110000000, when all of memory has been handed out. A part of a line, in a
segment that no line before has moved, is apart from storage that ends at the base of the data, as long as text
ends at that of the storage, and nothing goes on past 0x110000000. In general, up to 0x100400000, they share an
address exactly if they share a position: so storage past the base of the data lies on the data. -/
theorem storage_overlaps {options : AssemblyOptions} {units : List SourceUnit} {p : AssembledProgram}
    (ok : (assemble options units).1 = .ok p) (default : options.layout = {}) :
    (∀ r ∈ reservations options units, 4 ∣ r.position ∧ 0 < r.size ∧ r.size ≤ 0x8000 ∧
      p.globals.find? r.name = some r.symbol) ∧
    (∀ r ∈ (reservations options units).head?, r.position = 0x10000000) ∧
    ((reservations options units).IsChain fun q r => r.position = roundUp q.stop 4) ∧
    (((reservations options units).Pairwise fun q r => ¬ SharesAddress q.position q.stop r.position r.stop) ↔
      ∀ r ∈ reservations options units, r.stop ≤ 0x110000000) ∧
    ∀ before y after, spots options units = before ++ y :: after →
      (∀ z ∈ before, ¬ z.Relocates y.cursor.segment) → ∀ a ∈ y.parts, p.Holds y a.1 a.2 ∧
        ∀ r ∈ reservations options units,
          (r.stop ≤ 0x10010000 → (a.1 + a.2.size ≤ 0x10000000 ∨
              y.cursor.segment ≠ .text ∧ a.1 + a.2.size ≤ 0x110000000) →
            ¬ SharesAddress r.position r.stop a.1 (a.1 + a.2.size)) ∧
          (r.stop ≤ 0x100400000 → a.1 + a.2.size ≤ 0x100400000 →
            (SharesAddress r.position r.stop a.1 (a.1 + a.2.size) ↔
              ∃ k, (r.position ≤ k ∧ k < r.stop) ∧ a.1 ≤ k ∧ k < a.1 + a.2.size)) := by
  have hreserves := reserves_firstPass (clean_firstPass ok)
  have hglobals : p.globals = (firstPass options units).globals := by
    obtain ⟨rfl, -⟩ := eq_finish_of_ok ok
    rfl
  have hbase : options.layout.externBase.toNat = 0x10000000 := by
    rw [default]
    rfl
  have hmultiple : 4 ∣ options.layout.externBase.toNat := by
    rw [hbase]
    decide
  have hwithin := (Spot.within_reservations options.layout.externBase.toNat (spots options units)).2
  refine ⟨fun r hr => ?_, fun r hr => ?_, Spot.isChain_reservations _ _, ?_, ?_⟩
  · obtain ⟨hpositive, hbound, hfind⟩ := hreserves.reserved r hr
    exact ⟨Spot.dvd_reservations hmultiple _ r hr, hpositive, hbound, hglobals ▸ hfind⟩
  · rw [Spot.head?_reservations _ _ r hr, hbase]
  · have hlimit : options.layout.externBase.toNat + 0x100000000 = 0x110000000 := by rw [hbase]
    rw [← hlimit]
    exact Spot.apart_reservations_iff hmultiple fun r hr =>
      ⟨(hreserves.reserved r hr).1, (hreserves.reserved r hr).2.1⟩
  · intro before y after hspots stays a ha
    have hmem : y ∈ spots options units := by simp [hspots]
    refine ⟨holds_of_mem_parts ok hmem ha, fun r hr => ?_⟩
    have hbehind := base_le_of_mem_parts hspots stays ha
    have hr := (hwithin r hr).1
    rw [hbase] at hr
    rw [default] at hbehind
    obtain ⟨hlow, hhigh⟩ := base_default y.cursor.segment
    refine ⟨fun hstop hpart => ?_, fun hstop hpart => ?_⟩
    · rcases hpart with hpart | ⟨hsegment, hpart⟩
      · rw [sharesAddress_iff 0x00400000 (by omega) (by omega) (by omega) (by omega)]
        rintro ⟨k, hk, hl⟩
        omega
      · have hhigh := hhigh hsegment
        rw [sharesAddress_iff 0x10000000 (by omega) (by omega) (by omega) (by omega)]
        rintro ⟨k, hk, hl⟩
        omega
    · exact sharesAddress_iff 0x00400000 (by omega) (by omega) (by omega) (by omega)

/-- Storage for three names: the last of it is at the first byte of the data. -/
theorem storage_overlaps_dataBase :
    let a : SourceUnit := .ofText "a.s" ".extern a 0x8000\n.extern b 0x8000\n.extern c 4\n.data\n.word 5"
    ∃ p, (assemble {} [a]).1 = .ok p ∧ p.HoldsBytes 0x10010000 4 ∧
      ∃ r ∈ reservations {} [a], p.globals.find? "c" = some r.symbol ∧ r.symbol.address = 0x10010000 ∧
        SharesAddress r.position r.stop 0x10010000 0x10010004 := by
  intro a
  have hassembles : (assemble {} [a]).1.toOption.isSome := by decide +kernel
  obtain ⟨p, hp⟩ := Option.isSome_iff_exists.mp hassembles
  have ok : (assemble {} [a]).1 = .ok p := eq_ok_of_toOption hp
  obtain ⟨hreserved, -, -, -, hparts⟩ := storage_overlaps ok rfl
  have hlast : ⟨"c", ⟨"a.s", 3, ".extern c 4"⟩, 0x10010000, 4⟩ ∈ reservations {} [a] := by decide +kernel
  have hdata : ∃ y ∈ spots {} [a], (0x10010000, Part.bytes [5, 0, 0, 0]) ∈ y.parts := by decide +kernel
  have hstays : ∀ z ∈ spots {} [a], z.role.moved? = none := by decide +kernel
  obtain ⟨y, hy, hpart⟩ := hdata
  obtain ⟨before, after, hspots⟩ := List.append_of_mem hy
  have hbefore : ∀ z ∈ before, ¬ z.Relocates y.cursor.segment := by
    intro z hz hmoved
    have hnone := hstays z (hspots ▸ List.mem_append_left _ hz)
    exact nomatch hnone.symm.trans hmoved
  obtain ⟨hholds, hshares⟩ := hparts before y after hspots hbefore _ hpart
  obtain ⟨-, -, -, hfind⟩ := hreserved _ hlast
  refine ⟨p, ok, hholds, _, hlast, hfind, by decide, ?_⟩
  exact ((hshares _ hlast).2 (by decide) (by decide)).mpr ⟨0x10010000, by decide⟩

end Assembly

end MipsLab
