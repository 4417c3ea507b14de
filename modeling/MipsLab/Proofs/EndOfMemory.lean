import MipsLab.Proofs.CodeOrder

set_option autoImplicit false

/-!
# Parts at the end of memory

A program that assembles holds every part of its lines at the address of its position
(`Assembly.holds_of_mem_parts`). In a segment that no line moves, positions go up, and so do addresses up
to the last one. What lies past the end of memory is found from address zero on: data that runs
across the end is refused, but instructions, alignment and gaps go on at the first address
(`Assembly.parts_in_order`).
-/

namespace MipsLab

/-! ## Data that stays -/

namespace Placement

theorem contains_writeWrapped_of_contains {data : DataImage} {a : Word} {bytes : List Byte} {k : Nat}
    (h : data.contains k = true) : (fillLabelWord.writeWrapped data a bytes).contains k = true := by
  induction bytes generalizing data a with
  | nil => exact h
  | cons b bytes ih =>
      refine ih ?_
      rw [Std.TreeMap.contains_insert, h, Bool.or_true]

/-- Filling in addresses takes no bytes away. -/
theorem contains_fillLabelWords_of_contains {p : Placement} {ws : List LabelWord} {data : DataImage}
    {k : Nat} (h : data.contains k = true) : (p.fillLabelWords ws data).1.contains k = true := by
  induction ws generalizing data with
  | nil => exact h
  | cons w ws ih =>
      unfold fillLabelWords
      split
      case h_1 filled hfilled =>
        refine ih ?_
        unfold fillLabelWord at hfilled
        split at hfilled
        · cases hfilled
          exact contains_writeWrapped_of_contains h
        · cases hfilled
      case h_2 => exact ih h

end Placement

/-! ## Parts of a program -/

namespace AssembledProgram

/-- All of `n` bytes from the address at a position on are data of the program, and they do not run past
the last address. -/
def HoldsBytes (p : AssembledProgram) (x n : Nat) : Prop :=
  (addressAt x).toNat + n ≤ 0x100000000 ∧ ∀ k < n, ∃ d ∈ p.data, d.Covers (addressAt (x + k))

/-- The program has a part of a line at the address of its position. -/
def Holds (p : AssembledProgram) (x : Spot) (y : Nat) : Part → Prop
  | .word i => ∃ j, i.resolve (p.lookup x.unit) (addressAt y) = .ok j ∧ ⟨x.line, addressAt y, j⟩ ∈ p.code
  | .bytes bs => p.HoldsBytes y bs.length
  | .address _ => p.HoldsBytes y 4
  | .gap _ => True

end AssembledProgram

namespace Assembly

open Placement

section Program

variable {options : AssemblyOptions} {units : List SourceUnit} {p : AssembledProgram}
  (ok : (assemble options units).1 = .ok p)
include ok

/-- Bytes that the first pass has placed are data of the program. -/
theorem holdsBytes_of_filled {x n : Nat} (h : Filled (firstPass options units).data x n) :
    p.HoldsBytes x n := by
  obtain ⟨rfl, -⟩ := eq_finish_of_ok ok
  have hsound : (firstPass options units).Sound :=
    (sound_initial _ _).pass (pass_placeUnits _ units)
  obtain ⟨hfits, hcontains⟩ := h
  refine ⟨hfits, fun k hk => ?_⟩
  have hfilled : (fillLabelWords (firstPass options units) (firstPass options units).labelWords.toList
      (firstPass options units).data).1.contains ((addressAt x).toNat + k) = true :=
    contains_fillLabelWords_of_contains (hcontains k hk)
  rw [Std.TreeMap.contains_eq_isSome_getElem?] at hfilled
  obtain ⟨b, hb⟩ := Option.isSome_iff_exists.mp hfilled
  obtain ⟨d, hd, hbyte⟩ := exists_block_of_getElem?
    (fun _ => contains_fillLabelWords hsound.bounded) hb
  rw [BitVec.ofNat_add, BitVec.ofNat_toNat, BitVec.setWidth_eq, ← addressAt_add] at hbyte
  exact ⟨d, hd, (List.getElem?_eq_some_iff.mp hbyte).1⟩

/-- **A program holds every part of its lines at the address of its position.** -/
theorem holds_of_mem_parts {x : Spot} (hx : x ∈ spots options units) {a : Nat × Part}
    (ha : a ∈ x.parts) : p.Holds x a.1 a.2 := by
  obtain ⟨hinstrs, hlies⟩ := lays_firstPass (clean_firstPass ok)
  have hlie := hlies x hx a ha
  obtain ⟨y, part⟩ := a
  cases part with
  | word i =>
      have hmem : ⟨x.unit, x.line, x.statement.span.start + 1, addressAt y, i⟩ ∈
          (firstPass options units).instrs.toList := by
        rw [hinstrs]
        exact List.mem_flatMap.mpr ⟨x, hx, List.mem_filterMap.mpr ⟨_, ha, rfl⟩⟩
      obtain ⟨j, hj, hcode⟩ := exists_code_of_mem_instrs ok hmem
      obtain ⟨rfl, -⟩ := eq_finish_of_ok ok
      refine ⟨j, ?_, hcode⟩
      rw [lookup_finish]
      exact hj
  | bytes | address => exact holdsBytes_of_filled ok hlie
  | gap => trivial

end Program

theorem toNat_addressAt_eq_iff (x : Nat) : (addressAt x).toNat = x ↔ x < 0x100000000 := by
  rw [toNat_addressAt]
  exact Nat.mod_eq_iff_lt (by decide)

/-- **Parts stand at their positions up to the end of memory, and go on from address zero.** A program
that assembles holds each part of its lines at its position modulo `2 ^ 32`, which is the position itself
exactly below the end of memory; data never runs across the end, but instructions do, and so does all that
comes after alignment or a gap that leads there. Between two directives that move a segment, the parts in
it follow each other by their positions, also from one unit to the next, and so by their addresses up to
the end of memory. -/
theorem parts_in_order {options : AssemblyOptions} {units : List SourceUnit} {p : AssembledProgram}
    (ok : (assemble options units).1 = .ok p) :
    (∀ x ∈ spots options units, ∀ a ∈ x.parts,
      p.Holds x a.1 a.2 ∧ ((addressAt a.1).toNat = a.1 ↔ a.1 < 0x100000000)) ∧
    ∀ (s : Segment) (before between after : List Spot),
      spots options units = before ++ between ++ after → (∀ x ∈ between, ¬ x.Relocates s) →
      (Spot.partsIn s between).Pairwise fun a b => a.1 + a.2.size ≤ b.1 ∧
        (b.1 < 0x100000000 → (addressAt a.1).toNat + a.2.size ≤ (addressAt b.1).toNat) := by
  refine ⟨fun x hx a ha => ⟨holds_of_mem_parts ok hx ha, toNat_addressAt_eq_iff a.1⟩, ?_⟩
  intro s before between after hspots stays
  refine (ordered_between hspots stays).imp fun {a b} hab => ⟨hab, fun hb => ?_⟩
  have ha : a.1 < 0x100000000 := by omega
  rw [(toNat_addressAt_eq_iff a.1).mpr ha, (toNat_addressAt_eq_iff b.1).mpr hb]
  exact hab

/-- An instruction of two words at the end of memory has the second one at address zero. -/
theorem parts_in_order_acrossEnd :
    let a : SourceUnit := .ofText "a.s" ".text 0xFFFFFFFC\nli $t0, 0x12345678"
    ∃ p, (assemble {} [a]).1 = .ok p ∧
      (∃ c ∈ p.code, c.address = 0) ∧
      (Spot.partsIn .text ((spots {} [a]).drop 1)).Pairwise fun b c => b.1 + b.2.size ≤ c.1 := by
  intro a
  let q := firstPass {} [a]
  let words := successes (q.instrs.toList.map q.resolveInstr)
  have hperm : words.reverse.Perm words := words.reverse_perm
  have ok := ok_of_sorted (show firstPass {} [a] = q from rfl) hperm (by decide +kernel)
    (by decide +kernel)
  obtain ⟨holds, ordered⟩ := parts_in_order ok
  refine ⟨_, ok, ?_, ?_⟩
  · have hsecond : ∃ x ∈ spots {} [a], (0x100000000, Part.word
        (.plain (.aluImm .ori ⟨8⟩ .scratch 0x5678))) ∈ x.parts := by decide +kernel
    obtain ⟨x, hx, hpart⟩ := hsecond
    obtain ⟨⟨j, -, hcode⟩, -⟩ := holds x hx _ hpart
    exact ⟨_, hcode, show addressAt 0x100000000 = 0 by decide⟩
  · have hrest := ordered .text ((spots {} [a]).take 1) ((spots {} [a]).drop 1) []
      (by rw [List.append_nil, List.take_append_drop]) (by decide +kernel)
    exact hrest.imp And.left

end Assembly

end MipsLab
