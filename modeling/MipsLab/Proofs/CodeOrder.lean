import MipsLab.Proofs.LayoutPass
import MipsLab.Proofs.Linking

set_option autoImplicit false

/-!
# The code of a program, line by line

The code of a program that assembles is made up of one row for each line (`AssembledProgram.row`). The
row of an instruction has what the instruction is lowered to, one word after the other; all other rows
are empty. The program lists its code in the order of addresses, so it can be searched by halving
(`searchCode_eq_some_iff`), and in a text segment that no line moves this is the order of the lines
(`Assembly.code_of_lines`).
-/

namespace MipsLab

/-! ## Searching -/

/-- The code before the one in the middle comes before it by its addresses too, and so does the code
after it. -/
theorem halves_of_ascending {code later : List CodeWord} {middle : CodeWord}
    (ascending : code.Pairwise fun c d => c.address < d.address)
    (hdrop : code.drop (code.length / 2) = middle :: later) :
    (code.take (code.length / 2)).Pairwise (fun c d => c.address < d.address) ∧
      later.Pairwise (fun c d => c.address < d.address) ∧
      (∀ c ∈ code.take (code.length / 2), c.address < middle.address) ∧
      (∀ c ∈ later, middle.address < c.address) ∧
      ∀ c, c ∈ code ↔ c ∈ code.take (code.length / 2) ∨ c = middle ∨ c ∈ later := by
  have hsplit : code.take (code.length / 2) ++ middle :: later = code := by
    rw [← hdrop, List.take_append_drop]
  have hmem : ∀ c, c ∈ code ↔ c ∈ code.take (code.length / 2) ++ middle :: later := by
    intro c
    rw [hsplit]
  rw [← hsplit] at ascending
  obtain ⟨hearlier, hrest, hacross⟩ := List.pairwise_append.mp ascending
  obtain ⟨hlater, hpairs⟩ := List.pairwise_cons.mp hrest
  refine ⟨hearlier, hpairs, fun c hc => hacross c hc middle List.mem_cons_self, hlater, fun c => ?_⟩
  rw [hmem, List.mem_append, List.mem_cons]

/-- **Halving finds what is in the code.** -/
theorem searchCode_eq_some_iff {code : List CodeWord}
    (ascending : code.Pairwise fun c d => c.address < d.address) {a : Word} {c : CodeWord} :
    searchCode a code = some c ↔ c ∈ code ∧ c.address = a := by
  -- what is given up at each halving lies on the wrong side of the middle
  fun_induction searchCode a code with
  | case1 code hdrop =>
      have hlength : code.length ≤ code.length / 2 := List.drop_eq_nil_iff.mp hdrop
      have hnil : code = [] := List.length_eq_zero_iff.mp (by omega)
      simp [hnil]
  | case2 code middle later hdrop hmiddle =>
      obtain ⟨-, -, hbefore, hafter, hmem⟩ := halves_of_ascending ascending hdrop
      rw [hmem, Option.some.injEq]
      constructor
      · rintro rfl
        exact ⟨.inr (.inl rfl), hmiddle⟩
      · rintro ⟨hc | rfl | hc, rfl⟩
        · exact absurd (hmiddle ▸ hbefore c hc) (BitVec.lt_irrefl _)
        · rfl
        · exact absurd (hmiddle ▸ hafter c hc) (BitVec.lt_irrefl _)
  | case3 code middle later hdrop hmiddle hless ih =>
      obtain ⟨-, hlater, hbefore, -, hmem⟩ := halves_of_ascending ascending hdrop
      rw [ih hlater, hmem]
      constructor
      · exact fun ⟨hc, ha⟩ => ⟨.inr (.inr hc), ha⟩
      · rintro ⟨hc | rfl | hc, rfl⟩
        · exact absurd (BitVec.lt_trans hless (hbefore c hc)) (BitVec.lt_irrefl _)
        · exact absurd rfl hmiddle
        · exact ⟨hc, rfl⟩
  | case4 code middle later hdrop hmiddle hgreater ih =>
      obtain ⟨hearlier, -, -, hafter, hmem⟩ := halves_of_ascending ascending hdrop
      rw [ih hearlier, hmem]
      constructor
      · exact fun ⟨hc, ha⟩ => ⟨.inl hc, ha⟩
      · rintro ⟨hc | rfl | hc, rfl⟩
        · exact ⟨hc, rfl⟩
        · exact absurd rfl hmiddle
        · exact absurd (hafter c hc) hgreater

/-- Sorting code leads to the one ascending order that there is, if there is one. -/
theorem sortCode_eq_of_perm {code sorted : List CodeWord} (perm : sorted.Perm code)
    (ascending : sorted.Pairwise fun c d => c.address < d.address) :
    Placement.sortCode code = sorted := by
  have hperm : (Placement.sortCode code).Perm sorted := (List.mergeSort_perm _ _).trans perm.symm
  have hle : sorted.Pairwise fun c d => c.address ≤ d.address := ascending.imp BitVec.le_of_lt
  refine hperm.eq_of_pairwise (fun c d hc hd hcd hdc => ?_) (Placement.pairwise_sortCode code) hle
  -- code at one address is the same code, since a search finds only one
  have hc := (searchCode_eq_some_iff ascending).mpr ⟨hperm.subset hc, BitVec.le_antisymm hcd hdc⟩
  have hd := (searchCode_eq_some_iff ascending).mpr ⟨hd, rfl⟩
  exact Option.some.inj (hc.symm.trans hd)

/-! ## Rows -/

namespace AssembledProgram

/-- The address of a label as the unit of the given index sees it. -/
def lookup (p : AssembledProgram) (unit : Nat) (name : String) : Option Word :=
  (p.locals[unit]?.bind (·.addressOf? name)) <|> p.globals.addressOf? name

/-- The code of a placed instruction. -/
def codeWord? (p : AssembledProgram) (i : PlacedInstr) : Option CodeWord :=
  match i.instr.resolve (p.lookup i.unit) i.address with
  | .ok j => some ⟨i.line, i.address, j⟩
  | .error _ => none

/-- The code of a line. -/
def row (p : AssembledProgram) (x : Spot) : List CodeWord := x.instrs.filterMap p.codeWord?

/-- The code of some lines in a segment, in the order of the lines. -/
def rowsIn (p : AssembledProgram) (s : Segment) (xs : List Spot) : List CodeWord :=
  xs.flatMap fun x => if x.cursor.segment = s then p.row x else []

/-- Some code is what a line stands for. An instruction stands for what it is lowered to, resolved with
the addresses of the program and one at each word from the next multiple of four on. Nothing else stands
for code. -/
def IsRow (p : AssembledProgram) (extended : Bool) (x : Spot) (code : List CodeWord) : Prop :=
  match x.statement.nucleus with
  | some (.instr name operands) =>
    ∃ is, lower name operands extended = .ok is ∧ code.length = is.length ∧
      ∀ (k : Nat) (i : SymbolicInstr), is[k]? = some i → ∃ j,
        code[k]? = some ⟨x.line, addressAt (roundUp x.cursor.here 4 + 4 * k), j⟩ ∧
        i.resolve (p.lookup x.unit) (addressAt (roundUp x.cursor.here 4 + 4 * k)) = .ok j
  | _ => code = []

end AssembledProgram

namespace Placement

theorem lookup_finish (q : Placement) (layout : MemoryLayout) : (q.finish layout).lookup = q.lookup := by
  funext unit name
  show (q.locals.toList[unit]?.bind _ <|> _) = _
  rw [Array.getElem?_toList]
  rfl

/-- The code of a finished program is that of its instructions, put in order. -/
theorem code_finish_perm (q : Placement) (layout : MemoryLayout) :
    (q.finish layout).code.Perm (q.instrs.toList.filterMap (q.finish layout).codeWord?) := by
  have hsuccesses : successes (q.instrs.toList.map q.resolveInstr) =
      q.instrs.toList.filterMap (q.finish layout).codeWord? := by
    rw [successes, List.filterMap_map]
    congr
    funext i
    rw [Function.comp_apply, AssembledProgram.codeWord?, lookup_finish, resolveInstr]
    cases i.instr.resolve (q.lookup i.unit) i.address <;> rfl
  rw [← hsuccesses]
  exact List.mergeSort_perm _ _

end Placement

/-- The words of an instruction are resolved one by one. -/
theorem AssembledProgram.row_words {p : AssembledProgram} {unit : Nat} {line : TokenLine} {column : Nat}
    {is : List SymbolicInstr} {y : Nat}
    (resolved : ∀ i ∈ (Part.locate y (is.map .word)).filterMap (Placement.recorded? unit line column),
      ∃ j, i.instr.resolve (p.lookup i.unit) i.address = .ok j ∧
        p.codeWord? i = some ⟨i.line, i.address, j⟩) :
    let code := ((Part.locate y (is.map .word)).filterMap
      (Placement.recorded? unit line column)).filterMap p.codeWord?
    code.length = is.length ∧ ∀ (k : Nat) (i : SymbolicInstr), is[k]? = some i → ∃ j,
      code[k]? = some ⟨line, addressAt (y + 4 * k), j⟩ ∧
      i.resolve (p.lookup unit) (addressAt (y + 4 * k)) = .ok j := by
  induction is generalizing y with
  | nil => exact ⟨rfl, by simp⟩
  | cons i is ih =>
      rw [List.map_cons, Part.locate, List.filterMap_cons_some (by rfl)] at resolved ⊢
      obtain ⟨⟨j, hj, hword⟩, hrest⟩ := List.forall_mem_cons.mp resolved
      obtain ⟨hlength, hcode⟩ := ih hrest
      dsimp only
      rw [List.filterMap_cons_some hword]
      refine ⟨congrArg (· + 1) hlength, fun k i' hi' => ?_⟩
      cases k with
      | zero =>
          obtain rfl := Option.some.inj hi'
          exact ⟨j, rfl, hj⟩
      | succ k =>
          obtain ⟨j', hj', hresolve⟩ := hcode k i' hi'
          have hnext : y + Part.size (.word i) + 4 * k = y + 4 * (k + 1) := by
            show y + 4 + 4 * k = y + 4 * (k + 1)
            omega
          rw [hnext] at hj' hresolve
          exact ⟨j', hj', hresolve⟩

/-- Only instructions have words. -/
theorem Role.word_notMem_located {extended : Bool} {n : Option Nucleus}
    (hn : ∀ name operands, n ≠ some (.instr name operands)) (x y : Nat) (i : SymbolicInstr) :
    (y, .word i) ∉ (ofNucleus extended n).located x := by
  intro h
  unfold ofNucleus at h
  split at h
  case h_1 => cases h
  case h_2 name operands => exact hn name operands rfl
  case h_3 name operands =>
    unfold ofDirective at h
    split at h
    case h_1 => cases h
    case h_2 =>
      split at h
      · cases h
      split at h
      · split at h <;> cases h
      split at h
      · exact Placement.ne_word_of_ofOperand? (Part.mem_of_mem_locate h)
      · cases h

namespace Assembly

open Placement

/-- A line without an instruction has no code. -/
theorem instrs_of_ne_instr {options : AssemblyOptions} {units : List SourceUnit} {x : Spot}
    (hx : x ∈ spots options units)
    (hn : ∀ name operands, x.statement.nucleus ≠ some (.instr name operands)) : x.instrs = [] := by
  obtain ⟨_, _, _, _, _, hx⟩ := Spot.mem_ofUnits hx
  obtain ⟨-, -, hrole, -⟩ := Spot.mem_ofLines hx
  have hwords : ∀ y i, (y, .word i) ∉ x.role.located x.cursor.here := by
    rw [hrole]
    exact Role.word_notMem_located hn x.cursor.here
  rw [Spot.instrs, List.filterMap_eq_nil_iff]
  rintro ⟨y, part⟩ ha
  cases part with
  | word i => exact absurd ha (hwords y i)
  | bytes | address | gap => rfl

section Program

variable {options : AssemblyOptions} {units : List SourceUnit} {p : AssembledProgram}
  (ok : (assemble options units).1 = .ok p)
include ok

/-- The code of a program is made up of the rows of its lines. -/
theorem code_perm_rows : p.code.Perm ((spots options units).flatMap p.row) := by
  have hinstrs := (lays_firstPass (clean_firstPass ok)).1
  obtain ⟨rfl, -⟩ := eq_finish_of_ok ok
  have hperm := code_finish_perm (firstPass options units) options.layout
  rw [hinstrs, List.filterMap_flatMap] at hperm
  exact hperm

/-- The code of a program is in ascending order of addresses. -/
theorem ascending_code : p.code.Pairwise fun c d => c.address < d.address := by
  obtain ⟨rfl, without⟩ := eq_finish_of_ok ok
  exact pairwise_of_codeConflicts_eq_nil (pairwise_sortCode _) (codeConflicts_eq_nil without)

theorem isAligned_code {c : CodeWord} (hc : c ∈ p.code) : Word.isAligned c.address 4 = true := by
  obtain ⟨rfl, -⟩ := eq_finish_of_ok ok
  exact isAligned_of_mem_code ((sound_initial _ _).pass (pass_placeUnits _ units)) _ hc

/-- Each instruction that the layout has is resolved. -/
theorem exists_codeWord {x : Spot} (hx : x ∈ spots options units) {i : PlacedInstr}
    (hi : i ∈ x.instrs) :
    ∃ j, i.instr.resolve (p.lookup i.unit) i.address = .ok j ∧
      p.codeWord? i = some ⟨i.line, i.address, j⟩ := by
  have hmem : i ∈ (firstPass options units).instrs.toList := by
    rw [(lays_firstPass (clean_firstPass ok)).1]
    exact List.mem_flatMap.mpr ⟨x, hx, hi⟩
  obtain ⟨j, hj, -⟩ := exists_code_of_mem_instrs ok hmem
  obtain ⟨rfl, -⟩ := eq_finish_of_ok ok
  rw [AssembledProgram.codeWord?, lookup_finish, hj]
  exact ⟨j, rfl, rfl⟩

/-- The row of a line is what the line stands for. -/
theorem isRow_row {x : Spot} (hx : x ∈ spots options units) : p.IsRow options.extended x (p.row x) := by
  have hresolved := fun i hi => exists_codeWord ok hx (i := i) hi
  unfold AssembledProgram.IsRow
  split
  case h_1 name operands hn =>
    obtain ⟨is, lowered, hrole⟩ := role_of_instr (clean_firstPass ok) hx hn
    unfold AssembledProgram.row
    rw [Spot.instrs, Spot.parts, hrole, Role.located] at hresolved ⊢
    obtain ⟨hlength, hcode⟩ := AssembledProgram.row_words hresolved
    exact ⟨is, lowered, hlength, hcode⟩
  case h_2 hn =>
    rw [AssembledProgram.row, instrs_of_ne_instr hx hn]
    rfl

end Program

end Assembly

/-! ## The order of the rows -/

namespace Spot

/-- A line of instructions leads from one multiple of four to another. -/
theorem positions_single {s : Segment} {x : Spot}
    (words : x.cursor.segment = s → ∀ a parts, x.role = .item a parts →
      a = 4 ∧ ∃ is : List SymbolicInstr, parts = is.map .word)
    (stays : ¬ x.Relocates s) :
    (partsIn s [x]).map (·.1) =
        List.range' (roundUp (x.cursor.positions s) 4) (partsIn s [x]).length 4 ∧
      roundUp ((x.cursor.after x.role).positions s) 4 =
        roundUp (x.cursor.positions s) 4 + 4 * (partsIn s [x]).length := by
  rcases partsIn_single stays with ⟨hs, a, parts, hrole, hparts, hafter⟩ | ⟨hparts, hafter⟩
  · obtain ⟨rfl, is, rfl⟩ := words hs a parts hrole
    have hlength : (partsIn s [x]).length = is.length := by
      have hpositions := congrArg List.length
        (Part.positions_locate_words (roundUp (x.cursor.positions s) 4) is)
      rwa [List.length_map, List.length_range', ← hparts] at hpositions
    have hdvd : 4 ∣ roundUp (x.cursor.positions s) 4 + 4 * is.length :=
      Nat.dvd_add (dvd_roundUp _ 4) (Nat.dvd_mul_right 4 _)
    rw [hlength, hafter, Part.total_words, hparts, Part.positions_locate_words]
    exact ⟨rfl, roundUp_of_dvd (by decide) hdvd⟩
  · rw [hparts, hafter]
    exact ⟨rfl, rfl⟩

/-- **In a segment that has nothing but instructions, positions go up in steps of four.** -/
theorem positions_partsIn {s : Segment} {xs : List Spot}
    (words : ∀ x ∈ xs, x.cursor.segment = s → ∀ a parts, x.role = .item a parts →
      a = 4 ∧ ∃ is : List SymbolicInstr, parts = is.map .word)
    (stays : ∀ x ∈ xs, ¬ x.Relocates s) {start stop : Segment → Nat} (chained : Chained start xs stop) :
    (partsIn s xs).map (·.1) = List.range' (roundUp (start s) 4) (partsIn s xs).length 4 := by
  induction xs generalizing start with
  | nil => rfl
  | cons x xs ih =>
      obtain ⟨rfl, hrest⟩ := chained
      obtain ⟨hwords, hlater⟩ := List.forall_mem_cons.mp words
      obtain ⟨hstays, hstay⟩ := List.forall_mem_cons.mp stays
      obtain ⟨hfirst, hnext⟩ := positions_single hwords hstays
      rw [partsIn_cons, List.map_append, hfirst, ih hlater hstay hrest, hnext, List.length_append,
        List.range'_append]

end Spot

/-- Where nothing is left out, filtering is mapping. -/
theorem map_filterMap_of_forall {α β γ : Type} {f : α → Option β} {g : β → γ} {h : α → γ} {l : List α}
    (hf : ∀ a ∈ l, ∃ b, f a = some b ∧ g b = h a) : (l.filterMap f).map g = l.map h := by
  induction l with
  | nil => rfl
  | cons a l ih =>
      obtain ⟨⟨b, hb, hg⟩, hl⟩ := List.forall_mem_cons.mp hf
      rw [List.filterMap_cons_some hb, List.map_cons, List.map_cons, ih hl, hg]

namespace Assembly

open Placement

section Program

variable {options : AssemblyOptions} {units : List SourceUnit} {p : AssembledProgram}
  (ok : (assemble options units).1 = .ok p)
include ok

/-- The code of a line in a text segment stands at the positions of its parts. -/
theorem addresses_row {x : Spot} (hx : x ∈ spots options units)
    (htext : x.cursor.segment.isText = true) :
    (p.row x).map (·.address) = x.parts.map fun a => addressAt a.1 := by
  have hrow : (p.row x).map (·.address) = x.instrs.map (·.address) := by
    refine map_filterMap_of_forall fun i hi => ?_
    obtain ⟨j, -, hword⟩ := exists_codeWord ok hx hi
    exact ⟨_, hword, rfl⟩
  rw [hrow]
  refine map_filterMap_of_forall fun a ha => ?_
  obtain ⟨i, hi⟩ := word_of_mem_parts (clean_firstPass ok) hx htext ha
  obtain ⟨y, part⟩ := a
  obtain rfl := hi
  exact ⟨_, rfl, rfl⟩

/-- The code of a text segment stands at the positions of its parts. -/
theorem addresses_rowsIn {s : Segment} (htext : s.isText = true) :
    (p.rowsIn s (spots options units)).map (·.address) =
      (Spot.partsIn s (spots options units)).map fun a => addressAt a.1 := by
  rw [AssembledProgram.rowsIn, Spot.partsIn, List.map_flatMap, List.map_flatMap, List.flatMap_def,
    List.flatMap_def]
  refine congrArg List.flatten (List.map_congr_left fun x hx => ?_)
  split
  · next hs => exact addresses_row ok hx (hs ▸ htext)
  · rfl

/-- The code of a text segment has no gaps. -/
theorem range_rowsIn {s : Segment} (htext : s.isText = true)
    (stays : ∀ x ∈ spots options units, ¬ x.Relocates s)
    (fits : (lastCursor options units).positions s ≤ 0x100000000) :
    (p.rowsIn s (spots options units)).map (·.address.toNat) =
      List.range' (roundUp ((Cursor.initial options.layout).positions s) 4)
        (p.rowsIn s (spots options units)).length 4 := by
  have clean := clean_firstPass ok
  have hchained := chained_spots options units
  have hordered := Spot.ordered_partsIn (fun x hx _ _ hrole => Spot.alignment_pos hx hrole) stays hchained
  have hwords : ∀ x ∈ spots options units, x.cursor.segment = s → ∀ a parts, x.role = .item a parts →
      a = 4 ∧ ∃ is : List SymbolicInstr, parts = is.map .word := by
    intro x hx hs a parts hrole
    rcases kind_of_mem_spots clean hx hrole with ⟨-, rfl, his⟩ | ⟨hdata, -⟩
    · exact ⟨rfl, his⟩
    · rw [hs, htext] at hdata
      cases hdata
  have haddresses := addresses_rowsIn ok htext
  have hlength : (p.rowsIn s (spots options units)).length =
      (Spot.partsIn s (spots options units)).length := by
    simpa using congrArg List.length haddresses
  calc (p.rowsIn s (spots options units)).map (·.address.toNat)
    _ = ((p.rowsIn s (spots options units)).map (·.address)).map (·.toNat) := by rw [List.map_map]; rfl
    _ = (Spot.partsIn s (spots options units)).map fun a => (addressAt a.1).toNat := by
        rw [haddresses, List.map_map]; rfl
    _ = (Spot.partsIn s (spots options units)).map (·.1) := by
        refine List.map_congr_left fun a ha => ?_
        obtain ⟨x, hx, hs, hparts⟩ := Spot.mem_partsIn.mp ha
        obtain ⟨i, hi⟩ := word_of_mem_parts clean hx (hs ▸ htext) hparts
        have hend := (hordered.within a ha).2
        have hsize : a.2.size = 4 := by rw [hi]; rfl
        rw [toNat_addressAt, Nat.mod_eq_of_lt (by omega)]
    _ = _ := by rw [Spot.positions_partsIn hwords stays hchained, hlength]

end Program

/-- **The code of a program is complete and in order.** Take a program that assembles. Each line of its
units, with all macros expanded, has a row, and the code is made up of these rows: the row of an
instruction is what the instruction is lowered to, resolved and at consecutive words, and other lines have
no code. All code stands at multiples of four, no two words at the same address, and the program lists it
in ascending order, so looking an address up finds the code there. In a text segment that no directive
moves and that does not run past the last address, the rows follow each other without gaps, in the order
of the units and of the lines in them, from the base of the segment on. -/
theorem code_of_lines {options : AssemblyOptions} {units : List SourceUnit} {p : AssembledProgram}
    (ok : (assemble options units).1 = .ok p) :
    (spots options units).map (fun x => (x.unit, x.line)) =
      (units.zipIdx.flatMap fun (u, k) => u.expandedLines.map (k, ·)) ∧
    (∀ x ∈ spots options units, Statement.ofTokens x.line.tokens = .ok x.statement ∧
      p.IsRow options.extended x (p.row x)) ∧
    p.code.Perm ((spots options units).flatMap p.row) ∧
    (∀ c ∈ p.code, Word.isAligned c.address 4 = true) ∧
    p.code.Pairwise (fun c d => c.address < d.address) ∧
    (∀ a c, p.codeAt? a = some c ↔ c ∈ p.code ∧ c.address = a) ∧
    ∀ s : Segment, s.isText = true → (∀ x ∈ spots options units, ¬ x.Relocates s) →
      (lastCursor options units).positions s ≤ 0x100000000 →
      (p.rowsIn s (spots options units)).map (·.address.toNat) =
        List.range' (roundUp ((Cursor.initial options.layout).positions s) 4)
          (p.rowsIn s (spots options units)).length 4 := by
  have ascending := ascending_code ok
  refine ⟨lines_spots (clean_firstPass ok), fun x hx => ⟨?_, isRow_row ok hx⟩, code_perm_rows ok,
    fun c hc => isAligned_code ok hc, ascending, fun a c => searchCode_eq_some_iff ascending,
    fun s htext stays fits => range_rowsIn ok htext stays fits⟩
  obtain ⟨_, _, _, _, _, hx⟩ := Spot.mem_ofUnits hx
  exact (Spot.mem_ofLines hx).2.1

/-- A program assembles if its code can be put in ascending order and nothing else is wrong with it. -/
theorem ok_of_sorted {options : AssemblyOptions} {units : List SourceUnit} {q : Placement}
    (hq : firstPass options units = q) {sorted : List CodeWord}
    (perm : sorted.Perm (successes (q.instrs.toList.map q.resolveInstr)))
    (ascending : sorted.Pairwise fun c d => c.address < d.address)
    (accepted : options.refuses (q.diagnostics ++ failures (q.instrs.toList.map q.resolveInstr) ++
      (q.fillLabelWords q.labelWords.toList q.data).2 ++ codeConflicts sorted) = false) :
    (assemble options units).1 = .ok (q.finish options.layout) := by
  have hcode : (q.finish options.layout).code = sorted := sortCode_eq_of_perm perm ascending
  have hwarnings : (q.finish options.layout).warnings =
      q.diagnostics ++ failures (q.instrs.toList.map q.resolveInstr) ++
        (q.fillLabelWords q.labelWords.toList q.data).2 ++ codeConflicts sorted := by
    rw [← hcode]
    rfl
  subst hq
  unfold assemble
  dsimp only
  rw [if_neg]
  · rfl
  · show ¬ options.refuses ((firstPass options units).finish options.layout).warnings = true
    rw [hwarnings, accepted]
    decide

/-- Two units that both have code in the text segment, with other segments in between. -/
theorem code_of_lines_acrossUnits :
    let a : SourceUnit := .ofText "a.s" "main: li $t0, 0x12345678\n.data\n.byte 1\n.text\nj main"
    let b : SourceUnit := .ofText "b.s" ".ktext\nnop\n.text\nnop"
    ∃ p, (assemble {} [a, b]).1 = .ok p ∧
      (p.rowsIn .text (spots {} [a, b])).map (·.address.toNat) =
        [0x00400000, 0x00400004, 0x00400008, 0x0040000c] ∧
      (p.codeAt? 0x00400008).map (·.instr) = some (.jump false 0x100000) := by
  intro a b
  let q := firstPass {} [a, b]
  let words := successes (q.instrs.toList.map q.resolveInstr)
  have hperm : (words.eraseIdx 3 ++ words[3]?.toList).Perm words := by decide +kernel
  have ok := ok_of_sorted (show firstPass {} [a, b] = q from rfl) hperm (by decide +kernel)
    (by decide +kernel)
  obtain ⟨-, -, -, -, -, hat, hrows⟩ := code_of_lines ok
  have hrow := hrows .text rfl (by decide +kernel) (by decide +kernel)
  have hlength : ((q.finish {}).rowsIn .text (spots {} [a, b])).length = 4 := by decide +kernel
  have hjump : ∃ c ∈ words, c.address = 0x00400008 ∧ c.instr = .jump false 0x100000 := by
    decide +kernel
  obtain ⟨c, hc, haddress, hinstr⟩ := hjump
  rw [hlength] at hrow
  refine ⟨_, ok, hrow.trans (by decide +kernel), ?_⟩
  have hmem : c ∈ (q.finish {}).code := List.mem_mergeSort.mpr hc
  rw [(hat 0x00400008 c).mpr ⟨hmem, haddress⟩, Option.map_some, hinstr]

end Assembly

end MipsLab
