import Mathlib.Algebra.Group.Int.Defs
import Mathlib.Data.List.Nodup
import Mathlib.Data.List.Pairwise
import MipsLab.Proofs.CodeOrder

set_option autoImplicit false

/-!
# The data image of a program

The bytes of data of a program that assembles are exactly those that its data directives stand for
(`Assembly.data_image`): numbers and addresses of labels in little-endian order, texts as UTF-8, each at the
position that the layout gives it. No byte is written twice, and the blocks are the maximal runs of bytes at
consecutive addresses.

The first pass writes every byte once and zeros for addresses that it does not know yet (`Trace.written`).
The second pass changes nothing but these zeros (`toList_fillLabelWords`).
-/

namespace MipsLab

/-! ## The bytes that directives stand for -/

/-- The `width` bytes of a number modulo `256 ^ width`, in little-endian order. -/
def littleEndian (width : Nat) (n : Int) : List Byte :=
  (List.range width).map fun k => BitVec.ofInt 8 (n / 256 ^ k)

/-- Bytes one after the other from a position on, with their addresses. -/
def addressed (x : Nat) (bs : List Byte) : List (Word × Byte) :=
  (Placement.spread x bs).map fun q => (addressAt q.1, q.2)

/-- The bytes of a block with their addresses. -/
def DataBlock.contents (d : DataBlock) : List (Word × Byte) := addressed d.address.toNat d.bytes

namespace AssembledProgram

/-- The address of a label with its offset, as the unit of the given index sees it. -/
def target (p : AssembledProgram) (unit : Nat) (l : LabelRef) : Int :=
  ((p.lookup unit l.name).getD 0).toNat + l.offset

/-- The bytes that an operand of a data directive stands for. -/
def operandBytes (p : AssembledProgram) (unit : Nat) (name : String) (operand : Operand) : List Byte :=
  match name, operand with
  | "word", .imm n => littleEndian 4 n
  | "word", .label l => littleEndian 4 (p.target unit l)
  | "half", .imm n => littleEndian 2 n
  | "byte", .imm n => littleEndian 1 n
  | "ascii", .str text => Utf8.encode text.toList
  | "asciiz", .str text => Utf8.encode text.toList ++ [0]
  | _, _ => []

/-- The bytes of data that a line stands for, with their addresses. -/
def lineData (p : AssembledProgram) (x : Spot) : List (Word × Byte) :=
  match x.statement.nucleus with
  | some (.directive name operands) =>
    addressed (roundUp x.cursor.here (Role.alignment name operands))
      (operands.flatMap (p.operandBytes x.unit name))
  | _ => []

/-- The bytes of data that a part of a line of a unit stands for. -/
def partBytes (p : AssembledProgram) (unit : Nat) : Part → List Byte
  | .bytes bs => bs
  | .address l => littleEndian 4 (p.target unit l)
  | _ => []

end AssembledProgram

/-! ### Numbers -/

theorem byte_ofInt (n : Int) {k : Nat} (hk : k < 4) :
    Word.byte (Word.ofInt n) k = BitVec.ofInt 8 (n / 256 ^ k) := by
  apply BitVec.eq_of_toNat_eq
  rw [Word.byte, BitVec.extractLsb'_toNat, Word.ofInt, BitVec.toNat_ofInt, BitVec.toNat_ofInt,
    Nat.shiftRight_eq_div_pow]
  have : k = 0 ∨ k = 1 ∨ k = 2 ∨ k = 3 := by omega
  rcases this with rfl | rfl | rfl | rfl <;> simp <;> omega

theorem bytes_ofInt (n : Int) : Word.bytes (Word.ofInt n) = littleEndian 4 n := by
  rw [Word.bytes, byte_ofInt n (by decide), byte_ofInt n (by decide), byte_ofInt n (by decide),
    byte_ofInt n (by decide)]
  rfl

theorem take_littleEndian {k width : Nat} (h : k ≤ width) (n : Int) :
    (littleEndian width n).take k = littleEndian k n := by
  rw [littleEndian, ← List.map_take, List.take_range, Nat.min_eq_left h, littleEndian]

theorem length_littleEndian (width : Nat) (n : Int) : (littleEndian width n).length = width := by
  simp [littleEndian]

/-! ### Positions and addresses -/

theorem addressed_append (x : Nat) (first second : List Byte) :
    addressed x (first ++ second) = addressed x first ++ addressed (x + first.length) second := by
  induction first generalizing x with
  | nil => rfl
  | cons b first ih =>
      have h := ih (x + 1)
      rw [addressed, addressed] at h
      rw [List.cons_append, addressed, Placement.spread, List.map_cons, h, List.length_cons,
        Nat.add_right_comm, Nat.add_assoc]
      rfl

/-- The address at a position leads to the same addresses as the position. -/
theorem addressed_toNat (x : Nat) (bs : List Byte) : addressed (addressAt x).toNat bs = addressed x bs := by
  have h : ∀ (k : Nat), (Placement.spread ((addressAt x).toNat + k) bs).map
      (fun q => (addressAt q.1, q.2)) = addressed (x + k) bs := by
    induction bs with
    | nil => exact fun k => rfl
    | cons b bs ih =>
        intro k
        have hfirst : addressAt ((addressAt x).toNat + k) = addressAt (x + k) := by
          rw [addressAt_add, addressAt_toNat, addressAt_add]
        rw [Placement.spread, List.map_cons, hfirst, Nat.add_assoc, ih (k + 1)]
        rfl
  exact h 0

/-! ### Lines -/

theorem Part.exists_mem_locate (y : Nat) {part : Part} {parts : List Part} (h : part ∈ parts) :
    ∃ z, (z, part) ∈ locate y parts := by
  induction parts generalizing y with
  | nil => cases h
  | cons first parts ih =>
      rcases List.mem_cons.mp h with rfl | h
      · exact ⟨y, List.mem_cons_self⟩
      · exact (ih (y + first.size) h).imp fun z hz => List.mem_cons_of_mem _ hz

namespace AssembledProgram

variable (p : AssembledProgram) (unit : Nat)

theorem operandBytes_of_part {name : String} {operand : Operand} {part : Part}
    (h : Part.ofOperand? name operand = some part) :
    p.operandBytes unit name operand = p.partBytes unit part := by
  unfold Part.ofOperand? at h
  split at h <;> cases h
  case h_1 n => exact (bytes_ofInt n).symm
  case h_2 l => rfl
  case h_3 n => exact .symm (bytes_ofInt n ▸ take_littleEndian (by decide) n)
  case h_4 n => exact .symm (bytes_ofInt n ▸ take_littleEndian (by decide) n)
  case h_5 text => rfl
  case h_6 text => rfl
  case h_7 n => rfl

theorem operandBytes_of_none {name : String} {operand : Operand}
    (h : Part.ofOperand? name operand = none) : p.operandBytes unit name operand = [] := by
  unfold operandBytes
  split <;> first | rfl | cases h

theorem operandBytes_space (operand : Operand) : p.operandBytes unit "space" operand = [] := by
  cases operand <;> rfl

/-- A part of data is as long as its bytes, unless it is passed over. -/
theorem length_partBytes {name : String} {operand : Operand} {part : Part} (hname : name ≠ "space")
    (h : Part.ofOperand? name operand = some part) : (p.partBytes unit part).length = part.size := by
  unfold Part.ofOperand? at h
  split at h <;> cases h
  case h_1 n | h_3 n | h_4 n => rfl
  case h_2 l => exact length_littleEndian 4 _
  case h_5 text | h_6 text => rfl
  case h_7 n => exact absurd rfl hname

/-- The bytes of operands are those of their parts, one after the other. -/
theorem addressed_operandBytes (name : String) (operands : List Operand) (y : Nat) :
    addressed y (operands.flatMap (p.operandBytes unit name)) =
      (Part.locate y (operands.filterMap (Part.ofOperand? name))).flatMap
        fun a => addressed a.1 (p.partBytes unit a.2) := by
  by_cases hname : name = "space"
  case pos =>
    -- nothing is written for gaps, wherever they stand
    subst hname
    have hparts : ∀ a ∈ Part.locate y (operands.filterMap (Part.ofOperand? "space")),
        addressed a.1 (p.partBytes unit a.2) = [] := by
      intro a ha
      obtain ⟨operand, -, h⟩ := List.mem_filterMap.mp (Part.mem_of_mem_locate ha)
      rw [← operandBytes_of_part p unit h, operandBytes_space]
      rfl
    rw [List.flatMap_eq_nil_iff.mpr hparts,
      List.flatMap_eq_nil_iff.mpr fun operand _ => operandBytes_space p unit operand]
    rfl
  case neg =>
    induction operands generalizing y with
    | nil => rfl
    | cons operand operands ih =>
        rw [List.flatMap_cons, addressed_append]
        cases h : Part.ofOperand? name operand with
        | none =>
            rw [operandBytes_of_none p unit h, List.filterMap_cons_none h]
            exact ih y
        | some part =>
            rw [operandBytes_of_part p unit h, List.filterMap_cons_some h, Part.locate,
              List.flatMap_cons, length_partBytes p unit hname h, ih]

end AssembledProgram

namespace Role

/-- Only the directives that place data have bytes. -/
theorem located_ofDirective (name : String) (operands : List Operand) (x : Nat) :
    (ofDirective name operands).located x =
        Part.locate (roundUp x (alignment name operands)) (operands.filterMap (Part.ofOperand? name)) ∨
      (ofDirective name operands).located x = [] ∧ ∀ operand, Part.ofOperand? name operand = none := by
  have hother : ¬ Placement.dataDirectives.contains name = true →
      ∀ operand, Part.ofOperand? name operand = none := by
    intro hname operand
    unfold Part.ofOperand?
    split <;> first | rfl | exact absurd rfl hname
  by_cases hdata : Placement.dataDirectives.contains name = true
  · refine .inl ?_
    have hmem : name ∈ Placement.dataDirectives := by simpa using hdata
    simp only [Placement.dataDirectives, List.mem_cons, List.not_mem_nil, or_false] at hmem
    rcases hmem with rfl | rfl | rfl | rfl | rfl | rfl | rfl <;> rfl
  · refine .inr ⟨?_, hother hdata⟩
    unfold ofDirective
    split
    · rfl
    · split
      · rfl
      split
      · split <;> rfl
      · rfl

end Role

/-! ## What the first pass writes -/

namespace Placement

theorem map_fst_spread (a : Nat) (bs : List Byte) :
    (spread a bs).map (·.1) = List.range' a bs.length := by
  induction bs generalizing a with
  | nil => rfl
  | cons b bs ih => rw [spread, List.map_cons, ih, List.length_cons, List.range'_succ]

/-- Bytes at free addresses are added to an image. -/
theorem toList_writeBytes_perm {data : DataImage} {a : Nat} {bytes : List Byte}
    (free : ∀ k < bytes.length, data.contains (a + k) = false) :
    (writeBytes data a bytes).toList.Perm (data.toList ++ spread a bytes) := by
  induction bytes generalizing data a with
  | nil => rw [writeBytes, spread, List.append_nil]
  | cons b bytes ih =>
      rw [List.length_cons] at free
      have hlater : ∀ k < bytes.length, (data.insert a b).contains (a + 1 + k) = false := by
        intro k hk
        have hne : ¬ compare a (a + 1 + k) = .eq := by
          rw [Nat.compare_eq_eq]
          omega
        rw [Std.TreeMap.contains_insert, beq_eq_false_iff_ne.mpr hne, Bool.false_or, Nat.add_assoc,
          Nat.add_comm 1 k]
        exact free (k + 1) (Nat.succ_lt_succ hk)
      have hkept : data.toList.filter (fun q => decide ¬(a == q.1) = true) = data.toList := by
        refine List.filter_eq_self.mpr fun q hq => decide_eq_true fun heq => ?_
        have hget := Std.TreeMap.mem_toList_iff_getElem?_eq_some.mp (show (q.1, q.2) ∈ _ from hq)
        have hnone := free 0 (Nat.succ_pos _)
        rw [Nat.add_zero, Std.TreeMap.contains_eq_isSome_getElem?, beq_iff_eq.mp heq, hget] at hnone
        cases hnone
      have hinsert : (data.insert a b).toList.Perm ((a, b) :: data.toList) :=
        hkept ▸ Std.TreeMap.toList_insert_perm
      exact ((ih hlater).trans (hinsert.append_right _)).trans List.perm_middle.symm

namespace PlacedPart

/-- The bytes that the first pass writes for a part, with their addresses. -/
def written (a : PlacedPart) : List (Nat × Byte) :=
  match a.part with
  | .bytes bs => spread (addressAt a.position).toNat bs
  | .address _ => spread (addressAt a.position).toNat [0, 0, 0, 0]
  | _ => []

/-- The word for the address of a label that the first pass records for a part. -/
def labelWord? (a : PlacedPart) : Option LabelWord :=
  match a.part with
  | .address l => some ⟨a.unit, ⟨a.line.source, a.column⟩, addressAt a.position, l⟩
  | _ => none

end PlacedPart

theorem toList_placeBytes_perm {p : Placement} {x : Nat} (here : p.here = addressAt x) {site : Site}
    {bytes : List Byte} (clean : (p.placeBytes site bytes).Clean) :
    (p.placeBytes site bytes).data.toList.Perm (p.data.toList ++ spread (addressAt x).toNat bytes) ∧
      (p.placeBytes site bytes).labelWords = p.labelWords := by
  obtain ⟨-, hfree, hplaced⟩ := placeBytes_of_clean clean
  rw [hplaced]
  rw [here] at hfree ⊢
  exact ⟨toList_writeBytes_perm hfree, rfl⟩

/-- A part that is put adds its bytes and its word for the address of a label. -/
theorem written_put {p : Placement} {line : TokenLine} {column x : Nat} (here : p.here = addressAt x)
    {part : Part} (clean : (put line column p part).Clean) :
    let a : PlacedPart := ⟨p.locals.size, line, column, x, part⟩
    (put line column p part).data.toList.Perm (p.data.toList ++ a.written) ∧
      (put line column p part).labelWords.toList = p.labelWords.toList ++ a.labelWord?.toList := by
  intro a
  cases part with
  | word i | gap n =>
      refine ⟨?_, (List.append_nil _).symm⟩
      rw [show a.written = [] from rfl, List.append_nil]
      exact .refl _
  | bytes bs =>
      obtain ⟨hdata, hwords⟩ := toList_placeBytes_perm here clean
      refine ⟨hdata, ?_⟩
      rw [put, hwords]
      exact (List.append_nil _).symm
  | address l =>
      let q := { p with labelWords := p.labelWords.push ⟨p.locals.size, ⟨line.source, column⟩, p.here, l⟩ }
      obtain ⟨hdata, hwords⟩ := toList_placeBytes_perm (show q.here = addressAt x from here) clean
      refine ⟨hdata, ?_⟩
      rw [put, hwords, Array.toList_push, here]
      rfl

/-- **Parts that are put without errors add their bytes, and no byte is written twice.** -/
theorem Trace.written {p q : Placement} {parts : List PlacedPart} (trace : Trace p parts q)
    (clean : q.Clean) :
    q.data.toList.Perm (p.data.toList ++ parts.flatMap PlacedPart.written) ∧
      q.labelWords.toList = p.labelWords.toList ++ parts.filterMap PlacedPart.labelWord? := by
  induction trace with
  | nil p => simp
  | quiet more same rest ih =>
      obtain ⟨-, hothers⟩ := Prod.mk.inj same
      obtain ⟨hdata, hwords⟩ := Prod.mk.inj hothers
      rw [← hdata, ← hwords]
      exact ih clean
  | @put p r line column x part parts here rest ih =>
      obtain ⟨hdata, hwords⟩ := written_put here (rest.extends.clean clean)
      obtain ⟨hdata', hwords'⟩ := ih clean
      constructor
      · rw [List.flatMap_cons, ← List.append_assoc]
        exact hdata'.trans (hdata.append_right _)
      · rw [hwords', hwords, List.append_assoc, List.filterMap_cons]
        split <;> simp_all

/-! ## What the second pass makes of it -/

/-- The bytes of a part in a program, with their addresses. -/
def PlacedPart.final (a : PlacedPart) (p : AssembledProgram) : List (Nat × Byte) :=
  spread (addressAt a.position).toNat (p.partBytes a.unit a.part)

/-- Addresses of labels are filled in where zeros were written. -/
theorem PlacedPart.addresses_final (a : PlacedPart) (p : AssembledProgram) :
    (a.final p).map (·.1) = a.written.map (·.1) := by
  obtain ⟨unit, line, column, position, part⟩ := a
  cases part with
  | word | bytes | gap => rfl
  | address l =>
      show (spread _ (littleEndian 4 _)).map (·.1) = (spread _ [0, 0, 0, 0]).map (·.1)
      rw [map_fst_spread, map_fst_spread, length_littleEndian]
      rfl

theorem mem_addresses_iff {parts : List PlacedPart} (p : AssembledProgram) {k : Nat} :
    (∃ b, (k, b) ∈ parts.flatMap PlacedPart.written) ↔
      ∃ b, (k, b) ∈ parts.flatMap fun a => a.final p := by
  have hkeys : (parts.flatMap PlacedPart.written).map (·.1) =
      (parts.flatMap fun a => a.final p).map (·.1) := by
    rw [List.map_flatMap, List.map_flatMap]
    exact List.flatMap_congr fun a _ => (a.addresses_final p).symm
  have hmem : ∀ l : List (Nat × Byte), (∃ b, (k, b) ∈ l) ↔ k ∈ l.map (·.1) := by simp
  rw [hmem, hmem, hkeys]

theorem nodup_addresses_toList (data : DataImage) : (data.toList.map (·.1)).Nodup := by
  rw [Std.TreeMap.map_fst_toList_eq_keys]
  exact Std.TreeMap.nodup_keys

/-- Where nothing was written, the second pass writes nothing. -/
theorem contains_of_contains_fillLabelWords {q : Placement} (reserved : q.Reserved) {k : Nat}
    (h : (q.fillLabelWords q.labelWords.toList q.data).1.contains k = true) :
    q.data.contains k = true := by
  by_contra hfree
  have houtside : ∀ w ∈ q.labelWords.toList, k < w.address.toNat ∨ w.address.toNat + 4 ≤ k := by
    intro w hw
    by_contra hinside
    have htaken := reserved.taken w hw (k - w.address.toNat) (by omega)
    rw [show w.address.toNat + (k - w.address.toNat) = k by omega] at htaken
    exact hfree htaken
  rw [Std.TreeMap.contains_eq_isSome_getElem?, getElem?_fillLabelWords_of_apart reserved.bounded houtside,
    ← Std.TreeMap.contains_eq_isSome_getElem?] at h
  exact hfree h

/-- Two parts write at different addresses. -/
theorem disjoint_written {data : DataImage} {parts : List PlacedPart}
    (image : data.toList.Perm (parts.flatMap PlacedPart.written)) :
    ∀ a ∈ parts, ∀ b ∈ parts, a ≠ b → List.Disjoint (a.written.map (·.1)) (b.written.map (·.1)) := by
  have hnodup : ((parts.flatMap PlacedPart.written).map (·.1)).Nodup :=
    (image.map _).nodup_iff.mp (nodup_addresses_toList data)
  rw [List.map_flatMap, List.nodup_flatMap] at hnodup
  have : Std.Symm (Function.onFun List.Disjoint fun a : PlacedPart => a.written.map (·.1)) :=
    ⟨fun _ _ h _ hb ha => h ha hb⟩
  exact fun a ha b hb => hnodup.2.forall ha hb

/-- No word for the address of a label shares a byte with other data. -/
theorem not_inside_labelWord {q : Placement} {parts : List PlacedPart}
    (image : q.data.toList.Perm (parts.flatMap PlacedPart.written))
    (labelWords : q.labelWords.toList = parts.filterMap PlacedPart.labelWord?) {a : PlacedPart}
    (ha : a ∈ parts) (hlabel : a.labelWord? = none) {k : Nat} {b : Byte}
    (hb : (k, b) ∈ a.written) {w : LabelWord} (hw : w ∈ q.labelWords.toList) :
    ¬ (w.address.toNat ≤ k ∧ k < w.address.toNat + 4) := by
  intro hinside
  rw [labelWords] at hw
  obtain ⟨c, hc, hword⟩ := List.mem_filterMap.mp hw
  have hne : a ≠ c := by
    rintro rfl
    rw [hlabel] at hword
    cases hword
  obtain ⟨unit, line, column, position, part⟩ := c
  cases part with
  | word | bytes | gap => cases hword
  | address l =>
      have haddress : w.address = addressAt position := by rw [← Option.some.inj hword]
      rw [haddress] at hinside
      have hshared : k ∈ (spread (addressAt position).toNat [0, 0, 0, 0]).map (·.1) := by
        rw [map_fst_spread, List.mem_range'_1]
        exact hinside
      exact disjoint_written image _ ha _ hc hne (List.mem_map.mpr ⟨_, hb, rfl⟩) hshared

section Second

variable {q : Placement} {parts : List PlacedPart} {p : AssembledProgram} (reserved : q.Reserved)
  (labelWords : q.labelWords.toList = parts.filterMap PlacedPart.labelWord?)
  (hlookup : p.lookup = q.lookup)
  (defined : ∀ w ∈ q.labelWords.toList, ∃ a, SymbolicInstr.addressOf (q.lookup w.unit) w.label = .ok a)
include reserved labelWords hlookup defined

/-- The word for the address of a label holds that address. -/
theorem getElem?_of_mem_final_address {unit : Nat} {line : TokenLine} {column position : Nat} {l : LabelRef}
    (ha : ⟨unit, line, column, position, .address l⟩ ∈ parts) {k : Nat} {b : Byte}
    (hb : (k, b) ∈ PlacedPart.final ⟨unit, line, column, position, .address l⟩ p) :
    (q.fillLabelWords q.labelWords.toList q.data).1[k]? = some b := by
  obtain ⟨hle, hbyte⟩ := getElem?_of_mem_spread hb
  have hlt : k - (addressAt position).toNat < 4 := by
    have hlength := (List.getElem?_eq_some_iff.mp hbyte).1
    rwa [AssembledProgram.partBytes, length_littleEndian] at hlength
  let w : LabelWord := ⟨unit, ⟨line.source, column⟩, addressAt position, l⟩
  have hw : w ∈ q.labelWords.toList := labelWords ▸ List.mem_filterMap.mpr ⟨_, ha, rfl⟩
  obtain ⟨target, htarget⟩ := defined w hw
  obtain ⟨base, hbase, hsum⟩ := SymbolicInstr.addressOf_eq_ok htarget
  have hbytes : littleEndian 4 (p.target unit l) = Word.bytes target := by
    rw [← bytes_ofInt, AssembledProgram.target, hlookup, hbase, Option.getD_some, Word.ofInt,
      BitVec.ofInt_add, BitVec.ofInt_natCast, BitVec.ofNat_toNat, BitVec.setWidth_eq, ← hsum]
    rfl
  have hfilled : (q.fillLabelWords q.labelWords.toList q.data).1[
      w.address.toNat + (k - (addressAt position).toNat)]? =
        (Word.bytes target)[k - (addressAt position).toNat]? :=
    getElem?_fillLabelWords reserved.bounded reserved.apart hw htarget hlt
  rw [show w.address.toNat + (k - (addressAt position).toNat) = k from Nat.add_sub_cancel' hle] at hfilled
  rw [hfilled, ← hbytes]
  exact hbyte

variable (image : q.data.toList.Perm (parts.flatMap PlacedPart.written))
include image

/-- The second pass leaves the bytes of a part in the image. -/
theorem getElem?_of_mem_final {a : PlacedPart} (ha : a ∈ parts) {k : Nat} {b : Byte} (hb : (k, b) ∈ a.final p) :
    (q.fillLabelWords q.labelWords.toList q.data).1[k]? = some b := by
  obtain ⟨unit, line, column, position, part⟩ := a
  cases part with
  | word | gap => cases hb
  | bytes bs =>
      have hwritten : q.data[k]? = some b := by
        rw [← Std.TreeMap.mem_toList_iff_getElem?_eq_some, image.mem_iff]
        exact List.mem_flatMap.mpr ⟨_, ha, hb⟩
      rw [← hwritten]
      refine getElem?_fillLabelWords_of_apart reserved.bounded fun w hw => ?_
      have houtside := not_inside_labelWord image labelWords ha rfl hb hw
      omega
  | address l => exact getElem?_of_mem_final_address reserved labelWords hlookup defined ha hb

/-- **After the second pass, the image holds the bytes of all parts and nothing else.** -/
theorem toList_fillLabelWords :
    (q.fillLabelWords q.labelWords.toList q.data).1.toList.Perm (parts.flatMap fun a => a.final p) := by
  have hinto : ∀ k b, (k, b) ∈ (parts.flatMap fun a => a.final p) →
      (q.fillLabelWords q.labelWords.toList q.data).1[k]? = some b := by
    intro k b hb
    obtain ⟨a, ha, hb⟩ := List.mem_flatMap.mp hb
    exact getElem?_of_mem_final reserved labelWords hlookup defined image ha hb
  have hnodup : ((parts.flatMap fun a => a.final p).map (·.1)).Nodup := by
    have hwritten := (image.map (·.1)).nodup_iff.mp (nodup_addresses_toList q.data)
    rw [List.map_flatMap] at hwritten ⊢
    rwa [List.flatMap_congr fun a _ => a.addresses_final p]
  refine (List.perm_ext_iff_of_nodup (nodup_addresses_toList _).of_map hnodup.of_map).mpr ?_
  rintro ⟨k, b⟩
  rw [Std.TreeMap.mem_toList_iff_getElem?_eq_some]
  refine ⟨fun hget => ?_, hinto k b⟩
  -- the byte was written for some part, and what that part has there is what the image holds
  have htaken : q.data.contains k = true := by
    refine contains_of_contains_fillLabelWords reserved ?_
    rw [Std.TreeMap.contains_eq_isSome_getElem?, hget]
    rfl
  rw [Std.TreeMap.contains_eq_isSome_getElem?] at htaken
  obtain ⟨old, hold⟩ := Option.isSome_iff_exists.mp htaken
  have hwritten := image.mem_iff.mp (Std.TreeMap.mem_toList_iff_getElem?_eq_some.mpr hold)
  obtain ⟨c, hc⟩ := (mem_addresses_iff p).mp ⟨old, hwritten⟩
  obtain rfl : b = c := Option.some.inj (hget.symm.trans (hinto k c hc))
  exact hc

end Second

/-! ## Blocks -/

/-- Runs go up and leave a gap between each other. -/
theorem apart_dataRuns {image : List (Nat × Byte)} (ascending : image.Pairwise fun a b => a.1 < b.1) :
    (∀ r ∈ dataRuns image, r.2 ≠ []) ∧
      (dataRuns image).Pairwise fun r s => r.1 + r.2.length < s.1 := by
  induction image with
  | nil => exact ⟨by simp [dataRuns], .nil⟩
  | cons q rest ih =>
      obtain ⟨a, b⟩ := q
      obtain ⟨hfirst, hrest⟩ := List.pairwise_cons.mp ascending
      obtain ⟨hfull, hapart⟩ := ih hrest
      unfold dataRuns
      split
      case h_1 next bytes runs hruns =>
        rw [hruns] at hfull hapart
        obtain ⟨hbytes, hfull⟩ := List.forall_mem_cons.mp hfull
        obtain ⟨hnext, hapart⟩ := List.pairwise_cons.mp hapart
        -- the run starts at an address of the rest of the image, which lies above
        have hlt : a < next := by
          obtain ⟨c, cs, hcs⟩ := List.exists_cons_of_ne_nil hbytes
          have hmem : (next, c) ∈ rest := by
            rw [← flatMap_dataRuns rest, hruns, List.flatMap_cons, hcs]
            exact List.mem_append_left _ List.mem_cons_self
          exact hfirst _ hmem
        split
        case isTrue hadjacent =>
          refine ⟨List.forall_mem_cons.mpr ⟨by simp, hfull⟩, List.pairwise_cons.mpr ⟨fun s hs => ?_, hapart⟩⟩
          have := hnext s hs
          simp only [List.length_cons] at this ⊢
          omega
        case isFalse hgap =>
          refine ⟨List.forall_mem_cons.mpr ⟨by simp, List.forall_mem_cons.mpr ⟨hbytes, hfull⟩⟩,
            List.pairwise_cons.mpr ⟨fun s hs => ?_, List.pairwise_cons.mpr ⟨hnext, hapart⟩⟩⟩
          simp only [List.length_cons, List.length_nil]
          rcases List.mem_cons.mp hs with rfl | hs
          · show a + (0 + 1) < next
            omega
          · have := hnext s hs
            dsimp only at this
            omega
      case h_2 hruns => exact ⟨by simp, List.pairwise_singleton _ _⟩

/-- The addresses of an image that lies below the end of the address space are distinct words. -/
theorem nodup_addressAt_toList {data : DataImage}
    (bounded : ∀ a, data.contains a = true → a < 0x100000000) :
    ((data.toList.map fun q => (addressAt q.1, q.2)).map (·.1)).Nodup := by
  have hmap : (data.toList.map fun q => (addressAt q.1, q.2)).map (·.1) =
      (data.toList.map (·.1)).map addressAt := by
    rw [List.map_map, List.map_map]
    rfl
  have hlt : ∀ k ∈ data.toList.map (·.1), k < 0x100000000 := by
    intro k hk
    rw [Std.TreeMap.map_fst_toList_eq_keys, Std.TreeMap.mem_keys, ← Std.TreeMap.contains_iff_mem] at hk
    exact bounded k hk
  rw [hmap]
  refine (nodup_addresses_toList data).map_on fun k hk l hl h => ?_
  have hnat := congrArg BitVec.toNat h
  rwa [toNat_addressAt, toNat_addressAt, Nat.mod_eq_of_lt (hlt k hk), Nat.mod_eq_of_lt (hlt l hl)] at hnat

/-- The blocks of an image hold the image, below the end of the address space, and between two blocks there
is a gap. -/
theorem dataBlocks_runs {data : DataImage} (bounded : ∀ a, data.contains a = true → a < 0x100000000) :
    (dataBlocks data).flatMap DataBlock.contents = data.toList.map (fun q => (addressAt q.1, q.2)) ∧
      (∀ d ∈ dataBlocks data, d.bytes ≠ [] ∧ d.address.toNat + d.bytes.length ≤ 0x100000000) ∧
      (dataBlocks data).Pairwise fun d e => d.address.toNat + d.bytes.length < e.address.toNat := by
  have hbounded : ∀ r ∈ dataRuns data.toList, ∀ q ∈ spread r.1 r.2, q.1 < 0x100000000 := by
    intro r hr q hq
    have hmem : q ∈ data.toList := flatMap_dataRuns data.toList ▸ List.mem_flatMap.mpr ⟨r, hr, hq⟩
    apply bounded
    rw [Std.TreeMap.contains_eq_isSome_getElem?,
      Std.TreeMap.mem_toList_iff_getElem?_eq_some.mp (show (q.1, q.2) ∈ _ from hmem)]
    rfl
  have hascending : data.toList.Pairwise fun a b => a.1 < b.1 :=
    Std.TreeMap.ordered_keys_toList.imp fun h => Nat.compare_eq_lt.mp h
  obtain ⟨hfull, hapart⟩ := apart_dataRuns hascending
  -- a run starts and ends below the end of the address space
  have hend : ∀ r ∈ dataRuns data.toList, r.1 + r.2.length ≤ 0x100000000 ∧
      (BitVec.ofNat 32 r.1).toNat = r.1 := by
    intro r hr
    have hlength := List.length_pos_of_ne_nil (hfull r hr)
    obtain ⟨last, hlast⟩ := mem_spread r.1 (r.1 + r.2.length - 1) r.2 (by omega)
    have hlt : r.1 + r.2.length - 1 < 0x100000000 := hbounded r hr _ hlast
    rw [BitVec.toNat_ofNat]
    omega
  refine ⟨?_, ?_, ?_⟩
  · conv_rhs => rw [← flatMap_dataRuns data.toList]
    rw [dataBlocks, List.flatMap_map, List.map_flatMap]
    refine List.flatMap_congr fun r hr => ?_
    rw [DataBlock.contents, (hend r hr).2, addressed]
  · intro d hd
    obtain ⟨r, hr, rfl⟩ := List.mem_map.mp hd
    rw [(hend r hr).2]
    exact ⟨hfull r hr, (hend r hr).1⟩
  · rw [dataBlocks, List.pairwise_map]
    refine hapart.imp_of_mem fun {r s} hr hs h => ?_
    rw [(hend r hr).2, (hend s hs).2]
    exact h

end Placement

/-! ## Assembled programs -/

namespace Assembly

open Placement

/-- The data of a line is that of its parts. -/
theorem lineData_eq (p : AssembledProgram) {x : Spot} {extended : Bool}
    (hrole : x.role = .ofNucleus extended x.statement.nucleus) :
    p.lineData x = (x.placed.flatMap fun a => a.final p).map fun q => (addressAt q.1, q.2) := by
  have hparts : (x.placed.flatMap fun a => a.final p).map (fun q => (addressAt q.1, q.2)) =
      x.parts.flatMap fun a => addressed a.1 (p.partBytes x.unit a.2) := by
    rw [Spot.placed, List.flatMap_map, List.map_flatMap]
    exact List.flatMap_congr fun a _ => addressed_toNat a.1 _
  rw [hparts, AssembledProgram.lineData]
  split
  case h_1 name operands hn =>
    rw [p.addressed_operandBytes, Spot.parts, hrole, hn, Role.ofNucleus]
    rcases Role.located_ofDirective name operands x.cursor.here with hlocated | ⟨hlocated, hnone⟩
    · rw [hlocated]
    · rw [hlocated, List.filterMap_eq_nil_iff.mpr fun operand _ => hnone operand]
      rfl
  case h_2 hn =>
    -- only instructions remain, and they are no data
    refine (List.flatMap_eq_nil_iff.mpr fun a ha => ?_).symm
    rw [Spot.parts, hrole] at ha
    unfold Role.ofNucleus at ha
    split at ha
    case h_1 => cases ha
    case h_2 =>
      split at ha
      · obtain ⟨i, -, hi⟩ := List.mem_map.mp (Part.mem_of_mem_locate ha)
        rw [← hi]
        rfl
      · cases ha
    case h_3 name operands hdirective => exact absurd hdirective (hn name operands)

section Program

variable {options : AssemblyOptions} {units : List SourceUnit} {p : AssembledProgram}
  (ok : (assemble options units).1 = .ok p)
include ok

/-- The second pass looks labels up as the program does, and finds all that are used for data. -/
theorem lookup_of_ok : p.lookup = (firstPass options units).lookup ∧
    ∀ w ∈ (firstPass options units).labelWords.toList,
      ∃ a, SymbolicInstr.addressOf ((firstPass options units).lookup w.unit) w.label = .ok a := by
  refine ⟨?_, fun w hw => (holdsWord_of_mem_labelWords ok hw).imp fun a h => h.1⟩
  obtain ⟨rfl, -⟩ := eq_finish_of_ok ok
  exact lookup_finish _ _

theorem role_of_mem_spots {x : Spot} (hx : x ∈ spots options units) :
    x.role = .ofNucleus options.extended x.statement.nucleus := by
  obtain ⟨_, _, _, _, _, _, _, _, hrole, _⟩ := exists_reached (clean_firstPass ok) hx
  exact hrole

/-- Labels in words of data are defined. -/
theorem isSome_lookup {x : Spot} (hx : x ∈ spots options units) {operands : List Operand}
    (hn : x.statement.nucleus = some (.directive "word" operands)) {l : LabelRef}
    (hl : .label l ∈ operands) : (p.lookup x.unit l.name).isSome := by
  obtain ⟨hlookup, hdefined⟩ := lookup_of_ok ok
  have clean := clean_firstPass ok
  obtain ⟨-, hwords⟩ := (trace_firstPass clean).written clean
  have hpart : .address l ∈ operands.filterMap (Part.ofOperand? "word") :=
    List.mem_filterMap.mpr ⟨.label l, hl, rfl⟩
  obtain ⟨y, hy⟩ := Part.exists_mem_locate (roundUp x.cursor.here 4) hpart
  have hparts : (y, .address l) ∈ x.parts := by
    rw [Spot.parts, role_of_mem_spots ok hx, hn]
    exact hy
  have hplaced : PlacedPart.of x.unit x.line (x.statement.span.start + 1) (y, .address l) ∈
      (spots options units).flatMap Spot.placed :=
    List.mem_flatMap.mpr ⟨x, hx, List.mem_map_of_mem hparts⟩
  let w : LabelWord := ⟨x.unit, ⟨x.line.source, x.statement.span.start + 1⟩, addressAt y, l⟩
  have hw : w ∈ (firstPass options units).labelWords.toList := by
    rw [hwords]
    exact List.mem_filterMap.mpr ⟨_, hplaced, rfl⟩
  obtain ⟨a, ha⟩ := hdefined w hw
  obtain ⟨b, hb, -⟩ := SymbolicInstr.addressOf_eq_ok ha
  rw [hlookup]
  exact Option.isSome_of_eq_some hb

/-- The blocks of a program are the runs of an image below the end of the address space that holds the
bytes of all lines. -/
theorem exists_image : ∃ data : DataImage, p.data = dataBlocks data ∧
    (∀ a, data.contains a = true → a < 0x100000000) ∧
    (data.toList.map fun q => (addressAt q.1, q.2)).Perm ((spots options units).flatMap p.lineData) := by
  have clean := clean_firstPass ok
  have hpass : Pass _ (firstPass options units) := pass_placeUnits _ units
  have hreserved := (reserved_initial options.extended options.layout).pass hpass clean
  have hbounded := ((sound_initial options.extended options.layout).pass hpass).bounded
  obtain ⟨hlookup, hdefined⟩ := lookup_of_ok ok
  obtain ⟨himage, hwords⟩ := (trace_firstPass clean).written clean
  have hfinal := toList_fillLabelWords hreserved hwords hlookup hdefined himage
  have hlines : (spots options units).flatMap p.lineData =
      (((spots options units).flatMap Spot.placed).flatMap fun a => a.final p).map
        fun q => (addressAt q.1, q.2) := by
    rw [List.flatMap_assoc, List.map_flatMap]
    exact List.flatMap_congr fun x hx => lineData_eq p (role_of_mem_spots ok hx)
  refine ⟨_, ?_, fun _ => contains_fillLabelWords hbounded, hlines ▸ hfinal.map _⟩
  obtain ⟨rfl, -⟩ := eq_finish_of_ok ok
  rfl

end Program

/-- **The data image.** The lines of a program that assembles, with their macros expanded, go through one
layout in order. The bytes of data of the program are exactly those that its lines stand for, at the
positions of the layout: numbers and addresses of labels, all of which are defined, in little-endian order
and modulo the size of the item, and texts as UTF-8. No address is written by two items or twice by one.
The blocks go up, none of them is empty, and between the end of one and the start of the next there is at
least one free address. -/
theorem data_image {options : AssemblyOptions} {units : List SourceUnit} {p : AssembledProgram}
    (ok : (assemble options units).1 = .ok p) :
    ((spots options units).map (fun x => (x.unit, x.line)) =
      units.zipIdx.flatMap fun (u, k) => u.expandedLines.map (k, ·)) ∧
    (∀ x ∈ spots options units, ∀ operands, x.statement.nucleus = some (.directive "word" operands) →
      ∀ l, .label l ∈ operands → (p.lookup x.unit l.name).isSome) ∧
    (p.data.flatMap DataBlock.contents).Perm ((spots options units).flatMap p.lineData) ∧
    (((spots options units).flatMap p.lineData).map (·.1)).Nodup ∧
    (p.data.Pairwise fun d e => d.address.toNat + d.bytes.length < e.address.toNat) ∧
    ∀ d ∈ p.data, d.bytes ≠ [] ∧ d.address.toNat + d.bytes.length ≤ 0x100000000 := by
  obtain ⟨data, hdata, hbounded, hperm⟩ := exists_image ok
  obtain ⟨hcontents, hblocks, hapart⟩ := dataBlocks_runs hbounded
  have hnodup := (hperm.map (·.1)).nodup_iff.mp (nodup_addressAt_toList hbounded)
  rw [hdata]
  exact ⟨lines_spots (clean_firstPass ok), fun x hx operands hn l hl => isSome_lookup ok hx hn hl,
    hcontents ▸ hperm, hnodup, hapart, hblocks⟩

/-- Two units that share a counter, with a gap, alignment and the address of a label of the other unit. -/
theorem data_image_twoUnits :
    let units : List SourceUnit := [
      .ofText "a.s" ".globl v\n.data\n.byte 300\nv: .word v+4, -2\n.half 0x12345\n.asciiz \"é\"\n.space 3",
      .ofText "b.s" ".data\n.align 3\n.word v-1\n.data 0x10000000\n.ascii \"z\""]
    ∃ p, (assemble {} units).1 = .ok p ∧
      p.data = [⟨0x10000000, [0x7A]⟩, ⟨0x10010000, [0x2C]⟩,
        ⟨0x10010004, [0x08, 0x00, 0x01, 0x10, 0xFE, 0xFF, 0xFF, 0xFF, 0x45, 0x23, 0xC3, 0xA9, 0x00]⟩,
        ⟨0x10010018, [0x03, 0x00, 0x01, 0x10]⟩] ∧
      (p.data.flatMap DataBlock.contents).Perm ((spots {} units).flatMap p.lineData) := by
  intro units
  have hran : (assemble {} units).1.toOption.map (·.data) =
      some [⟨0x10000000, [0x7A]⟩, ⟨0x10010000, [0x2C]⟩,
        ⟨0x10010004, [0x08, 0x00, 0x01, 0x10, 0xFE, 0xFF, 0xFF, 0xFF, 0x45, 0x23, 0xC3, 0xA9, 0x00]⟩,
        ⟨0x10010018, [0x03, 0x00, 0x01, 0x10]⟩] := by decide +kernel
  obtain ⟨p, hp, hdata⟩ := Option.map_eq_some_iff.mp hran
  have ok := eq_ok_of_toOption hp
  obtain ⟨-, -, hbytes, -⟩ := data_image ok
  exact ⟨p, ok, hdata, hbytes⟩

end Assembly

end MipsLab
