import MipsLab.Proofs.FirstPass

set_option autoImplicit false

/-!
# The exact layout of a program

Where the lines of a program go is settled by the lines alone, before any label has an address. This
module says where, without the pass that places them. Every segment has a *position*, which is a
natural number and counts on past the end of the address space; the address at a position is the
position modulo `2 ^ 32` (`addressAt`). A line is an item, which starts at the next multiple of its
alignment and has its parts one after the other, or it selects a segment, or it moves nothing (`Role`).

The lines of a program, each with the positions reached when the layout comes to it, are its *spots*
(`Assembly.spots`).
-/

namespace MipsLab

/-! ## Positions and addresses -/

/-- The first multiple of `n` that is not below `x`. -/
def roundUp (x n : Nat) : Nat := (x + (n - 1)) / n * n

/-- The address at a position. -/
def addressAt (x : Nat) : Word := BitVec.ofNat 32 x

theorem toNat_addressAt (x : Nat) : (addressAt x).toNat = x % 0x100000000 := BitVec.toNat_ofNat x 32

theorem addressAt_toNat (a : Word) : addressAt a.toNat = a := by
  rw [addressAt, BitVec.ofNat_toNat, BitVec.setWidth_eq]

theorem addressAt_add (x n : Nat) : addressAt (x + n) = addressAt x + BitVec.ofNat 32 n :=
  BitVec.ofNat_add x n

theorem le_roundUp (x : Nat) {n : Nat} (hn : 0 < n) : x ≤ roundUp x n := by
  have h := Nat.div_add_mod (x + (n - 1)) n
  have hmod := Nat.mod_lt (x + (n - 1)) hn
  rw [Nat.mul_comm] at h
  unfold roundUp
  omega

theorem roundUp_of_dvd {x n : Nat} (hn : 0 < n) (h : n ∣ x) : roundUp x n = x := by
  obtain ⟨k, rfl⟩ := h
  rw [roundUp, Nat.mul_add_div hn, Nat.div_eq_of_lt (Nat.sub_lt hn Nat.one_pos), Nat.add_zero,
    Nat.mul_comm]

theorem dvd_roundUp (x n : Nat) : n ∣ roundUp x n := Nat.dvd_mul_left n _

/-- Rounding up a position goes with rounding up its address. -/
theorem alignUp_addressAt (x : Nat) {k : Nat} (hk : k ≤ 3) :
    Word.alignUp (addressAt x) (BitVec.ofNat 32 (2 ^ k)) = addressAt (roundUp x (2 ^ k)) := by
  have hmask : ∀ k ≤ 3, ∀ i : Fin 32,
      (~~~(BitVec.ofNat 32 (2 ^ k) - 1)).getLsbD i.val = decide (k ≤ i.val) := by decide
  apply BitVec.eq_of_toNat_eq
  rw [Word.alignUp, Word.toNat_and_of_getLsbD (hmask k hk), BitVec.toNat_add, toNat_addressAt,
    toNat_addressAt, roundUp]
  have : k = 0 ∨ k = 1 ∨ k = 2 ∨ k = 3 := by omega
  rcases this with rfl | rfl | rfl | rfl <;> simp <;> omega

/-! ## Parts -/

/-- A part of what a line places. -/
inductive Part where
  /-- A machine instruction. -/
  | word (i : SymbolicInstr)
  /-- Bytes of data. -/
  | bytes (bs : List Byte)
  /-- A word of data that holds the address of a label. -/
  | address (l : LabelRef)
  /-- Bytes that are passed over. -/
  | gap (n : Nat)
deriving DecidableEq, Repr

namespace Part

/-- The number of bytes that a part takes. -/
def size : Part → Nat
  | word _ => 4
  | bytes bs => bs.length
  | address _ => 4
  | gap n => n

/-- The part that an operand of a data directive stands for. -/
def ofOperand? (name : String) (operand : Operand) : Option Part :=
  match name, operand with
  | "word", .imm n => some (.bytes (Word.bytes (Word.ofInt n)))
  | "word", .label l => some (.address l)
  | "half", .imm n => some (.bytes ((Word.bytes (Word.ofInt n)).take 2))
  | "byte", .imm n => some (.bytes ((Word.bytes (Word.ofInt n)).take 1))
  | "ascii", .str text => some (.bytes (Utf8.encode text.toList))
  | "asciiz", .str text => some (.bytes (Utf8.encode text.toList ++ [0]))
  | "space", .imm n => some (.gap n.toNat)
  | _, _ => none

/-- The number of bytes that some parts take. -/
def total : List Part → Nat
  | [] => 0
  | part :: parts => part.size + total parts

/-- Parts with their positions, one after the other from a position on. -/
def locate (x : Nat) : List Part → List (Nat × Part)
  | [] => []
  | part :: parts => (x, part) :: locate (x + part.size) parts

end Part

/-! ## Roles -/

/-- What a line means for the layout. -/
inductive Role where
  /-- It places parts, the first one at a multiple of `alignment`. -/
  | item (alignment : Nat) (parts : List Part)
  /-- It selects a segment, and moves it to a position if one is given. -/
  | select (segment : Segment) (position : Option Nat)
  /-- It declares labels to be exported. -/
  | exports (names : List String)
  /-- It reserves storage that all units see. -/
  | reserve (name : String) (size : Int)
  /-- It means nothing. -/
  | nothing

namespace Role

/-- The multiple of what number a data directive starts at. -/
def alignment (name : String) (operands : List Operand) : Nat :=
  match name, operands with
  | "word", _ => 4
  | "half", _ => 2
  | "align", [.imm n] => 2 ^ n.toNat
  | _, _ => 1

/-- The position that a segment directive gives. -/
def position? : List Operand → Option Nat
  | [.imm n] => some n.toNat
  | _ => none

/-- The label that an operand names without an offset. -/
def exported? : Operand → Option String
  | .label ⟨name, 0⟩ => some name
  | _ => none

/-- The role of a directive. -/
def ofDirective (name : String) (operands : List Operand) : Role :=
  match Segment.ofDirective? name with
  | some s => .select s (position? operands)
  | none =>
    if name = "globl" ∨ name = "global" then .exports (operands.filterMap exported?)
    else if name = "extern" then
      match operands with
      | [.label ⟨label, 0⟩, .imm size] => .reserve label size
      | _ => nothing
    else if Placement.dataDirectives.contains name then
      .item (alignment name operands) (operands.filterMap (Part.ofOperand? name))
    else nothing

/-- The role of what a statement does. -/
def ofNucleus (extended : Bool) : Option Nucleus → Role
  | none => nothing
  | some (.instr name operands) =>
    match lower name operands extended with
    | .ok is => .item 4 (is.map .word)
    | .error _ => nothing
  | some (.directive name operands) => ofDirective name operands

/-- The parts of a line with their positions, where `x` is the position that its segment has come to. -/
def located (x : Nat) : Role → List (Nat × Part)
  | item alignment parts => Part.locate (roundUp x alignment) parts
  | _ => []

/-- The segment that a line moves to a position. -/
def moved? : Role → Option Segment
  | select s (some _) => some s
  | _ => none

/-- The name that a line reserves storage for. -/
def reserved? : Role → Option String
  | reserve name _ => some name
  | _ => none

/-- The names that a line declares to be exported. -/
def exported : Role → List String
  | exports names => names
  | _ => []

/-- The position that the labels before a line get from it, if they do, where `x` is the position that its
segment has come to. -/
def settled? (x : Nat) : Role → Option Nat
  | item alignment _ => some (roundUp x alignment)
  | select _ _ => some x
  | _ => none

end Role

/-! ## Cursors -/

/-- The segment in use and the position that each segment has come to. -/
structure Cursor where
  segment : Segment
  positions : Segment → Nat

namespace Cursor

/-- Every segment starts at its base. -/
def initial (layout : MemoryLayout) : Cursor :=
  ⟨.text, fun s => ((Counters.ofLayout layout).get s).toNat⟩

/-- The position that the segment in use has come to. -/
def here (c : Cursor) : Nat := c.positions c.segment

/-- Moves a segment to a position. -/
def move (c : Cursor) (s : Segment) (x : Nat) : Cursor :=
  { c with positions := fun t => if t = s then x else c.positions t }

/-- Where a line leads to. -/
def after (c : Cursor) : Role → Cursor
  | .item alignment parts => c.move c.segment (roundUp c.here alignment + Part.total parts)
  | .select s position => { position.elim c (c.move s) with segment := s }
  | _ => c

/-- Every unit starts in the text segment. -/
def beginUnit (c : Cursor) : Cursor := { c with segment := .text }

/-- Where the lines of a unit lead to. A line that is no statement leads nowhere. -/
def through (extended : Bool) (c : Cursor) : List TokenLine → Cursor
  | [] => c
  | line :: below =>
    match Statement.ofTokens line.tokens with
    | .ok s => through extended (c.after (.ofNucleus extended s.nucleus)) below
    | .error _ => through extended c below

/-- The position that labels get that wait before some lines of a unit. -/
def settle (extended : Bool) (c : Cursor) : List TokenLine → Nat
  | [] => c.here
  | line :: below =>
    match Statement.ofTokens line.tokens with
    | .ok s => ((Role.ofNucleus extended s.nucleus).settled? c.here).getD (settle extended c below)
    | .error _ => settle extended c below

end Cursor

/-! ## Spots -/

/-- A line of a unit, with the cursor when the layout comes to it and the lines that follow. -/
structure Spot where
  /-- The index of the unit. -/
  unit : Nat
  cursor : Cursor
  line : TokenLine
  statement : Statement
  role : Role
  /-- The lines of the unit that follow. -/
  below : List TokenLine

namespace Spot

/-- The spots of some lines of a unit. -/
def ofLines (extended : Bool) (unit : Nat) (c : Cursor) : List TokenLine → List Spot
  | [] => []
  | line :: below =>
    match Statement.ofTokens line.tokens with
    | .ok s =>
      let role := Role.ofNucleus extended s.nucleus
      ⟨unit, c, line, s, role, below⟩ :: ofLines extended unit (c.after role) below
    | .error _ => ofLines extended unit c below

/-- The spots of some units, the first of which has the given index. -/
def ofUnits (extended : Bool) (unit : Nat) (c : Cursor) : List SourceUnit → List Spot
  | [] => []
  | u :: rest =>
    ofLines extended unit c.beginUnit u.expandedLines ++
      ofUnits extended (unit + 1) (c.beginUnit.through extended u.expandedLines) rest

/-- The parts of the line with their positions. -/
def parts (x : Spot) : List (Nat × Part) := x.role.located x.cursor.here

/-- The names that the line gives to what follows them. -/
def labels (x : Spot) : List String := x.statement.labels.map (·.1)

/-- The symbol of the labels of the line. -/
def symbol (extended : Bool) (x : Spot) : Symbol :=
  ⟨addressAt (x.cursor.settle extended (x.line :: x.below)), x.line.source.file, x.line.source.number,
    .internal⟩

end Spot

/-- The lines of a program in the order of the layout. -/
def Assembly.spots (options : AssemblyOptions) (units : List SourceUnit) : List Spot :=
  Spot.ofUnits options.extended 0 (.initial options.layout) units

end MipsLab
