import MipsLab.Word

set_option autoImplicit false

/-!
# Memory layout

Where the segments of a program start, and which addresses may hold instructions.
-/

namespace MipsLab

/-- The addresses that a program is laid out by. -/
structure MemoryLayout where
  textBase : Word := 0x00400000
  /-- The first address after the user text segment. -/
  textLimit : Word := 0x10000000
  externBase : Word := 0x10000000
  globalPointer : Word := 0x10008000
  dataBase : Word := 0x10010000
  stackPointer : Word := 0x7FFFEFFC
  ktextBase : Word := 0x80000000
  /-- The first address after the kernel text segment. -/
  ktextLimit : Word := 0x90000000
  kdataBase : Word := 0x90000000
deriving DecidableEq, Repr

namespace MemoryLayout

/-- Whether an address lies in the user or the kernel text segment. -/
def inText (l : MemoryLayout) (a : Word) : Bool :=
  (decide (l.textBase ≤ a) && decide (a < l.textLimit)) ||
    (decide (l.ktextBase ≤ a) && decide (a < l.ktextLimit))

end MemoryLayout

/-- The parts of memory that statements are placed in. -/
inductive Segment where
  | text
  | data
  | ktext
  | kdata
deriving DecidableEq, Repr

namespace Segment

/-- The segment that a directive selects. -/
def ofDirective? (name : String) : Option Segment :=
  match name with
  | "text" => some text
  | "data" => some data
  | "ktext" => some ktext
  | "kdata" => some kdata
  | _ => none

/-- Whether the segment holds instructions; the others hold data. -/
def isText : Segment → Bool
  | text | ktext => true
  | data | kdata => false

end Segment

/-- The address of the next item of each segment. -/
structure Counters where
  text : Word
  data : Word
  ktext : Word
  kdata : Word
deriving DecidableEq, Repr

namespace Counters

/-- Every segment starts at its base. -/
def ofLayout (l : MemoryLayout) : Counters := ⟨l.textBase, l.dataBase, l.ktextBase, l.kdataBase⟩

/-- The address of the next item of a segment. -/
def get (c : Counters) : Segment → Word
  | .text => c.text
  | .data => c.data
  | .ktext => c.ktext
  | .kdata => c.kdata

/-- Moves a segment to an address. -/
def set (c : Counters) (s : Segment) (a : Word) : Counters :=
  match s with
  | .text => { c with text := a }
  | .data => { c with data := a }
  | .ktext => { c with ktext := a }
  | .kdata => { c with kdata := a }

end Counters

end MipsLab
