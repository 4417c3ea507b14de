import Std.Data.TreeMap.Basic
import MipsLab.Word

set_option autoImplicit false

/-!
# Memory

Memory has a byte at every 32-bit address. It is kept in pages, which are made when one of their
addresses is first read or written and are filled then. One can also look at a word without making
its page.
-/

namespace MipsLab

/-- What registers and memory hold before anything is written. A page is filled only once, so that
what a generator of words gives it is a function of its number. -/
structure Fill where
  /-- The words of the registers, one after the other. -/
  register : Nat → Word
  /-- The words of a page, one after the other, by the number of the page. -/
  page : Nat → Nat → Word

/-- The same word everywhere. -/
def Fill.known (value : Word) : Fill := ⟨fun _ => value, fun _ _ => value⟩

/-- The bytes at the addresses that differ in their low twelve bits only. -/
abbrev Page := Vector Byte 4096

/-- The page with given words, each in little-endian order. -/
def Page.ofWords (word : Nat → Word) : Page where
  toArray := ((List.range 1024).flatMap fun i => Word.bytes (word i)).toArray
  size_toArray := by
    rw [List.size_toArray, List.length_flatMap]
    simp only [Word.bytes, List.length_cons, List.length_nil]
    rw [List.map_const', List.length_range, List.sum_replicate_nat]

/-- Memory. -/
structure Memory where
  fill : Fill
  /-- The pages that were made, by number. -/
  pages : Std.TreeMap Nat Page

namespace Memory

/-- Memory without pages. -/
def filled (fill : Fill) : Memory := ⟨fill, ∅⟩

/-- The number of the page that an address lies in. -/
def pageOf (a : Word) : Nat := a.toNat / 4096

/-- The place of an address in its page. -/
def offset (a : Word) : Fin 4096 := ⟨a.toNat % 4096, Nat.mod_lt _ (by decide)⟩

/-- The byte of a page at the place of an address. -/
def byteAt (page : Page) (a : Word) : Byte := page[offset a]

/-- The page of an address, which is made if it is not there yet. -/
def openPage (m : Memory) (a : Word) : Page × Memory :=
  match m.pages[pageOf a]? with
  | some page => (page, m)
  | none =>
    let page := Page.ofWords (m.fill.page (pageOf a))
    (page, { m with pages := m.pages.insert (pageOf a) page })

/-- Reads a byte. -/
def readByte (m : Memory) (a : Word) : Byte × Memory :=
  let (page, m) := m.openPage a
  (byteAt page a, m)

/-- Writes a byte. -/
def writeByte (m : Memory) (a : Word) (b : Byte) : Memory :=
  let (page, m) := m.openPage a
  { m with pages := m.pages.insert (pageOf a) (page.set (offset a) b) }

/-- Reads `n` bytes from an address on, the last one first; after the last address comes the
first. -/
def readBytes (m : Memory) (a : Word) : Nat → List Byte × Memory
  | 0 => ([], m)
  | n + 1 =>
    let (bs, m) := m.readBytes (a + 1) n
    let (b, m) := m.readByte a
    (b :: bs, m)

/-- Reads the little-endian value of `width` bytes. -/
def read (m : Memory) (a : Word) (width : Nat) : Word × Memory :=
  let (bs, m) := m.readBytes a width
  (Word.ofBytes bs, m)

/-- Writes bytes from an address on; after the last address comes the first. -/
def writeBytes (m : Memory) (a : Word) : List Byte → Memory
  | [] => m
  | b :: bs => (m.writeByte a b).writeBytes (a + 1) bs

/-- Writes the low `width` bytes of a word, of which there are at most four. -/
def write (m : Memory) (a : Word) (width : Nat) (value : Word) : Memory :=
  m.writeBytes a ((Word.bytes value).take width)

/-- The word that holds the byte at an address, if its page was made. -/
def peek? (m : Memory) (a : Word) : Option Word :=
  m.pages[pageOf a]?.map fun page =>
    let start := (offset a).val / 4 * 4
    Word.ofBytes (page.toArray.extract start (start + 4)).toList

/-- The number of pages that were made. -/
def pageCount (m : Memory) : Nat := m.pages.size

end Memory

end MipsLab
