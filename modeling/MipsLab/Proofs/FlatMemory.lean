import MipsLab.Proofs.IntegerSemantics

set_option autoImplicit false

/-!
# Memory is flat

Memory keeps pages, which come into being when one of their addresses is first accessed, by a read as
well as by a write. None of this shows: memory that is filled with a word behaves as an array with a
byte at every address (`operation_specified`), whatever was done before, and whether a value lies in
one page, in two, or across the end of memory. Pages show only to those who look without touching.
-/

namespace MipsLab.Memory

/-! ## Operations -/

/-- The number of bytes in a byte, a half or a word. -/
abbrev Width := { n : Nat // n = 1 ∨ n = 2 ∨ n = 4 }

/-- What can be done with memory. -/
inductive Operation where
  | read (a : Word) (width : Width)
  | write (a : Word) (width : Width) (value : Word)
  | readByte (a : Word)
  | writeByte (a : Word) (b : Byte)
  /-- Looks at the word that holds an address, without touching its page. -/
  | peek (a : Word)
  /-- Writes bytes from an address on. -/
  | copy (a : Word) (bytes : List Byte)

/-- What an operation gives. -/
inductive Answer where
  | value (w : Word)
  | byte (b : Byte)
  | peeked (w : Option Word)
  | done
deriving DecidableEq

namespace Operation

/-- What an operation gives, and the memory after it. -/
def perform (m : Memory) : Operation → Answer × Memory
  | read a width => (.value (m.read a width).1, (m.read a width).2)
  | write a width value => (.done, m.write a width value)
  | readByte a => (.byte (m.readByte a).1, (m.readByte a).2)
  | writeByte a b => (.done, m.writeByte a b)
  | peek a => (.peeked (m.peek? a), m)
  | copy a bytes => (.done, m.writeBytes a bytes)

/-- The `n` addresses from `a` on; after the last address comes the first. -/
def addressesFrom (a : Word) : Nat → List Word
  | 0 => []
  | n + 1 => a :: addressesFrom (a + 1) n

/-- The addresses that an operation accesses. Looking is no access. -/
def addresses : Operation → List Word
  | read a width => addressesFrom a width
  | write a width _ => addressesFrom a width
  | readByte a => [a]
  | writeByte a _ => [a]
  | peek _ => []
  | copy a bytes => addressesFrom a bytes.length

end Operation

/-- The memory after some operations. -/
def performAll (m : Memory) (ops : List Operation) : Memory :=
  ops.foldl (fun m op => (op.perform m).2) m

/-- Memory filled with a word, after some operations. -/
def after (v : Word) (ops : List Operation) : Memory := performAll (.filled (.known v)) ops

/-- Some operation has accessed the page of an address. -/
def Accessed (ops : List Operation) (a : Word) : Prop :=
  ∃ op ∈ ops, ∃ x ∈ op.addresses, pageOf x = pageOf a

/-! ## The flat image -/

/-- The byte that the page of an address holds for it, if there is a page. -/
def pageByte? (m : Memory) (a : Word) : Option Byte := m.pages[pageOf a]?.map fun page => byteAt page a

/-- The byte at every address, where there are no pages that of the word `v`, in little-endian
order. -/
def flat (m : Memory) (v : Word) : Image := fun a =>
  (m.pageByte? a).getD (Word.byte v (a.toNat % 4))

/-- What an operation does to a flat image, and what it gives. Only looking depends on the pages that
were accessed. -/
def Operation.Specified (g : Image) (accessed : Word → Prop) (answer : Answer) (g' : Image) :
    Operation → Prop
  | read a width => (∃ w, answer = .value w ∧ w.toNat = g.number a width) ∧ g' = g
  | write a width value => answer = .done ∧ g' = g.withNumber a width value.toNat
  | readByte a => answer = .byte (g a) ∧ g' = g
  | writeByte a b => answer = .done ∧ g.Puts a [b] g'
  | peek a =>
    (answer = .peeked none ↔ ¬ accessed a) ∧
      (accessed a → ∃ w, answer = .peeked (some w) ∧
        w.toNat = g.number (Word.wordAligned a) 4) ∧ g' = g
  | copy a bytes => answer = .done ∧ g.Puts a bytes g'

/-! ## Pages -/

theorem isTouched_touch_iff (m : Memory) (a b : Word) :
    (m.touch a).isTouched b = true ↔ m.isTouched b = true ∨ pageOf a = pageOf b := by
  rw [isTouched_touch]
  simp

theorem isTouched_touchBytes_iff (m : Memory) (a b : Word) (n : Nat) :
    (m.touchBytes a n).isTouched b = true ↔
      m.isTouched b = true ∨ ∃ x ∈ Operation.addressesFrom a n, pageOf x = pageOf b := by
  induction n generalizing a with
  | zero => simp [touchBytes, Operation.addressesFrom]
  | succ n ih =>
      rw [touchBytes, isTouched_touch_iff, ih]
      simp [Operation.addressesFrom, or_assoc, or_comm (a := pageOf a = pageOf b)]

theorem isTouched_writeByte_iff (m : Memory) (a : Word) (b : Byte) (x : Word) :
    (m.writeByte a b).isTouched x = true ↔ m.isTouched x = true ∨ pageOf a = pageOf x := by
  rw [isTouched_writeByte]
  simp

theorem isTouched_writeBytes_iff (m : Memory) (a : Word) (bs : List Byte) (x : Word) :
    (m.writeBytes a bs).isTouched x = true ↔
      m.isTouched x = true ∨ ∃ y ∈ Operation.addressesFrom a bs.length, pageOf y = pageOf x := by
  induction bs generalizing m a with
  | nil => simp [writeBytes, Operation.addressesFrom]
  | cons b bs ih =>
      rw [writeBytes, ih, isTouched_writeByte_iff]
      simp [Operation.addressesFrom, or_assoc]

theorem isTouched_perform_iff (m : Memory) (op : Operation) (b : Word) :
    (op.perform m).2.isTouched b = true ↔
      m.isTouched b = true ∨ ∃ x ∈ op.addresses, pageOf x = pageOf b := by
  cases op with
  | read a width =>
      rw [Operation.perform, read_eq]
      exact isTouched_touchBytes_iff m a b width
  | write a width value =>
      have hlength : ((Word.bytes value).take width).length = width := by
        rw [List.length_take, Word.length_bytes]
        exact Nat.min_eq_left (by have := width.2; omega)
      have hwrite := isTouched_writeBytes_iff m a ((Word.bytes value).take width) b
      rwa [hlength] at hwrite
  | readByte a =>
      rw [Operation.perform, readByte_eq]
      exact isTouched_touchBytes_iff m a b 1
  | writeByte a byte =>
      rw [Operation.perform, isTouched_writeByte_iff]
      simp [Operation.addresses]
  | peek a => simp [Operation.perform, Operation.addresses]
  | copy a bytes => exact isTouched_writeBytes_iff m a bytes b

theorem isTouched_performAll_iff (m : Memory) (ops : List Operation) (b : Word) :
    (m.performAll ops).isTouched b = true ↔ m.isTouched b = true ∨ Accessed ops b := by
  induction ops generalizing m with
  | nil => simp [performAll, Accessed]
  | cons op ops ih =>
      have hrest := ih (op.perform m).2
      rw [isTouched_perform_iff, or_assoc] at hrest
      refine hrest.trans (or_congr_right ?_)
      simp only [Accessed, List.mem_cons, or_and_right, exists_or, exists_eq_left]

/-- The pages that exist are those that some operation accessed. -/
theorem isTouched_after_iff (v : Word) (ops : List Operation) (a : Word) :
    (after v ops).isTouched a = true ↔ Accessed ops a := by
  rw [after, isTouched_performAll_iff, isTouched_filled]
  simp

/-! ## What pages are filled with -/

@[simp] theorem fill_touch (m : Memory) (a : Word) : (m.touch a).fill = m.fill := by
  unfold touch
  split <;> rfl

@[simp] theorem fill_touchBytes (m : Memory) (a : Word) (n : Nat) : (m.touchBytes a n).fill = m.fill := by
  induction n generalizing a with
  | zero => rfl
  | succ n ih => rw [touchBytes, fill_touch, ih]

@[simp] theorem fill_writeByte (m : Memory) (a : Word) (b : Byte) : (m.writeByte a b).fill = m.fill := by
  rw [writeByte, openPage_eq]
  exact fill_touch m a

@[simp] theorem fill_writeBytes (m : Memory) (a : Word) (bs : List Byte) :
    (m.writeBytes a bs).fill = m.fill := by
  induction bs generalizing m a with
  | nil => rfl
  | cons b bs ih => rw [writeBytes, ih, fill_writeByte]

/-- What pages are filled with stays the same. -/
theorem fill_perform (m : Memory) (op : Operation) : (op.perform m).2.fill = m.fill := by
  cases op with
  | read a width => rw [Operation.perform, read_eq, fill_touchBytes]
  | write a width value => exact fill_writeBytes m a _
  | readByte a => rw [Operation.perform, readByte_eq, fill_touch]
  | writeByte a b => exact fill_writeByte m a b
  | peek => rfl
  | copy a bytes => exact fill_writeBytes m a bytes

theorem fill_performAll (m : Memory) (ops : List Operation) : (m.performAll ops).fill = m.fill := by
  induction ops generalizing m with
  | nil => rfl
  | cons op ops ih => exact (ih (op.perform m).2).trans (fill_perform m op)

/-- **The pages refine the flat image**: a page that exists holds what the image holds, and one that does not
exist yet would be filled with the bytes that it stands for. -/
theorem flat_eq {m : Memory} {v : Word} (hfill : m.fill = .known v) : m.flat v = m.image := by
  funext a
  unfold flat pageByte?
  cases hpage : m.pages[pageOf a]? with
  | some page => rw [Option.map_some, Option.getD_some, image, pageAt, hpage, Option.getD_some]
  | none => rw [Option.map_none, Option.getD_none, image_of_no_page m a hpage, hfill, Fill.known]

/-! ## The operations on the image -/

theorem toNat_fst_read (m : Memory) (a : Word) {width : Nat} (h : width ≤ 4) :
    (m.read a width).1.toNat = Image.number m.image a width := by
  rw [fst_read]
  exact (Machine.toNat_ofBytes_bytesAt m.image a h).1

/-- Each operation does to the image what it should, and gives what it should. -/
theorem specified_image (m : Memory) (op : Operation) :
    op.Specified m.image (fun a => m.isTouched a = true) (op.perform m).1 (op.perform m).2.image := by
  cases op with
  | read a width =>
      have hwidth : width.1 ≤ 4 := by have := width.2; omega
      exact ⟨⟨_, rfl, toNat_fst_read m a hwidth⟩, image_read m a width⟩
  | write a width value =>
      have hwidth : width.1 ≤ 4 := by have := width.2; omega
      refine ⟨rfl, ?_⟩
      rw [Operation.perform, image_write, Machine.store_eq_withNumber _ _ hwidth]
  | readByte a =>
      rw [Operation.perform, readByte_eq]
      exact ⟨rfl, image_touch m a⟩
  | writeByte a b =>
      refine ⟨rfl, ?_⟩
      rw [Operation.perform, image_writeByte]
      exact Image.puts_patch m.image a [b]
  | peek a =>
      simp only [Operation.perform, Operation.Specified, Answer.peeked.injEq]
      refine ⟨?_, fun ha => ?_, trivial⟩
      · by_cases ha : m.isTouched a = true
        · simp [ha, peek?_of_isTouched m a ha]
        · simp [ha, peek?_of_not_isTouched m a ha]
      exact ⟨_, peek?_of_isTouched m a ha, (Machine.toNat_ofBytes_bytesAt m.image _ (by decide)).1⟩
  | copy a bytes =>
      refine ⟨rfl, ?_⟩
      rw [Operation.perform, image_writeBytes]
      exact Image.puts_patch m.image a bytes

/-- Memory filled with a word starts out with that word everywhere, and whatever was done before,
every operation works on the flat image: reading and looking give what it holds and leave it alone,
writing changes the bytes that are addressed and no others, and only what was accessed can be looked
at. -/
theorem operation_specified (v : Word) :
    (∀ a, (filled (.known v)).flat v a = Word.byte v (a.toNat % 4)) ∧
      ∀ (ops : List Operation) (op : Operation),
        op.Specified ((after v ops).flat v) (Accessed ops) (op.perform (after v ops)).1
          ((op.perform (after v ops)).2.flat v) := by
  refine ⟨fun a => by simp [flat, pageByte?, filled], fun ops op => ?_⟩
  have haccessed : Accessed ops = fun a => (after v ops).isTouched a = true :=
    funext fun a => propext (isTouched_after_iff v ops a).symm
  have hfill : (after v ops).fill = .known v := fill_performAll _ ops
  rw [haccessed, flat_eq hfill, flat_eq ((fill_perform _ op).trans hfill)]
  exact specified_image (after v ops) op

end Memory

end MipsLab
