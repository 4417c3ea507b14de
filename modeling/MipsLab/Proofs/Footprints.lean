import MipsLab.Proofs.FlatMemory
import MipsLab.Proofs.StringServices

set_option autoImplicit false

/-!
# What instructions access

The addresses that an instruction reads or writes can be told from the machine before it (`accessed`): those of
an aligned load or store, of a string that is printed up to its zero byte, or of a buffer that is filled. Its
execution touches the pages of these addresses and no others (`Touches.execute`).
-/

namespace MipsLab

open Memory (pageOf)
open Memory.Operation (addressesFrom)

/-! ## Addresses -/

/-- A word lies in one page. -/
theorem Memory.pageOf_congr {a b : Word} (h : Word.wordAligned a = Word.wordAligned b) : pageOf a = pageOf b := by
  have hvalue := congrArg BitVec.toNat h
  rw [Word.toNat_wordAligned, Word.toNat_wordAligned] at hvalue
  unfold pageOf
  omega

theorem Memory.isTouched_congr (m : Memory) {a b : Word} (h : pageOf a = pageOf b) :
    m.isTouched a = m.isTouched b := by
  rw [isTouched, isTouched, h]

theorem Word.isAligned_of_wordAligned {a : Word} (h : wordAligned a = a) : isAligned a 4 = true := by
  rw [isAligned_iff, ← h, toNat_wordAligned]
  omega

theorem sub_lt_of_mem_addressesFrom {a x : Word} {n : Nat} (hx : x ∈ addressesFrom a n) : (x - a).toNat < n := by
  induction n generalizing a with
  | zero => cases hx
  | succ n ih =>
      by_cases hxa : x = a
      · subst hxa
        simp
      · have hlater := ih ((List.mem_cons.mp hx).resolve_left hxa)
        rw [Word.toNat_sub_eq_add_one hxa]
        omega

/-- An aligned access stays in the page that it starts in. -/
theorem pageOf_of_mem_addressesFrom {a x : Word} {width : Nat} (hw : width = 1 ∨ width = 2 ∨ width = 4)
    (ha : Word.isAligned a width = true) (hx : x ∈ addressesFrom a width) : pageOf x = pageOf a :=
  Memory.pageOf_congr (Word.wordAligned_of_sub_lt hw ha (sub_lt_of_mem_addressesFrom hx))

theorem exists_mem_addressesFrom_iff {a : Word} {width : Nat} (hw : width = 1 ∨ width = 2 ∨ width = 4)
    (ha : Word.isAligned a width = true) (x : Word) :
    (∃ y ∈ addressesFrom a width, pageOf y = pageOf x) ↔ pageOf a = pageOf x := by
  constructor
  · rintro ⟨y, hy, hpage⟩
    rw [← hpage, pageOf_of_mem_addressesFrom hw ha hy]
  · intro hpage
    rcases hw with rfl | rfl | rfl <;> exact ⟨a, List.mem_cons_self, hpage⟩

namespace Machine

/-! ## Pages of an execution -/

/-- The pages that `n` has are those of `m`, and those of the given addresses. -/
def Touches (m n : Machine) (as : List Word) : Prop :=
  ∀ x, n.memory.isTouched x = true ↔ m.memory.isTouched x = true ∨ ∃ a ∈ as, pageOf a = pageOf x

namespace Touches

variable {m n k : Machine} {as bs : List Word}

theorem of_memory (h : n.memory = m.memory) : Touches m n [] := by
  intro x
  simp [h]

theorem of_eq (h : Touches m n as) (hk : k.memory = n.memory) : Touches m k as := by
  intro x
  rw [hk]
  exact h x

theorem trans (hmn : Touches m n as) (hnk : Touches n k bs) : Touches m k (as ++ bs) := by
  intro x
  rw [hnk x, hmn x, or_assoc]
  simp only [List.mem_append, or_and_right, exists_or]

/-- Some pages twice are the same pages. -/
theorem congr (h : Touches m n as)
    (hpages : ∀ x, (∃ a ∈ as, pageOf a = pageOf x) ↔ ∃ b ∈ bs, pageOf b = pageOf x) : Touches m n bs :=
  fun x => (h x).trans (or_congr_right (hpages x))

theorem touched (m : Machine) (a : Word) (k : Nat) : Touches m (m.touched a k) (addressesFrom a k) :=
  fun x => Memory.isTouched_touchBytes_iff m.memory a x k

theorem putMemory (m : Machine) (a : Word) {width : Nat} (hw : width = 1 ∨ width = 2 ∨ width = 4) (value : Word) :
    Touches m (m.putMemory a width value) (addressesFrom a width) := by
  intro x
  have hlength : ((Word.bytes value).take width).length = width := by
    rw [List.length_take, Word.length_bytes]
    omega
  have hwrite := Memory.isTouched_writeBytes_iff m.memory a ((Word.bytes value).take width) x
  rwa [hlength] at hwrite

/-- The word around a byte that is written is looked at, but this is in the same page. -/
theorem storedTo (m : Machine) {a : Word} {width : Nat} (hw : width = 1 ∨ width = 2 ∨ width = 4)
    (ha : Word.isAligned a width = true) (value : Word) :
    Touches m (m.storedTo a width value) (addressesFrom a width) := by
  let base := Word.wordAligned a
  have hbase : Word.isAligned base 4 = true := Word.isAligned_of_wordAligned (Word.wordAligned_wordAligned a)
  have hpage : pageOf base = pageOf a := Memory.pageOf_congr (Word.wordAligned_wordAligned a)
  have hall : Touches m (m.storedTo a width value)
      (addressesFrom base 4 ++ addressesFrom a width ++ addressesFrom base 4) :=
    ((touched m base 4).trans (putMemory _ a hw value)).trans (touched _ base 4)
  refine hall.congr fun x => ?_
  simp only [List.mem_append, or_and_right, exists_or, exists_mem_addressesFrom_iff hw ha,
    exists_mem_addressesFrom_iff (.inr (.inr rfl)) hbase, hpage, or_self]

theorem storedBytes (m : Machine) (a : Word) (bytes : List Byte) :
    Touches m (m.storedBytes a bytes) (addressesFrom a bytes.length) := by
  induction bytes generalizing m a with
  | nil => exact .of_memory rfl
  | cons b bytes ih =>
      have hfirst := storedTo m (.inl rfl) (isAligned_one a) (b.setWidth 32)
      have hrest := ih (m.storedTo a 1 (b.setWidth 32)) (a + 1)
      rw [Machine.storedBytes]
      exact hfirst.trans hrest

/-- A string is read up to and with its zero byte. -/
theorem readString (m : Machine) (before : List Byte) (a : Word) (limit : Nat) :
    Touches m ((readString before a limit).run.run m).2
      (addressesFrom a (min ((Image.stringAt m.memory.image a limit).length + 1) limit)) := by
  induction limit generalizing m before a with
  | zero => exact .of_memory rfl
  | succ limit ih =>
      let n := (m.observed (.memory (Word.wordAligned a)) .ofRead).touched a 1
      have hfirst : Touches m n (addressesFrom a 1) := touched (m.observed _ _) a 1
      have himage : n.memory.image = m.memory.image := image_touched _ a 1
      rw [Machine.readString, run_bind, run_readMemory_of_isAligned (isAligned_one a)]
      dsimp only
      rw [Image.setWidth_value_one, Image.stringAt]
      split
      case isTrue =>
        rw [List.length_nil, Nat.zero_add, Nat.min_eq_left (Nat.succ_le_succ (Nat.zero_le _))]
        exact hfirst
      case isFalse =>
        rw [List.length_cons, Nat.succ_min_succ]
        have hrest := ih n (m.memory.image a :: before) (a + 1)
        rw [himage] at hrest
        exact hfirst.trans hrest

end Touches

/-! ## Pages of an instruction -/

/-- The bytes that a buffer of some size receives. -/
def received (m : Machine) (size : Int) : List Byte :=
  if size < 1 then []
  else if size = 1 then lineBuffer 0 []
  else lineBuffer (size - 1).toNat ((m.console.readLine m.running).answer.getD [])

/-- The addresses that a service accesses: those of a string that is printed, with its zero byte, and those of a
buffer that is filled. -/
def servedAddresses (m : Machine) : List Word :=
  let a := m.registers.get .a0
  match (m.registers.get .v0).toNat with
  | 4 => addressesFrom a (min ((Image.stringAt m.memory.image a printLimit).length + 1) printLimit)
  | 8 => addressesFrom a (m.received (m.registers.get .a1).toInt).length
  | _ => []

/-- The addresses that a load or store accesses. It has to be aligned. -/
def alignedAddresses (a : Word) (width : Nat) : List Word :=
  if Word.isAligned a width then addressesFrom a width else []

/-- The addresses that an instruction reads or writes. -/
def accessed (m : Machine) : Instr → List Word
  | .load op _ base offset => alignedAddresses (m.registers.get base + offset.signExtend 32) op.width
  | .store op _ base offset => alignedAddresses (m.registers.get base + offset.signExtend 32) op.width
  | .syscall => m.servedAddresses
  | _ => []

/-- What an instruction accesses does not depend on the pages that there are. -/
theorem accessed_touched (m : Machine) (a : Word) (k : Nat) (i : Instr) :
    (m.touched a k).accessed i = m.accessed i := by
  cases i with
  | syscall =>
      show (m.touched a k).servedAddresses = m.servedAddresses
      unfold servedAddresses
      rw [image_touched]
      rfl
  | _ => rfl

theorem memory_wrote (m : Machine) (r : Register) (value : Word) : (m.wrote r value).memory = m.memory := by
  unfold wrote
  split <;> rfl

/-- However it ends, the execution leaves memory alone. -/
def LeavesMemory {α : Type} (x : Exec α) : Prop := ∀ memory, Keeps (fun m => m.memory = memory) x

namespace LeavesMemory

variable {inputs : Prop} {α : Type} {x : Exec α}

theorem touches (hx : LeavesMemory x) (m : Machine) : Touches m (x.run.run m).2 [] :=
  .of_memory (hx m.memory m rfl)

theorem writeRegister (r : Register) (value : Word) : LeavesMemory (Machine.writeRegister r value) := by
  intro memory m h
  rw [run_writeRegister_eq]
  exact (memory_wrote m r value).trans h

theorem inspects (hx : Inspects inputs False x) : LeavesMemory x := by
  intro memory
  induction hx with
  | pure a => exact Keeps.pure a
  | throw e => exact Keeps.throw e
  | bind _ _ ihx ihf => exact Keeps.bind ihx ihf
  | readRegister r => exact fun _ h => h
  | readMemory allowed => exact allowed.elim
  | print bytes => exact fun _ h => h
  | inputByte => exact fun _ h => h
  | inputLine => exact fun _ h => h

/-- An execution that may not access memory leaves it alone. -/
theorem staged (hx : Staged inputs False x) : LeavesMemory x := by
  intro memory
  induction hx with
  | inspects hx => exact inspects hx memory
  | after hx _ ih => exact Keeps.bind (inspects hx memory) ih
  | result _ b ih => exact Keeps.bind ih fun _ => Keeps.pure b
  | writeRegister r value => exact writeRegister r value memory
  | writeHiLo hi lo =>
      exact Keeps.bind (writeRegister .hi hi memory) fun _ => writeRegister .lo lo memory
  | writeMemory allowed => exact allowed.elim
  | writeString allowed => exact allowed.elim

end LeavesMemory

namespace Touches

theorem inputString (m : Machine) (a : Word) (size : Int) :
    Touches m ((inputString a size).run.run m).2 (addressesFrom a (m.received size).length) := by
  unfold Machine.inputString received
  split
  case isTrue => exact .of_memory rfl
  case isFalse =>
    split
    case isTrue =>
      rw [run_writeString]
      exact storedBytes m a (lineBuffer 0 [])
    case isFalse =>
      rw [run_bind, run_inputLine]
      dsimp only
      rw [run_writeString]
      exact storedBytes (m.answered (m.console.readLine m.running)) a _

theorem service (m : Machine) : Touches m (service.run.run m).2 m.servedAddresses := by
  let n := (m.observed (.register (.general .v0)) .ofRead).observed (.register (.general .a0)) .ofRead
  have hsame : Touches m n [] := .of_memory rfl
  have hrun : (Machine.service.run.run m).2 =
      ((serve (m.registers.get .v0) (m.registers.get .a0)).run.run n).2 := by rw [run_service]
  rw [hrun, servedAddresses]
  split
  case h_1 hnumber =>
    have hserve : serve (m.registers.get .v0) (m.registers.get .a0) =
        (Machine.readString [] (m.registers.get .a0) printLimit >>= Machine.print) := by
      rw [serve, hnumber]
      rfl
    rw [hserve, run_bind]
    have hread := readString n [] (m.registers.get .a0) printLimit
    rcases hrun : (Machine.readString [] (m.registers.get .a0) printLimit).run.run n with ⟨e | bytes, k⟩ <;>
      rw [hrun] at hread
    · exact hsame.trans hread
    · exact (hsame.trans hread).of_eq rfl
  case h_2 hnumber =>
    let k := n.observed (.register (.general .a1)) .ofRead
    have hserve : (serve (m.registers.get .v0) (m.registers.get .a0)).run.run n =
        (Machine.inputString (m.registers.get .a0) (m.registers.get .a1).toInt).run.run k := by
      rw [serve, hnumber]
      rfl
    rw [hserve]
    exact hsame.trans (inputString k _ _)
  case h_3 hprint hread =>
    have hserve : Staged True False (serve (m.registers.get .v0) (m.registers.get .a0)) :=
      .serve (fun _ => trivial) hprint hread _
    exact hsame.trans ((LeavesMemory.staged hserve).touches n)

theorem load (m : Machine) (pc : Word) (op : LoadOp) (rt base : Reg) (offset : Half) :
    Touches m ((Machine.execute pc (.load op rt base offset)).run.run m).2
      (alignedAddresses (m.registers.get base + offset.signExtend 32) op.width) := by
  unfold alignedAddresses
  split
  case isTrue ha =>
    simp only [Machine.execute, run_bind, run_readGeneral, run_readMemory_of_isAligned ha, run_writeGeneral,
      run_pure]
    exact of_eq (touched ((m.observed _ _).observed _ _) _ op.width) (memory_wrote _ _ _)
  case isFalse ha =>
    simp only [Machine.execute, run_bind, run_readGeneral,
      run_readMemory_of_not_isAligned (Bool.eq_false_iff.mpr ha)]
    exact .of_memory rfl

theorem store (m : Machine) (pc : Word) (op : StoreOp) (rt base : Reg) (offset : Half) :
    Touches m ((Machine.execute pc (.store op rt base offset)).run.run m).2
      (alignedAddresses (m.registers.get base + offset.signExtend 32) op.width) := by
  have hw : op.width = 1 ∨ op.width = 2 ∨ op.width = 4 := by cases op <;> simp [StoreOp.width]
  unfold alignedAddresses
  split
  case isTrue ha =>
    simp only [Machine.execute, run_bind, run_readGeneral, run_writeMemory_of_isAligned ha, run_pure]
    exact storedTo ((m.observed _ _).observed _ _) hw ha _
  case isFalse ha =>
    simp only [Machine.execute, run_bind, run_readGeneral,
      run_writeMemory_of_not_isAligned (Bool.eq_false_iff.mpr ha)]
    exact .of_memory rfl

/-- An instruction that is no load, store or service leaves the pages as they are. -/
theorem other (m : Machine) (pc : Word) {i : Instr} (hi : i ≠ .syscall) (h : ¬AccessesMemory i) :
    Touches m ((Machine.execute pc i).run.run m).2 [] := by
  have hstaged : Staged False False (Machine.execute pc i) := .execute pc hi h
  exact (LeavesMemory.staged hstaged).touches m

/-- **An instruction touches the pages of what it accesses**, and no others. -/
theorem execute (m : Machine) (pc : Word) (i : Instr) :
    Touches m ((execute pc i).run.run m).2 (m.accessed i) := by
  cases i with
  | syscall =>
      have hserved := service m
      show Touches m (((Machine.service >>= fun _ => pure (pc + 4)).run.run m)).2 _
      rw [run_bind]
      rcases hrun : Machine.service.run.run m with ⟨e | u, n⟩ <;> rw [hrun] at hserved <;> exact hserved
  | load op rt base offset => exact load m pc op rt base offset
  | store op rt base offset => exact store m pc op rt base offset
  | _ => exact other m pc nofun fun h => h

end Touches

end Machine

end MipsLab
