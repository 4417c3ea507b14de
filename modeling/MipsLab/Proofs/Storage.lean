import MipsLab.Machine
import MipsLab.Proofs.FirstPass

set_option autoImplicit false

/-!
# What occupies memory

A program that was assembled occupies memory with the words of its code and with its blocks of data.
No two words of code share a byte, because words that do are reported, and no two blocks of data do,
because the blocks are the runs of one image. Nothing keeps data from lying on code, and where it
does, loading the program puts the data over the code (`occupied_disjoint_iff`).
-/

namespace MipsLab

/-! ## Blocks of bytes -/

namespace DataBlock

/-- The block has a byte at an address. -/
def Covers (b : DataBlock) (x : Word) : Prop := (x - b.address).toNat < b.bytes.length

instance (b : DataBlock) (x : Word) : Decidable (b.Covers x) := inferInstanceAs (Decidable (_ < _))

/-- The byte of the block at an address. -/
def byteAt? (b : DataBlock) (x : Word) : Option Byte := b.bytes[(x - b.address).toNat]?

/-- Two blocks have no address in common. -/
def Disjoint (b d : DataBlock) : Prop := ∀ x, b.Covers x → ¬ d.Covers x

/-- Writing blocks in order, none of which covers an address, leaves the byte there alone. -/
theorem foldl_patch_of_not_covers {bs : List DataBlock} {x : Word} (g : Image)
    (size : ∀ b ∈ bs, b.bytes.length ≤ 0x100000000) (h : ∀ b ∈ bs, ¬ b.Covers x) :
    bs.foldl (fun g b => Image.patch g b.address b.bytes) g x = g x := by
  induction bs generalizing g with
  | nil => rfl
  | cons b bs ih =>
      rw [List.foldl_cons, ih _ (fun d hd => size d (List.mem_cons_of_mem _ hd))
        (fun d hd => h d (List.mem_cons_of_mem _ hd))]
      exact Image.patch_of_le _ (size b List.mem_cons_self) _
        (Nat.not_lt.mp (h b List.mem_cons_self))

/-- Writing blocks in order that share no byte puts in the bytes of all of them. -/
theorem foldl_patch_of_covers {bs : List DataBlock} {x : Word} (g : Image)
    (size : ∀ b ∈ bs, b.bytes.length ≤ 0x100000000) (disjoint : bs.Pairwise Disjoint) {d : DataBlock}
    (hd : d ∈ bs) (hx : d.Covers x) :
    some (bs.foldl (fun g b => Image.patch g b.address b.bytes) g x) = d.byteAt? x := by
  induction bs generalizing g with
  | nil => cases hd
  | cons b bs ih =>
      obtain ⟨hfirst, hrest⟩ := List.pairwise_cons.mp disjoint
      have hsize := fun d hd => size d (List.mem_cons_of_mem b hd)
      rw [List.foldl_cons]
      rcases List.mem_cons.mp hd with rfl | hd
      -- the block is written first, and none of the later ones comes near it
      · rw [foldl_patch_of_not_covers _ hsize (fun e he => hfirst e he x hx)]
        rw [Image.patch_apply _ (size d List.mem_cons_self), byteAt?]
        rw [List.getElem?_eq_getElem hx, Option.getD_some]
      · exact ih _ hsize hrest hd

end DataBlock

/-! ## Code -/

/-- The bytes of a word of code. -/
def CodeWord.block (c : CodeWord) : DataBlock := ⟨c.address, Word.bytes c.word⟩

/-- Words at multiples of four share no byte unless they have the same address. -/
theorem CodeWord.block_disjoint {c d : CodeWord} (hc : Word.isAligned c.address 4 = true)
    (hd : Word.isAligned d.address 4 = true) (h : c.address ≠ d.address) :
    c.block.Disjoint d.block := by
  -- every byte of an aligned word lies in the memory word at its address
  have hcover : ∀ {e : CodeWord} {x : Word}, Word.isAligned e.address 4 = true →
      e.block.Covers x → Word.wordAligned x = e.address := by
    intro e x he hx
    have hbase := Word.wordAligned_of_isAligned he
    rw [← hbase, Word.wordAligned_eq_iff, hbase]
    exact hx
  intro x hx hx'
  exact h ((hcover hc hx).symm.trans (hcover hd hx'))

namespace Placement

/-- Resolving keeps the address. -/
theorem address_of_resolveInstr {p : Placement} {i : PlacedInstr} {c : CodeWord}
    (h : p.resolveInstr i = .ok c) : c.address = i.address := by
  unfold resolveInstr at h
  split at h
  · cases h
    rfl
  · cases h

theorem mem_successes {α : Type} {results : List (Except Diagnostic α)} {a : α} :
    a ∈ successes results ↔ .ok a ∈ results := by
  unfold successes
  rw [List.mem_filterMap]
  constructor
  · rintro ⟨r, hr, h⟩
    split at h
    · cases h
      exact hr
    · cases h
  · exact fun h => ⟨_, h, rfl⟩

theorem mem_failures {α : Type} {results : List (Except Diagnostic α)} {d : Diagnostic} :
    d ∈ failures results ↔ .error d ∈ results := by
  unfold failures
  rw [List.mem_filterMap]
  constructor
  · rintro ⟨r, hr, h⟩
    split at h
    · cases h
    · cases h
      exact hr
  · exact fun h => ⟨_, h, rfl⟩

/-- All code of a finished program stands at multiples of four. -/
theorem isAligned_of_mem_code {p : Placement} (hp : Sound p) (layout : MemoryLayout) {c : CodeWord}
    (hc : c ∈ (p.finish layout).code) : Word.isAligned c.address 4 = true := by
  have hc : c ∈ successes (p.instrs.toList.map p.resolveInstr) := List.mem_mergeSort.mp hc
  obtain ⟨i, hi, hok⟩ := List.mem_map.mp (mem_successes.mp hc)
  rw [address_of_resolveInstr hok]
  exact hp.aligned i (Array.mem_def.mpr hi)

theorem pairwise_sortCode (code : List CodeWord) :
    (sortCode code).Pairwise fun a b => a.address ≤ b.address := by
  let le (a b : CodeWord) : Bool := decide (a.address ≤ b.address)
  have htrans : ∀ a b c, le a b = true → le b c = true → le a c = true := by
    intro a b c hab hbc
    exact decide_eq_true (BitVec.le_trans (of_decide_eq_true hab) (of_decide_eq_true hbc))
  have htotal : ∀ a b, (le a b || le b a) = true := by
    intro a b
    rcases BitVec.le_total a.address b.address with h | h
    · exact Bool.or_eq_true_iff.mpr (.inl (decide_eq_true h))
    · exact Bool.or_eq_true_iff.mpr (.inr (decide_eq_true h))
  exact (List.pairwise_mergeSort htrans htotal code).imp of_decide_eq_true

/-- Sorted code without a conflict has no address twice. -/
theorem pairwise_of_codeConflicts_eq_nil {code : List CodeWord}
    (sorted : code.Pairwise fun a b => a.address ≤ b.address) (h : codeConflicts code = []) :
    code.Pairwise fun a b => a.address < b.address := by
  induction code with
  | nil => exact .nil
  | cons a code ih =>
      obtain ⟨hfirst, hrest⟩ := List.pairwise_cons.mp sorted
      cases code with
      | nil => exact List.pairwise_singleton _ _
      | cons b rest =>
          -- only neighbours are compared; the order makes that enough
          unfold codeConflicts at h
          dsimp only at h
          split at h
          · cases h
          case isFalse hne =>
            have hlt := ih hrest h
            have hab : a.address < b.address := by
              have hle := hfirst b List.mem_cons_self
              have hne' : a.address.toNat ≠ b.address.toNat := fun e => hne (BitVec.eq_of_toNat_eq e)
              rw [BitVec.le_def] at hle
              rw [BitVec.lt_def]
              omega
            refine List.pairwise_cons.mpr ⟨fun c hc => ?_, hlt⟩
            rcases List.mem_cons.mp hc with rfl | hc
            · exact hab
            · exact BitVec.lt_trans hab ((List.pairwise_cons.mp hlt).1 c hc)

/-- Conflicts are errors. -/
theorem isWarning_of_mem_codeConflicts {code : List CodeWord} {d : Diagnostic}
    (h : d ∈ codeConflicts code) : d.isWarning = false := by
  induction code with
  | nil => cases h
  | cons a code ih =>
      cases code with
      | nil => cases h
      | cons b rest =>
          unfold codeConflicts at h
          dsimp only at h
          split at h
          · rcases List.mem_cons.mp h with rfl | h
            · rfl
            · exact ih h
          · exact ih h

/-- A program without errors has no conflicts in its code. -/
theorem codeConflicts_eq_nil {p : Placement} {layout : MemoryLayout}
    (h : (p.finish layout).warnings.hasErrors = false) :
    codeConflicts (p.finish layout).code = [] := by
  rw [List.eq_nil_iff_forall_not_mem]
  intro d hd
  have hmem : d ∈ (p.finish layout).warnings := List.mem_append_right _ hd
  have hwarning := Diagnostics.isWarning_of_mem h hmem
  rw [isWarning_of_mem_codeConflicts hd] at hwarning
  cases hwarning

/-! ## Data -/

/-- The bytes of a run with their addresses. -/
def spread (a : Nat) : List Byte → List (Nat × Byte)
  | [] => []
  | b :: bs => (a, b) :: spread (a + 1) bs

/-- The runs of an image hold the image, byte by byte and in order. -/
theorem flatMap_dataRuns (image : List (Nat × Byte)) :
    (dataRuns image).flatMap (fun r => spread r.1 r.2) = image := by
  induction image with
  | nil => rfl
  | cons p rest ih =>
      obtain ⟨a, b⟩ := p
      unfold dataRuns
      split
      case h_1 next bytes runs hruns =>
        rw [hruns, List.flatMap_cons] at ih
        split
        case isTrue hnext =>
          subst hnext
          rw [List.flatMap_cons, spread, List.cons_append, ih]
        case isFalse =>
          rw [List.flatMap_cons, List.flatMap_cons, ih]
          rfl
      case h_2 hruns =>
        rw [hruns] at ih
        rw [← ih]
        rfl

theorem mem_spread (a k : Nat) (bytes : List Byte) (h : a ≤ k ∧ k < a + bytes.length) :
    ∃ b, (k, b) ∈ spread a bytes := by
  induction bytes generalizing a with
  | nil => simp only [List.length_nil] at h; omega
  | cons b bs ih =>
      rw [List.length_cons] at h
      by_cases hk : k = a
      · exact ⟨b, hk ▸ List.mem_cons_self⟩
      · obtain ⟨c, hc⟩ := ih (a + 1) (by omega)
        exact ⟨c, List.mem_cons_of_mem _ hc⟩

/-- Runs below the end of the address space cover the addresses of their bytes and no others. -/
theorem mem_spread_of_covers {a : Nat} {bytes : List Byte}
    (bounded : ∀ q ∈ spread a bytes, q.1 < 0x100000000) {x : Word}
    (hx : (⟨BitVec.ofNat 32 a, bytes⟩ : DataBlock).Covers x) :
    ∃ b, (x.toNat, b) ∈ spread a bytes := by
  have hx : (x - BitVec.ofNat 32 a).toNat < bytes.length := hx
  obtain ⟨first, hfirst⟩ := mem_spread a a bytes (by omega)
  have ha : a < 0x100000000 := bounded _ hfirst
  have hxa := x.isLt
  rw [BitVec.toNat_sub, BitVec.toNat_ofNat, Nat.mod_eq_of_lt ha] at hx
  apply mem_spread
  by_cases hle : a ≤ x.toNat
  · omega
  · -- a run that came round to `x` would hold a byte past the last address
    obtain ⟨last, hlast⟩ := mem_spread a (0x100000000) bytes (by omega)
    exact absurd (bounded _ hlast) (Nat.lt_irrefl _)

theorem length_le_of_bounded {a : Nat} {bytes : List Byte}
    (bounded : ∀ q ∈ spread a bytes, q.1 < 0x100000000) : bytes.length ≤ 0x100000000 := by
  by_cases h : bytes.length ≤ 0x100000000
  · exact h
  · obtain ⟨last, hlast⟩ := mem_spread a (a + 0x100000000) bytes (by omega)
    have := bounded _ hlast
    omega

/-- The blocks of a data image whose addresses all lie below the end of the address space. -/
theorem dataBlocks_spec {data : DataImage} (bounded : ∀ a, data.contains a = true → a < 0x100000000) :
    (dataBlocks data).Pairwise DataBlock.Disjoint ∧
      ∀ b ∈ dataBlocks data, b.bytes.length ≤ 0x100000000 := by
  have hruns := flatMap_dataRuns data.toList
  have hbounded : ∀ r ∈ dataRuns data.toList, ∀ q ∈ spread r.1 r.2, q.1 < 0x100000000 := by
    intro r hr q hq
    have hmem : q ∈ data.toList := hruns ▸ List.mem_flatMap.mpr ⟨r, hr, hq⟩
    apply bounded
    rw [Std.TreeMap.contains_eq_isSome_getElem?,
      Std.TreeMap.mem_toList_iff_getElem?_eq_some.mp (show (q.1, q.2) ∈ _ from hmem)]
    rfl
  -- the addresses of an image are distinct, and every run holds the addresses it spreads over
  constructor
  · have hdistinct : (data.toList).Pairwise fun p q => p.1 ≠ q.1 :=
      Std.TreeMap.distinct_keys_toList.imp fun hne e => hne (Nat.compare_eq_eq.mpr e)
    rw [← hruns, List.pairwise_flatMap] at hdistinct
    rw [dataBlocks, List.pairwise_map]
    refine hdistinct.2.imp_of_mem fun {r s} hr hs hne x hx hx' => ?_
    obtain ⟨b, hb⟩ := mem_spread_of_covers (hbounded r hr) hx
    obtain ⟨b', hb'⟩ := mem_spread_of_covers (hbounded s hs) hx'
    exact hne _ hb _ hb' rfl
  · intro b hb
    obtain ⟨r, hr, rfl⟩ := List.mem_map.mp hb
    exact length_le_of_bounded (hbounded r hr)

theorem getElem?_of_mem_spread {a k : Nat} {bytes : List Byte} {b : Byte}
    (h : (k, b) ∈ spread a bytes) : a ≤ k ∧ bytes[k - a]? = some b := by
  induction bytes generalizing a with
  | nil => cases h
  | cons c bytes ih =>
      rcases List.mem_cons.mp h with h | h
      · obtain ⟨rfl, rfl⟩ := Prod.mk.inj h
        exact ⟨Nat.le_refl _, by rw [Nat.sub_self]; rfl⟩
      · obtain ⟨hle, hbyte⟩ := ih h
        have hindex : k - a = k - (a + 1) + 1 := by omega
        exact ⟨by omega, by rw [hindex, List.getElem?_cons_succ, hbyte]⟩

/-- Every byte of a data image is in one of its blocks. -/
theorem exists_block_of_getElem? {data : DataImage}
    (bounded : ∀ a, data.contains a = true → a < 0x100000000) {k : Nat} {b : Byte}
    (h : data[k]? = some b) : ∃ d ∈ dataBlocks data, d.byteAt? (BitVec.ofNat 32 k) = some b := by
  have hk : k < 0x100000000 := by
    apply bounded
    rw [Std.TreeMap.contains_eq_isSome_getElem?, h]
    rfl
  have hmem := Std.TreeMap.mem_toList_iff_getElem?_eq_some.mpr h
  rw [← flatMap_dataRuns data.toList] at hmem
  obtain ⟨r, hr, hspread⟩ := List.mem_flatMap.mp hmem
  obtain ⟨hle, hbyte⟩ := getElem?_of_mem_spread hspread
  refine ⟨_, List.mem_map_of_mem hr, ?_⟩
  have hdistance : (BitVec.ofNat 32 k - BitVec.ofNat 32 r.1).toNat = k - r.1 := by
    rw [BitVec.toNat_sub, BitVec.toNat_ofNat, BitVec.toNat_ofNat, Nat.mod_eq_of_lt hk,
      Nat.mod_eq_of_lt (Nat.lt_of_le_of_lt hle hk)]
    omega
  rw [DataBlock.byteAt?, hdistance, hbyte]

/-- Words that hold the address of a label are written below the end of the address space. -/
theorem contains_writeWrapped {data : DataImage} {a : Word} {bytes : List Byte}
    (bounded : ∀ k, data.contains k = true → k < 0x100000000) {k : Nat}
    (h : (fillLabelWord.writeWrapped data a bytes).contains k = true) : k < 0x100000000 := by
  induction bytes generalizing data a with
  | nil => exact bounded k h
  | cons b bytes ih =>
      refine ih (fun j hj => ?_) h
      rw [Std.TreeMap.contains_insert] at hj
      rcases Bool.or_eq_true_iff.mp hj with hj | hj
      · have : a.toNat = j := by simpa using hj
        exact this ▸ a.isLt
      · exact bounded j hj

theorem contains_fillLabelWords {p : Placement} {ws : List LabelWord} {data : DataImage}
    (bounded : ∀ k, data.contains k = true → k < 0x100000000) {k : Nat}
    (h : (p.fillLabelWords ws data).1.contains k = true) : k < 0x100000000 := by
  induction ws generalizing data with
  | nil => exact bounded k h
  | cons w ws ih =>
      unfold fillLabelWords at h
      split at h
      case h_1 filled hfilled =>
        refine ih (fun j hj => ?_) h
        unfold fillLabelWord at hfilled
        split at hfilled
        · cases hfilled
          exact contains_writeWrapped bounded hj
        · cases hfilled
      case h_2 => exact ih bounded h

end Placement

/-! ## Assembled programs -/

/-- Everything that a program occupies memory with. -/
def AssembledProgram.blocks (p : AssembledProgram) : List DataBlock :=
  p.code.map (·.block) ++ p.data

namespace Assembly

/-- What assembles is a sound placement without errors. -/
theorem exists_sound_of_ok {options : AssemblyOptions} {units : List SourceUnit}
    {p : AssembledProgram} (ok : (assemble options units).1 = .ok p) :
    ∃ q : Placement, q.Sound ∧ p = q.finish options.layout ∧ p.warnings.hasErrors = false := by
  obtain ⟨hfinish, without⟩ := eq_finish_of_ok ok
  have hsound : (firstPass options units).Sound :=
    Placement.Sound.pass (Placement.sound_initial _ _) (pass_placeUnits _ units)
  exact ⟨_, hsound, hfinish, without⟩

/-- No two words of code share a byte, and no two blocks of data do. -/
theorem blocks_spec {options : AssemblyOptions} {units : List SourceUnit} {p : AssembledProgram}
    (ok : (assemble options units).1 = .ok p) :
    (p.code.map (·.block)).Pairwise DataBlock.Disjoint ∧ p.data.Pairwise DataBlock.Disjoint ∧
      ∀ b ∈ p.blocks, b.bytes.length ≤ 0x100000000 := by
  -- code is kept apart by the report of conflicts, data by being one image
  obtain ⟨q, hsound, rfl, herrors⟩ := exists_sound_of_ok ok
  have hbounded : ∀ k, (q.fillLabelWords q.labelWords.toList q.data).1.contains k = true →
      k < 0x100000000 := fun k hk => Placement.contains_fillLabelWords hsound.bounded hk
  obtain ⟨hdata, hsize⟩ := Placement.dataBlocks_spec hbounded
  have hcode := Placement.pairwise_of_codeConflicts_eq_nil
    (Placement.pairwise_sortCode _) (Placement.codeConflicts_eq_nil herrors)
  refine ⟨?_, hdata, fun b hb => ?_⟩
  · rw [List.pairwise_map]
    refine hcode.imp_of_mem fun {c d} hc hd hlt => ?_
    exact CodeWord.block_disjoint (Placement.isAligned_of_mem_code hsound options.layout hc)
      (Placement.isAligned_of_mem_code hsound options.layout hd) (BitVec.ne_of_lt hlt)
  · rcases List.mem_append.mp hb with hb | hb
    · obtain ⟨c, -, rfl⟩ := List.mem_map.mp hb
      exact Nat.le_trans (Nat.le_of_eq (Word.length_bytes c.word)) (by decide)
    · exact hsize b hb

end Assembly

/-! ## Loaded programs -/

namespace Machine

/-- Loading writes the words of code in order and then the blocks of data. -/
theorem image_loadMemory (memory : Memory) (p : AssembledProgram) :
    (loadMemory memory p).image =
      p.blocks.foldl (fun g b => Image.patch g b.address b.bytes) memory.image := by
  have hcode : ∀ (cs : List CodeWord) (mem : Memory),
      (cs.foldl (fun mem c => mem.write c.address 4 c.word) mem).image =
        (cs.map (·.block)).foldl (fun g b => Image.patch g b.address b.bytes) mem.image := by
    intro cs
    induction cs with
    | nil => exact fun mem => rfl
    | cons c cs ih =>
        intro mem
        rw [List.foldl_cons, ih, Memory.image_write, List.map_cons, List.foldl_cons]
        rfl
  have hdata : ∀ (ds : List DataBlock) (mem : Memory),
      (ds.foldl (fun mem d => mem.writeBytes d.address d.bytes) mem).image =
        ds.foldl (fun g d => Image.patch g d.address d.bytes) mem.image := by
    intro ds
    induction ds with
    | nil => exact fun mem => rfl
    | cons d ds ih =>
        intro mem
        rw [List.foldl_cons, ih, Memory.image_writeBytes, List.foldl_cons]
  rw [AssembledProgram.blocks, List.foldl_append, ← hcode, ← hdata]
  rfl

end Machine

/-- **In a program that assembles, no two words of code share a byte and no two blocks of data do.**
So everything it occupies memory with is disjoint exactly if no data lies on code. After loading,
the address of a word of code holds that word exactly if all data that lies on it agrees with it. -/
theorem Assembly.occupied_disjoint_iff {options : AssemblyOptions} {units : List SourceUnit}
    {p : AssembledProgram} (ok : (assemble options units).1 = .ok p) :
    (p.code.map (·.block)).Pairwise DataBlock.Disjoint ∧ p.data.Pairwise DataBlock.Disjoint ∧
      (p.blocks.Pairwise DataBlock.Disjoint ↔
        ∀ c ∈ p.code, ∀ d ∈ p.data, c.block.Disjoint d) ∧
      ∀ (m : Machine), ∀ c ∈ p.code,
        (Image.word (m.load p).memory.image c.address = c.word ↔
          ∀ d ∈ p.data, ∀ x, c.block.Covers x → d.Covers x → d.byteAt? x = c.block.byteAt? x) := by
  obtain ⟨hcode, hdata, hsize⟩ := blocks_spec ok
  refine ⟨hcode, hdata, ?_, fun m c hc => ?_⟩
  · rw [AssembledProgram.blocks, List.pairwise_append]
    constructor
    · rintro ⟨-, -, h⟩ c hc d hd
      exact h c.block (List.mem_map_of_mem hc) d hd
    · intro h
      refine ⟨hcode, hdata, fun b hb d hd => ?_⟩
      obtain ⟨c, hc, rfl⟩ := List.mem_map.mp hb
      exact h c hc d hd
  · let written (g : Image) (b : DataBlock) : Image := Image.patch g b.address b.bytes
    let image := (p.code.map (·.block)).foldl written m.reset.memory.image
    have hload : (m.load p).memory.image = p.data.foldl written image := by
      rw [← List.foldl_append]
      exact Machine.image_loadMemory m.reset.memory p
    have hsize' : ∀ d ∈ p.data, d.bytes.length ≤ 0x100000000 :=
      fun d hd => hsize d (List.mem_append_right _ hd)
    have hword : ∀ x, c.block.Covers x → some (image x) = c.block.byteAt? x :=
      fun x hx => DataBlock.foldl_patch_of_covers _ (fun b hb => hsize b (List.mem_append_left _ hb))
        hcode (List.mem_map_of_mem hc) hx
    have hcover : ∀ d ∈ p.data, ∀ x, d.Covers x → some ((m.load p).memory.image x) = d.byteAt? x := by
      intro d hd x hx
      rw [hload]
      exact DataBlock.foldl_patch_of_covers image hsize' hdata hd hx
    rw [Image.word_eq_iff]
    constructor
    · intro h d hd x hx hx'
      rw [← hcover d hd x hx']
      exact (h x hx).symm
    · intro h x hx
      show c.block.byteAt? x = some ((m.load p).memory.image x)
      -- data is written after the code, so it decides wherever it lies
      by_cases hlies : ∃ d ∈ p.data, d.Covers x
      · obtain ⟨d, hd, hx'⟩ := hlies
        rw [hcover d hd x hx', h d hd x hx hx']
      · have hfree : ∀ d ∈ p.data, ¬ d.Covers x := fun d hd hx' => hlies ⟨d, hd, hx'⟩
        rw [hload, DataBlock.foldl_patch_of_not_covers image hsize' hfree, hword x hx]

/-- A word of data on the only instruction of a program assembles without an error, and loading the
program puts it there instead of the instruction. -/
theorem Assembly.occupied_disjoint_iff_dataOnCode :
    let units : List SourceUnit := [.ofText "a.s" "nop\n.data 0x400000\n.word 5"]
    ∃ p, (assemble {} units).1 = .ok p ∧ ¬ p.blocks.Pairwise DataBlock.Disjoint ∧
      ∃ c ∈ p.code, c.word = 0 ∧
        Image.word ((Machine.initial {}).load p).memory.image c.address ≠ c.word := by
  intro units
  have hran : (assemble {} units).1.toOption.map
      (fun p => (p.code.map (fun c => (c.address, c.word)), p.data)) =
        some ([(0x00400000, 0)], [⟨0x00400000, [5, 0, 0, 0]⟩]) := by decide +kernel
  obtain ⟨p, hp, hran⟩ := Option.map_eq_some_iff.mp hran
  obtain ⟨hcode, hdata⟩ := Prod.mk.inj hran
  have ok : (assemble {} units).1 = .ok p := by
    cases hresult : (assemble {} units).1 with
    | error _ => rw [hresult] at hp; cases hp
    | ok q => rw [hresult] at hp; cases hp; rfl
  obtain ⟨c, hc⟩ : ∃ c, p.code = [c] := List.length_eq_one_iff.mp (by
    rw [← List.length_map (fun c : CodeWord => (c.address, c.word)), hcode]; rfl)
  rw [hc, List.map_singleton, List.cons.injEq, Prod.mk.injEq] at hcode
  obtain ⟨⟨haddress, hword⟩, -⟩ := hcode
  have hmem : c ∈ p.code := hc ▸ List.mem_singleton_self c
  have hblock : c.block = ⟨0x00400000, Word.bytes 0⟩ := by rw [CodeWord.block, haddress, hword]
  have hcovers : c.block.Covers 0x00400000 := by rw [hblock]; decide
  let d : DataBlock := ⟨0x00400000, [5, 0, 0, 0]⟩
  have hd : d ∈ p.data := hdata ▸ List.mem_singleton_self d
  obtain ⟨-, -, hdisjoint, hload⟩ := occupied_disjoint_iff ok
  refine ⟨p, ok, fun h => ?_, c, hmem, hword, fun h => ?_⟩
  · exact hdisjoint.mp h c hmem d hd 0x00400000 hcovers (by decide)
  · have hbyte := (hload _ c hmem).mp h d hd 0x00400000 hcovers (by decide)
    rw [hblock] at hbyte
    exact absurd hbyte (by decide)

end MipsLab
