import MipsLab.Proofs.Lines
import MipsLab.Proofs.Writes

set_option autoImplicit false

/-!
# Strings that are read and printed

The service that reads a string fills a buffer of a given size with a line of input, and the one that
prints a string prints bytes up to the first zero byte. Each has a loop and a limit of its own. The
first one stays within its buffer, also where that comes round to address zero, and the second one
finds the end of what the first one has written (`read_then_print`).
-/

namespace MipsLab

/-! ## Strings in memory -/

namespace Image

/-- The bytes from an address on up to the first zero byte, and at most `limit` of them. -/
def stringAt (g : Image) (a : Word) : Nat → List Byte
  | 0 => []
  | limit + 1 => if g a = 0 then [] else g a :: stringAt g (a + 1) limit

/-- A string that was put in is found up to its first zero byte. -/
theorem stringAt_eq_takeWhile {g : Image} {a : Word} {bs : List Byte} {limit : Nat}
    (found : ∀ i (h : i < bs.length), g (a + BitVec.ofNat 32 i) = bs[i]) (zero : 0 ∈ bs)
    (short : (bs.takeWhile (· != 0)).length < limit) :
    stringAt g a limit = bs.takeWhile (· != 0) := by
  induction bs generalizing a limit with
  | nil => cases zero
  | cons b bs ih =>
      have hb : g a = b := by simpa using found 0 (Nat.zero_lt_succ _)
      cases limit with
      | zero => cases short
      | succ limit =>
          rw [stringAt, hb]
          by_cases hzero : b = 0
          · rw [if_pos hzero, List.takeWhile_cons_of_neg (by simp [hzero])]
          · have htake : (b :: bs).takeWhile (· != 0) = b :: bs.takeWhile (· != 0) :=
              List.takeWhile_cons_of_pos (bne_iff_ne.mpr hzero)
            have hmore : 0 ∈ bs := (List.mem_cons.mp zero).resolve_left (Ne.symm hzero)
            rw [htake, List.length_cons] at short
            have hrest : stringAt g (a + 1) limit = bs.takeWhile (· != 0) := by
              refine ih (fun i hi => ?_) hmore (Nat.lt_of_succ_lt_succ short)
              rw [add_one_add_ofNat]
              exact found (i + 1) (Nat.succ_lt_succ hi)
            rw [if_neg hzero, htake, hrest]

end Image

namespace Machine

/-! ## Reading a string from memory -/

/-- A program sees the same in both machines, and so does the owner of the console. -/
structure SameView (m n : Machine) : Prop where
  registers : n.registers = m.registers
  pc : n.pc = m.pc
  image : n.memory.image = m.memory.image
  console : n.console = m.console
  running : n.running = m.running

theorem SameView.trans {m n k : Machine} (hmn : SameView m n) (hnk : SameView n k) :
    SameView m k where
  registers := hnk.registers.trans hmn.registers
  pc := hnk.pc.trans hmn.pc
  image := hnk.image.trans hmn.image
  console := hnk.console.trans hmn.console
  running := hnk.running.trans hmn.running

theorem run_readString (m : Machine) (before : List Byte) (a : Word) (limit : Nat) :
    ∃ n, SameView m n ∧ (readString before a limit).run.run m =
      (.ok (before.reverse ++ Image.stringAt m.memory.image a limit), n) := by
  induction limit generalizing m before a with
  | zero =>
      refine ⟨m, ⟨rfl, rfl, rfl, rfl, rfl⟩, ?_⟩
      rw [Image.stringAt, List.append_nil]
      rfl
  | succ limit ih =>
      let n := (m.observed (.memory (Word.wordAligned a)) .ofRead).touched a 1
      have himage : n.memory.image = m.memory.image := image_touched _ a 1
      have hview : SameView m n := ⟨rfl, rfl, himage, rfl, rfl⟩
      rw [readString, run_bind, run_readMemory_of_isAligned (isAligned_one a)]
      dsimp only
      rw [Image.setWidth_value_one, Image.stringAt]
      split
      · exact ⟨n, hview, by rw [List.append_nil]; rfl⟩
      · obtain ⟨k, hrest, hrun⟩ := ih n (m.memory.image a :: before) (a + 1)
        refine ⟨k, hview.trans hrest, ?_⟩
        rw [himage] at hrun
        simpa using hrun

/-! ## Filling a buffer -/

/-- The bytes that a buffer of some size gets, and the console and the run control that are left. A line is
followed by a newline if that fits, and cut off where there is no more room; the last byte is zero. If there
is only room for that one, no line is taken. -/
inductive Receives (size : Int) (c : Console) (running : Bool) : List Byte → Console → Bool → Prop
  | terminator (h : size = 1) : Receives size c running [0] c running
  | line {line : Option (List Byte)} {d : Console} {stays : Bool} (h : 2 ≤ size)
      (taken : c.TakesLine running line d stays) :
      Receives size c running ((line.getD [] ++ [newline]).take (size - 1).toNat ++ [0]) d stays

/-- All that reading a string does: some bytes are put at an address, and the console has given a line for
them. -/
structure Fills (m : Machine) (a : Word) (size : Int) (bytes : List Byte) (n : Machine) : Prop where
  received : Receives size m.console m.running bytes n.console n.running
  bounded : bytes.length ≤ size
  image : Image.Puts m.memory.image a bytes n.memory.image
  registers : n.registers = m.registers
  pc : n.pc = m.pc

/-- All that printing does. -/
structure Prints (m : Machine) (text : List Byte) (n : Machine) : Prop where
  console : n.console = (m.console.print m.running text).console
  running : n.running = (m.console.print m.running text).running
  image : n.memory.image = m.memory.image
  registers : n.registers = m.registers
  pc : n.pc = m.pc

theorem Receives.zero_mem {size : Int} {c d : Console} {running stays : Bool} {bytes : List Byte}
    (h : Receives size c running bytes d stays) : 0 ∈ bytes := by
  cases h <;> simp

theorem Receives.length_le {size : Int} {c d : Console} {running stays : Bool} {bytes : List Byte}
    (h : Receives size c running bytes d stays) : bytes.length ≤ size := by
  cases h with
  | terminator h => simp [h]
  | @line line d stays h taken =>
      have hlength := length_lineBuffer_le (size - 1).toNat (line.getD [])
      rw [lineBuffer] at hlength
      omega

/-- From a console that holds some input, a buffer gets the first line of it, and the rest is left. -/
theorem Receives.of_holding {R : Console → List Byte → Prop} (holding : Console.Holding R) {size : Int}
    {c d : Console} {running stays : Bool} {input bytes : List Byte}
    (h : Receives size c running bytes d stays) (hc : R c input) :
    ∃ rest, R d rest ∧ (size = 1 ∧ bytes = [0] ∧ rest = input ∨
      2 ≤ size ∧ ∃ line, Console.FirstLine input line rest ∧
        bytes = (line ++ [newline]).take (size - 1).toNat ++ [0]) := by
  cases h with
  | terminator h => exact ⟨input, hc, .inl ⟨h, rfl, rfl⟩⟩
  | line h taken =>
      obtain ⟨rest, hfirst, -, hrest⟩ := taken.firstLine holding hc
      exact ⟨rest, hrest, .inr ⟨h, _, hfirst, rfl⟩⟩

theorem image_storedBytes (m : Machine) (a : Word) (bytes : List Byte) :
    (m.storedBytes a bytes).memory.image = Image.patch m.memory.image a bytes := by
  induction bytes generalizing m a with
  | nil => rfl
  | cons b bs ih => rw [storedBytes, ih, image_storedTo, Image.store_one, Image.patch]

theorem kept_storedTo (m : Machine) (a : Word) (width : Nat) (value : Word) :
    (m.storedTo a width value).registers = m.registers ∧ (m.storedTo a width value).pc = m.pc ∧
      (m.storedTo a width value).console = m.console ∧
      (m.storedTo a width value).running = m.running := ⟨rfl, rfl, rfl, rfl⟩

theorem kept_storedBytes (m : Machine) (a : Word) (bytes : List Byte) :
    (m.storedBytes a bytes).registers = m.registers ∧ (m.storedBytes a bytes).pc = m.pc ∧
      (m.storedBytes a bytes).console = m.console ∧ (m.storedBytes a bytes).running = m.running := by
  induction bytes generalizing m a with
  | nil => exact ⟨rfl, rfl, rfl, rfl⟩
  | cons b bs ih =>
      obtain ⟨hregisters, hpc, hconsole, hrunning⟩ := ih (m.storedTo a 1 (b.setWidth 32)) (a + 1)
      rw [storedBytes, hregisters, hpc, hconsole, hrunning]
      exact kept_storedTo m a 1 _

theorem run_inputString (m : Machine) (a : Word) {size : Int} (h : 1 ≤ size)
    (ends : 2 ≤ size → m.console.EndsLine m.running) :
    ∃ bytes console running, Receives size m.console m.running bytes console running ∧
      (inputString a size).run.run m = (.ok (), { m with console, running }.storedBytes a bytes) := by
  unfold inputString
  rw [if_neg (by omega)]
  split
  case isTrue hone => exact ⟨[0], _, _, .terminator hone, run_writeString a [0] m⟩
  case isFalse hne =>
    have hsize : 2 ≤ size := by omega
    refine ⟨_, _, _, .line hsize (Console.takesLine_readLine (ends hsize)), ?_⟩
    rw [run_bind, run_inputLine]
    dsimp only
    rw [run_writeString, lineBuffer]
    rfl

theorem fills_inputString (m : Machine) (a : Word) {size : Int} (h : 1 ≤ size)
    (ends : 2 ≤ size → m.console.EndsLine m.running) :
    ∃ bytes n, (inputString a size).run.run m = (.ok (), n) ∧ Fills m a size bytes n := by
  obtain ⟨bytes, console, running, hreceives, hrun⟩ := run_inputString m a h ends
  let k : Machine := { m with console, running }
  obtain ⟨hregisters, hpc, hconsole, hrunning⟩ := kept_storedBytes k a bytes
  refine ⟨bytes, _, hrun, ?_, hreceives.length_le, ?_, hregisters, hpc⟩
  · rw [hconsole, hrunning]
    exact hreceives
  · rw [image_storedBytes]
    exact Image.puts_patch m.memory.image a bytes

/-! ## The services -/

theorem prints_service (m : Machine) (hservice : m.registers.get .v0 = 4) :
    ∃ n, service.run.run m = (.ok (), n) ∧
      Prints m (Image.stringAt m.memory.image (m.registers.get .a0) printLimit) n := by
  let k := (m.observed (.register (.general .v0)) .ofRead).observed (.register (.general .a0)) .ofRead
  obtain ⟨n, hview, hread⟩ := run_readString k [] (m.registers.get .a0) printLimit
  rw [run_service, hservice]
  show ∃ n, (readString [] (m.registers.get .a0) printLimit >>= print).run.run k = _ ∧ _
  rw [run_bind, hread]
  refine ⟨_, rfl, ?_, ?_, hview.image, hview.registers, hview.pc⟩
  · show (n.console.print n.running _).console = _
    rw [hview.console, hview.running]
    rfl
  · show (n.console.print n.running _).running = _
    rw [hview.console, hview.running]
    rfl

/-- **Strings stay in their buffer, and are printed as they were read.** Reading a string into a buffer
without room does nothing. Otherwise, unless a console is waited for forever, it puts a line and a zero byte
into the buffer, at addresses that may come round to zero, and changes nothing else. When that string is
printed, with anything done in between that leaves memory as it is, its bytes before the first zero are
printed if they stay below the limit. -/
theorem read_then_print (m : Machine) (hservice : m.registers.get .v0 = 8) :
    ((m.registers.get .a1).toInt < 1 →
      ∃ observer, service.run.run m = (.ok (), { m with observer })) ∧
    (1 ≤ (m.registers.get .a1).toInt →
      (2 ≤ (m.registers.get .a1).toInt → m.console.EndsLine m.running) → ∃ bytes n,
      service.run.run m = (.ok (), n) ∧
      Fills m (m.registers.get .a0) (m.registers.get .a1).toInt bytes n ∧
      ∀ k : Machine, k.registers.get .v0 = 4 → k.registers.get .a0 = m.registers.get .a0 →
        k.memory.image = n.memory.image → (bytes.takeWhile (· != 0)).length < 2 ^ 20 →
        ∃ l, service.run.run k = (.ok (), l) ∧ Prints k (bytes.takeWhile (· != 0)) l) := by
  let m' := ((m.observed (.register (.general .v0)) .ofRead).observed (.register (.general .a0))
    .ofRead).observed (.register (.general .a1)) .ofRead
  have hrun : service.run.run m =
      (inputString (m.registers.get .a0) (m.registers.get .a1).toInt).run.run m' := by
    rw [run_service, hservice]
    rfl
  rw [hrun]
  refine ⟨fun hsize => ?_, fun hsize ends => ?_⟩
  · unfold inputString
    rw [if_pos hsize]
    exact ⟨m'.observer, rfl⟩
  · obtain ⟨bytes, n, hfill, fills⟩ := fills_inputString m' (m.registers.get .a0) hsize ends
    obtain ⟨received, bounded, image, registers, pc⟩ := fills
    have hlast : (m.registers.get .a1).toInt < 2147483648 := BitVec.toInt_lt
    refine ⟨bytes, n, hfill, ⟨received, bounded, image, registers, pc⟩, ?_⟩
    intro k hprint ha0 himage hshort
    have hfound : Image.stringAt k.memory.image (k.registers.get .a0) printLimit =
        bytes.takeWhile (· != 0) := by
      rw [ha0, himage]
      exact Image.stringAt_eq_takeWhile (fun i hi => image.addressed i hi (by omega))
        received.zero_mem hshort
    have hprints := prints_service k hprint
    rwa [hfound] at hprints

/-- The machine that is about to read a string of at most two bytes into a buffer that begins at the
last address. The line has three. -/
def fillingAcrossEnd : Machine :=
  let m := Machine.initial {}
  { m with
    registers := ((m.registers.set .v0 8).set .a0 0xFFFFFFFF).set .a1 3
    console := .buffered ⟨[0x61, 0x62, 0x63, 0x0A], #[]⟩ }

/-- The line is cut off, and its first two bytes are printed from both ends of memory. -/
theorem read_then_print_acrossEnd :
    fillingAcrossEnd.registers.get .v0 = 8 ∧ ∃ bytes n l,
      service.run.run fillingAcrossEnd = (.ok (), n) ∧
      Fills fillingAcrossEnd 0xFFFFFFFF 3 bytes n ∧
      service.run.run { n with registers := n.registers.set .v0 4 } = (.ok (), l) ∧
      Prints { n with registers := n.registers.set .v0 4 } (bytes.takeWhile (· != 0)) l ∧
      l.console.buffers? = some ⟨[], #[0x61, 0x62]⟩ := by
  have hservice : fillingAcrossEnd.registers.get .v0 = 8 := by decide +kernel
  have haddress : fillingAcrossEnd.registers.get .a0 = 0xFFFFFFFF := by decide +kernel
  have hsize : (fillingAcrossEnd.registers.get .a1).toInt = 3 := by decide +kernel
  have hprint : (fillingAcrossEnd.registers.set .v0 4).get .v0 = 4 ∧
      (fillingAcrossEnd.registers.set .v0 4).get .a0 = 0xFFFFFFFF := by decide +kernel
  have hbuffers :
      let n := (service.run.run fillingAcrossEnd).2
      (service.run.run { n with registers := n.registers.set .v0 4 }).2.console.buffers? =
        some ⟨[], #[0x61, 0x62]⟩ := by decide +kernel
  obtain ⟨bytes, n, hrun, fills, hprints⟩ :=
    (read_then_print fillingAcrossEnd hservice).2 (by omega) (fun _ => trivial)
  rw [haddress, hsize] at fills
  have hshort : (bytes.takeWhile (· != 0)).length < 2 ^ 20 := by
    have hbounded := fills.bounded
    have htake := (List.takeWhile_prefix (l := bytes) (· != 0)).length_le
    omega
  obtain ⟨l, hl, prints⟩ := hprints { n with registers := n.registers.set .v0 4 }
    (by rw [fills.registers]; exact hprint.1)
    (by rw [fills.registers, haddress]; exact hprint.2) rfl hshort
  refine ⟨hservice, bytes, n, l, hrun, fills, hl, prints, ?_⟩
  rw [hrun] at hbuffers
  dsimp only at hbuffers
  rwa [hl] at hbuffers

end Machine

end MipsLab
