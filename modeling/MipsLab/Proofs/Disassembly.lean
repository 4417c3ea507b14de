import MipsLab.Instr.Print
import MipsLab.Proofs.MnemonicTables
import MipsLab.Proofs.Resolution
import MipsLab.Proofs.StatementTokens

set_option autoImplicit false

/-!
# The listing of an instruction is assembled to it again

An instruction is listed in its basic form. Reading the listing as a line of source text, lowering it
without expansions and resolving it at any address gives the instruction back, and no label is
looked up (`Instr.text_reassembles`).
-/

namespace MipsLab

open Lexer

/-! ## The basic form of an instruction -/

namespace Mnemonic

/-- Lower case does not change how a mnemonic is written. -/
theorem ofName?_toLower (m : Mnemonic) : ofName? m.name.toLower = some m := by
  revert m
  exact forall_of_all (by decide +kernel)

/-- A mnemonic is read as a name. -/
theorem results_name (m : Mnemonic) {rest : List Char} (hrest : Stops rest) :
    results (m.name.toList ++ rest) = .ok (.name m.name) :: results rest := by
  have hall : ∀ m ∈ all, Lexer.isName m.name.toList = true := by decide +kernel
  simpa using results_of_isName (hall m (mem_all m)) hrest

end Mnemonic

namespace Instr

/-- The mnemonic that an instruction is listed with, and its operands. -/
def form : Instr → Mnemonic × List Operand
  | alu op rd rs rt => (.alu op, [.reg rd, .reg rs, .reg rt])
  | shift op rd rt amount =>
    if shift op rd rt amount = nop then (.nop, [])
    else (.shift op, [.reg rd, .reg rt, .imm amount])
  | shiftBy op rd rt rs => (.shiftBy op, [.reg rd, .reg rt, .reg rs])
  | mulDiv op rs rt => (.mulDiv op, [.reg rs, .reg rt])
  | mul rd rs rt => (.mul, [.reg rd, .reg rs, .reg rt])
  | moveFrom half rd => (.moveFrom half, [.reg rd])
  | moveTo half rs => (.moveTo half, [.reg rs])
  | jr rs => (.jr, [.reg rs])
  | jalr rd rs => (.jalr, [.reg rd, .reg rs])
  | syscall => (.syscall, [])
  | brk code => if code = 0 then (.brk, []) else (.brk, [.imm code])
  | aluImm op rt rs imm =>
    (.aluImm op, [.reg rt, .reg rs, .imm (if op.zeroExtends then imm.toNat else imm.toInt)])
  | lui rt imm => (.lui, [.reg rt, .imm imm.toNat])
  | load op rt base offset => (.load op, [.reg rt, .mem offset.toInt base])
  | store op rt base offset => (.store op, [.reg rt, .mem offset.toInt base])
  | branch cond rs rt offset => (.branch cond, [.reg rs, .reg rt, .imm offset.toInt])
  | branchSign cond rs offset => (.branchSign cond, [.reg rs, .imm offset.toInt])
  | jump link index => (.jump link, [.imm (index * 4)])

/-- The symbolic instruction that stands for an instruction in its basic form. Only that of a jump
depends on where it stands. -/
def symbolic : Instr → SymbolicInstr
  | jump link index => .jump link (.address (BitVec.ofNat 32 (index * 4)))
  | i => .plain i

theorem label?_symbolic (i : Instr) : i.symbolic.label? = none := by
  cases i <;> rfl

/-- The text of a mnemonic with operands; nothing follows a mnemonic that stands alone. -/
def listing (mnemonic : String) (operands : List String) : String :=
  if operands.isEmpty then mnemonic else line mnemonic operands

theorem writes_toInt (imm : Half) : Writes (Numeral.int imm.toInt) (.imm imm.toInt) := by
  have hlow := BitVec.le_toInt imm
  have hhigh := BitVec.toInt_lt (x := imm)
  exact .decimal (by omega)

theorem writes_place (offset : Half) (base : Reg) :
    Writes (place offset base) (.mem offset.toInt base) := by
  have hlow := BitVec.le_toInt offset
  have hhigh := BitVec.toInt_lt (x := offset)
  exact .mem (by omega) base

theorem writes_nat {n : Nat} (hn : n ≤ 4294967295) : Writes (Numeral.nat n) (.imm n) :=
  .decimal (n := (n : Int)) (by omega)

theorem writes_hex4 (imm : Half) : Writes (Numeral.hex4 imm.toNat) (.imm imm.toNat) :=
  .hex 4 (by have := imm.isLt; omega)

/-- An instruction is listed with its mnemonic and a text for each operand. -/
theorem exists_listing {i : Instr} (h : i.InRange) :
    ∃ texts, i.text = listing i.form.1.name texts ∧ List.Forall₂ Writes texts i.form.2 := by
  cases i with
  | alu | shiftBy | mul => exact ⟨[_, _, _], rfl, .cons (.reg _) (.cons (.reg _) (.cons (.reg _) .nil))⟩
  | mulDiv | jalr => exact ⟨[_, _], rfl, .cons (.reg _) (.cons (.reg _) .nil)⟩
  | jr => exact ⟨[_], rfl, .cons (.reg _) .nil⟩
  | moveFrom half | moveTo half =>
      cases half <;> exact ⟨[_], rfl, .cons (.reg _) .nil⟩
  | syscall => exact ⟨[], rfl, .nil⟩
  | load | store => exact ⟨[_, _], rfl, .cons (.reg _) (.cons (writes_place _ _) .nil)⟩
  | branch =>
      exact ⟨[_, _, _], rfl, .cons (.reg _) (.cons (.reg _) (.cons (writes_toInt _) .nil))⟩
  | branchSign => exact ⟨[_, _], rfl, .cons (.reg _) (.cons (writes_toInt _) .nil)⟩
  | lui => exact ⟨[_, _], rfl, .cons (.reg _) (.cons (writes_hex4 _) .nil)⟩
  | aluImm op rt rs imm =>
      have himm : Writes (if op.zeroExtends then Numeral.hex4 imm.toNat else Numeral.int imm.toInt)
          (.imm (if op.zeroExtends then imm.toNat else imm.toInt)) := by
        split
        · exact writes_hex4 imm
        · exact writes_toInt imm
      exact ⟨[_, _, _], rfl, .cons (.reg _) (.cons (.reg _) (.cons himm .nil))⟩
  | shift op rd rt amount =>
      have hamount : amount < 32 := h
      by_cases hnop : shift op rd rt amount = nop
      · refine ⟨[], ?_, ?_⟩
        · rw [text, form, if_pos hnop, if_pos hnop]
          rfl
        · rw [form, if_pos hnop]
          exact .nil
      · refine ⟨[rd.text, rt.text, Numeral.nat amount], ?_, ?_⟩
        · rw [text, form, if_neg hnop, if_neg hnop]
          rfl
        · rw [form, if_neg hnop]
          exact .cons (.reg _) (.cons (.reg _) (.cons (writes_nat (by omega)) .nil))
  | brk code =>
      have hrange : code < 0x100000 := h
      by_cases hcode : code = 0
      · cases hcode
        exact ⟨[], rfl, .nil⟩
      · refine ⟨[Numeral.nat code], ?_, ?_⟩
        · rw [text, form, if_neg hcode, if_neg hcode, if_neg nofun]
          rfl
        · rw [form, if_neg hcode]
          exact .cons (writes_nat (by omega)) .nil
  | jump link index =>
      have hindex : index < 0x4000000 := h
      have hmod : index * 4 % 0x100000000 = index * 4 := Nat.mod_eq_of_lt (by omega)
      refine ⟨[Numeral.hex8 (index * 4)], ?_, .cons (.hex 8 (n := index * 4) (by omega)) .nil⟩
      rw [text, if_neg nofun]
      simp only [hmod]
      cases link <;> rfl

theorem half_toInt (imm : Half) : Lowering.half imm.toInt = imm := BitVec.ofInt_toInt

theorem half_toNat (imm : Half) : Lowering.half imm.toNat = imm := by
  rw [Lowering.half, BitVec.ofInt_natCast, BitVec.ofNat_toNat, BitVec.setWidth_eq]

theorem fitsSigned16_toInt (imm : Half) : FitsSigned16 imm.toInt :=
  ⟨BitVec.le_toInt imm, Int.lt_add_one_iff.mp (BitVec.toInt_lt (x := imm))⟩

theorem fitsUnsigned16_toNat (imm : Half) : FitsUnsigned16 imm.toNat := by
  have himm := imm.isLt
  exact ⟨by omega, by omega⟩

/-- The basic form of an instruction is the instruction itself: each number fits its field. -/
theorem basicForm_form {i : Instr} (h : i.InRange) :
    Lowering.basicForm i.form.1 i.form.2 = .fits i.symbolic := by
  have hsigned (imm : Half) (s : Half → SymbolicInstr) :
      Lowering.withNumber imm.toInt (FitsSigned16 imm.toInt) (s (Lowering.half imm.toInt)) =
        .fits (s imm) := by
    rw [Lowering.withNumber, if_pos (fitsSigned16_toInt imm), half_toInt]
  cases i with
  | load op rt base offset => exact hsigned offset (.plain <| .load op rt base ·)
  | store op rt base offset => exact hsigned offset (.plain <| .store op rt base ·)
  | branch cond rs rt offset => exact hsigned offset (.plain <| .branch cond rs rt ·)
  | branchSign cond rs offset => exact hsigned offset (.plain <| .branchSign cond rs ·)
  | lui rt imm =>
      have himm := imm.isLt
      rw [form, Lowering.basicForm, half_toNat]
      exact if_pos (by omega)
  | aluImm op rt rs imm =>
      have hfits : Lowering.ImmFits op (if op.zeroExtends then imm.toNat else imm.toInt) := by
        unfold Lowering.ImmFits
        split
        · exact fitsUnsigned16_toNat imm
        · exact fitsSigned16_toInt imm
      have hhalf : Lowering.half (if op.zeroExtends then imm.toNat else imm.toInt) = imm := by
        split
        · exact half_toNat imm
        · exact half_toInt imm
      rw [form, Lowering.basicForm, Lowering.withNumber, if_pos hfits, hhalf]
      rfl
  | shift op rd rt amount =>
      have hamount : amount < 32 := h
      by_cases hnop : shift op rd rt amount = nop
      · rw [form, if_pos hnop, hnop]
        rfl
      · rw [form, if_neg hnop]
        exact if_pos (by omega)
  | brk code =>
      have hrange : code < 0x100000 := h
      by_cases hcode : code = 0
      · cases hcode
        rfl
      · rw [form, if_neg hcode, Lowering.basicForm, if_pos ⟨by omega, by omega⟩]
        rfl
  | jump link index =>
      have hindex : index < 0x4000000 := h
      have hunsigned : IsUnsigned32 (index * 4 : Int) := ⟨by omega, by omega⟩
      have hword : Word.ofInt (index * 4 : Int) = BitVec.ofNat 32 (index * 4) := by
        exact_mod_cast BitVec.ofInt_natCast 32 (index * 4)
      rw [form, Lowering.basicForm, if_pos hunsigned, hword, symbolic]
  | _ => rfl

theorem resolve_symbolic {i : Instr} (h : i.InRange) (lookup : String → Option Word) {pc : Word}
    (hpc : ∀ link index, i = .jump link index → (pc + 4).toNat < 0x10000000) :
    i.symbolic.resolve lookup pc = .ok i := by
  cases i with
  | jump link index =>
      have hindex : index < 0x4000000 := h
      have hregion := hpc link index rfl
      have htarget : (BitVec.ofNat 32 (index * 4)).toNat = index * 4 := by
        rw [BitVec.toNat_ofNat]
        omega
      have hreaches : SymbolicInstr.jumpIndex? pc (BitVec.ofNat 32 (index * 4)) = some index := by
        have hsame := (and_region_eq_iff (BitVec.ofNat 32 (index * 4)) (pc + 4)).mpr (by omega)
        rw [SymbolicInstr.jumpIndex?, if_pos ⟨hsame, by omega⟩, htarget]
        congr 1
        omega
      rw [symbolic, SymbolicInstr.resolve, SymbolicInstr.jumpTo, hreaches]
  | _ => rfl

/-- A mnemonic and the operands after it are read from their listing. -/
theorem results_listing (m : Mnemonic) {texts : List String} {operands : List Operand}
    (h : List.Forall₂ Writes texts operands) :
    results (listing m.name texts).toList =
      (.name m.name :: [Token.comma].intercalate (operands.map Operand.tokens)).map .ok := by
  have hempty : results [] = [] := rfl
  cases h with
  | nil =>
      have hread := m.results_name stops_nil
      simpa [listing, hempty] using hread
  | @cons text o texts operands hfirst hothers =>
      have hread := m.results_name
        (stops_cons (c := ' ') (by decide) (", ".intercalate (text :: texts)).toList)
      have hgap : ∀ c ∈ [' '], CharClass.isGap c = true := List.all_eq_true.mp rfl
      have hoperands := results_intercalate hgap (.cons hfirst hothers)
      rw [results_gap (by decide), String.toList_intercalate] at hread
      rw [show ", ".toList = [',', ' '] from rfl, hoperands] at hread
      simpa [listing, line] using hread

/-- **An instruction whose numbers fit their fields is assembled again from its listing.** A reader
without constants reads the text as one line without labels. The instruction of that line is
accepted without expansions, and is a single one that names no label. So at any address, and with
any labels, it resolves to the instruction that was listed; a jump does so in the lowest region,
whose targets the listing shows. -/
theorem text_reassembles {i : Instr} (h : i.InRange) {pc : Word}
    (hpc : ∀ link index, i = .jump link index → (pc + 4).toNat < 0x10000000)
    (file : String) (number : Nat) :
    ∃ line s name operands symbolic,
      TokenLine.read [] ⟨file, number, i.text⟩ = .ok (line, []) ∧
      Statement.ofTokens line.tokens = .ok s ∧ s.labels = [] ∧
      s.nucleus = some (.instr name operands) ∧
      lower name operands false = .ok [symbolic] ∧
      symbolic.label? = none ∧ ∀ lookup, symbolic.resolve lookup pc = .ok i := by
  obtain ⟨texts, htext, hwrites⟩ := exists_listing h
  have hresults := results_listing i.form.1 hwrites
  have hcomment : Token.comment ∉ [Token.comma].intercalate (i.form.2.map Operand.tokens) :=
    fun hmem => (Statement.ne_of_mem_intercalate hmem).2 rfl
  obtain ⟨ts, hread, htokens⟩ := TokenLine.read_results ⟨file, number, i.text⟩
    (htext ▸ hresults) hcomment
  obtain ⟨s, hs, hlabels, hnucleus⟩ := Statement.ofTokens_instr htokens
  refine ⟨_, s, _, _, i.symbolic, hread, hs, hlabels, hnucleus, ?_, label?_symbolic i,
    fun lookup => resolve_symbolic h lookup hpc⟩
  simp only [lower_eq, Mnemonic.ofName?_toLower, Lowering.lowerKnown, basicForm_form h]

theorem text_reassembles_farthestJump :
    (jump true 0x3FFFFFF).InRange ∧ (jump true 0x3FFFFFF).text = "jal 0x0ffffffc" ∧
      (∀ link index, jump true 0x3FFFFFF = jump link index →
        ((0x0FFFFFF8 : Word) + 4).toNat < 0x10000000) ∧
      ∃ line s name operands symbolic,
        TokenLine.read [] ⟨"far.s", 1, (jump true 0x3FFFFFF).text⟩ = .ok (line, []) ∧
        Statement.ofTokens line.tokens = .ok s ∧ s.labels = [] ∧
        s.nucleus = some (.instr name operands) ∧
        lower name operands false = .ok [symbolic] ∧
        symbolic.label? = none ∧
        ∀ lookup, symbolic.resolve lookup 0x0FFFFFF8 = .ok (jump true 0x3FFFFFF) := by
  have hrange : (jump true 0x3FFFFFF).InRange := by
    show 0x3FFFFFF < 0x4000000
    decide
  have hpc : ∀ link index, jump true 0x3FFFFFF = jump link index →
      ((0x0FFFFFF8 : Word) + 4).toNat < 0x10000000 := fun _ _ _ => by decide
  exact ⟨hrange, by decide +kernel, hpc, text_reassembles hrange hpc "far.s" 1⟩

end Instr

end MipsLab
