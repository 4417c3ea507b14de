import MipsLab.Instr.Decode
import MipsLab.Instr.Encode

set_option autoImplicit false

/-!
# Decoding what was encoded

The fields of an encoded instruction are the ones that were put in, so decoding its word gives the
instruction back, if its numbers fit their fields.
-/

namespace MipsLab.Instr

/-! ## Fields -/

section Fields

variable (op function : BitVec 6) (rs rt rd : Reg) (amount : BitVec 5) (imm : Half)

theorem fields_registerFormat :
    (registerFormat op rs rt rd amount function).extractLsb' 26 6 = op ∧
      (registerFormat op rs rt rd amount function).extractLsb' 21 5 = rs.index ∧
      (registerFormat op rs rt rd amount function).extractLsb' 16 5 = rt.index ∧
      (registerFormat op rs rt rd amount function).extractLsb' 11 5 = rd.index ∧
      (registerFormat op rs rt rd amount function).extractLsb' 6 5 = amount ∧
      (registerFormat op rs rt rd amount function).extractLsb' 0 6 = function := by
  unfold registerFormat
  refine ⟨?_, ?_, ?_, ?_, ?_, ?_⟩ <;> apply BitVec.eq_of_getLsbD_eq <;> intro i hi <;>
    simp only [BitVec.getLsbD_extractLsb', BitVec.getLsbD_append] <;> grind

theorem fields_immediateFormat :
    (immediateFormat op rs rt imm).extractLsb' 26 6 = op ∧
      (immediateFormat op rs rt imm).extractLsb' 21 5 = rs.index ∧
      (immediateFormat op rs rt imm).extractLsb' 16 5 = rt.index ∧
      (immediateFormat op rs rt imm).extractLsb' 0 16 = imm := by
  unfold immediateFormat
  refine ⟨?_, ?_, ?_, ?_⟩ <;> apply BitVec.eq_of_getLsbD_eq <;> intro i hi <;>
    simp only [BitVec.getLsbD_extractLsb', BitVec.getLsbD_append] <;> grind

theorem fields_brk (code : BitVec 20) :
    (0#6 ++ code ++ 0x0D#6).extractLsb' 26 6 = 0 ∧ (0#6 ++ code ++ 0x0D#6).extractLsb' 6 20 = code ∧
      (0#6 ++ code ++ 0x0D#6).extractLsb' 0 6 = 0x0D := by
  refine ⟨?_, ?_, ?_⟩ <;> apply BitVec.eq_of_getLsbD_eq <;> intro i hi <;>
    simp only [BitVec.getLsbD_extractLsb', BitVec.getLsbD_append] <;> grind

theorem fields_jump (index : BitVec 26) :
    (op ++ index).extractLsb' 26 6 = op ∧ (op ++ index).extractLsb' 0 26 = index := by
  refine ⟨?_, ?_⟩ <;> apply BitVec.eq_of_getLsbD_eq <;> intro i hi <;>
    simp only [BitVec.getLsbD_extractLsb', BitVec.getLsbD_append] <;> grind

/-- A word with opcode zero is decoded by its function field. -/
theorem decode?_registerFormat :
    decode? (registerFormat 0 rs rt rd amount function) =
      decodeFunction (registerFormat 0 rs rt rd amount function) := by
  obtain ⟨hop, -⟩ := fields_registerFormat 0 function rs rt rd amount
  unfold decode?
  rw [hop]
  rfl

end Fields

/-! ## Instructions -/

/-- **Decoding the word of an instruction gives the instruction.** -/
theorem decode?_encode {i : Instr} (h : i.InRange) : decode? i.encode = some i := by
  -- the fields of the word are the ones that were put in; those that tell instructions apart are
  -- compared with every code in turn, and the others are carried over
  cases i with
  | alu op rd rs rt =>
      simp only [encode, decode?_registerFormat, decodeFunction, fields_registerFormat]
      cases op <;> rfl
  | shift op rd rt amount =>
      have hfits : (BitVec.ofNat 5 amount).toNat = amount := Nat.mod_eq_of_lt h
      simp only [encode, decode?_registerFormat, decodeFunction, fields_registerFormat, hfits]
      cases op <;> rfl
  | shiftBy op rd rt rs =>
      simp only [encode, decode?_registerFormat, decodeFunction, fields_registerFormat]
      cases op <;> rfl
  | mulDiv op rs rt =>
      simp only [encode, decode?_registerFormat, decodeFunction, fields_registerFormat]
      cases op <;> rfl
  | mul rd rs rt =>
      simp only [encode, decode?, fields_registerFormat]
      rfl
  | moveFrom half rd =>
      cases half <;>
        simp only [encode, decode?_registerFormat, decodeFunction, fields_registerFormat] <;> rfl
  | moveTo half rs =>
      cases half <;>
        simp only [encode, decode?_registerFormat, decodeFunction, fields_registerFormat] <;> rfl
  | jr rs =>
      simp only [encode, decode?_registerFormat, decodeFunction, fields_registerFormat]
      rfl
  | jalr rd rs =>
      simp only [encode, decode?_registerFormat, decodeFunction, fields_registerFormat]
      rfl
  | syscall => rfl
  | brk code =>
      have hfits : (BitVec.ofNat 20 code).toNat = code := Nat.mod_eq_of_lt h
      simp only [encode, decode?, decodeFunction, fields_brk, hfits]
      rfl
  | aluImm op rt rs imm =>
      simp only [encode, decode?, fields_immediateFormat]
      cases op <;> rfl
  | lui rt imm =>
      simp only [encode, decode?, fields_immediateFormat]
      rfl
  | load op rt base offset =>
      simp only [encode, decode?, fields_immediateFormat]
      cases op <;> rfl
  | store op rt base offset =>
      simp only [encode, decode?, fields_immediateFormat]
      cases op <;> rfl
  | branch cond rs rt offset =>
      simp only [encode, decode?, fields_immediateFormat]
      cases cond <;> rfl
  | branchSign cond rs offset =>
      cases cond <;> simp only [encode, decode?, fields_immediateFormat] <;> rfl
  | jump link index =>
      have hfits : (BitVec.ofNat 26 index).toNat = index := Nat.mod_eq_of_lt h
      simp only [encode, decode?, fields_jump, hfits]
      cases link <;> rfl

end MipsLab.Instr
