import MipsLab.Proofs.Extended

set_option autoImplicit false

/-!
# The scratch register

An expansion computes in the scratch register, so what it does is like what a single instruction does
only up to that register. Instructions in a row perform an outcome if the last of them comes to it in
this sense, and the others get ready for it.
-/

namespace MipsLab

open Machine

/-! ## Instructions as operations on a snapshot -/

namespace Instr

variable (s : Snapshot)

theorem effect?_alu (op : AluOp) (rd rs rt : Reg) :
    (alu op rd rs rt).effect? s =
      some (s.result (s.pc + 4) rd (aluResult? (s.registers.get rs) (s.registers.get rt) op)) := by
  unfold effect?
  dsimp only
  cases aluResult? (s.registers.get rs) (s.registers.get rt) op <;> rfl

theorem effect?_aluImm (op : ImmOp) (rt rs : Reg) (imm : Half) :
    (aluImm op rt rs imm).effect? s =
      some (s.result (s.pc + 4) rt (immResult? (s.registers.get rs) imm op)) := by
  unfold effect?
  dsimp only
  cases immResult? (s.registers.get rs) imm op <;> rfl

theorem effect?_load (op : LoadOp) (rt base : Reg) (offset : Half) :
    (load op rt base offset).effect? s =
      some (s.loaded (s.pc + 4) op rt (s.registers.get base + offset.signExtend 32)) := by
  unfold effect? Snapshot.loaded
  dsimp only
  split <;> rfl

theorem effect?_store (op : StoreOp) (rt base : Reg) (offset : Half) :
    (store op rt base offset).effect? s =
      some (s.stored (s.pc + 4) op rt (s.registers.get base + offset.signExtend 32)) := by
  unfold effect? Snapshot.stored
  dsimp only
  split <;> rfl

theorem effect?_mul (rd rs rt : Reg) :
    (mul rd rs rt).effect? s =
      some (s.result (s.pc + 4) rd (some (s.registers.get rs * s.registers.get rt))) := rfl

theorem effect?_mulDiv (op : MulDivOp) (rs rt : Reg) :
    (mulDiv op rs rt).effect? s =
      some (.ok { s.withResults op (s.registers.get rs) (s.registers.get rt) with
        pc := s.pc + 4 }) := by
  unfold effect? Snapshot.withResults
  dsimp only
  cases mulDivResult? (s.registers.get rs) (s.registers.get rt) op <;> rfl

end Instr

/-! ## The same but for the scratch register -/

namespace Snapshot

/-- `t` is `s` but for the scratch register and the address of the next instruction. -/
structure Scratched (s t : Snapshot) : Prop where
  image : t.image = s.image
  registers : ∀ r, r ≠ .general .scratch → t.registers.read r = s.registers.read r

/-- `t` is `s` but for the scratch register, which is the same too if it is the destination. -/
structure Matches (dest : Option Reg) (s t : Snapshot) : Prop where
  image : t.image = s.image
  pc : t.pc = s.pc
  registers : ∀ r, r ≠ .general .scratch ∨ dest = some .scratch →
    t.registers.read r = s.registers.read r

namespace Scratched

variable {s t : Snapshot}

theorem refl (s : Snapshot) : Scratched s s := ⟨rfl, fun _ _ => rfl⟩

theorem get (h : Scratched s t) {r : Reg} (hr : r ≠ .scratch) :
    t.registers.get r = s.registers.get r :=
  h.registers (.general r) (fun e => hr (Register.general.inj e))

/-- Putting a value into the scratch register is allowed. -/
theorem put (h : Scratched s t) (value : Word) : Scratched s (t.put .scratch value) := by
  refine ⟨h.image, ?_⟩
  intro r hr
  show (t.registers.write (.general .scratch) value).read r = s.registers.read r
  rw [Registers.read_write_of_ne _ _ (Ne.symm hr), h.registers r hr]

end Scratched

theorem get_put_scratch (s : Snapshot) (value : Word) :
    (s.put .scratch value).registers.get .scratch = value :=
  Registers.get_set_self _ _ (by decide)

/-- `t` comes to an outcome like the one that is asked for: to a matching snapshot, or to the same
fault. -/
inductive Alike (dest : Option Reg) : Except FaultCause Snapshot → Except FaultCause Snapshot → Prop
  | ok {s t : Snapshot} (h : Matches dest s t) : Alike dest (.ok s) (.ok t)
  | error (cause : FaultCause) : Alike dest (.error cause) (.error cause)

variable {s t : Snapshot} (h : Scratched s t)
include h

theorem Scratched.result (next : Word) (rd : Reg) (value? : Option Word) :
    Alike (some rd) (s.result next rd value?) (t.result next rd value?) := by
  cases value? with
  | none => exact .error .overflow
  | some value =>
      refine .ok ⟨h.image, rfl, ?_⟩
      intro r hr
      -- the destination has the same value in both, also if it is the scratch register
      show (t.registers.write (.general rd) value).read r =
        (s.registers.write (.general rd) value).read r
      rw [Registers.read_write, Registers.read_write]
      split
      · rfl
      case isFalse hw =>
        -- a register that is not written is the scratch one only if the destination is `$zero`
        apply h.registers r
        rintro rfl
        obtain hr | hr := hr
        · exact hr rfl
        · obtain rfl := Option.some.inj hr
          exact hw ⟨rfl, by decide⟩

theorem Scratched.loaded (next : Word) (op : LoadOp) (rt : Reg) (a : Word) :
    Alike (some rt) (s.loaded next op rt a) (t.loaded next op rt a) := by
  unfold Snapshot.loaded
  rw [h.image]
  split
  · exact h.result next rt _
  · exact .error _

theorem Scratched.stored (next : Word) (op : StoreOp) {rt : Reg} (hrt : rt ≠ .scratch) (a : Word) :
    Alike none (s.stored next op rt a) (t.stored next op rt a) := by
  unfold Snapshot.stored
  rw [h.image, h.get hrt]
  split
  · refine .ok ⟨rfl, rfl, ?_⟩
    intro r hr
    exact h.registers r (hr.resolve_right nofun)
  · exact .error _

theorem Scratched.branched (next : Word) (taken : Bool) (target : Word) :
    Alike none (s.branched next taken target) (t.branched next taken target) :=
  .ok ⟨h.image, rfl, fun r hr => h.registers r (hr.resolve_right nofun)⟩

theorem Scratched.withResults (op : MulDivOp) (a b pc : Word) :
    Scratched (s.withResults op a b) { t.withResults op a b with pc } := by
  unfold Snapshot.withResults
  split
  · refine ⟨h.image, ?_⟩
    intro r hr
    cases r with
    | general r => exact h.registers (.general r) hr
    | hi => rfl
    | lo => rfl
  · exact ⟨h.image, h.registers⟩

end Snapshot

/-! ## Instructions that perform an outcome -/

/-- Instructions in a row of which the last one comes to the given outcome, apart from the scratch
register. -/
inductive Performs (dest : Option Reg) (s : Snapshot) (code : List Instr) :
    Except FaultCause Snapshot → Prop
  | ok {is : List Instr} {i : Instr} {t u v : Snapshot} (split : code = is ++ [i])
      (setup : Setup is s t) (range : i.InRange) (effect : i.effect? t = some (.ok v))
      (h : Snapshot.Matches dest u v) : Performs dest s code (.ok u)
  | error {is : List Instr} {i : Instr} {t : Snapshot} {cause : FaultCause}
      (split : code = is ++ [i]) (setup : Setup is s t) (range : i.InRange)
      (effect : i.effect? t = some (.error cause)) (h : Snapshot.Scratched s t) :
      Performs dest s code (.error cause)

open Snapshot in
theorem performs_of_alike {dest : Option Reg} {is : List Instr} {i : Instr} {s t : Snapshot}
    {outcome outcome' : Except FaultCause Snapshot} (setup : Setup is s t) (h : Scratched s t)
    (range : i.InRange) (effect : i.effect? t = some outcome')
    (halike : Alike dest outcome outcome') : Performs dest s (is ++ [i]) outcome := by
  cases halike with
  | ok hmatches => exact .ok rfl setup range effect hmatches
  | error => exact .error rfl setup range effect h

/-- The address after instructions in a row. -/
def Snapshot.after (s : Snapshot) (code : List Instr) : Word :=
  s.pc + BitVec.ofNat 32 (4 * code.length)

theorem Machine.Setup.after_eq {is : List Instr} {s t : Snapshot} (h : Setup is s t) (i : Instr) :
    s.after (is ++ [i]) = t.pc + 4 := by
  rw [Snapshot.after, h.pc_eq, List.length_append, List.length_singleton, ← add_four_add,
    BitVec.add_assoc, BitVec.add_comm 4, BitVec.add_assoc]

section Setups

variable {is : List Instr} {i : Instr} {s t : Snapshot} (setup : Setup is s t)
  (h : Snapshot.Scratched s t) (range : i.InRange)
include setup h range

theorem performs_result {rd : Reg} {value? : Option Word}
    (effect : i.effect? t = some (t.result (t.pc + 4) rd value?)) :
    Performs (some rd) s (is ++ [i]) (s.result (s.after (is ++ [i])) rd value?) := by
  rw [setup.after_eq]
  exact performs_of_alike setup h range effect (h.result _ rd value?)

theorem performs_branched {taken : Bool} {target : Word}
    (effect : i.effect? t = some (t.branched (t.pc + 4) taken target)) :
    Performs none s (is ++ [i]) (s.branched (s.after (is ++ [i])) taken target) := by
  rw [setup.after_eq]
  exact performs_of_alike setup h range effect (h.branched _ taken target)

/-- An instruction that puts a value into the scratch register can be part of a setup. -/
theorem setup_scratch {value : Word}
    (effect : i.effect? t = some (t.result (t.pc + 4) .scratch (some value))) :
    Setup (is ++ [i]) s (t.put .scratch value) ∧ Snapshot.Scratched s (t.put .scratch value) :=
  ⟨setup.append (.cons range effect rfl rfl (.nil _)), h.put value⟩

end Setups

theorem setup_lui {is : List Instr} {s t : Snapshot} (setup : Setup is s t)
    (h : Snapshot.Scratched s t) (imm : Half) :
    Setup (is ++ [.lui .scratch imm]) s (t.put .scratch (imm ++ 0#16)) ∧
      Snapshot.Scratched s (t.put .scratch (imm ++ 0#16)) :=
  setup_scratch setup h (i := .lui .scratch imm) trivial rfl

end MipsLab
