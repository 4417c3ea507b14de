import MipsLab.Registers

set_option autoImplicit false

/-!
# Reading registers after writing them

A register file is determined by what reading its registers gives, and a write changes the register
that it names and no other one. Writing `$zero` changes nothing.
-/

namespace MipsLab

theorem Reg.eq_of_number_eq {r s : Reg} (h : r.number = s.number) : r = s := by
  obtain ⟨r⟩ := r
  obtain ⟨s⟩ := s
  exact congrArg Reg.mk (BitVec.eq_of_toNat_eq h)

/-- Every index below 32 is the number of a register. -/
theorem Reg.exists_number_eq {i : Nat} (h : i < 32) : ∃ r : Reg, r.number = i :=
  ⟨⟨BitVec.ofNat 5 i⟩, by simp [Reg.number]; omega⟩

namespace Registers

/-- Two register files in which every register has the same value are the same. -/
theorem eq_of_read_eq {rs rs' : Registers} (h : ∀ r, rs.read r = rs'.read r) : rs = rs' := by
  obtain ⟨general, hi, lo⟩ := rs
  obtain ⟨general', hi', lo'⟩ := rs'
  have hgeneral : general = general' := by
    apply Vector.ext
    intro i hi
    obtain ⟨r, rfl⟩ := Reg.exists_number_eq hi
    exact h (.general r)
  have hhi : hi = hi' := h .hi
  have hlo : lo = lo' := h .lo
  rw [hgeneral, hhi, hlo]

theorem get_eq (rs : Registers) (r : Reg) :
    rs.get r = rs.general[(⟨r.number, r.number_lt⟩ : Fin 32)] := rfl

@[simp] theorem hi_set (rs : Registers) (r : Reg) (v : Word) : (rs.set r v).hi = rs.hi := by
  unfold set
  split <;> rfl

@[simp] theorem lo_set (rs : Registers) (r : Reg) (v : Word) : (rs.set r v).lo = rs.lo := by
  unfold set
  split <;> rfl

theorem get_set_self (rs : Registers) {r : Reg} (v : Word) (h : r ≠ .zero) :
    (rs.set r v).get r = v := by
  simp [get_eq, set, h]

theorem get_set_of_ne (rs : Registers) {r s : Reg} (v : Word) (h : r ≠ s) :
    (rs.set r v).get s = rs.get s := by
  have hn : r.number ≠ s.number := fun e => h (Reg.eq_of_number_eq e)
  unfold set
  split
  · rfl
  · simp [get_eq, hn]

@[simp] theorem set_zero (rs : Registers) (v : Word) : rs.set .zero v = rs := rfl

theorem read_write_self (rs : Registers) {r : Register} (v : Word) (h : r ≠ .general .zero) :
    (rs.write r v).read r = v := by
  cases r with
  | general r => exact get_set_self rs v (fun e => h (by rw [e]))
  | hi => rfl
  | lo => rfl

theorem read_write_of_ne (rs : Registers) {r s : Register} (v : Word) (h : r ≠ s) :
    (rs.write r v).read s = rs.read s := by
  cases r with
  | general r =>
      cases s with
      | general s => exact get_set_of_ne rs v (fun e => h (by rw [e]))
      | hi => exact hi_set rs r v
      | lo => exact lo_set rs r v
  | hi => cases s <;> first | rfl | exact absurd rfl h
  | lo => cases s <;> first | rfl | exact absurd rfl h

/-- The value of a register after a write. -/
theorem read_write (rs : Registers) (r s : Register) (v : Word) :
    (rs.write r v).read s = if r = s ∧ r ≠ .general .zero then v else rs.read s := by
  by_cases hrs : r = s
  · subst hrs
    by_cases hz : r = .general .zero
    · subst hz
      simp [write]
    · rw [read_write_self rs v hz, if_pos ⟨rfl, hz⟩]
  · rw [read_write_of_ne rs v hrs, if_neg (fun h => hrs h.1)]

/-- Whatever is written, `$zero` keeps its value. -/
@[simp] theorem get_zero_write (rs : Registers) (r : Register) (v : Word) :
    (rs.write r v).get .zero = rs.get .zero := by
  show (rs.write r v).read (.general .zero) = rs.read (.general .zero)
  rw [read_write, if_neg]
  rintro ⟨h, hne⟩
  exact hne h

end Registers

end MipsLab
