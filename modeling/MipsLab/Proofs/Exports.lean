import MipsLab.Proofs.Labels
import MipsLab.Proofs.Ownership

set_option autoImplicit false

/-!
# Exported labels

The table of the labels that all units see is filled by the storage that lines reserve and by the labels
that units export, and it says of each of its symbols which file it comes from
(`file_of_globals`). So a declared label is exported exactly if its unit does not reserve storage of the
same name; if it does, the name stays that of the storage (`Assembly.exported_iff`).
-/

namespace MipsLab

namespace Assembly

open Placement

/-! ## The files of symbols -/

/-- The lines of a unit come from its file. -/
theorem file_of_mem_ofLines {u : SourceUnit} (owned : u.Owned) {extended : Bool} {unit : Nat} {c : Cursor}
    {x : Spot} (hx : x ∈ Spot.ofLines extended unit c u.expandedLines) :
    x.line.source.file = u.file := by
  obtain ⟨-, -, -, above, hlines, -⟩ := Spot.mem_ofLines hx
  exact SourceUnit.file_of_mem_expandedLines owned (hlines ▸ List.mem_append_right _ List.mem_cons_self)

/-! ## Exports -/

/-- A unit exports a label: it defines the label, all units see the address of the label, with the file of
the unit and the line that defines it, and the table of the unit does not have the name. -/
def Exports (options : AssemblyOptions) (units : List SourceUnit) (p : AssembledProgram) (unit : Nat)
    (name : String) : Prop :=
  ∃ u, units[unit]? = some u ∧ ∃ y ∈ spots options units, y.unit = unit ∧ name ∈ y.labels ∧
    ∃ a, p.LabelAt options.extended y a ∧
      p.globals.find? name = some ⟨a, u.file, y.line.source.number, .global⟩ ∧
      ∃ t, p.locals[unit]? = some t ∧ t.find? name = none

section Program

variable {options : AssemblyOptions} {before after : List SourceUnit} {u : SourceUnit}
  {p : AssembledProgram} (ok : (assemble options (before ++ u :: after)).1 = .ok p)
include ok

/-- What all units see of a name before the exports of a unit is storage of the unit, or what they saw
before the unit. -/
theorem find?_globals_unit (name : String) :
    ((∀ y ∈ unitSpots options before u, ¬ y.Reserves name) ∧
      (closing (firstPass options before) u).globals.find? name =
        (firstPass options before).globals.find? name) ∨
    ∃ y ∈ unitSpots options before u, y.Reserves name ∧ ∃ a,
      (closing (firstPass options before) u).globals.find? name =
        some ⟨a, y.line.source.file, y.line.source.number, .global⟩ := by
  have hcases := find?_globals_closing (clean_closing_of_ok ok) (lastCursor options before).beginUnit
    before.length name
  rw [extended_firstPass] at hcases
  exact hcases.imp_right (·.2)

variable {name : String} {x : Spot} (hx : x ∈ unitSpots options before u) (hname : name ∈ x.role.exported)
include hx hname

/-- A declared label is exported if its unit does not reserve storage of the same name. -/
theorem exports_of_not_reserved (distinct : ((before ++ u :: after).map (·.file)).Nodup)
    (owned : ∀ v ∈ before ++ u :: after, v.Owned)
    (free : ∀ y ∈ unitSpots options before u, ¬ y.Reserves name) :
    Exports options (before ++ u :: after) p before.length name := by
  have hu : u.Owned := owned u (List.mem_append_right _ List.mem_cons_self)
  obtain ⟨t, ht, ⟨-, hthere⟩ | ⟨s, hs, -, hnone, hshared, -⟩⟩ := symbols_of_unit ok name
  · -- a symbol of the same file would have to come from an earlier unit
    obtain ⟨s, hs, hfile, -⟩ := hthere x hx hname
    rw [file_of_mem_ofLines hu hx] at hfile
    rcases find?_globals_unit ok name with ⟨-, hkept⟩ | ⟨y, hy, hreserves, -⟩
    · have hearlier := file_of_globals (fun v hv => owned v (List.mem_append_left _ hv)) (hkept.symm.trans hs)
      rw [List.map_append, List.nodup_append] at distinct
      exact absurd hfile (distinct.2.2 _ hearlier _ List.mem_cons_self)
    · exact absurd hreserves (free y hy)
  · obtain ⟨y, hy, hlabel, rfl⟩ := (find?_unit_iff ok name s).mp hs
    obtain ⟨hmem, hunit⟩ := mem_unitSpots_iff.mp hy
    refine ⟨u, by simp, y, hmem, hunit, hlabel, _, labelAt_symbol ok hmem, ?_, t, ht, hnone⟩
    rw [hshared, ← file_of_mem_ofLines hu hy]
    rfl

/-- A declared label is not exported if its unit reserves storage of the same name: all units see the
storage. -/
theorem not_exports_of_reserved {y : Spot} (hy : y ∈ unitSpots options before u)
    (reserved : y.Reserves name) :
    ¬ Exports options (before ++ u :: after) p before.length name ∧
      ∃ z ∈ unitSpots options before u, z.Reserves name ∧ ∃ a, p.globals.find? name =
        some ⟨a, z.line.source.file, z.line.source.number, .global⟩ := by
  obtain ⟨free, -⟩ | ⟨z, hz, hreserves, a, hstorage⟩ := find?_globals_unit ok name
  · exact absurd reserved (free y hy)
  obtain ⟨t, ht, ⟨hkept, hthere⟩ | ⟨_, -, hnone, -⟩⟩ := symbols_of_unit ok name
  · obtain ⟨s, hs, -, hshared⟩ := hthere x hx hname
    refine ⟨?_, z, hz, hreserves, a, hshared.trans (hs.symm.trans hstorage)⟩
    rintro ⟨_, -, l, hl, hunit, hlabel, _, -, -, t', ht', hmoved⟩
    obtain rfl := Option.some.inj (ht.symm.trans ht')
    have hlabelled := (find?_unit_iff ok name _).mpr ⟨l, mem_unitSpots_iff.mpr ⟨hl, hunit⟩, hlabel, rfl⟩
    rw [← hkept, hmoved] at hlabelled
    cases hlabelled
  · rw [hstorage] at hnone
    cases hnone

end Program

/-- **A declared label is exported exactly if its unit does not reserve storage of the same name.** Take a
program that assembles, of units from distinct files. A label that a unit declares to be exported is
exported, unless a line of the same unit reserves storage of the same name, before or after the declaration;
then it is not, and all units see the storage under the name. -/
theorem exported_iff {options : AssemblyOptions} {units : List SourceUnit} {p : AssembledProgram}
    (ok : (assemble options units).1 = .ok p) (distinct : (units.map (·.file)).Nodup)
    (owned : ∀ u ∈ units, u.Owned) :
    ∀ x ∈ spots options units, ∀ name ∈ x.role.exported,
      (Exports options units p x.unit name ↔
        ∀ y ∈ spots options units, y.unit = x.unit → ¬ y.Reserves name) ∧
      (Exports options units p x.unit name ∨
        ∃ y ∈ spots options units, y.unit = x.unit ∧ y.Reserves name ∧ ∃ a, p.globals.find? name =
          some ⟨a, y.line.source.file, y.line.source.number, .global⟩) := by
  intro x hx name hname
  obtain ⟨before, u, after, rfl, hunit, -⟩ := Spot.mem_ofUnits hx
  rw [Nat.zero_add] at hunit
  have hx := mem_unitSpots_iff.mpr ⟨hx, hunit⟩
  rw [hunit]
  by_cases hreserved : ∃ y ∈ unitSpots options before u, y.Reserves name
  · obtain ⟨y, hy, hreserves⟩ := hreserved
    obtain ⟨hnot, z, hz, hstorage⟩ := not_exports_of_reserved ok hx hname hy hreserves
    obtain ⟨hymem, hyunit⟩ := mem_unitSpots_iff.mp hy
    obtain ⟨hzmem, hzunit⟩ := mem_unitSpots_iff.mp hz
    refine ⟨⟨fun hexports => absurd hexports hnot, fun hfree => ?_⟩, .inr ⟨z, hzmem, hzunit, hstorage⟩⟩
    exact absurd hreserves (hfree y hymem hyunit)
  · have hfree : ∀ y ∈ unitSpots options before u, ¬ y.Reserves name :=
      fun y hy hreserves => hreserved ⟨y, hy, hreserves⟩
    have hexports := exports_of_not_reserved ok hx hname distinct owned hfree
    refine ⟨⟨fun _ y hy hindex => hfree y (mem_unitSpots_iff.mpr ⟨hy, hindex⟩), fun _ => hexports⟩, ?_⟩
    exact .inl hexports

/-- Two labels of one line that are both declared; storage is reserved for the name of the second. -/
theorem exported_iff_storage :
    let a : SourceUnit := .ofText "a.s" ".extern x 4\n.globl main, x\nmain: x: nop"
    ∃ p, (assemble {} [a]).1 = .ok p ∧ Exports {} [a] p 0 "main" ∧ ¬ Exports {} [a] p 0 "x" ∧
      ∃ s, p.globals.find? "x" = some s ∧ s.file = "a.s" ∧ s.line = 1 := by
  intro a
  have hassembles : (assemble {} [a]).1.toOption.isSome := by decide +kernel
  obtain ⟨p, hp⟩ := Option.isSome_iff_exists.mp hassembles
  have ok : (assemble {} [a]).1 = .ok p := eq_ok_of_toOption hp
  have owned : ∀ u ∈ [a], u.Owned := by
    intro u hu
    obtain rfl := List.mem_singleton.mp hu
    exact SourceUnit.owned_ofText _ _
  have hdeclares : ∃ x ∈ spots {} [a], x.unit = 0 ∧ x.role.exported = ["main", "x"] := by
    decide +kernel
  have hreserved : ∃ y ∈ spots {} [a], y.unit = 0 ∧ y.role.reserved? = some "x" := by decide +kernel
  have honly : ∀ y ∈ spots {} [a], y.role.reserved? ≠ some "main" ∧ (y.role.reserved? = some "x" →
      y.line.source.file = "a.s" ∧ y.line.source.number = 1) := by decide +kernel
  obtain ⟨x, hx, hunit, hdeclared⟩ := hdeclares
  obtain ⟨y, hy, hindex, hreserves⟩ := hreserved
  have hexported := exported_iff ok (by decide) owned x hx
  rw [hunit, hdeclared] at hexported
  obtain ⟨hmain, -⟩ := hexported "main" (by decide)
  obtain ⟨hother, hstorage⟩ := hexported "x" (by decide)
  have hnot : ¬ Exports {} [a] p 0 "x" := fun h => hother.mp h y hy hindex hreserves
  refine ⟨p, ok, hmain.mpr fun y hy _ => (honly y hy).1, hnot, ?_⟩
  rcases hstorage with hexports | ⟨z, hz, -, hz', b, hfound⟩
  · exact absurd hexports hnot
  · exact ⟨_, hfound, (honly z hz).2 hz'⟩

end Assembly

end MipsLab
