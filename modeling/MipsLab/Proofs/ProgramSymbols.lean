import MipsLab.Proofs.KeptSymbols

set_option autoImplicit false

/-!
# The symbols of a program

The end of a unit moves a label that is declared to be exported from the table of the unit to the table
of all units, unless the latter has the name from the same file already (`exportLabel_cases`). What is
in the two tables then stays there to the end of the pass, so the tables of the program are known from
those at the end of each unit (`symbols_of_unit`).
-/

namespace MipsLab

namespace Placement

/-! ## Exports -/

/-- Without errors, an export moves the symbol, or the name is there already from the same file. -/
theorem exportLabel_cases {p : Placement} {name : String} {site : Site}
    (clean : (p.exportLabel (name, site)).Clean) :
    (p.exportLabel (name, site) = p ∧
      ∃ s, p.globals.find? name = some s ∧ s.file = site.source.file) ∨
    (p.globals.find? name = none ∧ ∃ s, p.unit.locals.find? name = some s ∧
      (∀ n, (p.exportLabel (name, site)).globals.find? n =
        if name = n then some (shared s) else p.globals.find? n) ∧
      ∀ n, (p.exportLabel (name, site)).unit.locals.find? n =
        if name = n then none else p.unit.locals.find? n) := by
  rcases exportLabel_outcomes p name site with hsame | hreport | ⟨s, hs, hlocals, houtcome⟩
  · exact .inl hsame
  · rw [hreport] at clean
    exact absurd clean (not_clean_report p _ rfl)
  · rcases houtcome with hadds | ⟨-, first, herror⟩
    · exact .inr ⟨hadds.new, s, hs, hadds.find, hlocals⟩
    · exact absurd herror (clean.spares site _ rfl)

/-- Two placements find a name alike, in the table of the unit and in that of all units. -/
def FindsAlike (p q : Placement) (name : String) : Prop :=
  q.unit.locals.find? name = p.unit.locals.find? name ∧ q.globals.find? name = p.globals.find? name

/-- From `p` to `q`, the symbol of a name has moved to the table of all units. -/
def Moved (p q : Placement) (name : String) : Prop :=
  ∃ s, p.unit.locals.find? name = some s ∧ p.globals.find? name = none ∧
    q.unit.locals.find? name = none ∧ q.globals.find? name = some (shared s)

/-- **Exports, name by name.** A name that is not exported is found as before; it is either not declared,
or there already from the files that declare it. -/
theorem exportLabels_cases {declared : List (String × Site)} {p : Placement}
    (clean : (declared.foldl exportLabel p).Clean) (name : String) :
    (FindsAlike p (declared.foldl exportLabel p) name ∧ ∀ site, (name, site) ∈ declared →
      ∃ s, p.globals.find? name = some s ∧ s.file = site.source.file) ∨
    (Moved p (declared.foldl exportLabel p) name ∧ name ∈ declared.map (·.1)) := by
  -- an export without an error leaves the tables alone or moves one symbol; once moved, a symbol is
  -- not in the unit any more, so it cannot move again
  induction declared generalizing p with
  | nil => exact .inl ⟨⟨rfl, rfl⟩, by simp⟩
  | cons d declared ih =>
      obtain ⟨first, site⟩ := d
      have hfirst : (p.exportLabel (first, site)).Clean :=
        (PlacesNothing.foldl .exportLabel declared _).extends.clean clean
      rw [List.foldl_cons, List.map_cons]
      rcases exportLabel_cases hfirst with ⟨hsame, s, hs, hfile⟩ | ⟨hnone, s, hs, hglobals, hlocals⟩
      · rw [List.foldl_cons, hsame] at clean
        rw [hsame]
        rcases ih clean with ⟨halike, hrest⟩ | ⟨hmoved, hmem⟩
        · refine .inl ⟨halike, fun site' hsite => ?_⟩
          rcases List.mem_cons.mp hsite with heq | hsite
          · obtain ⟨rfl, rfl⟩ := Prod.mk.inj heq
            exact ⟨s, hs, hfile⟩
          · exact hrest site' hsite
        · exact .inr ⟨hmoved, List.mem_cons_of_mem _ hmem⟩
      · have hrest := ih clean
        by_cases hname : first = name
        · subst hname
          have hlocal := (hlocals first).trans (if_pos rfl)
          have hglobal := (hglobals first).trans (if_pos rfl)
          rcases hrest with ⟨⟨hl, hg⟩, -⟩ | ⟨⟨t, ht, -⟩, -⟩
          · exact .inr ⟨⟨s, hs, hnone, hl.trans hlocal, hg.trans hglobal⟩, List.mem_cons_self⟩
          · rw [hlocal] at ht
            cases ht
        · have hlocal := (hlocals name).trans (if_neg hname)
          have hglobal := (hglobals name).trans (if_neg hname)
          unfold FindsAlike Moved at hrest ⊢
          rw [hlocal, hglobal] at hrest
          rcases hrest with ⟨halike, hdeclared⟩ | ⟨hmoved, hmem⟩
          · refine .inl ⟨halike, fun site' hsite => ?_⟩
            rcases List.mem_cons.mp hsite with heq | hsite
            · exact absurd (Prod.mk.inj heq).1.symm hname
            · exact hdeclared site' hsite
          · exact .inr ⟨hmoved, List.mem_cons_of_mem _ hmem⟩

end Placement

namespace Assembly

open Placement

/-! ## Units -/

section Unit

variable {p : Placement} {u : SourceUnit} (clean : (placeUnit p u).1.Clean)
include clean

theorem clean_closing : ((closing p u).unit.exports.foldl exportLabel (closing p u)).Clean ∧
    (closing p u).Clean := by
  rw [placeUnit_eq_closing clean] at clean
  exact ⟨clean, (PlacesNothing.foldl .exportLabel _ _).extends.clean clean⟩

end Unit

/-! ## Programs -/

section Program

variable {options : AssemblyOptions} {before after : List SourceUnit} {u : SourceUnit}
  {p : AssembledProgram} (ok : (assemble options (before ++ u :: after)).1 = .ok p)
include ok

theorem clean_closing_of_ok : (closing (firstPass options before) u).Clean :=
  (clean_closing (pass_placeUnit_firstPass (clean_firstPass ok)).1).2

/-- The table of a unit holds the labels of its spots. -/
theorem find?_unit_iff (name : String) (s : Symbol) :
    (closing (firstPass options before) u).unit.locals.find? name = some s ↔
      ∃ x ∈ unitSpots options before u, name ∈ x.labels ∧ s = x.symbol options.extended := by
  have hbefore := clean_before (clean_firstPass ok)
  have hat : At (firstPass options before) (lastCursor options before) :=
    (trace_placeUnits (at_initial options.extended options.layout) hbefore).1
  have hfind := find?_closing_iff (clean_closing_of_ok ok) _ hat before.length name s
  rw [extended_firstPass] at hfind
  exact hfind

/-- A unit declares what its spots name. -/
theorem mem_exports_closing_iff (name : String) (site : Site) :
    (name, site) ∈ (closing (firstPass options before) u).unit.exports ↔
      ∃ x ∈ unitSpots options before u, name ∈ x.role.exported ∧
        site = ⟨x.line.source, x.statement.span.start + 1⟩ := by
  rw [exports_closing (clean_closing_of_ok ok) (lastCursor options before).beginUnit before.length,
    extended_firstPass]
  simp only [List.mem_flatMap, Spot.exports, List.mem_map, Prod.mk.injEq, unitSpots]
  grind

/-- The program has the table that the unit leaves. -/
theorem getElem?_locals :
    p.locals[before.length]? = some ((closing (firstPass options before) u).unit.exports.foldl exportLabel
      (closing (firstPass options before) u)).unit.locals := by
  obtain ⟨hunit, hpass⟩ := pass_placeUnit_firstPass (clean_firstPass ok)
  have hsize := size_placeUnit hunit
  rw [size_firstPass (clean_before (clean_firstPass ok))] at hsize
  have hprefix := hpass.extends.locals
  obtain ⟨rfl, -⟩ := eq_finish_of_ok ok
  show (firstPass options (before ++ u :: after)).locals.toList[before.length]? = _
  rw [placeUnit_eq_closing hunit] at hprefix hsize
  obtain ⟨rest, hrest⟩ := hprefix
  rw [← hrest]
  simp only [Array.size_push, Nat.add_right_cancel_iff] at hsize
  rw [Array.toList_push, List.append_assoc, List.getElem?_append_right (by simp [hsize])]
  simp [hsize]

/-- What all units see at the end of a unit, they see in the program. -/
theorem find?_globals_of_unit (name : String) (s : Symbol)
    (hs : (placeUnit (firstPass options before) u).1.globals.find? name = some s) :
    p.globals.find? name = some s := by
  obtain ⟨rfl, -⟩ := eq_finish_of_ok ok
  show (firstPass options (before ++ u :: after)).globals.find? name = some s
  rw [firstPass_append_cons]
  exact globals_placeUnits _ _ hs

/-- **The symbols of a unit in the program.** A name is found in the table of the unit as it was at its
end, or it is one that the unit declares and all units see. -/
theorem symbols_of_unit (name : String) :
    let q := closing (firstPass options before) u
    ∃ t, p.locals[before.length]? = some t ∧
      ((t.find? name = q.unit.locals.find? name ∧ ∀ x ∈ unitSpots options before u,
          name ∈ x.role.exported → ∃ s, q.globals.find? name = some s ∧ s.file = x.line.source.file ∧
            p.globals.find? name = some s) ∨
        ∃ s, q.unit.locals.find? name = some s ∧ q.globals.find? name = none ∧
          t.find? name = none ∧ p.globals.find? name = some (shared s) ∧
          ∃ x ∈ unitSpots options before u, name ∈ x.role.exported) := by
  obtain ⟨hunit, hpass⟩ := pass_placeUnit_firstPass (clean_firstPass ok)
  obtain ⟨hfold, -⟩ := clean_closing hunit
  have hglobals := fun s => find?_globals_of_unit ok name s
  rw [placeUnit_eq_closing hunit] at hglobals
  refine ⟨_, getElem?_locals ok, ?_⟩
  rcases exportLabels_cases hfold name with ⟨⟨hlocal, hglobal⟩, hthere⟩ | ⟨hmoved, hdeclared⟩
  · refine .inl ⟨hlocal, fun x hx hname => ?_⟩
    obtain ⟨s, hs, hfile⟩ := hthere _ ((mem_exports_closing_iff ok name _).mpr ⟨x, hx, hname, rfl⟩)
    exact ⟨s, hs, hfile, hglobals s (hglobal.trans hs)⟩
  · obtain ⟨s, hs, hnew, hlocal, hglobal⟩ := hmoved
    obtain ⟨⟨_, site⟩, hsite, rfl⟩ := List.mem_map.mp hdeclared
    obtain ⟨x, hx, hname, -⟩ := (mem_exports_closing_iff ok _ site).mp hsite
    exact .inr ⟨s, hs, hnew, hlocal, hglobals _ hglobal, x, hx, hname⟩

end Program

end Assembly

end MipsLab
