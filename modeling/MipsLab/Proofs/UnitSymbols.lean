import MipsLab.Proofs.LayoutPass

set_option autoImplicit false

/-!
# The symbols of a unit

When a unit has come to its end, before its exports are carried out, its table holds the labels of its
lines and nothing else, each with the symbol that the layout says (`find?_closing_iff`). The labels it
declares to be exported are those that its lines name, and the table that all units see has grown by
what its lines reserve.
-/

namespace MipsLab

/-! ## Tables -/

namespace SymbolTable

theorem find?_insert (t : SymbolTable) (name n : String) (s : Symbol) :
    (t.insert name s).find? n = if name = n then some s else t.find? n := by
  unfold find? insert
  rw [Std.TreeMap.getElem?_insert]
  by_cases h : name = n
  · rw [if_pos h, if_pos (by simp [h])]
  · rw [if_neg h, if_neg (by simpa using h)]

theorem find?_erase (t : SymbolTable) (name n : String) :
    (t.erase name).find? n = if name = n then none else t.find? n := by
  unfold find? erase
  rw [Std.TreeMap.getElem?_erase]
  by_cases h : name = n
  · rw [if_pos h, if_pos (by simp [h])]
  · rw [if_neg h, if_neg (by simpa using h)]

theorem find?_empty (scope n : String) : (empty scope).find? n = none := by
  simp [find?, empty]

/-- The name is new in `t`, and `u` is `t` with the symbol under it. -/
structure Adds (t : SymbolTable) (name : String) (s : Symbol) (u : SymbolTable) : Prop where
  new : t.find? name = none
  find : ∀ n, u.find? n = if name = n then some s else t.find? n

namespace Adds

variable {t u : SymbolTable} {name n : String} {s r : Symbol} (h : t.Adds name s u)
include h

theorem added : u.find? name = some s := (h.find name).trans (if_pos rfl)

theorem kept (hr : t.find? n = some r) : u.find? n = some r := by
  rw [h.find, if_neg, hr]
  rintro rfl
  rw [h.new] at hr
  cases hr

theorem only (hr : u.find? n = some r) : (n = name ∧ r = s) ∨ t.find? n = some r := by
  rw [h.find] at hr
  split at hr
  case isTrue hname => exact .inl ⟨hname.symm, (Option.some.inj hr).symm⟩
  case isFalse => exact .inr hr

end Adds

theorem adds_of_add {t u : SymbolTable} {name : String} {s : Symbol} (h : t.add name s = .ok u) :
    t.Adds name s u := by
  unfold add at h
  split at h
  case h_1 => cases h
  case h_2 hnone =>
    cases h
    exact ⟨hnone, fun n => find?_insert t name n s⟩

theorem adds_of_addGlobal {t u : SymbolTable} {name : String} {s : Symbol}
    (h : t.addGlobal name s = .ok u) : t.Adds name s u := by
  unfold addGlobal at h
  split at h
  case h_1 => cases h
  case h_2 hnone =>
    cases h
    exact ⟨hnone, fun n => find?_insert t name n s⟩

end SymbolTable

namespace Placement

/-! ## What a line does with symbols -/

/-- What a placement knows of symbols. -/
structure Symbols where
  waiting : List (String × Site)
  locals : SymbolTable
  exports : List (String × Site)
  globals : SymbolTable

def symbols (p : Placement) : Symbols := ⟨p.unit.waiting, p.unit.locals, p.unit.exports, p.globals⟩

theorem symbols_placeBytes (p : Placement) (site : Site) (bytes : List Byte) :
    (p.placeBytes site bytes).symbols = p.symbols := by
  unfold placeBytes
  dsimp only
  split
  · rfl
  · split <;> rfl

theorem Puts.symbols {line : TokenLine} {column : Nat} {p q : Placement} {parts : List Part}
    (puts : Puts line column p parts q) : q.symbols = p.symbols := by
  induction puts with
  | nil => rfl
  | warn _ _ ih => exact ih
  | @cons p q part parts _ ih =>
      rw [ih]
      cases part with
      | word | gap => rfl
      | bytes | address => exact symbols_placeBytes _ _ _

/-- The symbol of a label at an address. -/
def symbolAt (a : Word) (site : Site) : Symbol := ⟨a, site.source.file, site.source.number, .internal⟩

/-- From `p` to `q`, the labels that wait get an address. -/
structure Settles (p q : Placement) (a : Word) : Prop where
  waiting : q.unit.waiting = []
  exports : q.unit.exports = p.unit.exports
  globals : q.globals = p.globals
  locals : ∀ name s, q.unit.locals.find? name = some s ↔
    p.unit.locals.find? name = some s ∨ ∃ site, (name, site) ∈ p.unit.waiting ∧ s = symbolAt a site

theorem extends_enterLabels (labels : List (String × Site)) (p : Placement) :
    Extends p (labels.foldl enterLabel p) := (PlacesNothing.foldl .enterLabel labels p).extends

/-- Without errors, labels enter the table. -/
theorem symbols_enterLabel {p : Placement} {name : String} {site : Site}
    (clean : (p.enterLabel (name, site)).Clean) :
    ∃ locals, p.unit.locals.add name (symbolAt p.here site) = .ok locals ∧
      p.enterLabel (name, site) = { p with unit := { p.unit with locals } } := by
  unfold enterLabel at clean ⊢
  dsimp only at clean ⊢
  split at clean
  case h_1 locals hadd => exact ⟨locals, hadd, rfl⟩
  case h_2 => exact absurd clean (not_clean_report p _ rfl)

theorem find?_foldl_enterLabel (labels : List (String × Site)) {p : Placement}
    (clean : (labels.foldl enterLabel p).Clean) :
    (∃ locals, labels.foldl enterLabel p = { p with unit := { p.unit with locals } }) ∧
      ∀ name s, (labels.foldl enterLabel p).unit.locals.find? name = some s ↔
        p.unit.locals.find? name = some s ∨ ∃ site, (name, site) ∈ labels ∧ s = symbolAt p.here site := by
  -- without errors each label is new when it is entered, so none hides another
  induction labels generalizing p with
  | nil => exact ⟨⟨p.unit.locals, rfl⟩, by simp⟩
  | cons label labels ih =>
      obtain ⟨name, site⟩ := label
      have hfirst := (extends_enterLabels labels _).clean clean
      obtain ⟨locals, hadd, henter⟩ := symbols_enterLabel hfirst
      rw [List.foldl_cons, henter] at clean ⊢
      obtain ⟨⟨later, hfold⟩, hfind⟩ := ih clean
      obtain ⟨hnew, hadded⟩ := SymbolTable.adds_of_add hadd
      refine ⟨⟨later, hfold⟩, fun n s => ?_⟩
      rw [hfind]
      show locals.find? n = some s ∨ (∃ site, _ ∧ s = symbolAt p.here site) ↔ _
      rw [hadded]
      by_cases hn : name = n
      · subst hn
        rw [if_pos rfl, hnew]
        simp only [Option.some.injEq, List.mem_cons, Prod.mk.injEq, true_and]
        grind
      · rw [if_neg hn]
        simp only [List.mem_cons, Prod.mk.injEq]
        grind

theorem settles_enterLabels {p : Placement} (clean : p.enterLabels.Clean) :
    Settles p p.enterLabels p.here := by
  obtain ⟨⟨locals, hfold⟩, hfind⟩ := find?_foldl_enterLabel p.unit.waiting clean
  have henter : p.enterLabels = { p with unit := { p.unit with waiting := [], locals } } := hfold
  exact ⟨by rw [henter], by rw [henter], by rw [henter], hfind⟩

theorem Settles.of_symbols {p p' q q' : Placement} {a : Word} (h : Settles p q a)
    (hp : p'.symbols = p.symbols) (hq : q'.symbols = q.symbols) : Settles p' q' a := by
  simp only [symbols, Symbols.mk.injEq] at hp hq
  obtain ⟨hwaiting, hlocals, hexports, hglobals⟩ := hp
  obtain ⟨hwaiting', hlocals', hexports', hglobals'⟩ := hq
  refine ⟨hwaiting'.trans h.waiting, ?_, ?_, ?_⟩
  · rw [hexports', h.exports, hexports]
  · rw [hglobals', h.globals, hglobals]
  · rw [hlocals', hlocals, hwaiting]
    exact h.locals

theorem symbols_checkUnused (p : Placement) : p.checkUnused.symbols = p.symbols := by
  unfold checkUnused
  split <;> rfl

/-- An item gives the labels that wait the address it starts at. -/
theorem Puts.settles {line : TokenLine} {column : Nat} {p q : Placement} {parts : List Part}
    {alignment : Word} (puts : Puts line column (p.markUsed.alignTo alignment) parts q) (clean : q.Clean) :
    Settles p q (Word.alignUp p.here alignment) := by
  have hsettles := settles_enterLabels (puts.extends.clean clean)
  rw [here_moveTo] at hsettles
  exact hsettles.of_symbols rfl puts.symbols

/-- The end of a stretch of lines in one segment gives the labels that wait the address reached. -/
theorem settles_checkUnused {p : Placement} (clean : p.enterLabels.checkUnused.Clean) :
    Settles p p.enterLabels.checkUnused p.here :=
  (settles_enterLabels ((PlacesNothing.checkUnused _).extends.clean clean)).of_symbols rfl
    (symbols_checkUnused p.enterLabels)

section Carried

variable {line : TokenLine} {column : Nat} {p q : Placement} {role : Role}
  (done : CarriedOut line column p role q)
include done

/-- An item or a change of segment gives the labels that wait their address. -/
theorem CarriedOut.settles {c : Cursor} (h : At p c) (clean : q.Clean) {y : Nat}
    (settled : role.settled? c.here = some y) : Settles p q (addressAt y) := by
  cases done with
  | @item k parts q small kind puts =>
      obtain rfl := Option.some.inj settled
      show Settles p q (addressAt (roundUp c.here (2 ^ k)))
      rw [← alignUp_addressAt _ small, ← h.here_eq]
      exact puts.settles clean
  | select s position unused =>
      obtain rfl := Option.some.inj settled
      rw [← h.here_eq]
      exact (settles_checkUnused clean).of_symbols rfl rfl
  | exports | reserve | nothing | ignored => cases settled

/-- What neither places anything nor changes the segment lets labels wait. -/
theorem CarriedOut.keeps {x : Nat} (settled : role.settled? x = none) :
    q.unit.waiting = p.unit.waiting ∧ q.unit.locals = p.unit.locals := by
  cases done with
  | item | select => cases settled
  | exports | reserve | nothing | ignored => exact ⟨rfl, rfl⟩

end Carried

/-! ## What lines do with labels -/

theorem symbols_awaitLabels (p : Placement) (line : TokenLine) (labels : List (String × Span)) :
    (p.awaitLabels line labels).symbols =
      { p.symbols with
        waiting := p.unit.waiting ++
          labels.map fun (name, span) => (name, ⟨line.source, span.start + 1⟩) } := by
  induction labels generalizing p with
  | nil => simp [awaitLabels, symbols]
  | cons label labels ih =>
      obtain ⟨name, span⟩ := label
      rw [awaitLabels, List.foldl_cons]
      refine (ih _).trans ?_
      simp [symbols, markUsed, await]

/-- The labels of a line wait with those that wait already. -/
theorem waiting_awaitLabels_iff {p : Placement} {line : TokenLine} {labels : List (String × Span)}
    {name : String} {s : Symbol} {a : Word} :
    (∃ site, (name, site) ∈ (p.awaitLabels line labels).unit.waiting ∧ s = symbolAt a site) ↔
      (∃ site, (name, site) ∈ p.unit.waiting ∧ s = symbolAt a site) ∨
        name ∈ labels.map (·.1) ∧ s = ⟨a, line.source.file, line.source.number, .internal⟩ := by
  have hwaiting : (p.awaitLabels line labels).unit.waiting = _ :=
    congrArg Symbols.waiting (symbols_awaitLabels p line labels)
  rw [hwaiting]
  simp only [List.mem_append, List.mem_map, Prod.mk.injEq, or_and_right, exists_or]
  refine or_congr_right ⟨?_, ?_⟩
  · rintro ⟨site, ⟨⟨n, span⟩, hmem, rfl, rfl⟩, rfl⟩
    exact ⟨⟨_, hmem, rfl⟩, rfl⟩
  · rintro ⟨⟨⟨n, span⟩, hmem, rfl⟩, rfl⟩
    exact ⟨_, ⟨_, hmem, rfl, rfl⟩, rfl⟩

/-- What a line leaves to do for the labels that wait. -/
theorem CarriedOut.find?_iff {line : TokenLine} {column : Nat} {p q : Placement} {role : Role}
    (done : CarriedOut line column p role q) {c : Cursor} (h : At p c) (clean : q.Clean)
    (later : Cursor → Nat) {name : String} {s : Symbol} :
    (q.unit.locals.find? name = some s ∨
      ∃ site, (name, site) ∈ q.unit.waiting ∧ s = symbolAt (addressAt (later (c.after role))) site) ↔
    (p.unit.locals.find? name = some s ∨
      ∃ site, (name, site) ∈ p.unit.waiting ∧
        s = symbolAt (addressAt ((role.settled? c.here).getD (later c))) site) := by
  cases hsettled : role.settled? c.here with
  | some y =>
      have hsettles := done.settles h clean hsettled
      rw [hsettles.locals, hsettles.waiting]
      simp
  | none =>
      obtain ⟨hwaiting, hlocals⟩ := done.keeps hsettled
      rw [hwaiting, hlocals, c.after_of_settled?_eq_none hsettled]
      rfl

/-- **The labels of lines.** When some lines have been placed and all labels have their addresses, the
table of the unit has in addition the labels that waited before the lines, and the labels of the lines. -/
theorem find?_placeLines_iff {p : Placement} {c : Cursor} (h : At p c) {lines : List TokenLine}
    (clean : (lines.foldl placeLine p).enterLabels.Clean) (unit : Nat) (name : String) (s : Symbol) :
    (lines.foldl placeLine p).enterLabels.unit.locals.find? name = some s ↔
      (p.unit.locals.find? name = some s ∨ ∃ site, (name, site) ∈ p.unit.waiting ∧
        s = symbolAt (addressAt (c.settle p.extended lines)) site) ∨
      ∃ x ∈ Spot.ofLines p.extended unit c lines, name ∈ x.labels ∧ s = x.symbol p.extended := by
  induction lines generalizing p c with
  | nil =>
      rw [List.foldl_nil] at clean ⊢
      rw [(settles_enterLabels clean).locals, h.here_eq, Cursor.settle, Spot.ofLines]
      simp
  | cons line below ih =>
      have hlines : ((line :: below).foldl placeLine p).Clean :=
        (PlacesNothing.enterLabels _).extends.clean clean
      obtain ⟨st, hst, hline, hextended, hdone⟩ := exists_carriedOut hlines
      have hat := h.awaitLabels line st.labels
      have hnext := ih (hdone.trace hat (hline.spares _)).1 clean
      rw [hextended] at hnext
      have hlocals : (p.awaitLabels line st.labels).unit.locals = p.unit.locals :=
        congrArg Symbols.locals (symbols_awaitLabels p line st.labels)
      have hsettle : c.settle p.extended (line :: below) =
          ((Role.ofNucleus p.extended st.nucleus).settled? c.here).getD (c.settle p.extended below) := by
        rw [Cursor.settle, hst]
      rw [List.foldl_cons, hnext, hdone.find?_iff hat hline fun c => c.settle p.extended below,
        waiting_awaitLabels_iff, hlocals, ← hsettle, Spot.ofLines, hst]
      -- the labels that wait now are those that waited before, and those of the line
      simp only [List.mem_cons, or_and_right, exists_or, exists_eq_left, Spot.labels, Spot.symbol, or_assoc]

/-! ## What lines do with the labels of all units -/

/-- A line that reserves storage adds its name, which is new, and no other line adds any. -/
theorem CarriedOut.find?_globals {line : TokenLine} {column : Nat} {p q : Placement} {role : Role}
    (done : CarriedOut line column p role q) (clean : q.Clean) (name : String) :
    (role.reserved? ≠ some name ∧ q.globals.find? name = p.globals.find? name) ∨
      (role.reserved? = some name ∧ p.globals.find? name = none ∧
        ∃ a, q.globals.find? name = some ⟨a, line.source.file, line.source.number, .global⟩) := by
  cases done with
  | item small kind puts =>
      have hglobals := (puts.settles clean).globals
      exact .inl ⟨by simp [Role.reserved?], congrArg (·.find? name) hglobals⟩
  | select s position unused =>
      have hglobals := (settles_checkUnused clean).globals
      exact .inl ⟨by simp [Role.reserved?], congrArg (·.find? name) hglobals⟩
  | exports | nothing | ignored => exact .inl ⟨by simp [Role.reserved?], rfl⟩
  | @reserve label size globals added =>
      have hadds := SymbolTable.adds_of_addGlobal added
      by_cases hname : label = name
      · subst hname
        exact .inr ⟨rfl, hadds.new, _, hadds.added⟩
      · exact .inl ⟨by simpa [Role.reserved?] using hname, (hadds.find name).trans (if_neg hname)⟩

/-- A line declares what it names, and no other line does. -/
theorem CarriedOut.exports_eq {line : TokenLine} {column : Nat} {p q : Placement} {role : Role}
    (done : CarriedOut line column p role q) (clean : q.Clean) :
    q.unit.exports = p.unit.exports ++ role.exported.map fun name => (name, ⟨line.source, column⟩) := by
  cases done with
  | item small kind puts => exact (puts.settles clean).exports.trans (List.append_nil _).symm
  | select s position unused =>
      exact (settles_checkUnused clean).exports.trans (List.append_nil _).symm
  | exports names => rfl
  | reserve | nothing | ignored => exact (List.append_nil _).symm

end Placement

namespace Spot

/-- The declarations of exports of a line. -/
def exports (x : Spot) : List (String × Site) :=
  x.role.exported.map fun name => (name, ⟨x.line.source, x.statement.span.start + 1⟩)

/-- The line reserves storage for a name. -/
def Reserves (x : Spot) (name : String) : Prop := x.role.reserved? = some name

end Spot

namespace Placement

section Lines

variable {p : Placement} {lines : List TokenLine} (clean : (lines.foldl placeLine p).Clean) (unit : Nat)
  (c : Cursor)
include clean

/-- **Lines declare what they name.** -/
theorem exports_placeLines : (lines.foldl placeLine p).unit.exports =
    p.unit.exports ++ (Spot.ofLines p.extended unit c lines).flatMap Spot.exports := by
  induction lines generalizing p c with
  | nil => exact (List.append_nil _).symm
  | cons line below ih =>
      obtain ⟨s, hs, hline, hextended, hdone⟩ := exists_carriedOut clean
      have hawaited : (p.awaitLabels line s.labels).unit.exports = p.unit.exports :=
        congrArg Symbols.exports (symbols_awaitLabels p line s.labels)
      rw [List.foldl_cons, ih clean (c.after (.ofNucleus p.extended s.nucleus)), hdone.exports_eq hline,
        hawaited, hextended, Spot.ofLines, hs, List.flatMap_cons, List.append_assoc]
      rfl

/-- **Lines add what they reserve.** A name is either reserved by one of the lines and new, or it is found
after the lines as it was before. -/
theorem find?_globals_placeLines (name : String) :
    ((∀ x ∈ Spot.ofLines p.extended unit c lines, ¬ x.Reserves name) ∧
      (lines.foldl placeLine p).globals.find? name = p.globals.find? name) ∨
    (p.globals.find? name = none ∧ ∃ x ∈ Spot.ofLines p.extended unit c lines, x.Reserves name ∧
      ∃ a, (lines.foldl placeLine p).globals.find? name =
        some ⟨a, x.line.source.file, x.line.source.number, .global⟩) := by
  induction lines generalizing p c with
  | nil => exact .inl ⟨by simp [Spot.ofLines], rfl⟩
  | cons line below ih =>
      obtain ⟨s, hs, hline, hextended, hdone⟩ := exists_carriedOut clean
      have hawaited : (p.awaitLabels line s.labels).globals = p.globals :=
        congrArg Symbols.globals (symbols_awaitLabels p line s.labels)
      have hbelow := ih clean (c.after (.ofNucleus p.extended s.nucleus))
      have hfirst := hdone.find?_globals hline name
      rw [hextended] at hbelow
      rw [hawaited] at hfirst
      rw [List.foldl_cons, Spot.ofLines, hs]
      rcases hfirst with ⟨hkept, hsame⟩ | ⟨hreserved, hnew, a, hadded⟩
      · rw [hsame] at hbelow
        rcases hbelow with ⟨hnone, hlater⟩ | ⟨hnew, x, hx, hlater⟩
        · exact .inl ⟨List.forall_mem_cons.mpr ⟨hkept, hnone⟩, hlater⟩
        · exact .inr ⟨hnew, x, List.mem_cons_of_mem _ hx, hlater⟩
      · rcases hbelow with ⟨-, hlater⟩ | ⟨hnone, -⟩
        · exact .inr ⟨hnew, _, List.mem_cons_self, hreserved, a, hlater.trans hadded⟩
        -- a name that was just reserved is not new to the lines that follow
        · rw [hadded] at hnone
          cases hnone

end Lines

end Placement

/-! ## The end of a unit -/

namespace Assembly

open Placement

/-- The state at the end of a unit, before its exports are carried out. -/
def closing (p : Placement) (u : SourceUnit) : Placement :=
  (u.expandedLines.foldl placeLine (beginUnit p u)).enterLabels.checkUnused

theorem placeUnit_eq_closing {p : Placement} {u : SourceUnit} (clean : (placeUnit p u).1.Clean) :
    (placeUnit p u).1 =
      let q := (closing p u).unit.exports.foldl exportLabel (closing p u)
      { q with locals := q.locals.push q.unit.locals } := placeUnit_of_clean clean

section Closing

variable {p : Placement} {u : SourceUnit} (clean : (closing p u).Clean) (c : Cursor)
include clean

theorem clean_of_closing :
    (u.expandedLines.foldl placeLine (beginUnit p u)).enterLabels.Clean ∧
      (u.expandedLines.foldl placeLine (beginUnit p u)).Clean := by
  have hlabels := (PlacesNothing.checkUnused _).extends.clean clean
  exact ⟨hlabels, (PlacesNothing.enterLabels _).extends.clean hlabels⟩

/-- What the end of a unit knows of exports and of the labels of all units is what its lines leave. -/
theorem symbols_closing :
    (closing p u).unit.exports = (u.expandedLines.foldl placeLine (beginUnit p u)).unit.exports ∧
      (closing p u).globals = (u.expandedLines.foldl placeLine (beginUnit p u)).globals := by
  have hsettles := settles_checkUnused clean
  exact ⟨hsettles.exports, hsettles.globals⟩

/-- **The table of a unit holds the labels of its lines.** -/
theorem find?_closing_iff (h : At p c) (unit : Nat) (name : String) (s : Symbol) :
    (closing p u).unit.locals.find? name = some s ↔
      ∃ x ∈ Spot.ofLines p.extended unit c.beginUnit u.expandedLines,
        name ∈ x.labels ∧ s = x.symbol p.extended := by
  have hlocals := congrArg Symbols.locals
    (symbols_checkUnused (u.expandedLines.foldl placeLine (beginUnit p u)).enterLabels)
  have hfind := find?_placeLines_iff (h.beginUnit u) (clean_of_closing clean).1 unit name s
  have hempty : (beginUnit p u).unit.locals.find? name = none := SymbolTable.find?_empty _ _
  have hwaiting : (beginUnit p u).unit.waiting = [] := rfl
  rw [hempty, hwaiting] at hfind
  have hclosing : (closing p u).unit.locals.find? name =
      (u.expandedLines.foldl placeLine (beginUnit p u)).enterLabels.unit.locals.find? name :=
    congrArg (·.find? name) hlocals
  rw [hclosing, hfind]
  simp only [reduceCtorEq, List.not_mem_nil, false_and, exists_false, false_or]
  rfl

theorem exports_closing (unit : Nat) : (closing p u).unit.exports =
    (Spot.ofLines p.extended unit c u.expandedLines).flatMap Spot.exports := by
  rw [(symbols_closing clean).1, exports_placeLines (clean_of_closing clean).2 unit c]
  rfl

theorem find?_globals_closing (unit : Nat) (name : String) :
    ((∀ x ∈ Spot.ofLines p.extended unit c u.expandedLines, ¬ x.Reserves name) ∧
      (closing p u).globals.find? name = p.globals.find? name) ∨
    (p.globals.find? name = none ∧
      ∃ x ∈ Spot.ofLines p.extended unit c u.expandedLines, x.Reserves name ∧
        ∃ a, (closing p u).globals.find? name =
          some ⟨a, x.line.source.file, x.line.source.number, .global⟩) := by
  rw [(symbols_closing clean).2]
  exact find?_globals_placeLines (clean_of_closing clean).2 unit c name

end Closing

end Assembly

end MipsLab
