import MipsLab.Proofs.Reading

set_option autoImplicit false

/-!
# Every line of a unit is expanded or reported

Definitions and invocations of macros go through the lines of a unit in order. Each line opens a
definition, belongs to the body of one, closes one, or leaves the lines that it stands for; and a line that
does none of this has an error, or the definition that it closes has one (`MacroPool.run_expandFrom`).
-/

namespace MipsLab

/-- The line starts with a directive. -/
def TokenLine.StartsWith (line : TokenLine) (directive : String) : Prop :=
  ∃ span rest, line.tokens = ⟨.directive directive, span⟩ :: rest

/-- The line neither opens nor closes a definition of a macro. -/
def TokenLine.Plain (line : TokenLine) : Prop :=
  ¬ line.StartsWith "macro" ∧ ¬ line.StartsWith "end_macro"

theorem TokenLine.plain_of_ne {line : TokenLine}
    (unopened : ∀ span rest, line.tokens = ⟨.directive "macro", span⟩ :: rest → False)
    (unclosed : ∀ span rest, line.tokens = ⟨.directive "end_macro", span⟩ :: rest → False) : line.Plain :=
  ⟨fun ⟨_, _, h⟩ => unopened _ _ h, fun ⟨_, _, h⟩ => unclosed _ _ h⟩

namespace MacroPool

/-- What a line without errors does: from the macros and the open definition before it, it leads to those
after it, and leaves some lines. -/
inductive Handles (line : TokenLine) :
    MacroPool → Option Definition → List TokenLine → MacroPool → Option Definition → Prop
  | opens {pool : MacroPool} {span : Span} {header : List LocatedToken} {d : Definition}
      (starts : line.tokens = ⟨.directive "macro", span⟩ :: header)
      (formed : Definition.ofHeader? line header = some d) : Handles line pool none [] pool (some d)
  | body {pool : MacroPool} {d : Definition} (plain : line.Plain) :
      Handles line pool (some d) [] pool (some { d with body := line :: d.body })
  | closes {pool pool' : MacroPool} {d : Definition} (starts : line.StartsWith "end_macro")
      (closed : pool.close d = .ok pool') : Handles line pool (some d) [] pool' none
  | invokes {pool pool' : MacroPool} {lines : List TokenLine} (plain : line.Plain)
      (expands : pool.expand line = (.ok (some lines), pool')) : Handles line pool none lines pool' none
  | stands {pool pool' : MacroPool} (plain : line.Plain)
      (expands : pool.expand line = (.ok none, pool')) : Handles line pool none [line] pool' none

/-- Some lines are gone through in order, and leave other lines. Whatever is left out has an error. -/
inductive Run (ds : Diagnostics) :
    MacroPool → Option Definition → List TokenLine → List TokenLine → Prop
  | done (pool : MacroPool) : Run ds pool none [] []
  | unclosed (pool : MacroPool) {d : Definition} (reported : Reported ds d.header.source) :
      Run ds pool (some d) [] []
  | line {pool pool' : MacroPool} {current current' : Option Definition} {line : TokenLine}
      {below out later : List TokenLine} (handles : Handles line pool current out pool' current')
      (rest : Run ds pool' current' below later) : Run ds pool current (line :: below) (out ++ later)
  /-- The line is left out. -/
  | refused {pool pool' : MacroPool} {current : Option Definition} {line : TokenLine}
      {below later : List TokenLine} (reported : Reported ds line.source)
      (same : pool'.macros = pool.macros) (rest : Run ds pool' current below later) :
      Run ds pool current (line :: below) later
  /-- The line closes a definition that is left out. -/
  | dropped {pool : MacroPool} {d : Definition} {line : TokenLine} {below later : List TokenLine}
      (closes : line.StartsWith "end_macro") (reported : Reported ds d.header.source)
      (rest : Run ds pool none below later) : Run ds pool (some d) (line :: below) later

theorem reported_of_report {ds : Diagnostics} {e : MacroError} {line : TokenLine} (h : report e line ∈ ds) :
    Reported ds line.source :=
  ⟨_, h, rfl, rfl, rfl⟩

/-- Expanding a line defines no macros. -/
theorem macros_expand {pool pool' : MacroPool} {line : TokenLine}
    {result : Except MacroError (Option (List TokenLine))} (h : pool.expand line = (result, pool')) :
    pool'.macros = pool.macros := by
  unfold expand at h
  cases h
  rfl

/-- **Every line is expanded or reported.** -/
theorem run_expandFrom {ds : Diagnostics} (pool : MacroPool) (current : Option Definition)
    (lines : List TokenLine) (h : (expandFrom pool current lines).diagnostics ⊆ ds) :
    Run ds pool current lines (expandFrom pool current lines).lines := by
  fun_induction expandFrom pool current lines with
  | case1 pool current =>
      cases current with
      | none => exact .done pool
      | some d => exact .unclosed pool (reported_of_report (h List.mem_cons_self))
  | case3 pool line rest span header starts d formed ih => exact .line (.opens starts formed) (ih h)
  | case6 pool line rest span tail d starts pool' closed ih =>
      exact .line (.closes ⟨_, _, starts⟩ closed) (ih h)
  | case8 pool line rest d unopened unclosed ih =>
      exact .line (.body (TokenLine.plain_of_ne unopened unclosed)) (ih h)
  | case9 pool line rest lines pool' expands unopened unclosed ih =>
      exact .line (.invokes (TokenLine.plain_of_ne unopened unclosed) expands) (ih h)
  | case10 pool line rest pool' expands unopened unclosed ih =>
      exact .line (.stands (TokenLine.plain_of_ne unopened unclosed) expands) (ih h)
  -- the other lines have an error, and nothing else comes of them
  | case2 pool line rest _ _ _ _ ih | case4 pool line rest _ _ _ _ ih | case5 pool line rest _ _ _ ih =>
      obtain ⟨hline, hrest⟩ := List.cons_subset.mp h
      exact .refused (reported_of_report hline) rfl (ih hrest)
  | case7 pool line rest span tail d starts e closed ih =>
      obtain ⟨hheader, hrest⟩ := List.cons_subset.mp h
      exact .dropped ⟨_, _, starts⟩ (reported_of_report hheader) (ih hrest)
  | case11 pool line rest e pool' expands unopened unclosed ih =>
      obtain ⟨hline, hrest⟩ := List.cons_subset.mp h
      exact .refused (reported_of_report hline) (macros_expand expands) (ih hrest)

/-- Without errors, nothing is left out. -/
theorem Run.complete {ds : Diagnostics} {pool : MacroPool} {current : Option Definition}
    {lines out : List TokenLine} (run : Run ds pool current lines out) (without : ds.hasErrors = false) :
    Run [] pool current lines out := by
  induction run with
  | done pool => exact .done pool
  | line handles _ ih => exact .line handles ih
  | unclosed _ reported | refused reported | dropped _ reported =>
      exact absurd reported.hasErrors (by simp [without])

end MacroPool

end MipsLab
