import MipsLab.Proofs.Ownership

set_option autoImplicit false

/-!
# Expansion with origins

Whether a label was written in the body of a macro or came in through an argument cannot be seen from
the lines that an expansion leaves. This module expands lines whose names remember the expansion that
they were written in (`MacroPool.traceUnit`), and keeps a list of the macros that were expanded. Forgetting
the origins gives the expansion itself (`MacroPool.erase_traceUnit`).
-/

namespace MipsLab

/-! ## Tokens and lines with origins -/

/-- Where a name was written: in the body of the macro of an expansion. -/
structure Origin where
  /-- The serial number of the expansion. -/
  serial : Nat
  /-- The name as it stands in the body. -/
  text : String
deriving DecidableEq, Repr

/-- A token with its origin, if it is a name that was written in the body of a macro. -/
structure TracedToken where
  located : LocatedToken
  origin : Option Origin
deriving DecidableEq, Repr

/-- A line of tokens with their origins. -/
structure TracedLine where
  source : SourceLine
  tokens : List TracedToken
deriving DecidableEq, Repr

namespace TracedLine

/-- The line without origins. -/
def erase (line : TracedLine) : TokenLine := ⟨line.source, line.tokens.map (·.located)⟩

/-- A line of the source text. -/
def ofLine (line : TokenLine) : TracedLine := ⟨line.source, line.tokens.map (⟨·, none⟩)⟩

@[simp] theorem erase_ofLine (line : TokenLine) : (ofLine line).erase = line := by
  simp [erase, ofLine, Function.comp_def]

end TracedLine

/-! ## Invocations -/

theorem splitLabels_append (tokens : List LocatedToken) :
    (splitLabels tokens).1 ++ (splitLabels tokens).2 = tokens := by
  fun_induction splitLabels tokens with
  | case1 text span colonSpan rest labels others hrest ih =>
      rw [hrest] at ih
      rw [← ih]
      rfl
  | case2 => rfl

namespace Invocation

/-- The tokens between the parentheses that enclose all tokens, or all tokens, with their origins. -/
def tracedInner : List TracedToken → List TracedToken
  | first :: second :: rest =>
    if first.located.token = .leftParen ∧
        ((second :: rest).getLast?.map (·.located.token)) = some .rightParen then
      (second :: rest).dropLast
    else first :: second :: rest
  | tokens => tokens

/-- The parts between commas, with their origins. -/
def tracedParts : List TracedToken → List (List TracedToken)
  | [] => [[]]
  | t :: rest =>
    if t.located.token = .comma then [] :: tracedParts rest
    else
      match tracedParts rest with
      | part :: parts => (t :: part) :: parts
      | [] => [[t]]

/-- The arguments that some tokens stand for, with their origins. -/
def tracedArguments (tokens : List TracedToken) : List (List TracedToken) :=
  if tokens.isEmpty then []
  else if tokens.any fun t => t.located.token = .comma then tracedParts tokens
  else if tokens.all fun t => isSimple t.located.token then tokens.map ([·])
  else [tokens]

theorem map_tracedInner (tokens : List TracedToken) :
    (tracedInner tokens).map (·.located) = withoutParentheses (tokens.map (·.located)) := by
  match tokens with
  | [] => rfl
  | [t] => rfl
  | first :: second :: rest =>
      have hlast : ((second :: rest).map (·.located)).getLast?.map (·.token) =
          (second :: rest).getLast?.map (·.located.token) := by
        rw [List.getLast?_map, Option.map_map]
        rfl
      unfold tracedInner
      simp only [List.map_cons, withoutParentheses] at hlast ⊢
      rw [hlast]
      split
      · rw [List.map_dropLast]
        rfl
      · rfl

theorem map_tracedParts (tokens : List TracedToken) :
    (tracedParts tokens).map (List.map (·.located)) = splitCommas (tokens.map (·.located)) := by
  induction tokens with
  | nil => rfl
  | cons t rest ih =>
      rw [List.map_cons, splitCommas, tracedParts, ← ih]
      split
      · rfl
      · cases tracedParts rest <;> rfl

theorem map_tracedArguments (tokens : List TracedToken) :
    (tracedArguments tokens).map (List.map (·.located)) = argumentsOf (tokens.map (·.located)) := by
  unfold tracedArguments argumentsOf
  simp only [List.isEmpty_map, List.any_map, List.all_map, Function.comp_def]
  split
  · rfl
  split
  · exact map_tracedParts tokens
  split
  · simp [Function.comp_def]
  · rfl

end Invocation

namespace TracedLine

/-- The labels of an invocation on the line. -/
def invokedLabels (line : TracedLine) (call : Invocation) : List TracedToken :=
  line.tokens.take call.labels.length

/-- The arguments of an invocation on the line. -/
def arguments (line : TracedLine) (call : Invocation) : List (List TracedToken) :=
  Invocation.tracedArguments
    (Invocation.tracedInner (line.tokens.drop (call.labels.length + 1)))

theorem erase_invocation {line : TracedLine} {call : Invocation}
    (h : Invocation.ofTokens? line.erase.tokens = some call) :
    (line.invokedLabels call).map (·.located) = call.labels ∧
      (line.arguments call).map (List.map (·.located)) = call.arguments := by
  have hsplit := splitLabels_append line.erase.tokens
  unfold Invocation.ofTokens? at h
  split at h
  case h_1 labels text span rest hlabels =>
    cases h
    rw [hlabels] at hsplit
    change labels ++ ⟨.name text, span⟩ :: rest = line.tokens.map (·.located) at hsplit
    refine ⟨?_, ?_⟩
    · rw [invokedLabels, List.map_take, ← hsplit, List.take_left]
    · rw [arguments, Invocation.map_tracedArguments, Invocation.map_tracedInner, List.map_drop, ← hsplit]
      simp
  case h_2 => cases h

end TracedLine

/-! ## Expansions -/

namespace Macro

/-- The tokens that stand for a token of the body in an expansion, with their origins. The tokens of an
argument keep theirs. -/
def traceToken (m : Macro) (call : Invocation) (arguments : List (List TracedToken)) (serial : Nat)
    (t : Token) : List TracedToken :=
  match t with
  | .param p =>
    ((arguments[m.params.idxOf p]?).getD []).map fun u => ⟨⟨u.located.token, call.span⟩, u.origin⟩
  | .name text =>
    (m.instantiateToken call.arguments serial t).map fun u =>
      ⟨⟨u, call.span⟩, some ⟨serial, text⟩⟩
  | _ => [⟨⟨t, call.span⟩, none⟩]

/-- A line of the body in an expansion, with origins. -/
def traceLine (m : Macro) (source : SourceLine) (call : Invocation)
    (arguments : List (List TracedToken)) (serial : Nat) (line : TokenLine) : TracedLine :=
  ⟨source, line.tokens.flatMap fun t => m.traceToken call arguments serial t.token⟩

theorem erase_traceLine (m : Macro) (source : SourceLine) {call : Invocation}
    {arguments : List (List TracedToken)} (serial : Nat) (line : TokenLine)
    (h : arguments.map (List.map (·.located)) = call.arguments) :
    (m.traceLine source call arguments serial line).erase =
      m.instantiateLine source call serial line := by
  unfold traceLine TracedLine.erase instantiateLine
  rw [List.map_flatMap]
  congr 2
  funext t
  rw [← h]
  unfold traceToken instantiateToken
  cases t.token with
  | param p =>
      dsimp only
      rw [List.getElem?_map]
      cases arguments[m.params.idxOf p]? <;> simp
  | name text => rfl
  | _ => rfl

end Macro

namespace MacroPool

/-- A computation that makes expansions and lists their macros, in the order of their serial
numbers. -/
abbrev Tracing := ExceptT MacroError (StateM (List Macro))

/-- Expands each of some lines. -/
def traceAll (traceLine : TracedLine → Tracing (Option (List TracedLine))) :
    List TracedLine → Tracing (List TracedLine)
  | [] => return []
  | line :: rest => do
    let expanded := (← traceLine line).getD [line]
    return expanded ++ (← traceAll traceLine rest)

/-- Expands a line that may be at most `depth` levels above the innermost invocation. -/
def traceWithin (pool : MacroPool) (depth : Nat) (line : TracedLine) :
    Tracing (Option (List TracedLine)) :=
  match Invocation.ofTokens? line.erase.tokens with
  | none => return none
  | some call =>
    match pool.find? call.name call.arguments.length with
    | none => return none
    | some m =>
      match depth with
      | 0 => throw (.nestedTooDeeply m.name depthLimit)
      | d + 1 => do
        let log ← getModify (· ++ [m])
        let body := m.body.map (m.traceLine line.source call (line.arguments call) log.length)
        let expanded ← traceAll (traceWithin pool d) body
        let labels :=
          if call.labels.isEmpty then [] else [⟨line.source, line.invokedLabels call⟩]
        return some (labels ++ expanded)

/-- Without origins, and with the number of macros for the list of them, the one computation is the
other. -/
def Erases {α β : Type} (forget : α → β) (x : Tracing α) (y : Expanding β) : Prop :=
  ∀ log, y.run.run log.length = ((x.run.run log).1.map forget, (x.run.run log).2.length)

namespace Erases

variable {α β γ δ : Type} {forget : α → β} {forget' : γ → δ}

theorem pure {a : α} {b : β} (h : forget a = b) :
    Erases forget (Pure.pure a) (Pure.pure b) := by
  subst h
  exact fun _ => rfl

theorem throw (e : MacroError) :
    Erases forget (throw e : Tracing α) (throw e : Expanding β) := fun _ => rfl

theorem bind {x : Tracing α} {y : Expanding β} {f : α → Tracing γ} {g : β → Expanding δ}
    (hx : Erases forget x y) (hf : ∀ a, Erases forget' (f a) (g (forget a))) :
    Erases forget' (x >>= f) (y >>= g) := by
  intro log
  have hlog := hx log
  rw [ExceptT.run_bind, StateT.run_bind, ExceptT.run_bind, StateT.run_bind]
  rcases hrun : x.run.run log with ⟨result, log'⟩
  rw [hrun] at hlog
  rw [hlog]
  cases result with
  | ok a => exact hf a log'
  | error e => rfl

end Erases

theorem erases_traceAll {traceLine : TracedLine → Tracing (Option (List TracedLine))}
    {expandLine : TokenLine → Expanding (Option (List TokenLine))}
    (h : ∀ line, Erases (Option.map (List.map (·.erase))) (traceLine line) (expandLine line.erase))
    (lines : List TracedLine) :
    Erases (List.map (·.erase)) (traceAll traceLine lines)
      (expandAll expandLine (lines.map (·.erase))) := by
  induction lines with
  | nil => exact .pure rfl
  | cons line rest ih =>
      refine (h line).bind fun expanded => ih.bind fun later => .pure ?_
      cases expanded with
      | none => rfl
      | some lines => exact List.map_append

/-- The log counts the expansions. -/
theorem erases_log (m : Macro) :
    Erases List.length (getModify (· ++ [m]) : Tracing (List Macro)) (getModify (· + 1)) := by
  intro log
  show (Except.ok log.length, log.length + 1) = (Except.ok log.length, (log ++ [m]).length)
  rw [List.length_append]
  rfl

/-- Without origins, the traced body of a macro is its instantiated body. -/
theorem erase_traceBody {line : TracedLine} {call : Invocation} (m : Macro) (serial : Nat)
    (harguments : (line.arguments call).map (List.map (·.located)) = call.arguments) :
    (m.body.map (m.traceLine line.source call (line.arguments call) serial)).map (·.erase) =
      m.body.map (m.instantiateLine line.source call serial) := by
  rw [List.map_map]
  exact List.map_congr_left fun l _ => m.erase_traceLine line.source _ l harguments

/-- **Without origins, an expansion is an expansion.** -/
theorem erases_traceWithin (pool : MacroPool) (depth : Nat) (line : TracedLine) :
    Erases (Option.map (List.map (·.erase))) (pool.traceWithin depth line)
      (pool.expandWithin depth line.erase) := by
  induction depth generalizing line with
  | zero =>
      unfold traceWithin expandWithin
      cases Invocation.ofTokens? line.erase.tokens with
      | none => exact .pure rfl
      | some call =>
          dsimp only
          cases pool.find? call.name call.arguments.length with
          | none => exact .pure rfl
          | some m => exact .throw _
  | succ d ih =>
      unfold traceWithin expandWithin
      cases hcall : Invocation.ofTokens? line.erase.tokens with
      | none => exact .pure rfl
      | some call =>
          dsimp only
          cases pool.find? call.name call.arguments.length with
          | none => exact .pure rfl
          | some m =>
              obtain ⟨hlabels, harguments⟩ := TracedLine.erase_invocation hcall
              refine (erases_log m).bind fun log => ?_
              rw [show line.erase.source = line.source from rfl, ← erase_traceBody m log.length harguments]
              refine (erases_traceAll ih _).bind fun expanded => .pure ?_
              -- the labels in front of the invocation stay on a line of their own
              rw [Option.map_some, List.map_append]
              congr 2
              split
              · rfl
              · rw [List.map_singleton, TracedLine.erase, hlabels]

/-! ## Units -/

/-- What the expansion of a source unit leaves, with origins, and the macros of all expansions that were
made, in the order of their serial numbers. -/
structure Trace where
  lines : List TracedLine
  log : List Macro

/-- Expands a line of the source text that is no part of a definition. -/
def traceTopLine (pool : MacroPool) (log : List Macro) (line : TokenLine) : Trace :=
  match (pool.traceWithin depthLimit (.ofLine line)).run.run log with
  | (.ok (some lines), log) => ⟨lines, log⟩
  | (.ok none, log) => ⟨[.ofLine line], log⟩
  | (.error _, log) => ⟨[], log⟩

/-- Expands the lines of a source unit from some line on, in the same way as `expandFrom`. -/
def traceFrom (pool : MacroPool) (current : Option Definition) (log : List Macro) :
    List TokenLine → Trace
  | [] => ⟨[], log⟩
  | line :: rest =>
    match line.tokens, current with
    | ⟨.directive "macro", _⟩ :: _, some d => traceFrom pool (some d) log rest
    | ⟨.directive "macro", _⟩ :: header, none =>
      traceFrom pool (Definition.ofHeader? line header) log rest
    | ⟨.directive "end_macro", _⟩ :: _, none => traceFrom pool none log rest
    | ⟨.directive "end_macro", _⟩ :: _, some d =>
      match pool.close d with
      | .ok pool => traceFrom pool none log rest
      | .error _ => traceFrom pool none log rest
    | _, some d => traceFrom pool (some { d with body := line :: d.body }) log rest
    | _, none =>
      let first := pool.traceTopLine log line
      let later := traceFrom { pool with expansions := first.log.length } none first.log rest
      ⟨first.lines ++ later.lines, later.log⟩

/-- Expands the lines of a source unit, with origins. -/
def traceUnit (lines : List TokenLine) : Trace := traceFrom .empty none [] lines

/-- The lines that a line of the source text leaves. -/
def linesOf (line : TokenLine) : Except MacroError (Option (List TokenLine)) → List TokenLine
  | .ok (some lines) => lines
  | .ok none => [line]
  | .error _ => []

theorem erase_traceTopLine {pool pool' : MacroPool} {log : List Macro} {line : TokenLine}
    {result : Except MacroError (Option (List TokenLine))} (h : pool.expansions = log.length)
    (expands : pool.expand line = (result, pool')) :
    (pool.traceTopLine log line).lines.map (·.erase) = linesOf line result ∧
      { pool with expansions := (pool.traceTopLine log line).log.length } = pool' := by
  have herases := erases_traceWithin pool depthLimit (.ofLine line) log
  rw [TracedLine.erase_ofLine] at herases
  unfold expand at expands
  rw [h, herases] at expands
  obtain ⟨rfl, rfl⟩ := Prod.mk.inj expands
  unfold traceTopLine
  rcases (pool.traceWithin depthLimit (.ofLine line)).run.run log with ⟨e | _ | lines, log'⟩
  · exact ⟨rfl, rfl⟩
  · exact ⟨congrArg (fun l => [l]) (TracedLine.erase_ofLine line), rfl⟩
  · exact ⟨rfl, rfl⟩

/-- Adding a macro is no expansion. -/
theorem expansions_close {pool pool' : MacroPool} {d : Definition} (h : pool.close d = .ok pool') :
    pool'.expansions = pool.expansions := by
  unfold close at h
  cases hdefined : Macro.ofDefinition d.name d.params d.body.reverse with
  | error e =>
      rw [hdefined] at h
      cases h
  | ok m =>
      rw [hdefined] at h
      change pool.define m = .ok pool' at h
      unfold define at h
      split at h
      · cases h
      · cases h
        rfl

section Plain

variable (pool : MacroPool) (d : Definition) (log : List Macro) {line : TokenLine}
  (rest : List TokenLine)
  (unopened : ∀ span tail, line.tokens = ⟨.directive "macro", span⟩ :: tail → False)
  (unclosed : ∀ span tail, line.tokens = ⟨.directive "end_macro", span⟩ :: tail → False)
include unopened unclosed

theorem traceFrom_body :
    traceFrom pool (some d) log (line :: rest) =
      traceFrom pool (some { d with body := line :: d.body }) log rest := by
  simp (disch := assumption) only [traceFrom]

theorem traceFrom_top :
    traceFrom pool none log (line :: rest) =
      let first := pool.traceTopLine log line
      let later := traceFrom { pool with expansions := first.log.length } none first.log rest
      ⟨first.lines ++ later.lines, later.log⟩ := by
  simp (disch := assumption) only [traceFrom]

/-- What is left of the line in front is put before what is left of the others. -/
theorem erase_traceFrom_top {pool pool' : MacroPool} {log : List Macro}
    {result : Except MacroError (Option (List TokenLine))} (h : pool.expansions = log.length)
    (expands : pool.expand line = (result, pool'))
    (ih : ∀ log, pool'.expansions = log.length →
      (traceFrom pool' none log rest).lines.map (·.erase) = (expandFrom pool' none rest).lines ∧
        (traceFrom pool' none log rest).log.length = (expandFrom pool' none rest).pool.expansions) :
    (traceFrom pool none log (line :: rest)).lines.map (·.erase) =
        linesOf line result ++ (expandFrom pool' none rest).lines ∧
      (traceFrom pool none log (line :: rest)).log.length =
        (expandFrom pool' none rest).pool.expansions := by
  obtain ⟨hlines, rfl⟩ := erase_traceTopLine h expands
  obtain ⟨hrest, hcount⟩ := ih (pool.traceTopLine log line).log rfl
  rw [traceFrom_top pool log rest unopened unclosed]
  exact ⟨by rw [List.map_append, hlines, hrest], hcount⟩

end Plain

/-- Without origins, the traced lines are the lines that the expansion leaves. -/
theorem erase_traceFrom {pool : MacroPool} (current : Option Definition) {log : List Macro}
    (lines : List TokenLine) (h : pool.expansions = log.length) :
    (traceFrom pool current log lines).lines.map (·.erase) = (expandFrom pool current lines).lines ∧
      (traceFrom pool current log lines).log.length =
        (expandFrom pool current lines).pool.expansions := by
  fun_induction expandFrom pool current lines generalizing log with
  | case1 => exact ⟨rfl, h.symm⟩
  | case2 pool line rest span tail d starts ih =>
      simp only [traceFrom, starts]
      exact ih h
  | case3 pool line rest span header starts d formed ih =>
      simp only [traceFrom, starts, formed]
      exact ih h
  | case4 pool line rest span header starts malformed ih =>
      simp only [traceFrom, starts, malformed]
      exact ih h
  | case5 pool line rest span tail starts ih =>
      simp only [traceFrom, starts]
      exact ih h
  | case6 pool line rest span tail d starts pool' closed ih =>
      simp only [traceFrom, starts, closed]
      exact ih ((expansions_close closed).trans h)
  | case7 pool line rest span tail d starts e refused ih =>
      simp only [traceFrom, starts, refused]
      exact ih h
  | case8 pool line rest d unopened unclosed ih =>
      rw [traceFrom_body pool d log rest unopened unclosed]
      exact ih h
  | case9 pool line rest lines pool' expands unopened unclosed ih =>
      exact erase_traceFrom_top rest unopened unclosed h expands fun _ h => ih h
  | case10 pool line rest pool' expands unopened unclosed ih =>
      exact erase_traceFrom_top rest unopened unclosed h expands fun _ h => ih h
  | case11 pool line rest e pool' expands unopened unclosed ih =>
      exact erase_traceFrom_top rest unopened unclosed h expands fun _ h => ih h

/-- **Without origins, the traced expansion of a unit is its expansion.** -/
theorem erase_traceUnit (lines : List TokenLine) :
    (traceUnit lines).lines.map (·.erase) = (MacroPool.empty.expandUnit lines).lines ∧
      (traceUnit lines).log.length = (MacroPool.empty.expandUnit lines).pool.expansions :=
  erase_traceFrom none lines rfl

end MacroPool

end MipsLab
