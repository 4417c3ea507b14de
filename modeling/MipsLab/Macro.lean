import MipsLab.Diagnostic
import MipsLab.Token.Line

set_option autoImplicit false

/-!
# Macros

A macro is a list of token lines with parameters. A line that names a macro, with as many arguments
as the macro has parameters, is replaced by the lines of its body: each parameter becomes the tokens
of its argument, and each label of the body gets a suffix that no other expansion has. Invocations
in the resulting lines are replaced in turn, up to a limit on the depth of nesting.
-/

namespace MipsLab

/-- A macro. -/
structure Macro where
  name : String
  params : List String
  body : List TokenLine
deriving DecidableEq, Repr

namespace Macro

/-- The number of parameters. -/
def arity (m : Macro) : Nat := m.params.length

/-- The labels that the lines of the body start with. -/
def labels (m : Macro) : List String :=
  m.body.flatMap fun line => (namesIn (splitLabels line.tokens).1).map (·.1)

/-- The parameters that a list of lines uses, in order. -/
def paramsUsed (body : List TokenLine) : List String :=
  body.flatMap fun line => line.tokens.filterMap fun t =>
    match t.token with
    | .param text => some text
    | _ => none

/-- The macro of a definition, whose body may only use the parameters that it lists. -/
def ofDefinition (name : String) (params : List String) (body : List TokenLine) :
    Except MacroError Macro :=
  match (paramsUsed body).find? fun p => !params.contains p with
  | some p => .error (.unknownParam p)
  | none => .ok ⟨name, params, body⟩

end Macro

/-- The macros of a source unit, no two of which agree in name and arity, and the number of
expansions made so far. -/
structure MacroPool where
  macros : List Macro
  expansions : Nat
deriving DecidableEq, Repr

/-- A line that may invoke a macro: labels, a name, and what follows it read as arguments. -/
structure Invocation where
  labels : List LocatedToken
  name : String
  arguments : List (List LocatedToken)
  span : Span
deriving DecidableEq, Repr

namespace Invocation

/-- The tokens between the parentheses that enclose all tokens, or all tokens. -/
def withoutParentheses : List LocatedToken → List LocatedToken
  | first :: second :: rest =>
    if first.token = .leftParen ∧ ((second :: rest).getLast?.map (·.token)) = some .rightParen then
      (second :: rest).dropLast
    else first :: second :: rest
  | tokens => tokens

/-- The parts between commas. -/
def splitCommas : List LocatedToken → List (List LocatedToken)
  | [] => [[]]
  | t :: rest =>
    if t.token = .comma then [] :: splitCommas rest
    else
      match splitCommas rest with
      | part :: parts => (t :: part) :: parts
      | [] => [[t]]

/-- Whether a token can be an argument by itself, without commas around it. -/
def isSimple : Token → Bool
  | .reg _ | .int _ | .name _ | .str _ => true
  | _ => false

/-- The arguments that some tokens stand for: the parts between commas; without a comma, each token
if all are simple, and otherwise all of them together. -/
def argumentsOf (tokens : List LocatedToken) : List (List LocatedToken) :=
  if tokens.isEmpty then []
  else if tokens.any fun t => t.token = .comma then splitCommas tokens
  else if tokens.all fun t => isSimple t.token then tokens.map ([·])
  else [tokens]

/-- The invocation on a line, if a name follows its labels. -/
def ofTokens? (tokens : List LocatedToken) : Option Invocation :=
  match splitLabels tokens with
  | (labels, ⟨.name text, span⟩ :: rest) =>
    let stop := (rest.getLast?.map (·.span.stop)).getD span.stop
    some ⟨labels, text, argumentsOf (withoutParentheses rest), ⟨span.start, stop⟩⟩
  | _ => none

end Invocation

namespace Macro

/-- The label of a macro body as the expansion with the given serial number defines it. -/
def freshLabel (label : String) (serial : Nat) : String := label ++ "_M" ++ Numeral.nat serial

/-- The tokens that stand for a token of the body in an expansion. -/
def instantiateToken (m : Macro) (arguments : List (List LocatedToken)) (serial : Nat)
    (t : Token) : List Token :=
  match t with
  | .param p => ((arguments[m.params.idxOf p]?).getD []).map (·.token)
  | .name text => [if m.labels.contains text then .name (freshLabel text serial) else t]
  | _ => [t]

/-- A line of the body in an expansion. All its tokens point at the invocation. -/
def instantiateLine (m : Macro) (source : SourceLine) (call : Invocation) (serial : Nat)
    (line : TokenLine) : TokenLine :=
  ⟨source, line.tokens.flatMap fun t =>
    (m.instantiateToken call.arguments serial t.token).map fun u => ⟨u, call.span⟩⟩

end Macro

namespace MacroPool

/-- The pool without macros. -/
def empty : MacroPool := ⟨[], 0⟩

/-- How deeply invocations may be nested. -/
def depthLimit : Nat := 64

/-- The macro of a given name and arity. -/
def find? (pool : MacroPool) (name : String) (arity : Nat) : Option Macro :=
  pool.macros.find? fun m => m.name == name && m.arity == arity

/-- Adds a macro, unless there is one of the same name and arity. -/
def define (pool : MacroPool) (m : Macro) : Except MacroError MacroPool :=
  if (pool.find? m.name m.arity).isSome then .error (.duplicate m.name m.arity)
  else .ok { pool with macros := pool.macros ++ [m] }

/-- A computation that makes expansions. It counts them, also those made before it fails. -/
abbrev Expanding := ExceptT MacroError (StateM Nat)

/-- Expands each of some lines, where a line that is no invocation stays as it is. -/
def expandAll (expandLine : TokenLine → Expanding (Option (List TokenLine))) :
    List TokenLine → Expanding (List TokenLine)
  | [] => return []
  | line :: rest => do
    let expanded := (← expandLine line).getD [line]
    return expanded ++ (← expandAll expandLine rest)

/-- Expands a line that may be at most `depth` levels above the innermost invocation. The result is
`none` if the line does not invoke a macro. -/
def expandWithin (pool : MacroPool) (depth : Nat) (line : TokenLine) :
    Expanding (Option (List TokenLine)) :=
  match Invocation.ofTokens? line.tokens with
  | none => return none
  | some call =>
    match pool.find? call.name call.arguments.length with
    | none => return none
    | some m =>
      match depth with
      | 0 => throw (.nestedTooDeeply m.name depthLimit)
      | d + 1 => do
        let serial ← getModify (· + 1)
        let body := m.body.map (m.instantiateLine line.source call serial)
        let expanded ← expandAll (expandWithin pool d) body
        let labels := if call.labels.isEmpty then [] else [⟨line.source, call.labels⟩]
        return some (labels ++ expanded)

/-- Expands a line completely. The result is `none` if the line does not invoke a macro. -/
def expand (pool : MacroPool) (line : TokenLine) :
    Except MacroError (Option (List TokenLine)) × MacroPool :=
  let (result, expansions) := (pool.expandWithin depthLimit line).run.run pool.expansions
  (result, { pool with expansions })

/-- A definition that has been opened and not yet closed, with its body so far, last line first. -/
structure Definition where
  header : TokenLine
  name : String
  params : List String
  body : List TokenLine

/-- The parameters that follow the name in the header of a definition. Commas may be left out. -/
def headerParams? (seen : List String) : List LocatedToken → Option (List String)
  | [] => some seen
  | t :: rest =>
    match t.token with
    | .param p => if seen.contains p then none else headerParams? (seen ++ [p]) rest
    | .comma => headerParams? seen rest
    | _ => none

/-- The definition that a header opens, given the tokens after its directive. -/
def Definition.ofHeader? (header : TokenLine) : List LocatedToken → Option Definition
  | ⟨.name text, _⟩ :: rest =>
    (headerParams? [] (Invocation.withoutParentheses rest)).map fun params =>
      ⟨header, text, params, []⟩
  | _ => none

/-- Closes a definition and adds its macro. -/
def close (pool : MacroPool) (d : Definition) : Except MacroError MacroPool := do
  pool.define (← Macro.ofDefinition d.name d.params d.body.reverse)

/-- A diagnostic about a line. -/
def report (e : MacroError) (line : TokenLine) : Diagnostic :=
  ⟨.expansion e, line.source.file, line.source.number, line.column⟩

/-- The lines of a source unit after expansion, the macros it defines, and what is wrong with
them. -/
structure Expansion where
  lines : List TokenLine
  pool : MacroPool
  diagnostics : Diagnostics

/-- Puts lines and diagnostics before those of the rest of the unit. -/
def Expansion.after (lines : List TokenLine) (diagnostics : Diagnostics) (e : Expansion) :
    Expansion :=
  { e with lines := lines ++ e.lines, diagnostics := diagnostics ++ e.diagnostics }

/-- Expands the lines of a source unit from some line on, where `current` is the definition that
this line is in. Definitions leave no lines, and neither do lines with an error. -/
def expandFrom (pool : MacroPool) (current : Option Definition) : List TokenLine → Expansion
  | [] => ⟨[], pool, (current.map fun d => report (.missingEnd d.name) d.header).toList⟩
  | line :: rest =>
    match line.tokens, current with
    | ⟨.directive "macro", _⟩ :: _, some d =>
      (expandFrom pool (some d) rest).after [] [report .nestedDefinition line]
    | ⟨.directive "macro", _⟩ :: header, none =>
      match Definition.ofHeader? line header with
      | some d => expandFrom pool (some d) rest
      | none => (expandFrom pool none rest).after [] [report .malformedDefinition line]
    | ⟨.directive "end_macro", _⟩ :: _, none =>
      (expandFrom pool none rest).after [] [report .unmatchedEnd line]
    | ⟨.directive "end_macro", _⟩ :: _, some d =>
      match pool.close d with
      | .ok pool => expandFrom pool none rest
      | .error e => (expandFrom pool none rest).after [] [report e d.header]
    | _, some d => expandFrom pool (some { d with body := line :: d.body }) rest
    | _, none =>
      match pool.expand line with
      | (.ok (some lines), pool) => (expandFrom pool none rest).after lines []
      | (.ok none, pool) => (expandFrom pool none rest).after [line] []
      | (.error e, pool) => (expandFrom pool none rest).after [] [report e line]

/-- Collects the macro definitions of a source unit and expands all invocations of macros that are
already defined. -/
def expandUnit (pool : MacroPool) (lines : List TokenLine) : Expansion := expandFrom pool none lines

end MacroPool

end MipsLab
