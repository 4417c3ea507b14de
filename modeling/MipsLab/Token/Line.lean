import MipsLab.SourceLine
import MipsLab.Token.Lexer

set_option autoImplicit false

/-!
# Lines of tokens

A source line becomes a list of tokens without comments. A line that starts with `.eqv` defines a
constant: it becomes an empty list, and on later lines the tokens of its value stand in place of
its name.
-/

namespace MipsLab

/-- The tokens of a line, with the source line that diagnostics about them point at. -/
structure TokenLine where
  source : SourceLine
  tokens : List LocatedToken
deriving DecidableEq, Repr

/-- The column of the first token, or zero if there is none. -/
def TokenLine.column (line : TokenLine) : Nat :=
  match line.tokens with
  | t :: _ => t.span.start + 1
  | [] => 0

/-- The labels at the start of a line, each with its colon, and the tokens after them. -/
def splitLabels : List LocatedToken → List LocatedToken × List LocatedToken
  | ⟨.name text, span⟩ :: ⟨.colon, colonSpan⟩ :: rest =>
    let (labels, others) := splitLabels rest
    (⟨.name text, span⟩ :: ⟨.colon, colonSpan⟩ :: labels, others)
  | tokens => ([], tokens)

/-- The names among some tokens, with their places. -/
def namesIn (tokens : List LocatedToken) : List (String × Span) :=
  tokens.filterMap fun t =>
    match t.token with
    | .name text => some (text, t.span)
    | _ => none

/-- The constants defined so far, by name. -/
abbrev Constants := List (String × List Token)

namespace Constants

/-- The tokens that stand for a token: the value of a constant for its name, and any other token
for itself. -/
def replace (constants : Constants) (t : Token) : List Token :=
  match t with
  | .name text => (constants.lookup text).getD [t]
  | _ => [t]

/-- Replaces the constants in a list of tokens. The tokens of a value stand where its name
stood. -/
def substitute (constants : Constants) (tokens : List LocatedToken) : List LocatedToken :=
  tokens.flatMap fun t => (constants.replace t.token).map fun u => ⟨u, t.span⟩

/-- The errors of a line, each with its place. -/
abbrev LineErrors := List (LexError × Span)

/-- Adds the definition in the tokens after an `.eqv` directive. The value may refer to constants
defined earlier. -/
def define (constants : Constants) (directive : Span) :
    List LocatedToken → Except LineErrors Constants
  | ⟨.name text, span⟩ :: value@(_ :: _) =>
    if (constants.lookup text).isSome then .error [(.constantRedefined, span)]
    else .ok ((text, value.flatMap fun t => constants.replace t.token) :: constants)
  | _ => .error [(.malformedConstant, directive)]

end Constants

namespace TokenLine

/-- The tokens of a text without its comments, or all errors in it. -/
def tokensOf (text : List Char) : Except Constants.LineErrors (List LocatedToken) :=
  let lexemes := Lexer.lex text
  let errors := lexemes.filterMap fun (result, span) =>
    match result with
    | .error e => some (e, span)
    | .ok _ => none
  let tokens := lexemes.filterMap fun (result, span) =>
    match result with
    | .ok .comment | .error _ => none
    | .ok t => some ⟨t, span⟩
  if errors.isEmpty then .ok tokens else .error errors

/-- The tokens of a source line, after the constants defined by earlier lines were put in, and the
constants defined from there on. -/
def read (constants : Constants) (source : SourceLine) :
    Except Constants.LineErrors (TokenLine × Constants) := do
  match ← tokensOf source.text.toList with
  | ⟨.directive "eqv", span⟩ :: definition =>
    return (⟨source, []⟩, ← constants.define span definition)
  | tokens => return (⟨source, constants.substitute tokens⟩, constants)

end TokenLine

end MipsLab
