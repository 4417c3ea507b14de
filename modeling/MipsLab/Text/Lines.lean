set_option autoImplicit false

/-!
# Lines of text

A line ends at a line feed or at the end of the text. A carriage return right before the line feed
belongs to the line break; one at the end of the last, unterminated line belongs to the line.
-/

namespace MipsLab.Lines

/-- The line without the carriage return at its end. -/
def dropReturn (line : List Char) : List Char :=
  if line.getLast? = some '\r' then line.dropLast else line

/-- The first line of a text. -/
def first (cs : List Char) : List Char :=
  let line := cs.takeWhile (· ≠ '\n')
  if line.length < cs.length then dropReturn line else line

/-- The lines of a text whose current line has been read up to `line`, last character first. -/
def splitFrom (line : List Char) : List Char → List (List Char)
  | [] => if line.isEmpty then [] else [line.reverse]
  | c :: cs =>
    if c = '\n' then dropReturn line.reverse :: splitFrom [] cs else splitFrom (c :: line) cs

/-- The lines of a text, without their line breaks. -/
def split (cs : List Char) : List (List Char) := splitFrom [] cs

end MipsLab.Lines
