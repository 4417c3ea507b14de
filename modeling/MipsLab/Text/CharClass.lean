import MipsLab.Text.CharTable.Words
import MipsLab.Text.CharTable.Hidden

set_option autoImplicit false

/-!
# Classes of characters

The classes that the tokens of assembly text are made of. Each is a test on ASCII characters,
completed by a table for the other ones.
-/

namespace MipsLab

namespace CharTable

/-- Whether a code point lies in one of the given inclusive ranges. -/
def covers (ranges : List (Nat × Nat)) (n : Nat) : Bool :=
  ranges.any fun (lo, hi) => decide (lo ≤ n) && decide (n ≤ hi)

end CharTable

namespace CharClass

/-- Whether `c` is an ASCII character. -/
def isAscii (c : Char) : Bool := decide (c.toNat < 128)

/-- A decimal digit of any script. -/
def isDigit (c : Char) : Bool :=
  if isAscii c then c.isDigit else CharTable.covers CharTable.digitRanges c.toNat

/-- A character that may stand inside a word: a letter, mark, decimal digit, connector or joiner
of any script. -/
def isWord (c : Char) : Bool :=
  if isAscii c then c.isAlphanum || c == '_' else CharTable.covers CharTable.wordRanges c.toNat

/-- A character that a name may start with: an ASCII letter or an underscore. -/
def isNameStart (c : Char) : Bool := c.isAlpha || c == '_'

/-- A character that a name may go on with: a word character or a dot. -/
def isNameRest (c : Char) : Bool := isWord c || c == '.'

/-- A character that separates tokens and is not one: a space, tab, carriage return or form
feed. -/
def isGap (c : Char) : Bool := c == ' ' || c == '\t' || c == '\r' || c == '\x0c'

/-- White space of any script. -/
def isSpace (c : Char) : Bool :=
  CharTable.covers
    [(0x09, 0x0D), (0x20, 0x20), (0x85, 0x85), (0xA0, 0xA0), (0x1680, 0x1680), (0x2000, 0x200A),
      (0x2028, 0x2029), (0x202F, 0x202F), (0x205F, 0x205F), (0x3000, 0x3000)]
    c.toNat

/-- A character that has no glyph of its own, so that a quoted text has to write its number. -/
def isHidden (c : Char) : Bool :=
  if isAscii c then decide (c.toNat < 32) || c.toNat == 127
  else CharTable.covers CharTable.hiddenRanges c.toNat

end CharClass

end MipsLab
