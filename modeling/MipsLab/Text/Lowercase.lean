import MipsLab.Text.CharClass
import MipsLab.Text.CharTable.Case
import MipsLab.Text.CharTable.Lower

set_option autoImplicit false

/-!
# Lower case

The lower-case form of a text in any script. Each letter is mapped on its own, with two exceptions:
the dotted capital I becomes two characters, and a capital sigma that ends a word becomes a final
sigma.
-/

namespace MipsLab.Lowercase

open CharTable

/-- The lower-case form of a letter that is mapped on its own. -/
def letter (c : Char) : Char :=
  if CharClass.isAscii c then c.toLower
  else
    match lowerRuns.find? fun r =>
      decide (r.first ≤ c.toNat) && decide (c.toNat ≤ r.last) &&
        (c.toNat - r.first) % r.step == 0 with
    | some r => Char.ofNat (c.toNat + r.shift).toNat
    | none => c

/-- Whether the first character that is not passed over has case. -/
def meetsCased (cs : List Char) : Bool :=
  match cs.find? fun c => !covers caseIgnorableRanges c.toNat with
  | some c => covers casedRanges c.toNat
  | none => false

/-- The lower-case form of a text whose already read part, last character first, is `before`. -/
def lowerFrom (before : List Char) : List Char → List Char
  | [] => []
  | c :: cs =>
    let lowered :=
      if c == 'Σ' then [if meetsCased before && !meetsCased cs then 'ς' else 'σ']
      else if c == 'İ' then ['i', '\u0307']
      else [letter c]
    lowered ++ lowerFrom (c :: before) cs

/-- The lower-case form of a text. -/
def lower (cs : List Char) : List Char := lowerFrom [] cs

end MipsLab.Lowercase
