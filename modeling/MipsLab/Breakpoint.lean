import MipsLab.Registers

set_option autoImplicit false

/-!
# Breakpoints

Conditions on the state of the machine that pause a run.
-/

namespace MipsLab

/-- A condition on a word. The orderings compare unsigned numbers, except for the last two. -/
inductive Comparator where
  | never
  | eq (bound : Word)
  | ne (bound : Word)
  | lt (bound : Word)
  | le (bound : Word)
  | gt (bound : Word)
  | ge (bound : Word)
  | signedLt (bound : Int)
  | signedGt (bound : Int)
  | always
deriving DecidableEq, Repr

namespace Comparator

/-- Whether a word meets the condition. -/
def check (value : Word) : Comparator → Bool
  | never => false
  | eq bound => value == bound
  | ne bound => value != bound
  | lt bound => decide (value < bound)
  | le bound => decide (value ≤ bound)
  | gt bound => decide (bound < value)
  | ge bound => decide (bound ≤ value)
  | signedLt bound => decide (value.toInt < bound)
  | signedGt bound => decide (bound < value.toInt)
  | always => true

/-- The condition as listings show it. -/
def text : Comparator → String
  | never => "never"
  | eq bound => "== " ++ Numeral.hex bound.toNat
  | ne bound => "!= " ++ Numeral.hex bound.toNat
  | lt bound => "< " ++ Numeral.hex bound.toNat
  | le bound => "<= " ++ Numeral.hex bound.toNat
  | gt bound => "> " ++ Numeral.hex bound.toNat
  | ge bound => ">= " ++ Numeral.hex bound.toNat
  | signedLt bound => "< " ++ Numeral.int bound ++ " (signed)"
  | signedGt bound => "> " ++ Numeral.int bound ++ " (signed)"
  | always => "always"

end Comparator

/-- A condition to pause a run on. -/
inductive Breakpoint where
  /-- The instruction at this address is next. -/
  | pc (address : Word)
  /-- A register meets a condition. -/
  | register (r : Register) (condition : Comparator)
  /-- The memory word that holds the byte at an address meets a condition. A word whose page was
  never touched meets none. -/
  | memory (address : Word) (condition : Comparator)
deriving DecidableEq, Repr

namespace Breakpoint

/-- Whether the condition holds. -/
def check (next : Word) (registers : Registers) (mem : Memory) : Breakpoint → Bool
  | pc address => next == address
  | register r condition => condition.check (registers.read r)
  | memory address condition => (mem.peek? address).any fun value => condition.check value

/-- The condition as listings show it. -/
def text : Breakpoint → String
  | pc address => "pc == " ++ Numeral.hex8 address.toNat
  | register r condition => r.text ++ " " ++ condition.text
  | memory address condition =>
    "[" ++ Numeral.hex8 address.toNat ++ "] " ++ condition.text

end Breakpoint

end MipsLab
