import MipsLab.Text.Numeral
import MipsLab.Word

set_option autoImplicit false

/-!
# Faults

Why an instruction could not be executed, with the wording of the message and of the advice that
goes with it.
-/

namespace MipsLab

/-- Why an instruction could not be executed. -/
inductive FaultCause where
  | invalidFetch (address : Word)
  | misaligned (address : Word)
  | overflow
  | illegalInstruction (word : Word)
  | brk (code : Nat)
  | invalidService (number : Word)
  | invalidInput
  | notLoaded
deriving DecidableEq, Repr

namespace FaultCause

/-- What went wrong. -/
def message : FaultCause → String
  | invalidFetch address => "cannot fetch instruction at " ++ Numeral.hex8 address.toNat
  | misaligned address => "address " ++ Numeral.hex8 address.toNat ++ " is not aligned"
  | overflow => "arithmetic overflow"
  | illegalInstruction word => "illegal instruction " ++ Numeral.hex8 word.toNat
  | brk code => "break instruction executed (code " ++ Numeral.nat code ++ ")"
  | invalidService number => "invalid or unimplemented syscall " ++ Numeral.nat number.toNat
  | invalidInput => "invalid or missing console input"
  | notLoaded => "no program is loaded"

/-- What to do about it. -/
def help : FaultCause → Option String
  | invalidFetch _ => some "check that every jump and branch targets code"
  | misaligned _ =>
    some "words must be accessed at multiples of 4 and halfwords at multiples of 2"
  | overflow => some "use the unsigned form (e.g., `addu`) to allow wrapping"
  | illegalInstruction _ => none
  | brk _ => none
  | invalidService _ =>
    some "supported services are 1, 4, 5, 8, 10, 11, 12, 17, 34, 35, and 36"
  | invalidInput => some "integer input must be a decimal number on its own line"
  | notLoaded => some "assemble a program and call `Simulator::load_program` first"

/-- Whether there was an instruction word when the fault occurred. -/
def hasInstruction : FaultCause → Bool
  | invalidFetch _ | notLoaded => false
  | _ => true

end FaultCause

/-- A fault with the address of the instruction and, if there is one, its word. -/
structure Fault where
  cause : FaultCause
  pc : Word
  instruction : Option Word
deriving DecidableEq, Repr

/-- The fault on one line. -/
def Fault.message (f : Fault) : String :=
  f.cause.message ++ " (pc = " ++ Numeral.hex8 f.pc.toNat ++
    (match f.instruction with
      | some word => ", instruction = " ++ Numeral.hex8 word.toNat
      | none => "") ++ ")"

end MipsLab
