import MipsLab.Text.Numeral
import MipsLab.Word

set_option autoImplicit false

/-!
# What can be wrong with a program

The causes of diagnostics, by the stage that finds them, with the wording of the message and of the
advice that goes with it.
-/

namespace MipsLab

/-- Why a file could not be read. -/
inductive ReadProblem where
  /-- Nothing is there. -/
  | missing
  /-- The bytes are not UTF-8. -/
  | notText
  /-- A directory is there, or the path goes on behind a file. -/
  | notAFile
  /-- No file can have this path. -/
  | notAPath
deriving DecidableEq, Repr

/-- A file could not be read. -/
structure ReadError where
  path : String
  problem : ReadProblem
deriving DecidableEq, Repr

namespace ReadError

/-- What is wrong. -/
def message (e : ReadError) : String := "could not read " ++ e.path

/-- What to do about it. -/
def help (e : ReadError) : Option String :=
  match e.problem with
  | .missing => some "check that the file exists"
  | .notText => some "source files must be UTF-8 text"
  | .notAFile | .notAPath => none

end ReadError

/-- A part of a line is not a token. -/
inductive LexError where
  | numberOutOfRange
  | badHexDigit
  | badDecimalDigit
  | noHexDigits
  | unclosedString
  | badCharacter
  | badRegister
  | malformedConstant
  | constantRedefined
  | strayCharacter
deriving DecidableEq, Repr

namespace LexError

/-- What is wrong. -/
def message : LexError → String
  | numberOutOfRange => "numeric token does not fit in 32 bits"
  | badHexDigit => "invalid hex literal"
  | badDecimalDigit => "invalid decimal literal"
  | noHexDigits => "invalid hex literal"
  | unclosedString => "unclosed string literal"
  | badCharacter => "invalid character literal"
  | badRegister => "invalid register"
  | malformedConstant => "malformed .eqv directive"
  | constantRedefined => ".eqv name was already defined"
  | strayCharacter => "unrecognized symbol"

/-- What to do about it. -/
def help : LexError → String
  | numberOutOfRange => "integers must be within [-2147483648, 4294967295]"
  | badHexDigit => "a hex literal starts with '0x' and consists of 0-9, A-F"
  | badDecimalDigit => "a decimal literal only consists of digits 0-9"
  | noHexDigits => "there should be hex digits (0-9, A-F) here"
  | unclosedString => "add a quote to the end of the string literal"
  | badCharacter => "a character literal holds exactly one character or escape (e.g., 'a', '\\n')"
  | badRegister => "this must be $0-$31 or a register name such as $t0, $sp, or $ra"
  | malformedConstant => "the form is `.eqv NAME value`"
  | constantRedefined => "rename one of the definitions"
  | strayCharacter => "this char does not occur in any token in MIPS assembly"

end LexError

/-- A macro cannot be defined or expanded. -/
inductive MacroError where
  | duplicate (name : String) (arity : Nat)
  | unmatchedEnd
  | missingEnd (name : String)
  | nestedDefinition
  | malformedDefinition
  | unknownParam (name : String)
  | nestedTooDeeply (name : String) (limit : Nat)
deriving DecidableEq, Repr

namespace MacroError

/-- What is wrong. -/
def message : MacroError → String
  | duplicate name arity =>
    "macro " ++ name ++ " with " ++ Numeral.nat arity ++ " parameter(s) was already defined"
  | unmatchedEnd => ".end_macro without a matching .macro"
  | missingEnd name => "macro " ++ name ++ " is missing .end_macro"
  | nestedDefinition => "cannot define a macro inside of another macro"
  | malformedDefinition => "invalid macro definition"
  | unknownParam name => "unknown macro parameter %" ++ name
  | nestedTooDeeply name _ => "expansion of macro " ++ name ++ " is nested too deeply"

/-- What to do about it. -/
def help : MacroError → Option String
  | duplicate _ _ => some "rename one of the macros or change its parameter count"
  | unmatchedEnd => none
  | missingEnd _ => some "add .end_macro after the last line of the macro body"
  | nestedDefinition => some "close the enclosing macro with .end_macro first"
  | malformedDefinition => some "the form is `.macro name %param1, %param2`"
  | unknownParam _ => some "parameters must be listed on the .macro line"
  | nestedTooDeeply _ limit =>
    some ("macro expansion may be at most " ++ Numeral.nat limit ++
      " levels deep; check for a macro that invokes itself")

end MacroError

/-- A label is defined twice or nowhere. -/
inductive SymbolError where
  | duplicate (name : String) (firstLine secondLine : Nat)
  | undefined (name : String)
  | undefinedGlobal (name : String)
  | duplicateGlobal (name : String) (firstFile : String)
deriving DecidableEq, Repr

namespace SymbolError

/-- What is wrong. -/
def message : SymbolError → String
  | duplicate name firstLine secondLine =>
    "label " ++ name ++ " was defined multiple times (lines " ++ Numeral.nat firstLine ++ " and " ++
      Numeral.nat secondLine ++ ")"
  | undefined name => "symbol " ++ name ++ " is undefined"
  | undefinedGlobal name =>
    "symbol " ++ name ++ " was declared global but is not defined in this file"
  | duplicateGlobal name firstFile =>
    "global symbol " ++ name ++ " was already defined in " ++ firstFile

/-- What to do about it. -/
def help : SymbolError → String
  | duplicate _ _ _ => "labels must be unique within a file, try renaming one of the labels"
  | undefined _ => "check the spelling, or declare the label .globl in the file that defines it"
  | undefinedGlobal _ => ".globl must be in the same file as the label's definition"
  | duplicateGlobal _ _ => "only one file may export a given global label"

end SymbolError

/-- A statement has no encoding. -/
inductive EncodeError where
  | unknownInstruction (mnemonic : String)
  | unknownDirective (name : String)
  | unsupportedDirective (name : String)
  | invalidOperands (mnemonic : String)
  | extendedNotAllowed (mnemonic : String)
  | immediateOutOfRange (mnemonic : String) (value : Int)
  | branchOutOfRange (target : String)
  | jumpOutOfRange (target : String)
  | instructionInData
  | dataInText
  | invalidArguments (directive : String)
  | unexpectedToken
  | addressConflict (address : Word)
  | addressOverflow (address : Word)
deriving DecidableEq, Repr

namespace EncodeError

/-- What is wrong. -/
def message : EncodeError → String
  | unknownInstruction mnemonic => "unknown instruction " ++ mnemonic
  | unknownDirective name => "unknown directive ." ++ name
  | unsupportedDirective name => "directive ." ++ name ++ " is not supported"
  | invalidOperands mnemonic => "invalid operands for " ++ mnemonic
  | extendedNotAllowed mnemonic =>
    mnemonic ++ " is an extended (pseudo) instruction and extended instructions are disabled"
  | immediateOutOfRange mnemonic value =>
    "immediate " ++ Numeral.int value ++ " is out of range for " ++ mnemonic
  | branchOutOfRange target => "branch target " ++ target ++ " is out of range"
  | jumpOutOfRange target => "jump target " ++ target ++ " is out of range"
  | instructionInData => "instructions cannot be placed in a data segment"
  | dataInText => "data directives cannot be placed in a text segment"
  | invalidArguments directive => "invalid arguments for ." ++ directive
  | unexpectedToken => "unexpected token"
  | addressConflict address =>
    "address " ++ Numeral.hex8 address.toNat ++ " was written more than once"
  | addressOverflow address =>
    "data at " ++ Numeral.hex8 address.toNat ++ " runs past the end of memory"

/-- What to do about it. -/
def help : EncodeError → Option String
  | extendedNotAllowed _ =>
    some "enable extended instructions, or write out the basic instructions"
  | immediateOutOfRange _ _ => some "immediates must fit in 16 bits (shift amounts in 5 bits)"
  | branchOutOfRange _ =>
    some "branches can only reach 32768 instructions in either direction; try a jump"
  | jumpOutOfRange _ => some "jumps can only reach the same 256 MiB region; try jr"
  | instructionInData => some "add .text before this instruction"
  | dataInText => some "add .data before this directive"
  | addressConflict _ => some "try moving the starting address of one of these segments"
  | addressOverflow _ => some "try moving the starting address of this segment down"
  | unsupportedDirective _ =>
    some "this assembler does not support floating point or file inclusion"
  | unknownInstruction _ | unknownDirective _ | invalidOperands _ | invalidArguments _
  | unexpectedToken => none

end EncodeError

/-- A statement is accepted, but it may not do what it seems to do. -/
inductive Warning where
  | setIgnored
  | valueTruncated (directive : String) (value : Int)
  | emptySegment (directive : String)
deriving DecidableEq, Repr

namespace Warning

/-- What is wrong. -/
def message : Warning → String
  | setIgnored => ".set is ignored"
  | valueTruncated directive value =>
    "value " ++ Numeral.int value ++ " was truncated to fit ." ++ directive
  | emptySegment directive => "." ++ directive ++ " has no effect"

/-- What to do about it. -/
def help : Warning → Option String
  | setIgnored => none
  | valueTruncated _ _ => some "use .word for values which need 32 bits"
  | emptySegment _ => some "remove this directive"

end Warning

/-- The cause of a diagnostic. -/
inductive Cause where
  | reading (e : ReadError)
  | lexical (e : LexError)
  | expansion (e : MacroError)
  | symbol (e : SymbolError)
  | encoding (e : EncodeError)
  | warning (w : Warning)
deriving DecidableEq, Repr

namespace Cause

/-- What is wrong. -/
def message : Cause → String
  | reading e => e.message
  | lexical e => e.message
  | expansion e => e.message
  | symbol e => e.message
  | encoding e => e.message
  | warning w => w.message

/-- What to do about it. -/
def help : Cause → Option String
  | reading e => e.help
  | lexical e => some e.help
  | expansion e => e.help
  | symbol e => some e.help
  | encoding e => e.help
  | warning w => w.help

/-- Whether the cause is a warning, which by itself does not keep a program from being
assembled. -/
def isWarning : Cause → Bool
  | warning _ => true
  | reading _ | lexical _ | expansion _ | symbol _ | encoding _ => false

end Cause

end MipsLab
