import Std.Data.TreeMap.Basic
import MipsLab.Diagnostic.Cause

set_option autoImplicit false

/-!
# Symbols

The addresses of labels. Each source unit has a table of its own labels, and one more table holds
the labels that all units see. A table has at most one symbol of a name, and it lists its symbols in
the order of their names.
-/

namespace MipsLab

/-- Who sees a symbol. -/
inductive SymbolKind where
  /-- The unit that defines it. -/
  | internal
  /-- Every unit. -/
  | global
deriving DecidableEq, Repr

/-- A label with its address and the line that defines it. -/
structure Symbol where
  address : Word
  file : String
  line : Nat
  kind : SymbolKind
deriving DecidableEq, Repr

/-- The symbols of a unit, or those that all units see. -/
structure SymbolTable where
  /-- The unit's file, or the name of the table that all units see. -/
  scope : String
  symbols : Std.TreeMap String Symbol

namespace SymbolTable

/-- The table without symbols. -/
def empty (scope : String) : SymbolTable := ⟨scope, ∅⟩

/-- The symbol of a name. -/
def find? (t : SymbolTable) (name : String) : Option Symbol := t.symbols[name]?

/-- The address of a name. -/
def addressOf? (t : SymbolTable) (name : String) : Option Word := (t.find? name).map (·.address)

/-- Puts in a symbol. -/
def insert (t : SymbolTable) (name : String) (s : Symbol) : SymbolTable :=
  { t with symbols := t.symbols.insert name s }

/-- Takes out the symbol of a name. -/
def erase (t : SymbolTable) (name : String) : SymbolTable :=
  { t with symbols := t.symbols.erase name }

/-- Adds a symbol whose name is new within a file. -/
def add (t : SymbolTable) (name : String) (s : Symbol) : Except SymbolError SymbolTable :=
  match t.find? name with
  | some first => .error (.duplicate name first.line s.line)
  | none => .ok (t.insert name s)

/-- Adds a symbol whose name no other file has made visible to all units. -/
def addGlobal (t : SymbolTable) (name : String) (s : Symbol) : Except SymbolError SymbolTable :=
  match t.find? name with
  | some first => .error (.duplicateGlobal name first.file)
  | none => .ok (t.insert name s)

/-- All symbols in the order of their names. -/
def toList (t : SymbolTable) : List (String × Symbol) := t.symbols.toList

/-- The number of symbols. -/
def size (t : SymbolTable) : Nat := t.symbols.size

/-- Whether there are no symbols. -/
def isEmpty (t : SymbolTable) : Bool := t.symbols.isEmpty

/-- The name at an address, the first in the order of names if there are several. -/
def nameAt? (t : SymbolTable) (address : Word) : Option String :=
  (t.toList.find? fun (_, s) => s.address == address).map (·.1)

end SymbolTable

end MipsLab
