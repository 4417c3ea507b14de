import MipsLab.SourceUnit

set_option autoImplicit false

/-!
# Source files

The order in which the files of a program are assembled, and the units that their contents give.
The files are those of the working directory and the directories below it.
-/

namespace MipsLab

/-- The names without those that occur earlier in the list. -/
def distinctNames (names : List String) : List String :=
  names.foldl (fun order name => if order.contains name then order else order ++ [name]) []

/-- The order of assembly: the exception handler, if there is one, then the lead file, then the
others in the order given. -/
def assemblyOrder (names : List String) (lead : String) (handler : Option String) : List String :=
  distinctNames ((handler.filter (· ≠ "")).toList ++ lead :: names)

/-- What a path names. -/
inductive FileEntry where
  | directory
  | file (bytes : List Byte)
deriving DecidableEq, Repr

/-- The entries below the working directory, each by the names on the way to it. Of two entries with
one way the first counts. -/
abbrev FileTree := List (List String × FileEntry)

namespace FileTree

/-- Where two dots lead from a place. A way out of the working directory is two dots for each
directory passed. -/
def back (way : List String) : List String :=
  if way.all (· == "..") then way ++ [".."] else way.dropLast

/-- Where a part of a path leads from a place. An empty part and a dot stay there. -/
def forward (way : List String) (part : String) : List String :=
  if part = "" ∨ part = "." then way
  else if part = ".." then back way
  else way ++ [part]

/-- The entry at the end of a way. The empty way leads to the working directory itself, and the
directories that it lies in are known to be there. -/
def entry? (tree : FileTree) (way : List String) : Option FileEntry :=
  if way.all (· == "..") then some .directory else tree.lookup way

/-- The longest name that a directory can hold, in bytes. -/
def nameLimit : Nat := 255

/-- The longest path that can be opened, in bytes. -/
def pathLimit : Nat := 4095

/-- Follows the parts of a path. Only a directory can be followed further. -/
def follow (tree : FileTree) (way : List String) : List String → Except ReadProblem FileEntry
  | [] =>
    match tree.entry? way with
    | some entry => .ok entry
    | none => .error .missing
  | part :: parts =>
    match tree.entry? way with
    | none => .error .missing
    | some (.file _) => .error .notAFile
    | some .directory =>
      if nameLimit < part.utf8ByteSize then .error .notAPath
      else tree.follow (forward way part) parts

/-- The parts of a path between its slashes. -/
def splitPath : List Char → List String
  | [] => [""]
  | c :: cs =>
    if c = '/' then "" :: splitPath cs
    else
      match splitPath cs with
      | part :: parts => (String.singleton c ++ part) :: parts
      | [] => [String.singleton c]

/-- The way that the parts of a path lead, whatever is there. -/
def wayOf (parts : List String) : List String := parts.foldl forward []

/-- Adds a directory, and the directories on the way to it. -/
def addDirectory (tree : FileTree) (path : String) : FileTree :=
  let parts := splitPath path.toList
  (List.range parts.length).map (fun n => (wayOf (parts.take (n + 1)), .directory)) ++ tree

/-- Adds a file to a directory that is there. It takes the place of a file that was there. -/
def addFile (tree : FileTree) (path : String) (bytes : List Byte) : FileTree :=
  (wayOf (splitPath path.toList), .file bytes) :: tree

/-- Whether a text can be a path at all: it is not too long and holds no zero character. -/
def isPath (path : String) : Bool :=
  decide (path.utf8ByteSize ≤ pathLimit) && !path.toList.contains '\x00'

/-- Where a path starts: in the working directory, or outside of it if it starts with a slash. -/
def startOf (path : String) : List String := if path.toList.head? = some '/' then [".."] else []

/-- The entry that a path names. -/
def find (tree : FileTree) (path : String) : Except ReadProblem FileEntry :=
  if path = "" then .error .missing
  else if isPath path then tree.follow (startOf path) (splitPath path.toList)
  else .error .notAPath

/-- The text of the file at a path. -/
def read (tree : FileTree) (path : String) : Except ReadProblem String :=
  match tree.find path with
  | .error e => .error e
  | .ok .directory => .error .notAFile
  | .ok (.file bytes) =>
    match Utf8.decode? bytes with
    | some chars => .ok (String.ofList chars)
    | none => .error .notText

/-- The unit of the file at a path. -/
def unit (tree : FileTree) (path : String) : Except Diagnostics SourceUnit :=
  match tree.read path with
  | .ok text => .ok (.ofText path text)
  | .error problem => .error [⟨.reading ⟨path, problem⟩, path, 0, 0⟩]

/-- The unit of the file at a path, with its tokens. -/
def tokenizedUnit (tree : FileTree) (path : String) : Except Diagnostics SourceUnit := do
  match (← tree.unit path).tokenize with
  | (u, []) => return u
  | (_, errors) => .error errors

/-- The units of some paths in order, or everything that is wrong with them. -/
def units (tree : FileTree) (paths : List String) : Except Diagnostics (List SourceUnit) :=
  let results := paths.map tree.tokenizedUnit
  let errors := results.flatMap fun
    | .ok _ => []
    | .error errors => errors
  if errors.isEmpty then
    .ok (results.filterMap fun
      | .ok u => some u
      | .error _ => none)
  else .error errors

end FileTree

end MipsLab
