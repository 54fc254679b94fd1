/-
Files, as far as the interpreter reads them and lines of the shell change them.
-/

import ArrayCommand.Content

namespace ArrayCommand

/-- What a path leads to. -/
inductive Found where
  | file (content : Content)
  | directory
  | missing
deriving DecidableEq, Repr

/-- The files under the current directory, and directories beside those that the files are in. -/
structure Files where
  entries : List (String × Content) := []
  directories : List (List String) := []
  /-- Whether the directory as a whole has been looked at, and not only single paths. -/
  surveyed : Bool := false
  /-- Paths that lines of the shell have looked for in vain. -/
  sought : List String := []
deriving DecidableEq, Repr

namespace Files

def missingText : String := "No such file or directory (os error 2)"

def crossedText : String := "Not a directory (os error 20)"

def directoryText : String := "Is a directory (os error 21)"

/-! ### Paths -/

def parts (path : String) : List String :=
  (path.splitOn "/").filter fun part => part != "" && part != "."

def isAbsolute (path : String) : Bool := path.toList.head? == some '/'

def samePlace (p q : String) : Bool := isAbsolute p == isAbsolute q && parts p == parts q

def above (p q : String) : Bool := isAbsolute p == isAbsolute q && (parts p).isPrefixOf (parts q)

def below (files : Files) : List (List String × Content) :=
  (files.entries.filter fun entry => !isAbsolute entry.1).map fun entry => (parts entry.1, entry.2)

def isDirectory (files : Files) (place : List String) : Bool :=
  place.isEmpty || files.directories.any (place.isPrefixOf ·) ||
    files.below.any fun entry => place.isPrefixOf entry.1 && place.length < entry.1.length

def at' (files : Files) (place : List String) : Found :=
  match files.below.find? fun entry => entry.1 == place with
  | some entry => .file entry.2
  | none => if files.isDirectory place then .directory else .missing

/-- Where parts lead from a directory.  Only a directory leads further, and two dots lead one step
up, though not above the current directory. -/
def walk (files : Files) : (place : List String) → List String → Option (List String)
  | place, [] => some place
  | place, part :: rest =>
    if part = ".." then if place.isEmpty then none else walk files place.dropLast rest
    else if rest.isEmpty || files.isDirectory (place ++ [part]) then
      walk files (place ++ [part]) rest
    else none

def findAbsolute (files : Files) (path : String) : Found :=
  match files.entries.find? fun entry => samePlace path entry.1 with
  | some entry => .file entry.2
  | none =>
    if (parts path).all (· == "..") then .directory
    else if files.entries.any fun entry => above path entry.1 then .directory
    else .missing

/-- What a path leads to.  The current directory, the root and the directories that hold files are
there as directories. -/
def find (files : Files) (path : String) : Found :=
  if path.isEmpty then .missing
  else if isAbsolute path then files.findAbsolute path
  else
    match files.walk [] (parts path) with
    | some place => files.at' place
    | none => if (parts path).all (· == "..") then .directory else .missing

/-- Whether a path goes on behind a file, if only with a slash. -/
def crosses (files : Files) (path : String) : Bool :=
  let words := path.splitOn "/"
  (List.range (words.length - 1)).any fun n =>
    match files.find ("/".intercalate (words.take (n + 1))) with
    | .file _ => true
    | _ => false

/-! ### Directories -/

def sorted (names : List String) : List String :=
  ((names.mergeSort fun a b => a ≤ b).foldl (fun acc name =>
    if acc.head? == some name then acc else name :: acc) []).reverse

def names (files : Files) (place : List String) : List String :=
  sorted (((files.below.map Prod.fst) ++ files.directories).filterMap fun path =>
    if place.isPrefixOf path then path[place.length]? else none)

/-! ### Changes -/

def put (files : Files) (place : List String) (content : Content) : Files :=
  let kept := files.entries.filter fun entry => isAbsolute entry.1 || parts entry.1 != place
  { files with entries := kept ++ [("/".intercalate place, content)] }

def makeDirectory (files : Files) (place : List String) : Files :=
  { files with directories := place :: files.directories }

def contentAt (files : Files) (place : List String) : Content :=
  match files.at' place with
  | .file content => content
  | _ => []

/-! ### Paths that were looked for in vain -/

def wanted? (detail : String) : Option String :=
  let ending := (": " ++ missingText).toList
  let cs := detail.toList
  if ending.isSuffixOf cs then some (String.ofList (cs.take (cs.length - ending.length))) else none

end Files

end ArrayCommand
