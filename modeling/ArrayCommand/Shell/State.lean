/-
The state of the shell: variables, streams, and the files it works on.

A stream is tied to a channel.  Several streams may share one channel, and then a position in a file
moves for all of them.
-/

import ArrayCommand.Files
import ArrayCommand.Shell.Script
import ArrayCommand.Text.Lossy

namespace ArrayCommand.Shell

/-- What a stream is tied to: nothing, a directory, a text to be read, a text that grows, or a file
from a position on. -/
inductive Channel where
  | nothing
  | directory
  | supply (rest : List Char)
  | collect (text : String)
  | file (place : List String) (position : Nat) (append reads writes : Bool)
deriving DecidableEq, Repr

structure Variable where
  value : Option String := none
  exported : Bool := false
deriving DecidableEq, Repr

structure State where
  vars : List (String × Variable) := []
  functions : List (String × Node) := []
  params : List String := []
  name : String := "sh"
  status : Nat := 0
  options : List Char := []
  streams : List (Nat × Nat) := []
  speaker : Option String := none
  files : Files := {}
  channels : Array Channel := #[]
  inserted : Option Nat := none
  loops : Nat := 0
  /-- Whether the status of a command is looked at, so that a failure is not an error. -/
  tested : Bool := false

/-- Why commands are left early: the end of the shell, an error, a return, or a loop that is left or
goes on; or no fuel is left. -/
inductive Jump where
  | exit
  | error
  | leave
  | stop (loops : Nat)
  | next (loops : Nat)
  | exhausted
deriving DecidableEq, Repr

abbrev ShellM := EStateM Jump State

/-! ### Variables -/

namespace State

def lookup (s : State) (name : String) : Option String := (s.vars.lookup name).bind Variable.value

def setVar (s : State) (name : String) (var : Variable) : State :=
  if (s.vars.lookup name).isSome then
    { s with vars := s.vars.map fun entry => if entry.1 == name then (name, var) else entry }
  else { s with vars := s.vars ++ [(name, var)] }

def dropVar (s : State) (name : String) : State :=
  { s with vars := s.vars.filter fun entry => entry.1 != name }

def has (s : State) (option : Char) : Bool := s.options.contains option

end State

/-! ### Places -/

def rootParts : List String := ["work"]

def pathOf (parts : List String) : String := "/" ++ "/".intercalate parts

def normal : (done : List String) → List String → List String
  | done, [] => done
  | done, part :: rest => normal (if part = ".." then done.dropLast else done ++ [part]) rest

inductive Place where
  | below (parts : List String)
  | elsewhere (parts : List String)
deriving DecidableEq, Repr

def knownDirectories : List (List String) :=
  [[], ["bin"], ["boot"], ["dev"], ["etc"], ["home"], ["lib"], ["mnt"], ["opt"], ["proc"], ["root"],
    ["run"], ["sbin"], ["srv"], ["sys"], ["tmp"], ["usr"], ["usr", "bin"], ["usr", "lib"],
    ["usr", "local"], ["usr", "share"], ["var"], ["var", "tmp"]]

def locate (path : String) : Place :=
  let text := Text.ofBytes path
  let parts := Files.parts text
  let parts := normal [] (if Files.isAbsolute text then parts else rootParts ++ parts)
  if rootParts.isPrefixOf parts then .below (parts.drop rootParts.length) else .elsewhere parts

namespace State

def find (s : State) (path : String) : Found :=
  if path.isEmpty then .missing
  else
    match locate path with
    | .below place =>
      match s.files.at' place with
      | .file content => if path.endsWith "/" then .missing else .file content
      | found => found
    | .elsewhere ["dev", "null"] => .file []
    | .elsewhere parts =>
      match s.files.findAbsolute (pathOf parts) with
      | .file content => .file content
      | _ => if knownDirectories.contains parts then .directory else .missing

def isDirectory (s : State) (path : String) : Bool := s.find path == .directory

def crossesFile (s : State) (path : String) : Bool :=
  match locate path with
  | .below place =>
    (List.range place.length).any fun n =>
      match s.files.at' (place.take n) with
      | .file _ => true
      | _ => false
  | .elsewhere _ => false

end State

def whyMissing (s : State) (path : String) : String :=
  if s.crossesFile path || (path.endsWith "/" && !path.isEmpty &&
      s.crossesFile (path ++ "x")) then "Not a directory"
  else "No such file or directory"

/-! ### Streams -/

def channelOf (fd : Nat) : ShellM (Option (Nat × Channel)) := do
  let s ← get
  match s.streams.lookup fd with
  | some index => return (s.channels[index]?).map fun c => (index, c)
  | none => return none

def setChannel (index : Nat) (c : Channel) : ShellM Unit :=
  modify fun s => { s with channels := s.channels.setIfInBounds index c }

def addChannel (c : Channel) : ShellM Nat := do
  let s ← get
  set { s with channels := s.channels.push c }
  return s.channels.size

def tie (fd index : Nat) : ShellM Unit :=
  modify fun s => { s with streams := (fd, index) :: s.streams.filter fun entry => entry.1 != fd }

def untie (fd : Nat) : ShellM Unit :=
  modify fun s => { s with streams := s.streams.filter fun entry => entry.1 != fd }

def contentOf (files : Files) (place : List String) : List Char :=
  match files.at' place with
  | .file content => content.map fun b => Char.ofNat b.toNat
  | _ => []

def overwrite (old : List Char) (position : Nat) (text : List Char) : List Char :=
  let start := old.take position
  start ++ List.replicate (position - start.length) (Char.ofNat 0) ++ text ++
    old.drop (position + text.length)

def write (fd : Nat) (text : String) : ShellM Bool := do
  match ← channelOf fd with
  | some (_, .nothing) => return true
  | some (index, .collect old) =>
    -- the channel is emptied first, so that the text grows in place
    setChannel index .nothing
    setChannel index (.collect (old ++ text))
    return true
  | some (index, .file place position append reads true) =>
    if text.isEmpty then return true
    let old := contentOf (← get).files place
    let position := if append then old.length else position
    let new := overwrite old position text.toList
    modify fun s => { s with files := s.files.put place (Text.toBytes new) }
    setChannel index (.file place (position + text.length) append reads true)
    return true
  | _ => return false

def put (text : String) : ShellM Unit := do
  let _ ← write 1 text

def putError (text : String) : ShellM Unit := do
  let _ ← write 2 text

/-- What is left to read from a stream, which is read thereby; nothing if it cannot be. -/
def readAll (fd : Nat) : ShellM (Option (List Char)) := do
  match ← channelOf fd with
  | some (_, .nothing) => return some []
  | some (index, .supply rest) =>
    setChannel index (.supply [])
    return some rest
  | some (index, .file place position append true writes) =>
    let text := contentOf (← get).files place
    setChannel index (.file place (max position text.length) append true writes)
    return some (text.drop position)
  | _ => return none

def unread (fd : Nat) (text : List Char) : ShellM Unit := do
  match ← channelOf fd with
  | some (index, .supply rest) => setChannel index (.supply (text ++ rest))
  | some (index, .file place position append reads writes) =>
    setChannel index (.file place (position - text.length) append reads writes)
  | _ => return ()

def readLine (fd : Nat) : ShellM (Option (List Char)) := do
  match ← readAll fd with
  | none => return none
  | some text =>
    let line := text.takeWhile (· != '\n')
    let rest := text.dropWhile (· != '\n')
    unread fd (rest.drop 1)
    return some (line ++ rest.take 1)

/-! ### Messages -/

def warn (text : String) : ShellM Unit := do
  let s ← get
  let speaker :=
    match s.speaker with
    | some name => name ++ ": "
    | none => ""
  putError (s.name ++ ": 1: " ++ speaker ++ text ++ "\n")

def setStatus (status : Nat) : ShellM Unit := modify fun s => { s with status }

def fail {α : Type} (text : String) (status : Nat) : ShellM α := do
  warn text
  setStatus status
  throw .error

def assignVar (name value : String) : ShellM Unit := do
  let s ← get
  let old := (s.vars.lookup name).getD {}
  let exported := old.exported || s.has 'a'
  set (s.setVar name { old with value := some value, exported })

def miss (path : String) : ShellM Unit :=
  modify fun s => { s with files := { s.files with sought := Text.ofBytes path :: s.files.sought } }

/-! ### Running apart -/

def withStreams {α : Type} (step : ShellM α) : ShellM α := fun s =>
  match step s with
  | .ok a s' => .ok a { s' with streams := s.streams }
  | .error jump s' => .error jump { s' with streams := s.streams }

/-- What a subshell leaves behind: files, what was written, and its status. -/
def State.rejoin (parent child : State) : State :=
  { parent with files := child.files, channels := child.channels, status := child.status }

/-- Run a step in a shell of its own, of which only files, output and the status are left. -/
def apart (step : ShellM Unit) : ShellM Unit := fun s =>
  match step s with
  | .ok () s' => .ok () (s.rejoin s')
  | .error .exhausted s' => .error .exhausted s'
  | .error _ s' => .ok () (s.rejoin s')

def collecting (step : ShellM Unit) : ShellM String := do
  let index ← addChannel (.collect "")
  withStreams do
    tie 1 index
    step
  match (← get).channels[index]? with
  | some (.collect text) => return text
  | _ => return ""

end ArrayCommand.Shell
