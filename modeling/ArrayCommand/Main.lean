/-
The program: a call of the command language from a shell.

Everything is decided by `CommandLine.run`, which is given the files it may read.  A call that looks
for a file in vain names it, and is run again with the file once it has been read; so is one that
looks at the current directory as a whole.  A call that lacks nothing more is carried out, and the
files it has changed are written.
-/

import ArrayCommand.CommandLine
import ArrayCommand.Simulated
import Std.Time.Format

namespace ArrayCommand.Calling

open scoped ArrayCommand.Simulated

def readFile (path : String) : IO (Option Content) := do
  try
    let bytes ← IO.FS.readBinFile path
    return some bytes.toList
  catch _ => return none

partial def readAll (stream : IO.FS.Stream) (bytes : ByteArray) : IO ByteArray := do
  let more ← stream.read 65536
  if more.isEmpty then return bytes
  readAll stream (bytes ++ more)

def clock : IO TimeStamp := do
  let now ← Std.Time.PlainDateTime.now
  return {
    year := now.date.year.toInt.toNat
    month := now.date.month.toInt.toNat
    day := now.date.day.toInt.toNat
    hour := now.time.hour.toInt.toNat
    minute := now.time.minute.toInt.toNat
    second := now.time.second.toInt.toNat }

def userSettings : IO Files := do
  match ← IO.getEnv "HOME" with
  | none => return {}
  | some home =>
    match ← readFile (home ++ "/" ++ Settings.userFile) with
    | some content => return { entries := [(Settings.userFile, content)] }
    | none => return {}

/-- The files and directories below a directory, at most `depth` levels of them.  A file of settings
there is not the user's own, whose name it has, and is left out. -/
def survey (depth : Nat) (place : List String) (files : Files) : IO Files := do
  match depth with
  | 0 => return files
  | depth + 1 =>
    let path := if place.isEmpty then "." else "/".intercalate place
    let entries ← try (← IO.FS.realPath path).readDir catch _ => pure #[]
    let mut files := files
    for entry in entries do
      let inner := place ++ [entry.fileName]
      if inner == [Settings.userFile] then continue
      if ← entry.path.isDir then files ← survey depth inner (files.makeDirectory inner)
      else
        match ← readFile ("/".intercalate inner) with
        | some content => files := files.put inner content
        | none => pure ()
    return files

def wanted (outcome : Outcome) : List String :=
  (outcome.faults.filterMap fun fault =>
    if fault.cause = .fileNotFound then Files.wanted? fault.detail else none) ++ outcome.world.sought

/-- Run a call, and tell with what files.  Files that it lacks and that can be read are fetched first;
each path is tried once. -/
partial def attempt (i : Invocation) (stdin : Content) (now : TimeStamp) (tried : List String)
    (surveyed : Bool) (files : Files) : IO (Option (Files × Outcome)) := do
  match CommandLine.run 0x4000000000000000 i files stdin { Simulated.host with clock := now } with
  | .error _ => return none
  | .ok outcome =>
    if outcome.world.surveyed && !surveyed then
      attempt i stdin now tried true (← survey 8 [] files)
    else
      let lacking := (wanted outcome).filter fun path => !tried.contains path
      match lacking with
      | [] => return some (files, outcome)
      | path :: _ =>
        match ← readFile path with
        | some content =>
          attempt i stdin now (path :: tried) surveyed
            { files with entries := files.entries ++ [(path, content)] }
        | none => attempt i stdin now (path :: tried) surveyed files

/-- Write the files that differ from what was there before. -/
def store (before after : Files) : IO Unit := do
  for (path, content) in after.entries do
    if before.entries.lookup path != some content then
      try IO.FS.writeBinFile path ⟨content.toArray⟩ catch _ => pure ()

end ArrayCommand.Calling

open ArrayCommand in
open scoped ArrayCommand.Simulated in
def main (args : List String) : IO UInt32 := do
  match Invocation.parse? args with
  | none =>
    IO.eprintln "usage: [--config FILE] [--log LEVEL] [SCRIPT [ARGUMENT ...]]"
    return 2
  | some i =>
    -- a script leaves the console alone
    let stdin ← if i.script.isSome then pure .empty else Calling.readAll (← IO.getStdin) .empty
    match ← Calling.attempt i stdin.toList (← Calling.clock) [] false (← Calling.userSettings) with
    | none => return 1
    | some (files, outcome) =>
      if outcome.world.surveyed then Calling.store files outcome.world
      IO.print outcome.output
      IO.eprint outcome.errors
      return outcome.code.toUInt32
