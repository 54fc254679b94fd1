/-
A shell of its own, so that a line handed to it has the same effect everywhere.

It works on files that are kept in memory.  Nothing can be read from its standard input.
-/

import ArrayCommand.Outside
import ArrayCommand.Shell.Run

namespace ArrayCommand.Shell

def initialVars : List (String × Variable) :=
  let home := pathOf rootParts
  [("HOME", { value := some home, exported := true }),
    ("IFS", { value := some " \t\n" }),
    ("OPTIND", { value := some "1" }),
    ("PATH",
      { value := some "/usr/local/sbin:/usr/local/bin:/usr/sbin:/usr/bin:/sbin:/bin"
        exported := true }),
    ("PPID", { value := some "1" }),
    ("PS1", { value := some "$ " }),
    ("PS2", { value := some "> " }),
    ("PS4", { value := some "+ " }),
    ("PWD", { value := some home, exported := true })]

/-- A shell before its first command: it reads nothing, and its two other streams are collected. -/
def initial (files : Files) : State :=
  { files
    vars := initialVars
    channels := #[.nothing, .collect "", .collect ""]
    streams := [(0, 0), (1, 1), (2, 2)] }

def State.collected (s : State) (index : Nat) : String :=
  match s.channels[index]? with
  | some (.collect text) => Text.ofBytes text
  | _ => ""

/-- Run a command on files.  Nothing is returned if the fuel of the shell does not suffice. -/
def run (files : Files) (command : String) : Option (CommandOutput × Files) :=
  let finish := fun (s : State) =>
    some (⟨s.collected 1, s.collected 2⟩, { s.files with surveyed := true })
  match Run.script (Text.bytesOf command) (initial files) with
  | .ok () s => finish s
  | .error .exhausted _ => none
  | .error _ s => finish s

end ArrayCommand.Shell
