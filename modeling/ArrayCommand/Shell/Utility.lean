/-
Commands beside the shell.
-/

import ArrayCommand.Shell.State

namespace ArrayCommand.Shell

abbrev Utility := List String → ShellM Nat

namespace Utility

/-- The content of a file or of the standard input, or why it cannot be read. -/
def content (path : String) : ShellM (Except String (List Char)) := do
  if path = "-" || path = "/dev/stdin" then
    match ← readAll 0 with
    | some cs => return .ok cs
    | none => return .error "Is a directory"
  else
    let s ← get
    match s.find path with
    | .file content => return .ok (content.map fun b => Char.ofNat b.toNat)
    | .directory => return .error "Is a directory"
    | .missing =>
      miss path
      return .error (whyMissing s path)

def cat : Utility := fun args => do
  let mut status := 0
  for path in if args.isEmpty then ["-"] else args do
    match ← content path with
    | .ok text => put (String.ofList text)
    | .error why =>
      putError ("cat: " ++ path ++ ": " ++ why ++ "\n")
      status := 1
  return status

def find? (name : String) : Option Utility :=
  match name with
  | "cat" | "/bin/cat" | "/usr/bin/cat" => some cat
  | _ => none

end Utility

end ArrayCommand.Shell
