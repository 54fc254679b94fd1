/-
The surroundings of the interpreter: files and the shell.

Nothing is laid down about them but how they are used.  A file is opened and then read line by line,
each line as the file is at that moment; a read may fail, and nothing says that it leaves the reader
in another state.  A command of the shell may change everything, and it need not return.
-/

namespace ArrayCommand

/-- What reading a line of an open file comes to. -/
inductive FileRead where
  | line (text : String)
  | ended
  | failed (detail : String)
deriving DecidableEq, Repr

/-- What a command has written. -/
structure CommandOutput where
  out : String
  err : String
deriving DecidableEq, Repr

class Outside where
  World : Type
  Reader : Type
  openFile : World → (path : String) → Except String Reader
  read : World → Reader → FileRead × Reader
  isFile : World → (path : String) → Bool
  contents : World → (path : String) → Except String String
  /-- Nothing is returned for a command that goes on for ever. -/
  shell : World → (command : String) → Option (Except String (CommandOutput × World))

namespace Cabinet

/-- A cabinet of files that nobody changes, without a shell.  Beside files there may be directories,
which can be opened like files but not be read. -/
scoped instance outside : Outside where
  World := List (String × Option (List String))
  Reader := Option (List String)
  openFile files path :=
    match files.lookup path with
    | some reader => .ok reader
    | none => .error "No such file or directory (os error 2)"
  read _ reader :=
    match reader with
    | none => (.failed "Is a directory (os error 21)", none)
    | some [] => (.ended, some [])
    | some (line :: lines) => (.line line, some lines)
  isFile files path := files.any fun entry => entry.1 == path && entry.2.isSome
  contents files path :=
    match files.lookup path with
    | some (some lines) => .ok (String.join lines)
    | some none => .error "Is a directory (os error 21)"
    | none => .error "No such file or directory (os error 2)"
  shell _ _ := some (.error "No such file or directory (os error 2)")

end Cabinet

end ArrayCommand
