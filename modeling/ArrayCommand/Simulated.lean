/-
Simulated surroundings: files that are kept in memory, a shell that works on them, and numbers that
look random.

The interpreter does not depend on any of this.
-/

import ArrayCommand.Host
import ArrayCommand.Shell

namespace ArrayCommand.Simulated

/-! ### Open files -/

/-- An open file: the place of the file, how much of it has been fetched, and what was fetched and not
used yet.  A file elsewhere does not change. -/
inductive Reader where
  | directory
  | fixed (rest : Content)
  | file (place : List String) (fetched : Nat) (buffer : Content)

def openFile (files : Files) (path : String) : Except String Reader :=
  if path.toList.contains (Char.ofNat 0) then .error "file name contained an unexpected NUL byte"
  else if files.crosses path then .error Files.crossedText
  else
    match files.find path with
    | .missing => .error Files.missingText
    | .directory => .ok .directory
    | .file content =>
      match if Files.isAbsolute path then none else files.walk [] (Files.parts path) with
      | some place => .ok (.file place 0 [])
      | none => .ok (.fixed content)

def firstLine (bytes : Content) : Content :=
  match bytes.cut with
  | [] => []
  | line :: _ => line

def reading (line : Content) : FileRead :=
  if line.isEmpty then .ended
  else
    match line.text? with
    | some text => .line text
    | none => .failed Content.invalidText

def bufferSize : Nat := 8192

/-- Read a line.  What is not in the buffer is fetched from the file as it is now, a buffer at a
time. -/
def read (files : Files) : Reader → FileRead × Reader
  | .directory => (.failed Files.directoryText, .directory)
  | .fixed rest =>
    let line := firstLine rest
    (reading line, .fixed (rest.drop line.length))
  | .file place fetched buffer =>
    let content := (files.contentAt place).drop fetched
    let line := firstLine (buffer ++ content)
    let more := line.length - buffer.length
    let reach := (more + bufferSize - 1) / bufferSize * bufferSize
    (reading line,
      .file place (fetched + min reach content.length)
        (buffer.drop line.length ++ (content.take reach).drop more))

/-! ### Surroundings -/

def contents (files : Files) (path : String) : Except String String := do
  match ← openFile files path with
  | .directory => throw Files.directoryText
  | .fixed content => read content
  | .file place _ _ => read (files.contentAt place)
where
  read (content : Content) : Except String String :=
    match content.text? with
    | some text => .ok text
    | none => .error Content.invalidText

def isFile (files : Files) (path : String) : Bool :=
  match openFile files path with
  | .ok .directory => false
  | .ok _ => true
  | .error _ => false

def shell (files : Files) (command : String) : Option (Except String (CommandOutput × Files)) :=
  if command.toList.contains (Char.ofNat 0) then some (.error "nul byte found in provided data")
  else (Shell.run files command).map .ok

scoped instance outside : Outside where
  World := Files
  Reader := Reader
  openFile := openFile
  read := read
  isFile := isFile
  contents := contents
  shell := shell

/-! ### Random numbers -/

def scramble (word : UInt64) : UInt64 :=
  let word := (word ^^^ (word >>> 30)) * 0xbf58476d1ce4e5b9
  let word := (word ^^^ (word >>> 27)) * 0x94d049bb133111eb
  word ^^^ (word >>> 31)

/-- Numbers of at least zero and below one. -/
def numbers (seed drawn : Nat) : Float :=
  let word := seed.toUInt64 + (drawn + 1).toUInt64 * 0x9e3779b97f4a7c15
  Binary64.ofRatio false (scramble word >>> 11).toNat 0x20000000000000

def host : Host := { generator := { numbers } }

end ArrayCommand.Simulated
