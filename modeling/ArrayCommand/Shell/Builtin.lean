/-
Commands that are part of the shell.
-/

import ArrayCommand.Shell.Condition
import ArrayCommand.Shell.Expand
import ArrayCommand.Shell.Format

namespace ArrayCommand.Shell

/-- What runs a script, and tells whether it held any command. -/
abbrev Scripts := (text : String) → ShellM Bool

abbrev Builtin := List String → ShellM Nat

namespace Builtin

/-! ### Arguments -/

/-- The options in one word, and the option that takes the next argument as its value. -/
def optionsIn (letters valued : String) : List Char → ShellM (List (Char × String) × Option Char)
  | [] => return ([], none)
  | c :: cs =>
    if valued.toList.contains c then
      if cs.isEmpty then return ([], some c)
      else return ([(c, String.ofList cs)], none)
    else if letters.toList.contains c then do
      let (found, wants) ← optionsIn letters valued cs
      return ((c, "") :: found, wants)
    else fail ("Illegal option -" ++ String.ofList [c]) 2

def optionsUpTo (letters valued : String) : (fuel : Nat) → List String →
    ShellM (List (Char × String) × List String)
  | 0, args => return ([], args)
  | _, [] => return ([], [])
  | fuel + 1, arg :: rest =>
    match arg.toList with
    | '-' :: c :: cs =>
      if arg = "--" then return ([], rest)
      else do
        let (found, wants) ← optionsIn letters valued (c :: cs)
        match wants, rest with
        | none, _ =>
          let (more, left) ← optionsUpTo letters valued fuel rest
          return (found ++ more, left)
        | some c, value :: rest =>
          let (more, left) ← optionsUpTo letters valued fuel rest
          return (found ++ (c, value) :: more, left)
        | some c, [] => fail ("No arg for -" ++ String.ofList [c] ++ " option") 2
    | _ => return ([], arg :: rest)

/-- The options before the arguments of a command, and the arguments.  A letter of `valued` takes a
value, which may be the next argument. -/
def options (letters valued : String) (args : List String) :
    ShellM (List (Char × String) × List String) := optionsUpTo letters valued args.length args

def number (text : String) : ShellM Nat :=
  let n := (text.toNat?).getD 0
  if text.isEmpty || !text.toList.all Char.isDigit || n ≥ 0x80000000 then
    fail ("Illegal number: " ++ text) 2
  else return n

def splitArgument (arg : String) : String × Option String :=
  let cs := arg.toList
  let name := String.ofList (cs.takeWhile (· != '='))
  match cs.dropWhile (· != '=') with
  | _ :: value => (name, some (String.ofList value))
  | [] => (name, none)

def checkName (name : String) : ShellM Unit := do
  if !isName name then fail (name ++ ": bad variable name") 2

/-! ### Output -/

def echo : Builtin := fun args => do
  if ← write 1 (Format.echo args) then return 0
  warn "echo: I/O error"
  return 1

def printf : Builtin := fun args => do
  let (_, args) ← options "" "" args
  match args with
  | [] => fail "usage: printf format [arg ...]" 2
  | format :: args =>
    let (text, warnings, ended) := Format.print format args
    put text
    for warning in warnings do
      warn warning
    match ended with
    | .failed message => fail message 2
    | _ => return if warnings.isEmpty then 0 else 1

/-! ### Conditions -/

def query (s : State) : Query := fun operator path =>
  match operator, s.find path with
  | _, .missing => false
  | "-d", found => found == .directory
  | "-f", found =>
    match found with
    | .file _ => path != "/dev/null"
    | _ => false
  | "-s", found =>
    match found with
    | .file content => !content.isEmpty
    | _ => true
  | "-x", found => found == .directory
  | "-c", _ => path == "/dev/null"
  | "-e", _ | "-r", _ | "-w", _ | "-O", _ | "-G", _ => true
  | _, _ => false

def test : Builtin := fun args => do
  match Condition.holds (query (← get)) args with
  | .ok value => return if value then 0 else 1
  | .error message => fail message 2

def bracket : Builtin := fun args =>
  if args.getLast? == some "]" then test args.dropLast else fail "missing ]" 2

/-! ### Variables -/

def export' : Builtin := fun args => do
  let (_, args) ← options "p" "" args
  for arg in args do
    let (name, value?) := splitArgument arg
    checkName name
    match value? with
    | some value => assignVar name value
    | none => pure ()
    modify fun s => s.setVar name { (s.vars.lookup name).getD {} with exported := true }
  return 0

def unset : Builtin := fun args => do
  let (found, args) ← options "vf" "" args
  for name in args do
    if found.getLast?.any fun option => option.1 = 'f' then
      modify fun s => { s with functions := s.functions.filter fun entry => entry.1 != name }
    else
      checkName name
      modify fun s => s.dropVar name
  return 0

def optionLetters : List Char :=
  ['e', 'f', 'I', 'i', 'm', 'n', 's', 'x', 'v', 'V', 'E', 'C', 'a', 'b', 'u']

def setOption (on : Bool) (c : Char) : ShellM Unit :=
  modify fun s =>
    let others := s.options.filter (· != c)
    { s with options := if on then c :: others else others }

def setLetters (on : Bool) : List Char → ShellM Unit
  | [] => return ()
  | c :: cs => do
    if optionLetters.contains c then
      setOption on c
      setLetters on cs
    else fail ("Illegal option " ++ (if on then "-" else "+") ++ String.ofList [c]) 2

def setArguments : List String → ShellM Unit
  | [] => return ()
  | "--" :: rest => modify fun s => { s with params := rest }
  | "-" :: rest => do
    setOption false 'x'
    setOption false 'v'
    if !rest.isEmpty then modify fun s => { s with params := rest }
  | arg :: rest =>
    match arg.toList with
    | '-' :: cs => do
      setLetters true cs
      setArguments rest
    | '+' :: cs => do
      setLetters false cs
      setArguments rest
    | _ => modify fun s => { s with params := arg :: rest }

def set' : Builtin := fun args => do
  setArguments args
  return 0

def shift : Builtin := fun args => do
  let n ←
    match args with
    | [] => pure 1
    | arg :: _ => number arg
  let s ← get
  if n > s.params.length then fail "can't shift that many" 2
  set { s with params := s.params.drop n }
  return 0

/-! ### Reading -/

/-- The characters of a line in which a backslash quotes; a quoted line end goes on with the next
line. -/
def quotedLine : (fuel : Nat) → List Char → ShellM (List Glyph × Bool)
  | 0, _ => return ([], false)
  | fuel + 1, cs => do
    match cs with
    | [] => return ([], false)
    | ['\n'] => return ([], true)
    | ['\\'] => return ([], false)
    | ['\\', '\n'] => quotedLine fuel ((← readLine 0).getD [])
    | '\\' :: c :: cs =>
      let (glyphs, ended) ← quotedLine fuel cs
      return (.char c true false :: glyphs, ended)
    | c :: cs =>
      let (glyphs, ended) ← quotedLine fuel cs
      return (.char c false true :: glyphs, ended)

def isBlank (seps : List Char) : Glyph → Bool
  | .char c _ true => Expand.isBlankSeparator c && seps.contains c
  | _ => false

def isSeparator (seps : List Char) : Glyph → Bool
  | .char c _ true => seps.contains c
  | _ => false

def textOf (glyphs : List Glyph) : String :=
  String.ofList (glyphs.filterMap fun
    | .char c _ _ => some c
    | _ => none)

/-- The texts of a line for `count` variables; the last one takes all that is left. -/
def distribute (seps : List Char) : (count : Nat) → List Glyph → List String
  | 0, _ => []
  | 1, glyphs =>
    let glyphs := glyphs.dropWhile (isBlank seps)
    match Expand.fields seps glyphs with
    | [] => [""]
    | [field] => [String.ofList (field.map Marked.char)]
    | _ => [textOf (glyphs.reverse.dropWhile (isBlank seps)).reverse]
  | count + 2, glyphs =>
    let glyphs := glyphs.dropWhile (isBlank seps)
    let field := glyphs.takeWhile fun g => !isSeparator seps g
    let rest := (glyphs.dropWhile fun g => !isSeparator seps g).dropWhile (isBlank seps)
    let rest :=
      match rest with
      | g :: more => if isSeparator seps g then more.dropWhile (isBlank seps) else rest
      | [] => []
    textOf field :: distribute seps (count + 1) rest

def assignAll : List String → List String → ShellM Unit
  | name :: names, text :: texts => do
    -- what follows an equals sign in a name does not count
    let (name, _) := splitArgument name
    checkName name
    assignVar name text
    assignAll names texts
  | _, _ => return ()

def read : Builtin := fun args => do
  let (found, names) ← options "r" "p" args
  if names.isEmpty then fail "arg count" 2
  let line := ((← readLine 0).getD []).filter fun c => c.toNat != 0
  let (glyphs, ended) ←
    if found.any fun option => option.1 = 'r' then
      let ended := line.getLast? == some '\n'
      pure ((if ended then line.dropLast else line).map fun c => Glyph.char c false true, ended)
    else do
      let left := (← readAll 0).getD []
      unread 0 left
      quotedLine (line.length + 2 * left.length + 2) line
  let seps := Expand.separators (← get)
  assignAll names (distribute seps names.length glyphs)
  return if ended then 0 else 1

/-! ### Control -/

def statusOf (args : List String) : ShellM Nat := do
  match args with
  | [] => return (← get).status
  | arg :: _ => number arg

def exit' : Builtin := fun args => do
  let status ← statusOf args
  setStatus (status % 256)
  throw .exit

def return' : Builtin := fun args => do
  let status ← statusOf args
  setStatus status
  throw .leave

def loopJump (jump : Nat → Jump) : Builtin := fun args => do
  let n ←
    match args with
    | [] => pure 1
    | arg :: _ =>
      let n ← number arg
      if n = 0 then fail ("Illegal number: " ++ arg) 2
      pure n
  let s ← get
  if s.loops = 0 then return 0
  setStatus 0
  throw (jump (min n s.loops))

def eval (script : Scripts) : Builtin := fun args => do
  let ran ← script (" ".intercalate args)
  if ran then return (← get).status else return 0

/-! ### Knowing commands -/

def specialNames : List String :=
  [":", "break", "continue", "eval", "exec", "exit", "export", "return", "set", "shift", "unset"]

def isSpecial (name : String) : Bool := specialNames.contains name

def find? (script : Scripts) (name : String) : Option Builtin :=
  match name with
  | ":" | "true" => some fun _ => return 0
  | "false" => some fun _ => return 1
  | "[" => some bracket
  | "break" => some (loopJump .stop)
  | "continue" => some (loopJump .next)
  | "echo" => some echo
  | "eval" => some (eval script)
  | "exec" => some fun _ => return 0
  | "exit" => some exit'
  | "export" => some export'
  | "printf" => some printf
  | "read" => some read
  | "return" => some return'
  | "set" => some set'
  | "shift" => some shift
  | "test" => some test
  | "unset" => some unset
  | _ => none

end Builtin

end ArrayCommand.Shell
