/-
The input: a stack of levels from which the sub-lines of statements are drawn.

The console is at the bottom.  Above it are the levels that were opened and not used up yet: command
files, the bodies of macros, and texts to run.  Lines are drawn from the top level only.  A physical
line is a comment, a line for the shell, the management of a macro, the name of a command file, or
sub-lines that wait to be delivered.
-/

import ArrayCommand.Console
import ArrayCommand.Input.Template
import ArrayCommand.Input.Words
import ArrayCommand.NameTable
import ArrayCommand.Outside
import ArrayCommand.Settings
import ArrayCommand.Token

namespace ArrayCommand

variable [Outside]

/-! ### Levels -/

/-- Where the lines of a level come from: an open file with the number of lines read so far, or a
text. -/
inductive Feed where
  | file (reader : Outside.Reader) (number : Nat)
  | text (lines : List String)

/-- A level above the console.  When a terminal level is used up the run that opened it ends. -/
structure Level where
  name : String
  feed : Feed
  args : List String
  pending : List String := []
  terminal : Bool := false

def Level.origin (l : Level) : String :=
  match l.feed with
  | .file _ number => l.name ++ ":" ++ toString number
  | .text _ => l.name

/-- A part of a line that makes up one statement or one line of a block. -/
structure SubLine where
  text : String
  origin : String
deriving DecidableEq, Repr

/-- The levels with the top one first, the sub-lines of the console that wait, and what lines can
refer to. -/
structure Input where
  settings : Settings
  world : Outside.World
  console : Console := {}
  macros : NameTable String
  pending : List String := []
  upper : List Level := []
  bounded : upper.length < settings.depthLimit

namespace Input

/-- The input with the console level only. -/
def initial (settings : Settings) (world : Outside.World) : Input :=
  { settings, world, macros := { maxLength := settings.limits.nameLength },
    bounded := by simpa using settings.depthLimit_pos }

def depth (s : Input) : Nat := s.upper.length + 1

def context (s : Input) : String × List String :=
  match s.upper with
  | [] => ("", [])
  | top :: _ => (top.name, top.args)

def onTop (s : Input) (f : Level → Level) : Input :=
  { s with upper := s.upper.modifyHead f, bounded := by simpa using s.bounded }

def dropTop (s : Input) : Input :=
  { s with upper := s.upper.tail, bounded := by have := s.bounded; simp; omega }

def push (s : Input) (level : Level) : Except Fault Input :=
  if h : s.upper.length + 1 < s.settings.depthLimit then
    .ok { s with upper := level :: s.upper, bounded := by simpa using h }
  else .error (.because .inputNesting ("AT " ++ NameTable.quote level.name))

def pushText (s : Input) (name text : String) (args : List String) (terminal : Bool) :
    Except Fault Input :=
  s.push { name, feed := .text (Text.lines text), args, terminal }

def pushFile (s : Input) (path : String) (args : List String) (terminal : Bool) :
    Except Fault Input :=
  match Outside.openFile s.world path with
  | .ok reader => s.push { name := path, feed := .file reader 0, args, terminal }
  | .error detail => .error (.because .fileNotFound (path ++ ": " ++ detail))

def addPending (s : Input) (lines : List String) : Input :=
  match s.upper with
  | [] => { s with pending := s.pending ++ lines }
  | _ :: _ => s.onTop fun top => { top with pending := top.pending ++ lines }

def clearPending (s : Input) : Input :=
  match s.upper with
  | [] => { s with pending := [] }
  | _ :: _ => s.onTop fun top => { top with pending := [] }

/-- Give up the rest of the present line and all levels down to a terminal one or the console. -/
def flush (s : Input) : Input :=
  clearPending { s with
    upper := s.upper.dropWhile fun level => !level.terminal
    bounded := Nat.lt_of_le_of_lt (List.dropWhile_sublist _).length_le s.bounded }

def reset (s : Input) : Input :=
  clearPending { s with upper := [], bounded := Nat.lt_of_le_of_lt (Nat.zero_le _) s.bounded }

/-! ### Macros -/

def define (s : Input) (name body : String) : Except Fault Input :=
  match s.macros.insert name body true with
  | .ok (macros, _) => .ok { s with macros }
  | .error fault => .error fault

def clearMacros (s : Input) : Input := { s with macros := s.macros.clear }

def print (s : Input) (text : String) : Input := { s with console := s.console.print text }

def macroLines (entries : List (String × String)) : String :=
  String.join (entries.map fun (name, body) => name ++ " = " ++ body ++ "\n")

def manage (s : Input) (text : String) : Except Fault Input :=
  match text.toList with
  | '+' :: rest =>
    let rest := (Text.trim (String.ofList rest)).toList
    let name := rest.takeWhile fun c => !Text.isBlank c
    if name.isEmpty then .error (.because .syntaxError "MISSING MACRO NAME")
    else
      s.define (String.ofList name)
        (Text.trim (String.ofList (rest.dropWhile fun c => !Text.isBlank c)))
  | '-' :: rest =>
    (s.macros.lookup (Text.trim (String.ofList rest))).map fun (name, _) =>
      { s with macros := s.macros.remove name }
  | '?' :: rest =>
    .ok (s.print (macroLines (s.macros.beginning (Text.trim (String.ofList rest)))))
  | _ => .error (.because .syntaxError "EXPECTED +NAME, -NAME OR ?PREFIX")

def isWordChar (c : Char) : Bool := c.isAlphanum || c = '_'

def assigns : List Char → Bool
  | '=' :: '=' :: _ => false
  | '=' :: _ => true
  | _ => false

/-- The macro that a sub-line calls with its first word: its name, its body and the arguments.  A
word that is the beginning of the name only does not call it if it means something else. -/
def macroCall? (s : Input) (known : String → Bool) (text : String) :
    Option (String × String × List String) :=
  let cs := text.toList.dropWhile Text.isBlank
  let word := cs.takeWhile isWordChar
  let rest := (cs.dropWhile isWordChar).dropWhile Text.isBlank
  match word with
  | [] => none
  | first :: _ =>
    if first.isDigit || assigns rest then none
    else
      let word := String.ofList word
      match s.macros.classify word with
      | .exact _ =>
        match s.macros.lookup word with
        | .ok (name, body) =>
          if !Text.sameFolded name word && (known word || (Keyword.ofName? word).isSome) then none
          else some (name, body, Words.split (String.ofList rest))
        | .error _ => none
      | _ => none

/-! ### Physical lines -/

def readFault (detail : String) : Fault := .because .ioError detail

/-- Run a line in the shell and print what it writes. -/
def shell (s : Input) (command : String) : Except Failure Input :=
  if s.settings.shellEscape then
    match Outside.shell s.world command with
    | some (.ok (written, world)) =>
      .ok (({ s with world }.print written.out).print written.err)
    | some (.error detail) => .error (.fault (readFault detail))
    | none => .error .exhausted
  else .error (.fault (.because .syntaxError "SHELL ESCAPE DISABLED"))

def filled (s : Input) (text : String) : Except Fault String :=
  let (name, args) := s.context
  (Template.substitute text name args).map fun parts => ";".intercalate parts

def openFile (s : Input) (text : String) : Except Fault Input :=
  match Words.split text with
  | [] => .error (.because .syntaxError "MISSING FILE NAME")
  | path :: args => s.pushFile (Words.unquote path) args false

def addLine (s : Input) (line : String) : Except Fault Input :=
  let (name, args) := s.context
  (Template.substitute line name args).map fun parts =>
    s.addPending (parts.filter fun part => !Text.allBlank part)

def physical (s : Input) (line : String) : Except Failure Input :=
  let trimmed := Text.trim line
  match trimmed.toList with
  | [] => .ok s
  | first :: rest =>
    let rest := String.ofList rest
    if first = s.settings.commentMark then .ok s
    else if first = s.settings.macroMark then (s.manage (Text.trimStart rest)).mapError .fault
    else if first = s.settings.shellMark then
      match s.filled rest with
      | .ok command => s.shell command
      | .error fault => .error (.fault fault)
    else if first = s.settings.fileMark then
      match s.filled rest with
      | .ok text => (s.openFile text).mapError .fault
      | .error fault => .error (.fault fault)
    else (s.addLine trimmed).mapError .fault

/-! ### One step -/

/-- What a step came to: a sub-line, the end of the input, or nothing yet. -/
inductive Progress where
  | line (line : SubLine)
  | finished
  | again
deriving DecidableEq, Repr

def deliver (known : String → Bool) (text origin : String) : EStateM Failure Input Progress :=
  fun s =>
    match s.macroCall? known text with
    | none => .ok (.line ⟨text, origin⟩) s
    | some (name, body, args) =>
      match s.push { name, feed := .text [body], args } with
      | .ok s => .ok .again s
      | .error fault => .error (.fault fault) s

def proceed (line : String) : EStateM Failure Input Progress := fun s =>
  match s.physical line with
  | .ok s => .ok .again s
  | .error failure => .error failure s

def leave (terminal : Bool) : EStateM Failure Input Progress := fun s =>
  .ok (if terminal then .finished else .again) s.dropTop

def advanceConsole (known : String → Bool) (prompt : String) : EStateM Failure Input Progress :=
  fun s =>
    match s.pending with
    | text :: rest => deliver known text "" { s with pending := rest }
    | [] =>
      match s.console.read prompt with
      | (none, console) => .ok .finished { s with console }
      | (some .invalid, console) =>
        .error (.fault (readFault Content.invalidText)) { s with console }
      | (some (.text line), console) => proceed line { s with console }

def advanceLevel (known : String → Bool) (top : Level) : EStateM Failure Input Progress := fun s =>
  let feeding := fun (feed : Feed) => s.onTop fun level => { level with feed }
  match top.pending with
  | text :: rest =>
    deliver known text top.origin (s.onTop fun level => { level with pending := rest })
  | [] =>
    match top.feed with
    | .file reader number =>
      match Outside.read s.world reader with
      | (.line line, reader) =>
        proceed (Text.stripLineEnd line) (feeding (.file reader (number + 1)))
      | (.ended, _) => leave top.terminal s
      | (.failed detail, reader) =>
        .error (.fault (readFault detail)) (feeding (.file reader number))
    | .text [] => leave top.terminal s
    | .text (line :: lines) => proceed line (feeding (.text lines))

def advance (known : String → Bool) (prompt : String) : EStateM Failure Input Progress := fun s =>
  match s.upper with
  | [] => advanceConsole known prompt s
  | top :: _ => advanceLevel known top s

/-! ### The next sub-line -/

/-- Make steps until one delivers something, fails or ends.  Nothing is returned if that never
happens. -/
def draw (known : String → Bool) (prompt : String) (s : Input) :
    Option (EStateM.Result Failure Input (Option SubLine)) :=
  match advance known prompt s with
  | .ok (.line line) s' => some (.ok (some line) s')
  | .ok .finished s' => some (.ok none s')
  -- a call that is written out would keep its place in the text of the module
  | .ok .again s' => by
    apply draw
    · exact known
    · exact prompt
    · exact s'
  | .error failure s' => some (.error failure s')
partial_fixpoint

/-- The next sub-line.  There is none at the end of the console and when a terminal level is used
up. -/
def nextLine (known : String → Bool) (prompt : String) : EStateM Failure Input (Option SubLine) :=
  fun s => (draw known prompt s).getD (.error .exhausted s)

end Input

end ArrayCommand
