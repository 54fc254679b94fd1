/-
Running scripts.

Fuel bounds how deeply commands are nested and how often a loop is run.  The commands of a pipeline
run one after another, each with the whole output of the one before it.  The shell waits for a command
in the background.
-/

import ArrayCommand.Shell.Builtin
import ArrayCommand.Shell.Script.Parse
import ArrayCommand.Shell.Utility

namespace ArrayCommand.Shell

namespace Run

/-! ### Brackets -/

def attempt (step : ShellM Unit) : ShellM (Option Jump) := fun s =>
  match step s with
  | .ok () s' => .ok none s'
  | .error jump s' => .ok (some jump) s'

def afterwards {α : Type} (change : State → State) (step : ShellM α) : ShellM α := fun s =>
  match step s with
  | .ok a s' => .ok a (change s')
  | .error jump s' => .error jump (change s')

def testing (tested : Bool) (step : ShellM Unit) : ShellM Unit := do
  let old := (← get).tested
  modify fun s => { s with tested }
  afterwards (fun s => { s with tested := old }) step

def speaking {α : Type} (speaker : String) (step : ShellM α) : ShellM α := do
  let old ← get
  set { old with speaker := some speaker }
  afterwards (fun s => { s with speaker := old.speaker }) step

/-- End the shell if a command has failed, failures end it, and nothing looks at the status. -/
def checkStatus : ShellM Unit := do
  let s ← get
  if s.has 'e' && s.status != 0 && !s.tested then throw .exit

/-- Run a step that has a shell of its own. -/
def finishing (step : ShellM Unit) : ShellM Unit := do
  match ← attempt step with
  | some .exhausted => throw .exhausted
  | _ => return ()

/-! ### Redirections -/

inductive Tie where
  | file (fd : Nat) (opening : Opening) (path : String)
  | stream (fd source : Nat)
  | close (fd : Nat)
deriving DecidableEq, Repr

def expandRedirect (run : Expand.Runner) : Redirect → ShellM Tie
  | .file fd opening target => do return .file fd opening (← Expand.text run target)
  | .stream fd target => do
    let text ← Expand.text run target
    match text.toList with
    | ['-'] => return .close fd
    | [c] => if c.isDigit then return .stream fd (c.toNat - '0'.toNat) else bad
    | _ => bad
where
  bad : ShellM Tie := fail "Syntax error: Bad fd number" 2

def expandRedirects (run : Expand.Runner) : List Redirect → ShellM (List Tie)
  | [] => return []
  | r :: rest => do
    let tie ← expandRedirect run r
    return tie :: (← expandRedirects run rest)

def streamOf? (path : String) : Option Nat :=
  match path with
  | "/dev/stdin" | "/dev/fd/0" => some 0
  | "/dev/stdout" | "/dev/fd/1" => some 1
  | "/dev/stderr" | "/dev/fd/2" => some 2
  | _ => none

def tieTo (fd source : Nat) : ShellM Unit := do
  match (← get).streams.lookup source with
  | some index => tie fd index
  | none => fail (toString source ++ ": Bad file descriptor") 2

def tieNew (fd : Nat) (c : Channel) : ShellM Unit := do tie fd (← addChannel c)

def openOutput (fd : Nat) (opening : Opening) (path : String) : ShellM Unit := do
  let s ← get
  let refuse := fun (why : String) => fail ("cannot create " ++ path ++ ": " ++ why) 2
  match locate path with
  | .elsewhere ["dev", "null"] => tieNew fd .nothing
  | .elsewhere parts =>
    if knownDirectories.contains parts then refuse "Is a directory"
    else refuse "Directory nonexistent"
  | .below place =>
    if path.isEmpty then refuse "Directory nonexistent"
    match s.files.at' place with
    | .directory => refuse "Is a directory"
    | .file _ =>
      if path.endsWith "/" then refuse "Directory nonexistent"
      if opening = .write && s.has 'C' then refuse "File exists"
      if opening = .write || opening = .clobber then
        set { s with files := s.files.put place [] }
    | .missing =>
      if s.files.at' place.dropLast != .directory then refuse "Directory nonexistent"
      if path.endsWith "/" then refuse "Is a directory"
      set { s with files := s.files.put place [] }
    tieNew fd (.file place 0 (opening = .append) (opening = .readWrite) true)

def redirect : Tie → ShellM Unit
  | .close fd => untie fd
  | .stream fd source => tieTo fd source
  | .file fd opening path =>
    match streamOf? path with
    | some source => tieTo fd source
    | none =>
      if opening = .read then do
        let s ← get
        match s.find path, locate path with
        | .missing, _ =>
          miss path
          fail ("cannot open " ++ path ++ ": No such file") 2
        | .file _, .below place => tieNew fd (.file place 0 false true false)
        | .directory, _ => tieNew fd .directory
        | _, _ => tieNew fd .nothing
      else openOutput fd opening path

def redirectAll : List Tie → ShellM Unit
  | [] => return ()
  | t :: rest => do
    redirect t
    redirectAll rest

def redirected (ties : List Tie) : ShellM Bool := do
  match ← attempt (redirectAll ties) with
  | none => return true
  | some .error => return false
  | some jump => throw jump

/-! ### Simple commands -/

/-- The arguments of words; behind `export` an assignment is one argument. -/
def argumentsOf (run : Expand.Runner) (words : List Word) : ShellM (List String) := do
  match words with
  | first :: rest =>
    if bareText? first == some "export" then
      let name ← Expand.arguments run first
      return name ++ (← declared run rest)
    else Expand.allArguments run words
  | [] => return []
where
  declared (run : Expand.Runner) : List Word → ShellM (List String)
    | [] => return []
    | word :: rest => do
      let first ←
        match assignment? word with
        | some (name, value) => do
          let text ← Expand.text run value
          pure [name ++ "=" ++ text]
        | none => Expand.arguments run word
      return first ++ (← declared run rest)

/-- Carry out assignments; those for one command only are marked for it, and what they hide is
told. -/
def assign (run : Expand.Runner) (passing : Bool) :
    List Word → ShellM (List String × List (String × Option Variable))
  | [] => return ([], [])
  | word :: rest => do
    match assignment? word with
    | none => assign run passing rest
    | some (name, value) =>
      let text ← Expand.text run value
      let old := (← get).vars.lookup name
      assignVar name text
      if passing then
        modify fun s => s.setVar name { (s.vars.lookup name).getD {} with exported := true }
      let (shown, hidden) ← assign run passing rest
      return ((name ++ "=" ++ text) :: shown, (name, old) :: hidden)

def restore (hidden : List (String × Option Variable)) (s : State) : State :=
  hidden.foldr (fun entry s =>
    match entry.2 with
    | some var => s.setVar entry.1 var
    | none => s.dropVar entry.1) s

def call (run : Node → ShellM Unit) (body : Node) (args : List String) : ShellM Unit := do
  let s ← get
  set { s with params := args, loops := 0 }
  let back := fun (s' : State) => { s' with params := s.params, loops := s.loops }
  match ← attempt (afterwards back (run body)) with
  | none | some .leave => return ()
  | some jump => throw jump

inductive Found where
  | function (body : Node)
  | builtin (run : Builtin)
  | utility (run : Utility)
  | missing

def find (script : Scripts) (s : State) (name : String) : Found :=
  let other :=
    match Builtin.find? script name with
    | some run => Found.builtin run
    | none =>
      match Utility.find? name with
      | some run => .utility run
      | none => .missing
  if Builtin.isSpecial name then other
  else
    match s.functions.lookup name with
    | some body => .function body
    | none => other

def absent (name : String) : ShellM Unit := do
  let s ← get
  if name.isEmpty then
    warn ": Permission denied"
    setStatus 127
  else if name.toList.contains '/' && s.find name != .missing then
    warn (name ++ ": Permission denied")
    setStatus 126
  else
    if name.toList.contains '/' then miss name
    warn (name ++ ": not found")
    setStatus 127

/-- Run a command of the shell.  An error ends the shell only if the command is a special one. -/
def runBuiltin (special : Bool) (name : String) (run : Builtin) (args : List String) :
    ShellM Unit := do
  let step : ShellM Unit := do
    let status ← run args
    setStatus status
  match ← attempt (speaking name step) with
  | none => return ()
  | some .error => if special then throw .error
  | some jump => throw jump

/-- What running needs of the levels below: the runners of scripts and of nodes. -/
structure Level where
  script : Scripts
  run : Node → ShellM Unit

def Level.inserted (l : Level) : Expand.Runner := fun body => finishing (testing false (l.run body))

def trace (streams : List (Nat × Nat)) (words : List String) : ShellM Unit := do
  let s ← get
  if s.has 'x' && !words.isEmpty then
    set { s with streams }
    putError ("+ " ++ " ".intercalate words ++ "\n")
    modify fun s' => { s' with streams := s.streams }

/-- Run a simple command: its words are expanded first, then its streams are tied, then its
assignments are carried out. -/
def simple (l : Level) (assignments words : List Word) (redirects : List Redirect) :
    ShellM Unit := do
  modify fun s => { s with inserted := none }
  let args ← argumentsOf l.inserted words
  let special := (args.head?.map Builtin.isSpecial).getD false
  let ties ← expandRedirects l.inserted redirects
  let outer := (← get).streams
  let step : ShellM Unit := do
    if !(← redirected ties) then
      setStatus 2
      if special then throw .error
      return ()
    let passing := !special && !args.isEmpty
    let (shown, hidden) ← assign l.inserted passing assignments
    trace outer (shown ++ args)
    let step : ShellM Unit :=
      match args with
      | [] => do setStatus ((← get).inserted.getD 0)
      | name :: args => do
        match find l.script (← get) name with
        | .function body => call l.run body args
        | .builtin run => runBuiltin special name run args
        | .utility run => setStatus (← run args)
        | .missing => absent name
    afterwards (if passing then restore hidden else id) step
  if args == ["exec"] then step else withStreams step
  checkStatus

/-! ### Compound commands -/

inductive Round where
  | done
  | again
  | ended
deriving DecidableEq, Repr

def round (step : ShellM Unit) : ShellM Round := do
  match ← attempt step with
  | none => return .done
  | some (.stop n) => if n ≤ 1 then return .ended else throw (.stop (n - 1))
  | some (.next n) => if n ≤ 1 then return .again else throw (.next (n - 1))
  | some jump => throw jump

def looping (step : ShellM Unit) : ShellM Unit := do
  modify fun s => { s with loops := s.loops + 1 }
  afterwards (fun s => { s with loops := s.loops - 1 }) step

def loop (run : Node → ShellM Unit) (negated : Bool) (condition body : Node) :
    (fuel status : Nat) → ShellM Unit
  | 0, _ => throw .exhausted
  | fuel + 1, status => do
    match ← round (testing true (run condition)) with
    | .ended => setStatus status
    | .again => loop run negated condition body fuel status
    | .done =>
      if ((← get).status != 0) != negated then setStatus status
      else
        match ← round (run body) with
        | .ended => setStatus 0
        | _ => loop run negated condition body fuel (← get).status

def each (run : Node → ShellM Unit) (name : String) (body : Node) : List String → ShellM Unit
  | [] => return ()
  | text :: rest => do
    assignVar name text
    match ← round (run body) with
    | .ended => setStatus 0
    | _ => each run name body rest

def choose (run : Expand.Runner) (text : String) : List Clause → ShellM (Option Node)
  | [] => return none
  | .clause patterns body :: rest => do
    if ← anyMatches patterns then return some body
    choose run text rest
where
  anyMatches : List Word → ShellM Bool
    | [] => return false
    | word :: rest => do
      let p ← Expand.pattern run word
      if p.matches' text.toList then return true
      anyMatches rest

def withRedirects (l : Level) (redirects : List Redirect) (step : ShellM Unit) : ShellM Unit := do
  let ties ← expandRedirects l.inserted redirects
  withStreams do
    if ← redirected ties then step else setStatus 2

/-- Run the commands of a pipeline, each in a shell of its own that begins with the same status. -/
def pipe (l : Level) (status : Nat) : List Node → ShellM Unit
  | [] => return ()
  | [node] => do
    setStatus status
    apart (finishing (l.run node))
  | node :: rest => do
    setStatus status
    let text ← collecting (apart (finishing (l.run node)))
    withStreams do
      tieNew 0 (.supply text.toList)
      pipe l status rest

/-- Run a command with the levels below given; `fuel` is left for the rounds of a loop. -/
def nodeWith (l : Level) (fuel : Nat) : Node → ShellM Unit
  | .empty => return ()
  | .simple assignments words redirects => simple l assignments words redirects
  | .define name body => do
    modify fun s =>
      { s with
        functions := (name, body) :: s.functions.filter fun entry => entry.1 != name
        status := 0 }
  | .pipeline nodes => do
    pipe l (← get).status nodes
    checkStatus
  | .background node => do
    withStreams do
      tieNew 0 .nothing
      apart (finishing (testing false (l.run node)))
    setStatus 0
  | .negation node => do
    testing true (l.run node)
    modify fun s => { s with status := if s.status = 0 then 1 else 0 }
  | .conjunction left right => do
    testing true (l.run left)
    if (← get).status = 0 then l.run right
  | .disjunction left right => do
    testing true (l.run left)
    if (← get).status != 0 then l.run right
  | .sequence left right => do
    l.run left
    l.run right
  | .group body redirects => withRedirects l redirects (l.run body)
  | .subshell body redirects => do
    withRedirects l redirects (apart (finishing (l.run body)))
    checkStatus
  | .choice condition yes no => do
    testing true (l.run condition)
    if (← get).status = 0 then l.run yes
    else
      match no with
      | .empty => setStatus 0
      | no => l.run no
  | .loop negated condition body => looping (loop l.run negated condition body fuel 0)
  | .each name words body => do
    let texts ← Expand.allArguments l.inserted words
    setStatus 0
    looping (each l.run name body texts)
  | .cases word clauses => do
    let text ← Expand.text l.inserted word
    match ← choose l.inserted text clauses with
    | some (.empty) | none => setStatus 0
    | some body => l.run body

def scriptWith (run : Node → ShellM Unit) (text : String) : ShellM Bool := do
  match Parse.script text with
  | .error complaint => fail ("Syntax error: " ++ complaint) 2
  | .ok .empty => return false
  | .ok node =>
    run node
    return true

def node : (fuel : Nat) → Node → ShellM Unit
  | 0, _ => throw .exhausted
  | fuel + 1, n => do
    if (← get).has 'n' then return ()
    nodeWith { script := scriptWith (node fuel), run := node fuel } fuel n

def limit : Nat := 1000000

def script (text : String) : ShellM Unit :=
  finishing do
    let _ ← scriptWith (node limit) text

end Run

end ArrayCommand.Shell
