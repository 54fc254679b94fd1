/-
Sessions: statements are drawn from the input, compiled and run one after another.

A fault ends the statement it arises in, is reported on the console, and gives up the rest of the
line and the levels above the run.  Every loop that may go on for ever takes fuel.
-/

import ArrayCommand.Compiler
import ArrayCommand.Input
import ArrayCommand.Machine.Control

namespace ArrayCommand

variable [Outside]

/-- The state between statements. -/
structure Session where
  machine : Machine
  program : Program
  input : Input

abbrev SessionM := EStateM Failure Session

/-- What a step came to. -/
inductive Step where
  | ran
  | ended
  | exit (mode : ExitMode)
deriving DecidableEq, Repr

namespace Session

/-! ### Starting -/

/-- A session in which only the core module is registered. -/
def initial (settings : Settings) (world : Outside.World) : Session :=
  { machine :=
      { workspace := Workspace.initial settings.limits.nameLength
        values := { title := "VALUE STACK", limit := settings.limits.valueStack }
        run := { title := "RUN STACK", limit := settings.limits.runStack } }
    program := { limit := settings.limits.compileStack }
    input := Input.initial settings world }

def settings (s : Session) : Settings := s.input.settings

def workspace (s : Session) : Workspace := s.machine.workspace

def withWorkspace (s : Session) (workspace : Workspace) : Session :=
  { s with machine := { s.machine with workspace } }

def withConsole (s : Session) (console : Console) : Session :=
  { s with input := { s.input with console } }

def onHost (s : Session) (f : Host → Host) : Session :=
  { s with machine := { s.machine with host := f s.machine.host } }

def register (m : Module) (s : Session) : Except Fault Unit × Session :=
  match Workspace.register m s.workspace with
  | .ok () w => (.ok (), s.withWorkspace w)
  | .error fault w => (.error fault, s.withWorkspace w)

def define (name body : String) (s : Session) : Except Fault Unit × Session :=
  match s.input.define name body with
  | .ok input => (.ok (), { s with input })
  | .error fault => (.error fault, s)

def value? (s : Session) (name : String) : Option Cell := s.workspace.value? name

def listing (s : Session) : String := s.program.listing

/-! ### Statements -/

def print (text : String) (s : Session) : Session := { s with input := s.input.print text }

def verbose (s : Session) : Bool :=
  match s.value? "verbose" with
  | some cell =>
    match cell.first with
    | .ok (.logical b) => b
    | _ => false
  | none => false

def furtherLines (prompt : String) : LineSource Input := fun known input =>
  match Input.nextLine known prompt input with
  | .ok line input => .ok (line.map SubLine.text) input
  | .error failure input => .error failure input

/-- Compile the statement that begins with a line.  A fault comes with the line it was met on. -/
def compile (fuel : Nat) (line : String) (s : Session) : Except (Failure × String) Unit × Session :=
  let limit := s.settings.limits.nameLength
  let compiler : Compiler Input :=
    { workspace := s.workspace, program := s.program.clear, lexer := .ofText line limit
      source := s.input }
  let source := furtherLines s.settings.continuationPrompt
  match Compiler.compile source limit fuel line compiler with
  | .ok () c =>
    (.ok (), { (s.withWorkspace c.workspace) with program := c.program, input := c.source })
  | .error failure c =>
    (.error (failure, c.line),
      { (s.withWorkspace c.workspace) with program := c.program, input := c.source })

def flushOutput (s : Session) : Session :=
  let output := s.machine.host.output
  let s := s.onHost fun host => { host with output := "" }
  if output.isEmpty then s else s.print output

/-- Run the program compiled last.  Both stacks are empty behind it, and what was printed is on the
console. -/
def execute (fuel : Nat) (s : Session) : Except Failure Flow × Session :=
  let finish := fun (machine : Machine) =>
    flushOutput { s with
      machine := { machine with values := machine.values.clear, run := machine.run.clear } }
  match Control.run s.program.nodes fuel { s.machine with counters := [] } with
  | .ok flow machine => (.ok flow, finish machine)
  | .error failure machine => (.error failure, finish machine)

def exitOf : Flow → Option ExitMode
  | .exit mode => some mode
  | .finished => none
  | .stopped => none

/-- Compile and run the statement that begins with a line.  A fault comes with the line it is
reported with. -/
def statement (fuel : Nat) (line : String) (s : Session) :
    Except (Failure × String) (Option ExitMode) × Session :=
  let s := if s.verbose then s.print (Text.trim line ++ "\n") else s
  match compile fuel line s with
  | (.error failure, s) => (.error failure, s)
  | (.ok (), s) =>
    match execute fuel s with
    | (.ok flow, s) => (.ok (exitOf flow), s)
    | (.error failure, s) => (.error (failure, line), s)

/-! ### Steps -/

/-- Report a fault: the rest of the line is given up, and so is a request to stop. -/
def report (fault : Fault) (line : String) (s : Session) : Session :=
  let s := s.withConsole (s.input.console.report fault line)
  { s with input := s.input.flush }.onHost fun host => { host with interrupted := false }

/-- Report the fault of a statement.  A crash and want of fuel end the session. -/
def recover (failure : Failure) (line : String) : SessionM Step := fun s =>
  match failure with
  | .fault fault =>
    if fault.cause = .crash then .error failure s else .ok .ran (report fault line s)
  | .exhausted => .error failure s

def step (fuel : Nat) : SessionM Step := fun s =>
  match Input.nextLine s.workspace.names.knows s.settings.prompt s.input with
  | .error (.fault fault) input => .ok .ran (report fault "" { s with input })
  | .error .exhausted input => .error .exhausted { s with input }
  | .ok none input => .ok .ended { s with input }
  | .ok (some line) input =>
    match statement fuel line.text { s with input } with
    | (.ok (some mode), s) => .ok (.exit mode) s
    | (.ok none, s) => .ok .ran s
    | (.error (failure, text), s) => recover failure text s

/-- Run steps until the levels from `depth` on are used up.  Each step takes one unit of fuel. -/
def drain (depth : Nat) : (fuel : Nat) → SessionM (Option ExitMode)
  | 0 => throw .exhausted
  | fuel + 1 => do
    if (← get).input.depth < depth then return none
    match ← step fuel with
    | .ran => drain depth fuel
    | .ended => return none
    | .exit mode =>
      modify fun s => { s with input := s.input.reset }
      return some mode

def enter (fuel : Nat) (text : String) : SessionM (Option ExitMode) := do
  let s ← get
  match s.input.pushText "" text [] true with
  | .error fault =>
    set (report fault text s)
    return none
  | .ok input =>
    set { s with input }
    drain input.depth fuel

/-- Run a command file with arguments.  It fails if the file cannot be opened. -/
def runFile (fuel : Nat) (path : String) (args : List String) :
    SessionM (Except Fault (Option ExitMode)) := do
  let s ← get
  match s.input.pushFile path args true with
  | .error fault => return .error fault
  | .ok input =>
    set { s with input }
    return .ok (← drain input.depth fuel)

/-- Run the lines of the console; `ends` is how often in a row it has ended. -/
def runFrom (fuel ends : Nat) : SessionM ExitMode := do
  match fuel with
  | 0 => throw .exhausted
  | fuel + 1 =>
    match ← step fuel with
    | .ran => runFrom fuel 0
    | .ended =>
      if max (← get).settings.endLimit 1 ≤ ends + 1 then return .full 0
      runFrom fuel (ends + 1)
    | .exit mode => return mode

def run (fuel : Nat) : SessionM ExitMode := runFrom fuel 0

/-! ### Ending -/

def teardown (mode : ExitMode) (s : Session) : Session :=
  s.workspace.modules.toList.reverse.foldl
    (fun s m =>
      match m.teardown with
      | some finish => s.onHost (finish mode)
      | none => s) s

def release (s : Session) : Session :=
  let s := s.withWorkspace s.workspace.dropDeclared
  { s with input := s.input.clearMacros.reset }

def shutdown (mode : ExitMode) (s : Session) : Session :=
  let s := s.teardown mode
  let s :=
    match mode with
    | .full _ => s.release
    | .minimal _ => s
  s.flushOutput

end Session

end ArrayCommand
