/-
The command line: options, the session they ask for, and what it leaves behind.
-/

import ArrayCommand.Session
import ArrayCommand.Settings.Load

namespace ArrayCommand

structure Invocation where
  config : Option String := none
  log : Option String := none
  script : Option String := none
  args : List String := []
deriving DecidableEq, Repr

namespace Invocation

def operand (i : Invocation) (word : String) : Invocation :=
  match i.script with
  | none => { i with script := some word }
  | some _ => { i with args := i.args ++ [word] }

def attached? (name word : String) : Option String :=
  if name.toList.isPrefixOf word.toList then
    some (String.ofList (word.toList.drop name.length))
  else none

def unsigned (value : String) : String :=
  match value.toList with
  | '=' :: rest => String.ofList rest
  | _ => value

/-- The words of a call.  Behind two dashes there are no options; nothing is returned for an option
that is not known or lacks its value. -/
def parseFrom : Invocation → List String → Option Invocation
  | i, [] => some i
  | i, "--" :: words => some (words.foldl operand i)
  | i, "--config" :: value :: words => parseFrom { i with config := some value } words
  | i, "-c" :: value :: words => parseFrom { i with config := some value } words
  | i, "--log" :: value :: words => parseFrom { i with log := some value } words
  | i, "-l" :: value :: words => parseFrom { i with log := some value } words
  | i, word :: words =>
    if word = "-" ∨ !word.startsWith "-" then parseFrom (i.operand word) words
    else if let some value := attached? "--config=" word then
      parseFrom { i with config := some value } words
    else if let some value := attached? "--log=" word then
      parseFrom { i with log := some value } words
    else if word.startsWith "--" then none
    else if let some value := attached? "-c" word then
      if value.isEmpty then none else parseFrom { i with config := some (unsigned value) } words
    else if let some value := attached? "-l" word then
      if value.isEmpty then none else parseFrom { i with log := some (unsigned value) } words
    else none

def parse? (words : List String) : Option Invocation := parseFrom {} words

end Invocation

variable [Outside]

/-- What a call leaves behind: the exit code, the two output streams, the faults that were reported,
and the surroundings. -/
structure Outcome where
  code : Nat
  output : String
  errors : String
  faults : List Fault
  world : Outside.World

namespace CommandLine

def settings (i : Invocation) (world : Outside.World) : Except Fault Settings :=
  match i.config with
  | some path => Settings.load world path
  | none => Settings.discover world

def complain (fault : Fault) : SessionM Unit :=
  modify fun s => s.withConsole (s.input.console.report fault "")

def startUp (fuel : Nat) : SessionM (Option ExitMode) := do
  match (← get).settings.startup with
  | none => return none
  | some path =>
    match ← Session.runFile fuel path [] with
    | .ok mode => return mode
    | .error fault =>
      complain fault
      return none

def mainPart (fuel : Nat) (i : Invocation) : SessionM ExitMode := do
  match i.script with
  | none => Session.run fuel
  | some path =>
    match ← Session.runFile fuel path i.args with
    | .ok mode => return mode.getD (.full 0)
    | .error fault =>
      complain fault
      return .full 1

def session (fuel : Nat) (i : Invocation) : SessionM ExitMode := do
  match ← startUp fuel with
  | some mode => return mode
  | none => mainPart fuel i

def exitCode (mode : ExitMode) : Nat := (mode.code % 256).toNat

def finish (mode : ExitMode) (s : Session) : Outcome :=
  let input := (s.shutdown mode).input
  let console := input.console
  { code := exitCode mode, output := console.printedText, errors := console.faultText
    faults := console.faults.map Prod.fst, world := input.world }

/-- A whole call: its words, the surroundings and the bytes of its input.  It fails if the fuel did not
suffice or the interpreter crashed. -/
def run (fuel : Nat) (i : Invocation) (world : Outside.World) (stdin : Content) (host : Host) :
    Except Failure Outcome :=
  match settings i world with
  | .error fault =>
    .ok { code := 2, output := "", errors := "?" ++ fault.text ++ "\n", faults := [fault], world }
  | .ok settings =>
    let start := (Session.initial settings world).withConsole { lines := stdin.lines }
    match session fuel i (start.onHost fun _ => host) with
    | .ok mode s => .ok (finish mode s)
    | .error failure _ => .error failure

end CommandLine

end ArrayCommand
