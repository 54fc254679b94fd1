/-
The console: the primary stream of lines, and the record of what was written.
-/

import ArrayCommand.Content
import ArrayCommand.Fault

namespace ArrayCommand

/-- Something that happened on the console. -/
inductive Event where
  | printed (text : String)
  | reported (fault : Fault) (line : String)
  | prompted (prompt : String)
deriving DecidableEq, Repr

/-- The lines that can still be read, and the events in the order they happened. -/
structure Console where
  lines : List RawLine := []
  events : Array Event := #[]

namespace Console

def ofLines (lines : List String) : Console := { lines := lines.map .text }

def log (c : Console) (event : Event) : Console := { c with events := c.events.push event }

def print (c : Console) (text : String) : Console := c.log (.printed text)

def report (c : Console) (fault : Fault) (line : String) : Console := c.log (.reported fault line)

def read (c : Console) (prompt : String) : Option RawLine × Console :=
  let c := c.log (.prompted prompt)
  match c.lines with
  | [] => (none, c)
  | line :: rest => (some line, { c with lines := rest })

/-! ### What happened -/

def eventText : Event → String
  | .printed text => text
  | .reported fault _ => "?" ++ fault.text ++ "\n"
  | .prompted _ => ""

def output (c : Console) : String := String.join (c.events.toList.map eventText)

def faults (c : Console) : List (Fault × String) :=
  c.events.toList.filterMap fun
    | .reported fault line => some (fault, line)
    | _ => none

def prompts (c : Console) : List String :=
  c.events.toList.filterMap fun
    | .prompted prompt => some prompt
    | _ => none

def printedText (c : Console) : String :=
  String.join (c.events.toList.map fun
    | .printed text => text
    | _ => "")

/-- The faults that were reported, each with its line and a mark under the place. -/
def faultText (c : Console) : String :=
  String.join (c.faults.map fun (fault, line) =>
    let caret :=
      match fault.caret line with
      | some text => text ++ "\n"
      | none => ""
    caret ++ "?" ++ fault.text ++ "\n")

@[simp] theorem faults_print (c : Console) (text : String) : (c.print text).faults = c.faults := by
  simp [faults, print, log]

@[simp] theorem prompts_print (c : Console) (text : String) :
    (c.print text).prompts = c.prompts := by
  simp [prompts, print, log]

end Console

end ArrayCommand
