/-
The machine that runs programs: its state and the small steps that its parts are made of.
-/

import ArrayCommand.Stack
import ArrayCommand.Program
import ArrayCommand.Workspace

namespace ArrayCommand

/-- The state of the machine.  The state of a counted loop is kept under the address of its
counter. -/
structure Machine where
  workspace : Workspace
  host : Host := {}
  values : Stack Cell
  run : Stack Scalar
  counters : List (Nat × LoopState) := []

abbrev MachineM := EStateM Failure Machine

namespace Machine

/-! ### Failing -/

def fail {α : Type} (fault : Fault) : MachineM α := throw (.fault fault)

def malformed {α : Type} (detail : String) : MachineM α := fail (.because .internalError detail)

def check {α : Type} (result : Except Fault α) : MachineM α :=
  match result with
  | .ok a => pure a
  | .error fault => fail fault

def checkInterrupt : MachineM Unit := do
  if (← get).host.interrupted then fail (.because .interrupted "")

/-! ### Stacks -/

def onRun {α : Type} (step : EStateM Fault (Stack Scalar) α) : MachineM α :=
  fun ⟨workspace, host, values, run, counters⟩ =>
    match step run with
    | .ok a run => .ok a ⟨workspace, host, values, run, counters⟩
    | .error fault run => .error (.fault fault) ⟨workspace, host, values, run, counters⟩

def onValues {α : Type} (step : EStateM Fault (Stack Cell) α) : MachineM α :=
  fun ⟨workspace, host, values, run, counters⟩ =>
    match step values with
    | .ok a values => .ok a ⟨workspace, host, values, run, counters⟩
    | .error fault values => .error (.fault fault) ⟨workspace, host, values, run, counters⟩

/-! ### Variables -/

def valueOf (var : Handle) : MachineM Cell := do
  check ((← get).workspace.memory.value var)

def update (var : Handle) (value : Cell) : MachineM Unit :=
  modify fun m =>
    { m with workspace := { m.workspace with memory := m.workspace.memory.update var value } }

/-! ### Calls -/

def functionOf (func : Nat) : MachineM Function := do
  match (← get).workspace.functions[func]? with
  | some f => return f
  | none => malformed "FUNCTION"

/-- Run the body of a function.  The cells and the host come back as it left them, with the fault if
it failed. -/
def invoke (f : Function) (args : Array Cell) (out : Option Cell) :
    MachineM (Array Cell × Option Cell × Option Fault) := do
  let m ← get
  match f.native ⟨m.host, args, out⟩ with
  | .ok () c =>
    set { m with host := c.host }
    return (c.args, c.out, none)
  | .error fault c =>
    set { m with host := c.host }
    return (c.args, c.out, some fault)

/-- An argument of a function must have a fitting rank. -/
def checkRank (f : Function) (index : Nat) (cell : Cell) : Except Fault Unit :=
  if (f.decl index).rank.accepts cell.rank cell.size then .ok ()
  else .error (.because .rankMismatch (Text.upper ("ARGUMENT " ++ toString (index + 1) ++ " OF " ++
    f.name ++ " HAS RANK " ++ toString cell.rank)))

/-! ### Addresses -/

def jump (pc : Nat) (offset : Int) : Option Nat :=
  match (pc : Int) + offset with
  | .ofNat target => some target
  | .negSucc _ => none

/-- The address behind an expression whose header is at an address, as a word. -/
def behind (pc length : Nat) : Nat := (pc + 1 + length) % wordSize

def lengthAt (code : Array Node) (pc : Nat) : MachineM Nat := do
  match code[pc]? with
  | some (.expr header) => return header.length
  | _ => malformed "EXPRESSION EXPECTED"

end Machine

/-- How many of the values `first`, `first + step`, … do not go beyond `last`. -/
def rounds (first last step : Int) : Nat :=
  if (0 < step ∧ first ≤ last) ∨ (step < 0 ∧ last ≤ first) then
    (Int.tdiv (last - first) step + 1).toNat
  else 0

end ArrayCommand
