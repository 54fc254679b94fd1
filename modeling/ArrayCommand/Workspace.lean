/-
The workspace: the global name space, the variables and the registered functions.
-/

import ArrayCommand.Memory
import ArrayCommand.NameTable
import ArrayCommand.Native.Core

namespace ArrayCommand

/-! ### Names -/

inductive Entry where
  | var (handle : Handle)
  | func (id : Nat) (preferred : Bool)
  | package (index : Nat)
deriving DecidableEq, Repr

def Entry.isPreferred : Entry → Bool
  | func _ preferred => preferred
  | _ => false

/-- Of several names that a text begins, the only preferred function wins. -/
def preferFunction (_ : String) (window : List (String × Entry)) : Option Nat :=
  let picks := (List.range window.length).filter fun index =>
    match window[index]? with
    | some (_, entry) => entry.isPreferred
    | none => false
  match picks with
  | [index] => some index
  | _ => none

/-! ### The workspace -/

/-- What is kept of a registered module. -/
structure Registered where
  name : String
  helpDirectory : Option String
  functions : List Nat
  teardown : Option (ExitMode → Host → Host)

/-- Names, variables, functions and modules. -/
structure Workspace where
  names : NameTable Entry
  memory : Memory := {}
  functions : Array Function := #[]
  modules : Array Registered := #[]

namespace Workspace

/-- A workspace in which nothing is registered. -/
def bare (nameLength : Nat) : Workspace :=
  { names := { maxLength := nameLength, resolver := some preferFunction } }

def enter (name : String) (entry : Entry) : EStateM Fault Workspace Unit := fun w =>
  match w.names.insert name entry false with
  | .ok (names, _) => .ok () { w with names }
  | .error fault => .error fault w

/-! ### Registering modules -/

def enterFunctions : List Function → EStateM Fault Workspace (List Nat)
  | [] => return []
  | f :: rest => do
    let id := (← get).functions.size
    enter f.name (.func id f.preferred)
    modify fun w => { w with functions := w.functions.push f }
    return id :: (← enterFunctions rest)

/-- Enter variables one after another.  A variable is in memory before its name is entered. -/
def enterVariables : List (String × Cell) → EStateM Fault Workspace Unit
  | [] => return ()
  | (name, value) :: rest => do
    let w ← get
    let (memory, handle) := w.memory.insert name value
    set { w with memory }
    enter name (.var handle)
    enterVariables rest

def register (m : Module) : EStateM Fault Workspace Unit := do
  enter m.name (.package (← get).modules.size)
  let functions ← enterFunctions m.functions
  enterVariables m.vars
  modify fun w =>
    { w with modules := w.modules.push ⟨m.name, m.helpDirectory, functions, m.teardown⟩ }

def after {α : Type} (action : EStateM Fault Workspace α) (w : Workspace) : Workspace :=
  match action w with
  | .ok _ w => w
  | .error _ w => w

def initial (nameLength : Nat) : Workspace := after (register Core.module) (bare nameLength)

/-! ### Variables -/

/-- Add a variable under a folded name; nothing changes if the name is refused. -/
def create (name : String) (value : Cell) : EStateM Fault Workspace Handle := fun w =>
  let folded := Text.fold name
  let (memory, handle) := w.memory.insert folded value
  match w.names.insert folded (.var handle) false with
  | .ok (names, _) => .ok handle { w with names, memory }
  | .error fault => .error fault { w with memory := memory.remove handle }

def withdraw (w : Workspace) (name : String) (handle : Handle) : Workspace :=
  { w with names := w.names.remove name, memory := w.memory.remove handle }

def value? (w : Workspace) (name : String) : Option Cell :=
  match w.names.get? name with
  | some (.var handle) => (w.memory.get? handle).map Variable.value
  | _ => none

def declared (w : Workspace) : List (String × Handle) :=
  w.names.entries.filterMap fun (name, entry) =>
    match entry with
    | .var handle =>
      match w.memory.get? handle with
      | some var => if var.value.owner = .declared then some (name, handle) else none
      | none => none
    | _ => none

def dropDeclared (w : Workspace) : Workspace :=
  w.declared.foldl (fun w (name, handle) => w.withdraw name handle) w

def vars (w : Workspace) : List (String × Handle) :=
  w.names.entries.filterMap fun (name, entry) =>
    match entry with
    | .var handle => some (name, handle)
    | _ => none

end Workspace

end ArrayCommand
