/-
Statements as trees, and what running them means.

A statement is run by recursion on its tree, without nodes, addresses, gates or counters.  A loop
tells the statements around it how its body ended: a body that was left ends the loop, a body whose
round was given up goes on with the next round, and nothing else can see either.  The counted loop
is handed its first value, its step and the number of its rounds once; what its body does to the
variable has no influence on them.

* `Simple`, `Statement` — assignments, commands and declarations, and the statements made of them;
* `World` — the variables and the host, which is all that a statement can change;
* `Simple.run` — a simple statement;
* `Ending`, `whileLoop`, `repeatLoop`, `countLoop` — how a statement ended, and the loops;
* `Statement.run` — a whole statement.
-/

import ArrayCommand.Machine.Control
import ArrayCommand.Proofs.Meaning
import ArrayCommand.Expr.Parse

namespace ArrayCommand

/-! ### Trees -/

/-- A simple statement: an assignment to a variable or to a section of it, a command, or the
declaration of one variable. -/
inductive Simple where
  | assign (var : Handle) (subscripts : Option (List Subscript)) (values : List Typed)
  | command (func : Nat) (args : List Argument)
  | declare (var : Handle) (extents : List Expr)

/-- A statement.  A `leap` leaves the innermost loop or gives up its present round. -/
inductive Statement where
  | nothing
  | line (items : List Simple)
  | leap (leave : Bool)
  | stop
  | both (first second : Statement)
  | ifThen (test : Expr) (yes : Statement)
  | ifElse (test : Expr) (yes no : Statement)
  | while (test : Expr) (body : Statement)
  | repeat (body : Statement) (test : Expr)
  | count (var : Handle) (first last : Typed) (step : Option Typed) (body : Statement)

/-! ### The world of a statement -/

/-- The variables and the host. -/
structure World where
  workspace : Workspace
  host : Host

/-- What a statement can see and change of a machine. -/
def Machine.world (m : Machine) : World := ⟨m.workspace, m.host⟩

abbrev WorldM := EStateM Fault World

namespace WorldM

def evaluating {α : Type} (x : Workspace → HostM α) : WorldM α := fun W =>
  match x W.workspace W.host with
  | .ok a host => .ok a { W with host }
  | .error fault host => .error fault { W with host }

def valueOf (var : Handle) : WorldM Cell := do
  Direct.check ((← get).workspace.memory.value var)

def update (var : Handle) (value : Cell) : WorldM Unit :=
  modify fun W =>
    { W with workspace := { W.workspace with memory := W.workspace.memory.update var value } }

def print (text : String) : WorldM Unit := modify fun W => { W with host := W.host.print text }

end WorldM

open WorldM (evaluating valueOf update)

open Direct (check)

/-! ### Assignments and declarations -/

/-- The values of a list assignment, from a position on. -/
def Typed.listItems (w : Workspace) : List Typed → (index : Nat) → Cell → HostM Cell
  | [], _, list => return list
  | v :: rest, index, list => do
    let item ← v.expr.evaluate w v.type none
    check (if item.size ≠ 1 then .error (.because .shapeMismatch "LIST ITEMS MUST BE SCALARS")
      else .ok ())
    let list ← check (list.set index (← check item.first))
    Typed.listItems w rest (index + 1) list

/-- The right side of an assignment: one value, which fills the shape, or a list of single
values. -/
def Typed.rightSide (values : List Typed) (type : ElementType) (fill : Shape) (w : Workspace) :
    HostM Cell :=
  match values with
  | [v] => v.expr.evaluate w v.type (some fill)
  | values =>
    Typed.listItems w values 0 (Cell.fresh type (.vector values.length) .temporary)

def Simple.assignWhole (var : Handle) (target : Cell) (values : List Typed) : WorldM Unit := do
  let rhs ← evaluating (Typed.rightSide values target.type target.shape)
  update var (← check ((← valueOf var).assign rhs))

/-- An assignment to a section of a variable.  Elements written before a fault stay written. -/
def Simple.assignSection (var : Handle) (target : Cell) (subscripts : List Subscript)
    (values : List Typed) : WorldM Unit := do
  let view ← evaluating fun w => Subscript.view w target.shape subscripts
  let rhs ← evaluating (Typed.rightSide values target.type view.shape)
  let stored := Control.store view rhs (← valueOf var)
  update var stored.2
  check stored.1

def Cell.checkWritable (value : Cell) (name : Except Fault String) : Except Fault Unit :=
  if value.owner.isWritable then .ok ()
  else do throw (.because .readOnly (NameTable.quote (← name)))

def Simple.assigning (var : Handle) (subscripts : Option (List Subscript)) (values : List Typed) :
    WorldM Unit := do
  let target ← valueOf var
  let name := ((← get).workspace.memory.get var).map Variable.name
  check (target.checkWritable name)
  match subscripts with
  | none => assignWhole var target values
  | some subscripts => assignSection var target subscripts values

/-- A declaration of a variable with its extents. -/
def Simple.declaring (var : Handle) (extents : List Expr) : WorldM Unit := do
  let dims ← evaluating fun w => Expr.extents w extents
  let shape ← check (Shape.ofDims dims)
  update var (← check (Control.redeclared (← valueOf var) shape))

/-! ### Commands -/

/-- The cells of the arguments of a command, from an argument on. -/
def Argument.commandCells (f : Function) (w : Workspace) : (index : Nat) → List Argument →
    HostM (List Cell)
  | _, [] => return []
  | index, a :: rest => do
    let cell ← a.cell w
    check (Machine.checkRank f index cell)
    return cell :: (← Argument.commandCells f w (index + 1) rest)

/-- The variable that an argument passes by reference. -/
def Argument.reference? : Argument → Option Handle
  | .reference var _ => some var
  | .value _ _ => none
  | .name _ => none

/-- The fault of a command that changes a parameter. -/
def Function.readOnlyArgument (f : Function) (index : Nat) : Fault :=
  .because .readOnly (Text.upper ("ARGUMENT " ++ toString (index + 1) ++ " OF " ++ f.name))

/-- Give the variables passed by reference the values that a command left, from an argument on. -/
def Argument.writeBack (f : Function) (cells : Array Cell) : (index : Nat) →
    List (Option Handle) → WorldM Unit
  | _, [] => return ()
  | index, none :: rest => Argument.writeBack f cells (index + 1) rest
  | index, some var :: rest => do
    let some new := cells[index]? | throw (.because .internalError "UNDERFLOW")
    let cell ← valueOf var
    if cell.same new then Argument.writeBack f cells (index + 1) rest
    else
      check (if cell.owner.isWritable then .ok () else .error (f.readOnlyArgument index))
      update var (← check (cell.assign new))
      Argument.writeBack f cells (index + 1) rest

namespace WorldM

def delete (name : String) : WorldM Unit := do
  match (← get).workspace.names.get? name with
  | none => throw (.because .undefinedName (NameTable.quote name))
  | some (.var handle) =>
    let value ← valueOf handle
    check (if value.owner.isDeletable then .ok ()
      else .error (.because .readOnly ("CANNOT DELETE " ++ NameTable.quote name)))
    modify fun W => { W with workspace := W.workspace.withdraw name handle }
  | some _ => throw (.because .readOnly (NameTable.quote name ++ " IS NOT A VARIABLE"))

/-- Carry out requests one after another; an exit drops those behind it. -/
def carryOut : List Request → WorldM (Option Flow)
  | [] => return none
  | .delete name :: rest => do
    delete name
    carryOut rest
  | .list beginning :: rest => do
    let w := (← get).workspace
    print (← check (Control.describeAll w (w.names.beginning beginning)))
    carryOut rest
  | .help topic :: rest => do
    print (← check (Control.helpText (← get).workspace topic))
    carryOut rest
  | .exit mode :: _ => return some (.exit mode)

def requests : WorldM (Option Flow) := do
  let list := (← get).host.requests
  modify fun W => { W with host := { W.host with requests := [] } }
  carryOut list

end WorldM

/-- A command: its arguments from left to right, its body, what it did to the variables passed by
reference, and what it asked for. -/
def Simple.commanding (func : Nat) (args : List Argument) : WorldM (Option Flow) := do
  let f ← evaluating fun w => Direct.functionOf w func
  let cells ← evaluating fun w => Argument.commandCells f w 0 args
  let (left, _) ← evaluating fun _ => Direct.invoke f cells.toArray (Control.resultCell f)
  Argument.writeBack f left 0 (args.map Argument.reference?)
  WorldM.requests

/-- Run a simple statement; a command may end the program. -/
def Simple.run : Simple → WorldM (Option Flow)
  | .assign var subscripts values => do
    assigning var subscripts values
    return none
  | .command func args => commanding func args
  | .declare var extents => do
    declaring var extents
    return none

/-! ### Conditions and bounds -/

/-- Whether the only element of a cell is true. -/
def Cell.condition (c : Cell) : Except Fault Bool := do
  if c.size ≠ 1 then throw (.because .shapeMismatch "CONDITION MUST BE A SCALAR")
  (← c.first).truth

def Expr.holds (test : Expr) : WorldM Bool := do
  check (← evaluating fun w => test.evaluate w .logical none).condition

def Typed.bound (t : Typed) (w : Workspace) : HostM Cell := t.expr.evaluate w t.type none

def Typed.boundOption (w : Workspace) : Option Typed → HostM (Option Cell)
  | none => return none
  | some t => do return some (← t.bound w)

/-- The values of the bounds of a counted loop, from left to right. -/
def loopCells (first last : Typed) (step : Option Typed) (w : Workspace) :
    HostM (Cell × Cell × Option Cell) := do
  let start ← first.bound w
  let stop ← last.bound w
  let step ← Typed.boundOption w step
  return (start, stop, step)

/-- The first value, the step and the number of rounds of a counted loop. -/
def loopStart (var : Handle) (first last : Typed) (step : Option Typed) : WorldM LoopState := do
  let (start, stop, step) ← evaluating (loopCells first last step)
  let type := (← valueOf var).type
  check (Control.loopState type start stop step)

/-- Give the variable of a counted loop its value for a round, and tell the one for the next round;
after the last round there is none, and nothing is added. -/
def startRound (var : Handle) (value step : Scalar) (rest : Nat) : WorldM Scalar := do
  let cell ← valueOf var
  check (if cell.size ≠ 1 then .error (.because .rankMismatch "LOOP VARIABLE MUST BE A SCALAR")
    else .ok ())
  update var (← check (cell.set 0 value))
  check (if rest = 0 then .ok value else value.sum step)

/-! ### Running -/

/-- How a statement ended: it came to its end, the innermost loop is to be left or its round to be
given up, or the program is over. -/
inductive Ending where
  | normal
  | left
  | skipped
  | done (flow : Flow)
deriving DecidableEq, Repr

/-- A run of a statement, which may take more rounds than there is fuel for. -/
abbrev RunM := EStateM Failure World

def attempt {α : Type} (x : WorldM α) : RunM α := fun W =>
  match x W with
  | .ok a W => .ok a W
  | .error fault W => .error (.fault fault) W

/-- What a loop does after its body: the next round, unless the body left the loop or ended the
program. -/
def Ending.after (o : Ending) (again : RunM Ending) : RunM Ending :=
  match o with
  | .normal => again
  | .skipped => again
  | .left => return .normal
  | .done flow => return .done flow

/-- Rounds as long as a condition holds before them. -/
def whileLoop (test : RunM Bool) (body : RunM Ending) : (fuel : Nat) → RunM Ending
  | 0 => throw .exhausted
  | fuel + 1 => do
    if ← test then (← body).after (whileLoop test body fuel)
    else return .normal

/-- Rounds until a condition holds after one.  A round that was given up goes to the condition. -/
def repeatLoop (body : RunM Ending) (test : RunM Bool) : (fuel : Nat) → RunM Ending
  | 0 => throw .exhausted
  | fuel + 1 => do
    (← body).after do
      if ← test then return .normal
      else repeatLoop body test fuel

/-- As many rounds as remain.  The variable gets its value before each of them, and the value of the
next round does not depend on what the body makes of it. -/
def countLoop (var : Handle) (step : Scalar) (body : RunM Ending) :
    (remaining : Nat) → (next : Scalar) → RunM Ending
  | 0, _ => return .normal
  | remaining + 1, value => do
    let next ← attempt (startRound var value step remaining)
    (← body).after (countLoop var step body remaining next)

def Simple.runAll : List Simple → RunM Ending
  | [] => return .normal
  | s :: rest => do
    match ← attempt s.run with
    | some flow => return .done flow
    | none => Simple.runAll rest

/-- Run a statement.  The fuel bounds the rounds of each conditional loop. -/
def Statement.run (fuel : Nat) : Statement → RunM Ending
  | .nothing => return .normal
  | .line items => Simple.runAll items
  | .leap leave => return if leave then .left else .skipped
  | .stop => return .done .stopped
  | .both first second => do
    match ← first.run fuel with
    | .normal => second.run fuel
    | outcome => return outcome
  | .ifThen test yes => do
    if ← attempt test.holds then yes.run fuel else return .normal
  | .ifElse test yes no => do
    if ← attempt test.holds then yes.run fuel else no.run fuel
  | .while test body => whileLoop (attempt test.holds) (body.run fuel) fuel
  | .repeat body test => repeatLoop (body.run fuel) (attempt test.holds) fuel
  | .count var first last step body => do
    let state ← attempt (loopStart var first last step)
    countLoop var state.step (body.run fuel) state.remaining state.next

end ArrayCommand
