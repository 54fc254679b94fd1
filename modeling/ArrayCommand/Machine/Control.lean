/-
Running programs: assignments, commands, declarations, jumps and loops.
-/

import ArrayCommand.Machine.Evaluate

namespace ArrayCommand

/-- How a program ended. -/
inductive Flow where
  | finished
  | stopped
  | exit (mode : ExitMode)
deriving DecidableEq, Repr

/-- Where a program goes on: at an address, which may lie behind its last node, or nowhere. -/
inductive Next where
  | at (pc : Nat)
  | done (flow : Flow)
deriving DecidableEq, Repr

namespace Control

open Machine

/-! ### Assignments -/

/-- Write values over a section in the order of its elements.  A single value is repeated;
otherwise there must be as many values as elements. -/
def store (view : View) (rhs : Cell) (target : Cell) : Except Fault Unit × Cell :=
  let size := view.shape.size
  if rhs.size ≠ 1 ∧ rhs.size ≠ size then
    (.error (.because .shapeMismatch
      (toString rhs.size ++ " VALUES FOR " ++ toString size ++ " ELEMENTS")), target)
  else
    let values := rhs.data.toList
    let values := if rhs.size = 1 then List.replicate size (values.headD (.integer 0)) else values
    target.setAll ((view.shape.indices.map view.offset).zip values)

def listItems (code : Array Node) (fuel : Nat) : (count index pc : Nat) → Cell →
    MachineM (Cell × Nat)
  | 0, _, pc, list => return (list, pc)
  | count + 1, index, pc, list => do
    let (item, pc) ← Evaluate.nested code fuel pc none
    if item.size ≠ 1 then fail (.because .shapeMismatch "LIST ITEMS MUST BE SCALARS")
    let list ← check (list.set index (← check item.first))
    listItems code fuel count (index + 1) pc list

def rightSide (code : Array Node) (fuel count pc : Nat) (type : ElementType) (fill : Shape) :
    MachineM (Cell × Nat) := do
  if count = 1 then Evaluate.nested code fuel pc (some fill)
  else listItems code fuel count 0 pc (Cell.fresh type (.vector count) .temporary)

/-- An assignment to a variable or to a section of it; the address behind it is returned. -/
def assign (code : Array Node) (fuel pc : Nat) (var : Handle) (axes : Option (List Axis))
    (count : Nat) : MachineM Nat := do
  let target ← valueOf var
  if !target.owner.isWritable then
    let name := (← check ((← get).workspace.memory.get var)).name
    fail (.because .readOnly (NameTable.quote name))
  match axes with
  | none =>
    let (rhs, pc) ← rightSide code fuel count (pc + 1) target.type target.shape
    update var (← check ((← valueOf var).assign rhs))
    return pc
  | some axes =>
    let (view, pc) ←
      Evaluate.sectionWith (Evaluate.expression code fuel) code (pc + 1) target.shape axes
    let (rhs, pc) ← rightSide code fuel count pc target.type view.shape
    let (result, value) := store view rhs (← valueOf var)
    update var value
    check result
    return pc

/-! ### Declarations -/

/-- A value with its extents exchanged: elements are kept if the number of axes is. -/
def redeclared (value : Cell) (shape : Shape) : Except Fault Cell :=
  if value.shape = shape then .ok value
  else if value.rank = shape.rank then value.resize shape
  else Cell.allocate value.type shape value.owner

def declare (code : Array Node) (fuel pc : Nat) (var : Handle) (dims : Nat) : MachineM Nat := do
  let (extents, pc) ← Evaluate.extentsWith (Evaluate.expression code fuel) code dims (pc + 1)
  let shape ← check (Shape.ofDims extents)
  update var (← check (redeclared (← valueOf var) shape))
  return pc

/-! ### Commands -/

def reference? (code : Array Node) (pc : Nat) : Option Handle :=
  match code[pc]? with
  | some (.expr header) =>
    match header.access with
    | .reference var => some var
    | _ => none
  | _ => none

/-- Put the arguments of a command on the stack of cells, from an argument on.  The variables passed
by reference are returned. -/
def arguments (code : Array Node) (fuel : Nat) (f : Function) :
    (count index pc : Nat) → MachineM (List (Option Handle) × Nat)
  | 0, _, pc => return ([], pc)
  | count + 1, index, pc => do
    let reference := reference? code pc
    let (cell, pc) ← Evaluate.nested code fuel pc none
    check (checkRank f index cell)
    onValues (Stack.push cell)
    let (rest, pc) ← arguments code fuel f count (index + 1) pc
    return (reference :: rest, pc)

/-- Give the variables passed by reference their new values, from an argument on. -/
def writeBack (f : Function) (base : Nat) : (index : Nat) → List (Option Handle) → MachineM Unit
  | _, [] => return ()
  | index, none :: rest => writeBack f base (index + 1) rest
  | index, some var :: rest => do
    let some new := (← get).values.items[base + index]? | malformed "UNDERFLOW"
    let cell ← valueOf var
    if !cell.same new then
      if !cell.owner.isWritable then
        fail (.because .readOnly
          (Text.upper ("ARGUMENT " ++ toString (index + 1) ++ " OF " ++ f.name)))
      update var (← check (cell.assign new))
    writeBack f base (index + 1) rest

def resultCell (f : Function) : Option Cell :=
  match f.returns with
  | .nothing => none
  | .fixed type => some (Cell.fresh type .scalar .functionValue)
  | .sameAs _ => some (Cell.fresh .float .scalar .functionValue)

def command (code : Array Node) (fuel pc func argc : Nat) : MachineM Nat := do
  let f ← functionOf func
  let base := (← get).values.size
  let (references, pc) ← arguments code fuel f argc 0 (pc + 1)
  let (args, _, fault?) ← invoke f (← check ((← get).values.tail argc)) (resultCell f)
  modify fun m => { m with values := m.values.replaceTail args }
  match fault? with
  | some fault => fail fault
  | none =>
    writeBack f base 0 references
    modify fun m => { m with values := m.values.truncate base }
    return pc

/-! ### Requests -/

def delete (name : String) : MachineM Unit := do
  let w := (← get).workspace
  match w.names.get? name with
  | none => fail (.because .undefinedName (NameTable.quote name))
  | some (.var handle) =>
    if !(← valueOf handle).owner.isDeletable then
      fail (.because .readOnly ("CANNOT DELETE " ++ NameTable.quote name))
    modify fun m => { m with workspace := w.withdraw name handle }
  | some _ => fail (.because .readOnly (NameTable.quote name ++ " IS NOT A VARIABLE"))

def describe (w : Workspace) (name : String) (var : Handle) : Except Fault String := do
  let value ← w.memory.value var
  let shape := if 0 < value.rank then value.shape.text else ""
  return name ++ " " ++ value.type.name ++ shape ++ " = " ++ value.print ++ "\n"

def describeAll (w : Workspace) : List (String × Entry) → Except Fault String
  | [] => .ok ""
  | (name, .var handle) :: rest => do
    let line ← describe w name handle
    return line ++ (← describeAll w rest)
  | _ :: rest => describeAll w rest

def moduleLine (w : Workspace) (m : Registered) : String :=
  let names := m.functions.filterMap fun id => w.functions[id]?.map Function.name
  m.name ++ ": " ++ " ".intercalate names ++ "\n"

def moduleHelp (w : Workspace) (m : Registered) : String :=
  let directory :=
    match m.helpDirectory with
    | some path => "  help files in " ++ path ++ "\n"
    | none => ""
  let lines := m.functions.filterMap fun id =>
    w.functions[id]?.map fun f => "  " ++ f.signature ++ "  " ++ f.help ++ "\n"
  m.name ++ "\n" ++ directory ++ String.join lines

/-- The lines of help about a topic; without one, the modules with their functions. -/
def helpText (w : Workspace) (topic : String) : Except Fault String := do
  if topic.isEmpty then return String.join (w.modules.toList.map (moduleLine w))
  match (← w.names.lookup topic).2 with
  | .package index =>
    match w.modules[index]? with
    | some m => return moduleHelp w m
    | none => return ""
  | .func id _ =>
    match w.functions[id]? with
    | some f => return f.signature ++ "\n  " ++ f.help ++ "\n"
    | none => return ""
  | .var handle =>
    let var ← w.memory.get handle
    describe w var.name handle

def print (text : String) : MachineM Unit := modify fun m => { m with host := m.host.print text }

def carryOut : List Request → MachineM (Option Flow)
  | [] => return none
  | .delete name :: rest => do
    delete name
    carryOut rest
  | .list beginning :: rest => do
    let w := (← get).workspace
    print (← check (describeAll w (w.names.beginning beginning)))
    carryOut rest
  | .help topic :: rest => do
    print (← check (helpText (← get).workspace topic))
    carryOut rest
  | .exit mode :: _ => return some (.exit mode)

def requests : MachineM (Option Flow) := do
  let list := (← get).host.requests
  modify fun m => { m with host := { m.host with requests := [] } }
  carryOut list

/-! ### Counted loops -/

def integerLoop (start stop : Cell) (step : Option Cell) : Except Fault LoopState := do
  let first ← start.integer
  let last ← stop.integer
  let step ←
    match step with
    | some step => step.integer
    | none => pure 1
  if step = 0 then throw (.because .domainError "ZERO STEP")
  return ⟨.integer first, .integer step, rounds first last step % wordSize⟩

def floatLoop (start stop : Cell) (step : Option Cell) : Except Fault LoopState := do
  let first ← start.float
  let last ← stop.float
  let step ←
    match step with
    | some step => step.float
    | none => pure 1.0
  if step == 0.0 then throw (.because .domainError "ZERO STEP")
  let count := ((last - first + step) / step).floor
  let remaining ← if count > 0.0 then (integerOfFloat count).map Int.toNat else pure 0
  return ⟨.float first, .float step, remaining⟩

/-- The state of a loop over a variable of some type, computed once at its start. -/
def loopState (type : ElementType) (start stop : Cell) (step : Option Cell) :
    Except Fault LoopState :=
  match type with
  | .integer => integerLoop start stop step
  | .float => floatLoop start stop step
  | _ => .error (.because .typeMismatch "LOOP VARIABLE MUST BE NUMERIC")

/-- The state of the loop whose counter is at an address: the one set last, or else the one that
stands in the counter itself. -/
def counterState (m : Machine) (pc : Nat) (initial : Option LoopState) : Option LoopState :=
  match m.counters.lookup pc with
  | some state => some state
  | none => initial

def setCounter (pc : Nat) (state : LoopState) : MachineM Unit :=
  modify fun m =>
    { m with counters := (pc, state) :: m.counters.filter fun entry => entry.1 != pc }

def loopInit (code : Array Node) (pc : Nat) (counter : Int) (hasStep : Bool) : MachineM Unit := do
  let step ←
    if hasStep then do
      let step ← onValues Stack.pop
      pure (some step)
    else pure none
  let stop ← onValues Stack.pop
  let start ← onValues Stack.pop
  let some address := jump pc counter | malformed "LOOP WITHOUT PARAMETER"
  match code[address]? with
  | some (.loopCounter var _ _) =>
    let type := (← valueOf var).type
    setCounter address (← check (loopState type start stop step))
  | _ => malformed "LOOP WITHOUT PARAMETER"

def nextRound (pc : Nat) (var : Handle) (initial : Option LoopState) : MachineM Bool := do
  let some state := counterState (← get) pc initial | malformed "LOOP NOT INITIALIZED"
  match state.remaining with
  | 0 => return false
  | remaining + 1 =>
    let cell ← valueOf var
    if cell.size ≠ 1 then fail (.because .rankMismatch "LOOP VARIABLE MUST BE A SCALAR")
    update var (← check (cell.set 0 state.next))
    let next ← if remaining = 0 then pure state.next else check (state.next.sum state.step)
    setCounter pc { state with next, remaining }
    return true

/-! ### Nodes -/

/-- Go on at the target of a jump; a target outside of every program is behind the last node. -/
def goTo (code : Array Node) (target : Option Nat) : Next := .at (target.getD code.size)

def popCondition : MachineM Bool := do
  let cell ← onValues Stack.pop
  if cell.size ≠ 1 then fail (.because .shapeMismatch "CONDITION MUST BE A SCALAR")
  check (← check cell.first).truth

def step (code : Array Node) (fuel pc : Nat) (node : Node) : MachineM Next := do
  match node with
  | .expr header =>
    let cell ← Evaluate.expression code fuel pc none
    onValues (Stack.push cell)
    return .at (behind pc header.length)
  | .assign var axes count => return .at (← assign code fuel pc var axes count)
  | .command func argc =>
    let pc ← command code fuel pc func argc
    match ← requests with
    | some flow => return .done flow
    | none => return .at pc
  | .declare var dims => return .at (← declare code fuel pc var dims)
  | .branch offset => return goTo code (jump pc offset)
  | .branchIfFalse offset =>
    if ← popCondition then return .at (pc + 1)
    return goTo code (jump pc offset)
  | .gate _ _ => return .at (pc + 1)
  | .via offset leave =>
    let some address := jump pc offset | malformed "VIA WITHOUT LINK"
    match code[address]? with
    | some (.gate exit next) => return goTo code (jump address (if leave then exit else next))
    | _ => malformed "VIA WITHOUT LINK"
  | .loopInit counter hasStep =>
    loopInit code pc counter hasStep
    return .at (pc + 1)
  | .loopCounter var state exit =>
    if ← nextRound pc var state then return .at (pc + 1)
    return goTo code (jump pc exit)
  | .stop => return .done .stopped
  | _ => malformed (node.text ++ " AT TOP LEVEL")

def runFrom (code : Array Node) : (fuel pc : Nat) → MachineM Flow
  | 0, _ => throw .exhausted
  | fuel + 1, pc => do
    match code[pc]? with
    | none => return .finished
    | some node =>
      checkInterrupt
      match ← step code fuel pc node with
      | .at pc => runFrom code fuel pc
      | .done flow => return flow

def run (code : Array Node) (fuel : Nat) : MachineM Flow := runFrom code fuel 0

end Control

end ArrayCommand
