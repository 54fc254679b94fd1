/-
Evaluation of expressions.

An expression is evaluated in two parts.  First its operands are resolved: whole variables, reshaped
variables, sections, and the results of calls made once.  They must conform: on every axis the
extents are equal, or one.  Then the body is run once for every element of their common shape.
-/

import ArrayCommand.Machine

namespace ArrayCommand

/-! ### Operands -/

inductive Source where
  | var (handle : Handle)
  | cell (cell : Cell)

structure Operand where
  source : Source
  view : View

namespace Evaluate

open Machine

/-- The extent of an axis on which two operands meet; an extent of one fits everything. -/
def meet (axis have' extent : Nat) : Except Fault Nat :=
  if extent = 1 ∨ extent = have' then .ok have'
  else if have' = 1 then .ok extent
  else .error (.because .shapeMismatch ("EXTENT " ++ toString extent ++ " AGAINST " ++
    toString have' ++ " ON AXIS " ++ toString (axis + 1)))

def meetAll (axis : Nat) : (have' dims : List Nat) → Except Fault (List Nat)
  | [], dims => .ok dims
  | have', [] => .ok have'
  | h :: have', d :: dims => do
    let m ← meet axis h d
    return m :: (← meetAll (axis + 1) have' dims)

def commonDims : List Nat → List Shape → Except Fault (List Nat)
  | have', [] => .ok have'
  | have', shape :: rest => do commonDims (← meetAll 0 have' shape.dims) rest

def domain (shapes : List Shape) : Except Fault Shape := do
  Shape.ofDims (← commonDims [] shapes)

/-! ### Sections -/

/-- The first position on an axis, the number of positions and the step, once they are inside of the
extent. -/
structure AxisRange where
  first : Int
  count : Nat
  step : Int
deriving DecidableEq, Repr

def inside (extent : Nat) (i : Int) : Bool := 1 ≤ i && i ≤ extent

def axisRange (axis extent : Nat) (first last step : Int) : Except Fault AxisRange :=
  let count := rounds first last step
  let final := first + (count - 1) * step
  if count = 0 ∨ (inside extent first ∧ inside extent final) then .ok ⟨first, count, step⟩
  else
    .error (.because .subscriptOutOfRange
      (toString (if inside extent first then final else first) ++ " ON AXIS " ++
        toString (axis + 1) ++ " OF EXTENT " ++ toString extent))

/-- The reader of nested expressions. -/
abbrev Sub := (pc : Nat) → (fill : Option Shape) → MachineM Cell

/-- The value of the nested expression at an address, and the address behind it. -/
def nestedWith (sub : Sub) (code : Array Node) (pc : Nat) (fill : Option Shape) :
    MachineM (Cell × Nat) := do
  let length ← lengthAt code pc
  let cell ← sub pc fill
  return (cell, behind pc length)

def integerWith (sub : Sub) (code : Array Node) (pc : Nat) : MachineM (Int × Nat) := do
  let (cell, pc) ← nestedWith sub code pc none
  return (← check cell.integer, pc)

def optionWith (sub : Sub) (code : Array Node) (pc : Nat) (there : Bool) :
    MachineM (Option Int × Nat) := do
  if there then
    let (n, pc) ← integerWith sub code pc
    return (some n, pc)
  return (none, pc)

def axisWith (sub : Sub) (code : Array Node) (pc axis extent : Nat) (a : Axis) :
    MachineM (AxisRange × Nat) := do
  match a with
  | .all => return (← check (axisRange axis extent 1 extent 1), pc)
  | .at =>
    let (i, pc) ← integerWith sub code pc
    return (← check (axisRange axis extent i i 1), pc)
  | .range hasFirst hasLast hasStep =>
    let (first, pc) ← optionWith sub code pc hasFirst
    let (last, pc) ← optionWith sub code pc hasLast
    let (step, pc) ← optionWith sub code pc hasStep
    let step := step.getD 1
    if step = 0 then fail (.because .domainError "ZERO STEP")
    let (low, high) := if 0 < step then (1, (extent : Int)) else ((extent : Int), 1)
    return (← check (axisRange axis extent (first.getD low) (last.getD high) step), pc)

/-- The storage distance of neighbours on an axis, as a signed word. -/
def signedStride (shape : Shape) (axis : Nat) : Int := Word.signed (shape.stride axis)

/-- Where the first position on an axis leads from `base`. -/
def reached (range : AxisRange) (stride base : Int) : Except Fault Int :=
  if range.count = 0 then .ok base
  else do Word.checked (base + (← Word.checked ((range.first - 1) * stride)))

/-- Where a section begins with the range of one more axis, as a signed word.  The step along an axis
that is kept must fit, whether a step is ever taken or not. -/
def placed (a : Axis) (range : AxisRange) (stride base : Int) : Except Fault Int := do
  let base ← reached range stride base
  if a = .at then return base
  let _ ← Word.checked (range.step * stride)
  return base

/-- The ranges of the axes from an axis on; the axes before it have brought the section to `base`. -/
def axesWith (sub : Sub) (code : Array Node) (shape : Shape) :
    (pc axis : Nat) → (base : Int) → List Axis → MachineM (List AxisRange × Nat)
  | pc, _, _, [] => return ([], pc)
  | pc, axis, base, a :: rest => do
    let (range, pc) ← axisWith sub code pc axis (shape.extent axis) a
    let base ← check (placed a range (signedStride shape axis) base)
    let (ranges, pc) ← axesWith sub code shape pc (axis + 1) base rest
    return (range :: ranges, pc)

def sectionBase : List AxisRange → List Int → Int
  | range :: ranges, stride :: strides =>
    (if range.count = 0 then 0 else (range.first - 1) * stride) + sectionBase ranges strides
  | _, _ => 0

/-- The extents and steps of the axes that a section keeps: an axis with a single subscript is
dropped. -/
def keptAxes : List Axis → List AxisRange → List Int → List (Nat × Int)
  | a :: axes, range :: ranges, stride :: strides =>
    let rest := keptAxes axes ranges strides
    if a = .at then rest else (range.count, range.step * stride) :: rest
  | _, _, _ => []

/-- The view of the section that takes a range of every axis. -/
def viewOf (shape : Shape) (axes : List Axis) (ranges : List AxisRange) : Except Fault View := do
  let strides := (List.range maxRank).map (signedStride shape)
  let kept := keptAxes axes ranges strides
  let step := fun k => (kept[k]?.map Prod.snd).getD 0
  let shape ← Shape.ofDims (kept.map Prod.fst)
  return ⟨sectionBase ranges strides, shape, (step 0, step 1, step 2)⟩

/-- The view of a section of an array, and the address behind its subscripts. -/
def sectionWith (sub : Sub) (code : Array Node) (pc : Nat) (shape : Shape) (axes : List Axis) :
    MachineM (View × Nat) := do
  if axes.length ≠ shape.rank then
    fail (.because .rankMismatch
      (toString axes.length ++ " SUBSCRIPTS FOR RANK " ++ toString shape.rank))
  let (ranges, pc) ← axesWith sub code shape pc 0 0 axes
  return (← check (viewOf shape axes ranges), pc)

/-! ### Resolving operands -/

def extentsWith (sub : Sub) (code : Array Node) : (count pc : Nat) → MachineM (List Nat × Nat)
  | 0, pc => return ([], pc)
  | count + 1, pc => do
    let (n, pc) ← integerWith sub code pc
    if n < 0 then fail (.because .domainError "NEGATIVE EXTENT")
    let (rest, pc) ← extentsWith sub code count pc
    return (n.toNat :: rest, pc)

def arrayWith (sub : Sub) (code : Array Node) (pc : Nat) (var : Handle) (cast : Nat) :
    MachineM (Operand × Nat) := do
  let shape := (← valueOf var).shape
  if cast = 0 then return (⟨.var var, .whole shape⟩, pc)
  let (dims, pc) ← extentsWith sub code cast pc
  let reshaped ← check (Shape.ofDims dims)
  if reshaped.size ≠ shape.size then
    fail (.because .shapeMismatch ("CANNOT CAST " ++ shape.text ++ " TO " ++ reshaped.text))
  return (⟨.var var, .whole reshaped⟩, pc)

/-- Put the arguments of a call made once on the stack of cells, from an argument on. -/
def argumentsWith (sub : Sub) (code : Array Node) (f : Function) :
    (count index pc : Nat) → MachineM Nat
  | 0, _, pc => return pc
  | count + 1, index, pc => do
    let (cell, pc) ← nestedWith sub code pc none
    check (checkRank f index cell)
    let cell :=
      if (f.decl index).mode = .reference then cell.owned .functionReference else cell
    onValues (Stack.push cell)
    argumentsWith sub code f count (index + 1) pc

def onceWith (sub : Sub) (code : Array Node) (pc func argc : Nat) (type : ElementType) :
    MachineM (Operand × Nat) := do
  let f ← functionOf func
  let base := (← get).values.size
  let pc ← argumentsWith sub code f argc 0 pc
  let args ← check ((← get).values.tail argc)
  let (_, out, fault?) ← invoke f args (some (Cell.fresh type .scalar .functionValue))
  modify fun m => { m with values := m.values.truncate base }
  match fault? with
  | some fault => fail fault
  | none =>
    let out := out.getD (Cell.fresh type .scalar .functionValue)
    let out ← if out.type = type then pure out else check (out.convert type)
    return (⟨.cell out, .whole out.shape⟩, pc)

def operandsWith (sub : Sub) (code : Array Node) : (count pc : Nat) →
    MachineM (List Operand × Nat)
  | 0, pc => return ([], pc)
  | count + 1, pc => do
    let (operand, pc) ←
      match code[pc]? with
      | some (.array _ var cast) => arrayWith sub code (pc + 1) var cast
      | some (.index _ var axes) => do
        let shape := (← valueOf var).shape
        let (view, pc) ← sectionWith sub code (pc + 1) shape axes
        pure (⟨.var var, view⟩, pc)
      | some (.once _ func argc type) => onceWith sub code (pc + 1) func argc type
      | some node => malformed (node.text ++ " IN PROLOGUE")
      | none => malformed "EXPRESSION EXPECTED"
    let (rest, pc) ← operandsWith sub code count pc
    return (operand :: rest, pc)

/-! ### The body -/

/-- The present element: its index and its number, counted from zero. -/
structure Element where
  index : Index
  number : Nat

def fetch (operands : Array Operand) (slot : Nat) (element : Element) : MachineM Scalar := do
  match operands[slot]? with
  | none => malformed "SLOT"
  | some operand =>
    let offset := operand.view.offset element.index
    match operand.source with
    | .var var => check ((← valueOf var).get offset)
    | .cell cell => check (cell.get offset)

def callElement (func argc : Nat) (type : ElementType) : MachineM Scalar := do
  let f ← functionOf func
  let args ← onRun (Stack.popMany argc)
  let (_, out, fault?) ←
    invoke f (args.map Cell.scalar) (some (Cell.fresh type .scalar .temporary))
  match fault?, out with
  | some fault, _ => fail fault
  | none, some out => check out.first
  | none, none => malformed "NO OUTPUT CELL"

def takeSubstring (bounds : Nat) : MachineM Unit := do
  let last ←
    if bounds = 2 then do
      let s ← onRun Stack.pop
      let n ← check s.toInteger
      pure (some n)
    else pure none
  let first ← check (← onRun Stack.pop).toInteger
  match ← onRun Stack.pop with
  | .text text =>
    let part ← check (substring text first (last.getD first))
    onRun (Stack.push (.text part))
  | _ => fail (.because .typeMismatch "SUB-STRING OF NON STRING")

/-- Convert a value on the stack that is not below `base`.  A value that cannot be converted is
lost: a false logical takes its place. -/
def coerce (want : ElementType) (depth base : Nat) : MachineM Unit := do
  let run := (← get).run
  let below := (depth + 1) % wordSize
  if run.size < base + below then malformed "UNDERFLOW"
  let place := run.size - below
  match run.items[place]? with
  | none => return ()
  | some value =>
    let put := fun (value : Scalar) (m : Machine) =>
      { m with run := { m.run with items := m.run.items.setIfInBounds place value } }
    match value.convert want with
    | .ok value => modify (put value)
    | .error fault =>
      modify (put (.logical false))
      fail fault

def instruction (operands : Array Operand) (element : Element) (base : Nat) (node : Node) :
    MachineM Unit := do
  match node with
  | .const value => onRun (Stack.push value)
  | .operand slot => onRun (Stack.push (← fetch operands slot element))
  | .placeholder => onRun (Stack.push (.integer (element.number + 1)))
  | .call func argc type => onRun (Stack.push (← callElement func argc type))
  | .substring bounds => takeSubstring bounds
  | .coerce want depth => coerce want depth base
  | .neg _ =>
    let value ← onRun Stack.pop
    onRun (Stack.push (← check value.negate))
  | .not =>
    let value ← onRun Stack.pop
    onRun (Stack.push (← check value.complement))
  | .binary op _ =>
    let (l, r) ← onRun Stack.popTwo
    onRun (Stack.push (← check (op.apply l r)))
  | _ => malformed (node.text ++ " IN EXPRESSION BODY")

/-- Whether the value on top decides a conjunction or a disjunction; if not, it is taken. -/
def decides (disjunction : Bool) : MachineM Bool := do
  match (← get).run.items.back? with
  | none => malformed "UNDERFLOW"
  | some value =>
    if (← check value.truth) == disjunction then return true
    let _ ← onRun Stack.pop
    return false

/-- Run the nodes from `pc` to `stop` for one element.  Each node takes one unit of fuel. -/
def body (code : Array Node) (stop : Nat) (operands : Array Operand) (element : Element)
    (base : Nat) : (fuel pc : Nat) → MachineM Unit
  | 0, _ => throw .exhausted
  | fuel + 1, pc => do
    if stop ≤ pc then return ()
    let guarded := fun (disjunction : Bool) (skip : Int) => do
      if ← decides disjunction then
        match jump pc skip with
        | some pc => body code stop operands element base fuel pc
        | none => return ()
      else body code stop operands element base fuel (pc + 1)
    match code[pc]? with
    | none => malformed "EXPRESSION EXPECTED"
    | some (.andGuard skip) => guarded false skip
    | some (.orGuard skip) => guarded true skip
    | some node =>
      instruction operands element base node
      body code stop operands element base fuel (pc + 1)

def elementValue (code : Array Node) (start stop : Nat) (operands : Array Operand) (fuel : Nat)
    (element : Element) : MachineM Scalar := do
  let base := (← get).run.size
  body code stop operands element base fuel start
  let value ← onRun Stack.pop
  if (← get).run.size ≠ base then malformed "RUN STACK NOT BALANCED"
  return value

/-- Fill a cell with the values of the elements at some indices, from a number on. -/
def elements (value : Element → MachineM Scalar) : List Index → Nat → Cell → MachineM Cell
  | [], _, out => return out
  | index :: rest, number, out => do
    checkInterrupt
    let s ← value ⟨index, number⟩
    let out ← check (out.set number s)
    elements value rest (number + 1) out

/-! ### Expressions -/

/-- The value of an expression that is computed: its operands, then its elements. -/
def computed (sub : Sub) (code : Array Node) (pc : Nat) (header : Header) (fill : Option Shape)
    (fuel : Nat) : MachineM Cell := do
  let (operands, start) ← operandsWith sub code header.slots (pc + 1)
  let shape ← check (domain (operands.map fun operand => operand.view.shape))
  let shape := if shape.isScalar then fill.getD shape else shape
  let out ← check (Cell.allocate header.type shape .temporary)
  elements (elementValue code start (behind pc header.length) operands.toArray fuel)
    shape.indices 0 out

/-- The value of the expression at an address.  A single value is repeated to the shape `fill`, if
one is given.  The fuel bounds the nesting and the length of each run of a body. -/
def expression (code : Array Node) : (fuel : Nat) → Sub
  | 0, _, _ => throw .exhausted
  | fuel + 1, pc, fill => do
    match code[pc]? with
    | some (.expr header) =>
      match header.access with
      | .reference var => return (← valueOf var).owned .reference
      | .name name => return .scalar (.text name)
      | .value => computed (expression code fuel) code pc header fill (fuel + 1)
    | _ => malformed "EXPRESSION EXPECTED"

def nested (code : Array Node) (fuel pc : Nat) (fill : Option Shape) : MachineM (Cell × Nat) :=
  nestedWith (expression code fuel) code pc fill

end Evaluate

end ArrayCommand
