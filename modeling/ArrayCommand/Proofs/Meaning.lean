/-
What expressions stand for, said on their trees.

The machine runs an expression as a flat list of nodes on a stack.  Here the same expression is
evaluated by recursion on its tree, without nodes, slots or stacks.  The operands of a tree are
resolved from left to right; what is left is a function that gives the value at each element.  The
value of a complete expression is the cell of these values over the common shape of the operands.

* `HostM` — a computation that uses the host and only reads the variables;
* `Meaning` — the shapes of the resolved operands, and the value at each element;
* `Meaning.cell` — the values at all elements of the common shape, in storage order;
* `Expr.meaning` — the meaning of a tree;
* `Subscript.view`, `Argument.cell` — the section that subscripts select, and the cell that an
  argument hands over;
* `Expr.evaluate` — the value of a complete expression;
* `Expr.Hereditary` — what a tree has if its parts have it, every tree has.
-/

import ArrayCommand.Machine.Evaluate
import ArrayCommand.Expr

namespace ArrayCommand

open ArrayCommand.Expr

open Evaluate (Element AxisRange axisRange)

abbrev HostM := EStateM Fault Host

namespace Direct

def check {α σ : Type} (result : Except Fault α) : EStateM Fault σ α :=
  match result with
  | .ok a => pure a
  | .error fault => throw fault

def functionOf (w : Workspace) (func : Nat) : HostM Function :=
  match w.functions[func]? with
  | some f => return f
  | none => throw (.because .internalError "FUNCTION")

/-- Run the body of a function on its arguments.  What it did to the host stays also if it fails. -/
def invoke (f : Function) (args : Array Cell) (out : Option Cell) :
    HostM (Array Cell × Option Cell) := fun host =>
  match f.native ⟨host, args, out⟩ with
  | .ok () c => .ok (c.args, c.out) c.host
  | .error fault c => .error fault c.host

end Direct

open Direct (check functionOf invoke)

/-! ### Meanings -/

/-- The shapes of the operands of an expression, and its value at each element. -/
@[ext]
structure Meaning where
  shapes : List Shape
  value : Element → HostM Scalar

def Operand.element (w : Workspace) (operand : Operand) (element : Element) : Except Fault Scalar :=
  let offset := operand.view.offset element.index
  match operand.source with
  | .var var => do (← w.memory.value var).get offset
  | .cell cell => cell.get offset

namespace Meaning

def const (value : Scalar) : Meaning := ⟨[], fun _ => return value⟩

/-- The number of the element, counted from one. -/
def placeholder : Meaning := ⟨[], fun element => return .integer (element.number + 1)⟩

def operand (w : Workspace) (operand : Operand) : Meaning :=
  ⟨[operand.view.shape], fun element => check (operand.element w element)⟩

/-- A cell filled with the values at some indices, from a number on. -/
def fillFrom (value : Element → HostM Scalar) : List Index → Nat → Cell → HostM Cell
  | [], _, out => return out
  | index :: rest, number, out => do
    let s ← value ⟨index, number⟩
    let out ← check (out.set number s)
    fillFrom value rest (number + 1) out

/-- The values at all elements of the common shape of the operands.  A single value is repeated to
the shape `fill`, if one is given. -/
def cell (m : Meaning) (type : ElementType) (fill : Option Shape) : HostM Cell := do
  let shape ← check (Evaluate.domain m.shapes)
  let shape := if shape.isScalar then fill.getD shape else shape
  let out ← check (Cell.allocate type shape .temporary)
  fillFrom m.value shape.indices 0 out

/-- The integer of a complete integer expression. -/
def integer (m : Meaning) : HostM Int := do check (← m.cell .integer none).integer

/-- A value computed from one value at each element. -/
def map (f : Scalar → Except Fault Scalar) (m : Meaning) : Meaning :=
  ⟨m.shapes, fun element => do check (f (← m.value element))⟩

/-- A value computed from two values at each element, the left one first. -/
def map₂ (f : Scalar → Scalar → Except Fault Scalar) (l r : Meaning) : Meaning :=
  ⟨l.shapes ++ r.shapes, fun element => do
    let a ← l.value element
    let b ← r.value element
    check (f a b)⟩

/-- The left value where it decides, that is where it is `decisive`; else the right one, which is
not computed where the left one decides. -/
def guarded (decisive : Bool) (l r : Meaning) : Meaning :=
  ⟨l.shapes ++ r.shapes, fun element => do
    let a ← l.value element
    if (← check a.truth) == decisive then return a
    r.value element⟩

def shapesOption (m : Option Meaning) : List Shape := (m.map shapes).getD []

def valueOption (element : Element) : Option Meaning → HostM (Option Scalar)
  | none => return none
  | some m => do return some (← m.value element)

end Meaning

/-! ### Parts of an expression -/

/-- A value converted to a type, if that is needed. -/
def Scalar.convertIf (needed : Bool) (type : ElementType) (s : Scalar) : Except Fault Scalar :=
  if needed then s.convert type else .ok s

/-- A binary operation with the conversions of its operands. -/
def BinaryOp.applyAt (op : BinaryOp) (type : ElementType) (coerceLeft coerceRight : Bool)
    (l r : Scalar) : Except Fault Scalar := do
  let l ← l.convertIf coerceLeft type
  let r ← r.convertIf coerceRight type
  op.apply l r

def Scalar.between (text : Scalar) (first last : Int) : Except Fault Scalar :=
  match text with
  | .text text => (substring text first last).map .text
  | _ => .error (.because .typeMismatch "SUB-STRING OF NON STRING")

/-- A part of a text, from one position to another or a single character. -/
def Scalar.part (text first : Scalar) : (last : Option Scalar) → Except Fault Scalar
  | none => do
    let first ← first.toInteger
    text.between first first
  | some last => do
    let last ← last.toInteger
    let first ← first.toInteger
    text.between first last

def Direct.call (w : Workspace) (func : Nat) (type : ElementType) (args : List Scalar) :
    HostM Scalar := do
  let f ← functionOf w func
  let (_, out) ←
    invoke f (args.map Cell.scalar).toArray (some (Cell.fresh type .scalar .temporary))
  match out with
  | some out => check out.first
  | none => throw (.because .internalError "NO OUTPUT CELL")

def Meaning.part (text first : Meaning) (last : Option Meaning) : Meaning :=
  ⟨text.shapes ++ first.shapes ++ shapesOption last, fun element => do
    let text ← text.value element
    let first ← first.value element
    let last ← valueOption element last
    check (text.part first last)⟩

def Meaning.call (w : Workspace) (func : Nat) (type : ElementType) (args : List Meaning) :
    Meaning :=
  ⟨(args.map shapes).flatten, fun element => do
    Direct.call w func type (← args.mapM fun m => m.value element)⟩

/-- The result of a function in the type it is declared with. -/
def Cell.inType (c : Cell) (type : ElementType) : Except Fault Cell :=
  if c.type = type then .ok c else c.convert type

def Direct.callOnce (f : Function) (type : ElementType) (args : List Cell) : HostM Operand := do
  let fresh := Cell.fresh type .scalar .functionValue
  let (_, out) ← invoke f args.toArray (some fresh)
  let out ← check ((out.getD fresh).inType type)
  return ⟨.cell out, .whole out.shape⟩

/-- The cell of an argument as a function called once gets it. -/
def Function.onceCell (f : Function) (index : Nat) (cell : Cell) : Except Fault Cell := do
  Machine.checkRank f index cell
  return if (f.decl index).mode = .reference then cell.owned .functionReference else cell

def Shape.cast (shape : Shape) (dims : List Nat) : Except Fault Shape := do
  let reshaped ← Shape.ofDims dims
  if reshaped.size ≠ shape.size then
    .error (.because .shapeMismatch ("CANNOT CAST " ++ shape.text ++ " TO " ++ reshaped.text))
  else .ok reshaped

/-- The range of an axis whose bounds may be missing: they are the ends of the axis, in the direction
of the step. -/
def Evaluate.axisBetween (axis extent : Nat) (first last step : Option Int) :
    Except Fault AxisRange := do
  let step := step.getD 1
  if step = 0 then throw (.because .domainError "ZERO STEP")
  let (low, high) := if 0 < step then (1, (extent : Int)) else ((extent : Int), 1)
  axisRange axis extent (first.getD low) (last.getD high) step

def Evaluate.extentOf (n : Int) : Except Fault Nat :=
  if n < 0 then .error (.because .domainError "NEGATIVE EXTENT") else .ok n.toNat

def Evaluate.checkAxes (count : Nat) (shape : Shape) : Except Fault Unit :=
  if count ≠ shape.rank then
    .error (.because .rankMismatch
      (toString count ++ " SUBSCRIPTS FOR RANK " ++ toString shape.rank))
  else .ok ()

/-! ### Trees -/

mutual

/-- The meaning of a tree: its operands are resolved from left to right. -/
def Expr.meaning (w : Workspace) : Expr → HostM Meaning
  | .const value => return .const value
  | .placeholder => return .placeholder
  | .whole var => do
    let value ← check (w.memory.value var)
    return .operand w ⟨.var var, .whole value.shape⟩
  | .cast var [] => do
    let value ← check (w.memory.value var)
    return .operand w ⟨.var var, .whole value.shape⟩
  | .cast var (e :: es) => do
    let value ← check (w.memory.value var)
    let dims ← Expr.extents w (e :: es)
    let shape ← check (value.shape.cast dims)
    return .operand w ⟨.var var, .whole shape⟩
  | .slice var subscripts => do
    let value ← check (w.memory.value var)
    check (Evaluate.checkAxes subscripts.length value.shape)
    let ranges ← Subscript.spans w value.shape 0 0 subscripts
    let view ← check (Evaluate.viewOf value.shape (subscripts.map Subscript.axis) ranges)
    return .operand w ⟨.var var, view⟩
  | .once func args type => do
    let f ← functionOf w func
    let cells ← Argument.onceCells w f 0 args
    return .operand w (← Direct.callOnce f type cells)
  | .call func args type => do return .call w func type (← Expr.meanings w args)
  | .substring text first last => do
    let text ← text.meaning w
    let first ← first.meaning w
    let last ← Expr.meaningOption w last
    return .part text first last
  | .coerce want e => do return (← e.meaning w).map fun s => s.convert want
  | .neg _ e => do return (← e.meaning w).map Scalar.negate
  | .not e => do return (← e.meaning w).map Scalar.complement
  | .binary op type coerceLeft coerceRight l r => do
    let l ← l.meaning w
    let r ← r.meaning w
    return .map₂ (op.applyAt type coerceLeft coerceRight) l r
  | .and l r => do
    let l ← l.meaning w
    let r ← r.meaning w
    return .guarded false l r
  | .or l r => do
    let l ← l.meaning w
    let r ← r.meaning w
    return .guarded true l r

def Expr.meanings (w : Workspace) : List Expr → HostM (List Meaning)
  | [] => return []
  | e :: es => do
    let m ← e.meaning w
    return m :: (← Expr.meanings w es)

def Expr.meaningOption (w : Workspace) : Option Expr → HostM (Option Meaning)
  | none => return none
  | some e => do return some (← e.meaning w)

/-- Extents given by complete integer expressions. -/
def Expr.extents (w : Workspace) : List Expr → HostM (List Nat)
  | [] => return []
  | e :: es => do
    let n ← (← e.meaning w).integer
    let extent ← check (Evaluate.extentOf n)
    return extent :: (← Expr.extents w es)

/-- The integer of a complete expression that may be missing. -/
def Expr.bound (w : Workspace) : Option Expr → HostM (Option Int)
  | none => return none
  | some e => do return some (← (← e.meaning w).integer)

/-- The range that a subscript selects on an axis. -/
def Subscript.span (w : Workspace) (axis extent : Nat) : Subscript → HostM AxisRange
  | .all => check (axisRange axis extent 1 extent 1)
  | .at e => do
    let i ← (← e.meaning w).integer
    check (axisRange axis extent i i 1)
  | .range first last step => do
    let first ← Expr.bound w first
    let last ← Expr.bound w last
    let step ← Expr.bound w step
    check (Evaluate.axisBetween axis extent first last step)

/-- The ranges that subscripts select, from an axis on; the axes before it have brought the section
to `base`. -/
def Subscript.spans (w : Workspace) (shape : Shape) : (axis : Nat) → (base : Int) →
    List Subscript → HostM (List AxisRange)
  | _, _, [] => return []
  | axis, base, s :: rest => do
    let range ← s.span w axis (shape.extent axis)
    let base ← check (Evaluate.placed s.axis range (Evaluate.signedStride shape axis) base)
    return range :: (← Subscript.spans w shape (axis + 1) base rest)

def Argument.cell (w : Workspace) : Argument → HostM Cell
  | .value e type => do (← e.meaning w).cell type none
  | .reference var _ => do return (← check (w.memory.value var)).owned .reference
  | .name text => return .scalar (.text text)

/-- The cells of the arguments of a function called once, from an argument on. -/
def Argument.onceCells (w : Workspace) (f : Function) : (index : Nat) → List Argument →
    HostM (List Cell)
  | _, [] => return []
  | index, a :: rest => do
    let cell ← a.cell w
    let cell ← check (f.onceCell index cell)
    return cell :: (← Argument.onceCells w f (index + 1) rest)

end

-- Without extents there is nothing to reshape.
example (w : Workspace) (var : Handle) :
    meaning w (.cast var []) = meaning w (.whole var) := by
  rw [meaning, meaning]

/-- The section of an array that subscripts select. -/
def Subscript.view (w : Workspace) (shape : Shape) (subscripts : List Subscript) : HostM View := do
  check (Evaluate.checkAxes subscripts.length shape)
  let ranges ← Subscript.spans w shape 0 0 subscripts
  check (Evaluate.viewOf shape (subscripts.map Subscript.axis) ranges)

def Expr.evaluate (w : Workspace) (e : Expr) (type : ElementType) (fill : Option Shape) :
    HostM Cell := do
  (← e.meaning w).cell type fill

/-! ### Induction over trees -/

def Subscript.parts : Subscript → List Expr
  | .all => []
  | .at e => [e]
  | .range first last step => first.toList ++ last.toList ++ step.toList

def Argument.parts : Argument → List Expr
  | .value e _ => [e]
  | .reference _ _ => []
  | .name _ => []

/-- A property that a tree has if all its parts have it. -/
structure Expr.Hereditary (P : Expr → Prop) : Prop where
  const : ∀ value, P (.const value)
  placeholder : P .placeholder
  whole : ∀ var, P (.whole var)
  cast : ∀ var extents, (∀ e ∈ extents, P e) → P (.cast var extents)
  slice : ∀ var subscripts, (∀ s ∈ subscripts, ∀ e ∈ s.parts, P e) → P (.slice var subscripts)
  once : ∀ func args type, (∀ a ∈ args, ∀ e ∈ a.parts, P e) → P (.once func args type)
  call : ∀ func args type, (∀ e ∈ args, P e) → P (.call func args type)
  substring : ∀ text first last, P text → P first → (∀ e ∈ last, P e) →
    P (.substring text first last)
  coerce : ∀ want e, P e → P (.coerce want e)
  neg : ∀ type e, P e → P (.neg type e)
  not : ∀ e, P e → P (.not e)
  binary : ∀ op type coerceLeft coerceRight l r, P l → P r →
    P (.binary op type coerceLeft coerceRight l r)
  and : ∀ l r, P l → P r → P (.and l r)
  or : ∀ l r, P l → P r → P (.or l r)

variable {P : Expr → Prop}

mutual

theorem Expr.Hereditary.holds (h : Hereditary P) : ∀ e, P e
  | .const value => h.const value
  | .placeholder => h.placeholder
  | .whole var => h.whole var
  | .cast var extents => h.cast var extents (h.all extents)
  | .slice var subscripts => h.slice var subscripts (h.subscripts subscripts)
  | .once func args type => h.once func args type (h.arguments args)
  | .call func args type => h.call func args type (h.all args)
  | .substring text first last =>
    h.substring text first last (h.holds text) (h.holds first) (h.option last)
  | .coerce want e => h.coerce want e (h.holds e)
  | .neg type e => h.neg type e (h.holds e)
  | .not e => h.not e (h.holds e)
  | .binary op type coerceLeft coerceRight l r =>
    h.binary op type coerceLeft coerceRight l r (h.holds l) (h.holds r)
  | .and l r => h.and l r (h.holds l) (h.holds r)
  | .or l r => h.or l r (h.holds l) (h.holds r)

theorem Expr.Hereditary.all (h : Hereditary P) : ∀ es : List Expr, ∀ e ∈ es, P e
  | [] => nofun
  | e :: es => List.forall_mem_cons.2 ⟨h.holds e, h.all es⟩

theorem Expr.Hereditary.option (h : Hereditary P) : ∀ o : Option Expr, ∀ e ∈ o, P e
  | none => nofun
  | some e => fun _ he => Option.mem_some.1 he ▸ h.holds e

theorem Expr.Hereditary.subscript (h : Hereditary P) : ∀ s : Subscript, ∀ e ∈ s.parts, P e
  | .all => nofun
  | .at e => List.forall_mem_cons.2 ⟨h.holds e, nofun⟩
  | .range first last step => by
      have hfirst := h.option first
      have hlast := h.option last
      have hstep := h.option step
      intro e he
      simp only [Subscript.parts, List.mem_append, Option.mem_toList] at he
      obtain (he | he) | he := he
      · exact hfirst e he
      · exact hlast e he
      · exact hstep e he

theorem Expr.Hereditary.subscripts (h : Hereditary P) :
    ∀ ss : List Subscript, ∀ s ∈ ss, ∀ e ∈ s.parts, P e
  | [] => nofun
  | s :: ss => List.forall_mem_cons.2 ⟨h.subscript s, h.subscripts ss⟩

theorem Expr.Hereditary.argument (h : Hereditary P) : ∀ a : Argument, ∀ e ∈ a.parts, P e
  | .value e _ => List.forall_mem_cons.2 ⟨h.holds e, nofun⟩
  | .reference _ _ => nofun
  | .name _ => nofun

theorem Expr.Hereditary.arguments (h : Hereditary P) :
    ∀ as : List Argument, ∀ a ∈ as, ∀ e ∈ a.parts, P e
  | [] => nofun
  | a :: as => List.forall_mem_cons.2 ⟨h.argument a, h.arguments as⟩

end

end ArrayCommand
