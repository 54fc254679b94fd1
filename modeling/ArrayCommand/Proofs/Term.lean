/-
Expressions as they are written, and what they stand for.

The trees here have no conversions and no types of operations: where an integer and a floating point
number meet, the values themselves say so.  Their meaning is the one a reader expects of the
language: variables, sections, reshaped variables and calls made once are resolved in the order in
which they are written, their shapes give the common shape, and the rest is computed element by
element, each time from left to right.

* `Term`, `Selector`, `Actual` — expressions, subscripts and arguments as they are written, with
  their names resolved;
* `Term.type` — the type of the elements of an expression;
* `BinaryOp.promoted` — a binary operation on values that may be of two numeric types;
* `Term.meaning`, `Term.evaluate` — the meaning of an expression, and its value.
-/

import ArrayCommand.Proofs.Meaning

namespace ArrayCommand

open Evaluate (AxisRange axisRange)
open Direct (check functionOf)

/-! ### Expressions -/

mutual

/-- An expression as it is written.  A variable is given by its handle and the type it was declared
with, a function by its number. -/
inductive Term where
  | literal (value : Scalar)
  | placeholder
  | whole (var : Handle) (type : ElementType)
  | cast (var : Handle) (type : ElementType) (extents : List Term)
  | slice (var : Handle) (type : ElementType) (selectors : List Selector)
  | once (func : Nat) (args : List Actual)
  | call (func : Nat) (args : List Term)
  | part (text first : Term) (last : Option Term)
  | plus (e : Term)
  | minus (e : Term)
  | not (e : Term)
  | binary (op : BinaryOp) (l r : Term)
  | and (l r : Term)
  | or (l r : Term)

/-- A subscript of a section as it is written. -/
inductive Selector where
  | all
  | at (index : Term)
  | range (first last step : Option Term)

/-- An argument of a call made once as it is written. -/
inductive Actual where
  | value (e : Term)
  | reference (var : Handle) (type : ElementType)
  | name (text : String)

end

def Selector.axis : Selector → Axis
  | .all => .all
  | .at _ => .at
  | .range first last step => .range first.isSome last.isSome step.isSome

/-! ### Types -/

/-- The type in which an argument is handed over: the declared one, if that is a single type. -/
def ArgDecl.target (decl : ArgDecl) (type : ElementType) : ElementType :=
  match decl.type with
  | .float => .float
  | .integer => .integer
  | .text => .text
  | .literal => .text
  | .logical => .logical
  | .any => type
  | .numeric => type

namespace Workspace

/-- The declaration of an argument of a function. -/
def declOf (w : Workspace) (func index : Nat) : ArgDecl :=
  match w.functions[func]? with
  | some f => f.decl index
  | none => ⟨.any, .any, .value⟩

/-- The type of the result of a function whose arguments have the given types. -/
def returned (w : Workspace) (func : Nat) (types : List ElementType) : ElementType :=
  match w.functions[func]?.map Function.returns with
  | some (.fixed type) => type
  | some (.sameAs index) => types[index]?.getD .integer
  | _ => .integer

end Workspace

/-- The type of the result of a binary operation. -/
def BinaryOp.resultOf (op : BinaryOp) (l r : ElementType) : ElementType :=
  ((BinaryOp.meet? l r).bind op.result?).getD l

mutual

def Term.type (w : Workspace) : Term → ElementType
  | .literal value => value.type
  | .placeholder => .integer
  | .whole _ type => type
  | .cast _ type _ => type
  | .slice _ type _ => type
  | .once func args => w.returned func (Actual.types w func 0 args)
  | .call func args => w.returned func (Term.types w func 0 args)
  | .part _ _ _ => .text
  | .plus e => e.type w
  | .minus e => e.type w
  | .not _ => .logical
  | .binary op l r => op.resultOf (l.type w) (r.type w)
  | .and _ _ => .logical
  | .or _ _ => .logical

/-- The types in which a function called for every element gets its arguments, from one on. -/
def Term.types (w : Workspace) (func : Nat) : (index : Nat) → List Term → List ElementType
  | _, [] => []
  | index, e :: es => (w.declOf func index).target (e.type w) :: Term.types w func (index + 1) es

/-- The types in which a function called once gets its arguments, from one on. -/
def Actual.types (w : Workspace) (func : Nat) : (index : Nat) → List Actual → List ElementType
  | _, [] => []
  | index, .value e :: rest =>
    (w.declOf func index).target (e.type w) :: Actual.types w func (index + 1) rest
  | index, .reference _ type :: rest => type :: Actual.types w func (index + 1) rest
  | index, .name _ :: rest => .text :: Actual.types w func (index + 1) rest

end

-- A sign does not change the type.
example (w : Workspace) (e : Term) : (Term.minus e).type w = (Term.plus e).type w := by
  rw [Term.type, Term.type]

/-! ### Values -/

/-- Two values as numbers of one type: an integer becomes a floating point number where it meets
one. -/
def Scalar.promote : Scalar → Scalar → Scalar × Scalar
  | .integer l, .float r => (.float (Float.ofInt l), .float r)
  | .float l, .integer r => (.float l, .float (Float.ofInt r))
  | l, r => (l, r)

def BinaryOp.promoted (op : BinaryOp) (l r : Scalar) : Except Fault Scalar :=
  op.apply (l.promote r).1 (l.promote r).2

def Meaning.converted (m : Meaning) (type : ElementType) : Meaning := m.map fun s => s.convert type

/-! ### Meanings -/

mutual

/-- The meaning of an expression: what must be resolved is resolved in the order in which it is
written. -/
def Term.meaning (w : Workspace) : Term → HostM Meaning
  | .literal value => return .const value
  | .placeholder => return .placeholder
  | .whole var _ => do
    let value ← check (w.memory.value var)
    return .operand w ⟨.var var, .whole value.shape⟩
  | .cast var _ [] => do
    let value ← check (w.memory.value var)
    return .operand w ⟨.var var, .whole value.shape⟩
  | .cast var _ (e :: es) => do
    let value ← check (w.memory.value var)
    let dims ← Term.extents w (e :: es)
    let shape ← check (value.shape.cast dims)
    return .operand w ⟨.var var, .whole shape⟩
  | .slice var _ selectors => do
    let value ← check (w.memory.value var)
    check (Evaluate.checkAxes selectors.length value.shape)
    let ranges ← Selector.spans w value.shape 0 0 selectors
    let view ← check (Evaluate.viewOf value.shape (selectors.map Selector.axis) ranges)
    return .operand w ⟨.var var, view⟩
  | .once func args => do
    let f ← functionOf w func
    let cells ← Actual.cells w f 0 args
    return .operand w (← Direct.callOnce f (Term.type w (.once func args)) cells)
  | .call func args => do
    let f ← functionOf w func
    let args' ← Term.handed w f 0 args
    return .call w func (Term.type w (.call func args)) args'
  | .part text first last => do
    let text ← text.meaning w
    let first ← first.meaning w
    let last ← Term.meaningOption w last
    return .part text (first.converted .integer) (last.map (·.converted .integer))
  | .plus e => e.meaning w
  | .minus e => do return (← e.meaning w).map Scalar.negate
  | .not e => do return (← e.meaning w).map Scalar.complement
  | .binary op l r => do
    let l ← l.meaning w
    let r ← r.meaning w
    return .map₂ op.promoted l r
  | .and l r => do
    let l ← l.meaning w
    let r ← r.meaning w
    return .guarded false l r
  | .or l r => do
    let l ← l.meaning w
    let r ← r.meaning w
    return .guarded true l r

/-- The meaning of an expression that may be missing. -/
def Term.meaningOption (w : Workspace) : Option Term → HostM (Option Meaning)
  | none => return none
  | some e => do return some (← e.meaning w)

/-- The arguments of a function called for every element, in the types it wants. -/
def Term.handed (w : Workspace) (f : Function) : (index : Nat) → List Term → HostM (List Meaning)
  | _, [] => return []
  | index, e :: es => do
    let m ← e.meaning w
    return m.converted ((f.decl index).target (e.type w)) :: (← Term.handed w f (index + 1) es)

def Term.extents (w : Workspace) : List Term → HostM (List Nat)
  | [] => return []
  | e :: es => do
    let m ← e.meaning w
    let n ← (m.converted .integer).integer
    let extent ← check (Evaluate.extentOf n)
    return extent :: (← Term.extents w es)

/-- The integer of a complete expression that may be missing. -/
def Term.bound (w : Workspace) : Option Term → HostM (Option Int)
  | none => return none
  | some e => do
    let m ← e.meaning w
    return some (← (m.converted .integer).integer)

/-- The range that a subscript selects on an axis. -/
def Selector.span (w : Workspace) (axis extent : Nat) : Selector → HostM AxisRange
  | .all => check (axisRange axis extent 1 extent 1)
  | .at e => do
    let m ← e.meaning w
    let i ← (m.converted .integer).integer
    check (axisRange axis extent i i 1)
  | .range first last step => do
    let first ← Term.bound w first
    let last ← Term.bound w last
    let step ← Term.bound w step
    check (Evaluate.axisBetween axis extent first last step)

/-- The ranges that subscripts select, from an axis on. -/
def Selector.spans (w : Workspace) (shape : Shape) : (axis : Nat) → (base : Int) →
    List Selector → HostM (List AxisRange)
  | _, _, [] => return []
  | axis, base, s :: rest => do
    let range ← s.span w axis (shape.extent axis)
    let base ← check (Evaluate.placed s.axis range (Evaluate.signedStride shape axis) base)
    return range :: (← Selector.spans w shape (axis + 1) base rest)

/-- The cell that an argument hands over to a function that declares it. -/
def Actual.cell (w : Workspace) (decl : ArgDecl) : Actual → HostM Cell
  | .value e => do
    let m ← e.meaning w
    let type := decl.target (e.type w)
    (m.converted type).cell type none
  | .reference var _ => do return (← check (w.memory.value var)).owned .reference
  | .name text => return .scalar (.text text)

/-- The cells of the arguments of a function called once, from an argument on. -/
def Actual.cells (w : Workspace) (f : Function) : (index : Nat) → List Actual → HostM (List Cell)
  | _, [] => return []
  | index, a :: rest => do
    let cell ← a.cell w (f.decl index)
    let cell ← check (f.onceCell index cell)
    return cell :: (← Actual.cells w f (index + 1) rest)

end

-- Without extents there is nothing to reshape.
example (w : Workspace) (var : Handle) (type : ElementType) :
    Term.meaning w (.cast var type []) = Term.meaning w (.whole var type) := by
  rw [Term.meaning, Term.meaning]

/-- The value of an expression; a single value is repeated to the shape `fill`, if one is given. -/
def Term.evaluate (w : Workspace) (e : Term) (fill : Option Shape) : HostM Cell := do
  (← e.meaning w).cell (e.type w) fill

end ArrayCommand
