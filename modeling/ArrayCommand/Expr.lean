/-
Expressions as typed trees, and the nodes they are compiled to.

The operands that must be resolved before the elements are computed (whole variables, reshaped
variables, sections, calls made once) are numbered from left to right; their nodes come first.  The
rest of a tree becomes the body, in the order in which its values are computed.
-/

import ArrayCommand.Node

namespace ArrayCommand

/-! ### Trees -/

mutual

/-- A typed expression.  Functions are given by their numbers and variables by their handles; the
type of a call is the type of its result, the type of a binary operation that of its operands. -/
inductive Expr where
  | const (value : Scalar)
  | placeholder
  | whole (var : Handle)
  | cast (var : Handle) (extents : List Expr)
  | slice (var : Handle) (subscripts : List Subscript)
  | once (func : Nat) (args : List Argument) (type : ElementType)
  | call (func : Nat) (args : List Expr) (type : ElementType)
  | substring (text first : Expr) (last : Option Expr)
  | coerce (want : ElementType) (e : Expr)
  | neg (type : ElementType) (e : Expr)
  | not (e : Expr)
  | binary (op : BinaryOp) (type : ElementType) (coerceLeft coerceRight : Bool) (l r : Expr)
  | and (l r : Expr)
  | or (l r : Expr)

/-- A subscript of a section: all of an axis, one element, or a range. -/
inductive Subscript where
  | all
  | at (index : Expr)
  | range (first last step : Option Expr)

/-- An argument of a command or of a call made once. -/
inductive Argument where
  | value (e : Expr) (type : ElementType)
  | reference (var : Handle) (type : ElementType)
  | name (text : String)

end

def Subscript.axis : Subscript → Axis
  | .all => .all
  | .at _ => .at
  | .range first last step => .range first.isSome last.isSome step.isSome

/-! ### Slots -/

mutual

/-- How many operands of a tree are resolved before its elements are computed. -/
def Expr.slots : Expr → Nat
  | .const _ => 0
  | .placeholder => 0
  | .whole _ => 1
  | .cast _ _ => 1
  | .slice _ _ => 1
  | .once _ _ _ => 1
  | .call _ args _ => Expr.slotsAll args
  | .substring text first last => text.slots + first.slots + Expr.slotsOption last
  | .coerce _ e => e.slots
  | .neg _ e => e.slots
  | .not e => e.slots
  | .binary _ _ _ _ l r => l.slots + r.slots
  | .and l r => l.slots + r.slots
  | .or l r => l.slots + r.slots

def Expr.slotsAll : List Expr → Nat
  | [] => 0
  | e :: es => e.slots + Expr.slotsAll es

def Expr.slotsOption : Option Expr → Nat
  | none => 0
  | some e => e.slots

end

/-! ### The body -/

/-- A conversion of the value `depth` below the top, if one is needed. -/
def coercion (needed : Bool) (want : ElementType) (depth : Nat) : List Node :=
  if needed then [.coerce want depth] else []

mutual

/-- The nodes run for every element; the first slot of the tree is `slot`. -/
def Expr.body (slot : Nat) : Expr → List Node
  | .const value => [.const value]
  | .placeholder => [.placeholder]
  | .whole _ => [.operand slot]
  | .cast _ _ => [.operand slot]
  | .slice _ _ => [.operand slot]
  | .once _ _ _ => [.operand slot]
  | .call func args type => Expr.bodies slot args ++ [.call func args.length type]
  | .substring text first last =>
    text.body slot ++ first.body (slot + text.slots) ++
      Expr.bodyOption (slot + text.slots + first.slots) last ++
      [.substring (if last.isSome then 2 else 1)]
  | .coerce want e => e.body slot ++ [.coerce want 0]
  | .neg type e => e.body slot ++ [.neg type]
  | .not e => e.body slot ++ [.not]
  | .binary op type coerceLeft coerceRight l r =>
    l.body slot ++ r.body (slot + l.slots) ++ coercion coerceLeft type 1 ++
      coercion coerceRight type 0 ++ [.binary op type]
  | .and l r =>
    l.body slot ++ [.andGuard ((r.body (slot + l.slots)).length + 1)] ++ r.body (slot + l.slots)
  | .or l r =>
    l.body slot ++ [.orGuard ((r.body (slot + l.slots)).length + 1)] ++ r.body (slot + l.slots)

def Expr.bodies (slot : Nat) : List Expr → List Node
  | [] => []
  | e :: es => e.body slot ++ Expr.bodies (slot + e.slots) es

def Expr.bodyOption (slot : Nat) : Option Expr → List Node
  | none => []
  | some e => e.body slot

end

/-! ### The operands resolved first -/

def headed (type : ElementType) (slots : Nat) (prologue body : List Node) : List Node :=
  .expr ⟨prologue.length + body.length, slots, type, .value⟩ :: (prologue ++ body)

def bareHeader (type : ElementType) (access : Access) : List Node := [.expr ⟨0, 0, type, access⟩]

mutual

/-- The nodes of the operands that are resolved first; the first slot of the tree is `slot`. -/
def Expr.prologue (slot : Nat) : Expr → List Node
  | .const _ => []
  | .placeholder => []
  | .whole var => [.array slot var 0]
  | .cast var extents => .array slot var extents.length :: Expr.codes extents
  | .slice var subscripts =>
    .index slot var (subscripts.map Subscript.axis) :: Subscript.codes subscripts
  | .once func args type => .once slot func args.length type :: Argument.codes args
  | .call _ args _ => Expr.prologues slot args
  | .substring text first last =>
    text.prologue slot ++ first.prologue (slot + text.slots) ++
      Expr.prologueOption (slot + text.slots + first.slots) last
  | .coerce _ e => e.prologue slot
  | .neg _ e => e.prologue slot
  | .not e => e.prologue slot
  | .binary _ _ _ _ l r => l.prologue slot ++ r.prologue (slot + l.slots)
  | .and l r => l.prologue slot ++ r.prologue (slot + l.slots)
  | .or l r => l.prologue slot ++ r.prologue (slot + l.slots)

def Expr.prologues (slot : Nat) : List Expr → List Node
  | [] => []
  | e :: es => e.prologue slot ++ Expr.prologues (slot + e.slots) es

def Expr.prologueOption (slot : Nat) : Option Expr → List Node
  | none => []
  | some e => e.prologue slot

def Expr.codes : List Expr → List Node
  | [] => []
  | e :: es => headed .integer e.slots (e.prologue 0) (e.body 0) ++ Expr.codes es

def Expr.codeOption : Option Expr → List Node
  | none => []
  | some e => headed .integer e.slots (e.prologue 0) (e.body 0)

def Subscript.code : Subscript → List Node
  | .all => []
  | .at e => headed .integer e.slots (e.prologue 0) (e.body 0)
  | .range first last step =>
    Expr.codeOption first ++ Expr.codeOption last ++ Expr.codeOption step

def Subscript.codes : List Subscript → List Node
  | [] => []
  | s :: rest => s.code ++ Subscript.codes rest

def Argument.code : Argument → List Node
  | .value e type => headed type e.slots (e.prologue 0) (e.body 0)
  | .reference var type => bareHeader type (.reference var)
  | .name text => bareHeader .text (.name text)

def Argument.codes : List Argument → List Node
  | [] => []
  | a :: rest => a.code ++ Argument.codes rest

end

def Expr.code (e : Expr) (type : ElementType) : List Node :=
  headed type e.slots (e.prologue 0) (e.body 0)

end ArrayCommand
