/-
Program nodes.

A compiled statement is a flat list of nodes.  Every jump is stored as a distance from the node
that holds it, so a list of nodes means the same wherever it stands.

An expression is a header, the operands that are resolved before any element is computed (whole
arrays, sections and calls made once), and a body that is run once for every element.  Statement
nodes stand before the expressions they use: a command before its arguments, an assignment before
its subscripts and values, a declaration before its extents.
-/

import ArrayCommand.Memory

namespace ArrayCommand

/-- One subscript of a section: all elements of an axis, a single one, or a range whose parts may be
missing.  A single element takes its axis out of the section. -/
inductive Axis where
  | all
  | at
  | range (first last step : Bool)
deriving DecidableEq, Repr

/-- How an expression hands over its value: by computing it, as a whole variable, or as a bare
name. -/
inductive Access where
  | value
  | reference (var : Handle)
  | name (text : String)
deriving DecidableEq, Repr

/-- The header of an expression: how many nodes follow, how many of its operands are resolved first,
and the type of its value. -/
structure Header where
  length : Nat
  slots : Nat
  type : ElementType
  access : Access
deriving DecidableEq, Repr

/-- The next value of a counted loop, the step to the one after, and how many rounds remain. -/
structure LoopState where
  next : Scalar
  step : Scalar
  remaining : Nat
deriving BEq, Repr

/-- One node of a program. -/
inductive Node where
  /-- The header of an expression. -/
  | expr (header : Header)
  /-- A whole variable, reshaped to `cast` extents unless that is none. -/
  | array (slot : Nat) (var : Handle) (cast : Nat)
  /-- A section of a variable; the expressions of its subscripts follow. -/
  | index (slot : Nat) (var : Handle) (axes : List Axis)
  /-- A call made once; the expressions of its arguments follow. -/
  | once (slot : Nat) (func : Nat) (argc : Nat) (type : ElementType)
  | const (value : Scalar)
  /-- The present element of a resolved operand. -/
  | operand (slot : Nat)
  /-- The position of the present element, counted from one. -/
  | placeholder
  /-- A call made for every element. -/
  | call (func : Nat) (argc : Nat) (type : ElementType)
  /-- A part of a text, with one or two bounds. -/
  | substring (bounds : Nat)
  /-- A conversion of the value `depth` below the top. -/
  | coerce (want : ElementType) (depth : Nat)
  | neg (type : ElementType)
  | not
  /-- A binary operation on values of one type. -/
  | binary (op : BinaryOp) (type : ElementType)
  /-- Skip the right operand of a conjunction if the left one is false. -/
  | andGuard (skip : Int)
  /-- Skip the right operand of a disjunction if the left one is true. -/
  | orGuard (skip : Int)
  /-- Assign `count` values to a variable or to a section of it. -/
  | assign (var : Handle) (axes : Option (List Axis)) (count : Nat)
  | command (func : Nat) (argc : Nat)
  /-- Give a variable its extents. -/
  | declare (var : Handle) (dims : Nat)
  | branch (offset : Int)
  /-- Take a truth value and jump if it is false. -/
  | branchIfFalse (offset : Int)
  /-- The gate of a loop: where it is left and where its next round starts. -/
  | gate (exit next : Int)
  /-- Leave the loop, or start its next round, through its gate. -/
  | via (offset : Int) (leave : Bool)
  /-- Take the bounds of a counted loop and set its counter. -/
  | loopInit (counter : Int) (step : Bool)
  /-- The counter of a loop: start the next round or leave. -/
  | loopCounter (var : Handle) (state : Option LoopState) (exit : Int)
  | stop
deriving BEq, Repr

namespace Node

def arguments (parts : List String) : String := "(" ++ ",".intercalate parts ++ ")"

def text : Node → String
  | expr h => "EXPR" ++ arguments [toString h.length, toString h.slots, h.type.name]
  | array slot _ cast => "ARRAY" ++ arguments [toString slot, toString cast]
  | index slot _ axes => "INDEX" ++ arguments [toString slot, toString axes.length]
  | once slot func argc _ => "ONCE" ++ arguments [toString slot, toString func, toString argc]
  | const s => "CONST" ++ arguments [s.print]
  | operand slot => "OPERAND" ++ arguments [toString slot]
  | placeholder => "PLACEHOLDER"
  | call func argc _ => "CALL" ++ arguments [toString func, toString argc]
  | substring n => "SUBSTR" ++ arguments [toString n]
  | coerce want depth => "COERCE" ++ arguments [want.name, toString depth]
  | neg ty => "NEG" ++ arguments [ty.name]
  | not => "NOT"
  | binary op ty => op.name ++ arguments [ty.name]
  | andGuard o => "ANDGUARD" ++ arguments [toString o]
  | orGuard o => "ORGUARD" ++ arguments [toString o]
  | assign _ axes count =>
    "ASSIGN" ++ arguments [toString (axes.getD []).length, toString count]
  | command func argc => "COMMAND" ++ arguments [toString func, toString argc]
  | declare _ dims => "DECLARE" ++ arguments [toString dims]
  | branch o => "BRANCH" ++ arguments [toString o]
  | branchIfFalse o => "IFNOT" ++ arguments [toString o]
  | gate exit next => "LINK" ++ arguments [toString exit, toString next]
  | via o leave => "VIA" ++ arguments [toString o, if leave then "EXIT" else "NEXT"]
  | loopInit counter step =>
    "LOOPINIT" ++ arguments [toString counter, if step then "true" else "false"]
  | loopCounter _ _ exit => "LOOPPARAM" ++ arguments [toString exit]
  | stop => "ABORT"

def offsets : Node → List Int
  | branch o => [o]
  | branchIfFalse o => [o]
  | gate exit next => [exit, next]
  | loopCounter _ _ exit => [exit]
  | loopInit counter _ => [counter]
  | via o _ => [o]
  | _ => []

/-- The node with its main jump exchanged, if it is one whose target is found out late. -/
def retarget? : Node → Int → Option Node
  | branch _, o => some (branch o)
  | branchIfFalse _, o => some (branchIfFalse o)
  | gate _ next, o => some (gate o next)
  | loopCounter var state _, o => some (loopCounter var state o)
  | loopInit _ step, o => some (loopInit o step)
  | _, _ => none

end Node

end ArrayCommand
