/-
Conditions: what the command `test` asks of its arguments.
-/

import ArrayCommand.Shell.Arithmetic

namespace ArrayCommand.Shell

/-- What a condition may ask about a file. -/
abbrev Query := (operator path : String) → Bool

namespace Condition

inductive Kind where
  | operand
  | unary
  | binary
  | negation
  | both
  | either
  | openParen
  | closeParen
  | nothing
deriving DecidableEq, Repr

def unaries : List String :=
  ["-r", "-w", "-x", "-e", "-f", "-d", "-c", "-b", "-p", "-u", "-g", "-k", "-s", "-t", "-z", "-n",
    "-h", "-O", "-G", "-L", "-S"]

def binaries : List String :=
  ["=", "!=", "<", ">", "-eq", "-ne", "-ge", "-gt", "-le", "-lt"]

def kindOf (text : String) : Kind :=
  if unaries.contains text then .unary
  else if binaries.contains text then .binary
  else
    match text with
    | "!" => .negation
    | "-a" => .both
    | "-o" => .either
    | "(" => .openParen
    | ")" => .closeParen
    | _ => .operand

/-- A reader of a condition: the state is the place of the argument that is looked at. -/
abbrev Eval := EStateM String Nat

structure Source where
  args : Array String
  query : Query

namespace Source

/-- An operator that stands where its operand would be is an operand itself, if nothing follows or
if it stands before an operator with two operands. -/
def isOperand (s : Source) (place : Nat) : Bool :=
  match s.args[place + 1]? with
  | none => true
  | some next => s.args[place + 2]?.isSome && kindOf next == .binary

def kind (s : Source) (place : Nat) : Kind :=
  match s.args[place]? with
  | none => .nothing
  | some text =>
    match kindOf text with
    | .unary => if s.isOperand place then .operand else .unary
    | .openParen => if s.args[place + 1]?.isNone then .operand else .openParen
    | k => k

def number (text : String) : Eval Int :=
  match Arithmetic.integerOf? (Arithmetic.digits 10 0) false text with
  | some n => return n
  | none => throw ("Illegal number: " ++ text)

def unary (s : Source) (operator operand : String) : Eval Bool :=
  match operator with
  | "-z" => return operand.isEmpty
  | "-n" => return !operand.isEmpty
  | "-t" => do
    let _ ← number operand
    return false
  | _ => return s.query operator operand

def binary (operator left right : String) : Eval Bool := do
  let compare := fun (test : Int → Int → Bool) => do
    let a ← number left
    let b ← number right
    return test a b
  match operator with
  | "=" => return left == right
  | "!=" => return left != right
  | "<" => return decide (left < right)
  | ">" => return decide (right < left)
  | "-eq" => compare fun a b => a == b
  | "-ne" => compare fun a b => a != b
  | "-ge" => compare fun a b => a ≥ b
  | "-gt" => compare fun a b => a > b
  | "-le" => compare fun a b => a ≤ b
  | _ => compare fun a b => a < b

def current (s : Source) : Eval String := do return (s.args[← get]?).getD ""

def primary (s : Source) (whole : Kind → Eval Bool) (k : Kind) : Eval Bool := do
  match k with
  | .nothing => return false
  | .openParen =>
    modify (· + 1)
    let k := s.kind (← get)
    if k = .closeParen then return false
    let value ← whole k
    modify (· + 1)
    if s.kind (← get) != .closeParen then throw "closing paren expected"
    return value
  | .unary =>
    let operator ← s.current
    modify (· + 1)
    if s.args[← get]?.isNone then throw (operator ++ ": argument expected")
    s.unary operator (← s.current)
  | _ =>
    let left ← s.current
    if s.kind ((← get) + 1) = .binary then
      modify (· + 1)
      let operator ← s.current
      modify (· + 1)
      if s.args[← get]?.isNone then throw (operator ++ ": argument expected")
      binary operator left (← s.current)
    else return !left.isEmpty

def negation (s : Source) (whole : Kind → Eval Bool) : (fuel : Nat) → Kind → Eval Bool
  | 0, _ => return false
  | fuel + 1, k => do
    if k != .negation then s.primary whole k
    else
      let next := s.kind ((← get) + 1)
      if next != .nothing then modify (· + 1)
      return !(← s.negation whole fuel next)

def conjunction (s : Source) (whole : Kind → Eval Bool) : (fuel : Nat) → Bool → Kind → Eval Bool
  | 0, value, _ => return value
  | fuel + 1, value, k => do
    let value := (← s.negation whole (s.args.size + 2) k) && value
    if s.kind ((← get) + 1) != .both then return value
    modify (· + 2)
    s.conjunction whole fuel value (s.kind (← get))

def disjunction (s : Source) (whole : Kind → Eval Bool) : (fuel : Nat) → Bool → Kind → Eval Bool
  | 0, value, _ => return value
  | fuel + 1, value, k => do
    let value := (← s.conjunction whole (s.args.size + 2) true k) || value
    if s.kind ((← get) + 1) != .either then return value
    modify (· + 2)
    s.disjunction whole fuel value (s.kind (← get))

def whole (s : Source) : (fuel : Nat) → Kind → Eval Bool
  | 0, _ => return false
  | fuel + 1, k => s.disjunction (s.whole fuel) (s.args.size + 2) false k

def start (s : Source) (k : Kind) : Except String Bool :=
  match s.whole (s.args.size + 1) k 0 with
  | .error message _ => .error message
  | .ok value place =>
    match s.args[place]?, s.args[place + 1]? with
    | some text, some _ =>
      .error (if text.isEmpty then "unexpected operator" else text ++ ": unexpected operator")
    | _, _ => .ok value

end Source

/-- Whether the first of three arguments is joined to the last by the one between. -/
def isJoined (args : List String) : Bool :=
  match args with
  | [_, operator, _] => kindOf operator == .binary
  | _ => false

def unwrap? (args : List String) : Option (List String) :=
  if args.head? == some "(" && args.getLast? == some ")" then some (args.drop 1).dropLast else none

/-- Whether a condition holds, or fails to hold if it is `negated`.  Three and four arguments are told
apart by their number before anything else: an operator in the middle counts as one, then
parentheses around, then a negation.  A second negation at the front that is found in this way does
not undo the first one. -/
def holdsFrom (query : Query) : (negated : Bool) → List String → Except String Bool
  | _, [] => .ok false
  | negated, arg :: rest =>
    let args := arg :: rest
    let start := fun (args : List String) =>
      let s : Source := ⟨args.toArray, query⟩
      (s.start (s.kind 0)).map (· != negated)
    if isJoined args then ((Source.mk args.toArray query).start .operand).map (· != negated)
    else if args.length = 3 || args.length = 4 then
      match unwrap? args with
      | some inner => start inner
      | none => if arg = "!" then holdsFrom query true rest else start args
    else start args

def holds (query : Query) (args : List String) : Except String Bool := holdsFrom query false args

end Condition

end ArrayCommand.Shell
