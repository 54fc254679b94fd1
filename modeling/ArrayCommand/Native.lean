/-
Functions and modules: what the language can call.

A function is described by the arguments it takes, whether it is called for every element or once
with whole arrays, and what it returns.  Its body gets the argument cells and, unless it returns
nothing, a cell for the result.
-/

import ArrayCommand.Cell
import ArrayCommand.Host

namespace ArrayCommand

/-! ### Arguments -/

/-- The type an argument is declared with.  A `literal` is text that needs no quotes in a
command. -/
inductive ArgType where
  | float
  | integer
  | text
  | logical
  | any
  | numeric
  | literal
deriving DecidableEq, Repr

namespace ArgType

def name : ArgType → String
  | float => "float"
  | integer => "integer"
  | text => "text"
  | logical => "logical"
  | any => "any"
  | numeric => "numeric"
  | literal => "literal"

def accepts : ArgType → ElementType → Bool
  | any, _ => true
  | numeric, ty => ty.isNumeric
  | float, ty => ty == .float
  | integer, ty => ty == .integer
  | text, ty => ty == .text
  | literal, ty => ty == .text
  | logical, ty => ty == .logical

end ArgType

/-- The rank an argument is declared with. -/
inductive ArgRank where
  | scalar
  | one
  | two
  | three
  | any
deriving DecidableEq, Repr

namespace ArgRank

def accepts : ArgRank → (rank size : Nat) → Bool
  | any, _, _ => true
  | scalar, rank, size => rank == 0 || size == 1
  | one, rank, _ => rank == 1
  | two, rank, _ => rank == 2
  | three, rank, _ => rank == 3

def rank? : ArgRank → Option Nat
  | scalar => some 0
  | one => some 1
  | two => some 2
  | three => some 3
  | any => none

end ArgRank

/-- How an argument is passed: its value, a variable whose changes are kept, or a bare name. -/
inductive Mode where
  | value
  | reference
  | name
deriving DecidableEq, Repr

structure ArgDecl where
  type : ArgType
  rank : ArgRank := .scalar
  mode : Mode := .value
deriving DecidableEq, Repr

/-! ### Calls -/

/-- A call in progress: the host, the argument cells and the cell for the result. -/
structure Call where
  host : Host
  args : Array Cell
  out : Option Cell

/-- The body of a function.  What it did to the host and to the cells stands also if it fails. -/
abbrev Native := EStateM Fault Call Unit

namespace Call

def arg (index : Nat) : EStateM Fault Call Cell := do
  match (← get).args[index]? with
  | some cell => return cell
  | none => throw (.because .wrongArgumentCount
      ("ARGUMENT " ++ toString (index + 1) ++ " MISSING"))

def lift {α : Type} (result : Except Fault α) : EStateM Fault Call α :=
  match result with
  | .ok a => pure a
  | .error fault => throw fault

def return' (cell : Cell) : Native := do
  match (← get).out with
  | some _ => modify fun c => { c with out := some (cell.owned .functionValue) }
  | none => throw (.because .internalError "NO OUTPUT CELL")

def returnScalar (value : Scalar) : Native := return' (.scalar value)

def print (text : String) : Native := modify fun c => { c with host := c.host.print text }

def request (r : Request) : Native := modify fun c => { c with host := c.host.request r }

def setArg (index : Nat) (cell : Cell) : Native :=
  modify fun c => { c with args := c.args.setIfInBounds index cell }

end Call

/-! ### Functions -/

/-- Called for every element, or once with whole arrays. -/
inductive Kind where
  | elemental
  | once
deriving DecidableEq, Repr

/-- What a function returns: nothing, a fixed type, or the type of one of its arguments. -/
inductive Returns where
  | nothing
  | fixed (type : ElementType)
  | sameAs (argument : Nat)
deriving DecidableEq, Repr

structure Function where
  name : String
  args : List ArgDecl
  kind : Kind
  returns : Returns
  native : Native
  minArgs : Nat
  /-- The most arguments; without it there may be any number. -/
  maxArgs : Option Nat
  rank : ArgRank := .scalar
  /-- Wins over other names that the same text begins. -/
  preferred : Bool := false
  help : String := ""

namespace Function

def build (name : String) (kind : Kind) (args : List ArgDecl) (returns : Returns)
    (native : Native) : Function :=
  { name, args, kind, returns, native, minArgs := args.length, maxArgs := some args.length }

def elemental (name : String) (args : List ArgDecl) (returns : Returns) (native : Native) :
    Function := build name .elemental args returns native

def once (name : String) (args : List ArgDecl) (returns : Returns) (native : Native) :
    Function := build name .once args returns native

def command (name : String) (args : List ArgDecl) (native : Native) : Function :=
  build name .once args .nothing native

def arity (f : Function) (minArgs : Nat) (maxArgs : Option Nat) : Function :=
  { f with minArgs, maxArgs }

def returning (f : Function) (rank : ArgRank) : Function := { f with rank }

def helping (f : Function) (help : String) : Function := { f with help }

/-- The declaration of an argument: the last declaration stands for all that follow. -/
def decl (f : Function) (index : Nat) : ArgDecl :=
  match f.args[index]? with
  | some d => d
  | none =>
    match f.args.getLast? with
    | some d => d
    | none => ⟨.any, .any, .value⟩

/-- Whether one more argument may follow `count` arguments. -/
def admits (f : Function) (count : Nat) : Bool :=
  match f.maxArgs with
  | some most => count < most
  | none => true

/-- The text of one argument in a signature; an optional one stands in brackets. -/
def argumentText (f : Function) (index : Nat) : String :=
  let d := f.decl index
  let mode :=
    match d.mode with
    | .value => ""
    | .reference => " by reference"
    | .name => " by name"
  let text := d.type.name ++ mode
  if f.minArgs ≤ index then "[" ++ text ++ "]" else text

def signature (f : Function) : String :=
  let declared := max f.args.length f.minArgs
  let listed :=
    match f.maxArgs with
    | some most => min most declared
    | none => declared
  let more :=
    match f.maxArgs with
    | some most => decide (declared < most)
    | none => true
  f.name ++ "(" ++ ", ".intercalate ((List.range listed).map f.argumentText) ++
    (if more then ", ..." else "") ++ ")" ++ (if f.kind == .elemental then " elemental" else "")

end Function

/-! ### Modules -/

/-- Functions and variables registered together. -/
structure Module where
  name : String
  helpDirectory : Option String := none
  vars : List (String × Cell) := []
  functions : List Function := []
  teardown : Option (ExitMode → Host → Host) := none

end ArrayCommand
