/-
The core module: the commands, functions and variables every session has.
-/

import ArrayCommand.Native

namespace ArrayCommand.Core

open Call

/-! ### Commands -/

def print : Native := do
  let args := (← get).args.toList
  Call.print (" ".intercalate (args.map Cell.print))
  Call.print "\n"

def topic : EStateM Fault Call String := do
  match (← get).args.toList with
  | [] => return ""
  | cell :: _ => lift cell.text

def list : Native := do request (.list (← topic))

def help : Native := do request (.help (← topic))

def deleteAll : List Cell → Native
  | [] => pure ()
  | cell :: rest => do
    request (.delete (← lift cell.text))
    deleteAll rest

def delete : Native := do deleteAll (← get).args.toList

def swap : Native := do
  match (← get).args.toList with
  | [a, b] =>
    if a.type = b.type then modify fun c => { c with args := #[b, a] }
    else throw (.because .typeMismatch (a.type.name ++ " AND " ++ b.type.name))
  | _ => throw { cause := .wrongArgumentCount }

/-- The exit code of the first argument, which has 32 bits; zero without one. -/
def exitCode : EStateM Fault Call Int := do
  match (← get).args.toList with
  | [] => return 0
  | cell :: _ =>
    let code ← lift cell.integer
    if -0x80000000 ≤ code && code < 0x80000000 then return code
    else throw (.because .overflow "EXIT CODE")

def quit : Native := do request (.exit (.full (← exitCode)))

def exit : Native := do request (.exit (.minimal (← exitCode)))

/-! ### Elementary functions -/

def floating (f : Float → Except Fault Float) : Native := do
  let x ← lift (← arg 0).float
  let y ← lift (f x)
  if Binary64.isFinite y then returnScalar (.float y) else throw { cause := .overflow }

def abs : Native := do
  match ← lift (← arg 0).first with
  | .integer n =>
    let n ← lift (Integer.fit n.natAbs)
    returnScalar (.integer n)
  | .float x => returnScalar (.float x.abs)
  | _ => throw { cause := .typeMismatch }

def sqrt : Native := floating fun x =>
  if x < 0.0 then .error (.because .domainError "SQRT OF NEGATIVE NUMBER") else .ok x.sqrt

def logarithm (f : Float → Float) : Native := floating fun x =>
  if x ≤ 0.0 then .error (.because .domainError "LOG OF NON POSITIVE NUMBER") else .ok (f x)

def int : Native := do
  let n ← lift (← arg 0).integer
  returnScalar (.integer n)

/-- The nearest integer; halves go away from zero. -/
def nint : Native := do
  match ← lift (← arg 0).first with
  | .integer n => returnScalar (.integer n)
  | other =>
    let x ← lift other.toFloat
    let n ← lift (integerOfFloat x.round)
    returnScalar (.integer n)

def float : Native := do
  let x ← lift (← arg 0).float
  returnScalar (.float x)

def len : Native := do
  let s ← lift (← arg 0).text
  returnScalar (.integer s.length)

def rand : Native := do
  let c ← get
  let (x, generator) := c.host.generator.draw
  set { c with host := { c.host with generator } }
  returnScalar (.float x)

/-! ### Whole arrays -/

def size : Native := do
  let cell ← arg 0
  match (← get).args[1]? with
  | none => returnScalar (.integer cell.size)
  | some axis =>
    let axis ← lift axis.integer
    if 1 ≤ axis && axis ≤ 3 then
      returnScalar (.integer (cell.shape.extent (axis.toNat - 1)))
    else throw (.because .domainError ("AXIS " ++ toString axis))

/-- The sum of integers, refused as soon as a partial sum does not fit. -/
def sumIntegers : List Int → Int → Except Fault Int
  | [], total => .ok total
  | n :: rest, total => do sumIntegers rest (← Integer.fit (total + n))

def notNumeric : Fault := .because .typeMismatch "NUMERIC ARRAY EXPECTED"

/-- The sum of all elements; an empty sum of floating point numbers is the negative zero. -/
def sum : Native := do
  match (← arg 0).data with
  | .integer v =>
    let total ← lift (sumIntegers v.toList 0)
    returnScalar (.integer total)
  | .float v => returnScalar (.float (v.foldl (· + ·) (-0.0)))
  | _ => throw notNumeric

def best {α : Type} (better : α → α → Bool) (first : α) (rest : List α) : α :=
  rest.foldl (fun best x => if better x best then x else best) first

def extreme (integers : Int → Int → Bool) (floats : Float → Float → Bool) : Native := do
  let cell ← arg 0
  if cell.size = 0 then throw (.because .domainError "EMPTY ARRAY")
  else
    match cell.data with
    | .integer v =>
      match v.toList with
      | [] => throw (.because .domainError "EMPTY ARRAY")
      | n :: rest => returnScalar (.integer (best integers n rest))
    | .float v =>
      match v.toList with
      | [] => throw (.because .domainError "EMPTY ARRAY")
      | x :: rest => returnScalar (.float (best floats x rest))
    | _ => throw notNumeric

def minval : Native := extreme (fun a b => a < b) fun a b => a < b

def maxval : Native := extreme (fun a b => b < a) fun a b => b < a

def ramp : Native := do
  let n ← lift (← arg 0).integer
  if n < 0 then throw (.because .domainError "NEGATIVE LENGTH")
  else return' (.integers ((Array.range n.toNat).map fun i : Nat => ((i + 1 : Nat) : Int)))

def date : Native := do returnScalar (.text (← get).host.clock.text)

/-! ### The module -/

def numeric : ArgDecl := ⟨.numeric, .scalar, .value⟩

def real : ArgDecl := ⟨.float, .scalar, .value⟩

def integer : ArgDecl := ⟨.integer, .scalar, .value⟩

def literal : ArgDecl := ⟨.literal, .scalar, .value⟩

def anyVariable : ArgDecl := ⟨.any, .any, .reference⟩

def numericVariable : ArgDecl := ⟨.numeric, .any, .reference⟩

def realFunction (name : String) (native : Native) : Function :=
  .elemental name [real] (.fixed .float) native

def functions : List Function :=
  [{ (Function.command "print" [⟨.any, .any, .value⟩] print).arity 0 none with
      preferred := true, help := "print values separated by blanks" },
    ((Function.command "show" [literal] list).arity 0 (some 1)).helping
      "list variables beginning with a prefix",
    ((Function.command "delete" [⟨.text, .scalar, .name⟩] delete).arity 1 none).helping
      "delete variables",
    (Function.command "swap" [anyVariable, anyVariable] swap).helping
      "exchange the contents of two variables",
    ((Function.command "quit" [integer] quit).arity 0 (some 1)).helping
      "full clean up and exit",
    ((Function.command "exit" [integer] exit).arity 0 (some 1)).helping
      "minimal clean up and exit",
    { (Function.command "help" [literal] help).arity 0 (some 1) with
      preferred := true, help := "describe modules and functions" },
    .elemental "abs" [numeric] (.sameAs 0) abs,
    realFunction "sqrt" sqrt,
    realFunction "sin" (floating fun x => .ok x.sin),
    realFunction "cos" (floating fun x => .ok x.cos),
    realFunction "tan" (floating fun x => .ok x.tan),
    realFunction "exp" (floating fun x => .ok x.exp),
    realFunction "log" (logarithm Float.log),
    realFunction "log10" (logarithm Float.log10),
    .elemental "int" [numeric] (.fixed .integer) int,
    .elemental "nint" [numeric] (.fixed .integer) nint,
    .elemental "float" [numeric] (.fixed .float) float,
    .elemental "len" [⟨.text, .scalar, .value⟩] (.fixed .integer) len,
    .elemental "rand" [] (.fixed .float) rand,
    ((Function.once "size" [anyVariable, integer] (.fixed .integer) size).arity 1
      (some 2)).helping "element count, or the extent along one axis",
    .once "sum" [numericVariable] (.sameAs 0) sum,
    .once "minval" [numericVariable] (.sameAs 0) minval,
    .once "maxval" [numericVariable] (.sameAs 0) maxval,
    ((Function.once "ramp" [integer] (.fixed .integer) ramp).returning .one).helping
      "the integers 1 to n",
    .once "date" [] (.fixed .text) date]

def pi : Float := Float.ofBits 0x400921FB54442D18

def module : Module where
  name := "core"
  vars :=
    [("pi", (Cell.scalar (.float pi)).owned .parameter),
      ("verbose", (Cell.scalar (.logical false)).owned .readWrite)]
  functions := functions

end ArrayCommand.Core
