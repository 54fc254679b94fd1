/-
Sample modules: one function for every kind of argument, result and effect.

A host program registers modules of its own beside the core.  The kit shows how each way of passing
arguments is written, and what a function may do to its cells and to the host; the other modules
show teardowns and registrations that are refused.
-/

import ArrayCommand.Native.Core

namespace ArrayCommand.Sample

open Call

/-! ### Called for every element

The functions of the kit may be called for their effects alone: a result that no cell waits for is
dropped. -/

def offer (cell : Cell) : Native := do
  if (← get).out.isSome then return' cell

def offerScalar (value : Scalar) : Native := offer (.scalar value)

def hyp : Native := do
  let a ← lift (← arg 0).float
  let b ← lift (← arg 1).float
  offerScalar (.float (a * a + b * b))

/-- The second argument if the first one holds, else the third, whatever its type. -/
def pick : Native := do
  let cond ← lift (← arg 0).first
  if ← lift cond.truth then offer (← arg 1) else offer (← arg 2)

def upper : Native := do
  let s ← lift (← arg 0).text
  offerScalar (.text (Text.upper s))

/-- The argument, or zero without one. -/
def opt : Native := do
  match (← get).args[0]? with
  | some cell => offer cell
  | none => offerScalar (.integer 0)

def must : Native := do
  let cond ← lift (← arg 0).first
  if ← lift cond.truth then offerScalar (.logical true)
  else throw (.because .functionFailed "MUST")

def trip : Native := do
  let n ← lift (← arg 0).integer
  if n = 3 then modify fun c => { c with host := { c.host with interrupted := true } }
  offerScalar (.integer n)

/-! ### Called once -/

/-- The sum of a list from zero on. -/
def sumFrom : List Scalar → Float → Except Fault Float
  | [], total => .ok total
  | s :: rest, total => do sumFrom rest (total + (← s.toFloat))

def vec1 : Native := do
  let total ← lift (sumFrom (← arg 0).data.toList 0.0)
  offerScalar (.float total)

def mat2 : Native := do
  let dims := (← arg 0).shape.dims
  offer (.integers (dims.map fun d : Nat => (d : Int)).toArray)

def cube3 : Native := do offerScalar (.integer (← arg 0).size)

def reversed : Data → Data
  | .float v => .float v.reverse
  | .integer v => .integer v.reverse
  | .text v => .text v.reverse
  | .logical v => .logical v.reverse

def rev : Native := do
  let cell ← arg 0
  offer { cell with data := reversed cell.data }

/-- Three integers, whatever type is declared. -/
def oneTwoThree : Native := offer (.integers #[1, 2, 3])

/-! ### Commands -/

def fail : Native := do throw (.because .functionFailed (← lift (← arg 0).text))

def note : Native := do
  let parts := (← get).args.toList.map Cell.print
  Call.print ("note <" ++ "|".intercalate parts ++ ">\n")

def bump : Native := do
  let n ← lift (← arg 0).integer
  setArg 0 (.scalar (.integer (Word.signed (n + 1))))
  Call.print "bumped\n"

def grow : Native := do
  let cell ← arg 0
  let n := cell.size
  let cell ← lift (cell.resize (.vector (n + 1)))
  let cell ← lift (cell.set n (.float 9.5))
  setArg 0 cell

def flip : Native := do
  let cell ← arg 0
  let b ← lift (← lift cell.first).truth
  let (result, cell) := cell.fill (.logical !b)
  setArg 0 cell
  lift result

def bang : Native := do
  let cell ← arg 0
  let (result, cell) := cell.setAll ((List.range cell.size).zip (cell.data.toList.map fun s =>
    .text (s.print ++ "!")))
  setArg 0 cell
  lift result

def spoil : Native := setArg 0 (.scalar (.text "x"))

def leave : Native := do
  Call.print "leaving\n"
  request (.list "z")
  request (.exit (.minimal 9))
  request (.list "never")

def kinds : Native := do
  let args := (← get).args.toList
  Call.print (String.join (args.map fun cell =>
    cell.type.name ++ cell.shape.text ++ " " ++ cell.owner.name ++ "\n"))

def kindsf : Native := do
  kinds
  offerScalar (.integer (← get).args.size)

/-! ### The modules -/

def scalar (type : ArgType) : ArgDecl := ⟨type, .scalar, .value⟩

def byReference (type : ArgType) (rank : ArgRank) : ArgDecl := ⟨type, rank, .reference⟩

def kitFunctions : List Function :=
  [(Function.elemental "hyp" [scalar .float, scalar .float] (.fixed .float) hyp).helping
      "sum of squares",
    .elemental "pick" [scalar .logical, scalar .any, scalar .any] (.sameAs 1) pick,
    .elemental "upper" [scalar .text] (.fixed .text) upper,
    .elemental "byname" [⟨.text, .scalar, .name⟩] (.fixed .integer) (offerScalar (.integer 0)),
    (Function.elemental "opt" [scalar .numeric] (.sameAs 0) opt).arity 0 (some 1),
    .elemental "must" [scalar .logical] (.fixed .logical) must,
    .elemental "trip" [scalar .integer] (.fixed .integer) trip,
    .once "vec1" [⟨.float, .one, .value⟩] (.fixed .float) vec1,
    (Function.once "mat2" [⟨.integer, .two, .value⟩] (.fixed .integer) mat2).returning .one,
    .once "cube3" [⟨.any, .three, .value⟩] (.fixed .integer) cube3,
    (Function.once "rev" [⟨.any, .any, .value⟩] (.sameAs 0) rev).returning .any,
    (Function.once "wrongty" [] (.fixed .float) oneTwoThree).returning .any,
    (Function.once "badty" [] (.fixed .text) oneTwoThree).returning .any,
    .command "fail" [scalar .literal] fail,
    { (Function.command "note" [scalar .literal, scalar .integer] note).arity 1 (some 3) with
      preferred := true },
    .command "bump" [byReference .integer .scalar] bump,
    .command "grow" [byReference .float .one] grow,
    .command "flip" [byReference .logical .scalar] flip,
    .command "bang" [byReference .text .any] bang,
    .command "spoil" [byReference .integer .any] spoil,
    .command "leave" [] leave,
    (Function.command "kinds" [] kinds).arity 0 (some 3),
    (Function.once "kindsf" [byReference .literal .any, ⟨.logical, .any, .value⟩]
      (.fixed .integer) kindsf).arity 1 (some 2)]

def kit : Module where
  name := "kit"
  helpDirectory := some "kit/help"
  vars :=
    [("limit", (Cell.scalar (.integer 3)).owned .parameter),
      ("gain", (Cell.scalar (.float 1.5)).owned .readWrite),
      ("table", (Cell.floats #[1.0, 2.0, 3.0]).owned .readWrite)]
  functions := kitFunctions
  teardown := some fun mode host => host.print ("kit down " ++ mode.text ++ "\n")

def alpha : Module where
  name := "alpha_mod"
  teardown := some fun mode host => host.print ("first " ++ mode.text ++ "\n")

/-- A module whose teardown tells nothing. -/
def beta : Module where
  name := "beta_mod"
  teardown := some fun _ host => host.print "second\n"

def duplicateFunction : Module where
  name := "dup_fn"
  functions := [.command "fresh" [] leave, .command "print" [] leave]

def duplicateVariable : Module where
  name := "dup_var"
  vars := [("pi", Cell.scalar (.float 3.0))]

def illegalName : Module where
  name := "bad-name"

def find? (name : String) : Option Module :=
  match name with
  | "core" => some Core.module
  | "kit" => some kit
  | "alpha_mod" => some alpha
  | "beta_mod" => some beta
  | "dup_fn" => some duplicateFunction
  | "dup_var" => some duplicateVariable
  | "bad_name" => some illegalName
  | _ => none

end ArrayCommand.Sample
