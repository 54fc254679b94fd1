/-
Single values and their arithmetic.

A value is a floating point number, an integer of 64 bits, a text or a truth value.  Integers and
floating point numbers convert into each other; texts and truth values never convert.  Arithmetic
is exact or refused: a result that does not fit is a fault, never a wrong number.
-/

import ArrayCommand.Fault
import ArrayCommand.Token

namespace ArrayCommand

/-! ### Types and values -/

inductive ElementType where
  | float
  | integer
  | text
  | logical
deriving DecidableEq, Repr

namespace ElementType

def all : List ElementType := [float, integer, text, logical]

def isNumeric : ElementType → Bool
  | float => true
  | integer => true
  | _ => false

def name : ElementType → String
  | float => "FLOAT"
  | integer => "INTEGER"
  | text => "STRING"
  | logical => "LOGICAL"

end ElementType

inductive Scalar where
  | float (value : Float)
  | integer (value : Int)
  | text (value : String)
  | logical (value : Bool)
deriving BEq, Repr

def FitsInteger (n : Int) : Prop := -0x8000000000000000 ≤ n ∧ n < 0x8000000000000000

instance (n : Int) : Decidable (FitsInteger n) := inferInstanceAs (Decidable (_ ∧ _))

def integerOfFloat (x : Float) : Except Fault Int :=
  match Binary64.truncate x with
  | some n => if FitsInteger n then .ok n else .error (.because .overflow "FLOAT TO INTEGER")
  | none => .error (.because .overflow "FLOAT TO INTEGER")

namespace Scalar

def type : Scalar → ElementType
  | float _ => .float
  | integer _ => .integer
  | text _ => .text
  | logical _ => .logical

def zero : ElementType → Scalar
  | .float => float 0.0
  | .integer => integer 0
  | .text => text ""
  | .logical => logical false

@[simp] theorem type_zero (ty : ElementType) : (zero ty).type = ty := by
  cases ty <;> rfl

def print : Scalar → String
  | float x => Decimal.plain x
  | integer n => toString n
  | text s => s
  | logical b => if b then "T" else "F"

/-! ### Conversion -/

def truth : Scalar → Except Fault Bool
  | logical b => .ok b
  | _ => .error (.because .typeMismatch "LOGICAL VALUE EXPECTED")

def toFloat : Scalar → Except Fault Float
  | float x => .ok x
  | integer n => .ok (Float.ofInt n)
  | _ => .error (.because .typeMismatch "NUMBER EXPECTED")

def toInteger : Scalar → Except Fault Int
  | integer n => .ok n
  | float x => integerOfFloat x
  | _ => .error (.because .typeMismatch "NUMBER EXPECTED")

def mismatch (have' want : ElementType) : Fault :=
  .because .typeMismatch (have'.name ++ " WHERE " ++ want.name ++ " EXPECTED")

def convert (s : Scalar) (ty : ElementType) : Except Fault Scalar :=
  if s.type = ty then .ok s
  else
    match ty with
    | .float => s.toFloat.map float
    | .integer => s.toInteger.map integer
    | _ => .error (mismatch s.type ty)

end Scalar

/-! ### Operators -/

/-- The binary operators that work on two values.  Conjunction and disjunction are not among them:
they do not always need their right operand. -/
inductive BinaryOp where
  | add
  | sub
  | mul
  | div
  | pow
  | eq
  | notEq
  | lt
  | ltEq
  | gt
  | gtEq
  | concat
deriving DecidableEq, Repr

namespace BinaryOp

def all : List BinaryOp := [add, sub, mul, div, pow, eq, notEq, lt, ltEq, gt, gtEq, concat]

def ofOperator? : Operator → Option BinaryOp
  | .plus => some add
  | .minus => some sub
  | .multiply => some mul
  | .divide => some div
  | .caret => some pow
  | .equal => some eq
  | .notEqual => some notEq
  | .less => some lt
  | .lessEqual => some ltEq
  | .greater => some gt
  | .greaterEqual => some gtEq
  | .concat => some concat
  | _ => none

def name : BinaryOp → String
  | add => "Add"
  | sub => "Sub"
  | mul => "Mul"
  | div => "Div"
  | pow => "Pow"
  | eq => "Eq"
  | notEq => "NotEq"
  | lt => "Lt"
  | ltEq => "LtEq"
  | gt => "Gt"
  | gtEq => "GtEq"
  | concat => "Concat"

def isOrder : BinaryOp → Bool
  | lt => true
  | ltEq => true
  | gt => true
  | gtEq => true
  | _ => false

/-- The type both operands are converted to, and the type of the result. -/
structure Signature where
  operand : ElementType
  result : ElementType
deriving DecidableEq, Repr

def meet? : ElementType → ElementType → Option ElementType
  | .integer, .integer => some .integer
  | .float, .float => some .float
  | .float, .integer => some .float
  | .integer, .float => some .float
  | .text, .text => some .text
  | .logical, .logical => some .logical
  | _, _ => none

def result? (op : BinaryOp) (operand : ElementType) : Option ElementType :=
  match op with
  | concat => if operand = .text then some .text else none
  | eq => some .logical
  | notEq => some .logical
  | op =>
    if op.isOrder then (if operand = .logical then none else some .logical)
    else if operand.isNumeric then some operand
    else none

def signature (op : BinaryOp) (lhs rhs : ElementType) : Except Fault Signature :=
  let rule := do
    let operand ← meet? lhs rhs
    let result ← op.result? operand
    return (⟨operand, result⟩ : Signature)
  match rule with
  | some s => .ok s
  | none =>
    .error (.because .typeMismatch (Text.upper (lhs.name ++ " " ++ op.name ++ " " ++ rhs.name)))

end BinaryOp

/-! ### Integers -/

namespace Integer

def fit (n : Int) : Except Fault Int :=
  if FitsInteger n then .ok n else .error { cause := .overflow }

/-- Division toward zero. -/
def divide (l r : Int) : Except Fault Int :=
  if r = 0 then .error { cause := .divisionByZero } else fit (l.tdiv r)

def signPower (r : Int) : Int := if r % 2 = 0 then 1 else -1

/-- `l ^ r`, multiplied out unless the result is known to be too large: a base of two or more to
the 64th power never fits. -/
def power (l r : Int) : Except Fault Int :=
  if r < 0 then
    if l = 0 then .error { cause := .divisionByZero }
    else if l = 1 then .ok 1
    else if l = -1 then .ok (signPower r)
    else .ok 0
  else if l = 0 then .ok (if r = 0 then 1 else 0)
  else if l = 1 then .ok 1
  else if l = -1 then .ok (signPower r)
  else if 64 ≤ r then .error { cause := .overflow }
  else fit (Int.pow l r.toNat)

end Integer

/-! ### Operations on values -/

def finite (x : Float) : Except Fault Scalar :=
  if Binary64.isFinite x then .ok (.float x) else .error { cause := .overflow }

def unfit : Fault := { cause := .typeMismatch }

namespace Scalar

def negate : Scalar → Except Fault Scalar
  | integer n => (Integer.fit (-n)).map integer
  | float x => .ok (float (-x))
  | _ => .error unfit

def complement (s : Scalar) : Except Fault Scalar := s.truth.map fun b => logical !b

def sum : Scalar → Scalar → Except Fault Scalar
  | integer l, integer r => (Integer.fit (l + r)).map integer
  | float l, float r => finite (l + r)
  | _, _ => .error unfit

def subtract : Scalar → Scalar → Except Fault Scalar
  | integer l, integer r => (Integer.fit (l - r)).map integer
  | float l, float r => finite (l - r)
  | _, _ => .error unfit

def multiply : Scalar → Scalar → Except Fault Scalar
  | integer l, integer r => (Integer.fit (l * r)).map integer
  | float l, float r => finite (l * r)
  | _, _ => .error unfit

def divide : Scalar → Scalar → Except Fault Scalar
  | integer l, integer r => (Integer.divide l r).map integer
  | float l, float r =>
    if r == 0.0 then .error { cause := .divisionByZero } else finite (l / r)
  | _, _ => .error unfit

/-- A power of two values of one numeric type.  A negative power of an integer is truncated toward
zero the way a quotient is. -/
def power : Scalar → Scalar → Except Fault Scalar
  | integer l, integer r => (Integer.power l r).map integer
  | float l, float r =>
    if l < 0.0 && !Binary64.isWhole r then
      .error (.because .domainError "NEGATIVE BASE, FRACTIONAL POWER")
    else if l == 0.0 && r < 0.0 then .error { cause := .divisionByZero }
    else finite (l ^ r)
  | _, _ => .error unfit

def concat : Scalar → Scalar → Except Fault Scalar
  | text l, text r => .ok (text (l ++ r))
  | _, _ => .error unfit

def compareInteger (l r : Int) : Ordering := if l < r then .lt else if l = r then .eq else .gt

def compareText (l r : String) : Ordering := if l < r then .lt else if l = r then .eq else .gt

def compareLogical : Bool → Bool → Ordering
  | false, true => .lt
  | true, false => .gt
  | _, _ => .eq

def compare : Scalar → Scalar → Except Fault Ordering
  | integer l, integer r => .ok (compareInteger l r)
  | float l, float r =>
    if l < r then .ok .lt
    else if l == r then .ok .eq
    else if r < l then .ok .gt
    else .error (.because .domainError "NOT A NUMBER")
  | text l, text r => .ok (compareText l r)
  | logical l, logical r => .ok (compareLogical l r)
  | _, _ => .error unfit

end Scalar

def BinaryOp.holds (op : BinaryOp) (order : Ordering) : Bool :=
  match op with
  | .eq => order == .eq
  | .notEq => order != .eq
  | .lt => order == .lt
  | .ltEq => order != .gt
  | .gt => order == .gt
  | .gtEq => order != .lt
  | _ => false

def BinaryOp.apply (op : BinaryOp) (lhs rhs : Scalar) : Except Fault Scalar :=
  match op with
  | .add => lhs.sum rhs
  | .sub => lhs.subtract rhs
  | .mul => lhs.multiply rhs
  | .div => lhs.divide rhs
  | .pow => lhs.power rhs
  | .concat => lhs.concat rhs
  | op => (lhs.compare rhs).map fun order => .logical (op.holds order)

/-- The characters `first` to `last` of a text, counted from one and both included. -/
def substring (text : String) (first last : Int) : Except Fault String :=
  let length : Int := text.length
  if last < first then .ok ""
  else if first < 1 || length < last then
    .error (.because .subscriptOutOfRange
      ("[" ++ toString first ++ ":" ++ toString last ++ "] OF " ++ toString length ++
        " CHARACTERS"))
  else
    .ok (String.ofList ((text.toList.drop (first - 1).toNat).take (last - first + 1).toNat))

end ArrayCommand
