/-
Floating point numbers as exact multiples of powers of two.

A finite 64-bit floating point number is `± mantissa * 2 ^ exponent` for integers; this module
takes a number apart and rounds an exact quotient to the nearest number.  Everything that reads,
prints or truncates a number is exact integer arithmetic on these parts.
-/

namespace ArrayCommand.Binary64

/-! ### Taking a number apart -/

/-- A finite number: `mantissa * 2 ^ exponent` with a sign. -/
structure Parts where
  negative : Bool
  mantissa : Nat
  exponent : Int
deriving DecidableEq, Repr

def minExponent : Int := -1074

def implicitBit : Nat := 0x10000000000000

inductive Kind where
  | notANumber
  | infinite (negative : Bool)
  | finite (parts : Parts)
deriving DecidableEq, Repr

def kindOfBits (bits : Nat) : Kind :=
  let negative := bits / 0x8000000000000000 % 2 == 1
  let field := bits / implicitBit % 2048
  let fraction := bits % implicitBit
  if field == 2047 then
    if fraction == 0 then .infinite negative else .notANumber
  else if field == 0 then .finite ⟨negative, fraction, minExponent⟩
  else .finite ⟨negative, implicitBit + fraction, minExponent + (field - 1 : Nat)⟩

def kind (x : Float) : Kind := kindOfBits x.toBits.toNat

def isFinite (x : Float) : Bool :=
  match kind x with
  | .finite _ => true
  | _ => false

/-- The magnitude of `mantissa * 2 ^ exponent` without its fractional part. -/
def wholePart (mantissa : Nat) (exponent : Int) : Nat :=
  match exponent with
  | .ofNat e => mantissa * Nat.pow 2 e
  | .negSucc e => mantissa / Nat.pow 2 (e + 1)

/-- The integer part of a finite number, toward zero. -/
def truncate (x : Float) : Option Int :=
  match kind x with
  | .finite p =>
    let n := wholePart p.mantissa p.exponent
    some (if p.negative then -(n : Int) else n)
  | _ => none

def isWhole (x : Float) : Bool :=
  match kind x with
  | .finite ⟨_, m, .negSucc e⟩ => m % Nat.pow 2 (e + 1) == 0
  | .finite _ => true
  | _ => false

/-! ### Rounding a quotient -/

/-- The quotient rounded to the nearest integer, a tie going to the even neighbour. -/
def roundDiv (num den : Nat) : Nat :=
  let q := num / den
  let r := num % den
  if 2 * r < den then q
  else if den < 2 * r then q + 1
  else q + q % 2

/-- Bits of the number `mantissa * 2 ^ exponent` where the mantissa is at most `2 ^ 53`, and below
`2 ^ 52` only at the least exponent.  A magnitude out of range gives the infinite number. -/
def pack (negative : Bool) (mantissa : Nat) (exponent : Int) : Nat :=
  let sign := if negative then 0x8000000000000000 else 0
  let magnitude :=
    if mantissa < implicitBit then mantissa
    else (exponent - minExponent + 1).toNat * implicitBit + (mantissa - implicitBit)
  sign + min magnitude (2047 * implicitBit)

/-- `num / den` scaled by `2 ^ (-exponent)`, as a quotient of natural numbers. -/
def scaled (num den : Nat) (exponent : Int) : Nat × Nat :=
  match exponent with
  | .ofNat e => (num, den * Nat.pow 2 e)
  | .negSucc e => (num * Nat.pow 2 (e + 1), den)

/-- Bits of the number nearest to the positive quotient `num / den`. -/
def roundRatio (negative : Bool) (num den : Nat) : Nat :=
  let guess := max ((num.log2 : Int) - den.log2 - 53) minExponent
  let (n, d) := scaled num den guess
  -- the guess may be one too small, and then the quotient has one bit too many
  let exponent := if n / d < 2 * implicitBit then guess else guess + 1
  let (n, d) := scaled num den exponent
  pack negative (roundDiv n d) exponent

/-- The number nearest to `num / den`, of the given sign. -/
def ofRatio (negative : Bool) (num den : Nat) : Float :=
  if num == 0 then (if negative then -0.0 else 0.0)
  else Float.ofBits (roundRatio negative num den).toUInt64

/-- How many decimal digits a number has; none for zero. -/
def digitCount (n : Nat) : Nat := if n == 0 then 0 else (Nat.toDigits 10 n).length

/-- The number nearest to `mantissa * 10 ^ exponent`.  Exponents far out of range are decided
without forming the power. -/
def ofDecimal (mantissa : Nat) (exponent : Int) : Float :=
  let magnitude := (digitCount mantissa : Int) + exponent
  if mantissa == 0 || magnitude < -330 then 0.0
  else if 310 < magnitude then Float.ofBits 0x7ff0000000000000
  else
    match exponent with
    | .ofNat e => ofRatio false (mantissa * Nat.pow 10 e) 1
    | .negSucc e => ofRatio false mantissa (Nat.pow 10 (e + 1))

end ArrayCommand.Binary64
