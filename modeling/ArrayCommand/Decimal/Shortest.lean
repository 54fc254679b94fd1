/-
The shortest decimal that reads back as a given floating point number.

Around a finite number lies an interval of reals that round to it, its ends included exactly when
the mantissa is even.  For one digit, two digits, and so on, the two multiples of the power of ten
next to the number are tried; the first grid with a multiple inside the interval gives the digits.
Of two multiples inside, the nearer one is taken, and the larger one on a tie.
-/

import ArrayCommand.Decimal.Binary64

namespace ArrayCommand.Decimal

open Binary64

/-! ### The interval of a number -/

/-- The value `digits * 10 ^ exponent`. -/
structure Digits where
  digits : Nat
  exponent : Int
deriving DecidableEq, Repr

/-- A number with the interval that rounds to it, all three over one denominator. -/
structure Neighbourhood where
  low : Nat
  value : Nat
  high : Nat
  denominator : Nat
  closed : Bool

/-- The neighbourhood of `mantissa * 2 ^ exponent`.  Below a power of two the neighbours are twice
as close as above it, except at the least exponent. -/
def neighbourhood (mantissa : Nat) (exponent : Int) : Neighbourhood :=
  let below := if mantissa == implicitBit && exponent != minExponent then 1 else 2
  let closed := mantissa % 2 == 0
  match exponent - 2 with
  | .ofNat e =>
    let scale := Nat.pow 2 e
    ⟨(4 * mantissa - below) * scale, 4 * mantissa * scale, (4 * mantissa + 2) * scale, 1, closed⟩
  | .negSucc e =>
    ⟨4 * mantissa - below, 4 * mantissa, 4 * mantissa + 2, Nat.pow 2 (e + 1), closed⟩

/-- The neighbourhood in units of `10 ^ exponent`. -/
def Neighbourhood.inUnits (n : Neighbourhood) (exponent : Int) : Neighbourhood :=
  match exponent with
  | .ofNat e => { n with denominator := n.denominator * Nat.pow 10 e }
  | .negSucc e =>
    let s := Nat.pow 10 (e + 1)
    { n with low := n.low * s, value := n.value * s, high := n.high * s }

def Neighbourhood.holds (n : Neighbourhood) (k : Nat) : Bool :=
  let scaled := k * n.denominator
  if n.closed then n.low ≤ scaled && scaled ≤ n.high else n.low < scaled && scaled < n.high

/-- The integer next to the value that lies in the interval, if there is one. -/
def Neighbourhood.nearest? (n : Neighbourhood) : Option Nat :=
  let down := n.value / n.denominator
  let up := down + 1
  match n.holds down, n.holds up with
  | true, true => some (if 2 * (n.value % n.denominator) < n.denominator then down else up)
  | true, false => some down
  | false, true => some up
  | false, false => none

/-! ### Digit by digit -/

/-- The least `k` with `value < 10 ^ k`, searched upward from a start below it. -/
def pointFrom (n : Neighbourhood) : Nat → Int → Int
  | 0, k => k
  | fuel + 1, k =>
    let scaled := n.inUnits k
    if scaled.value < scaled.denominator then k else pointFrom n fuel (k + 1)

/-- A lower bound of the place of the decimal point, from the binary exponent: a factor of two is
worth three tenths of a digit. -/
def pointGuess (mantissa : Nat) (exponent : Int) : Int :=
  ((mantissa.log2 : Int) + exponent) * 30102 / 100000 - 1

/-- Try ever finer grids below the decimal point at `point`; seventeen digits always suffice. -/
def shortestFrom (n : Neighbourhood) (point : Int) : Nat → Nat → Digits
  | 0, count => ⟨(n.inUnits (point - count)).value / (n.inUnits (point - count)).denominator,
      point - count⟩
  | fuel + 1, count =>
    match (n.inUnits (point - count)).nearest? with
    | some digits => ⟨digits, point - count⟩
    | none => shortestFrom n point fuel (count + 1)

def Digits.normalize (d : Digits) : Digits :=
  let rec strip : Nat → Nat → Int → Digits
    | 0, digits, exponent => ⟨digits, exponent⟩
    | fuel + 1, digits, exponent =>
      if digits != 0 && digits % 10 == 0 then strip fuel (digits / 10) (exponent + 1)
      else ⟨digits, exponent⟩
  strip 20 d.digits d.exponent

/-- The shortest digits that read back as the positive number `mantissa * 2 ^ exponent`. -/
def shortest (mantissa : Nat) (exponent : Int) : Digits :=
  let n := neighbourhood mantissa exponent
  let point := pointFrom n 5 (pointGuess mantissa exponent)
  (shortestFrom n point 17 1).normalize

/-! ### Writing the digits -/

def zeros (count : Nat) : String := "".pushn '0' count

/-- Digits without an exponent: `places` is how many digits a fraction has at least. -/
def positional (d : Digits) (places : Nat) : String :=
  let text := toString d.digits
  match d.exponent with
  | .ofNat e => text ++ zeros e ++ (if places == 0 then "" else "." ++ zeros places)
  | .negSucc e =>
    let fraction := e + 1
    if fraction < text.length then
      String.ofList (text.toList.take (text.length - fraction)) ++ "." ++
        String.ofList (text.toList.drop (text.length - fraction))
    else "0." ++ zeros (fraction - text.length) ++ text

def exponential (d : Digits) : String :=
  let text := toString d.digits
  let power := d.exponent + (text.length - 1 : Nat)
  let fraction := String.ofList (text.toList.drop 1)
  String.ofList (text.toList.take 1) ++ (if fraction.isEmpty then "" else "." ++ fraction) ++
    "e" ++ toString power

def render (x : Float) (zero : String) (write : Digits → String) : String :=
  let signed (negative : Bool) (text : String) := if negative then "-" ++ text else text
  match kind x with
  | .notANumber => "NaN"
  | .infinite negative => signed negative "inf"
  | .finite p =>
    signed p.negative (if p.mantissa == 0 then zero else write (shortest p.mantissa p.exponent))

def plain (x : Float) : String := render x "0" fun d => positional d 0

/-- The magnitude `10 ^ k` with `10 ^ k ≤ d < 10 ^ (k + 1)`. -/
def Digits.magnitude (d : Digits) : Int := d.exponent + ((toString d.digits).length - 1 : Nat)

/-- Written as a literal, a number keeps a fraction, and takes an exponent below `10 ^ (-4)` and
from `10 ^ 16` on. -/
def scientific (x : Float) : String :=
  render x "0.0" fun d =>
    if d.magnitude < -4 || 16 ≤ d.magnitude then exponential d else positional d 1

end ArrayCommand.Decimal
