/-
Sums of the shell: integers of 64 bits, and variables that hold them.
-/

import ArrayCommand.Shell.Script
import ArrayCommand.Word

namespace ArrayCommand.Shell.Arithmetic

/-! ### Numbers -/

def digit? (base : Nat) (c : Char) : Option Nat :=
  let value :=
    if c.isDigit then c.toNat - '0'.toNat
    else if 'a' ≤ c && c ≤ 'f' then c.toNat - 'a'.toNat + 10
    else if 'A' ≤ c && c ≤ 'F' then c.toNat - 'A'.toNat + 10
    else base
  if value < base then some value else none

/-- The digits at the start of a text, added to a number, and what follows them. -/
def digits (base : Nat) : Nat → List Char → Nat × List Char
  | n, [] => (n, [])
  | n, c :: cs =>
    match digit? base c with
    | some d => digits base (n * base + d) cs
    | none => (n, c :: cs)

/-- The number at the start of a text that begins with a digit, and what follows. -/
def number (cs : List Char) : Nat × List Char :=
  match cs with
  | '0' :: 'x' :: c :: rest => if (digit? 16 c).isSome then digits 16 0 (c :: rest) else (0, cs.tail)
  | '0' :: 'X' :: c :: rest => if (digit? 16 c).isSome then digits 16 0 (c :: rest) else (0, cs.tail)
  | '0' :: rest => digits 8 0 rest
  | _ => digits 10 0 cs

def isSpace (c : Char) : Bool := c = ' ' || (9 ≤ c.toNat && c.toNat ≤ 13)

def least : Int := -0x8000000000000000

def greatest : Int := 0x7fffffffffffffff

/-- The integer that a text stands for, with blanks around it and a sign.  A text without digits
stands for zero if that is allowed. -/
def integerOf? (read : List Char → Nat × List Char) (blank : Bool) (text : String) : Option Int :=
  let cs := text.toList.dropWhile isSpace
  let (negative, cs) :=
    match cs with
    | '-' :: cs => (true, cs)
    | '+' :: cs => (false, cs)
    | cs => (false, cs)
  match cs with
  | [] => if blank && text.toList.all isSpace then some 0 else none
  | c :: _ =>
    if !c.isDigit then none
    else
      let (n, rest) := read cs
      let value : Int := if negative then -n else n
      if rest.all isSpace && least ≤ value && value ≤ greatest then some value else none

/-! ### Symbols -/

inductive Symbol where
  | number (n : Int)
  | name (name : String)
  | op (text : String)
  | bad
deriving DecidableEq, Repr

def operators : List String :=
  ["<<", ">>", "<=", ">=", "==", "!=", "&&", "||", "+", "-", "*", "/", "%", "<", ">", "!", "~", "&",
    "|", "^", "?", ":", "(", ")"]

def operator? (cs : List Char) : Option String :=
  operators.find? fun op => op.toList.isPrefixOf cs

def symbols : (fuel : Nat) → List Char → List Symbol
  | 0, _ => []
  | _, [] => []
  | fuel + 1, c :: cs =>
    if isSpace c then symbols fuel cs
    else if c.isDigit then
      let (n, rest) := number (c :: cs)
      .number (min n greatest) :: symbols fuel rest
    else if startsName c then
      .name (String.ofList ((c :: cs).takeWhile continuesName)) ::
        symbols fuel ((c :: cs).dropWhile continuesName)
    else
      match operator? (c :: cs) with
      | some op => .op op :: symbols fuel ((c :: cs).drop op.length)
      | none => [.bad]

/-! ### Values -/

/-- What is left of an expression, and the variables. -/
structure Scope where
  text : String
  left : List Symbol
  lookup : String → Option String

abbrev Eval := EStateM String Scope

def malformed {α : Type} (what : String) : Eval α := do
  throw ("arithmetic expression: " ++ what ++ ": \"" ++ (← get).text ++ "\"")

def peek : Eval (Option Symbol) := do return (← get).left.head?

def skip : Eval Unit := modify fun s => { s with left := s.left.tail }

def valueOf (name : String) : Eval Int := do
  let text := ((← get).lookup name).getD ""
  match integerOf? number true text with
  | some n => return n
  | none => throw ("Illegal number: " ++ text)

def precedence? : String → Option Nat
  | "*" | "/" | "%" => some 10
  | "+" | "-" => some 9
  | "<<" | ">>" => some 8
  | "<" | ">" | "<=" | ">=" => some 7
  | "==" | "!=" => some 6
  | "&" => some 5
  | "^" => some 4
  | "|" => some 3
  | _ => none

def truth (b : Bool) : Int := if b then 1 else 0

def onBits (f : Nat → Nat → Nat) (a b : Int) : Int :=
  Word.signed (f (Word.unsigned a) (Word.unsigned b))

def apply (op : String) (a b : Int) : Eval Int := do
  match op with
  | "*" => return Word.signed (a * b)
  | "/" => if b = 0 then malformed "division by zero" else return Word.signed (a.tdiv b)
  | "%" => if b = 0 then malformed "division by zero" else return a.tmod b
  | "+" => return Word.signed (a + b)
  | "-" => return Word.signed (a - b)
  | "<<" => return Word.signed (a * Nat.pow 2 (Word.unsigned b % 64))
  | ">>" => return a / Nat.pow 2 (Word.unsigned b % 64)
  | "<" => return truth (a < b)
  | ">" => return truth (a > b)
  | "<=" => return truth (a ≤ b)
  | ">=" => return truth (a ≥ b)
  | "==" => return truth (a = b)
  | "!=" => return truth (a ≠ b)
  | "&" => return onBits Nat.land a b
  | "^" => return onBits Nat.xor a b
  | _ => return onBits Nat.lor a b

/-- The readers that an expression is evaluated with.  The flag tells whether the value counts: if
not, no division fails. -/
structure Levels where
  whole : (counts : Bool) → Eval Int
  primary : (counts : Bool) → Eval Int

def primaryWith (l : Levels) (counts : Bool) : Eval Int := do
  match ← peek with
  | some (.op "(") =>
    skip
    let n ← l.whole counts
    match ← peek with
    | some (.op ")") =>
      skip
      return n
    | _ => malformed "expecting ')'"
  | some (.number n) =>
    skip
    return n
  | some (.name name) =>
    skip
    if counts then valueOf name else return 0
  | some (.op "+") =>
    skip
    l.primary counts
  | some (.op "-") =>
    skip
    return Word.signed (-(← l.primary counts))
  | some (.op "!") =>
    skip
    return truth ((← l.primary counts) = 0)
  | some (.op "~") =>
    skip
    return -(← l.primary counts) - 1
  | _ => malformed "expecting primary"

def binaryFrom (l : Levels) (counts : Bool) : (fuel least : Nat) → Int → Eval Int
  | 0, _, a => return a
  | fuel + 1, least, a => do
    match ← peek with
    | some (.op op) =>
      match precedence? op with
      | some p =>
        if p < least then return a
        skip
        let b ← l.primary counts
        let b ← binaryFrom l counts fuel (p + 1) b
        let a ← if counts then apply op a b else pure b
        binaryFrom l counts fuel least a
      | none => return a
    | _ => return a

def binary (l : Levels) (counts : Bool) : Eval Int := do
  let a ← l.primary counts
  binaryFrom l counts ((← get).left.length + 1) 0 a

def conjunctionFrom (l : Levels) (counts : Bool) : (fuel : Nat) → Int → Eval Int
  | 0, a => return a
  | fuel + 1, a => do
    match ← peek with
    | some (.op "&&") =>
      skip
      let b ← binary l (counts && a ≠ 0)
      let b ← conjunctionFrom l (counts && a ≠ 0) fuel b
      return truth (a ≠ 0 && b ≠ 0)
    | _ => return a

def disjunctionFrom (l : Levels) (counts : Bool) : (fuel : Nat) → Int → Eval Int
  | 0, a => return a
  | fuel + 1, a => do
    match ← peek with
    | some (.op "||") =>
      skip
      let counts' := counts && a = 0
      let b ← binary l counts'
      let b ← conjunctionFrom l counts' fuel b
      let b ← disjunctionFrom l counts' fuel b
      return truth (a ≠ 0 || b ≠ 0)
    | _ => return a

def choiceFrom (l : Levels) (counts : Bool) : (fuel : Nat) → Eval Int
  | 0 => malformed "expecting primary"
  | fuel + 1 => do
    let size := (← get).left.length + 1
    let a ← binary l counts
    let a ← conjunctionFrom l counts size a
    let a ← disjunctionFrom l counts size a
    match ← peek with
    | some (.op "?") =>
      skip
      let b ← l.whole (counts && a ≠ 0)
      match ← peek with
      | some (.op ":") =>
        skip
        let c ← choiceFrom l (counts && a = 0) fuel
        return if a ≠ 0 then b else c
      | _ => malformed "expecting ':'"
    | _ => return a

def levels : (fuel : Nat) → Levels
  | 0 => ⟨fun _ => malformed "expecting primary", fun _ => malformed "expecting primary"⟩
  | fuel + 1 =>
    ⟨fun counts => do choiceFrom (levels fuel) counts ((← get).left.length + 1),
      primaryWith (levels fuel)⟩

def evaluate (text : String) (lookup : String → Option String) :
    Except String Int :=
  let left := symbols (text.length + 1) text.toList
  let l := levels (2 * left.length + 2)
  let whole : Eval Int := do
    let n ← l.whole true
    if (← peek).isSome then malformed "expecting EOF"
    return n
  match whole { text, left, lookup } with
  | .ok n _ => .ok n
  | .error message _ => .error message

end ArrayCommand.Shell.Arithmetic
