/-
Scanning one token off the front of a list of characters.

A scan looks at the characters from a given position on and tells how many of them the next token
takes.  A scan that fails takes characters as well: reading goes on behind the characters that
could not be read.
-/

import ArrayCommand.Fault
import ArrayCommand.Token

namespace ArrayCommand.Scan

/-! ### Classes of characters -/

def isSeparator (c : Char) : Bool := c = ' ' || c = '\t'

def startsName (c : Char) : Bool := c.isAlpha || c = '_'

def continuesName (c : Char) : Bool := c.isAlphanum || c = '_'

def isQuote (c : Char) : Bool := c = '"' || c = '\''

def isExponentMark (c : Char) : Bool := c = 'e' || c = 'E' || c = 'd' || c = 'D'

def isSign (c : Char) : Bool := c = '+' || c = '-'

def unescape (c : Char) : Char :=
  if c = 'n' then '\n'
  else if c = 't' then '\t'
  else if c = 'r' then '\r'
  else if c = '0' then Char.ofNat 0
  else c

/-! ### Scans -/

/-- What a scan gives: how many characters it takes, and the token or a fault. -/
structure Taken where
  width : Nat
  token : Except Fault Token

/-- The columns of a token and what was read there. -/
structure Lexeme where
  column : Column
  token : Except Fault Token

def decimal (digits : List Char) : Nat :=
  digits.foldl (fun n c => 10 * n + (c.toNat - '0'.toNat)) 0

/-! ### Numbers -/

/-- A power of ten behind the digits of a number: its width, whether it is negative, and its
digits.  There is one only if a digit follows the letter and the sign. -/
def exponentPart : List Char → Option (Nat × Bool × List Char)
  | [] => none
  | mark :: cs =>
    if !isExponentMark mark then none
    else
      let sign := cs.take 1 |>.filter isSign
      let digits := (cs.drop sign.length).takeWhile Char.isDigit
      if digits.isEmpty then none
      else some (1 + sign.length + digits.length, sign == ['-'], digits)

/-- The digits before the point, the digits behind it if there is a point, and the width of both. -/
def digitPart (cs : List Char) : List Char × Option (List Char) × Nat :=
  let whole := cs.takeWhile Char.isDigit
  match cs.drop whole.length with
  | '.' :: rest =>
    let fraction := rest.takeWhile Char.isDigit
    (whole, some fraction, whole.length + 1 + fraction.length)
  | _ => (whole, none, whole.length)

/-- A number at `start`.  A point or a power of ten makes it a floating point number. -/
def number (start : Nat) (cs : List Char) : Taken :=
  let (whole, fraction, width) := digitPart cs
  match fraction, exponentPart (cs.drop width) with
  | none, none =>
    let value := decimal whole
    if value < 0x8000000000000000 then ⟨width, .ok (.integer value)⟩
    else ⟨width, .error (.said .overflow ⟨start, start + width⟩ "INTEGER LITERAL TOO LARGE")⟩
  | fraction, power =>
    let places := fraction.getD []
    let (extra, negative, digits) := power.getD (0, false, [])
    let shift : Int := if negative then -(decimal digits : Int) else decimal digits
    ⟨width + extra,
      .ok (.float (Binary64.ofDecimal (decimal (whole ++ places)) (shift - places.length)))⟩

/-! ### Names and strings -/

/-- A name at `start`, no longer than `maxName` characters. -/
def name (maxName start : Nat) (cs : List Char) : Taken :=
  let word := cs.takeWhile continuesName
  if maxName < word.length then
    ⟨word.length, .error (.place .nameTooLong ⟨start, start + word.length⟩)⟩
  else ⟨word.length, .ok (.name (String.ofList word))⟩

/-- The characters up to the closing quote, and how many characters that takes, the quote
included.  Nothing if the quote is missing. -/
def stringBody (quote : Char) : List Char → Option (List Char × Nat)
  | [] => none
  | [c] => if c = quote then some ([], 1) else none
  | c :: d :: cs =>
    if c = quote then some ([], 1)
    else if c = '\\' then
      (stringBody quote cs).map fun (body, width) => (unescape d :: body, width + 2)
    else (stringBody quote (d :: cs)).map fun (body, width) => (c :: body, width + 1)

/-- A quoted string at `start`, whose opening quote is `quote`; `cs` follows it. -/
def string (start : Nat) (quote : Char) (cs : List Char) : Taken :=
  match stringBody quote cs with
  | some (body, width) => ⟨width + 1, .ok (.text (String.ofList body))⟩
  | none =>
    let width := cs.length + 1
    ⟨width, .error (.place .unterminatedString ⟨start, start + width⟩)⟩

/-! ### Operators and punctuation -/

def operator? (cs : List Char) : Option (Nat × Operator) :=
  (Operator.spellings.find? fun (spelling, _) => spelling.isPrefixOf cs).map fun (spelling, op) =>
    (spelling.length, op)

def punctuation? (c : Char) : Option Token :=
  if c = '=' then some .assign
  else if c = '(' then some .leftParen
  else if c = ')' then some .rightParen
  else if c = '[' then some .leftBracket
  else if c = ']' then some .rightBracket
  else if c = '{' then some .leftBrace
  else if c = '}' then some .rightBrace
  else if c = ',' then some .comma
  else if c = ':' then some .colon
  else if c = '@' then some .placeholder
  else none

/-- An operator or a punctuation character at `start`. -/
def mark (start : Nat) (c : Char) (cs : List Char) : Taken :=
  match operator? (c :: cs) with
  | some (width, op) => ⟨width, .ok (.operator op)⟩
  | none =>
    match punctuation? c with
    | some token => ⟨1, .ok token⟩
    | none =>
      ⟨1, .error (.said .illegalCharacter ⟨start, start + 1⟩
        ("'" ++ String.ofList [c] ++ "'"))⟩

/-! ### One token -/

/-- Whether a number starts here: a digit, or a point with a digit behind it. -/
def startsNumber (c : Char) (cs : List Char) : Bool :=
  c.isDigit || (c = '.' && (cs.head?.map Char.isDigit).getD false)

/-- The token that starts with the character `c`. -/
def token (maxName start : Nat) (c : Char) (cs : List Char) : Taken :=
  if startsNumber c cs then number start (c :: cs)
  else if startsName c then name maxName start (c :: cs)
  else if isQuote c then string start c cs
  else mark start c cs

/-- The first token of `cs`, whose first character is at position `pos`. -/
def lexeme (maxName pos : Nat) (cs : List Char) : Lexeme :=
  let skipped := (cs.takeWhile isSeparator).length
  let start := pos + skipped
  match cs.drop skipped with
  | [] => ⟨.point start, .ok .finish⟩
  | c :: rest =>
    let taken := token maxName start c rest
    ⟨⟨start, start + taken.width⟩, taken.token⟩

end ArrayCommand.Scan
