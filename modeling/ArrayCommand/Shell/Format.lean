/-
Texts with escapes and formats with directives.
-/

import ArrayCommand.Shell.Arithmetic

namespace ArrayCommand.Shell.Format

/-! ### Escapes -/

def isOctal (c : Char) : Bool := '0' ≤ c && c ≤ '7'

def octal : (count : Nat) → Nat → List Char → Nat × List Char
  | count + 1, n, c :: cs =>
    if isOctal c then octal count (n * 8 + (c.toNat - '0'.toNat)) cs else (n, c :: cs)
  | _, n, cs => (n, cs)

def byte (n : Nat) : Char := Char.ofNat (n % 256)

/-- The character that stands behind a backslash, and what follows it.  If none does, it is the
backslash itself. -/
def escape (cs : List Char) : Char × List Char :=
  match cs with
  | 'a' :: rest => (byte 7, rest)
  | 'b' :: rest => (byte 8, rest)
  | 'e' :: rest => (byte 27, rest)
  | 'f' :: rest => (byte 12, rest)
  | 'n' :: rest => ('\n', rest)
  | 'r' :: rest => ('\r', rest)
  | 't' :: rest => ('\t', rest)
  | 'v' :: rest => (byte 11, rest)
  | '\\' :: rest => ('\\', rest)
  | c :: _ =>
    if isOctal c then
      let (n, rest) := octal 3 0 cs
      (byte n, rest)
    else ('\\', cs)
  | [] => ('\\', [])

/-- A text without its escapes, and whether it asks to stop, at most `fuel` characters of it. -/
def unescapeFrom : (fuel : Nat) → List Char → List Char × Bool
  | 0, _ => ([], false)
  | _, [] => ([], false)
  | fuel + 1, '\\' :: rest =>
    match rest with
    | 'c' :: _ => ([], true)
    | '0' :: rest =>
      let (n, rest) := octal 3 0 rest
      let (text, stop) := unescapeFrom fuel rest
      (byte n :: text, stop)
    | rest =>
      let (c, rest) := escape rest
      let (text, stop) := unescapeFrom fuel rest
      (c :: text, stop)
  | fuel + 1, c :: rest =>
    let (text, stop) := unescapeFrom fuel rest
    (c :: text, stop)

def unescape (text : String) : List Char × Bool := unescapeFrom text.length text.toList

/-- Words with blanks between them, up to the one that asks to stop; a line end follows if it is
wanted. -/
def echoWords (newline : Bool) : List String → List Char
  | [] => if newline then ['\n'] else []
  | word :: rest =>
    let (text, stop) := unescape word
    if stop then text
    else
      match rest with
      | [] => text ++ if newline then ['\n'] else []
      | rest => text ++ ' ' :: echoWords newline rest

def echo : List String → String
  | "-n" :: words => String.ofList (echoWords false words)
  | words => String.ofList (echoWords true words)

/-! ### Directives -/

/-- A conversion: its flags, its width, its precision and the letter of its kind. -/
structure Directive where
  left : Bool := false
  plus : Bool := false
  blank : Bool := false
  zero : Bool := false
  width : Nat := 0
  precision : Option Nat := none
  kind : Char := 's'

def spaces (n : Nat) (c : Char) : List Char := List.replicate n c

def Directive.pad (d : Directive) (text : List Char) : List Char :=
  let gap := spaces (d.width - text.length) ' '
  if d.left then text ++ gap else gap ++ text

def Directive.padNumber (d : Directive) (zeros : Bool) (sign body : List Char) : List Char :=
  if zeros && d.zero && !d.left then
    sign ++ spaces (d.width - sign.length - body.length) '0' ++ body
  else d.pad (sign ++ body)

def Directive.sign (d : Directive) (negative : Bool) : List Char :=
  if negative then ['-'] else if d.plus then ['+'] else if d.blank then [' '] else []

def Directive.text (d : Directive) (text : List Char) : List Char :=
  d.pad (match d.precision with
    | some n => text.take n
    | none => text)

def Directive.digits (d : Directive) (base n : Nat) : List Char :=
  match d.precision with
  | some p =>
    let digits := if n = 0 then [] else Nat.toDigits base n
    spaces (p - digits.length) '0' ++ digits
  | none => Nat.toDigits base n

def Directive.integer (d : Directive) (n : Int) : List Char :=
  d.padNumber d.precision.isNone (d.sign (n < 0)) (d.digits 10 n.natAbs)

def Directive.unsigned (d : Directive) (n : Nat) : List Char :=
  let digits :=
    match d.kind with
    | 'o' => d.digits 8 n
    | 'x' => d.digits 16 n
    | 'X' => (d.digits 16 n).map Char.toUpper
    | _ => d.digits 10 n
  d.padNumber d.precision.isNone [] digits

/-! ### Arguments -/

/-- The arguments that are left, the warnings about them, and the text so far, the last parts
first. -/
structure Progress where
  args : List String
  warnings : List String := []
  text : List (List Char) := []

def Progress.add (p : Progress) (text : List Char) : Progress := { p with text := text :: p.text }

def incomplete (arg : String) (none' : Bool) : String :=
  arg ++ if none' then ": expected numeric value" else ": not completely converted"

def outOfRange (arg : String) : String := arg ++ ": Numerical result out of range"

/-- Blanks and a sign before a number: whether it is negative, and what follows. -/
def signed (cs : List Char) : Bool × List Char :=
  match cs.dropWhile Arithmetic.isSpace with
  | '-' :: rest => (true, rest)
  | '+' :: rest => (false, rest)
  | rest => (false, rest)

def integerArgument (arg : String) (isSigned : Bool) : Int × Option String :=
  match arg.toList with
  | [] => (0, none)
  | '\'' :: rest => ((rest.headD (byte 0)).toNat, none)
  | '"' :: rest => ((rest.headD (byte 0)).toNat, none)
  | cs =>
    let (negative, digits) := signed cs
    match digits with
    | c :: _ =>
      if c.isDigit then
        let (n, rest) := Arithmetic.number digits
        let value : Int := if negative then -n else n
        let (value, range) :=
          if isSigned then
            if value < Arithmetic.least then (Arithmetic.least, true)
            else if Arithmetic.greatest < value then (Arithmetic.greatest, true)
            else (value, false)
          else if wordSize ≤ n then (wordSize - 1, true)
          else ((Word.unsigned value : Int), false)
        (value,
          if !rest.isEmpty then some (incomplete arg false)
          else if range then some (outOfRange arg)
          else none)
      else (0, some (incomplete arg true))
    | [] => (0, some (incomplete arg true))

def Progress.next (p : Progress) : Option String × Progress :=
  match p.args with
  | [] => (none, p)
  | arg :: args => (some arg, { p with args })

def Progress.nextInteger (p : Progress) (isSigned : Bool) : Int × Progress :=
  match p.next with
  | (none, p) => (0, p)
  | (some arg, p) =>
    let (n, warning) := integerArgument arg isSigned
    (n, { p with warnings := p.warnings ++ warning.toList })

/-! ### Formats -/

inductive Ended where
  | whole
  | stopped
  | failed (message : String)
deriving DecidableEq, Repr

def flags : List Char → Directive → Directive × List Char
  | '-' :: cs, d => flags cs { d with left := true }
  | '+' :: cs, d => flags cs { d with plus := true }
  | ' ' :: cs, d => flags cs { d with blank := true }
  | '0' :: cs, d => flags cs { d with zero := true }
  | cs, d => (d, cs)

def width (cs : List Char) (d : Directive) (p : Progress) : Directive × List Char × Progress :=
  match cs with
  | '*' :: cs =>
    let (n, p) := p.nextInteger true
    ({ d with width := n.natAbs, left := d.left || n < 0 }, cs, p)
  | cs =>
    let (n, cs) := Arithmetic.digits 10 0 cs
    ({ d with width := n }, cs, p)

def precision (cs : List Char) (d : Directive) (p : Progress) : Directive × List Char × Progress :=
  match cs with
  | '.' :: '*' :: cs =>
    let (n, p) := p.nextInteger true
    ({ d with precision := if n < 0 then none else some n.toNat }, cs, p)
  | '.' :: cs =>
    let (n, cs) := Arithmetic.digits 10 0 cs
    ({ d with precision := some n }, cs, p)
  | cs => (d, cs, p)

def carryOut (d : Directive) (p : Progress) : Option (Progress × Bool) :=
  match d.kind with
  | 's' =>
    let (arg, p) := p.next
    some (p.add (d.text (arg.getD "").toList), false)
  | 'b' =>
    let (arg, p) := p.next
    let (text, stop) := unescape (arg.getD "")
    some (p.add (d.text text), stop)
  | 'c' =>
    let (arg, p) := p.next
    some (p.add (d.pad [((arg.getD "").toList).headD (byte 0)]), false)
  | 'd' | 'i' =>
    let (n, p) := p.nextInteger true
    some (p.add (d.integer n), false)
  | 'o' | 'u' | 'x' | 'X' =>
    let (n, p) := p.nextInteger false
    some (p.add (d.unsigned n.toNat), false)
  | _ => none

def once : (fuel : Nat) → List Char → Progress → Progress × Ended
  | 0, _, p => (p, .whole)
  | _, [], p => (p, .whole)
  | fuel + 1, '\\' :: cs, p =>
    let (c, cs) := escape cs
    once fuel cs (p.add [c])
  | fuel + 1, '%' :: '%' :: cs, p => once fuel cs (p.add ['%'])
  | fuel + 1, '%' :: cs, p =>
    let (d, rest) := flags cs {}
    let (d, rest, p) := width rest d p
    let (d, rest, p) := precision rest d p
    match rest with
    | [] => (p, .failed "missing format character")
    | kind :: rest =>
      match carryOut { d with kind } p with
      | some (p, stop) => if stop then (p, .stopped) else once fuel rest p
      | none =>
        let shown := cs.take (cs.length - rest.length)
        (p, .failed ("%" ++ String.ofList shown ++ ": invalid directive"))
  | fuel + 1, c :: cs, p => once fuel cs (p.add [c])

def repeatedly (format : List Char) : (fuel : Nat) → Progress → Progress × Ended
  | 0, p => (p, .whole)
  | fuel + 1, p =>
    match once (format.length + 1) format p with
    | (p', .whole) =>
      if p'.args.isEmpty || p'.args.length = p.args.length then (p', .whole)
      else repeatedly format fuel p'
    | result => result

/-- The text of a format and its arguments, the warnings about them, and how it ended. -/
def print (format : String) (args : List String) : String × List String × Ended :=
  let (p, ended) := repeatedly format.toList (args.length + 1) { args }
  (String.ofList p.text.reverse.flatten, p.warnings, ended)

end ArrayCommand.Shell.Format
