/-
Argument references in a line, and the cutting of a line into sub-lines.

A line is read as a template: which characters are copied, where arguments are inserted, and where a
semicolon ends a sub-line is decided by the line alone.  The arguments are inserted as they are, and
what they contain is not looked at again.
-/

import ArrayCommand.Fault

namespace ArrayCommand

/-- A part of a line: a character, the number of arguments, one argument, the arguments from one on,
or the arguments from one to another.  Argument zero is the name of what the line belongs to. -/
inductive Piece where
  | char (c : Char)
  | count
  | argument (n : Nat)
  | rest (first : Nat)
  | range (first last : Nat)
deriving DecidableEq, Repr

namespace Piece

def argumentText (name : String) (args : List String) : Nat → String
  | 0 => name
  | n + 1 => args.getD n ""

def expand (name : String) (args : List String) : Piece → String
  | char c => c.toString
  | count => toString args.length
  | argument n => argumentText name args n
  | rest first => " ".intercalate (args.drop (first - 1))
  | range first last =>
    " ".intercalate
      (((List.range (min last args.length + 1)).drop first).map (argumentText name args))

end Piece

namespace Template

/-! ### References -/

/-- The number that digits stand for, if there are any and it fits into a machine word. -/
def number? (digits : List Char) : Option Nat :=
  if digits.isEmpty then none
  else
    let n := digits.foldl (fun n c => n * 10 + (c.toNat - '0'.toNat)) 0
    if n < 0x10000000000000000 then some n else none

/-- The reference behind a percent sign at a position, and the number of characters it takes behind
the percent sign. -/
def reference (pos : Nat) (cs : List Char) : Except Fault (Piece × Nat) :=
  let digits := cs.takeWhile Char.isDigit
  if digits.isEmpty then .ok (.count, 0)
  else
    match number? digits with
    | none => .error (.said .overflow ⟨pos, pos + 1 + digits.length⟩ "ARGUMENT NUMBER")
    | some first =>
      match cs.dropWhile Char.isDigit with
      | '.' :: '*' :: _ => .ok (.rest first, digits.length + 2)
      | '.' :: more =>
        let digits' := more.takeWhile Char.isDigit
        match number? digits' with
        | some last => .ok (.range first last, digits.length + 1 + digits'.length)
        | none => .ok (.argument first, digits.length)
      | _ => .ok (.argument first, digits.length)

/-! ### Lines -/

def prepend (piece : Piece) : List (List Piece) → List (List Piece)
  | [] => [[piece]]
  | first :: rest => (piece :: first) :: rest

/-- What to do at a character: the piece to copy, if any, how many of the characters behind it
belong to it, and the quote that is open behind it.  Without a piece a sub-line ends. -/
structure Move where
  pieces : List Piece
  width : Nat := 0
  quote : Option Char
  ends : Bool := false

def insideQuote (quote : Char) (pos : Nat) (c : Char) (cs : List Char) : Except Fault Move :=
  if c = '\\' then
    match cs with
    | [] => .ok { pieces := [.char c], quote := some quote }
    | d :: _ => .ok { pieces := [.char c, .char d], width := 1, quote := some quote }
  else if c = quote then .ok { pieces := [.char c], quote := none }
  else
    match c, cs with
    | '%', '%' :: d :: more =>
      if d.isDigit then
        (reference (pos + 1) (d :: more)).map fun (piece, width) =>
          { pieces := [piece], width := width + 1, quote := some quote }
      else .ok { pieces := [.char c], quote := some quote }
    | _, _ => .ok { pieces := [.char c], quote := some quote }

def outsideQuote (pos : Nat) (c : Char) (cs : List Char) : Except Fault Move :=
  if c = '"' ∨ c = '\'' then .ok { pieces := [.char c], quote := some c }
  else if c = ';' then .ok { pieces := [], quote := none, ends := true }
  else if c = '%' then
    match cs with
    | '%' :: _ => .ok { pieces := [.char '%'], width := 1, quote := none }
    | _ => (reference pos cs).map fun (piece, width) => { pieces := [piece], width, quote := none }
  else .ok { pieces := [.char c], quote := none }

def move (quote : Option Char) (pos : Nat) (c : Char) (cs : List Char) : Except Fault Move :=
  match quote with
  | some q => insideQuote q pos c cs
  | none => outsideQuote pos c cs

/-- The sub-lines of characters that begin at a position; the first `skip` characters belong to
what is before them. -/
def scan : (quote : Option Char) → (skip pos : Nat) → List Char → Except Fault (List (List Piece))
  | _, _, _, [] => .ok [[]]
  | quote, skip + 1, pos, _ :: cs => scan quote skip (pos + 1) cs
  | quote, 0, pos, c :: cs => do
    let m ← move quote pos c cs
    let rest ← scan m.quote m.width (pos + 1) cs
    return if m.ends then [] :: rest else m.pieces.foldr prepend rest

def render (name : String) (args : List String) (pieces : List Piece) : String :=
  String.join (pieces.map (Piece.expand name args))

def substitute (line name : String) (args : List String) : Except Fault (List String) :=
  (scan none 0 0 line.toList).map fun parts => parts.map (render name args)

end Template

end ArrayCommand
