/-
The lexer: the tokens of one line, read one after another with a token of lookahead.
-/

import ArrayCommand.Token.Scan

namespace ArrayCommand

structure Lexer where
  text : List Char
  maxName : Nat
  pos : Nat := 0
  column : Column := .unset
  peeked : Option (Column × Token) := none

namespace Lexer

def ofText (text : String) (maxName : Nat) : Lexer := { text := text.toList, maxName }

def line (l : Lexer) : String := String.ofList l.text

def ahead (l : Lexer) : List Char := l.text.drop l.pos

/-! ### Taking and looking -/

/-- Scan the next token.  The position moves behind it even if it cannot be read. -/
def scan : EStateM Fault Lexer (Column × Token) := fun l =>
  let lexeme := Scan.lexeme l.maxName l.pos l.ahead
  let l := { l with pos := lexeme.column.stop }
  match lexeme.token with
  | .ok token => .ok (lexeme.column, token) l
  | .error fault => .error fault l

def next : EStateM Fault Lexer Token := do
  let l ← get
  match l.peeked with
  | some (column, token) =>
    set { l with column, peeked := none }
    return token
  | none =>
    let (column, token) ← scan
    modify fun l => { l with column }
    return token

def lookahead : EStateM Fault Lexer (Column × Token) := do
  match (← get).peeked with
  | some seen => return seen
  | none =>
    let seen ← scan
    modify fun l => { l with peeked := some seen }
    return seen

def peek : EStateM Fault Lexer Token := do return (← lookahead).2

def peekColumn : EStateM Fault Lexer Column := do return (← lookahead).1

def atEnd : EStateM Fault Lexer Bool := do return (← peek).isFinish

def nextAt : EStateM Fault Lexer (Token × Column) := do
  let token ← next
  return (token, (← get).column)

/-! ### Going back -/

structure Mark where
  pos : Nat
  column : Column
  peeked : Option (Column × Token)

def mark (l : Lexer) : Mark := ⟨l.pos, l.column, l.peeked⟩

def reset (l : Lexer) (m : Mark) : Lexer :=
  { l with pos := m.pos, column := m.column, peeked := m.peeked }

/-! ### Text taken as it stands -/

def restStart (l : Lexer) : Nat :=
  match l.peeked with
  | some (column, _) => column.start
  | none => l.pos

def rest (l : Lexer) : String := Text.trim (String.ofList (l.text.drop l.restStart))

/-- Characters up to a comma, with the characters behind backslashes decoded, and how many
characters that takes.  A backslash at the very end stands for itself. -/
def literalBody : List Char → List Char × Nat
  | [] => ([], 0)
  | [c] => if c = ',' then ([], 0) else ([c], 1)
  | c :: d :: cs =>
    if c = ',' then ([], 0)
    else if c = '\\' then
      let (body, width) := literalBody cs
      (Scan.unescape d :: body, width + 2)
    else
      let (body, width) := literalBody (d :: cs)
      (c :: body, width + 1)

def literal : EStateM Fault Lexer Token := do
  modify fun l => { l with pos := l.restStart, peeked := none }
  modify fun l => { l with pos := l.pos + (l.ahead.takeWhile Scan.isSeparator).length }
  let l ← get
  match l.ahead with
  | [] =>
    set { l with column := .point l.pos }
    return .finish
  | c :: cs =>
    if Scan.isQuote c then next
    else
      let (body, width) := literalBody (c :: cs)
      let text := Text.dropBlanksRight body
      set { l with pos := l.pos + width, column := ⟨l.pos, l.pos + text.length⟩ }
      return .literal (String.ofList text)

/-! ### A whole line -/

/-- The tokens up to the end of the line, at most `fuel` of them. -/
def collect : Nat → Lexer → Except Fault (List Token)
  | 0, _ => .ok []
  | fuel + 1, l =>
    match next l with
    | .error fault _ => .error fault
    | .ok token l =>
      if token.isFinish then .ok []
      else
        match collect fuel l with
        | .ok tokens => .ok (token :: tokens)
        | .error fault => .error fault

/-- The tokens of a line.  A token has at least one character, so the length of the line bounds
their number. -/
def tokens (text : String) (maxName : Nat) : Except Fault (List Token) :=
  collect (text.length + 1) (ofText text maxName)

end Lexer

end ArrayCommand
