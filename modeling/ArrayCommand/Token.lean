/-
Tokens of the command language.
-/

import ArrayCommand.Decimal.Shortest
import ArrayCommand.Text.Blank

namespace ArrayCommand

/-! ### Operators -/

inductive Operator where
  | or
  | and
  | equal
  | notEqual
  | less
  | lessEqual
  | greater
  | greaterEqual
  | plus
  | minus
  | multiply
  | divide
  | caret
  | not
  | concat
deriving DecidableEq, Repr

namespace Operator

/-- All spellings.  The ones of two characters come first, so that the first spelling that fits is
the longest one. -/
def spellings : List (List Char × Operator) :=
  [(['|', '|'], or), (['&', '&'], and), (['=', '='], equal), (['!', '='], notEqual),
    (['<', '='], lessEqual), (['>', '='], greaterEqual), (['/', '/'], concat),
    (['*', '*'], caret), (['<'], less), (['>'], greater), (['+'], plus), (['-'], minus),
    (['*'], multiply), (['/'], divide), (['^'], caret), (['!'], not)]

def text : Operator → String
  | or => "||"
  | and => "&&"
  | equal => "=="
  | notEqual => "!="
  | less => "<"
  | lessEqual => "<="
  | greater => ">"
  | greaterEqual => ">="
  | plus => "+"
  | minus => "-"
  | multiply => "*"
  | divide => "/"
  | caret => "^"
  | not => "!"
  | concat => "//"

end Operator

/-! ### Tokens -/

/-- One token of a statement.  A `literal` is unquoted text taken as it stands; `placeholder` is the
position in the broadcast domain. -/
inductive Token where
  | name (text : String)
  | integer (value : Int)
  | float (value : Float)
  | text (value : String)
  | literal (value : String)
  | placeholder
  | operator (op : Operator)
  | assign
  | leftParen
  | rightParen
  | leftBracket
  | rightBracket
  | leftBrace
  | rightBrace
  | comma
  | colon
  | finish
deriving BEq, Repr

namespace Token

def isFinish : Token → Bool
  | finish => true
  | _ => false

def shown : Token → String
  | name s => s
  | integer n => toString n
  | float x => Decimal.scientific x
  | text s => "\"" ++ s ++ "\""
  | literal s => s
  | placeholder => "@"
  | operator op => op.text
  | assign => "="
  | leftParen => "("
  | rightParen => ")"
  | leftBracket => "["
  | rightBracket => "]"
  | leftBrace => "\x7b"
  | rightBrace => "\x7d"
  | comma => ","
  | colon => ":"
  | finish => "end of statement"

def quoted (t : Token) : String := "'" ++ t.shown ++ "'"

end Token

/-! ### Keywords -/

/-- The words with a fixed meaning.  They are recognised by their whole spelling only, so no
variable or function can take their place. -/
inductive Keyword where
  | if
  | then
  | else
  | elseIf
  | end
  | endIf
  | while
  | endWhile
  | repeat
  | until
  | do
  | endDo
  | break
  | continue
  | stop
  | integer
  | float
  | string
  | logical
deriving DecidableEq, Repr

namespace Keyword

/-- The keyword a name spells, whatever the case of its letters. -/
def ofName? (name : String) : Option Keyword :=
  match Text.fold name with
  | "if" => some .if
  | "then" => some .then
  | "else" => some .else
  | "elseif" => some .elseIf
  | "else_if" => some .elseIf
  | "end" => some .end
  | "endif" => some .endIf
  | "end_if" => some .endIf
  | "while" => some .while
  | "endwhile" => some .endWhile
  | "end_while" => some .endWhile
  | "repeat" => some .repeat
  | "until" => some .until
  | "do" => some .do
  | "enddo" => some .endDo
  | "end_do" => some .endDo
  | "break" => some .break
  | "continue" => some .continue
  | "stop" => some .stop
  | "integer" => some .integer
  | "float" => some .float
  | "string" => some .string
  | "logical" => some .logical
  | _ => none

/-- The closing keyword that `end` forms with the keyword after it. -/
def terminator : Keyword → Option Keyword
  | .if => some .endIf
  | .while => some .endWhile
  | .do => some .endDo
  | _ => none

def text : Keyword → String
  | .if => "if"
  | .then => "then"
  | .else => "else"
  | .elseIf => "else if"
  | .end => "end"
  | .endIf => "end if"
  | .while => "while"
  | .endWhile => "end while"
  | .repeat => "repeat"
  | .until => "until"
  | .do => "do"
  | .endDo => "end do"
  | .break => "break"
  | .continue => "continue"
  | .stop => "stop"
  | .integer => "integer"
  | .float => "float"
  | .string => "string"
  | .logical => "logical"

def quoted (k : Keyword) : String := "'" ++ Text.upper k.text ++ "'"

end Keyword

end ArrayCommand
