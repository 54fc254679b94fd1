/-
Scripts: what a line of the shell asks for.

All texts of the shell are made of characters that stand for bytes.
-/

namespace ArrayCommand.Shell

inductive Opening where
  | read
  | write
  | append
  | clobber
  | readWrite
deriving DecidableEq, Repr

/-- What is made of the value of a parameter: the value itself, its length, the value unless it is
missing or unless it is there, or the value without a text at one of its ends. -/
inductive ParamForm where
  | value
  | length
  | fallback
  | alternative
  | require
  | assign
  | trimStart (longest : Bool)
  | trimEnd (longest : Bool)
  | illegal
deriving DecidableEq, Repr

mutual

/-- A part of a word.  In `param`, `strict` tells that an empty value counts as a missing one. -/
inductive Part where
  | plain (text : String)
  | quoted (text : String)
  | double (parts : List Part)
  | param (name : String) (form : ParamForm) (strict : Bool) (word : List Part)
  | command (body : Node)
  | arithmetic (parts : List Part)

/-- A stream of a command that is tied to a file or to another stream. -/
inductive Redirect where
  | file (fd : Nat) (opening : Opening) (target : List Part)
  | stream (fd : Nat) (target : List Part)

inductive Node where
  | empty
  | simple (assignments words : List (List Part)) (redirects : List Redirect)
  | define (name : String) (body : Node)
  | pipeline (nodes : List Node)
  | background (node : Node)
  | negation (node : Node)
  | conjunction (left right : Node)
  | disjunction (left right : Node)
  | sequence (left right : Node)
  | group (body : Node) (redirects : List Redirect)
  | subshell (body : Node) (redirects : List Redirect)
  | choice (condition yes no : Node)
  | loop (negated : Bool) (condition body : Node)
  | each (name : String) (words : List (List Part)) (body : Node)
  | cases (word : List Part) (clauses : List Clause)

inductive Clause where
  | clause (patterns : List (List Part)) (body : Node)

end

abbrev Word := List Part

instance : Inhabited Node := ⟨.empty⟩

/-! ### Tokens -/

inductive Keyword where
  | bang
  | caseWord
  | doWord
  | doneWord
  | elifWord
  | elseWord
  | esacWord
  | fiWord
  | forWord
  | ifWord
  | inWord
  | thenWord
  | untilWord
  | whileWord
  | openBrace
  | closeBrace
deriving DecidableEq, Repr

namespace Keyword

def text : Keyword → String
  | bang => "!"
  | caseWord => "case"
  | doWord => "do"
  | doneWord => "done"
  | elifWord => "elif"
  | elseWord => "else"
  | esacWord => "esac"
  | fiWord => "fi"
  | forWord => "for"
  | ifWord => "if"
  | inWord => "in"
  | thenWord => "then"
  | untilWord => "until"
  | whileWord => "while"
  | openBrace => "\x7b"
  | closeBrace => "\x7d"

def all : List Keyword :=
  [bang, caseWord, doWord, doneWord, elifWord, elseWord, esacWord, fiWord, forWord, ifWord, inWord,
    thenWord, untilWord, whileWord, openBrace, closeBrace]

def ofText? (text : String) : Option Keyword := all.find? fun k => k.text == text

def endsList : Keyword → Bool
  | doWord | doneWord | elifWord | elseWord | esacWord | fiWord | thenWord | closeBrace => true
  | _ => false

end Keyword

inductive Arrow where
  | file (opening : Opening)
  | stream
  | text
deriving DecidableEq, Repr

inductive Token where
  | endOfText
  | semicolon
  | ampersand
  | both
  | either
  | pipe
  | openParen
  | closeParen
  | endClause
  | arrow (fd : Nat) (arrow : Arrow)
  | word (word : Word)
  | keyword (keyword : Keyword)

namespace Token

def text : Token → String
  | endOfText => "end of file"
  | semicolon => "\";\""
  | ampersand => "\"&\""
  | both => "\"&&\""
  | either => "\"||\""
  | pipe => "\"|\""
  | openParen => "\"(\""
  | closeParen => "\")\""
  | endClause => "\";;\""
  | arrow _ _ => "redirection"
  | word _ => "word"
  | keyword k => "\"" ++ k.text ++ "\""

def endsList : Token → Bool
  | endOfText | closeParen | endClause => true
  | keyword k => k.endsList
  | _ => false

end Token

def bareText? : Word → Option String
  | [.plain text] => some text
  | _ => none

def startsName (c : Char) : Bool := c.isAlpha || c = '_'

def continuesName (c : Char) : Bool := c.isAlphanum || c = '_'

def isName (text : String) : Bool :=
  match text.toList with
  | [] => false
  | c :: cs => startsName c && cs.all continuesName

def assignment? (word : Word) : Option (String × Word) :=
  match word with
  | .plain text :: rest =>
    let cs := text.toList
    let name := String.ofList (cs.takeWhile continuesName)
    match cs.dropWhile continuesName with
    | '=' :: value =>
      if isName name then
        some (name, if value.isEmpty then rest else .plain (String.ofList value) :: rest)
      else none
    | _ => none
  | _ => none

end ArrayCommand.Shell
