/-
Reading scripts.  A script is one line; a line end in it is like a semicolon.
-/

import ArrayCommand.Shell.Script

namespace ArrayCommand.Shell

namespace Parse

/-- What is left to read: the characters, and a token that was read but not used. -/
structure Source where
  rest : List Char
  pushed : Option Token := none

abbrev Reader := EStateM String Source

def complain {α : Type} (text : String) : Reader α := throw text

def unexpected {α : Type} (t : Token) (expected : Option Token) : Reader α :=
  complain (t.text ++ " unexpected" ++
    match expected with
    | some e => " (expecting " ++ e.text ++ ")"
    | none => "")

/-! ### Characters -/

def peek : Reader (Option Char) := do return (← get).rest.head?

def skip : Reader Unit := modify fun s => { s with rest := s.rest.tail }

def accept (c : Char) : Reader Bool := do
  if (← peek) = some c then
    skip
    return true
  return false

def takeWhile (test : Char → Bool) : (fuel : Nat) → Reader (List Char)
  | 0 => return []
  | fuel + 1 => do
    match ← peek with
    | some c =>
      if test c then
        skip
        return c :: (← takeWhile test fuel)
      return []
    | none => return []

/-- How many steps may be left: one for each character, one for a token that was read but not used,
and one for the end. -/
def left : Reader Nat := do return (← get).rest.length + 3

/-! ### Words -/

/-- Where a part of a word stands: outside of quotes, as the word of a parameter, in double quotes, or
in a sum. -/
inductive Place where
  | base
  | brace
  | double
  | doubleBrace
  | inner
  | sum (depth : Nat)
deriving DecidableEq, Repr

namespace Place

def isQuoted : Place → Bool
  | base | brace => false
  | _ => true

def wordOf (p : Place) : Place := if p.isQuoted then doubleBrace else brace

end Place

def endsWord (c : Char) : Bool :=
  c = ' ' || c = '\t' || c = '\n' || c = ';' || c = '&' || c = '|' || c = '<' || c = '>' ||
    c = '(' || c = ')'

def isSpecial (c : Char) : Bool :=
  c = '@' || c = '*' || c = '#' || c = '?' || c = '-' || c = '$' || c = '!' || c.isDigit

def add (quoted : Bool) (c : Char) (parts : List Part) : List Part :=
  match quoted, parts with
  | false, .plain text :: rest => .plain (text.push c) :: rest
  | true, .quoted text :: rest => .quoted (text.push c) :: rest
  | false, parts => .plain (String.ofList [c]) :: parts
  | true, parts => .quoted (String.ofList [c]) :: parts

def singleQuoted : (fuel : Nat) → Reader (List Char)
  | 0 => complain "Unterminated quoted string"
  | fuel + 1 => do
    match (← get).rest with
    | [] => complain "Unterminated quoted string"
    | c :: _ =>
      skip
      if c = '\'' then return []
      return c :: (← singleQuoted fuel)

def escapes (place : Place) (c : Char) : Bool :=
  !place.isQuoted || c = '\\' || c = '\x60' || c = '$' || c = '"' ||
    (c = '\x7d' && (place == .doubleBrace || place == .inner))

def backQuoted (double : Bool) : (fuel : Nat) → Reader (List Char)
  | 0 => complain "EOF in backquote substitution"
  | fuel + 1 => do
    match ← peek with
    | none => complain "EOF in backquote substitution"
    | some '\x60' =>
      skip
      return []
    | some '\\' =>
      skip
      match (← get).rest with
      | [] => complain "EOF in backquote substitution"
      | c :: _ =>
        skip
        let rest ← backQuoted double fuel
        if c = '\\' || c = '\x60' || c = '$' || (double && c = '"') then return c :: rest
        return '\\' :: c :: rest
    | some c =>
      skip
      return c :: (← backQuoted double fuel)

def within {α : Type} (rest : List Char) (reader : Reader α) : Reader α := do
  let s ← get
  set { s with rest, pushed := none }
  let a ← reader
  set s
  return a

def atEnd (place : Place) (parts : List Part) : Reader (List Part) :=
  match place with
  | .base => return parts.reverse
  | .brace => complain "Missing '\x7d'"
  | .sum _ => complain "Missing '))'"
  | _ => complain "Unterminated quoted string"

/-- The name of a parameter in braces and the form that follows from it: a length, or a form that is
yet to be read. -/
def braceName : Reader (String × Option ParamForm) := do
  let name : Reader (Option String) := do
    match ← peek with
    | some c =>
      if startsName c then return some (String.ofList (← takeWhile continuesName (← left)))
      else if c.isDigit then return some (String.ofList (← takeWhile Char.isDigit (← left)))
      else return none
    | none => return none
  match ← name with
  | some name => return (name, none)
  | none =>
    match ← peek with
    | some '#' =>
      skip
      match ← name with
      | some name => return (name, some (if (← peek) = some '\x7d' then .length else .illegal))
      | none =>
        match (← get).rest with
        | c :: '\x7d' :: _ =>
          if c = '\x7d' then return ("#", none)
          if isSpecial c then
            skip
            return (String.ofList [c], some .length)
          return ("#", some .illegal)
        | _ => return ("#", none)
    | some c =>
      if c != '\x7d' && isSpecial c then
        skip
        return (String.ofList [c], none)
      return ("", some .illegal)
    | none => return ("", some .illegal)

/-- The form of a parameter in braces behind its name, and whether empty values are missing. -/
def braceForm : Reader (ParamForm × Bool) := do
  let strict ← accept ':'
  match ← peek with
  | some '\x7d' => skip; return (.value, strict)
  | some '-' => skip; return (.fallback, strict)
  | some '+' => skip; return (.alternative, strict)
  | some '?' => skip; return (.require, strict)
  | some '=' => skip; return (.assign, strict)
  | some '%' =>
    if strict then return (.illegal, strict)
    skip
    return (.trimEnd (← accept '%'), false)
  | some '#' =>
    if strict then return (.illegal, strict)
    skip
    return (.trimStart (← accept '#'), false)
  | _ => return (.illegal, strict)

/-- A reader of commands up to a closing parenthesis, or up to the end of the text. -/
structure Nested where
  upToParen : Reader Node
  upToEnd : Reader Node

/-- The parts of a word from a place on; those read before come with the last one first. -/
def parts (sub : Nested) : (fuel : Nat) → Place → List Part → Reader (List Part)
  | 0, place, acc => atEnd place acc
  | fuel + 1, place, acc => do
    let goOn := fun acc => parts sub fuel place acc
    let substitution : Reader (Option Part) := do
      match ← peek with
      | some '(' =>
        skip
        if ← accept '(' then return some (.arithmetic (← parts sub fuel (.sum 0) []))
        return some (.command (← sub.upToParen))
      | some '\x7b' =>
        skip
        let (name, form?) ← braceName
        let (form, strict) ←
          match form? with
          | some form => pure (form, false)
          | none => braceForm
        if form = .value then return some (.param name .value strict [])
        let inside :=
          match form with
          | .trimStart _ | .trimEnd _ => .brace
          | _ => place.wordOf
        return some (.param name form strict (← parts sub fuel inside []))
      | some c =>
        if startsName c then
          return some (.param (String.ofList (← takeWhile continuesName (← left))) .value false [])
        if isSpecial c then
          skip
          return some (.param (String.ofList [c]) .value false [])
        return none
      | none => return none
    match ← peek with
    | none => atEnd place acc
    | some '\\' =>
      skip
      match (← get).rest with
      | [] => goOn (add true '\\' acc)
      | c :: _ =>
        skip
        if escapes place c then goOn (.quoted (String.ofList [c]) :: acc)
        else goOn (add true c (add true '\\' acc))
    | some '$' =>
      skip
      match ← substitution with
      | some part => goOn (part :: acc)
      | none => goOn (add place.isQuoted '$' acc)
    | some '\x60' =>
      skip
      let text ← backQuoted place.isQuoted (← left)
      goOn (.command (← within text sub.upToEnd) :: acc)
    | some c =>
      match place, c with
      | .base, '\'' | .brace, '\'' =>
        skip
        goOn (.quoted (String.ofList (← singleQuoted (← left))) :: acc)
      | .base, '"' | .brace, '"' =>
        skip
        let inner ← parts sub fuel .double []
        goOn (.double inner :: acc)
      | .double, '"' | .inner, '"' | .brace, '\x7d' | .doubleBrace, '\x7d' =>
        skip
        return acc.reverse
      | .doubleBrace, '"' =>
        skip
        let inner ← parts sub fuel .inner []
        goOn (.double inner :: acc)
      | .sum depth, '(' =>
        skip
        parts sub fuel (.sum (depth + 1)) (add true '(' acc)
      | .sum 0, ')' =>
        skip
        if ← accept ')' then return acc.reverse
        goOn (add true ')' acc)
      | .sum (depth + 1), ')' =>
        skip
        parts sub fuel (.sum depth) (add true ')' acc)
      | _, _ =>
        if place = .base && endsWord c then return acc.reverse
        skip
        goOn (add place.isQuoted c acc)

def wordParts (sub : Nested) : Reader Word := do parts sub (2 * (← left)) .base []

/-! ### Tokens -/

def skipGap : (fuel : Nat) → Reader Unit
  | 0 => return ()
  | fuel + 1 => do
    match ← peek with
    | some '#' =>
      modify fun s => { s with rest := s.rest.dropWhile (· != '\n') }
    | some c =>
      if c = ' ' || c = '\t' then
        skip
        skipGap fuel
    | none => return ()

def arrow (fd? : Option Nat) (c : Char) : Reader Token := do
  skip
  if c = '>' then
    let fd := fd?.getD 1
    if ← accept '>' then return .arrow fd (.file .append)
    if ← accept '|' then return .arrow fd (.file .clobber)
    if ← accept '&' then return .arrow fd .stream
    return .arrow fd (.file .write)
  else
    let fd := fd?.getD 0
    if ← accept '<' then
      let _ ← accept '-'
      return .arrow fd .text
    if ← accept '&' then return .arrow fd .stream
    if ← accept '>' then return .arrow fd (.file .readWrite)
    return .arrow fd (.file .read)

/-- The stream that a word before a redirection stands for: none, or a single digit. -/
def streamOf? : Word → Option (Option Nat)
  | [] => some none
  | [.plain text] =>
    match text.toList with
    | [c] => if c.isDigit then some (some (c.toNat - '0'.toNat)) else none
    | _ => none
  | _ => none

def freshToken (sub : Nested) : Reader Token := do
  skipGap (← left)
  match ← peek with
  | none => return .endOfText
  | some '\n' => skip; return .semicolon
  | some '(' => skip; return .openParen
  | some ')' => skip; return .closeParen
  | some '&' => skip; return if ← accept '&' then .both else .ampersand
  | some '|' => skip; return if ← accept '|' then .either else .pipe
  | some ';' => skip; return if ← accept ';' then .endClause else .semicolon
  | some _ =>
    let word ← wordParts sub
    match ← peek, streamOf? word with
    | some '<', some fd => arrow fd '<'
    | some '>', some fd => arrow fd '>'
    | _, _ => return .word word

def push (t : Token) : Reader Unit := modify fun s => { s with pushed := some t }

def anyToken (sub : Nested) : Reader Token := do
  match (← get).pushed with
  | some t =>
    modify fun s => { s with pushed := none }
    return t
  | none => freshToken sub

def Token.withKeyword (t : Token) : Token :=
  match t with
  | .word word =>
    match (bareText? word).bind Keyword.ofText? with
    | some k => .keyword k
    | none => t
  | _ => t

def keyToken (sub : Nested) : Reader Token := do return Token.withKeyword (← anyToken sub)

def expectKeyword (sub : Nested) (k : Keyword) : Reader Unit := do
  match ← anyToken sub with
  | .keyword k' => if k' != k then unexpected (.keyword k') (some (.keyword k))
  | t => unexpected t (some (.keyword k))

/-! ### Redirections -/

def redirect (sub : Nested) (fd : Nat) (a : Arrow) : Reader Redirect := do
  match ← anyToken sub with
  | .word word =>
    match a with
    | .file opening => return .file fd opening word
    | .stream => return .stream fd word
    -- a command is one line, so that the text behind it is empty
    | .text => return .file fd .read [.quoted "/dev/null"]
  | t => unexpected t none

def redirects (sub : Nested) : (fuel : Nat) → Reader (List Redirect)
  | 0 => return []
  | fuel + 1 => do
    match ← keyToken sub with
    | .arrow fd a =>
      let r ← redirect sub fd a
      return r :: (← redirects sub fuel)
    | t =>
      push t
      return []

/-! ### Commands -/

/-- How a list of commands is closed: by the end of a line; by a keyword or a parenthesis; or like
that, with nothing in it allowed. -/
inductive Closing where
  | line
  | block
  | clause
deriving DecidableEq, Repr

def reserved : List String :=
  [".", ":", "break", "continue", "eval", "exec", "exit", "export", "readonly", "return", "set",
    "shift", "times", "trap", "unset"]

structure Draft where
  assignments : List Word := []
  words : List Word := []
  redirects : List Redirect := []

/-- The readers that commands are read with: of words with commands in them, of lists and of
commands. -/
structure Readers where
  sub : Nested
  list : Closing → Reader Node
  command : Reader Node

def simple (r : Readers) : (fuel : Nat) → Draft → Reader Node
  | 0, _ => complain "too long"
  | fuel + 1, d => do
    let finish := Node.simple d.assignments.reverse d.words.reverse d.redirects.reverse
    match ← anyToken r.sub with
    | .word word =>
      if d.words.isEmpty && (assignment? word).isSome then
        simple r fuel { d with assignments := word :: d.assignments }
      else simple r fuel { d with words := word :: d.words }
    | .arrow fd a =>
      let redirect ← redirect r.sub fd a
      simple r fuel { d with redirects := redirect :: d.redirects }
    | .openParen =>
      match d.assignments, d.words, d.redirects with
      | [], [word], [] =>
        match ← anyToken r.sub with
        | .closeParen =>
          match bareText? word with
          | some name =>
            if !isName name || reserved.contains name then complain "Bad function name"
            push (← keyToken r.sub)
            return .define name (← r.command)
          | none => complain "Bad function name"
        | t => unexpected t (some .closeParen)
      | _, _, _ =>
        push .openParen
        return finish
    | t =>
      push t
      return finish

def loopWords (sub : Nested) : (fuel : Nat) → Reader (List Word × Token)
  | 0 => return ([], .endOfText)
  | fuel + 1 => do
    match ← anyToken sub with
    | .word word =>
      let (words, t) ← loopWords sub fuel
      return (word :: words, t)
    | t => return ([], t)

def eachLoop (r : Readers) : Reader Node := do
  let name ←
    match ← anyToken r.sub with
    | .word word =>
      match bareText? word with
      | some name => if isName name then pure name else complain "Bad for loop variable"
      | none => complain "Bad for loop variable"
    | _ => complain "Bad for loop variable"
  let words ←
    match ← keyToken r.sub with
    | .keyword .inWord =>
      match ← loopWords r.sub (← left) with
      | (words, .semicolon) => pure words
      | (_, t) => unexpected t none
    | .semicolon => pure [[.double [.param "@" .value false []]]]
    | t =>
      push t
      pure [[.double [.param "@" .value false []]]]
  match ← keyToken r.sub with
  | .keyword .doWord =>
    let body ← r.list .block
    expectKeyword r.sub .doneWord
    return .each name words body
  | t => unexpected t (some (.keyword .doWord))

def patterns (sub : Nested) : (fuel : Nat) → Token → Reader (List Word × Token)
  | 0, t => return ([], t)
  | fuel + 1, t => do
    let word :=
      match t with
      | .word word => word
      | .keyword k => [.plain k.text]
      | _ => []
    match ← anyToken sub with
    | .pipe =>
      let (words, t) ← patterns sub fuel (← anyToken sub)
      return (word :: words, t)
    | t => return ([word], t)

def clauses (r : Readers) : (fuel : Nat) → Reader (List Clause)
  | 0 => return []
  | fuel + 1 => do
    match ← keyToken r.sub with
    | .keyword .esacWord => return []
    | t =>
      let t ←
        match t with
        | .openParen => anyToken r.sub
        | t => pure t
      let (words, t) ← patterns r.sub (← left) t
      match t with
      | .closeParen =>
        let body ← r.list .clause
        match ← keyToken r.sub with
        | .keyword .esacWord => return [.clause words body]
        | .endClause => return .clause words body :: (← clauses r fuel)
        | t => unexpected t (some .endClause)
      | t => unexpected t (some .closeParen)

def caseCommand (r : Readers) : Reader Node := do
  match ← anyToken r.sub with
  | .word word =>
    match ← keyToken r.sub with
    | .keyword .inWord => return .cases word (← clauses r (← left))
    | t => unexpected t (some (.keyword .inWord))
  | t => unexpected t (some (.word []))

def alternatives (r : Readers) : (fuel : Nat) → Reader Node
  | 0 => return .empty
  | fuel + 1 => do
    match ← anyToken r.sub with
    | .keyword .elifWord =>
      let condition ← r.list .block
      expectKeyword r.sub .thenWord
      let yes ← r.list .block
      return .choice condition yes (← alternatives r fuel)
    | .keyword .elseWord => r.list .block
    | t =>
      push t
      return .empty

def redirected (r : Readers) (node : Node) : Reader Node := do
  match ← redirects r.sub (← left), node with
  | [], node => return node
  | rs, .subshell body _ => return .subshell body rs
  | rs, node => return .group node rs

def commandWith (r : Readers) : Reader Node := do
  match ← anyToken r.sub with
  | .keyword .ifWord =>
    let condition ← r.list .block
    expectKeyword r.sub .thenWord
    let yes ← r.list .block
    let no ← alternatives r (← left)
    expectKeyword r.sub .fiWord
    redirected r (.choice condition yes no)
  | .keyword .whileWord =>
    let condition ← r.list .block
    expectKeyword r.sub .doWord
    let body ← r.list .block
    expectKeyword r.sub .doneWord
    redirected r (.loop false condition body)
  | .keyword .untilWord =>
    let condition ← r.list .block
    expectKeyword r.sub .doWord
    let body ← r.list .block
    expectKeyword r.sub .doneWord
    redirected r (.loop true condition body)
  | .keyword .forWord => redirected r (← eachLoop r)
  | .keyword .caseWord => redirected r (← caseCommand r)
  | .keyword .openBrace =>
    let body ← r.list .block
    expectKeyword r.sub .closeBrace
    redirected r body
  | .openParen =>
    let body ← r.list .block
    match ← anyToken r.sub with
    | .closeParen => redirected r (.subshell body [])
    | t => unexpected t (some .closeParen)
  | .word word =>
    push (.word word)
    simple r (← left) {}
  | .arrow fd a =>
    push (.arrow fd a)
    simple r (← left) {}
  | t => unexpected t none

def piped (r : Readers) : (fuel : Nat) → Reader (List Node)
  | 0 => return []
  | fuel + 1 => do
    match ← anyToken r.sub with
    | .pipe =>
      push (← keyToken r.sub)
      let node ← r.command
      return node :: (← piped r fuel)
    | t =>
      push t
      return []

def pipeline (r : Readers) : Reader Node := do
  let negated ←
    match ← anyToken r.sub with
    | .keyword .bang => pure true
    | t =>
      push t
      pure false
  if negated then push (← keyToken r.sub)
  let first ← r.command
  let node :=
    match ← piped r (← left) with
    | [] => first
    | rest => .pipeline (first :: rest)
  return if negated then .negation node else node

def conditional (r : Readers) : (fuel : Nat) → Node → Reader Node
  | 0, node => return node
  | fuel + 1, node => do
    match ← anyToken r.sub with
    | .both =>
      push (← keyToken r.sub)
      let next ← pipeline r
      conditional r fuel (.conjunction node next)
    | .either =>
      push (← keyToken r.sub)
      let next ← pipeline r
      conditional r fuel (.disjunction node next)
    | t =>
      push t
      return node

def after : Option Node → Node → Node
  | none, node => node
  | some first, node => .sequence first node

def listFrom (r : Readers) (closing : Closing) : (fuel : Nat) → Option Node → Reader Node
  | 0, before => return before.getD .empty
  | fuel + 1, before => do
    match ← keyToken r.sub with
    | .endOfText =>
      push .endOfText
      return before.getD .empty
    | t =>
      push t
      if (closing = .clause || (closing = .block && before.isSome)) && t.endsList then
        return before.getD .empty
      let node ← conditional r (← left) (← pipeline r)
      match ← anyToken r.sub with
      | .ampersand => listFrom r closing fuel (some (after before (.background node)))
      | .semicolon => listFrom r closing fuel (some (after before node))
      | .endOfText =>
        push .endOfText
        listFrom r closing fuel (some (after before node))
      | t =>
        if closing = .line then unexpected t none
        push t
        return after before node

def readers : (fuel : Nat) → Readers
  | 0 =>
    { sub := ⟨complain "too deep", complain "too deep"⟩
      list := fun _ => complain "too deep"
      command := complain "too deep" }
  | fuel + 1 =>
    let deeper := readers fuel
    let list : Closing → Reader Node := fun closing => do listFrom deeper closing (← left) none
    let upToParen : Reader Node := do
      let pushed := (← get).pushed
      modify fun s => { s with pushed := none }
      let node ← list .clause
      match ← anyToken deeper.sub with
      | .closeParen =>
        modify fun s => { s with pushed }
        return node
      | t => unexpected t (some .closeParen)
    { sub := ⟨upToParen, list .clause⟩, list, command := commandWith deeper }

end Parse

def Parse.script (text : String) : Except String Node :=
  match (Parse.readers (2 * text.length + 4)).list .line { rest := text.toList } with
  | .ok node _ => .ok node
  | .error complaint _ => .error complaint

end ArrayCommand.Shell
