/-
The block language: which lines are the written form of which statement.

Reading a line needs the rest of the line and the names known so far, and may create names.  The
beginning of a line tells whether it is a simple statement, opens a block or closes one.  A block
consists of statements on lines of their own, and its last line is the one that closes it.

* `Reading`, `ReadM` — what reading depends on, and a step of it;
* `Outline.assignment`, `Outline.command`, `Outline.declaration` — simple statements;
* `Outline.condition`, `Outline.counting` — the heads of conditionals and loops;
* `Outline.head` — the beginning of a line;
* `Written`, `Block`, `Chain` — the lines of a statement, of a block, and of the arms of a
  conditional;
* `Draws` — lines taken from a source one after another.
-/

import ArrayCommand.Compiler
import ArrayCommand.Proofs.Statement

namespace ArrayCommand

/-- The names known so far, and the rest of the line. -/
structure Reading where
  workspace : Workspace
  lexer : Lexer

abbrev ReadM := EStateM Fault Reading

def Reading.onLine (r : Reading) (line : String) (maxName : Nat) : Reading :=
  { r with lexer := .ofText line maxName }

namespace Outline

open Direct (check)

def reading {α : Type} (read : Workspace → Parse.Reader α) : ReadM α := fun r =>
  match read r.workspace r.lexer with
  | .ok a lexer => .ok a { r with lexer }
  | .error fault lexer => .error fault { r with lexer }

def taking {α : Type} (read : Parse.Reader α) : ReadM α := reading fun _ => read

def endOfLine : ReadM Unit := taking Parse.expectEnd

/-- What a name stands for, by its whole spelling. -/
def lookup (name : String) : ReadM (Option Entry) := do return (← get).workspace.names.get? name

def valueOf (var : Handle) : ReadM Cell := do check ((← get).workspace.memory.value var)

def create (name : String) (value : Cell) : ReadM Handle := fun r =>
  match Workspace.create name value r.workspace with
  | .ok handle workspace => .ok handle { r with workspace }
  | .error fault workspace => .error fault { r with workspace }

/-! ### Simple statements -/

/-- The variable that is assigned to must be writable and of a fitting type. -/
def assignable (name : String) (column : Column) (type : ElementType) (value : Cell) :
    Except Fault Unit := do
  if !value.owner.isWritable then throw (.said .readOnly column (NameTable.quote name))
  if value.type != type && !(value.type.isNumeric && type.isNumeric) then
    throw (.said .typeMismatch column (value.type.name ++ " = " ++ type.name))

def assignment (name : String) (column : Column) : ReadM Simple := do
  let entry ← lookup name
  let var? ← check (match entry with
    | some (.var handle) => .ok (some handle)
    | some _ => .error (.said .readOnly column (NameTable.quote name ++ " IS NOT A VARIABLE"))
    | none => .ok none)
  let subscripts ← reading fun w => Compiler.target w name column var?.isSome
  taking (Parse.expect .assign)
  let (rhs, type) ← reading fun w => do Compiler.values w (Parse.budget (← get)) none
  match var? with
  | some var =>
    check (assignable name column type (← valueOf var))
    return .assign var subscripts rhs
  | none =>
    let var ← create name (Cell.fresh type .scalar .declared)
    return .assign var subscripts rhs

def command (name : String) (column : Column) : ReadM Simple := do
  let (func, args) ← reading fun w => do
    let (id, f) ← Parse.check (Compiler.commandFunction w name column)
    return (id, ← Compiler.commandArguments w f column)
  return .command func args

/-- The variable of a declaration: a new one, or one of the same type. -/
def declared (name : String) (type : ElementType) (rank : Nat) (column : Column) :
    ReadM Handle := do
  match ← lookup name with
  | some (.var handle) =>
    let have' := (← valueOf handle).type
    check (if have' != type then
      .error (.said .redeclared column (NameTable.quote name ++ " IS " ++ have'.name)) else .ok ())
    return handle
  | some _ => throw (.said .duplicate column (NameTable.quote name ++ " IS NOT A VARIABLE"))
  | none =>
    let shape ← check (Shape.ofDims (List.replicate rank 0))
    create name (Cell.fresh type shape .declared)

def declarators (type : ElementType) : (fuel : Nat) → ReadM (List Simple)
  | 0 => throw Parse.tooLong
  | fuel + 1 => do
    let (name, column, dims) ← reading Compiler.declarator
    check (if maxRank < dims.length then
      .error (.said .rankMismatch column "AT MOST 3 DIMENSIONS") else .ok ())
    let var ← declared name type dims.length column
    if ← taking Parse.comma then return .declare var dims :: (← declarators type fuel)
    else return [.declare var dims]

def declaration (type : ElementType) : ReadM (List Simple) := do
  let items ← declarators type (Parse.budget (← get).lexer)
  endOfLine
  return items

/-! ### Heads of blocks -/

/-- A condition, with an optional `then` behind it. -/
def condition : ReadM Expr := do
  let column ← taking Lexer.peekColumn
  let t ← reading Parse.expression
  check (if t.type != .logical then
    .error (.said .typeMismatch column "CONDITION MUST BE LOGICAL") else .ok ())
  let _ ← taking (Compiler.optional .then)
  return t.expr

/-- The variable of a counted loop must be a number that is writable. -/
def countable (name : String) (column : Column) (value : Cell) : Except Fault Unit := do
  if !value.type.isNumeric then throw (.said .typeMismatch column "LOOP VARIABLE MUST BE NUMERIC")
  if !value.owner.isWritable then throw (.said .readOnly column (NameTable.quote name))

/-- The variable of a counted loop, created if there is none of the name. -/
def loopVariable (name : String) (column : Column) (bounds : List Typed) : ReadM Handle := do
  match ← lookup name with
  | some (.var handle) =>
    check (countable name column (← valueOf handle))
    return handle
  | some _ => throw (.said .readOnly column (NameTable.quote name ++ " IS NOT A VARIABLE"))
  | none =>
    let type := if bounds.all fun t => t.type == .integer then .integer else .float
    create name (Cell.fresh type .scalar .declared)

/-- The head of a counted loop: its variable and its bounds. -/
def counting : ReadM (Handle × List Typed) := do
  let (name, column, bounds) ← reading Compiler.loopHead
  let var ← loopVariable name column bounds
  return (var, bounds)

/-! ### Lines -/

/-- The beginning of a line: all of a simple statement, or the keyword that opens or closes a
block. -/
inductive Head where
  | nothing
  | simple (items : List Simple)
  | leap (leave : Bool)
  | stop
  | opens (word : Keyword)
  | closes (word : Keyword) (column : Column)

/-- The beginning of a line behind its first word, which is a keyword. -/
def keyword (word : Keyword) (column : Column) : ReadM Head := do
  match word with
  | .if | .while | .repeat | .do => return .opens word
  | .break => endOfLine; return .leap true
  | .continue => endOfLine; return .leap false
  | .stop => endOfLine; return .stop
  | .integer => return .simple (← declaration .integer)
  | .float => return .simple (← declaration .float)
  | .string => return .simple (← declaration .text)
  | .logical => return .simple (← declaration .logical)
  | .then => throw (.said .unexpectedToken column "'THEN'")
  | .else =>
    if ← taking (Compiler.optional .if) then return .closes .elseIf column
    else return .closes .else column
  | .end => do
    let (word, column) ← taking (Compiler.closer column)
    return .closes word column
  | .elseIf | .endIf | .endWhile | .endDo | .until => return .closes word column

def head : ReadM Head := do
  let (token, column) ← taking Lexer.nextAt
  match token with
  | .finish => return .nothing
  | .name text =>
    match Keyword.ofName? text with
    | some word => keyword word column
    | none =>
      let lexer := (← get).lexer
      let item ←
        if Compiler.assignmentAhead (Parse.budget lexer) 0 lexer then assignment text column
        else command text column
      endOfLine
      return .simple [item]
  | _ => throw (.said .unexpectedToken column token.quoted)

/-- What stands behind a closing keyword: the rest of an arm or of a loop, or the end of the line. -/
def closing (word : Keyword) : ReadM Unit :=
  if word != .elseIf && word != .until then endOfLine else return ()

end Outline

/-! ### Statements and blocks -/

mutual

/-- A statement is written on the rest of a line and on further lines. -/
inductive Written (maxName : Nat) : Reading → List String → Statement → Reading → Prop
  | nothing {r r' : Reading} : Outline.head r = .ok .nothing r' →
      Written maxName r [] .nothing r'
  | simple {r r' : Reading} {items : List Simple} : Outline.head r = .ok (.simple items) r' →
      Written maxName r [] (.line items) r'
  | leap {r r' : Reading} {leave : Bool} : Outline.head r = .ok (.leap leave) r' →
      Written maxName r [] (.leap leave) r'
  | stop {r r' : Reading} : Outline.head r = .ok .stop r' → Written maxName r [] .stop r'
  | conditional {r r₁ r' : Reading} {lines : List String} {s : Statement} :
      Outline.head r = .ok (.opens .if) r₁ → Chain maxName r₁ lines s r' →
      Written maxName r lines s r'
  | while {r r₁ r₂ r₃ r' : Reading} {lines : List String} {test : Expr} {body : Statement} :
      Outline.head r = .ok (.opens .while) r₁ → Outline.condition r₁ = .ok test r₂ →
      Outline.endOfLine r₂ = .ok () r₃ → Block maxName [.endWhile] r₃ lines body .endWhile r' →
      Written maxName r lines (.while test body) r'
  | repeat {r r₁ r₂ r₃ r₄ r' : Reading} {lines : List String} {test : Expr} {body : Statement} :
      Outline.head r = .ok (.opens .repeat) r₁ → Outline.endOfLine r₁ = .ok () r₂ →
      Block maxName [.until] r₂ lines body .until r₃ → Outline.condition r₃ = .ok test r₄ →
      Outline.endOfLine r₄ = .ok () r' → Written maxName r lines (.repeat body test) r'
  | count {r r₁ r₂ r' : Reading} {lines : List String} {var : Handle} {first last : Typed}
      {step : Option Typed} {body : Statement} :
      Outline.head r = .ok (.opens .do) r₁ →
      Outline.counting r₁ = .ok (var, first :: last :: step.toList) r₂ →
      Block maxName [.endDo] r₂ lines body .endDo r' →
      Written maxName r lines (.count var first last step body) r'

/-- The lines of a block up to and including the one that closes it. -/
inductive Block (maxName : Nat) :
    List Keyword → Reading → List String → Statement → Keyword → Reading → Prop
  | close {closers : List Keyword} {r r₁ r' : Reading} {line : String} {word : Keyword}
      {column : Column} :
      Outline.head (r.onLine line maxName) = .ok (.closes word column) r₁ → word ∈ closers →
      Outline.closing word r₁ = .ok () r' → Block maxName closers r [line] .nothing word r'
  | next {closers : List Keyword} {r r₁ r' : Reading} {line : String} {lines rest : List String}
      {s body : Statement} {word : Keyword} :
      Written maxName (r.onLine line maxName) lines s r₁ →
      Block maxName closers r₁ rest body word r' →
      Block maxName closers r (line :: lines ++ rest) (.both s body) word r'

/-- The arms of a conditional from a condition on. -/
inductive Chain (maxName : Nat) : Reading → List String → Statement → Reading → Prop
  | last {r r₁ r₂ r' : Reading} {lines : List String} {test : Expr} {yes : Statement} :
      Outline.condition r = .ok test r₁ → Outline.endOfLine r₁ = .ok () r₂ →
      Block maxName [.elseIf, .else, .endIf] r₂ lines yes .endIf r' →
      Chain maxName r lines (.ifThen test yes) r'
  | otherwise {r r₁ r₂ r₃ r' : Reading} {lines lines' : List String} {test : Expr}
      {yes no : Statement} :
      Outline.condition r = .ok test r₁ → Outline.endOfLine r₁ = .ok () r₂ →
      Block maxName [.elseIf, .else, .endIf] r₂ lines yes .else r₃ →
      Block maxName [.endIf] r₃ lines' no .endIf r' →
      Chain maxName r (lines ++ lines') (.ifElse test yes no) r'
  | again {r r₁ r₂ r₃ r' : Reading} {lines lines' : List String} {test : Expr}
      {yes no : Statement} :
      Outline.condition r = .ok test r₁ → Outline.endOfLine r₁ = .ok () r₂ →
      Block maxName [.elseIf, .else, .endIf] r₂ lines yes .elseIf r₃ →
      Chain maxName r₃ lines' no r' →
      Chain maxName r (lines ++ lines') (.ifElse test yes no) r'

end

/-! ### Sources -/

/-- Lines taken from a source one after another. -/
inductive Draws {σ : Type} (source : LineSource σ) : σ → List String → σ → Prop
  | nil (s : σ) : Draws source s [] s
  | cons {s s₁ s' : σ} {known : String → Bool} {line : String} {lines : List String} :
      source known s = .ok (some line) s₁ → Draws source s₁ lines s' →
      Draws source s (line :: lines) s'

theorem Draws.append {σ : Type} {source : LineSource σ} {s s₁ s' : σ} {lines lines' : List String}
    (h : Draws source s lines s₁) (h' : Draws source s₁ lines' s') :
    Draws source s (lines ++ lines') s' := by
  induction h with
  | nil _ => exact h'
  | cons hline _ ih => exact .cons hline (ih h')

end ArrayCommand
