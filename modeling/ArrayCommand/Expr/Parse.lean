/-
Reading expressions.

Binary operators bind by precedence, powers to the right and all others to the left.  A sign or a
negation binds tighter than a power and looser than a concatenation.  Names are resolved and types
are checked while reading, so the first fault from the left is the one that is reported.
-/

import ArrayCommand.Expr
import ArrayCommand.Lexer
import ArrayCommand.Workspace

namespace ArrayCommand

/-- A tree with its type.  The rank is known where it cannot change before the statement runs. -/
structure Typed where
  expr : Expr
  type : ElementType
  rank : Option Nat

namespace Parse

/-! ### Types and ranks -/

def single (expr : Expr) (type : ElementType) : Typed := ⟨expr, type, some 0⟩

def constant (value : Scalar) : Typed := single (.const value) value.type

def mergeRank : Option Nat → Option Nat → Option Nat
  | some l, some r => some (max l r)
  | _, _ => none

/-- The tree converted to a type; only numbers are converted. -/
def convert (t : Typed) (want : ElementType) (column : Column) : Except Fault Typed :=
  if t.type = want then .ok t
  else if t.type.isNumeric && want.isNumeric then
    .ok { t with expr := .coerce want t.expr, type := want }
  else .error (.said .typeMismatch column (want.name ++ " EXPECTED, NOT " ++ t.type.name))

def accept (t : Typed) (decl : ArgDecl) (column : Column) : Except Fault Typed :=
  match decl.type with
  | .float => convert t .float column
  | .integer => convert t .integer column
  | .text => convert t .text column
  | .literal => convert t .text column
  | .logical => convert t .logical column
  | .any => .ok t
  | .numeric =>
    if t.type.isNumeric then .ok t
    else .error (.said .typeMismatch column ("NUMBER EXPECTED, NOT " ++ t.type.name))

def check {α σ : Type} (result : Except Fault α) : EStateM Fault σ α :=
  match result with
  | .ok a => pure a
  | .error fault => throw fault

/-! ### Precedence -/

def precedence? : Operator → Option Nat
  | .or => some 1
  | .and => some 2
  | .equal => some 3
  | .notEqual => some 3
  | .less => some 3
  | .lessEqual => some 3
  | .greater => some 3
  | .greaterEqual => some 3
  | .plus => some 4
  | .minus => some 4
  | .multiply => some 5
  | .divide => some 5
  | .caret => some 6
  | .concat => some 8
  | .not => none

def unaryPrecedence : Nat := 7

/-! ### Small steps -/

/-- Reading a part of the line. -/
abbrev Reader := EStateM Fault Lexer

def tooLong : Fault := .because .internalError "EXPRESSION TOO LONG"

def lastColumn : Reader Column := do return (← get).column

/-- Take the token that must follow. -/
def expect (want : Token) : Reader Unit := do
  let (token, column) ← Lexer.nextAt
  if token == want then return ()
  match want with
  | .rightParen | .rightBracket | .rightBrace =>
    throw (.said .unmatchedBracket column ("EXPECTED " ++ want.quoted))
  | _ => throw (.said .syntaxError column ("EXPECTED " ++ want.quoted ++ " NOT " ++ token.quoted))

/-- The line must be used up. -/
def expectEnd : Reader Unit := do
  let (token, column) ← Lexer.nextAt
  if token.isFinish then return ()
  throw (.said .unexpectedToken column token.quoted)

/-- Behind an element of a list: a comma continues it, a parenthesis ends it. -/
def continues : Reader Bool := do
  let (token, column) ← Lexer.nextAt
  match token with
  | .comma => return true
  | .rightParen => return false
  | _ => throw (.said .unmatchedBracket column "EXPECTED ')'")

def comma : Reader Bool := do
  if (← Lexer.peek) == .comma then
    let _ ← Lexer.next
    return true
  return false

def closing : Reader Bool := do
  if (← Lexer.peek) == .rightParen then
    let _ ← Lexer.next
    return true
  return false

/-! ### Argument counts -/

def countFault (f : Function) (column : Column) (what : String) : Fault :=
  .said .wrongArgumentCount column (Text.upper (f.name ++ what))

/-- One more argument must be allowed. -/
def room (f : Function) (count : Nat) : Reader Unit := do
  match f.maxArgs with
  | some most =>
    if most ≤ count then
      throw (countFault f (← Lexer.peekColumn) (" TAKES AT MOST " ++ toString most))
  | none => return ()

/-- There must be enough arguments. -/
def enough (f : Function) (count : Nat) (column : Column) : Except Fault Unit :=
  if count < f.minArgs then
    .error (countFault f column (" NEEDS AT LEAST " ++ toString f.minArgs))
  else .ok ()

def resultType (f : Function) (types : List ElementType) (column : Column) :
    Except Fault ElementType :=
  match f.returns with
  | .fixed type => .ok type
  | .sameAs index =>
    match types[index]? with
    | some type => .ok type
    | none => .error (countFault f column " NEEDS AN ARGUMENT")
  | .nothing => .error (.said .typeMismatch column (Text.upper (f.name ++ " RETURNS NO VALUE")))

/-! ### Parts of an expression

The reader of a nested expression is the parameter `sub`; its arguments are the number of slots
taken to the left in the same expression, and the precedence that operators must have. -/

/-- The reader of a nested expression. -/
abbrev Sub := (used least : Nat) → Reader Typed

def subscriptWith (sub : Sub) : Reader Expr := do
  let column ← Lexer.peekColumn
  let t ← sub 0 0
  return (← check (convert t .integer column)).expr

/-- A subscript that is there unless one of some tokens follows. -/
def boundWith (sub : Sub) (stops : List Token) : Reader (Option Expr) := do
  if stops.contains (← Lexer.peek) then return none
  return some (← subscriptWith sub)

def axisWith (sub : Sub) : Reader Subscript := do
  let first ← boundWith sub [.colon]
  if (← Lexer.peek) != .colon then
    match first with
    | some e => return .at e
    | none => return .all
  let _ ← Lexer.next
  let last ← boundWith sub [.colon, .comma, .rightParen]
  let step ←
    if (← Lexer.peek) == .colon then do
      let _ ← Lexer.next
      let e ← subscriptWith sub
      pure (some e)
    else pure none
  if first.isNone && last.isNone && step.isNone then return .all
  return .range first last step

/-- The subscripts up to the closing parenthesis; `room` more are allowed. -/
def subscriptsWith (sub : Sub) : (room : Nat) → Reader (List Subscript)
  | 0 => do
    let column ← Lexer.peekColumn
    let _ ← axisWith sub
    throw (.said .rankMismatch column "AT MOST 3 SUBSCRIPTS")
  | room + 1 => do
    let s ← axisWith sub
    if ← continues then
      return s :: (← subscriptsWith sub room)
    return [s]

/-- Integer expressions with commas between them, at most `fuel` of them. -/
def extentsWith (sub : Sub) : (fuel : Nat) → Reader (List Expr)
  | 0 => throw tooLong
  | fuel + 1 => do
    let e ← subscriptWith sub
    if ← comma then
      return e :: (← extentsWith sub fuel)
    return [e]

def valueArgument (sub : Sub) (decl : ArgDecl) (column : Column) :
    Reader (Argument × ElementType) := do
  let t ← sub 0 0
  let t ← check (accept t decl column)
  let arrayGiven :=
    match t.rank with
    | some rank => decide (0 < rank)
    | none => false
  if decl.rank.rank? == some 0 && arrayGiven then
    throw (.said .rankMismatch column "SCALAR EXPECTED")
  return (.value t.expr t.type, t.type)

/-- An argument that must be a whole variable. -/
def referenceArgument (w : Workspace) (decl : ArgDecl) (column : Column) :
    Reader (Argument × ElementType) := do
  let wrong : Fault := .said .modeMismatch column "VARIABLE EXPECTED"
  let .name name ← Lexer.next | throw wrong
  let follow ← Lexer.peek
  if !([.comma, .rightParen, .finish] : List Token).contains follow then throw wrong
  match w.names.lookup name with
  | .error fault => throw (fault.within column)
  | .ok (_, .var handle) =>
    let value ← check (w.memory.value handle)
    if !decl.type.accepts value.type then
      throw (.said .typeMismatch column (Text.upper (decl.type.name ++ " EXPECTED")))
    return (.reference handle value.type, value.type)
  | .ok _ => throw wrong

def argumentWith (w : Workspace) (sub : Sub) (decl : ArgDecl) :
    Reader (Argument × ElementType) := do
  let column ← Lexer.peekColumn
  match decl.mode with
  | .name =>
    match ← Lexer.next with
    | .name name => return (.name name, .text)
    | _ => throw (.said .modeMismatch column "NAME EXPECTED")
  | .reference => referenceArgument w decl column
  | .value => valueArgument sub decl column

/-- The arguments behind the first `count` of a function called once. -/
def onceArguments (w : Workspace) (sub : Sub) (f : Function) :
    (fuel count : Nat) → Reader (List (Argument × ElementType))
  | 0, _ => throw tooLong
  | fuel + 1, count => do
    room f count
    let a ← argumentWith w sub (f.decl count)
    if ← continues then
      return a :: (← onceArguments w sub f fuel (count + 1))
    return [a]

/-- The arguments behind the first `count` of a function called for every element. -/
def elementalArguments (sub : Sub) (f : Function) :
    (fuel count used : Nat) → Reader (List Typed)
  | 0, _, _ => throw tooLong
  | fuel + 1, count, used => do
    room f count
    let decl := f.decl count
    let column ← Lexer.peekColumn
    if decl.mode != .value then
      throw (.said .modeMismatch column "ELEMENTAL ARGUMENTS ARE VALUES")
    let t ← sub used 0
    let t ← check (accept t decl column)
    if ← continues then
      return t :: (← elementalArguments sub f fuel (count + 1) (used + t.expr.slots))
    return [t]

def callWith (w : Workspace) (sub : Sub) (fuel used id : Nat) (column : Column) :
    Reader Typed := do
  let some f := w.functions[id]? | throw (.because .internalError "FUNCTION")
  let parens := (← Lexer.peek) == .leftParen
  if parens then
    let _ ← Lexer.next
  else if 0 < f.minArgs then
    throw (countFault f column " NEEDS ARGUMENTS")
  let empty ← if parens then closing else pure true
  match f.kind with
  | .elemental =>
    let args ← if empty then pure [] else elementalArguments sub f fuel 0 used
    check (enough f args.length column)
    let type ← check (resultType f (args.map Typed.type) column)
    let rank := (args.map Typed.rank).foldl mergeRank (some 0)
    return ⟨.call id (args.map Typed.expr) type, type, rank⟩
  | .once =>
    let args ← if empty then pure [] else onceArguments w sub f fuel 0
    check (enough f args.length column)
    let type ← check (resultType f (args.map Prod.snd) column)
    return ⟨.once id (args.map Prod.fst) type, type, f.rank.rank?⟩

def operandWith (w : Workspace) (sub : Sub) (fuel : Nat) (var : Handle) : Reader Typed := do
  let value ← check (w.memory.value var)
  match ← Lexer.peek with
  | .leftParen =>
    let _ ← Lexer.next
    let subscripts ← subscriptsWith sub maxRank
    let rank := (subscripts.filter fun s => s.axis != .at).length
    return ⟨.slice var subscripts, value.type, some rank⟩
  | .leftBrace =>
    let column ← Lexer.peekColumn
    let _ ← Lexer.next
    let extents ←
      if (← Lexer.peek) == .rightBrace then pure [] else extentsWith sub fuel
    expect .rightBrace
    if maxRank < extents.length then
      throw (.said .rankMismatch column "AT MOST 3 DIMENSIONS")
    return ⟨.cast var extents, value.type, some extents.length⟩
  | _ => return ⟨.whole var, value.type, some value.rank⟩

def nameWith (w : Workspace) (sub : Sub) (fuel used : Nat) (name : String) (column : Column) :
    Reader Typed := do
  if Text.sameFolded name "true" then return constant (.logical true)
  if Text.sameFolded name "false" then return constant (.logical false)
  match w.names.lookup name with
  | .error fault => throw (fault.within column)
  | .ok (_, .var handle) => operandWith w sub fuel handle
  | .ok (_, .func id _) => callWith w sub fuel used id column
  | .ok (_, .package _) => throw (.said .syntaxError column ("'" ++ name ++ "' IS A MODULE"))

def primaryWith (w : Workspace) (sub : Sub) (fuel used : Nat) : Reader Typed := do
  let (token, column) ← Lexer.nextAt
  match token with
  | .integer n => return constant (.integer n)
  | .float x => return constant (.float x)
  | .text s => return constant (.text s)
  | .placeholder => return ⟨.placeholder, .integer, none⟩
  | .leftParen =>
    let t ← sub used 0
    match ← Lexer.next with
    | .rightParen => return t
    | _ => throw (.said .unmatchedBracket column "NO MATCHING ')'")
  | .name name => nameWith w sub fuel used name column
  | .finish => throw (.said .syntaxError column "EXPRESSION EXPECTED")
  | _ => throw (.said .unexpectedToken column token.quoted)

def bracketedWith (w : Workspace) (sub : Sub) (fuel used : Nat) : Reader Typed := do
  let t ← primaryWith w sub fuel used
  if (← Lexer.peek) != .leftBracket then return t
  let (_, column) ← Lexer.nextAt
  if t.type != .text then
    throw (.said .typeMismatch column "SUB-STRING OF NON STRING")
  let firstColumn ← Lexer.peekColumn
  let first ← sub (used + t.expr.slots) 0
  let first ← check (convert first .integer firstColumn)
  let last ←
    if (← Lexer.peek) == .colon then do
      let _ ← Lexer.next
      let lastColumn ← Lexer.peekColumn
      let last ← sub (used + t.expr.slots + first.expr.slots) 0
      let last ← check (convert last .integer lastColumn)
      pure (some last.expr)
    else pure none
  expect .rightBracket
  return { t with expr := .substring t.expr first.expr last }

/-! ### Signs and operators -/

/-- The negative of a tree.  A constant is negated at once, unless operands to its left have been
resolved already. -/
def negated (t : Typed) (used : Nat) (column : Column) : Except Fault Typed :=
  match t.expr with
  | .const value =>
    if used = 0 then
      match value.negate with
      | .ok value => .ok { t with expr := .const value }
      | .error fault => .error (fault.within column)
    else .ok { t with expr := .neg t.type t.expr }
  | _ => .ok { t with expr := .neg t.type t.expr }

def unaryWith (w : Workspace) (sub : Sub) (fuel used : Nat) : Reader Typed := do
  match ← Lexer.peek with
  | .operator .not =>
    let (_, column) ← Lexer.nextAt
    let t ← sub used unaryPrecedence
    if t.type != .logical then
      throw (.said .typeMismatch column ("! " ++ t.type.name))
    return { t with expr := .not t.expr }
  | .operator .minus =>
    let (_, column) ← Lexer.nextAt
    let t ← sub used unaryPrecedence
    if !t.type.isNumeric then
      throw (.said .typeMismatch column ("- " ++ t.type.name))
    check (negated t used column)
  | .operator .plus =>
    let (_, column) ← Lexer.nextAt
    let t ← sub used unaryPrecedence
    if !t.type.isNumeric then
      throw (.said .typeMismatch column ("+ " ++ t.type.name))
    return t
  | _ => bracketedWith w sub fuel used

def logicalWith (sub : Sub) (used level : Nat) (op : Operator) (build : Expr → Expr → Expr)
    (l : Typed) (column : Column) : Reader Typed := do
  if l.type != .logical then
    throw (.said .typeMismatch column (l.type.name ++ " " ++ op.text))
  let r ← sub (used + l.expr.slots) (level + 1)
  if r.type != .logical then
    throw (.said .typeMismatch column (op.text ++ " " ++ r.type.name))
  return ⟨build l.expr r.expr, .logical, mergeRank l.rank r.rank⟩

def binaryWith (sub : Sub) (used level : Nat) (op : Operator) (l : Typed) (column : Column) :
    Reader Typed := do
  match op with
  | .and => logicalWith sub used level op .and l column
  | .or => logicalWith sub used level op .or l column
  | _ =>
    let r ← sub (used + l.expr.slots) (if op = .caret then level else level + 1)
    let some binary := BinaryOp.ofOperator? op
      | throw (.said .internalError column "OPERATOR")
    match binary.signature l.type r.type with
    | .error fault => throw (fault.within column)
    | .ok ⟨operand, result⟩ =>
      let e := .binary binary operand (l.type != operand) (r.type != operand) l.expr r.expr
      return ⟨e, result, mergeRank l.rank r.rank⟩

/-- The operators behind a left side that bind at least as tightly as `least`. -/
def operatorsWith (sub : Sub) (used least : Nat) : (fuel : Nat) → Typed → Reader Typed
  | 0, _ => throw tooLong
  | fuel + 1, l => do
    match ← Lexer.peek with
    | .operator op =>
      match precedence? op with
      | some level =>
        if level < least then return l
        let (_, column) ← Lexer.nextAt
        let l ← binaryWith sub used level op l column
        operatorsWith sub used least fuel l
      | none => return l
    | _ => return l

/-! ### Whole expressions -/

/-- An expression whose operators bind at least as tightly as `least`; `used` slots of the same
expression are taken to its left.  The fuel bounds the nesting and the length of every list. -/
def expr (w : Workspace) : (fuel : Nat) → Sub
  | 0, _, _ => throw tooLong
  | fuel + 1, used, least => do
    let l ← unaryWith w (expr w fuel) (fuel + 1) used
    operatorsWith (expr w fuel) used least (fuel + 1) l

def budget (l : Lexer) : Nat := l.text.length + 2

def nested (w : Workspace) : Sub := fun used least => do expr w (budget (← get)) used least

def expression (w : Workspace) : Reader Typed := nested w 0 0

def subscript (w : Workspace) : Reader Expr := subscriptWith (nested w)

def subscripts (w : Workspace) : Reader (List Subscript) := subscriptsWith (nested w) maxRank

def argument (w : Workspace) (decl : ArgDecl) : Reader Argument := do
  return (← argumentWith w (nested w) decl).1

end Parse

end ArrayCommand
