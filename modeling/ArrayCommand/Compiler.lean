/-
The statement compiler: from the lines of one statement to a program.

A block statement takes its further lines from a source until the line that closes it, so that a
whole loop becomes one program.  The nodes are emitted as the lines are read: what was emitted before
a fault stays in the program, but the names a failed statement created are withdrawn.
-/

import ArrayCommand.Expr.Parse
import ArrayCommand.Program

namespace ArrayCommand

/-! ### State -/

/-- Where the lines of a block come from; it is told which words are names. -/
abbrev LineSource (σ : Type) := (known : String → Bool) → EStateM Failure σ (Option String)

/-- The state of compilation: the gates of the loops around the present line come with the innermost
one first, the names created with the last one first. -/
structure Compiler (σ : Type) where
  workspace : Workspace
  program : Program
  lexer : Lexer
  source : σ
  loops : List Nat := []
  created : List (String × Handle) := []

abbrev CompileM (σ : Type) := EStateM Failure (Compiler σ)

namespace Compiler

variable {σ : Type}

def fail {α : Type} (fault : Fault) : CompileM σ α := throw (.fault fault)

def reading {α : Type} (read : Workspace → Parse.Reader α) : CompileM σ α := fun c =>
  match read c.workspace c.lexer with
  | .ok a lexer => .ok a { c with lexer }
  | .error fault lexer => .error (.fault fault) { c with lexer }

def taking {α : Type} (read : Parse.Reader α) : CompileM σ α := reading fun _ => read

def emitting {α : Type} (step : EStateM Fault Program α) : CompileM σ α := fun c =>
  match step c.program with
  | .ok a program => .ok a { c with program }
  | .error fault program => .error (.fault fault) { c with program }

def emit (node : Node) : CompileM σ Nat := emitting (Program.emit node)

def append (nodes : List Node) : CompileM σ Unit := emitting (Program.append nodes)

def appendAll : List (List Node) → CompileM σ Unit
  | [] => return ()
  | nodes :: rest => do
    append nodes
    appendAll rest

def here : CompileM σ Nat := do return (← get).program.size

def entry? (name : String) : CompileM σ (Option Entry) := do
  return (← get).workspace.names.get? name

def valueOf (var : Handle) : CompileM σ Cell := do
  match (← get).workspace.memory.value var with
  | .ok value => return value
  | .error fault => fail fault

def line (c : Compiler σ) : String := c.lexer.line

/-! ### Names -/

def create (name : String) (value : Cell) : CompileM σ Handle := fun c =>
  match Workspace.create name value c.workspace with
  | .ok handle workspace =>
    .ok handle { c with workspace, created := (Text.fold name, handle) :: c.created }
  | .error fault workspace => .error (.fault fault) { c with workspace }

def rollback (c : Compiler σ) : Compiler σ :=
  { c with
    workspace := c.created.foldl (fun w (name, handle) => w.withdraw name handle) c.workspace
    created := [] }

def name : Parse.Reader (String × Column) := do
  let (token, column) ← Lexer.nextAt
  match token with
  | .name text => return (text, column)
  | _ => throw (.said .syntaxError column ("NAME EXPECTED, NOT " ++ token.quoted))

def optional (keyword : Keyword) : Parse.Reader Bool := do
  match ← Lexer.peek with
  | .name text =>
    if Keyword.ofName? text == some keyword then
      let _ ← Lexer.next
      return true
    return false
  | _ => return false

/-! ### Assignments -/

/-- Whether an equals sign follows, possibly behind one group in parentheses; `depth` of them are
open. -/
def assignmentAhead : (fuel depth : Nat) → Lexer → Bool
  | 0, _, _ => false
  | fuel + 1, depth, l =>
    match Lexer.next l with
    | .error _ _ => false
    | .ok .leftParen l => assignmentAhead fuel (depth + 1) l
    | .ok .rightParen l =>
      match depth with
      | 0 => false
      | 1 =>
        match Lexer.peek l with
        | .ok token _ => token == .assign
        | .error _ _ => false
      | depth + 2 => assignmentAhead fuel (depth + 1) l
    | .ok .assign l => if depth = 0 then true else assignmentAhead fuel depth l
    | .ok .finish _ => false
    | .ok _ l => if depth = 0 then false else assignmentAhead fuel depth l

def listType (have' : Option ElementType) (type : ElementType) (column : Column) :
    Except Fault ElementType :=
  match have' with
  | none => .ok type
  | some t =>
    if t = type then .ok t
    else if t.isNumeric && type.isNumeric then .ok .float
    else .error (.said .typeMismatch column (type.name ++ " IN " ++ t.name ++ " LIST"))

def values (w : Workspace) : (fuel : Nat) → Option ElementType →
    Parse.Reader (List Typed × ElementType)
  | 0, _ => throw Parse.tooLong
  | fuel + 1, have' => do
    let column ← Lexer.peekColumn
    let t ← Parse.expression w
    let type ← Parse.check (listType have' t.type column)
    if ← Parse.comma then
      let (rest, type) ← values w fuel (some type)
      return (t :: rest, type)
    return ([t], type)

/-- The variable that is assigned to, which must be writable and of a fitting type. -/
def assignable (name : String) (column : Column) (var : Handle) (type : ElementType) :
    CompileM σ Unit := do
  let value ← valueOf var
  if !value.owner.isWritable then fail (.said .readOnly column (NameTable.quote name))
  if value.type != type && !(value.type.isNumeric && type.isNumeric) then
    fail (.said .typeMismatch column (value.type.name ++ " = " ++ type.name))

def target (w : Workspace) (name : String) (column : Column) (known : Bool) :
    Parse.Reader (Option (List Subscript)) := do
  if (← Lexer.peek) != .leftParen then return none
  if !known then throw (.said .undefinedName column (NameTable.quote name))
  let _ ← Lexer.next
  return some (← Parse.subscripts w)

def assignment (name : String) (column : Column) : CompileM σ Unit := do
  let var? ←
    match ← entry? name with
    | some (.var handle) => pure (some handle)
    | some _ => fail (.said .readOnly column (NameTable.quote name ++ " IS NOT A VARIABLE"))
    | none => pure none
  let subscripts ← reading fun w => target w name column var?.isSome
  taking (Parse.expect .assign)
  let (rhs, type) ← reading fun w => do values w (Parse.budget (← get)) none
  let var ←
    match var? with
    | some var => do
      assignable name column var type
      pure var
    | none => create name (Cell.fresh type .scalar .declared)
  let _ ← emit (.assign var (subscripts.map fun list => list.map Subscript.axis) rhs.length)
  append (Subscript.codes (subscripts.getD []))
  appendAll (rhs.map fun t => t.expr.code t.type)

/-! ### Commands -/

def literalArgument : Parse.Reader Argument := do
  let token ← Lexer.literal
  match token with
  | .literal text => return .value (.const (.text text)) .text
  | .text text => return .value (.const (.text text)) .text
  | _ =>
    throw (.said .syntaxError (← Parse.lastColumn) ("TEXT EXPECTED, NOT " ++ token.quoted))

/-- The arguments of a command behind the first `count`. -/
def argumentsFrom (w : Workspace) (f : Function) (parens : Bool) :
    (fuel count : Nat) → Parse.Reader (List Argument)
  | 0, _ => throw Parse.tooLong
  | fuel + 1, count => do
    Parse.room f count
    let decl := f.decl count
    let a ←
      if decl.type = .literal && !parens then literalArgument else Parse.argument w decl
    if ← Parse.comma then
      return a :: (← argumentsFrom w f parens fuel (count + 1))
    return [a]

def arguments (w : Workspace) (f : Function) (parens : Bool) (column : Column) :
    Parse.Reader (List Argument) := do
  let empty ← if parens then Parse.closing else Lexer.atEnd
  let args ←
    if empty then pure []
    else do
      let args ← argumentsFrom w f parens (Parse.budget (← get)) 0
      if parens then Parse.expect .rightParen
      pure args
  Parse.check (Parse.enough f args.length column)
  return args

/-- The arguments of a command.  Parentheses that enclose all of the rest of the line enclose the
arguments; otherwise they belong to the first argument. -/
def commandArguments (w : Workspace) (f : Function) (column : Column) :
    Parse.Reader (List Argument) := do
  if (← Lexer.peek) != .leftParen then return ← arguments w f false column
  let start ← get
  let _ ← Lexer.next
  match arguments w f true column (← get) with
  | .ok args l =>
    set l
    if ← Lexer.atEnd then return args
    set (l.reset start.mark)
  | .error _ l => set (l.reset start.mark)
  arguments w f false column

def commandFunction (w : Workspace) (name : String) (column : Column) :
    Except Fault (Nat × Function) :=
  match w.names.lookup name with
  | .error fault => .error (fault.within column)
  | .ok (_, .var _) => .error (.said .syntaxError column "EXPECTED '=' AFTER VARIABLE")
  | .ok (_, .package _) => .error (.said .syntaxError column "MODULE IS NOT A COMMAND")
  | .ok (_, .func id _) =>
    match w.functions[id]? with
    | none => .error (.because .internalError "FUNCTION")
    | some f =>
      if f.kind = .elemental then
        .error (.said .syntaxError column (NameTable.quote f.name ++ " IS NOT A COMMAND"))
      else .ok (id, f)

def command (name : String) (column : Column) : CompileM σ Unit := do
  let (id, args) ← reading fun w => do
    let (id, f) ← Parse.check (commandFunction w name column)
    return (id, ← commandArguments w f column)
  let _ ← emit (.command id args.length)
  appendAll (args.map Argument.code)

/-! ### Declarations -/

def extents (w : Workspace) : (fuel : Nat) → Parse.Reader (List Expr)
  | 0 => throw Parse.tooLong
  | fuel + 1 => do
    let e ← Parse.subscript w
    if ← Parse.continues then
      return e :: (← extents w fuel)
    return [e]

def declare (name : String) (type : ElementType) (rank : Nat) (column : Column) :
    CompileM σ Handle := do
  match ← entry? name with
  | some (.var handle) =>
    let have' := (← valueOf handle).type
    if have' != type then
      fail (.said .redeclared column (NameTable.quote name ++ " IS " ++ have'.name))
    return handle
  | some _ => fail (.said .duplicate column (NameTable.quote name ++ " IS NOT A VARIABLE"))
  | none =>
    match Shape.ofDims (List.replicate rank 0) with
    | .ok shape => create name (Cell.fresh type shape .declared)
    | .error fault => fail fault

def declarator (w : Workspace) : Parse.Reader (String × Column × List Expr) := do
  let (text, column) ← name
  if (← Lexer.peek) != .leftParen then return (text, column, [])
  let _ ← Lexer.next
  return (text, column, ← extents w (Parse.budget (← get)))

def declarators (type : ElementType) : (fuel : Nat) → CompileM σ Unit
  | 0 => fail Parse.tooLong
  | fuel + 1 => do
    let (name, column, dims) ← reading declarator
    if maxRank < dims.length then
      fail (.said .rankMismatch column "AT MOST 3 DIMENSIONS")
    let var ← declare name type dims.length column
    let _ ← emit (.declare var dims.length)
    appendAll (dims.map fun e => e.code .integer)
    if ← taking Parse.comma then declarators type fuel

def declaration (type : ElementType) : CompileM σ Unit := do
  declarators type (Parse.budget (← get).lexer)
  taking Parse.expectEnd

/-! ### Blocks

The compiler of the lines of a block is the parameter `block`: it takes the keyword that opened the
block and the keywords that may close it, and tells the one that did. -/

/-- The compiler of the lines of a block. -/
abbrev Block (σ : Type) := (opener : Keyword) → (closers : List Keyword) → CompileM σ Keyword

/-- A condition, with an optional `then` behind it. -/
def condition : CompileM σ Unit := do
  let column ← taking Lexer.peekColumn
  let t ← reading Parse.expression
  if t.type != .logical then fail (.said .typeMismatch column "CONDITION MUST BE LOGICAL")
  append (t.expr.code t.type)
  let _ ← taking (optional .then)

def inLoop (gate : Nat) (body : CompileM σ Keyword) : CompileM σ Unit := do
  modify fun c => { c with loops := gate :: c.loops }
  let _ ← body
  modify fun c => { c with loops := c.loops.tail }

/-- The arms of a conditional from the keyword that opened one: the jumps to its end are
collected. -/
def arms (block : Block σ) : (fuel : Nat) → Keyword → CompileM σ (List Nat)
  | 0, _ => throw .exhausted
  | fuel + 1, keyword => do
    match keyword with
    | .if | .elseIf =>
      condition
      let skip ← emit (.branchIfFalse 0)
      taking Parse.expectEnd
      let closer ← block .if [.elseIf, .else, .endIf]
      if closer = .endIf then
        emitting (Program.patchHere skip)
        return []
      let finish ← emit (.branch 0)
      emitting (Program.patchHere skip)
      return finish :: (← arms block fuel closer)
    | .else =>
      let _ ← block .else [.endIf]
      return []
    | _ => return []

def patchAll : List Nat → CompileM σ Unit
  | [] => return ()
  | address :: rest => do
    emitting (Program.patchHere address)
    patchAll rest

def ifBlock (block : Block σ) (fuel : Nat) : CompileM σ Unit := do
  patchAll (← arms block fuel .if)

def whileBlock (block : Block σ) : CompileM σ Unit := do
  let gate ← emit (.gate 0 1)
  condition
  let test ← emit (.branchIfFalse 0)
  taking Parse.expectEnd
  inLoop gate (block .while [.endWhile])
  let _ ← emitting (Program.emitBranchTo (gate + 1))
  emitting (Program.patchHere test)
  emitting (Program.patchHere gate)

def repeatBlock (block : Block σ) : CompileM σ Unit := do
  taking Parse.expectEnd
  let gate ← emit (.gate 0 1)
  inLoop gate (block .repeat [.until])
  let test ← here
  emitting (Program.patchNext gate test)
  condition
  taking Parse.expectEnd
  let back ← emit (.branchIfFalse 0)
  emitting (Program.patch back (gate + 1))
  emitting (Program.patchHere gate)

/-- The bounds of a counted loop; `room` more are allowed. -/
def bounds (w : Workspace) : (room : Nat) → Parse.Reader (List Typed)
  | 0 => return []
  | room + 1 => do
    let column ← Lexer.peekColumn
    let t ← Parse.expression w
    if !t.type.isNumeric then throw (.said .typeMismatch column "LOOP BOUNDS MUST BE NUMERIC")
    if room = 0 then return [t]
    if ← Parse.comma then
      return t :: (← bounds w room)
    return [t]

/-- The head of a counted loop: the name of its variable and its bounds. -/
def loopHead (w : Workspace) : Parse.Reader (String × Column × List Typed) := do
  let (text, column) ← name
  Parse.expect .assign
  let list ← bounds w 3
  if list.length < 2 then
    throw (.said .syntaxError (← Lexer.peekColumn) "EXPECTED ', END'")
  Parse.expectEnd
  return (text, column, list)

/-- The variable of a counted loop: a writable number, created if there is none of the name. -/
def loopVariable (name : String) (column : Column) (list : List Typed) : CompileM σ Handle := do
  match ← entry? name with
  | some (.var handle) =>
    let value ← valueOf handle
    if !value.type.isNumeric then
      fail (.said .typeMismatch column "LOOP VARIABLE MUST BE NUMERIC")
    if !value.owner.isWritable then fail (.said .readOnly column (NameTable.quote name))
    return handle
  | some _ => fail (.said .readOnly column (NameTable.quote name ++ " IS NOT A VARIABLE"))
  | none =>
    let type := if list.all fun t => t.type == .integer then .integer else .float
    create name (Cell.fresh type .scalar .declared)

def doBlock (block : Block σ) : CompileM σ Unit := do
  let (name, column, list) ← reading loopHead
  let var ← loopVariable name column list
  appendAll (list.map fun t => t.expr.code t.type)
  let init ← emit (.loopInit 0 (list.length == 3))
  let gate ← emit (.gate 0 1)
  let counter ← emit (.loopCounter var none 0)
  emitting (Program.patch init counter)
  inLoop gate (block .do [.endDo])
  let _ ← emitting (Program.emitBranchTo counter)
  emitting (Program.patchHere counter)
  emitting (Program.patchHere gate)

def leap (keyword : Keyword) (column : Column) : CompileM σ Unit := do
  match (← get).loops with
  | [] => fail (.said .notInLoop column (Text.upper keyword.quoted))
  | gate :: _ =>
    let _ ← emit (.via (Program.distance (← here) gate) (keyword == .break))
    taking Parse.expectEnd

/-! ### Statements -/

def closer (column : Column) : Parse.Reader (Keyword × Column) := do
  let (token, last) ← Lexer.nextAt
  let which :=
    match token with
    | .name text => (Keyword.ofName? text).bind Keyword.terminator
    | _ => none
  match which with
  | some keyword => return (keyword, column)
  | none => throw (.said .syntaxError last "END OF WHAT")

def keyword (block : Block σ) (fuel : Nat) (word : Keyword) (column : Column) :
    CompileM σ (Option (Keyword × Column)) := do
  match word with
  | .if => ifBlock block fuel
  | .while => whileBlock block
  | .repeat => repeatBlock block
  | .do => doBlock block
  | .break => leap .break column
  | .continue => leap .continue column
  | .stop =>
    let _ ← emit .stop
    taking Parse.expectEnd
  | .integer => declaration .integer
  | .float => declaration .float
  | .string => declaration .text
  | .logical => declaration .logical
  | .then => fail (.said .unexpectedToken column "'THEN'")
  | .else =>
    if ← taking (optional .if) then return some (.elseIf, column)
    return some (.else, column)
  | .end => return some (← taking (closer column))
  | .elseIf => return some (.elseIf, column)
  | .endIf => return some (.endIf, column)
  | .endWhile => return some (.endWhile, column)
  | .endDo => return some (.endDo, column)
  | .until => return some (.until, column)
  return none

/-- A statement.  A keyword that closes a block is handed to the block that waits for it. -/
def statement (block : Block σ) (fuel : Nat) : CompileM σ (Option (Keyword × Column)) := do
  let (token, column) ← taking Lexer.nextAt
  match token with
  | .finish => return none
  | .name text =>
    match Keyword.ofName? text with
    | some word => keyword block fuel word column
    | none =>
      let lexer := (← get).lexer
      if assignmentAhead (Parse.budget lexer) 0 lexer then assignment text column
      else command text column
      taking Parse.expectEnd
      return none
  | _ => fail (.said .unexpectedToken column token.quoted)

def nextLine (source : LineSource σ) : CompileM σ (Option String) := fun c =>
  match source c.workspace.names.knows c.source with
  | .ok line source => .ok line { c with source }
  | .error failure source => .error failure { c with source }

/-- The statements of a block up to the line that closes it.  Each line takes one unit of fuel. -/
def block (source : LineSource σ) (maxName : Nat) : (fuel : Nat) → Block σ
  | 0, _, _ => throw .exhausted
  | fuel + 1, opener, closers => do
    match ← nextLine source with
    | none =>
      fail (.because .unmatchedBlock (Text.upper ("END OF INPUT INSIDE " ++ opener.quoted)))
    | some line =>
      modify fun c => { c with lexer := .ofText line maxName }
      match ← statement (block source maxName fuel) fuel with
      | none => block source maxName fuel opener closers
      | some (word, column) =>
        if closers.contains word then
          if word != .elseIf && word != .until then taking Parse.expectEnd
          return word
        fail (.said .unmatchedBlock column
          (Text.upper (word.quoted ++ " INSIDE " ++ opener.quoted)))

def topLevel (source : LineSource σ) (maxName fuel : Nat) : CompileM σ Unit := do
  match ← statement (block source maxName fuel) fuel with
  | none => return ()
  | some (word, column) =>
    fail (.said .unmatchedBlock column
      (Text.upper (word.quoted ++ " WITHOUT OPENING STATEMENT")))

/-- Compile the statement that begins with a line.  If that fails, the names it created are
withdrawn. -/
def compile (source : LineSource σ) (maxName fuel : Nat) (line : String) : CompileM σ Unit :=
  fun c =>
    match topLevel source maxName fuel { c with lexer := .ofText line maxName } with
    | .ok () c => .ok () c
    | .error failure c => .error failure c.rollback

end Compiler

end ArrayCommand
