/-
Faults, the errors of the command language.

A fault has a cause, an optional detail and an optional range of columns of the line it was raised
on.  The cause alone decides the phase of processing the fault belongs to and the first part of its
text; the detail follows after a semicolon; the columns are only used to underline the offending
characters.
-/

namespace ArrayCommand

/-! ### Columns -/

/-- A half-open range of character positions of a line, counted from zero. -/
structure Column where
  start : Nat
  stop : Nat
deriving DecidableEq, Repr, Inhabited

namespace Column

def unset : Column := ⟨0, 0⟩

def point (at' : Nat) : Column := ⟨at', at'⟩

end Column

/-! ### Causes -/

/-- The part of processing that raises a fault. -/
inductive Phase where
  | lexical
  | syntactic
  | semantic
  | runtime
deriving DecidableEq, Repr

/-- Everything that can go wrong.  A crash is no fault of the user and never reported: it breaks the
interpreter off. -/
inductive Cause where
  | illegalCharacter
  | nameTooLong
  | unterminatedString
  | badNumber
  | syntaxError
  | unexpectedToken
  | unmatchedBracket
  | unmatchedBlock
  | wrongArgumentCount
  | notInLoop
  | typeMismatch
  | rankMismatch
  | modeMismatch
  | redeclared
  | subscriptOutOfRange
  | divisionByZero
  | domainError
  | overflow
  | readOnly
  | undefinedName
  | ambiguousName
  | shapeMismatch
  | duplicate
  | functionFailed
  | outOfMemory
  | interrupted
  | stackOverflow
  | inputNesting
  | fileNotFound
  | ioError
  | deletedVariable
  | internalError
  | crash
deriving DecidableEq, Repr

namespace Cause

/-- The causes that are reported. -/
def all : List Cause :=
  [illegalCharacter, nameTooLong, unterminatedString, badNumber, syntaxError, unexpectedToken,
    unmatchedBracket, unmatchedBlock, wrongArgumentCount, notInLoop, typeMismatch, rankMismatch,
    modeMismatch, redeclared, subscriptOutOfRange, divisionByZero, domainError, overflow, readOnly,
    undefinedName, ambiguousName, shapeMismatch, duplicate, functionFailed, outOfMemory,
    interrupted, stackOverflow, inputNesting, fileNotFound, ioError, deletedVariable,
    internalError]

def number : Cause → Nat
  | illegalCharacter => 1
  | nameTooLong => 2
  | unterminatedString => 3
  | badNumber => 4
  | syntaxError => 10
  | unexpectedToken => 11
  | unmatchedBracket => 12
  | unmatchedBlock => 13
  | wrongArgumentCount => 14
  | notInLoop => 15
  | typeMismatch => 20
  | rankMismatch => 21
  | modeMismatch => 22
  | redeclared => 23
  | subscriptOutOfRange => 24
  | divisionByZero => 25
  | domainError => 26
  | overflow => 27
  | readOnly => 28
  | undefinedName => 29
  | ambiguousName => 30
  | shapeMismatch => 31
  | duplicate => 32
  | functionFailed => 40
  | outOfMemory => 41
  | interrupted => 42
  | stackOverflow => 43
  | inputNesting => 44
  | fileNotFound => 45
  | ioError => 46
  | deletedVariable => 47
  | internalError => 51
  | crash => 52

def phase (c : Cause) : Phase :=
  if c.number < 10 then .lexical
  else if c.number < 20 then .syntactic
  else if c.number < 40 then .semantic
  else .runtime

def text : Cause → String
  | illegalCharacter => "ILLEGAL CHARACTER"
  | nameTooLong => "NAME TOO LONG"
  | unterminatedString => "UNTERMINATED STRING"
  | badNumber => "BAD NUMBER"
  | syntaxError => "SYNTAX ERROR"
  | unexpectedToken => "UNEXPECTED TOKEN"
  | unmatchedBracket => "UNMATCHED BRACKET"
  | unmatchedBlock => "UNMATCHED BLOCK"
  | wrongArgumentCount => "WRONG NUMBER OF ARGUMENTS"
  | notInLoop => "NOT INSIDE A LOOP"
  | typeMismatch => "TYPE MISMATCH"
  | rankMismatch => "RANK MISMATCH"
  | modeMismatch => "PASSING MODE MISMATCH"
  | redeclared => "REDECLARED VARIABLE"
  | subscriptOutOfRange => "SUBSCRIPT OUT OF RANGE"
  | divisionByZero => "DIVISION BY ZERO"
  | domainError => "ARGUMENT OUT OF RANGE"
  | overflow => "OVERFLOW"
  | readOnly => "READ ONLY"
  | undefinedName => "UNDEFINED NAME"
  | ambiguousName => "AMBIGUOUS NAME"
  | shapeMismatch => "ARRAY SHAPES DO NOT CONFORM"
  | duplicate => "DUPLICATE NAME"
  | functionFailed => "FUNCTION FAILED"
  | outOfMemory => "OUT OF MEMORY"
  | interrupted => "INTERRUPTED"
  | stackOverflow => "STACK OVERFLOW"
  | inputNesting => "INPUT NESTED TOO DEEPLY"
  | fileNotFound => "FILE NOT FOUND"
  | ioError => "I/O ERROR"
  | deletedVariable => "VARIABLE WAS DELETED"
  | internalError => "INTERNAL ERROR"
  | crash => "CRASH"

end Cause

/-! ### Faults -/

/-- A cause, its detail (empty when there is none) and the place it was met at. -/
structure Fault where
  cause : Cause
  detail : String := ""
  column : Column := .unset
deriving DecidableEq, Repr

namespace Fault

def because (cause : Cause) (detail : String) : Fault := { cause, detail }

def place (cause : Cause) (column : Column) : Fault := { cause, column }

def said (cause : Cause) (column : Column) (detail : String) : Fault := { cause, detail, column }

def located (f : Fault) : Bool := f.column != .unset

/-- Attach a place unless one is known already, so that the most precise place is kept. -/
def within (f : Fault) (column : Column) : Fault :=
  if f.located then f else { f with column }

def text (f : Fault) : String :=
  if f.detail.isEmpty then f.cause.text else f.cause.text ++ "; " ++ f.detail

/-- The line with a run of carets below the place of the fault, at least one caret wide and starting
no later than just past the end of the line.  Nothing is drawn without a place or without a line. -/
def caret (f : Fault) (line : String) : Option String :=
  if !f.located || line.isEmpty then none
  else
    let start := min f.column.start line.length
    let stop := max f.column.stop (start + 1)
    some (line ++ "\n" ++ "".pushn ' ' start ++ "".pushn '^' (stop - start))

end Fault

/-- Why a computation ended early: a fault of the user, or no fuel left. -/
inductive Failure where
  | fault (fault : Fault)
  | exhausted
deriving DecidableEq, Repr

/-- The state in which a computation leaves off, whether it succeeds or fails. -/
def leftIn {ε σ α : Type} : EStateM.Result ε σ α → σ
  | .ok _ s => s
  | .error _ s => s

end ArrayCommand
