/-
Name tables with minimum match.

A table holds names in increasing order, all folded to small letters, each with a payload.  A query
stands for every name it begins; it is resolved when it begins exactly one name, or when it is
itself a name of the table.  A table may have a resolver that picks one name of several.
-/

import ArrayCommand.Fault
import ArrayCommand.Text.Blank

namespace ArrayCommand

/-- A sorted table of names.  The resolver gets the query and the entries it begins, and answers
with the index of the one it stands for. -/
structure NameTable (α : Type) where
  maxLength : Nat
  resolver : Option (String → List (String × α) → Option Nat) := none
  entries : List (String × α) := []

/-- What a query stands for: indices are positions in the table. -/
inductive NameMatch where
  | notFound
  | badCharacters
  | exact (index : Nat)
  | ambiguous (start stop : Nat)
deriving DecidableEq, Repr

namespace NameTable

variable {α : Type}

/-! ### Names -/

def isNameChar (c : Char) : Bool := c.isDigit || c.isLower || c = '_'

def isLegal (folded : String) : Bool := !folded.isEmpty && folded.toList.all isNameChar

/-- The text `'name'` of a message. -/
def quote (name : String) : String := "'" ++ name ++ "'"

def accept (t : NameTable α) (name : String) : Except Fault String :=
  let folded := Text.fold name
  if !isLegal folded then .error (.because .illegalCharacter ("IN NAME " ++ quote name))
  else if t.maxLength < folded.length then .error (.because .nameTooLong (quote name))
  else .ok folded

def begins (query name : String) : Bool := query.toList.isPrefixOf name.toList

/-! ### The table as a finite map -/

def find? (entries : List (String × α)) (folded : String) : Option α :=
  (entries.find? fun entry => entry.1 == folded).map Prod.snd

def insertSorted (folded : String) (payload : α) : List (String × α) → List (String × α)
  | [] => [(folded, payload)]
  | entry :: rest =>
    if folded < entry.1 then (folded, payload) :: entry :: rest
    else entry :: insertSorted folded payload rest

def replace (folded : String) (payload : α) (entries : List (String × α)) : List (String × α) :=
  entries.map fun entry => if entry.1 == folded then (folded, payload) else entry

/-- Add a name.  A name that is there already is refused, unless `replacing` is set: then its
payload is exchanged and the old one returned. -/
def insert (t : NameTable α) (name : String) (payload : α) (replacing : Bool) :
    Except Fault (NameTable α × Option α) :=
  match t.accept name with
  | .error fault => .error fault
  | .ok folded =>
    match find? t.entries folded with
    | none => .ok ({ t with entries := insertSorted folded payload t.entries }, none)
    | some old =>
      if replacing then .ok ({ t with entries := replace folded payload t.entries }, some old)
      else .error (.because .duplicate (quote folded))

def get? (t : NameTable α) (name : String) : Option α := find? t.entries (Text.fold name)

def remove (t : NameTable α) (name : String) : NameTable α :=
  let folded := Text.fold name
  { t with entries := t.entries.filter fun entry => entry.1 != folded }

def clear (t : NameTable α) : NameTable α := { t with entries := [] }

/-! ### Minimum match -/

def before (t : NameTable α) (query : String) : Nat :=
  (t.entries.takeWhile fun entry => decide (entry.1 < query)).length

/-- The run of entries that a folded query begins, which starts where the query would stand. -/
def window (t : NameTable α) (query : String) : List (String × α) :=
  (t.entries.drop (t.before query)).takeWhile fun entry => begins query entry.1

def beginning (t : NameTable α) (text : String) : List (String × α) := t.window (Text.fold text)

def classify (t : NameTable α) (name : String) : NameMatch :=
  let query := Text.fold name
  if !isLegal query then .badCharacters
  else
    let start := t.before query
    match t.window query with
    | [] => .notFound
    | first :: rest =>
      if rest.isEmpty || first.1 == query then .exact start
      else .ambiguous start (start + rest.length + 1)

def pick? (t : NameTable α) (name : String) (window : List (String × α)) : Option (String × α) := do
  let resolve ← t.resolver
  let index ← resolve name window
  window[index]?

def lookup (t : NameTable α) (name : String) : Except Fault (String × α) :=
  match t.classify name with
  | .notFound => .error (.because .undefinedName (quote name))
  | .badCharacters => .error (.because .illegalCharacter ("IN NAME " ++ quote name))
  | .exact index =>
    match t.entries[index]? with
    | some entry => .ok entry
    | none => .error (.because .undefinedName (quote name))
  | .ambiguous .. =>
    let window := t.window (Text.fold name)
    match t.pick? name window with
    | some entry => .ok entry
    | none =>
      .error (.because .ambiguousName
        (quote name ++ " COULD BE " ++ ", ".intercalate (window.map Prod.fst)))

def knows (t : NameTable α) (name : String) : Bool := (t.lookup name).isOk

end NameTable

end ArrayCommand
