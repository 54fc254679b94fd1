/-
Documents of settings: tables of keys and values, with the rules of how a table may be extended.

A table comes into being by a header, as the super-table of one, by a dotted key, or as a value in
braces.  Each table has one definition: a header may complete a super-table but not define a table
again, dotted keys may extend only what dotted keys began, and values are never extended.
-/

namespace ArrayCommand

/-- How a table came into being. -/
inductive Origin where
  | implied
  | dotted
  | defined
  | braces
deriving DecidableEq, Repr

/-- A value or a table.  An array of tables grows by headers; a list is written as one value. -/
inductive Item where
  | text (s : String)
  | integer (n : Int)
  | float
  | boolean (b : Bool)
  | date
  | list (items : List Item)
  | table (origin : Origin) (entries : List (String × Item))
  | tables (items : List (List (String × Item)))

abbrev Entries := List (String × Item)

namespace Document

def find? (entries : Entries) (key : String) : Option Item := entries.lookup key

def replace (entries : Entries) (key : String) (item : Item) : Entries :=
  entries.map fun entry => if entry.1 == key then (key, item) else entry

/-- A change of a table. -/
abbrev Change := Origin → Entries → Option (Origin × Entries)

def changeLast (change : Change) : List Entries → Option (List Entries)
  | [] => none
  | [entries] => (change .defined entries).map fun (_, entries) => [entries]
  | first :: rest => (changeLast change rest).map (first :: ·)

/-- Change the table at the end of a path.  Tables on the way that are not there yet come into being
by dotted keys or as super-tables. -/
def descend (byDots : Bool) : (path : List String) → Change → Change
  | [], change, origin, entries => change origin entries
  | key :: path, change, origin, entries =>
    let further := descend byDots path change
    match find? entries key with
    | none => do
      let (o, es) ← further (if byDots then .dotted else .implied) []
      return (origin, entries ++ [(key, .table o es)])
    | some (.table o es) =>
      if o = .braces ∨ (byDots ∧ o = .defined) then none
      else do
        let (o, es) ← further o es
        return (origin, replace entries key (.table o es))
    | some (.tables items) => do
      let items ← changeLast further items
      return (origin, replace entries key (.tables items))
    | some _ => none

/-- The table of a header: a new one, or one that was only a super-table. -/
def define (key : String) : Change := fun origin entries =>
  match find? entries key with
  | none => some (origin, entries ++ [(key, .table .defined [])])
  | some (.table .implied es) => some (origin, replace entries key (.table .defined es))
  | some _ => none

def extend (key : String) : Change := fun origin entries =>
  match find? entries key with
  | none => some (origin, entries ++ [(key, .tables [[]])])
  | some (.tables items) => some (origin, replace entries key (.tables (items ++ [[]])))
  | some _ => none

/-- A new key of a table.  Behind dots the table must have been begun by dots. -/
def insert (behindDots : Bool) (key : String) (item : Item) : Change := fun origin entries =>
  if decide (origin = .dotted) != behindDots then none
  else if (find? entries key).isSome then none
  else some (origin, entries ++ [(key, item)])

def splitLast : List String → Option (List String × String)
  | [] => none
  | [key] => some ([], key)
  | key :: rest => (splitLast rest).map fun (path, last) => (key :: path, last)

def header (keys : List String) (root : Entries) : Option Entries := do
  let (path, key) ← splitLast keys
  let (_, entries) ← descend false path (define key) .defined root
  return entries

def arrayHeader (keys : List String) (root : Entries) : Option Entries := do
  let (path, key) ← splitLast keys
  let (_, entries) ← descend false path (extend key) .defined root
  return entries

def assignIn (keys : List String) (item : Item) : Change := fun origin entries => do
  let (path, key) ← splitLast keys
  descend true path (insert (!path.isEmpty) key item) origin entries

/-- The document after a line with a key and its value under the header `section'`. -/
def assign (section' keys : List String) (item : Item) (root : Entries) : Option Entries := do
  let (_, entries) ← descend false section' (assignIn keys item) .defined root
  return entries

end Document

end ArrayCommand
