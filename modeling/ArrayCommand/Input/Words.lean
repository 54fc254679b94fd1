/-
The words of an argument text.
-/

import ArrayCommand.Text.Blank

namespace ArrayCommand.Words

def isGap (c : Char) : Bool := c = ' ' || c = '\t' || c = ','

/-- Where a reader of words stands: between or in words, in a quoted text, or behind a backslash in
one. -/
inductive Place where
  | plain
  | quoted (quote : Char)
  | escaped (quote : Char)
deriving DecidableEq, Repr

def Place.after : Place → Char → Place
  | plain, c => if c = '"' ∨ c = '\'' then quoted c else plain
  | quoted quote, c => if c = '\\' then escaped quote else if c = quote then plain else quoted quote
  | escaped quote, _ => quoted quote

/-- A word that is done, unless it is empty. -/
def flush (word : List Char) (rest : List String) : List String :=
  if word.isEmpty then rest else String.ofList word.reverse :: rest

/-- The words of characters; the last characters read of the present word come first. -/
def splitFrom : Place → (word : List Char) → List Char → List String
  | _, word, [] => flush word []
  | place, word, c :: cs =>
    if place = .plain && isGap c then flush word (splitFrom .plain [] cs)
    else splitFrom (place.after c) (c :: word) cs

/-- The words of a text.  Quotes are kept, so that a quoted word stays quoted. -/
def split (text : String) : List String := splitFrom .plain [] text.toList

/-- A word without blanks around it and without the quotes around it, if there are two. -/
def unquote (word : String) : String :=
  let trimmed := Text.trim word
  match trimmed.toList with
  | first :: second :: rest =>
    let last := (second :: rest).getLast?
    if (first = '"' ∨ first = '\'') ∧ last = some first then
      String.ofList (second :: rest).dropLast
    else trimmed
  | _ => trimmed

end ArrayCommand.Words
