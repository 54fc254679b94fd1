/-
Patterns of the shell, over characters that stand for bytes.
-/

namespace ArrayCommand.Shell

structure Marked where
  char : Char
  quoted : Bool := false
deriving DecidableEq, Repr

inductive SetItem where
  | range (low high : Char)
  | named (name : String)
deriving DecidableEq, Repr

inductive Atom where
  | char (c : Char)
  | anyChar
  | anyText
  | set (negated : Bool) (items : List SetItem)
deriving DecidableEq, Repr

abbrev Pattern := List Atom

def isPunctuation (c : Char) : Bool := 33 ≤ c.toNat && c.toNat ≤ 126 && !c.isAlphanum

def inClass (name : String) (c : Char) : Bool :=
  match name with
  | "alpha" => c.isAlpha
  | "digit" => c.isDigit
  | "alnum" => c.isAlphanum
  | "upper" => c.isUpper
  | "lower" => c.isLower
  | "space" => c = ' ' || (9 ≤ c.toNat && c.toNat ≤ 13)
  | "blank" => c = ' ' || c = '\t'
  | "punct" => isPunctuation c
  | "print" => 32 ≤ c.toNat && c.toNat ≤ 126
  | "graph" => 33 ≤ c.toNat && c.toNat ≤ 126
  | "cntrl" => c.toNat < 32 || c.toNat == 127
  | "xdigit" => c.isDigit || ('a' ≤ c && c ≤ 'f') || ('A' ≤ c && c ≤ 'F')
  | _ => false

def isClass (name : String) : Bool :=
  ["alpha", "digit", "alnum", "upper", "lower", "space", "blank", "punct", "print", "graph", "cntrl",
    "xdigit"].contains name

namespace SetItem

def accepts (item : SetItem) (c : Char) : Bool :=
  match item with
  | range low high => low ≤ c && c ≤ high
  | named name => inClass name c

end SetItem

namespace Atom

def accepts (a : Atom) (c : Char) : Bool :=
  match a with
  | char d => c = d
  | anyChar => true
  | anyText => false
  | set negated items => (items.any fun item => item.accepts c) != negated

end Atom

namespace Pattern

def isBare (m : Marked) (c : Char) : Bool := m.char = c && !m.quoted

def className? : List Marked → Option (String × List Marked)
  | a :: b :: rest =>
    if isBare a ':' && isBare b ']' then some ("", rest)
    else if a.char.isAlpha then
      (className? (b :: rest)).map fun (name, rest) => (String.ofList [a.char] ++ name, rest)
    else none
  | _ => none

/-- The items of a set up to its end, and what follows; the first item may be the closing bracket.
-/
def setItems : (fuel : Nat) → (first : Bool) → List Marked → Option (List SetItem × List Marked)
  | 0, _, _ => none
  | _, _, [] => none
  | fuel + 1, first, m :: rest =>
    if isBare m ']' && !first then some ([], rest)
    else
      let single := fun (_ : Unit) =>
        match rest with
        | dash :: high :: more =>
          if isBare dash '-' && !isBare high ']' then
            (setItems fuel false more).map fun (items, rest) =>
              (.range m.char high.char :: items, rest)
          else
            (setItems fuel false rest).map fun (items, rest) =>
              (.range m.char m.char :: items, rest)
        | _ =>
          (setItems fuel false rest).map fun (items, rest) =>
            (.range m.char m.char :: items, rest)
      match rest with
      | colon :: more =>
        if isBare m '[' && isBare colon ':' then
          match className? more with
          | some (name, behind) =>
            if isClass name then
              (setItems fuel false behind).map fun (items, rest) => (.named name :: items, rest)
            else single ()
          | none => single ()
        else single ()
      | [] => single ()

def set? (cs : List Marked) : Option (Atom × List Marked) :=
  match cs with
  | m :: rest =>
    if isBare m '!' then
      (setItems (cs.length + 1) true rest).map fun (items, rest) => (.set true items, rest)
    else (setItems (cs.length + 1) true cs).map fun (items, rest) => (.set false items, rest)
  | [] => none

def read : (fuel : Nat) → List Marked → Pattern
  | 0, _ => []
  | _, [] => []
  | fuel + 1, m :: rest =>
    if isBare m '*' then .anyText :: read fuel rest
    else if isBare m '?' then .anyChar :: read fuel rest
    else if isBare m '[' then
      match set? rest with
      | some (atom, rest) => atom :: read fuel rest
      | none => .char '[' :: read fuel rest
    else .char m.char :: read fuel rest

def ofMarked (cs : List Marked) : Pattern := read cs.length cs

def isLiteral (p : Pattern) : Bool :=
  p.all fun
    | .char _ => true
    | _ => false

def ends : List Char → List (List Char)
  | [] => [[]]
  | c :: cs => (c :: cs) :: ends cs

def matches' : Pattern → List Char → Bool
  | [], cs => cs.isEmpty
  | .anyText :: p, cs => (ends cs).any fun rest => matches' p rest
  | a :: p, c :: cs => a.accepts c && matches' p cs
  | _ :: _, [] => false

def trimStart (p : Pattern) (longest : Bool) (cs : List Char) : List Char :=
  let sizes := List.range (cs.length + 1)
  let sizes := if longest then sizes.reverse else sizes
  match sizes.find? fun n => matches' p (cs.take n) with
  | some n => cs.drop n
  | none => cs

def trimEnd (p : Pattern) (longest : Bool) (cs : List Char) : List Char :=
  let sizes := List.range (cs.length + 1)
  let sizes := if longest then sizes else sizes.reverse
  match sizes.find? fun n => matches' p (cs.drop n) with
  | some n => cs.take n
  | none => cs

end Pattern

end ArrayCommand.Shell
