/-
What the functions of a module may ask of the interpreter around them.

A function does not see the console.  What it prints is kept until the statement ends, and what it
asks for is carried out as soon as it returns.
-/

import ArrayCommand.Text.Quoted

namespace ArrayCommand

/-! ### Requests -/

/-- How the interpreter is left.  A full exit also gives up the variables and the stored
commands. -/
inductive ExitMode where
  | full (code : Int)
  | minimal (code : Int)
deriving DecidableEq, Repr

namespace ExitMode

def code : ExitMode → Int
  | full n => n
  | minimal n => n

def text : ExitMode → String
  | full n => "Full(" ++ toString n ++ ")"
  | minimal n => "Minimal(" ++ toString n ++ ")"

end ExitMode

inductive Request where
  | delete (name : String)
  | list (beginning : String)
  | help (topic : String)
  | exit (mode : ExitMode)
deriving DecidableEq, Repr

def Request.text : Request → String
  | delete name => "Delete(" ++ Text.quoted name ++ ")"
  | list beginning => "Show(" ++ Text.quoted beginning ++ ")"
  | help topic => "Help(" ++ Text.quoted topic ++ ")"
  | exit mode => "Exit(" ++ mode.text ++ ")"

/-! ### Random numbers -/

/-- A generator of random numbers.  How the numbers that are drawn follow from the seed is left
open. -/
structure Generator where
  numbers : (seed drawn : Nat) → Float := fun _ _ => 0
  seed : Nat := 0
  drawn : Nat := 0

namespace Generator

def reseeded (g : Generator) (seed : Nat) : Generator := { g with seed, drawn := 0 }

/-- The next number, and the generator after it. -/
def draw (g : Generator) : Float × Generator :=
  (g.numbers g.seed g.drawn, { g with drawn := g.drawn + 1 })

end Generator

/-! ### The clock -/

structure TimeStamp where
  year : Nat := 2000
  month : Nat := 1
  day : Nat := 1
  hour : Nat := 0
  minute : Nat := 0
  second : Nat := 0
deriving DecidableEq, Repr

namespace TimeStamp

def padded (width n : Nat) : String :=
  let digits := toString n
  Decimal.zeros (width - digits.length) ++ digits

/-- The text `2000-01-01 00:00:00`. -/
def text (t : TimeStamp) : String :=
  padded 4 t.year ++ "-" ++ padded 2 t.month ++ "-" ++ padded 2 t.day ++ " " ++
    padded 2 t.hour ++ ":" ++ padded 2 t.minute ++ ":" ++ padded 2 t.second

end TimeStamp

/-! ### The host -/

/-- The services a function has. -/
structure Host where
  output : String := ""
  requests : List Request := []
  generator : Generator := {}
  clock : TimeStamp := {}
  interrupted : Bool := false

namespace Host

def print (h : Host) (text : String) : Host := { h with output := h.output ++ text }

def request (h : Host) (r : Request) : Host := { h with requests := h.requests ++ [r] }

end Host

end ArrayCommand
