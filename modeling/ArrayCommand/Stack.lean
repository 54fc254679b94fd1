/-
Stacks with a limit.

A push that exceeds the limit is reported only after the value is on the stack, so a stack that
overflowed holds one value too many.
-/

import ArrayCommand.Fault

namespace ArrayCommand

/-- A stack; the last item is the top.  The title is what an overflow is reported with. -/
structure Stack (α : Type) where
  title : String
  limit : Nat
  items : Array α := #[]

namespace Stack

variable {α : Type}

def size (s : Stack α) : Nat := s.items.size

def underflow : Fault := .because .internalError "UNDERFLOW"

/-- Nothing, or an overflow if there are more values than the limit. -/
def check (s : Stack α) : Except Fault Unit :=
  if s.size ≤ s.limit then .ok () else .error (.because .stackOverflow s.title)

def push (value : α) : EStateM Fault (Stack α) Unit := fun s =>
  let s := { s with items := s.items.push value }
  match s.check with
  | .ok () => .ok () s
  | .error fault => .error fault s

def extend (values : Array α) : EStateM Fault (Stack α) Unit := fun s =>
  let s := { s with items := s.items ++ values }
  match s.check with
  | .ok () => .ok () s
  | .error fault => .error fault s

def pop : EStateM Fault (Stack α) α := fun s =>
  match s.items.back? with
  | some value => .ok value { s with items := s.items.pop }
  | none => .error underflow s

def popTwo : EStateM Fault (Stack α) (α × α) := do
  let upper ← pop
  let lower ← pop
  return (lower, upper)

/-- Take the `n` topmost values, the lowest one first. -/
def popMany (n : Nat) : EStateM Fault (Stack α) (Array α) := fun s =>
  if s.size < n then .error underflow s
  else .ok (s.items.drop (s.size - n)) { s with items := s.items.take (s.size - n) }

/-- The `n` topmost values, the lowest one first. -/
def tail (s : Stack α) (n : Nat) : Except Fault (Array α) :=
  if s.size < n then .error underflow else .ok (s.items.drop (s.size - n))

def replaceTail (s : Stack α) (values : Array α) : Stack α :=
  { s with items := s.items.take (s.size - values.size) ++ values }

def truncate (s : Stack α) (size : Nat) : Stack α := { s with items := s.items.take size }

def clear (s : Stack α) : Stack α := { s with items := #[] }

/-- The value at a position, counted from the bottom. -/
def get? (s : Stack α) (index : Nat) : Option α := s.items[index]?

def last? (s : Stack α) : Option α := s.items.back?

def put (s : Stack α) (index : Nat) (value : α) : Stack α :=
  { s with items := s.items.setIfInBounds index value }

def reverse (s : Stack α) : Stack α := { s with items := s.items.reverse }

end Stack

end ArrayCommand
