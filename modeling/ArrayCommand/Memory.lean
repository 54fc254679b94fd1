/-
Variable memory.

A variable is held under a handle: the index of a slot and the generation of the slot at the time
the variable was entered.  Removing a variable starts the next generation of its slot, so a handle
that outlives its variable is recognised.
-/

import ArrayCommand.Cell

namespace ArrayCommand

structure Handle where
  index : Nat
  generation : UInt32
deriving DecidableEq, Repr

structure Variable where
  name : String
  value : Cell
deriving Repr

/-- A place for a variable. -/
structure Slot where
  generation : UInt32
  content : Option Variable

/-- All variables, and the indices of the slots that hold none; the last one freed is the first one
used again. -/
structure Memory where
  slots : Array Slot := #[]
  free : List Nat := []

namespace Memory

def empty : Memory := {}

def insert (m : Memory) (name : String) (value : Cell) : Memory × Handle :=
  let content := some ⟨name, value⟩
  match m.free with
  | [] => ({ m with slots := m.slots.push ⟨0, content⟩ }, ⟨m.slots.size, 0⟩)
  | index :: free =>
    let generation := (m.slots[index]?.map Slot.generation).getD 0
    ({ slots := m.slots.setIfInBounds index ⟨generation, content⟩, free }, ⟨index, generation⟩)

def get? (m : Memory) (h : Handle) : Option Variable :=
  match m.slots[h.index]? with
  | some slot => if slot.generation = h.generation then slot.content else none
  | none => none

def stale (h : Handle) : Fault :=
  .because .deletedVariable
    ("HANDLE " ++ toString h.index ++ "." ++ toString h.generation.toNat)

def get (m : Memory) (h : Handle) : Except Fault Variable :=
  match m.get? h with
  | some variable' => .ok variable'
  | none => .error (stale h)

def value (m : Memory) (h : Handle) : Except Fault Cell := (m.get h).map Variable.value

/-- Memory with the value of a variable exchanged; nothing changes if the variable is gone. -/
def update (m : Memory) (h : Handle) (value : Cell) : Memory :=
  match m.get? h with
  | some var =>
    { m with slots := m.slots.setIfInBounds h.index ⟨h.generation, some { var with value }⟩ }
  | none => m

/-- Memory without a variable; nothing changes if it is gone already. -/
def remove (m : Memory) (h : Handle) : Memory :=
  match m.get? h with
  | some _ =>
    { slots := m.slots.setIfInBounds h.index ⟨h.generation + 1, none⟩, free := h.index :: m.free }
  | none => m

/-- Memory without a variable, and the variable; nothing changes if it is gone already. -/
def take (m : Memory) (h : Handle) : Memory × Option Variable := (m.remove h, m.get? h)

def size (m : Memory) : Nat := m.slots.size - m.free.length

end Memory

end ArrayCommand
