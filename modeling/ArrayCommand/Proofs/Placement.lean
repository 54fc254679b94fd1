/-
Nodes at an address of a program.

A piece of code sits inside a longer program at some address; every statement about running the
piece is relative to the fact that it stands there.

* `Placed` — the nodes of a piece stand in a program from an address on;
* `Placed.left`, `Placed.right`, `Placed.head`, `Placed.tail` — the parts of a piece are placed
  where the piece puts them;
* `placed_toArray` — the nodes of a whole program are placed at its start;
* `jump_distance` — in a program whose addresses are words with a sign, a jump over the distance to
  a target arrives there.
-/

import ArrayCommand.Machine

namespace ArrayCommand

variable {pc source target : Nat}

/-! ### Pieces of code -/

/-- The nodes stand in the program from an address on. -/
def Placed {α : Type} (code : Array α) (pc : Nat) (nodes : List α) : Prop :=
  ∀ i, i < nodes.length → code[pc + i]? = nodes[i]?

namespace Placed

variable {α : Type} {code : Array α} {node : α} {nodes front back : List α}

theorem left (h : Placed code pc (front ++ back)) : Placed code pc front := by
  intro i hi
  rw [h i (by simp; omega), List.getElem?_append_left hi]

theorem right (h : Placed code pc (front ++ back)) : Placed code (pc + front.length) back := by
  intro i hi
  have hat := h (front.length + i) (by simp; omega)
  rw [List.getElem?_append_right (by omega), Nat.add_sub_cancel_left] at hat
  rw [Nat.add_assoc, hat]

theorem head (h : Placed code pc (node :: nodes)) : code[pc]? = some node := by
  simpa using h 0 (by simp)

theorem tail (h : Placed code pc (node :: nodes)) : Placed code (pc + 1) nodes := by
  rw [← List.singleton_append] at h
  exact h.right

theorem through (h : Placed code pc (front ++ node :: back)) : Placed code pc (front ++ [node]) := by
  rw [← List.singleton_append, ← List.append_assoc] at h
  exact h.left

theorem le_size (h : Placed code pc nodes) (hne : nodes ≠ []) : pc + nodes.length ≤ code.size := by
  have hpos : 0 < nodes.length := List.length_pos_iff.2 hne
  have hlast := h (nodes.length - 1) (by omega)
  rw [List.getElem?_eq_getElem (by omega)] at hlast
  have := (Array.getElem?_eq_some_iff.1 hlast).1
  omega

end Placed

theorem placed_toArray {α : Type} (nodes : List α) : Placed nodes.toArray 0 nodes := by
  intro i _
  simp

/-! ### Jumps -/

theorem distance_eq (hs : source < 0x8000000000000000) (ht : target < 0x8000000000000000) :
    Program.distance source target = (target : Int) - source := by
  exact Word.signed_of_bounds (by omega) (by omega)

theorem jump_distance (h : source < 0x8000000000000000 ∧ target < 0x8000000000000000) :
    Machine.jump source (Program.distance source target) = some target := by
  have hsum : (source : Int) + ((target : Int) - source) = target := by omega
  rw [distance_eq h.1 h.2, Machine.jump, hsum]

/-- In a program whose addresses are words, the end of an expression is found without wrapping. -/
theorem behind_eq {length : Nat} (h : pc + 1 + length < wordSize) :
    Machine.behind pc length = pc + 1 + length := Nat.mod_eq_of_lt h

end ArrayCommand
