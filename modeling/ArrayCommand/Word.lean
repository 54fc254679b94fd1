/-
Machine words of 64 bits.

Positions, distances and counts are words: where a result does not fit, its lower 64 bits are what
is left of it.  Where sections of arrays are placed, a result that does not fit breaks the interpreter
off instead.
-/

import ArrayCommand.Fault

namespace ArrayCommand

def wordSize : Nat := 0x10000000000000000

namespace Word

def signed (n : Int) : Int := n.bmod wordSize

def unsigned (n : Int) : Nat := (n % wordSize).toNat

def checked (n : Int) : Except Fault Int :=
  if signed n = n then .ok n else .error (.because .crash "")

theorem unsigned_of_lt {n : Nat} (h : n < wordSize) : unsigned n = n := by
  unfold unsigned
  rw [Int.emod_eq_of_lt] <;> omega

theorem signed_of_bounds {n : Int} (lower : -0x8000000000000000 ≤ n)
    (upper : n < 0x8000000000000000) : signed n = n := by
  unfold signed wordSize
  rw [Int.bmod_eq_of_le] <;> omega

end Word

end ArrayCommand
