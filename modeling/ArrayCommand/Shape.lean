/-
Shapes of arrays.

A shape lists the extents of at most three axes; a scalar has none.  Elements are stored with the
first axis varying fastest.
-/

import ArrayCommand.Fault
import ArrayCommand.Word

namespace ArrayCommand

def maxRank : Nat := 3

/-- The extents of the axes of an array. -/
structure Shape where
  dims : List Nat
  rank_le : dims.length ≤ maxRank
deriving DecidableEq, Repr

namespace Shape

/-! ### Shapes -/

def scalar : Shape := ⟨[], by decide⟩

def vector (length : Nat) : Shape := ⟨[length], by simp [maxRank]⟩

instance : Inhabited Shape := ⟨scalar⟩

/-- The product of extents, refused as soon as a partial product leaves 64 bits. -/
def checkedSize : Nat → List Nat → Option Nat
  | acc, [] => some acc
  | acc, d :: dims => if acc * d < wordSize then checkedSize (acc * d) dims else none

def ofDims (dims : List Nat) : Except Fault Shape :=
  if h : dims.length ≤ maxRank then
    match checkedSize 1 dims with
    | some _ => .ok ⟨dims, h⟩
    | none => .error (.because .overflow "ARRAY TOO LARGE")
  else .error (.because .rankMismatch "AT MOST 3 DIMENSIONS")

def rank (s : Shape) : Nat := s.dims.length

def extent (s : Shape) (axis : Nat) : Nat := s.dims.getD axis 1

def size (s : Shape) : Nat := s.dims.foldl (· * ·) 1

def isScalar (s : Shape) : Bool := s.dims.isEmpty

/-- The text `(2,3)` of a shape. -/
def text (s : Shape) : String := "(" ++ ",".intercalate (s.dims.map toString) ++ ")"

@[simp] theorem rank_scalar : scalar.rank = 0 := rfl

@[simp] theorem size_scalar : scalar.size = 1 := rfl

@[simp] theorem rank_vector (n : Nat) : (vector n).rank = 1 := rfl

@[simp] theorem size_vector (n : Nat) : (vector n).size = n := by
  simp [vector, size]

end Shape

/-! ### Indices -/

/-- A position along each of the three axes. -/
structure Index where
  i : Nat
  j : Nat
  k : Nat
deriving DecidableEq, Repr

namespace Shape

def strides (s : Shape) : Nat × Nat × Nat := (1, s.extent 0, s.extent 0 * s.extent 1)

def stride (s : Shape) (axis : Nat) : Nat :=
  match axis with
  | 0 => 1
  | 1 => s.extent 0
  | _ => s.extent 0 * s.extent 1

def indices (s : Shape) : List Index :=
  (List.range (s.extent 2)).flatMap fun k =>
    (List.range (s.extent 1)).flatMap fun j =>
      (List.range (s.extent 0)).map fun i => ⟨i, j, k⟩

end Shape

/-! ### Views -/

/-- How the elements of an operand lie in storage: the position of the first one, the extents, and
the signed distance between neighbours along each axis. -/
structure View where
  base : Int
  shape : Shape
  steps : Int × Int × Int
deriving DecidableEq, Repr

namespace View

def whole (shape : Shape) : View :=
  let (s₀, s₁, s₂) := shape.strides
  ⟨0, shape, (s₀, s₁, s₂)⟩

/-- The contribution of one axis; an axis of extent one is the same at every index. -/
def along (extent index : Nat) (step : Int) : Int := if 1 < extent then index * step else 0

def offset (v : View) (index : Index) : Nat :=
  Word.unsigned (v.base + along (v.shape.extent 0) index.i v.steps.1 +
    along (v.shape.extent 1) index.j v.steps.2.1 +
    along (v.shape.extent 2) index.k v.steps.2.2)

end View

end ArrayCommand
