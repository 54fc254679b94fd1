/-
Cells: typed arrays of values, with an owner.

A cell stores its elements in order, the first axis varying fastest.  It is well formed when it
stores as many elements as its shape counts; every operation of this module keeps cells well
formed.
-/

import ArrayCommand.Scalar
import ArrayCommand.Shape

namespace ArrayCommand

/-! ### Owners -/

/-- Who holds a cell: the user, a module that lets it be read or also written, or one of the
passing states of a running statement. -/
inductive Owner where
  | declared
  | parameter
  | readWrite
  | temporary
  | pinned
  | reference
  | functionReference
  | functionValue
deriving DecidableEq, Repr

namespace Owner

def all : List Owner :=
  [declared, parameter, readWrite, temporary, pinned, reference, functionReference, functionValue]

/-- Only parameters refuse to be written. -/
def isWritable (o : Owner) : Bool := o != parameter

/-- Only what the user declared may be deleted. -/
def isDeletable (o : Owner) : Bool := o == declared

def name : Owner → String
  | declared => "Declared"
  | parameter => "Parameter"
  | readWrite => "ReadWrite"
  | temporary => "Temporary"
  | pinned => "Pinned"
  | reference => "Reference"
  | functionReference => "FunctionReference"
  | functionValue => "FunctionValue"

end Owner

/-! ### Storage -/

/-- The elements of a cell, all of one type. -/
inductive Data where
  | float (values : Array Float)
  | integer (values : Array Int)
  | text (values : Array String)
  | logical (values : Array Bool)
deriving BEq, Repr

namespace Data

def type : Data → ElementType
  | float _ => .float
  | integer _ => .integer
  | text _ => .text
  | logical _ => .logical

def size : Data → Nat
  | float v => v.size
  | integer v => v.size
  | text v => v.size
  | logical v => v.size

def replicate (n : Nat) : Scalar → Data
  | .float x => float (Array.replicate n x)
  | .integer x => integer (Array.replicate n x)
  | .text x => text (Array.replicate n x)
  | .logical x => logical (Array.replicate n x)

def zeroed (ty : ElementType) (n : Nat) : Data := replicate n (Scalar.zero ty)

def get? : Data → Nat → Option Scalar
  | float v, i => v[i]?.map .float
  | integer v, i => v[i]?.map .integer
  | text v, i => v[i]?.map .text
  | logical v, i => v[i]?.map .logical

/-- The elements with one of them exchanged, if the new value has their type. -/
def put : Data → Nat → Scalar → Data
  | float v, i, .float x => float (v.setIfInBounds i x)
  | integer v, i, .integer x => integer (v.setIfInBounds i x)
  | text v, i, .text x => text (v.setIfInBounds i x)
  | logical v, i, .logical x => logical (v.setIfInBounds i x)
  | data, _, _ => data

def fitTo {α : Type} (v : Array α) (zero : α) (n : Nat) : Array α :=
  if n ≤ v.size then v.take n else v ++ Array.replicate (n - v.size) zero

def resize : Data → Nat → Data
  | float v, n => float (fitTo v 0.0 n)
  | integer v, n => integer (fitTo v 0 n)
  | text v, n => text (fitTo v "" n)
  | logical v, n => logical (fitTo v false n)

def toList : Data → List Scalar
  | float v => v.toList.map .float
  | integer v => v.toList.map .integer
  | text v => v.toList.map .text
  | logical v => v.toList.map .logical

@[simp] theorem size_zeroed (ty : ElementType) (n : Nat) : (zeroed ty n).size = n := by
  cases ty <;> simp [zeroed, replicate, Scalar.zero, size]

@[simp] theorem type_zeroed (ty : ElementType) (n : Nat) : (zeroed ty n).type = ty := by
  cases ty <;> rfl

@[simp] theorem size_put (d : Data) (i : Nat) (s : Scalar) : (d.put i s).size = d.size := by
  cases d <;> cases s <;> simp [put, size]

@[simp] theorem type_put (d : Data) (i : Nat) (s : Scalar) : (d.put i s).type = d.type := by
  cases d <;> cases s <;> rfl

@[simp] theorem size_fitTo {α : Type} (v : Array α) (zero : α) (n : Nat) :
    (fitTo v zero n).size = n := by
  unfold fitTo
  split
  · simp; omega
  · simp; omega

@[simp] theorem size_resize (d : Data) (n : Nat) : (d.resize n).size = n := by
  cases d <;> simp [resize, size]

@[simp] theorem type_resize (d : Data) (n : Nat) : (d.resize n).type = d.type := by
  cases d <;> rfl

end Data

/-! ### Cells -/

/-- Elements under a shape. -/
structure Cell where
  data : Data
  shape : Shape
  owner : Owner
deriving Repr

namespace Cell

def WellFormed (c : Cell) : Prop := c.data.size = c.shape.size

def type (c : Cell) : ElementType := c.data.type

def size (c : Cell) : Nat := c.data.size

def rank (c : Cell) : Nat := c.shape.rank

def fresh (ty : ElementType) (shape : Shape) (owner : Owner) : Cell :=
  ⟨.zeroed ty shape.size, shape, owner⟩

def width : ElementType → Nat
  | .float => 8
  | .integer => 8
  | .text => 24
  | .logical => 1

/-- Storage of more than `2 ^ 63 - 1` bytes is refused. -/
def checkStorage (ty : ElementType) (count : Nat) : Except Fault Unit :=
  if count * width ty < 0x8000000000000000 then .ok ()
  else .error (.because .outOfMemory (toString count ++ " ELEMENTS"))

def allocate (ty : ElementType) (shape : Shape) (owner : Owner) : Except Fault Cell := do
  checkStorage ty shape.size
  return fresh ty shape owner

def ofData (data : Data) (shape : Shape) : Except Fault Cell :=
  if data.size = shape.size then .ok ⟨data, shape, .temporary⟩
  else .error (.because .internalError "STORAGE DOES NOT MATCH SHAPE")

def scalar (s : Scalar) : Cell := ⟨.replicate 1 s, .scalar, .temporary⟩

def integers (values : Array Int) : Cell := ⟨.integer values, .vector values.size, .temporary⟩

def floats (values : Array Float) : Cell := ⟨.float values, .vector values.size, .temporary⟩

def owned (c : Cell) (owner : Owner) : Cell := { c with owner }

/-! ### Elements -/

/-- The fault of an element that is not there; elements are counted from one, in words. -/
def missing (index : Nat) : Fault :=
  .because .subscriptOutOfRange ("ELEMENT " ++ toString ((index + 1) % wordSize))

def get (c : Cell) (index : Nat) : Except Fault Scalar :=
  match c.data.get? index with
  | some s => .ok s
  | none => .error (missing index)

def first (c : Cell) : Except Fault Scalar := c.get 0

/-- The cell with the element at a storage position exchanged for a value converted to its type. -/
def set (c : Cell) (index : Nat) (value : Scalar) : Except Fault Cell :=
  if index < c.size then
    (value.convert c.type).map fun s => { c with data := c.data.put index s }
  else .error (missing index)

/-- Exchange elements one after another; the cell comes back as far as that went. -/
def setAll (c : Cell) : List (Nat × Scalar) → Except Fault Unit × Cell
  | [] => (.ok (), c)
  | (index, value) :: rest =>
    match c.set index value with
    | .ok c => c.setAll rest
    | .error fault => (.error fault, c)

def fill (c : Cell) (value : Scalar) : Except Fault Unit × Cell :=
  c.setAll ((List.range c.size).map fun index => (index, value))

/-! ### Whole cells -/

/-- The cell under another shape; the leading elements stay, in storage order, and missing ones are
fresh. -/
def resize (c : Cell) (shape : Shape) : Except Fault Cell := do
  checkStorage c.type shape.size
  return { c with data := c.data.resize shape.size, shape }

def reshape (c : Cell) (shape : Shape) : Except Fault Cell :=
  if shape.size = c.size then .ok { c with shape }
  else
    .error (.because .shapeMismatch
      ("CANNOT VIEW " ++ toString c.size ++ " ELEMENTS AS " ++ shape.text))

def convertData (data : Data) (ty : ElementType) : Except Fault Data :=
  match data, ty with
  | .integer v, .float => .ok (.float (v.map Float.ofInt))
  | .float v, .integer => (v.mapM integerOfFloat).map .integer
  | data, ty => if data.type = ty then .ok data else .error (Scalar.mismatch data.type ty)

def convert (c : Cell) (ty : ElementType) : Except Fault Cell :=
  (convertData c.data ty).map fun data => { c with data }

/-- The cell with the elements and the shape of another one, converted to its own type.  The owner
stays. -/
def assign (c source : Cell) : Except Fault Cell :=
  (source.convert c.type).map fun source => { c with data := source.data, shape := source.shape }

def same (c d : Cell) : Bool := c.shape == d.shape && c.data == d.data

/-! ### Reading a cell -/

def text (c : Cell) : Except Fault String :=
  match c.data with
  | .text values =>
    match values.toList with
    | [s] => .ok s
    | _ => .error (.because .typeMismatch "STRING EXPECTED")
  | _ => .error (.because .typeMismatch "STRING EXPECTED")

def only (c : Cell) : Except Fault Scalar :=
  if c.size = 1 then c.first else .error (.because .rankMismatch "SCALAR EXPECTED")

def integer (c : Cell) : Except Fault Int := do (← c.only).toInteger

def float (c : Cell) : Except Fault Float := do (← c.only).toFloat

def print (c : Cell) : String := " ".intercalate (c.data.toList.map Scalar.print)

/-! ### Well formed cells -/

theorem wellFormed_fresh (ty : ElementType) (shape : Shape) (owner : Owner) :
    (fresh ty shape owner).WellFormed := by
  simp [WellFormed, fresh]

theorem allocate_ok {ty : ElementType} {shape : Shape} {owner : Owner} {c : Cell}
    (h : allocate ty shape owner = .ok c) : c = fresh ty shape owner := by
  rw [allocate] at h
  cases hroom : checkStorage ty shape.size with
  | error fault => rw [hroom] at h; cases h
  | ok _ =>
    rw [hroom] at h
    cases h
    rfl

theorem wellFormed_scalar (s : Scalar) : (scalar s).WellFormed := by
  cases s <;> simp [WellFormed, scalar, Data.replicate, Data.size]

end Cell

end ArrayCommand
