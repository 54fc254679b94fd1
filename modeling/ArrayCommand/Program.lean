/-
Programs: the nodes of one statement, under construction and finished.

A jump forward is emitted before its target is known and pointed to it later.
-/

import ArrayCommand.Node

namespace ArrayCommand

/-- Nodes, and how many there may be. -/
structure Program where
  limit : Nat
  nodes : Array Node := #[]

namespace Program

def clear (p : Program) : Program := { p with nodes := #[] }

def size (p : Program) : Nat := p.nodes.size

def distance (source target : Nat) : Int := Word.signed (target - source)

def overflow : Fault := .because .stackOverflow "COMPILE STACK"

/-! ### Adding nodes -/

def append (nodes : List Node) : EStateM Fault Program Unit := fun p =>
  let p := { p with nodes := p.nodes ++ nodes }
  if p.size ≤ p.limit then .ok () p else .error overflow p

def emit (node : Node) : EStateM Fault Program Nat := do
  let address := (← get).size
  append [node]
  return address

def emitBranchTo (target : Nat) : EStateM Fault Program Nat := do
  let address := (← get).size
  emit (.branch (distance address target))

/-! ### Pointing jumps to their targets -/

def patch (address target : Nat) : EStateM Fault Program Unit := fun p =>
  match p.nodes[address]? with
  | none => .error (.because .internalError "PATCH OF NON BRANCH") p
  | some node =>
    match node.retarget? (distance address target) with
    | some node => .ok () { p with nodes := p.nodes.setIfInBounds address node }
    | none => .error (.because .internalError "PATCH OF NON BRANCH") p

def patchHere (address : Nat) : EStateM Fault Program Unit := do
  patch address (← get).size

def patchNext (address target : Nat) : EStateM Fault Program Unit := fun p =>
  match p.nodes[address]? with
  | some (.gate exit _) =>
    .ok () { p with
      nodes := p.nodes.setIfInBounds address (.gate exit (distance address target)) }
  | _ => .error (.because .internalError "PATCH OF NON LINK") p

/-! ### Finished programs -/

/-- Whether a jump from an address lands in a program of `size` nodes or just behind it. -/
def lands (size address : Nat) (offset : Int) : Bool :=
  0 ≤ (address : Int) + offset && (address : Int) + offset ≤ size

def escape? (p : Program) : Option Nat :=
  (List.range p.size).find? fun address =>
    match p.nodes[address]? with
    | some node => node.offsets.any fun offset => !lands p.size address offset
    | none => false

def verify (p : Program) : Except Fault Unit :=
  match p.escape? with
  | none => .ok ()
  | some address =>
    .error (.because .internalError ("BRANCH AT " ++ toString address ++ " LEAVES UNIT"))

def aligned (n : Nat) : String :=
  let digits := toString n
  "".pushn ' ' (4 - digits.length) ++ digits

def listing (p : Program) : String :=
  String.join ((List.range p.size).map fun address =>
    match p.nodes[address]? with
    | some node => aligned address ++ " " ++ node.text ++ "\n"
    | none => "")

end Program

end ArrayCommand
