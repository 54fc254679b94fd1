/-
The form of programs.

A program is a row of items: control nodes, statement nodes with the expressions that belong to
them, and expressions that leave their value on the stack.  A complete expression is a header and as
many nodes as it counts: first its operands, numbered from zero and each followed by complete
expressions of its own, then its body, in which a guard skips forward and not beyond the end.  Every
jump lands on the first node of an item or just behind the last one, never inside of an item.

Main definitions:

* `Format.Whole`, `Format.Operands`, `Format.Body` — complete expressions and their two parts;
* `Format.IsItem`, `Format.Starts` — the items of a program, and where they start;
* `Format.Sits` — what must stand around a node;
* `Format.WellFormed` — a well-formed program.

Main results:

* `Expr.whole_code` — the nodes of an expression are a complete expression;
* `Statement.lies` — the nodes of a statement are items whose jumps land on items;
* `Format.compile_wellFormed` — **the compiler makes well-formed programs.**
-/

import ArrayCommand.Proofs.ControlFlow

namespace ArrayCommand

open List

open Machine (jump)

variable {slots slot count' own pc target : Nat} {node : Node} {nodes nodes' : List Node} {e : Expr}
  {es : List Expr} {allowed : Nat → Prop} {code : Array Node} {items : List (List Node)}
  {p : Program}

/-! ### Parts of programs -/

/-- The number of expressions that a subscript has. -/
def Axis.bounds : Axis → Nat
  | .all => 0
  | .at => 1
  | .range first last step => first.toNat + last.toNat + step.toNat

/-- The number of expressions that subscripts have. -/
def Axis.boundsOf : List Axis → Nat
  | [] => 0
  | a :: axes => a.bounds + Axis.boundsOf axes

namespace Node

/-- The slot of an operand that is resolved first, and the number of expressions behind it. -/
def operand? : Node → Option (Nat × Nat)
  | .array slot _ cast => some (slot, cast)
  | .index slot _ axes => some (slot, Axis.boundsOf axes)
  | .once slot _ argc _ => some (slot, argc)
  | _ => none

/-- The number of expressions behind a statement node. -/
def statement? : Node → Option Nat
  | .assign _ axes count => some (Axis.boundsOf (axes.getD []) + count)
  | .command _ argc => some argc
  | .declare _ dims => some dims
  | _ => none

/-- Jumps, gates, the nodes of counted loops, and the end of a statement. -/
def isControl : Node → Bool
  | .branch _ => true
  | .branchIfFalse _ => true
  | .gate _ _ => true
  | .via _ _ => true
  | .loopInit _ _ => true
  | .loopCounter _ _ _ => true
  | .stop => true
  | _ => false

def computes (slots : Nat) : Node → Bool
  | .const _ => true
  | .operand slot => slot < slots
  | .placeholder => true
  | .call _ _ _ => true
  | .substring _ => true
  | .coerce _ _ => true
  | .neg _ => true
  | .not => true
  | .binary _ _ => true
  | .andGuard _ => true
  | .orGuard _ => true
  | _ => false

def skip? : Node → Option Int
  | .andGuard skip => some skip
  | .orGuard skip => some skip
  | _ => none

end Node

namespace Format

/-- A body: nodes that compute, with guards that skip forward inside of the body or to its end. -/
structure Body (slots : Nat) (nodes : List Node) : Prop where
  computes : ∀ node ∈ nodes, node.computes slots = true
  lands : ∀ (i : Nat) (node : Node) (skip : Int), nodes[i]? = some node → node.skip? = some skip →
    0 < skip ∧ i + skip ≤ nodes.length

mutual

/-- A complete expression: one that is computed, or one that only passes a variable or a name on. -/
inductive Whole : List Node → Prop
  | computed {slots : Nat} {operands body : List Node} (type : ElementType) :
      Operands 0 slots operands → Body slots body → Whole (headed type slots operands body)
  | passed {access : Access} (type : ElementType) : access ≠ .value →
      Whole (bareHeader type access)

/-- Complete expressions one after another. -/
inductive Wholes : (count : Nat) → List Node → Prop
  | nil : Wholes 0 []
  | cons {count : Nat} {nodes rest : List Node} : Whole nodes → Wholes count rest →
      Wholes (count + 1) (nodes ++ rest)

/-- Operands that are resolved first, numbered from a slot on, each with its own expressions. -/
inductive Operands : (slot count : Nat) → List Node → Prop
  | nil (slot : Nat) : Operands slot 0 []
  | cons {slot count own : Nat} {node : Node} {nodes rest : List Node} :
      node.operand? = some (slot, own) → Wholes own nodes → Operands (slot + 1) count rest →
      Operands slot (count + 1) (node :: (nodes ++ rest))

end

/-- What the machine takes up as one: an expression whose value it puts on the stack, a control
node, or a statement node with its expressions. -/
inductive IsItem : List Node → Prop
  | expression {slots : Nat} {operands body : List Node} (type : ElementType) :
      Operands 0 slots operands → Body slots body → IsItem (headed type slots operands body)
  | control {node : Node} : node.isControl = true → IsItem [node]
  | statement {node : Node} {count : Nat} {nodes : List Node} : node.statement? = some count →
      Wholes count nodes → IsItem (node :: nodes)

/-- The addresses at which items start that begin at an address, and the one behind them. -/
def Starts (pc : Nat) (items : List (List Node)) (target : Nat) : Prop :=
  ∃ front back, items = front ++ back ∧ target = pc + front.flatten.length

/-- What stands behind the header of an expression: its operands and its body, or nothing. -/
def Headed (code : Array Node) (pc : Nat) (header : Header) : Prop :=
  (header.access ≠ .value ∧ header.length = 0 ∧ header.slots = 0) ∨
    header.access = .value ∧ ∃ operands body, header.length = operands.length + body.length ∧
      Placed code (pc + 1) (operands ++ body) ∧ Operands 0 header.slots operands ∧
      Body header.slots body

/-- What must stand around a node.  The header of an expression is followed by its parts, a leap
goes to a gate, and the start of a counted loop is followed by the gate and the counter of that
loop, which lead out of it to the same address. -/
def Sits (code : Array Node) (pc : Nat) : Node → Prop
  | .expr header => Headed code pc header
  | .via offset _ => ∃ gate exit next, jump pc offset = some gate ∧
      code[gate]? = some (.gate exit next)
  | .loopInit counter _ => jump pc counter = some (pc + 2) ∧
      ∃ exit var exit', code[pc + 1]? = some (.gate exit 1) ∧
        code[pc + 2]? = some (.loopCounter var none exit') ∧
        jump (pc + 1) exit = jump (pc + 2) exit'
  | _ => True

/-- A program that consists of items, whose jumps land where items start or at its end, and whose
nodes all sit where they must. -/
structure WellFormed (code : Array Node) : Prop where
  items : ∃ items, code.toList = items.flatten ∧ (∀ item ∈ items, IsItem item) ∧
    ∀ pc node, code[pc]? = some node → ∀ offset ∈ node.offsets,
      ∃ target, jump pc offset = some target ∧ Starts 0 items target
  sits : ∀ pc node, code[pc]? = some node → Sits code pc node

/-! ### Bodies and operands -/

namespace Body

variable {slots' : Nat}

theorem nil (slots : Nat) : Body slots [] := ⟨nofun, fun _ _ _ h => by simp at h⟩

theorem append (h : Body slots nodes) (h' : Body slots nodes') : Body slots (nodes ++ nodes') := by
  refine ⟨forall_mem_append.2 ⟨h.computes, h'.computes⟩, fun i node skip hnode hskip => ?_⟩
  rw [length_append]
  by_cases hi : i < nodes.length
  · rw [getElem?_append_left hi] at hnode
    have := h.lands i node skip hnode hskip
    omega
  · rw [getElem?_append_right (by omega)] at hnode
    have := h'.lands _ node skip hnode hskip
    omega

theorem single (hcomputes : node.computes slots = true) (hskip : node.skip? = none) :
    Body slots [node] := by
  refine ⟨by simpa using hcomputes, fun i other skip hnode hother => ?_⟩
  rw [getElem?_singleton] at hnode
  split at hnode
  · cases hnode
    rw [hskip] at hother
    cases hother
  · cases hnode

theorem guard (hcomputes : node.computes slots = true)
    (hskip : node.skip? = some ((nodes.length : Int) + 1)) (h : Body slots nodes) :
    Body slots (node :: nodes) := by
  refine ⟨forall_mem_cons.2 ⟨hcomputes, h.computes⟩, fun i other skip hnode hother => ?_⟩
  rw [length_cons]
  cases i with
  | zero =>
    rw [getElem?_cons_zero, Option.some.injEq] at hnode
    rw [← hnode, hskip, Option.some.injEq] at hother
    omega
  | succ i =>
    have := h.lands i other skip hnode hother
    omega

theorem mono (hle : slots ≤ slots') (h : Body slots nodes) : Body slots' nodes := by
  refine ⟨fun node hnode => ?_, h.lands⟩
  have hcomputes := h.computes node hnode
  cases node with
  | operand slot =>
    simp only [Node.computes, decide_eq_true_eq] at hcomputes ⊢
    omega
  | _ => exact hcomputes

end Body

theorem Operands.append {count : Nat}
    (h : Operands slot count nodes) (h' : Operands (slot + count) count' nodes') :
    Operands slot (count + count') (nodes ++ nodes') := by
  induction count generalizing slot nodes with
  | zero =>
    cases h
    simpa using h'
  | succ count ih =>
    cases h with
    | cons hnode hown hrest =>
      have hlater := ih hrest (by rwa [Nat.add_assoc, Nat.add_comm 1])
      have hcons := Operands.cons hnode hown hlater
      rw [cons_append, append_assoc]
      rwa [Nat.add_right_comm] at hcons

theorem Operands.single (hnode : node.operand? = some (slot, own)) (hown : Wholes own nodes) :
    Operands slot 1 (node :: nodes) := by
  have h := Operands.cons hnode hown (.nil (slot + 1))
  rwa [append_nil] at h

theorem Wholes.append {count : Nat} (h : Wholes count nodes)
    (h' : Wholes count' nodes') : Wholes (count + count') (nodes ++ nodes') := by
  induction count generalizing nodes with
  | zero =>
    cases h
    simpa using h'
  | succ count ih =>
    cases h with
    | cons hfirst hrest =>
      rw [append_assoc, Nat.add_right_comm]
      exact .cons hfirst (ih hrest)

theorem Wholes.single (h : Whole nodes) : Wholes 1 nodes := by
  have h := Wholes.cons h .nil
  rwa [append_nil] at h

end Format

/-! ### Expressions -/

namespace Expr

open Format

/-- The operands of a tree take its slots, and its body uses no others. -/
structure Formed (e : Expr) : Prop where
  operands : ∀ slot, Operands slot e.slots (e.prologue slot)
  body : ∀ slot, Body (slot + e.slots) (e.body slot)

theorem Formed.whole (h : e.Formed) (type : ElementType) : Whole (e.code type) :=
  .computed type (h.operands 0) (by simpa using h.body 0)

theorem Formed.pair {l r : Expr} (hl : l.Formed) (hr : r.Formed) (slot : Nat) :
    Operands slot (l.slots + r.slots) (l.prologue slot ++ r.prologue (slot + l.slots)) ∧
      Body (slot + (l.slots + r.slots)) (l.body slot) ∧
      Body (slot + (l.slots + r.slots)) (r.body (slot + l.slots)) := by
  refine ⟨(hl.operands slot).append (hr.operands _), (hl.body slot).mono (by omega), ?_⟩
  exact (hr.body (slot + l.slots)).mono (by omega)

theorem formed_option {last : Option Expr} (h : ∀ e ∈ last, e.Formed) (slot : Nat) :
    Operands slot (Expr.slotsOption last) (Expr.prologueOption slot last) ∧
      Body (slot + Expr.slotsOption last) (Expr.bodyOption slot last) := by
  cases last with
  | none => exact ⟨.nil slot, .nil _⟩
  | some e => exact ⟨(h e rfl).operands slot, (h e rfl).body slot⟩

theorem formed_all (h : ∀ e ∈ es, e.Formed) (slot : Nat) :
    Operands slot (Expr.slotsAll es) (Expr.prologues slot es) ∧
      Body (slot + Expr.slotsAll es) (Expr.bodies slot es) := by
  induction es generalizing slot with
  | nil => exact ⟨.nil slot, .nil _⟩
  | cons e es ih =>
    obtain ⟨he, hes⟩ := forall_mem_cons.1 h
    obtain ⟨hoperands, hbodies⟩ := ih hes (slot + e.slots)
    refine ⟨(he.operands slot).append hoperands,
      ((he.body slot).mono ?_).append (hbodies.mono ?_)⟩
    · rw [Expr.slotsAll]
      omega
    · rw [Expr.slotsAll]
      omega

theorem wholes_codes (h : ∀ e ∈ es, e.Formed) : Wholes es.length (Expr.codes es) := by
  induction es with
  | nil => exact .nil
  | cons e es ih =>
    obtain ⟨he, hes⟩ := forall_mem_cons.1 h
    exact .cons (he.whole .integer) (ih hes)

theorem wholes_codeOption {o : Option Expr} (h : ∀ e ∈ o, e.Formed) :
    Wholes o.isSome.toNat (Expr.codeOption o) := by
  cases o with
  | none => exact .nil
  | some e => exact .single ((h e rfl).whole .integer)

theorem wholes_subscripts {subscripts : List Subscript}
    (h : ∀ s ∈ subscripts, ∀ e ∈ s.parts, e.Formed) :
    Wholes (Axis.boundsOf (subscripts.map Subscript.axis)) (Subscript.codes subscripts) := by
  induction subscripts with
  | nil => exact .nil
  | cons s rest ih =>
    obtain ⟨hs, hrest⟩ := forall_mem_cons.1 h
    suffices hfirst : Wholes s.axis.bounds s.code from hfirst.append (ih hrest)
    cases s with
    | all => exact .nil
    | «at» e => exact .single ((hs e mem_cons_self).whole .integer)
    | range first last step =>
      simp only [Subscript.parts, mem_append, Option.mem_toList] at hs
      refine ((wholes_codeOption fun e he => hs e (.inl (.inl he))).append
        (wholes_codeOption fun e he => hs e (.inl (.inr he)))).append
        (wholes_codeOption fun e he => hs e (.inr he))

theorem wholes_arguments {args : List Argument} (h : ∀ a ∈ args, ∀ e ∈ a.parts, e.Formed) :
    Wholes args.length (Argument.codes args) := by
  induction args with
  | nil => exact .nil
  | cons a rest ih =>
    obtain ⟨ha, hrest⟩ := forall_mem_cons.1 h
    refine .cons ?_ (ih hrest)
    cases a with
    | value e type => exact (ha e mem_cons_self).whole type
    | reference var type => exact .passed type (by simp)
    | name text => exact .passed .text (by simp)

theorem formed_operand (node : Nat → Node)
    (hslots : e.slots = 1) (hprologue : ∀ slot, e.prologue slot = node slot :: nodes)
    (hbody : ∀ slot, e.body slot = [.operand slot])
    (hnode : ∀ slot, (node slot).operand? = some (slot, own)) (hown : Wholes own nodes) :
    e.Formed := by
  refine ⟨fun slot => ?_, fun slot => ?_⟩
  · rw [hslots, hprologue]
    exact .single (hnode slot) hown
  · rw [hslots, hbody]
    exact .single (by simp [Node.computes]) rfl

theorem hereditary_formed : Hereditary Formed where
  const value := ⟨.nil, fun _ => .single rfl rfl⟩
  placeholder := ⟨.nil, fun _ => .single rfl rfl⟩
  whole var := formed_operand (.array · var 0) rfl (fun _ => rfl) (fun _ => rfl) (fun _ => rfl) .nil
  cast var extents h :=
    formed_operand (.array · var extents.length) rfl (fun _ => rfl) (fun _ => rfl) (fun _ => rfl)
      (wholes_codes h)
  slice var subscripts h :=
    formed_operand (.index · var _) rfl (fun _ => rfl) (fun _ => rfl) (fun _ => rfl)
      (wholes_subscripts h)
  once func args type h :=
    formed_operand (.once · func args.length type) rfl (fun _ => rfl) (fun _ => rfl) (fun _ => rfl)
      (wholes_arguments h)
  call func args type h :=
    ⟨fun slot => (formed_all h slot).1, fun slot => (formed_all h slot).2.append (.single rfl rfl)⟩
  substring text first last htext hfirst hlast := by
    refine ⟨fun slot => ?_, fun slot => ?_⟩
    · have hpair := (htext.pair hfirst slot).1
      exact hpair.append (by
        rw [← Nat.add_assoc]
        exact (formed_option hlast _).1)
    · obtain ⟨-, htext, hfirst⟩ := htext.pair hfirst slot
      have hlast := (formed_option hlast (slot + text.slots + first.slots)).2
      rw [Expr.slots, Expr.body]
      refine (((htext.mono ?_).append (hfirst.mono ?_)).append (hlast.mono ?_)).append
        (.single rfl rfl) <;> omega
  coerce want e he := ⟨he.operands, fun slot => (he.body slot).append (.single rfl rfl)⟩
  neg type e he := ⟨he.operands, fun slot => (he.body slot).append (.single rfl rfl)⟩
  not e he := ⟨he.operands, fun slot => (he.body slot).append (.single rfl rfl)⟩
  binary op type coerceLeft coerceRight l r hl hr := by
    have hcoercion (slots : Nat) (needed : Bool) (depth : Nat) :
        Body slots (coercion needed type depth) := by
      cases needed
      · exact .nil slots
      · exact .single rfl rfl
    refine ⟨fun slot => (hl.pair hr slot).1, fun slot => ?_⟩
    obtain ⟨-, hleft, hright⟩ := hl.pair hr slot
    exact (((hleft.append hright).append (hcoercion _ _ _)).append (hcoercion _ _ _)).append
      (.single rfl rfl)
  and l r hl hr := by
    refine ⟨fun slot => (hl.pair hr slot).1, fun slot => ?_⟩
    obtain ⟨-, hleft, hright⟩ := hl.pair hr slot
    rw [Expr.body, append_assoc]
    exact hleft.append (.guard rfl rfl hright)
  or l r hl hr := by
    refine ⟨fun slot => (hl.pair hr slot).1, fun slot => ?_⟩
    obtain ⟨-, hleft, hright⟩ := hl.pair hr slot
    rw [Expr.body, append_assoc]
    exact hleft.append (.guard rfl rfl hright)

theorem whole_code (e : Expr) (type : ElementType) : Whole (e.code type) :=
  (hereditary_formed.holds e).whole type

end Expr

namespace Format

/-! ### Nodes in a program -/

/-- Every node from an address up to another sits where it must, and its jumps go to targets that
are allowed. -/
def Fits (allowed : Nat → Prop) (code : Array Node) (pc stop : Nat) : Prop :=
  ∀ i node, pc ≤ i → i < stop → code[i]? = some node →
    Sits code i node ∧
      ∀ offset ∈ node.offsets, ∃ target, jump i offset = some target ∧ allowed target

variable {allowed' : Nat → Prop} {middle stop : Nat}
  {items' : List (List Node)}

namespace Fits

theorem refl : Fits allowed code pc pc := fun _ _ hle hlt => absurd hlt (Nat.not_lt.2 hle)

theorem trans (h : Fits allowed code pc middle) (h' : Fits allowed code middle stop) :
    Fits allowed code pc stop := by
  intro i node hle hlt hnode
  rcases Nat.lt_or_ge i middle with hlow | hhigh
  · exact h i node hle hlow hnode
  · exact h' i node hhigh hlt hnode

theorem single (hnode : code[pc]? = some node) (hsits : Sits code pc node)
    (hjumps : ∀ offset ∈ node.offsets, ∃ target, jump pc offset = some target ∧ allowed target) :
    Fits allowed code pc (pc + 1) := by
  intro i other hle hlt hother
  obtain rfl : i = pc := by omega
  rw [hnode, Option.some.injEq] at hother
  exact hother ▸ ⟨hsits, hjumps⟩

theorem mono (hallowed : ∀ target, allowed target → allowed' target)
    (h : Fits allowed code pc stop) : Fits allowed' code pc stop := by
  intro i node hle hlt hnode
  obtain ⟨hsits, hjumps⟩ := h i node hle hlt hnode
  refine ⟨hsits, fun offset hoffset => ?_⟩
  obtain ⟨target, hjump, htarget⟩ := hjumps offset hoffset
  exact ⟨target, hjump, hallowed target htarget⟩

end Fits

theorem mem_of_placed {i : Nat} (h : Placed code pc nodes) (hle : pc ≤ i)
    (hlt : i < pc + nodes.length) (hnode : code[i]? = some node) : node ∈ nodes := by
  have hat := h (i - pc) (by omega)
  rw [Nat.add_sub_cancel' hle, hnode] at hat
  exact mem_of_getElem? hat.symm

/-- Nothing must stand around the nodes of a body. -/
theorem Body.fits (h : Body slots nodes) (hplaced : Placed code pc nodes) :
    Fits allowed code pc (pc + nodes.length) := by
  intro i node hle hlt hnode
  have hcomputes := h.computes node (mem_of_placed hplaced hle hlt hnode)
  cases node <;> first | (cases hcomputes; done) | exact ⟨trivial, nofun⟩

mutual

/-- Inside of a complete expression every header is followed by its parts, and nothing jumps. -/
theorem Whole.fits : ∀ {pc : Nat} {nodes : List Node}, Whole nodes →
    Placed code pc nodes → Fits allowed code pc (pc + nodes.length)
  | pc, _, @Whole.computed slots operands body type hoperands hbody, hplaced => by
      have hrest : Placed code (pc + 1) (operands ++ body) := hplaced.tail
      have hheader : Fits allowed code pc (pc + 1) :=
        .single hplaced.head (.inr ⟨rfl, operands, body, rfl, hrest, hoperands, hbody⟩) nofun
      have hinner := (hoperands.fits hrest.left).trans (hbody.fits hrest.right)
      have hend : pc + (headed type slots operands body).length =
          pc + 1 + operands.length + body.length := by
        rw [headed, length_cons, length_append]
        omega
      rw [hend]
      exact hheader.trans hinner
  | _, _, .passed _ haccess, hplaced => .single hplaced.head (.inl ⟨haccess, rfl, rfl⟩) nofun

theorem Wholes.fits : ∀ {pc count : Nat} {nodes : List Node},
    Wholes count nodes → Placed code pc nodes → Fits allowed code pc (pc + nodes.length)
  | _, _, _, .nil, _ => .refl
  | _, _, _, .cons hfirst hrest, hplaced => by
      rw [length_append, ← Nat.add_assoc]
      exact (hfirst.fits hplaced.left).trans (hrest.fits hplaced.right)

theorem Operands.fits : ∀ {pc slot count : Nat} {nodes : List Node},
    Operands slot count nodes → Placed code pc nodes → Fits allowed code pc (pc + nodes.length)
  | _, _, _, _, .nil _, _ => .refl
  | pc, _, _, _, @Operands.cons _ _ _ node _ _ hnode hown hrest, hplaced => by
      have hhead : Fits allowed code pc (pc + 1) := by
        cases node <;> first | (cases hnode; done) | exact .single hplaced.head trivial nofun
      have hinner := (hown.fits hplaced.tail.left).trans (hrest.fits hplaced.tail.right)
      rw [length_cons, length_append, Nat.add_comm _ 1, ← Nat.add_assoc, ← Nat.add_assoc]
      exact hhead.trans hinner

end

/-! ### Stretches of programs -/

namespace Starts

theorem first : Starts pc items pc := ⟨[], items, rfl, rfl⟩

theorem finish (h : target = pc + items.flatten.length) : Starts pc items target :=
  ⟨items, [], by simp, h⟩

theorem left (h : Starts pc items target) : Starts pc (items ++ items') target := by
  obtain ⟨front, back, rfl, htarget⟩ := h
  exact ⟨front, back ++ items', append_assoc .., htarget⟩

theorem right (h : Starts middle items' target) (hmiddle : middle = pc + items.flatten.length) :
    Starts pc (items ++ items') target := by
  obtain ⟨front, back, rfl, htarget⟩ := h
  refine ⟨items ++ front, back, (append_assoc ..).symm, ?_⟩
  rw [flatten_append, length_append, htarget, hmiddle, Nat.add_assoc]

end Starts

/-- Nodes in a program that consist of items and whose jumps go to targets that are allowed. -/
structure Stretch (allowed : Nat → Prop) (code : Array Node) (pc : Nat) (nodes : List Node)
    (items : List (List Node)) : Prop where
  flatten : items.flatten = nodes
  formed : ∀ item ∈ items, IsItem item
  fits : Fits allowed code pc (pc + nodes.length)

namespace Stretch

theorem append (h : Stretch allowed code pc nodes items)
    (h' : Stretch allowed code (pc + nodes.length) nodes' items') :
    Stretch allowed code pc (nodes ++ nodes') (items ++ items') := by
  refine ⟨?_, forall_mem_append.2 ⟨h.formed, h'.formed⟩, ?_⟩
  · rw [flatten_append, h.flatten, h'.flatten]
  · rw [length_append, ← Nat.add_assoc]
    exact h.fits.trans h'.fits

theorem mono (hallowed : ∀ target, allowed target → allowed' target)
    (h : Stretch allowed code pc nodes items) : Stretch allowed' code pc nodes items :=
  ⟨h.flatten, h.formed, h.fits.mono hallowed⟩

theorem nil : Stretch allowed code pc [] [] := ⟨rfl, nofun, .refl⟩

theorem expression (e : Expr) (type : ElementType) (hplaced : Placed code pc (e.code type)) :
    Stretch allowed code pc (e.code type) [e.code type] := by
  have hformed := Expr.hereditary_formed.holds e
  refine ⟨by simp, ?_, (e.whole_code type).fits hplaced⟩
  rw [forall_mem_singleton]
  exact .expression type (hformed.operands 0) (by simpa using hformed.body 0)

theorem statement {count : Nat} (hnode : node.statement? = some count) (h : Wholes count nodes)
    (hplaced : Placed code pc (node :: nodes)) :
    Stretch allowed code pc (node :: nodes) [node :: nodes] := by
  have hhead : Fits allowed code pc (pc + 1) := by
    cases node <;> first | (cases hnode; done) | exact .single hplaced.head trivial nofun
  refine ⟨by simp, by simpa using .statement hnode h, ?_⟩
  rw [length_cons, Nat.add_comm _ 1, ← Nat.add_assoc]
  exact hhead.trans (h.fits hplaced.tail)

theorem control (hcontrol : node.isControl = true) (hnode : code[pc]? = some node)
    (hsits : Sits code pc node)
    (hjumps : ∀ offset ∈ node.offsets, ∃ target, jump pc offset = some target ∧ allowed target) :
    Stretch allowed code pc [node] [[node]] :=
  ⟨rfl, by simpa using .control hcontrol, .single hnode hsits hjumps⟩

theorem row {α : Type} {emit : α → List Node} (xs : List α)
    (h : ∀ x ∈ xs, ∀ pc, Placed code pc (emit x) → Stretch allowed code pc (emit x) [emit x])
    (hplaced : Placed code pc (xs.map emit).flatten) :
    Stretch allowed code pc (xs.map emit).flatten (xs.map emit) := by
  induction xs generalizing pc with
  | nil => exact nil
  | cons x xs ih =>
    obtain ⟨hx, hxs⟩ := forall_mem_cons.1 h
    exact (hx pc hplaced.left).append (ih hxs hplaced.right)

end Stretch

end Format

/-! ### Statements -/

open Format Program

variable {gate : Nat}

theorem Typed.stretch_codes (values : List Typed) (hplaced : Placed code pc (Typed.codes values)) :
    Stretch allowed code pc (Typed.codes values) (values.map fun v => v.expr.code v.type) :=
  Stretch.row values (fun v _ _ hv => .expression v.expr v.type hv) hplaced

theorem Typed.wholes_codes (values : List Typed) : Wholes values.length (Typed.codes values) := by
  induction values with
  | nil => exact .nil
  | cons v values ih => exact .cons (v.expr.whole_code v.type) ih

theorem Simple.stretch (s : Simple) (hplaced : Placed code pc s.code) :
    Stretch allowed code pc s.code [s.code] := by
  have hformed := Expr.hereditary_formed.holds
  cases s with
  | assign var subscripts values =>
    refine .statement ?_
      ((Expr.wholes_subscripts fun _ _ e _ => hformed e).append (Typed.wholes_codes values))
      hplaced
    cases subscripts <;> rfl
  | command func args =>
    exact .statement rfl (Expr.wholes_arguments fun _ _ e _ => hformed e) hplaced
  | declare var extents => exact .statement rfl (Expr.wholes_codes fun e _ => hformed e) hplaced

namespace Statement

/-- The nodes of a statement are items whose jumps go to items of the statement, or to its end, or
to the gate of the loop around it. -/
def Lies (code : Array Node) (gate pc : Nat) (s : Statement) : Prop :=
  ∃ items, Stretch (fun target => Starts pc items target ∨ s.Leaps ∧ target = gate) code pc
    (s.code gate pc) items

theorem lands_distance {source : Nat} (hallowed : allowed target)
    (h : source < 0x8000000000000000 ∧ target < 0x8000000000000000) :
    ∃ t, jump source (distance source target) = some t ∧ allowed t :=
  ⟨target, jump_distance h, hallowed⟩

theorem jump_one (pc : Nat) : jump pc 1 = some (pc + 1) := rfl

section Compound

variable {test : Expr} {yes no body first second : Statement}
  (hcode : code.size < 0x8000000000000000)

theorem lies_both (hfirst : first.Lies code gate pc)
    (hsecond : second.Lies code gate (pc + first.size)) :
    (both first second).Lies code gate pc := by
  obtain ⟨items, hfirst⟩ := hfirst
  obtain ⟨items', hsecond⟩ := hsecond
  have hmiddle : pc + first.size = pc + items.flatten.length := by
    rw [hfirst.flatten, length_code]
  refine ⟨items ++ items', (hfirst.mono ?_).append ?_⟩
  · rintro target (h | ⟨hleaps, h⟩)
    · exact .inl h.left
    · exact .inr ⟨.inl hleaps, h⟩
  · rw [length_code]
    refine hsecond.mono ?_
    rintro target (h | ⟨hleaps, h⟩)
    · exact .inl (h.right hmiddle)
    · exact .inr ⟨.inr hleaps, h⟩

include hcode

theorem lies_ifThen (hplaced : Placed code pc ((ifThen test yes).code gate pc))
    (hyes : yes.Lies code gate (pc + test.testSize + 1)) : (ifThen test yes).Lies code gate pc := by
  obtain ⟨items, hyes⟩ := hyes
  have hend := end_le hplaced
  rw [size] at hend
  refine ⟨_, (Stretch.expression test .logical hplaced.left).append
    ((Stretch.control rfl hplaced.right.head trivial ?_).append (hyes.mono ?_))⟩
  · refine forall_mem_singleton.2 (lands_distance (.inl (.finish ?_)) ?_)
    · simp [hyes.flatten, Expr.testSize]
      omega
    · rw [Expr.length_test]
      omega
  · rintro target (h | ⟨hleaps, h⟩)
    · refine .inl (.right (.right h ?_) rfl)
      simp [Expr.testSize]
    · exact .inr ⟨hleaps, h⟩

theorem lies_ifElse (hplaced : Placed code pc ((ifElse test yes no).code gate pc))
    (hyes : yes.Lies code gate (pc + test.testSize + 1))
    (hno : no.Lies code gate (pc + test.testSize + 1 + yes.size + 1)) :
    (ifElse test yes no).Lies code gate pc := by
  obtain ⟨items, hyes⟩ := hyes
  obtain ⟨items', hno⟩ := hno
  have hend := end_le hplaced
  rw [size] at hend
  have hfork := hplaced.right.tail
  have hmiddle := hfork.right.head
  rw [length_code, Expr.length_test] at hmiddle
  refine ⟨[test.code .logical] ++
    ([[.branchIfFalse (distance (pc + test.testSize) (pc + test.testSize + 1 + yes.size + 1))]] ++
      (items ++ ([[.branch (distance (pc + test.testSize + 1 + yes.size)
        (pc + test.testSize + 1 + yes.size + 1 + no.size))]] ++ items'))), ?_⟩
  refine (Stretch.expression test .logical hplaced.left).append
    ((Stretch.control rfl hplaced.right.head trivial ?_).append ((hyes.mono ?_).append ?_))
  · refine forall_mem_singleton.2 (lands_distance (.inl ?_) ?_)
    · refine .right (.right (.right (.right .first ?_) rfl) rfl) rfl
      simp [hyes.flatten, Expr.testSize]
    · rw [Expr.length_test]
      omega
  · rintro target (h | ⟨hleaps, h⟩)
    · refine .inl (.right (.right h.left ?_) rfl)
      simp [Expr.testSize]
    · exact .inr ⟨.inl hleaps, h⟩
  · rw [length_code]
    refine (Stretch.control rfl hmiddle trivial ?_).append (hno.mono ?_)
    · refine forall_mem_singleton.2 (lands_distance (.inl (.finish ?_)) (by omega))
      simp [hyes.flatten, hno.flatten, Expr.testSize]
      omega
    · rintro target (h | ⟨hleaps, h⟩)
      · refine .inl (.right (.right (.right (.right h ?_) rfl) rfl) rfl)
        simp [hyes.flatten, Expr.testSize]
      · exact .inr ⟨.inr hleaps, h⟩

theorem lies_while (hplaced : Placed code pc ((Statement.while test body).code gate pc))
    (hbody : body.Lies code pc (pc + 1 + test.testSize + 1)) :
    (Statement.while test body).Lies code gate pc := by
  obtain ⟨items, hbody⟩ := hbody
  have hend := end_le hplaced
  rw [size] at hend
  have hfork := hplaced.tail.right
  have hback := hfork.tail.right.head
  rw [length_code, Expr.length_test] at hback
  refine ⟨[[.gate (distance pc (pc + 1 + test.testSize + 1 + body.size + 1)) 1]] ++
    ([test.code .logical] ++ ([[.branchIfFalse (distance (pc + 1 + test.testSize)
      (pc + 1 + test.testSize + 1 + body.size + 1))]] ++ (items ++
        [[.branch (distance (pc + 1 + test.testSize + 1 + body.size) (pc + 1))]]))), ?_⟩
  refine (Stretch.control rfl hplaced.head trivial ?_).append
    ((Stretch.expression test .logical hplaced.tail.left).append
      ((Stretch.control rfl hfork.head trivial ?_).append ((hbody.mono ?_).append ?_)))
  · refine forall_mem_cons.2 ⟨lands_distance (.inl (.finish ?_)) (by omega),
      forall_mem_singleton.2 ⟨_, jump_one pc, .inl (Starts.first.right rfl)⟩⟩
    simp [hbody.flatten, Expr.testSize]
    omega
  · refine forall_mem_singleton.2 (lands_distance (.inl (.finish ?_)) ?_)
    · simp [hbody.flatten, Expr.testSize]
      omega
    · rw [Expr.length_test]
      omega
  · rintro target (h | ⟨-, rfl⟩)
    · refine .inl (.right (.right (.right h.left ?_) rfl) rfl)
      simp [Expr.testSize]
    · exact .inl .first
  · rw [length_code]
    refine Stretch.control rfl hback trivial ?_
    exact forall_mem_singleton.2 (lands_distance (.inl (Starts.first.right rfl)) (by omega))

theorem lies_repeat (hplaced : Placed code pc ((Statement.repeat body test).code gate pc))
    (hbody : body.Lies code pc (pc + 1)) : (Statement.repeat body test).Lies code gate pc := by
  obtain ⟨items, hbody⟩ := hbody
  have hend := end_le hplaced
  rw [size] at hend
  have htest := hplaced.tail.right
  have hfork := htest.right.head
  rw [length_code] at htest hfork
  refine ⟨[[.gate (distance pc (pc + 1 + body.size + test.testSize + 1))
    (distance pc (pc + 1 + body.size))]] ++ (items ++ ([test.code .logical] ++
      [[.branchIfFalse (distance (pc + 1 + body.size + test.testSize) (pc + 1))]])), ?_⟩
  refine (Stretch.control rfl hplaced.head trivial ?_).append ((hbody.mono ?_).append ?_)
  · refine forall_mem_cons.2 ⟨lands_distance (.inl (.finish ?_)) (by omega),
      forall_mem_singleton.2 (lands_distance (.inl (.right (.right .first ?_) rfl)) (by omega))⟩
    · simp [hbody.flatten, Expr.testSize]
      omega
    · simp [hbody.flatten]
  · rintro target (h | ⟨-, rfl⟩)
    · exact .inl (h.left.right rfl)
    · exact .inl .first
  · rw [length_code]
    refine (Stretch.expression test .logical htest.left).append
      (Stretch.control rfl hfork trivial ?_)
    refine forall_mem_singleton.2 (lands_distance (.inl (Starts.first.right rfl)) ?_)
    rw [Expr.length_test]
    omega

theorem lies_count {var : Handle} {low high : Typed} {step : Option Typed}
    (hplaced : Placed code pc ((count var low high step body).code gate pc))
    (hbody : body.Lies code (pc + (Typed.codes (loopBounds low high step)).length + 1)
      (pc + (Typed.codes (loopBounds low high step)).length + 3)) :
    (count var low high step body).Lies code gate pc := by
  obtain ⟨items, hbody⟩ := hbody
  have hend := end_le hplaced
  rw [size] at hend
  rw [Lies]
  rw [Statement.code] at hplaced ⊢
  have hbounds : Stretch (fun _ => False) _ _ _ _ :=
    Typed.stretch_codes (loopBounds low high step) hplaced.left
  have hinit := hplaced.right
  have hbody' := hinit.tail.tail.tail
  have hback := hbody'.right.head
  rw [length_code] at hback
  generalize (loopBounds low high step).map (fun v => v.expr.code v.type) = values at hbounds
  generalize Typed.codes (loopBounds low high step) = bounds at *
  refine ⟨values ++
    ([[.loopInit (distance (pc + bounds.length) (pc + bounds.length + 2)) step.isSome]] ++
      ([[.gate (distance (pc + bounds.length + 1) (pc + bounds.length + 3 + body.size + 1)) 1]] ++
        ([[.loopCounter var none
            (distance (pc + bounds.length + 2) (pc + bounds.length + 3 + body.size + 1))]] ++
          (items ++ [[.branch
            (distance (pc + bounds.length + 3 + body.size) (pc + bounds.length + 2))]])))), ?_⟩
  refine (hbounds.mono fun _ => False.elim).append ((Stretch.control rfl hinit.head ?_ ?_).append
    ((Stretch.control rfl hinit.tail.head trivial ?_).append
      ((Stretch.control rfl hinit.tail.tail.head trivial ?_).append ((hbody.mono ?_).append ?_))))
  · refine ⟨jump_distance (by omega), _, _, _, hinit.tail.head, hinit.tail.tail.head, ?_⟩
    rw [jump_distance (by omega), jump_distance (by omega)]
  · refine forall_mem_singleton.2 (lands_distance (.inl ?_) (by omega))
    refine .right (.right (.right .first ?_) rfl) rfl
    simp [hbounds.flatten]
  · refine forall_mem_cons.2 ⟨lands_distance (.inl (.finish ?_)) (by omega),
      forall_mem_singleton.2 ⟨_, jump_one _, .inl ?_⟩⟩
    · simp [hbounds.flatten, hbody.flatten]
      omega
    · refine .right (.right (.right .first ?_) rfl) rfl
      simp [hbounds.flatten]
  · refine forall_mem_singleton.2 (lands_distance (.inl (.finish ?_)) (by omega))
    simp [hbounds.flatten, hbody.flatten]
    omega
  · rintro target (h | ⟨-, rfl⟩)
    · refine .inl (.right (.right (.right (.right h.left ?_) rfl) rfl) rfl)
      simp [hbounds.flatten]
    · refine .inl (.right (.right .first ?_) rfl)
      simp [hbounds.flatten]
  · rw [length_code]
    refine Stretch.control rfl hback trivial ?_
    refine forall_mem_singleton.2 (lands_distance (.inl ?_) (by omega))
    refine .right (.right (.right .first ?_) rfl) rfl
    simp [hbounds.flatten]

end Compound

theorem lies (hcode : code.size < 0x8000000000000000) (s : Statement) : ∀ {gate pc : Nat},
    Placed code pc (s.code gate pc) →
      (s.Leaps → ∃ exit next, code[gate]? = some (.gate exit next)) → s.Lies code gate pc := by
  induction s with
  | nothing => exact fun _ _ => ⟨[], .nil⟩
  | line items =>
    exact fun hplaced _ => ⟨_, Stretch.row items (fun s _ _ hs => s.stretch hs) hplaced⟩
  | leap leave =>
    intro gate pc hplaced hgate
    obtain ⟨exit, next, hgate⟩ := hgate trivial
    have hpc := end_le hplaced
    have hsize := (Array.getElem?_eq_some_iff.1 hgate).1
    rw [size] at hpc
    refine ⟨[[.via (distance pc gate) leave]], Stretch.control rfl hplaced.head ?_ ?_⟩
    · exact ⟨gate, exit, next, jump_distance (by omega), hgate⟩
    · exact forall_mem_singleton.2 (lands_distance (.inr ⟨trivial, rfl⟩) (by omega))
  | stop =>
    intro gate pc hplaced _
    exact ⟨[[.stop]], .control rfl hplaced.head trivial (by simp [Node.offsets])⟩
  | both first second ihf ihs =>
    intro gate pc hplaced hgate
    have hsecond := hplaced.right
    rw [length_code] at hsecond
    exact lies_both (ihf hplaced.left fun h => hgate (.inl h))
      (ihs hsecond fun h => hgate (.inr h))
  | ifThen test yes ih =>
    intro gate pc hplaced hgate
    exact lies_ifThen hcode hplaced (ih hplaced.right.tail hgate)
  | ifElse test yes no ihy ihn =>
    intro gate pc hplaced hgate
    have hno := hplaced.right.tail.right.tail
    rw [length_code] at hno
    exact lies_ifElse hcode hplaced (ihy hplaced.right.tail.left fun h => hgate (.inl h))
      (ihn hno fun h => hgate (.inr h))
  | «while» test body ih =>
    intro gate pc hplaced _
    exact lies_while hcode hplaced
      (ih hplaced.tail.right.tail.left fun _ => ⟨_, _, hplaced.head⟩)
  | «repeat» body test ih =>
    intro gate pc hplaced _
    exact lies_repeat hcode hplaced (ih hplaced.tail.left fun _ => ⟨_, _, hplaced.head⟩)
  | count var low high step body ih =>
    intro gate pc hplaced _
    exact lies_count hcode hplaced
      (ih hplaced.right.tail.tail.tail.left fun _ => ⟨_, _, hplaced.right.tail.head⟩)

end Statement

/-! ### Whole programs -/

theorem Program.verify_of_lands (h : ∀ pc node, p.nodes[pc]? = some node → ∀ offset ∈ node.offsets,
      ∃ target, jump pc offset = some target ∧ target ≤ p.size) : p.verify = .ok () := by
  have hnone : p.escape? = none := by
    rw [Program.escape?, find?_eq_none]
    intro pc _
    cases hnode : p.nodes[pc]? with
    | none => simp
    | some node =>
      simp only [any_eq_true, not_exists, not_and, Bool.not_eq_true', Bool.not_eq_false]
      intro offset hoffset
      obtain ⟨target, hjump, hle⟩ := h pc node hnode offset hoffset
      unfold jump at hjump
      split at hjump
      · rename_i heq
        cases hjump
        simp only [Program.lands, heq, Int.ofNat_eq_natCast, Bool.and_eq_true, decide_eq_true_eq]
        omega
      · cases hjump
  rw [Program.verify, hnone]

namespace Format

theorem Starts.le (h : Starts pc items target) : target ≤ pc + items.flatten.length := by
  obtain ⟨front, back, rfl, rfl⟩ := h
  rw [flatten_append, length_append]
  omega

theorem wellFormed_code {s : Statement} (hleaps : ¬ s.Leaps)
    (hsize : s.size < 0x8000000000000000) : WellFormed (s.code 0 0).toArray := by
  have hlength : (s.code 0 0).toArray.size = s.size := by simp
  obtain ⟨items, hstretch⟩ :=
    s.lies (by rwa [hlength]) (placed_toArray (s.code 0 0)) fun h => absurd h hleaps
  have hfits : ∀ pc node, (s.code 0 0).toArray[pc]? = some node → _ := fun pc node hnode =>
    hstretch.fits pc node (Nat.zero_le pc)
      (by simpa using (Array.getElem?_eq_some_iff.1 hnode).1) hnode
  refine ⟨⟨items, hstretch.flatten.symm, hstretch.formed, ?_⟩,
    fun pc node hnode => (hfits pc node hnode).1⟩
  intro pc node hnode offset hoffset
  obtain ⟨target, hjump, hstarts | ⟨hleap, -⟩⟩ := (hfits pc node hnode).2 offset hoffset
  · exact ⟨target, hjump, hstarts⟩
  · exact absurd hleap hleaps

theorem WellFormed.verify (h : WellFormed p.nodes) : p.verify = .ok () := by
  obtain ⟨items, hitems, -, hlands⟩ := h.items
  refine Program.verify_of_lands fun pc node hnode offset hoffset => ?_
  obtain ⟨target, hjump, hstarts⟩ := hlands pc node hnode offset hoffset
  have hle := hstarts.le
  rw [← hitems, Array.length_toList, Nat.zero_add] at hle
  exact ⟨target, hjump, hle⟩

theorem compile_formed {σ : Type} {source : LineSource σ} {maxName fuel : Nat} {line : String}
    {c c' : Compiler σ} (hempty : c.program.nodes = #[]) (hloops : c.loops = [])
    (hsize : c'.program.size < 0x8000000000000000)
    (h : Compiler.compile source maxName fuel line c = .ok () c') :
    WellFormed c'.program.nodes := by
  obtain ⟨lines, tree, -, -, hleaps, hnodes, -⟩ := compile_ok hempty hloops h
  rw [Program.size, hnodes, size_toArray, Statement.length_code] at hsize
  exact hnodes ▸ wellFormed_code hleaps hsize

/-- The compiler makes well-formed programs.  A program that it makes of the lines of a statement is
not longer than it may be, all its jumps stay inside of it, and it consists of items to whose first
nodes the jumps go. -/
theorem compile_wellFormed {σ : Type} (source : LineSource σ) (maxName fuel : Nat) (line : String)
    (c c' : Compiler σ) (hempty : c.program.nodes = #[]) (hloops : c.loops = [])
    (hsize : c'.program.size < 0x8000000000000000)
    (h : Compiler.compile source maxName fuel line c = .ok () c') :
    c'.program.size ≤ c.program.limit ∧ c'.program.verify = .ok () ∧
      WellFormed c'.program.nodes := by
  obtain ⟨lines, tree, -, -, -, -, hlimit⟩ := compile_ok hempty hloops h
  have hformed := compile_formed hempty hloops hsize h
  exact ⟨hlimit, hformed.verify, hformed⟩

theorem compile_wellFormed_continue :
    ∃ c', Compiler.compile .ofList 8 3 "do i = 1, 3" (.start ["continue", "end do"]) = .ok () c' ∧
      c'.program.size = 9 ∧ WellFormed c'.program.nodes := by
  have hcode : (match Compiler.compile .ofList 8 3 "do i = 1, 3"
      (.start ["continue", "end do"]) with
    | .ok _ c => decide (c.program.size = 9)
    | .error _ _ => false) = true := by decide +kernel
  generalize hrun : Compiler.compile .ofList 8 3 "do i = 1, 3" (.start ["continue", "end do"]) =
    result at hcode
  cases result with
  | error failure c' => cases hcode
  | ok _ c' =>
    have hsize : c'.program.size = 9 := of_decide_eq_true hcode
    obtain ⟨-, -, hformed⟩ := compile_wellFormed .ofList 8 3 "do i = 1, 3" _ c' rfl rfl
      (by rw [hsize]; decide) hrun
    exact ⟨c', rfl, hsize, hformed⟩

end Format

end ArrayCommand
