/-
One run of the body of an expression.

The body of a tree is run for every element on the stack of single values.  Whatever is on the stack
before, the nodes of a tree leave one value more on it: the value that the meaning of the tree has
at the element.  The nodes behind them are not touched, so the runs of the parts of a tree can be
put together.

* `Pass` — one run of a body for an element;
* `Pass.Performs`, `Pass.Computes` — what a single node does, and what several nodes do;
* `Realizes` — nodes that compute the values of a meaning, given the operands it was resolved to;
* `Realizes.binary`, `Realizes.guarded`, `Realizes.call` and others — one lemma for each kind of
  tree.
-/

import ArrayCommand.Proofs.Placement
import ArrayCommand.Proofs.Tracking

namespace ArrayCommand

open Machine Meaning Evaluate Stack

variable {fuel pc skip target n k slot depth : Nat} {node : Node} {disjunction decisive : Bool}
  {host : Host} {items : Array Scalar} {s l r : Scalar} {args : List Scalar}
  {want type : ElementType} {w : Workspace} {nodes left : List Node}
  {operands before : List Operand} {shapes : List Shape} {m : Meaning}

/-! ### Unfolding a body -/

def Node.isGuard : Node → Bool
  | .andGuard _ => true
  | .orGuard _ => true
  | _ => false

namespace Evaluate

variable {code : Array Node} {stop : Nat} {operands : Array Operand} {element : Element}
  {base : Nat}

theorem body_stop (h : stop ≤ pc) :
    body code stop operands element base (fuel + 1) pc = pure () := by
  rw [body, if_pos h]

theorem body_plain (hnode : code[pc]? = some node) (hplain : node.isGuard = false)
    (hstop : pc < stop) :
    body code stop operands element base (fuel + 1) pc = (do
      instruction operands element base node
      body code stop operands element base fuel (pc + 1)) := by
  rw [body, if_neg (Nat.not_le.2 hstop)]
  cases node <;> first | contradiction | simp only [hnode]

/-- The guard of a conjunction or of a disjunction. -/
def guard (disjunction : Bool) (skip : Int) : Node :=
  if disjunction then .orGuard skip else .andGuard skip

theorem body_guard (hnode : code[pc]? = some (guard disjunction skip)) (hstop : pc < stop)
    (htarget : pc + skip = target) :
    body code stop operands element base (fuel + 1) pc = (do
      if ← decides disjunction then body code stop operands element base fuel target
      else body code stop operands element base fuel (pc + 1)) := by
  have hjump : jump pc skip = some target := by
    rw [← htarget]
    rfl
  rw [body, if_neg (Nat.not_le.2 hstop)]
  cases disjunction <;> simp only [hnode, guard, hjump, Bool.false_eq_true, if_false, if_true]

end Evaluate

theorem Direct.check_bind {α β σ : Type} (x : Except Fault α) (f : α → Except Fault β) :
    (Direct.check (x >>= f) : EStateM Fault σ β) =
      Direct.check x >>= fun a => Direct.check (f a) := by
  cases x <;> rfl

/-! ### The stack of single values -/

namespace Machine

/-- The machine with another host and other single values on its stack. -/
def holding (m : Machine) (host : Host) (items : Array Scalar) : Machine :=
  { m with host, run := { m.run with items } }

variable {m : Machine}

@[simp] theorem holding_workspace : (m.holding host items).workspace = m.workspace := rfl

theorem pop_holding : onRun pop (m.holding host (items.push s)) = .ok s (m.holding host items) := by
  simp [onRun, pop, holding]

theorem popTwo_holding : onRun popTwo (m.holding host ((items.push l).push r)) =
      .ok (l, r) (m.holding host items) := by
  simp [onRun, popTwo, pop, holding, bind, EStateM.bind, pure, EStateM.pure]

theorem popMany_holding (hn : args.length = n) :
    onRun (popMany n) (m.holding host (items ++ args.toArray)) =
      .ok args.toArray (m.holding host items) := by
  subst hn
  have hsize : ¬ items.size + args.length < args.length := by omega
  simp [onRun, popMany, size, holding, hsize]

theorem decides_ok {b : Bool} (h : s.truth = .ok b) (disjunction : Bool) :
    decides disjunction (m.holding host (items.push s)) =
      .ok (b == disjunction) (m.holding host (if b == disjunction then items.push s else items)) := by
  have htop : (m.holding host (items.push s)).run.items.back? = some s := by simp [holding]
  simp only [decides, get_bind_apply, htop, h, check, pure_bind]
  by_cases hb : b == disjunction
  · simp [hb, pure_apply]
  · simp [hb, bind_ok pop_holding, pure_apply]

theorem decides_error {fault : Fault} (h : s.truth = .error fault) :
    decides disjunction (m.holding host (items.push s)) =
      .error (.fault fault) (m.holding host (items.push s)) := by
  have htop : (m.holding host (items.push s)).run.items.back? = some s := by simp [holding]
  simp only [decides, get_bind_apply, htop, h, check]
  rfl

end Machine

/-! ### One pass of a body -/

/-- One run of a body for an element.  The machine is the one at its start; the values that the pass
pushes come on top of those. -/
structure Pass where
  code : Array Node
  stop : Nat
  operands : Array Operand
  element : Element
  machine : Machine
  short : Prop

namespace Pass

variable {α : Type} (p : Pass)
variable {shown : α → List Scalar} {x : HostM α}

def go (fuel pc : Nat) (host : Host) (items : Array Scalar) :
    Machine.Result Unit :=
  Evaluate.body p.code p.stop p.operands p.element p.machine.run.size fuel pc
    (p.machine.holding host items)

def Kept (m : Machine) : Prop := m.workspace = p.machine.workspace

/-- The pass ends with a value on top of what was on the stack. -/
def Ends : Machine.Result Unit → EStateM.Result Fault Host Scalar → Prop :=
  Tracks Machine.host p.Kept p.short
    fun _ s m => ∃ host, m = p.machine.holding host (p.machine.run.items.push s)

/-- A node does what a computation does, and leaves the values `shown` on the stack. -/
def Performs (node : Node) (items : Array Scalar) (shown : α → Array Scalar) (value : HostM α) :
    Prop :=
  ∀ host, Tracks Machine.host p.Kept p.short
    (fun _ a m => ∃ host, m = p.machine.holding host (shown a))
    (Evaluate.instruction p.operands p.element p.machine.run.size node
      (p.machine.holding host items))
    (value host)

/-- The `n` nodes from an address on push what a computation gives, whatever follows them. -/
def Computes (pc n : Nat) (shown : α → List Scalar) (value : HostM α) : Prop :=
  ∀ (host : Host) (items : Array Scalar) (fuel : Nat) (cont : α → HostM Scalar),
    p.machine.run.size ≤ items.size → (fuel ≤ n → p.short) →
    (∀ a host' fuel', fuel ≤ fuel' + n →
      p.Ends (p.go fuel' (pc + n) host' (items ++ (shown a).toArray)) (cont a host')) →
    p.Ends (p.go fuel pc host items) ((value >>= cont) host)

variable {p}

theorem kept_holding : p.Kept (p.machine.holding host items) := rfl

theorem plain {shown : α → Array Scalar} {value : HostM α} {cont : α → HostM Scalar}
    (hnode : p.code[pc]? = some node) (hplain : node.isGuard = false) (hstop : pc < p.stop)
    (hshort : fuel = 0 → p.short) (hnow : p.Performs node items shown value)
    (hnext : ∀ a host' fuel', fuel ≤ fuel' + 1 →
      p.Ends (p.go fuel' (pc + 1) host' (shown a)) (cont a host')) :
    p.Ends (p.go fuel pc host items) ((value >>= cont) host) := by
  cases fuel with
  | zero => exact .spent (hshort rfl)
  | succ fuel =>
    rw [go, body_plain hnode hplain hstop]
    refine Tracks.bind (hnow host) ?_
    rintro _ a _ ⟨host', rfl⟩
    exact hnext a host' fuel (Nat.le_refl _)

theorem Computes.leaf {value : HostM Scalar} (hnode : p.code[pc]? = some node)
    (hplain : node.isGuard = false) (hstop : pc < p.stop)
    (hnow : ∀ items, p.Performs node items items.push value) :
    p.Computes pc 1 (fun s => [s]) value := by
  intro host items fuel cont _ hshort hnext
  refine plain hnode hplain hstop (fun h => hshort (by omega)) (hnow items) ?_
  intro s host' fuel' hfuel
  simpa using hnext s host' fuel' hfuel

theorem Computes.seq {β : Type} {shown' : β → List Scalar} {y : HostM β}
    (hx : p.Computes pc n shown x) (hy : p.Computes (pc + n) k shown' y) :
    p.Computes pc (n + k) (fun ab => shown ab.1 ++ shown' ab.2) (do return (← x, ← y)) := by
  intro host items fuel cont hbase hshort hnext
  simp only [bind_assoc, pure_bind]
  refine hx host items fuel _ hbase (fun h => hshort (by omega)) ?_
  intro a host' fuel' hfuel
  refine hy host' _ fuel' _ (by simp; omega) (fun h => hshort (by omega)) ?_
  intro b host'' fuel'' hfuel'
  have hitems : items ++ (shown a).toArray ++ (shown' b).toArray =
      items ++ (shown a ++ shown' b).toArray := by simp
  rw [hitems, Nat.add_assoc]
  exact hnext (a, b) host'' fuel'' (by omega)

theorem Computes.andThen {β γ : Type} {shown' : γ → List Scalar} {f : α → HostM β} {g : α → β → γ}
    (hx : p.Computes pc n shown x) (hnode : p.code[pc + n]? = some node)
    (hplain : node.isGuard = false) (hstop : pc + n < p.stop)
    (hnow : ∀ a items, p.machine.run.size ≤ items.size →
      p.Performs node (items ++ (shown a).toArray) (fun b => items ++ (shown' (g a b)).toArray)
        (f a)) :
    p.Computes pc (n + 1) shown' (do
      let a ← x
      return g a (← f a)) := by
  intro host items fuel cont hbase hshort hnext
  simp only [bind_assoc, pure_bind]
  refine hx host items fuel _ hbase (fun h => hshort (by omega)) ?_
  intro a host' fuel' hfuel
  refine plain hnode hplain hstop (fun h => hshort (by omega)) (hnow a items hbase) ?_
  intro b host'' fuel'' hfuel'
  exact hnext (g a b) host'' fuel'' (by omega)

theorem Computes.finish {f : α → HostM Scalar} (hx : p.Computes pc n shown x)
    (hnode : p.code[pc + n]? = some node) (hplain : node.isGuard = false) (hstop : pc + n < p.stop)
    (hnow : ∀ a items, p.machine.run.size ≤ items.size →
      p.Performs node (items ++ (shown a).toArray) items.push (f a)) :
    p.Computes pc (n + 1) (fun s => [s]) (x >>= f) := by
  have h : p.Computes pc (n + 1) (fun s => [s]) (do
      let a ← x
      return (fun _ s => s) a (← f a)) := by
    refine hx.andThen hnode hplain hstop ?_
    intro a items hbase
    simpa using hnow a items hbase
  simpa using h

/-- Nothing at all. -/
theorem Computes.nothing (a : α) (ha : shown a = []) : p.Computes pc 0 shown (pure a) := by
  intro host items fuel cont _ _ hnext
  simpa [ha] using hnext a host fuel (Nat.le_refl _)

/-! ### Nodes -/

theorem push :
    Tracks Machine.host p.Kept p.short
      (fun _ a m => ∃ host, m = p.machine.holding host (items.push a))
      (Machine.onRun (Stack.push s) (p.machine.holding host items)) (.ok s host) := by
  by_cases hroom : items.size + 1 ≤ p.machine.run.limit
  · have hpush : Machine.onRun (Stack.push s) (p.machine.holding host items) =
        .ok () (p.machine.holding host (items.push s)) := by
      simp [Machine.onRun, Stack.push, Stack.check, Stack.size, Machine.holding, hroom]
    rw [hpush]
    exact .value ⟨host, rfl⟩
  · have hpush : Machine.onRun (Stack.push s) (p.machine.holding host items) =
        .error (.fault (.because .stackOverflow p.machine.run.title))
          (p.machine.holding host (items.push s)) := by
      simp [Machine.onRun, Stack.push, Stack.check, Stack.size, Machine.holding, hroom]
    rw [hpush]
    refine .disturbed (.singles (m := p.machine.holding host (items.push s)) ?_)
    simp only [Machine.holding, Stack.size, Array.size_push]
    omega

theorem checkPush {result : Except Fault Scalar} :
    Tracks Machine.host p.Kept p.short
      (fun _ a m => ∃ host, m = p.machine.holding host (items.push a))
      ((Machine.check result >>= fun s => Machine.onRun (Stack.push s))
        (p.machine.holding host items))
      (Direct.check result host) := by
  cases result with
  | ok s => exact push
  | error f => exact .fault rfl

theorem performs_const (s : Scalar) : p.Performs (.const s) items items.push (pure s) :=
  fun _ => push

theorem performs_placeholder :
    p.Performs .placeholder items items.push (pure (.integer (p.element.number + 1))) :=
  fun _ => push

theorem performs_neg (type : ElementType) (s : Scalar) :
    p.Performs (.neg type) (items.push s) items.push (Direct.check s.negate) :=
  fun _ => Tracks.step pop_holding checkPush

theorem performs_not (s : Scalar) :
    p.Performs .not (items.push s) items.push (Direct.check s.complement) :=
  fun _ => Tracks.step pop_holding checkPush

theorem performs_binary (op : BinaryOp) (type : ElementType) (l r : Scalar) :
    p.Performs (.binary op type) ((items.push l).push r) items.push (Direct.check (op.apply l r)) :=
  fun _ => Tracks.step popTwo_holding checkPush

theorem performs_operand {operand : Operand} (hslot : p.operands[slot]? = some operand) :
    p.Performs (.operand slot) items items.push
      (Direct.check (operand.element p.machine.workspace p.element)) := by
  intro host
  have hfetch : fetch p.operands slot p.element (p.machine.holding host items) =
      check (operand.element p.machine.workspace p.element) (p.machine.holding host items) := by
    unfold fetch Operand.element
    simp only [hslot]
    cases operand.source with
    | var var =>
      dsimp only
      rw [bind_apply, valueOf, get_bind_apply, holding_workspace]
      cases p.machine.workspace.memory.value var <;> rfl
    | cell cell => rfl
  simp only [instruction, bind, EStateM.bind, hfetch]
  exact checkPush

theorem performs_coerce {place : Nat} (hplace : items[place]? = some s)
    (hdepth : place + (depth + 1) = items.size) (hword : depth + 1 < wordSize)
    (hbase : p.machine.run.size ≤ place) :
    p.Performs (.coerce want depth) items (items.setIfInBounds place)
      (Direct.check (s.convert want)) := by
  intro host
  have hsize : (p.machine.holding host items).run.size = items.size := rfl
  have hbelow : (depth + 1) % wordSize = depth + 1 := Nat.mod_eq_of_lt hword
  have hat : items.size - (depth + 1) = place := by omega
  have hroom : ¬ items.size < p.machine.run.size + (depth + 1) := by omega
  have hitem : (p.machine.holding host items).run.items[place]? = some s := hplace
  simp only [instruction, coerce, get_bind_apply, hsize, hbelow, hat, if_neg hroom, hitem]
  cases s.convert want with
  | ok s' => exact .value ⟨host, rfl⟩
  | error f => exact .fault rfl

theorem performs_coerce_top (hbase : p.machine.run.size ≤ items.size) :
    p.Performs (.coerce want 0) (items.push s) items.push (Direct.check (s.convert want)) := by
  have hset : (items.push s).setIfInBounds items.size = items.push := by
    funext s'
    simp [Array.setIfInBounds, Array.set_push]
  have hitem : (items.push s)[items.size]? = some s := by simp
  have hsize : items.size + (0 + 1) = (items.push s).size := by simp
  have h : p.Performs (.coerce want 0) (items.push s) _ (Direct.check (s.convert want)) :=
    performs_coerce hitem hsize (by decide) hbase
  rwa [hset] at h

theorem performs_coerce_below (hbase : p.machine.run.size ≤ items.size) :
    p.Performs (.coerce want 1) ((items.push l).push r) (fun s => (items.push s).push r)
      (Direct.check (l.convert want)) := by
  have hlt : items.size < items.size + 1 + 1 := by omega
  have hset : ((items.push l).push r).setIfInBounds items.size =
      fun s => (items.push s).push r := by
    funext s
    simp [Array.setIfInBounds, Array.set_push, hlt]
  have hitem : ((items.push l).push r)[items.size]? = some l := by
    rw [Array.getElem?_push, if_neg (by simp), Array.getElem?_push, if_pos rfl]
  have hsize : items.size + (1 + 1) = ((items.push l).push r).size := by simp
  rw [← hset]
  exact performs_coerce hitem hsize (by decide) hbase

theorem performs_call (func n : Nat) (type : ElementType) (hn : args.length = n) :
    p.Performs (.call func n type) (items ++ args.toArray) items.push
      (Direct.call p.machine.workspace func type args) := by
  intro host
  simp only [instruction, callElement, Direct.call, bind_assoc]
  refine Tracks.bind (Tracks.functionOf kept_holding func) ?_
  rintro f _ _ ⟨rfl, rfl, _⟩
  refine Tracks.step (popMany_holding hn) ?_
  simp only [List.map_toArray]
  refine Tracks.invoke ?_ ?_
  · intro c
    cases c.out with
    | some out => exact checkPush
    | none => exact .fault rfl
  · intro fault c
    exact .fault rfl

theorem takeBetween (text first : Scalar) (last : Option Int) :
    Tracks Machine.host p.Kept p.short
      (fun _ a m => ∃ host, m = p.machine.holding host (items.push a))
      ((do
        let first ← Machine.check (← Machine.onRun Stack.pop).toInteger
        match ← Machine.onRun Stack.pop with
        | .text text =>
          let part ← Machine.check (substring text first (last.getD first))
          Machine.onRun (Stack.push (.text part))
        | _ => Machine.fail (.because .typeMismatch "SUB-STRING OF NON STRING") : MachineM Unit)
        (p.machine.holding host ((items.push text).push first)))
      (Direct.check (first.toInteger >>= fun n => text.between n (last.getD n)) host) := by
  refine Tracks.step Machine.pop_holding ?_
  cases first.toInteger with
  | error fault => exact .fault rfl
  | ok n =>
    refine Tracks.step rfl (Tracks.step Machine.pop_holding ?_)
    cases text with
    | text text =>
      have hpart : (Except.ok n >>= fun n => (Scalar.text text).between n (last.getD n)) =
          (substring text n (last.getD n)).map Scalar.text := rfl
      rw [hpart]
      dsimp only
      cases substring text n (last.getD n) with
      | error fault => exact .fault rfl
      | ok part => exact push
    | float _ | integer _ | logical _ => exact .fault rfl

theorem performs_substring_one (text first : Scalar) :
    p.Performs (.substring 1) ((items.push text).push first) items.push
      (Direct.check (text.part first none)) :=
  fun _ => takeBetween text first none

theorem performs_substring_two (text first last : Scalar) :
    p.Performs (.substring 2) (((items.push text).push first).push last) items.push
      (Direct.check (text.part first (some last))) := by
  intro host
  simp only [instruction, takeSubstring, Scalar.part, if_true]
  refine Tracks.step pop_holding ?_
  cases last.toInteger with
  | error fault => exact .fault rfl
  | ok n => exact takeBetween text first (some n)

/-- A guard whose left value decides goes behind the right side; else the value is taken. -/
theorem guarded {cont other : HostM Scalar}
    (hnode : p.code[pc]? = some (guard decisive skip)) (hstop : pc < p.stop)
    (htarget : pc + skip = target) (hshort : fuel = 0 → p.short)
    (hleft : ∀ fuel', fuel ≤ fuel' + 1 → p.Ends (p.go fuel' target host (items.push s)) (cont host))
    (hright : ∀ fuel', fuel ≤ fuel' + 1 → p.Ends (p.go fuel' (pc + 1) host items) (other host)) :
    p.Ends (p.go fuel pc host (items.push s))
      ((do if (← Direct.check s.truth) == decisive then cont else other : HostM Scalar) host) := by
  cases fuel with
  | zero => exact .spent (hshort rfl)
  | succ fuel =>
    rw [go, body_guard hnode hstop htarget]
    cases htruth : s.truth with
    | error fault =>
      rw [bind_error (decides_error htruth)]
      exact .fault rfl
    | ok b =>
      rw [bind_ok (decides_ok htruth decisive)]
      change p.Ends _ ((if b == decisive then cont else other) host)
      cases b == decisive with
      | true => exact hleft fuel (Nat.le_refl _)
      | false => exact hright fuel (Nat.le_refl _)

/-! ### Conversions and guards -/

/-- A conversion, if it is needed, of one of the values that have been computed. -/
theorem Computes.coerceAt {needed : Bool} {pick : α → Scalar} {put : α → Scalar → α}
    (hput : ∀ a, put a (pick a) = a)
    (hnow : ∀ a items, p.machine.run.size ≤ items.size →
      p.Performs (.coerce want depth) (items ++ (shown a).toArray)
        (fun s => items ++ (shown (put a s)).toArray) (Direct.check ((pick a).convert want)))
    (hx : p.Computes pc n shown x) (hplaced : Placed p.code (pc + n) (coercion needed want depth))
    (hstop : pc + n + (coercion needed want depth).length ≤ p.stop) :
    p.Computes pc (n + (coercion needed want depth).length) shown (do
      let a ← x
      return put a (← Direct.check ((pick a).convertIf needed want))) := by
  cases needed with
  | false => simpa [coercion, Scalar.convertIf, Direct.check, hput] using hx
  | true => exact hx.andThen hplaced.head rfl hstop hnow

/-- A left side, the guard behind it, and a right side that is skipped if the left one decides. -/
theorem Computes.guarded {x y : HostM Scalar} (hx : p.Computes pc n (fun s => [s]) x)
    (hnode : p.code[pc + n]? = some (guard decisive (k + 1 : Nat)))
    (hy : p.Computes (pc + n + 1) k (fun s => [s]) y) (hstop : pc + n < p.stop) :
    p.Computes pc (n + 1 + k) (fun s => [s]) (do
      let a ← x
      if (← Direct.check a.truth) == decisive then return a
      y) := by
  intro host items fuel cont hbase hshort hnext
  rw [bind_assoc]
  refine hx host items fuel _ hbase (fun h => hshort (by omega)) ?_
  intro a host' fuel' hfuel
  have hitems : items ++ [a].toArray = items.push a := by simp
  -- what follows, followed on each side on its own
  have hcont : ((do
      if (← Direct.check a.truth) == decisive then return a
      y : HostM Scalar) >>= cont) =
      (do if (← Direct.check a.truth) == decisive then cont a else y >>= cont) := by
    rw [bind_assoc]
    refine bind_congr fun b => ?_
    cases b == decisive <;> simp
  rw [hitems, hcont]
  have hleft : ∀ fuel'', fuel' ≤ fuel'' + 1 →
      p.Ends (p.go fuel'' (pc + (n + 1 + k)) host' (items.push a)) (cont a host') := by
    intro fuel'' hfuel'
    have h := hnext a host' fuel'' (by omega)
    rwa [hitems] at h
  have hright : ∀ fuel'', fuel' ≤ fuel'' + 1 →
      p.Ends (p.go fuel'' (pc + n + 1) host' items) ((y >>= cont) host') := by
    intro fuel'' hfuel'
    refine hy host' items fuel'' cont hbase (fun h => hshort (by omega)) ?_
    intro b host'' fuel''' hfuel''
    have h := hnext b host'' fuel''' (by omega)
    rwa [show pc + (n + 1 + k) = pc + n + 1 + k by omega] at h
  have htarget : pc + n + (k + 1) = pc + (n + 1 + k) := by omega
  exact Pass.guarded hnode hstop htarget (fun h => hshort (by omega)) hleft hright

end Pass

/-! ### Bodies of trees -/

/-- The nodes of a body compute values at each element, once the operands that they use have been
resolved. -/
structure Realizes {α : Type} (w : Workspace) (nodes : List Node) (slot : Nat)
    (operands : List Operand) (shapes : List Shape) (shown : α → List Scalar)
    (value : Element → HostM α) : Prop where
  shapes_eq : shapes = operands.map fun operand => operand.view.shape
  computes : ∀ (p : Pass) (pc : Nat), p.machine.workspace = w → Placed p.code pc nodes →
    pc + nodes.length ≤ p.stop → Placed p.operands slot operands →
    p.Computes pc nodes.length shown (value p.element)

abbrev RealizesOne (w : Workspace) (nodes : List Node) (slot : Nat) (operands : List Operand)
    (m : Meaning) : Prop :=
  Realizes w nodes slot operands m.shapes (fun s => [s]) m.value

namespace Realizes

variable {α β : Type}
  {shown : α → List Scalar}
  {value : Element → HostM α} {shown' : β → List Scalar}

theorem seq {nodes' : List Node} {operands' : List Operand} {shapes' : List Shape}
    {value' : Element → HostM β} (h : Realizes w nodes slot operands shapes shown value)
    (h' : Realizes w nodes' (slot + operands.length) operands' shapes' shown' value') :
    Realizes w (nodes ++ nodes') slot (operands ++ operands') (shapes ++ shapes')
      (fun ab => shown ab.1 ++ shown' ab.2) (fun element => do
        return (← value element, ← value' element)) where
  shapes_eq := by rw [h.shapes_eq, h'.shapes_eq, List.map_append]
  computes := by
    intro p pc hw hplaced hstop hops
    rw [List.length_append] at hstop ⊢
    exact (h.computes p pc hw hplaced.left (by omega) hops.left).seq
      (h'.computes p _ hw hplaced.right (by omega) hops.right)

theorem finish (node : Node) (f : α → HostM Scalar) (hplain : node.isGuard = false)
    (h : Realizes w nodes slot operands shapes shown value)
    (hnow : ∀ (p : Pass) a items, p.machine.workspace = w → p.machine.run.size ≤ items.size →
      p.Performs node (items ++ (shown a).toArray) items.push (f a)) :
    Realizes w (nodes ++ [node]) slot operands shapes (fun s => [s])
      (fun element => value element >>= f) where
  shapes_eq := h.shapes_eq
  computes := by
    intro p pc hw hplaced hstop hops
    simp only [List.length_append, List.length_singleton] at hstop ⊢
    exact (h.computes p pc hw hplaced.left (by omega) hops).finish hplaced.right.head hplain
      (by omega) fun a items => hnow p a items hw

theorem congr {value' : Element → HostM α} (h : Realizes w nodes slot operands shapes shown value)
    (hvalue : ∀ element, value element = value' element) :
    Realizes w nodes slot operands shapes shown value' where
  shapes_eq := h.shapes_eq
  computes := by
    intro p pc hw hplaced hstop hops
    rw [← hvalue]
    exact h.computes p pc hw hplaced hstop hops

theorem const (s : Scalar) : RealizesOne w [.const s] slot [] (const s) where
  shapes_eq := rfl
  computes := by
    intro p pc _ hplaced hstop _
    exact .leaf hplaced.head rfl hstop fun _ => Pass.performs_const s

theorem placeholder : RealizesOne w [.placeholder] slot [] placeholder where
  shapes_eq := rfl
  computes := by
    intro p pc _ hplaced hstop _
    exact .leaf hplaced.head rfl hstop fun _ => Pass.performs_placeholder

theorem operand (operand : Operand) :
    RealizesOne w [.operand slot] slot [operand] (Meaning.operand w operand) where
  shapes_eq := rfl
  computes := by
    intro p pc hw hplaced hstop hops
    subst hw
    exact .leaf hplaced.head rfl hstop fun _ => Pass.performs_operand hops.head

theorem coerce (h : RealizesOne w nodes slot operands m) :
    RealizesOne w (nodes ++ [.coerce want 0]) slot operands (m.map fun s => s.convert want) :=
  h.finish _ _ rfl fun _ _ _ _ hbase => Pass.performs_coerce_top hbase

theorem neg (h : RealizesOne w nodes slot operands m) :
    RealizesOne w (nodes ++ [.neg type]) slot operands (m.map Scalar.negate) :=
  h.finish _ _ rfl fun _ s _ _ _ => Pass.performs_neg type s

theorem not (h : RealizesOne w nodes slot operands m) :
    RealizesOne w (nodes ++ [.not]) slot operands (m.map Scalar.complement) :=
  h.finish _ _ rfl fun _ s _ _ _ => Pass.performs_not s

variable {l r : Meaning} {right : List Node} {after : List Operand}

theorem coerceAt (needed : Bool) (want : ElementType) (pick : α → Scalar)
    (put : α → Scalar → α) (hput : ∀ a, put a (pick a) = a)
    (hnow : ∀ (p : Pass) a items, p.machine.run.size ≤ items.size →
      p.Performs (.coerce want depth) (items ++ (shown a).toArray)
        (fun s => items ++ (shown (put a s)).toArray) (Direct.check ((pick a).convert want)))
    (h : Realizes w nodes slot operands shapes shown value) :
    Realizes w (nodes ++ coercion needed want depth) slot operands shapes shown
      (fun element => do
        let a ← value element
        return put a (← Direct.check ((pick a).convertIf needed want))) where
  shapes_eq := h.shapes_eq
  computes := by
    intro p pc hw hplaced hstop hops
    rw [List.length_append] at hstop ⊢
    exact (h.computes p pc hw hplaced.left (by omega) hops).coerceAt hput (hnow p) hplaced.right
      (by omega)

theorem binary {op : BinaryOp} {coerceLeft coerceRight : Bool}
    (hl : RealizesOne w left slot before l) (hr : RealizesOne w right (slot + before.length) after r) :
    RealizesOne w (left ++ right ++ coercion coerceLeft type 1 ++ coercion coerceRight type 0 ++
        [.binary op type]) slot (before ++ after)
      (map₂ (op.applyAt type coerceLeft coerceRight) l r) := by
  have hleft := (hl.seq hr).coerceAt coerceLeft type Prod.fst (fun ab s => (s, ab.2))
    (fun _ => rfl) fun _ _ _ hbase => Pass.performs_coerce_below hbase
  have hpair := hleft.coerceAt coerceRight type Prod.snd (fun ab s => (ab.1, s)) (fun _ => rfl)
    fun p ab items hbase => by
      have hsize : p.machine.run.size ≤ (items.push ab.1).size := by simp; omega
      exact Pass.performs_coerce_top hsize
  refine (hpair.finish (.binary op type) (fun ab => Direct.check (op.apply ab.1 ab.2)) rfl
    ?_).congr ?_
  · intro p ab items _ _
    exact Pass.performs_binary op type ab.1 ab.2
  · intro element
    simp only [map₂, BinaryOp.applyAt, bind_assoc, pure_bind, Direct.check_bind]

theorem guarded (decisive : Bool) (hl : RealizesOne w left slot before l)
    (hr : RealizesOne w right (slot + before.length) after r) :
    RealizesOne w (left ++ [guard decisive (right.length + 1 : Nat)] ++ right) slot
      (before ++ after) (guarded decisive l r) where
  shapes_eq := (hl.seq hr).shapes_eq
  computes := by
    intro p pc hw hplaced hstop hops
    simp only [List.length_append, List.length_singleton] at hstop ⊢
    have hright := hplaced.right
    rw [List.length_append, List.length_singleton, ← Nat.add_assoc] at hright
    exact (hl.computes p pc hw hplaced.left.left (by omega) hops.left).guarded
      hplaced.left.right.head (hr.computes p _ hw hright (by omega) hops.right) (by omega)

theorem substringOne (hl : RealizesOne w left slot before l)
    (hr : RealizesOne w right (slot + before.length) after r) :
    RealizesOne w (left ++ right ++ [.substring 1]) slot (before ++ after) (part l r none) := by
  have h := (hl.seq hr).finish (.substring 1) (fun ab => Direct.check (ab.1.part ab.2 none)) rfl
    fun _ ab _ _ _ => Pass.performs_substring_one ab.1 ab.2
  rw [← List.append_nil (l.shapes ++ r.shapes)] at h
  refine h.congr fun element => ?_
  simp only [part, valueOption, bind_assoc, pure_bind]

theorem substringTwo {third : List Node} {behind : List Operand}
    (hl : RealizesOne w left slot before l) (hr : RealizesOne w right (slot + before.length) after r)
    (hm : RealizesOne w third (slot + (before ++ after).length) behind m) :
    RealizesOne w (left ++ right ++ third ++ [.substring 2]) slot (before ++ after ++ behind)
      (part l r (some m)) := by
  have h := ((hl.seq hr).seq hm).finish (.substring 2)
    (fun abc => Direct.check (abc.1.1.part abc.1.2 (some abc.2))) rfl
    fun _ abc _ _ _ => Pass.performs_substring_two abc.1.1 abc.1.2 abc.2
  refine h.congr fun element => ?_
  simp only [part, valueOption, bind_assoc, pure_bind]

theorem map (g : α → β) (hshown : ∀ a, shown' (g a) = shown a)
    (h : Realizes w nodes slot operands shapes shown value) :
    Realizes w nodes slot operands shapes shown' (fun element => do return g (← value element)) where
  shapes_eq := h.shapes_eq
  computes := by
    intro p pc hw hplaced hstop hops host items fuel cont hbase hshort hnext
    simp only [bind_assoc, pure_bind]
    refine h.computes p pc hw hplaced hstop hops host items fuel _ hbase hshort ?_
    intro a host' fuel' hfuel
    simpa only [hshown] using hnext (g a) host' fuel' hfuel

end Realizes

/-- The values of several meanings at an element, as many as there are meanings. -/
def Meaning.values (element : Element) :
    (ms : List Meaning) → HostM { values : List Scalar // values.length = ms.length }
  | [] => return ⟨[], rfl⟩
  | m :: ms => do
    let s ← m.value element
    let ⟨rest, h⟩ ← Meaning.values element ms
    return ⟨s :: rest, congrArg (· + 1) h⟩

theorem Meaning.values_bind {α : Type} (element : Element) (ms : List Meaning)
    (f : List Scalar → HostM α) :
    (values element ms >>= fun values => f values.1) =
      (ms.mapM fun m => m.value element) >>= f := by
  induction ms generalizing f with
  | nil => simp [values]
  | cons m ms ih =>
    simp only [values, bind_assoc, pure_bind, List.mapM_cons]
    refine bind_congr fun s => ?_
    exact ih fun rest => f (s :: rest)

namespace Realizes

variable {ms : List Meaning}

theorem nil : Realizes w [] slot [] [] Subtype.val (fun element => values element []) where
  shapes_eq := rfl
  computes := by
    intro p pc _ _ _ _
    exact .nothing _ rfl

theorem cons (hl : RealizesOne w left slot before m)
    (hr : Realizes w nodes (slot + before.length) operands shapes Subtype.val
      (fun element => Meaning.values element ms)) :
    Realizes w (left ++ nodes) slot (before ++ operands) (m.shapes ++ shapes) Subtype.val
      (fun element => Meaning.values element (m :: ms)) := by
  refine ((hl.seq hr).map (fun ab => ⟨ab.1 :: ab.2.1, congrArg (· + 1) ab.2.2⟩) ?_).congr ?_
  · intro ab
    rfl
  · intro element
    simp only [Meaning.values, bind_assoc, pure_bind]

theorem call {func : Nat} (hn : ms.length = n)
    (h : Realizes w nodes slot operands (ms.map Meaning.shapes).flatten Subtype.val
      (fun element => Meaning.values element ms)) :
    RealizesOne w (nodes ++ [.call func n type]) slot operands (Meaning.call w func type ms) := by
  refine (h.finish (.call func n type) (fun values => Direct.call w func type values.1) rfl
    ?_).congr ?_
  · intro p values items hw _
    subst hw
    exact Pass.performs_call func n type (values.2.trans hn)
  · intro element
    exact Meaning.values_bind element ms _

end Realizes

end ArrayCommand
