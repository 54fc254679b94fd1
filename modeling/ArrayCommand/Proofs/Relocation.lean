/-
Programs in other places.

Every jump is a distance and no part of a program looks at what stands outside of it, so a program
does the same wherever it stands.  In particular two programs that stand one behind the other are
run one after the other.

Two runs are compared node by node.  They may stand at different addresses of different programs; the
machines differ in nothing but the addresses under which the states of counted loops are kept.

* `Beside`, `Together`, `InStep` — machines, results and computations side by side;
* `Evaluate.inStep_expression` — a complete expression has the same value wherever it stands;
* `Control.inStep_step` — a node does the same inside of a longer program;
* `Control.runFrom_inside`, `Control.runFrom_last` — runs of a program inside of a longer one;
* `Control.inTurn`, `Control.run_append` — two programs in turn, and **programs one behind the other
  are run one after the other.**
-/

import ArrayCommand.Proofs.Format
import ArrayCommand.Proofs.Fuel

namespace ArrayCommand

open Machine Format List Evaluate

variable {c : Prop} {fault : Fault} {code code' : Array Node} {nodes : List Node}
  {n k pc pc' count argc fuel d : Nat} {axes : List Axis} {offset : Int} {K L : Counters}
  {m m' : Machine} {r : Result Flow}

/-! ### Runs side by side -/

/-- Two machines that differ only in the states of their counted loops, which are related. -/
def Beside (Q : Counters → Counters → Prop) (m m' : Machine) : Prop :=
  ∃ counters, Q m.counters counters ∧ m' = { m with counters }

/-- Two results that belong together. -/
inductive Together {α β : Type} (Q : Counters → Counters → Prop) (R : α → β → Prop) :
    Machine.Result α → Machine.Result β → Prop
  | value {a : α} {b : β} {m m' : Machine} : R a b → Beside Q m m' →
      Together Q R (.ok a m) (.ok b m')
  | failure {f : Failure} {m m' : Machine} : Beside Q m m' →
      Together Q R (.error f m) (.error f m')

/-- Two computations whose results belong together, on machines side by side. -/
def InStep {α β : Type} (Q : Counters → Counters → Prop) (R : α → β → Prop) (x : MachineM α)
    (y : MachineM β) : Prop :=
  ∀ m m', Beside Q m m' → Together Q R (x m) (y m')

/-- The same value, with one address in one program and another one in the other program. -/
def Arrive {α : Type} (pc pc' : Nat) (r r' : α × Nat) : Prop :=
  r.1 = r'.1 ∧ r.2 = pc ∧ r'.2 = pc'

theorem arrive_append {α : Type} (pc pc' : Nat) (front back : List Node) :
    Arrive (pc + (front ++ back).length) (pc' + (front ++ back).length) =
      @Arrive α (pc + front.length + back.length) (pc' + front.length + back.length) := by
  rw [length_append, Nat.add_assoc, Nat.add_assoc]

variable {Q : Counters → Counters → Prop}

namespace InStep

variable {α β γ δ : Type} {R : α → β → Prop} {S : γ → δ → Prop} {x : MachineM α} {y : MachineM β}
  {f : α → MachineM γ}

theorem pure {a : α} {b : β} (h : R a b) : InStep Q R (pure a) (pure b) :=
  fun _ _ hm => .value h hm

theorem throw (f : Failure) : InStep Q R (throw f) (throw f) := fun _ _ hm => .failure hm

theorem fail (f : Fault) : InStep Q R (fail f) (fail f) := .throw _

theorem malformed (detail : String) : InStep Q R (malformed detail) (malformed detail) :=
  .throw _

theorem bind {g : β → MachineM δ} (h : InStep Q R x y)
    (hfg : ∀ a b, R a b → InStep Q S (f a) (g b)) : InStep Q S (x >>= f) (y >>= g) := by
  intro m m' hm
  have hxy := h m m' hm
  rw [bind_apply, bind_apply]
  generalize x m = rx at hxy
  generalize y m' = ry at hxy
  cases hxy with
  | value hab hm => exact hfg _ _ hab _ _ hm
  | failure hm => exact .failure hm

theorem seq {y : MachineM α} {g : α → MachineM δ} (h : InStep Q Eq x y)
    (hfg : ∀ a, InStep Q S (f a) (g a)) : InStep Q S (x >>= f) (y >>= g) :=
  .bind h fun a _ hab => hab ▸ hfg a

theorem ite [Decidable c] {x' : MachineM α} {y' : MachineM β} (h : InStep Q R x y)
    (h' : InStep Q R x' y') : InStep Q R (if c then x else x') (if c then y else y') := by
  by_cases hc : c
  · rw [if_pos hc, if_pos hc]
    exact h
  · rw [if_neg hc, if_neg hc]
    exact h'

theorem failing (fault : Fault) (f : α → MachineM γ) (g : α → MachineM δ) :
    InStep Q S (Machine.fail fault >>= f) (Machine.fail fault >>= g) :=
  fun _ _ hm => .failure hm

theorem guarded [Decidable c] {f : PUnit → MachineM γ}
    {g : PUnit → MachineM δ} (hfg : InStep Q S (f ⟨⟩) (g ⟨⟩)) :
    InStep Q S (if c then Machine.fail fault >>= f else f ⟨⟩)
      (if c then Machine.fail fault >>= g else g ⟨⟩) :=
  .ite (.failing fault f g) hfg

/-- Nothing but the counters can differ in what is read. -/
theorem reading {f : Machine → MachineM γ} {g : Machine → MachineM δ}
    (h : ∀ m counters, Q m.counters counters →
      InStep Q S (f m) (g { m with counters })) :
    InStep Q S (get >>= f) (get >>= g) := by
  rintro m _ ⟨counters, hQ, rfl⟩
  exact h m counters hQ m _ ⟨counters, hQ, rfl⟩

theorem check (result : Except Fault α) : InStep Q Eq (check result) (check result) := by
  cases result with
  | ok a => exact .pure rfl
  | error fault => exact .fail fault

theorem modify {f : Machine → Machine} (hcounters : ∀ m, (f m).counters = m.counters)
    (hf : ∀ (m : Machine) counters, f { m with counters } = { f m with counters }) :
    InStep Q Eq (modify f : MachineM PUnit) (modify f) := by
  rintro m _ ⟨counters, hQ, rfl⟩
  refine .value rfl ⟨counters, ?_, hf m counters⟩
  rwa [hcounters]

theorem onRun (step : EStateM Fault (Stack Scalar) α) : InStep Q Eq (onRun step) (onRun step) := by
  rintro m _ ⟨counters, hQ, rfl⟩
  rw [Machine.onRun, Machine.onRun]
  cases step m.run with
  | ok a run => exact .value rfl ⟨counters, hQ, rfl⟩
  | error fault run => exact .failure ⟨counters, hQ, rfl⟩

theorem onValues (step : EStateM Fault (Stack Cell) α) :
    InStep Q Eq (onValues step) (onValues step) := by
  rintro m _ ⟨counters, hQ, rfl⟩
  rw [Machine.onValues, Machine.onValues]
  cases step m.values with
  | ok a run => exact .value rfl ⟨counters, hQ, rfl⟩
  | error fault run => exact .failure ⟨counters, hQ, rfl⟩

theorem valueOf (var : Handle) : InStep Q Eq (valueOf var) (valueOf var) :=
  .reading fun _ _ _ => .check _

theorem update (var : Handle) (value : Cell) : InStep Q Eq (update var value) (update var value) :=
  .modify (fun _ => rfl) fun _ _ => rfl

theorem functionOf (func : Nat) : InStep Q Eq (functionOf func) (functionOf func) := by
  refine .reading fun m _ _ => ?_
  cases m.workspace.functions[func]? with
  | none => exact .malformed _
  | some f => exact .pure rfl

theorem checkInterrupt : InStep Q Eq checkInterrupt checkInterrupt :=
  .reading fun _ _ _ => .ite (.fail _) (.pure rfl)

theorem invoke (f : Function) (args : Array Cell) (out : Option Cell) :
    InStep Q Eq (invoke f args out) (invoke f args out) := by
  rintro m _ ⟨counters, hQ, rfl⟩
  rw [Machine.invoke, get_bind_apply, get_bind_apply]
  cases f.native ⟨m.host, args, out⟩ with
  | ok _ c => exact .value rfl ⟨counters, hQ, rfl⟩
  | error fault c => exact .value rfl ⟨counters, hQ, rfl⟩

end InStep

/-- Two readers that find the same wherever some nodes stand, and go on behind them. -/
def Alike {α : Type} (Q : Counters → Counters → Prop)
    (code code' : Array Node) (nodes : List Node) (x y : Nat → MachineM (α × Nat)) : Prop :=
  ∀ ⦃pc pc' : Nat⦄, Placed code pc nodes → Placed code' pc' nodes →
    InStep Q (Arrive (pc + nodes.length) (pc' + nodes.length)) (x pc) (y pc')

namespace Alike

variable {α β : Type} {front back : List Node}
  {x y : Nat → MachineM (α × Nat)} {f g : α × Nat → MachineM (β × Nat)}

theorem pure (a : α) : Alike Q code code' [] (fun pc => pure (a, pc)) fun pc => pure (a, pc) :=
  fun _ _ _ _ => .pure ⟨rfl, rfl, rfl⟩

theorem bind (h : Alike Q code code' front x y)
    (hf : ∀ a, Alike Q code code' back (fun pc => f (a, pc)) fun pc => g (a, pc)) :
    Alike Q code code' (front ++ back) (fun pc => x pc >>= f) fun pc => y pc >>= g := by
  intro pc pc' hplaced hplaced'
  refine .bind (h hplaced.left hplaced'.left) ?_
  rintro ⟨a, _⟩ ⟨_, _⟩ ⟨rfl, rfl, rfl⟩
  have hback := hf a hplaced.right hplaced'.right
  rwa [Nat.add_assoc, Nat.add_assoc, ← length_append] at hback

theorem last (h : Alike Q code code' nodes x y)
    (hf : ∀ a, Alike Q code code' [] (fun pc => f (a, pc)) fun pc => g (a, pc)) :
    Alike Q code code' nodes (fun pc => x pc >>= f) fun pc => y pc >>= g := by
  have hall := h.bind hf
  rwa [append_nil] at hall

theorem step {x y : MachineM α} {f g : α → Nat → MachineM (β × Nat)} (h : InStep Q Eq x y)
    (hf : ∀ a, Alike Q code code' nodes (f a) (g a)) :
    Alike Q code code' nodes (fun pc => x >>= fun a => f a pc) fun pc =>
      y >>= fun a => g a pc :=
  fun _ _ hplaced hplaced' => .seq h fun a => hf a hplaced hplaced'

theorem guarded [Decidable c] {f g : PUnit → Nat → MachineM (β × Nat)}
    (hf : Alike Q code code' nodes (f ⟨⟩) (g ⟨⟩)) :
    Alike Q code code' nodes (fun pc => if c then fail fault >>= (f · pc) else f ⟨⟩ pc)
      fun pc => if c then fail fault >>= (g · pc) else g ⟨⟩ pc :=
  fun _ _ hplaced hplaced' => .guarded (hf hplaced hplaced')

end Alike

/-! ### Parts of expressions -/

namespace Format

theorem Whole.header (h : Whole nodes) :
    ∃ header rest, nodes = .expr header :: rest ∧ header.length = rest.length := by
  cases h with
  | computed type hoperands hbody => exact ⟨_, _, rfl, (length_append ..).symm⟩
  | passed type haccess => exact ⟨_, _, rfl, rfl⟩

theorem Wholes.split (h : Wholes (n + k) nodes) :
    ∃ front back, nodes = front ++ back ∧ Wholes n front ∧ Wholes k back := by
  induction n generalizing nodes with
  | zero => exact ⟨[], nodes, rfl, .nil, by rwa [Nat.zero_add] at h⟩
  | succ n ih =>
    rw [Nat.add_right_comm] at h
    cases h with
    | @cons _ nodes rest hfirst hrest =>
      obtain ⟨front, back, rfl, hfront, hback⟩ := ih hrest
      exact ⟨nodes ++ front, back, (append_assoc ..).symm, .cons hfirst hfront, hback⟩

theorem Wholes.zero (h : Wholes 0 nodes) : nodes = [] := by
  cases h
  rfl

theorem Wholes.one (h : Wholes 1 nodes) : Whole nodes := by
  cases h with
  | cons hfirst hrest =>
    rw [hrest.zero, append_nil]
    exact hfirst

end Format

namespace Evaluate

/-! ### Nested expressions -/

section Nested

variable {sub sub' : Sub}

/-- Readers of nested expressions that find the same values wherever an expression stands. -/
def SubInStep (Q : Counters → Counters → Prop)
    (code code' : Array Node) (sub sub' : Sub) : Prop :=
  ∀ ⦃nodes : List Node⦄ ⦃pc pc' : Nat⦄ (fill : Option Shape), Whole nodes → Placed code pc nodes →
    Placed code' pc' nodes → InStep Q Eq (sub pc fill) (sub' pc' fill)

/-- Two programs of admissible size with such readers. -/
structure Twins (Q : Counters → Counters → Prop)
    (code code' : Array Node) (sub sub' : Sub) : Prop where
  sub : SubInStep Q code code' sub sub'
  size : code.size < wordSize
  size' : code'.size < wordSize

variable (htwins : Twins Q code code' sub sub')

include htwins

theorem alike_nestedWith (fill : Option Shape) (h : Whole nodes) :
    Alike Q code code' nodes (nestedWith sub code · fill) (nestedWith sub' code' · fill) := by
  intro pc pc' hplaced hplaced'
  have hvalue := htwins.sub fill h hplaced hplaced'
  obtain ⟨header, rest, rfl, hlength⟩ := h.header
  have hle := hplaced.le_size (by simp)
  have hle' := hplaced'.le_size (by simp)
  have hsize := htwins.size
  have hsize' := htwins.size'
  rw [length_cons] at hle hle'
  have hat : lengthAt code pc = pure header.length := by rw [lengthAt, hplaced.head]
  have hat' : lengthAt code' pc' = pure header.length := by rw [lengthAt, hplaced'.head]
  dsimp only
  rw [nestedWith, nestedWith, hat, hat', pure_bind, pure_bind, behind_eq (by omega),
    behind_eq (by omega)]
  refine .seq hvalue fun cell => .pure ⟨rfl, ?_, ?_⟩
  · rw [hlength, length_cons]
    omega
  · rw [hlength, length_cons]
    omega

theorem alike_integerWith (h : Whole nodes) :
    Alike Q code code' nodes (integerWith sub code) (integerWith sub' code') :=
  .last (alike_nestedWith htwins none h) fun _ => .step (.check _) fun _ => .pure _

theorem alike_optionWith {there : Bool} (h : Wholes there.toNat nodes) :
    Alike Q code code' nodes (optionWith sub code · there) (optionWith sub' code' · there) := by
  cases there with
  | false =>
    obtain rfl := h.zero
    exact .pure _
  | true => exact .last (alike_integerWith htwins h.one) fun _ => .pure _

theorem alike_axisWith (axis extent : Nat) {a : Axis} (h : Wholes a.bounds nodes) :
    Alike Q code code' nodes (axisWith sub code · axis extent a)
      (axisWith sub' code' · axis extent a) := by
  cases a with
  | all =>
    obtain rfl := h.zero
    exact .step (.check _) fun _ => .pure _
  | «at» =>
    exact .last (alike_integerWith htwins h.one) fun _ => .step (.check _) fun _ => .pure _
  | range hasFirst hasLast hasStep =>
    obtain ⟨front, step, rfl, hfront, hstep⟩ := Wholes.split h
    obtain ⟨first, last, rfl, hfirst, hlast⟩ := Wholes.split hfront
    rw [append_assoc]
    refine .bind (alike_optionWith htwins hfirst) fun _ => .bind (alike_optionWith htwins hlast)
      fun _ => .last (alike_optionWith htwins hstep) fun _ => ?_
    exact .guarded (.step (.check _) fun _ => .pure _)

theorem alike_axesWith (shape : Shape) (axis : Nat) (base : Int)
    (h : Wholes (Axis.boundsOf axes) nodes) :
    Alike Q code code' nodes (axesWith sub code shape · axis base axes)
      (axesWith sub' code' shape · axis base axes) := by
  induction axes generalizing axis base nodes with
  | nil =>
    obtain rfl := h.zero
    exact .pure _
  | cons a rest ih =>
    obtain ⟨first, later, rfl, hfirst, hlater⟩ := Wholes.split h
    exact .bind (alike_axisWith htwins axis _ hfirst) fun _ => .step (.check _) fun _ =>
      .last (ih _ _ hlater) fun _ => .pure _

theorem alike_sectionWith (shape : Shape) (h : Wholes (Axis.boundsOf axes) nodes) :
    Alike Q code code' nodes (sectionWith sub code · shape axes)
      (sectionWith sub' code' · shape axes) := by
  unfold sectionWith
  exact .guarded (.last (alike_axesWith htwins shape 0 0 h) fun _ => .step (.check _) fun _ => .pure _)

theorem alike_extentsWith (h : Wholes count nodes) :
    Alike Q code code' nodes (extentsWith sub code count) (extentsWith sub' code' count) := by
  induction count generalizing nodes with
  | zero =>
    obtain rfl := h.zero
    exact .pure _
  | succ count ih =>
    cases h with
    | cons hfirst hrest =>
      exact .bind (alike_integerWith htwins hfirst) fun _ =>
        .guarded (.last (ih hrest) fun _ => .pure _)

theorem alike_arrayWith (var : Handle) {cast : Nat} (h : Wholes cast nodes) :
    Alike Q code code' nodes (arrayWith sub code · var cast)
      (arrayWith sub' code' · var cast) := by
  refine .step (.valueOf var) fun value => ?_
  by_cases hzero : cast = 0
  · subst hzero
    obtain rfl := h.zero
    exact .pure _
  · simp only [if_neg hzero]
    exact .last (alike_extentsWith htwins h) fun extents =>
      .step (.check (Shape.ofDims extents)) fun _ => .guarded (.pure _)

theorem inStep_argumentsWith (f : Function) (index : Nat) (h : Wholes count nodes)
    (hplaced : Placed code pc nodes) (hplaced' : Placed code' pc' nodes) :
    InStep Q (fun p p' => p = pc + nodes.length ∧ p' = pc' + nodes.length)
      (argumentsWith sub code f count index pc) (argumentsWith sub' code' f count index pc') := by
  induction count generalizing index nodes pc pc' with
  | zero =>
    obtain rfl := h.zero
    exact .pure ⟨rfl, rfl⟩
  | succ count ih =>
    cases h with
    | cons hfirst hrest =>
      refine .bind (alike_nestedWith htwins none hfirst hplaced.left hplaced'.left) ?_
      rintro ⟨cell, _⟩ ⟨_, _⟩ ⟨rfl, rfl, rfl⟩
      refine .seq (.check _) fun _ => .seq (.onValues _) fun _ => ?_
      have hlater := ih (index + 1) hrest hplaced.right hplaced'.right
      rwa [Nat.add_assoc, Nat.add_assoc, ← length_append] at hlater

theorem alike_onceWith (func : Nat) (type : ElementType) (h : Wholes argc nodes) :
    Alike Q code code' nodes (onceWith sub code · func argc type)
      (onceWith sub' code' · func argc type) := by
  intro pc pc' hplaced hplaced'
  refine .seq (.functionOf func) fun f => .reading fun m _ _ => ?_
  refine .bind (inStep_argumentsWith htwins f 0 h hplaced hplaced') ?_
  rintro _ _ ⟨rfl, rfl⟩
  refine .reading fun m₁ _ _ => .seq (.check _) fun args => .seq (.invoke f args _) ?_
  rintro ⟨_, out, fault?⟩
  refine .seq (.modify (fun _ => rfl) fun _ _ => rfl) fun _ => ?_
  cases fault? with
  | some fault => exact .fail fault
  | none =>
    refine .ite (.seq (.pure rfl) fun _ => ?_) (.seq (.check _) fun _ => ?_)
    · exact .pure ⟨rfl, rfl, rfl⟩
    · exact .pure ⟨rfl, rfl, rfl⟩

theorem alike_operandsWith {slot : Nat} (h : Operands slot count nodes) :
    Alike Q code code' nodes (operandsWith sub code count) (operandsWith sub' code' count) := by
  induction count generalizing slot nodes with
  | zero =>
    cases h
    exact .pure _
  | succ count ih =>
    cases h with
    | @cons _ _ own node nodes rest hnode hown hrest =>
      intro pc pc' hplaced hplaced'
      rw [operandsWith, operandsWith, hplaced.head, hplaced'.head, length_cons,
        ← Nat.succ_add_eq_add_succ, ← Nat.succ_add_eq_add_succ]
      have hlater (operand : Operand) : Alike Q code code' rest
          (fun pc => operandsWith sub code count pc >>= fun s => pure (operand :: s.1, s.2))
          fun pc => operandsWith sub' code' count pc >>= fun s => pure (operand :: s.1, s.2) :=
        .last (ih hrest) fun operands => .pure (operand :: operands)
      cases node with
      | array slot var cast =>
        cases hnode
        exact (alike_arrayWith htwins var hown).bind hlater hplaced.tail hplaced'.tail
      | index slot var axes =>
        cases hnode
        refine .seq (.valueOf var) fun value => ?_
        exact (alike_sectionWith htwins _ hown).bind (fun _ => hlater _) hplaced.tail
          hplaced'.tail
      | once slot func argc type =>
        cases hnode
        exact (alike_onceWith htwins func type hown).bind hlater hplaced.tail hplaced'.tail
      | _ => cases hnode

end Nested

/-! ### Bodies -/

theorem inStep_callElement (func argc : Nat) (type : ElementType) :
    InStep Q Eq (callElement func argc type) (callElement func argc type) := by
  refine .seq (.functionOf func) fun f => .seq (.onRun _) fun args => .seq (.invoke f _ _) ?_
  rintro ⟨_, out, fault?⟩
  cases fault? with
  | some fault => exact .fail fault
  | none =>
    cases out with
    | some out => exact .check _
    | none => exact .malformed _

theorem steady_inStep (code : Array Node) : Steady code fun _ x y => InStep Q Eq x y where
  pure _ := .pure rfl
  bind hx hf := .seq hx hf
  look hg hf := .reading fun m counters _ => by rw [hg]; exact hf m
  check _ := .check _
  onRun _ := .onRun _
  exchange _ _ := .modify (fun _ => rfl) fun _ _ => rfl
  call _ := inStep_callElement _ _ _

theorem jump_forward (pc : Nat) (h : 0 ≤ offset) : jump pc offset = some (pc + offset.toNat) := by
  obtain ⟨n, rfl⟩ := Int.eq_ofNat_of_zero_le h
  rfl

section Body

variable {slots start start' : Nat}
  (hbody : Body slots nodes) (hplaced : Placed code start nodes)
  (hplaced' : Placed code' start' nodes)

include hbody hplaced hplaced'

theorem inStep_body (operands : Array Operand) (element : Element) (base fuel : Nat) {i : Nat}
    (hi : i ≤ nodes.length) :
    InStep Q Eq (body code (start + nodes.length) operands element base fuel (start + i))
      (body code' (start' + nodes.length) operands element base fuel (start' + i)) := by
  induction fuel generalizing i with
  | zero => exact .throw _
  | succ fuel ih =>
    rw [body, body]
    rcases Nat.eq_or_lt_of_le hi with rfl | hlt
    · rw [if_pos (by omega), if_pos (by omega)]
      exact .pure rfl
    · have hat := hplaced i hlt
      have hat' := hplaced' i hlt
      rw [getElem?_eq_getElem hlt] at hat hat'
      have hlands := hbody.lands i nodes[i]
      rw [getElem?_eq_getElem hlt] at hlands
      rw [if_neg (by omega), if_neg (by omega), hat, hat']
      generalize nodes[i] = node at hlands hat
      have hsteady : Steady code fun _ x y => InStep Q Eq x y := steady_inStep code
      have hnext := ih (Nat.succ_le_of_lt hlt)
      -- a guard that decides skips over nodes of the body
      have hskip (skip : Int) (hguard : node.skip? = some skip) :
          jump (start + i) skip = some (start + (i + skip.toNat)) ∧
            jump (start' + i) skip = some (start' + (i + skip.toNat)) ∧
            i + skip.toNat ≤ nodes.length := by
        have hbounds := hlands skip rfl hguard
        refine ⟨?_, ?_, by omega⟩
        · rw [jump_forward _ (by omega), Nat.add_assoc]
        · rw [jump_forward _ (by omega), Nat.add_assoc]
      cases node with
      | andGuard skip =>
        obtain ⟨hjump, hjump', hle⟩ := hskip skip rfl
        dsimp only
        rw [hjump, hjump']
        exact .seq (hsteady.decides false) fun _ => .ite (ih hle) hnext
      | orGuard skip =>
        obtain ⟨hjump, hjump', hle⟩ := hskip skip rfl
        dsimp only
        rw [hjump, hjump']
        exact .seq (hsteady.decides true) fun _ => .ite (ih hle) hnext
      | _ =>
        exact .seq (hsteady.instruction operands element base (Array.mem_of_getElem? hat)) fun _ =>
          hnext

theorem inStep_elementValue (operands : Array Operand) (fuel : Nat) (element : Element) :
    InStep Q Eq (elementValue code start (start + nodes.length) operands fuel element)
      (elementValue code' start' (start' + nodes.length) operands fuel element) := by
  refine .reading fun m _ _ => ?_
  refine .seq (inStep_body hbody hplaced hplaced' operands element m.run.size fuel
    (Nat.zero_le _)) fun _ => ?_
  refine .seq (.onRun _) fun _ => .reading fun m₁ _ _ => ?_
  exact .guarded (.pure rfl)

end Body

/-! ### Expressions -/

theorem inStep_expression (hcode : code.size < wordSize) (hcode' : code'.size < wordSize)
    (fuel : Nat) : SubInStep Q code code' (expression code fuel) (expression code' fuel) := by
  induction fuel with
  | zero => exact fun _ _ _ _ _ _ _ => .throw _
  | succ fuel ih =>
    intro nodes pc pc' fill hwhole hplaced hplaced'
    rw [expression, expression]
    cases hwhole with
    | @passed access type haccess =>
      rw [hplaced.head, hplaced'.head]
      cases access with
      | value => exact absurd rfl haccess
      | reference var => exact .seq (.valueOf var) fun _ => .pure rfl
      | name text => exact .pure rfl
    | @computed slots operands body type hoperands hbody =>
      have hrest : Placed code (pc + 1) (operands ++ body) := hplaced.tail
      have hrest' : Placed code' (pc' + 1) (operands ++ body) := hplaced'.tail
      have hle := hplaced.le_size (by simp [headed])
      have hle' := hplaced'.le_size (by simp [headed])
      simp only [headed, length_cons, length_append] at hle hle'
      have hstop : behind pc (operands.length + body.length) =
          pc + 1 + operands.length + body.length := by
        rw [behind_eq (by omega), ← Nat.add_assoc]
      have hstop' : behind pc' (operands.length + body.length) =
          pc' + 1 + operands.length + body.length := by
        rw [behind_eq (by omega), ← Nat.add_assoc]
      rw [hplaced.head, hplaced'.head]
      dsimp only
      rw [computed, computed]
      rw [hstop, hstop']
      refine .bind (alike_operandsWith ⟨ih, hcode, hcode'⟩ hoperands hrest.left hrest'.left) ?_
      rintro ⟨resolved, _⟩ ⟨_, _⟩ ⟨rfl, rfl, rfl⟩
      refine .seq (.check _) fun _ => .seq (.check _) fun _ => ?_
      exact (steady_inStep code).elements (inStep_elementValue hbody hrest.right hrest'.right _ _) _ _ _

theorem twins_expression (hcode : code.size < wordSize) (hcode' : code'.size < wordSize)
    (fuel : Nat) : Twins Q code code' (expression code fuel) (expression code' fuel) :=
  ⟨inStep_expression hcode hcode' fuel, hcode, hcode'⟩

end Evaluate

/-! ### Statements -/

namespace Control

theorem inStep_writeBack (f : Function) (base index : Nat) (refs : List (Option Handle)) :
    InStep Q Eq (writeBack f base index refs) (writeBack f base index refs) := by
  induction refs generalizing index with
  | nil => exact .pure rfl
  | cons reference refs ih =>
    cases reference with
    | none => exact ih _
    | some var =>
      refine .reading fun m _ _ => ?_
      cases m.values.items[base + index]? with
      | none => exact .malformed _
      | some new =>
        refine .seq (.valueOf var) fun cell => .ite (.guarded ?_) (ih _)
        exact .seq (.check _) fun _ => .seq (.update var _) fun _ => ih _

section Statements

variable (hcode : code.size < wordSize) (hcode' : code'.size < wordSize)

include hcode hcode'

theorem alike_nested (fill : Option Shape) (h : Whole nodes) :
    Alike Q code code' nodes (nested code fuel · fill) (nested code' fuel · fill) :=
  alike_nestedWith (twins_expression hcode hcode' fuel) fill h

theorem alike_listItems (index : Nat) (list : Cell) (h : Wholes count nodes) :
    Alike Q code code' nodes (listItems code fuel count index · list)
      (listItems code' fuel count index · list) := by
  induction count generalizing index list nodes with
  | zero =>
    obtain rfl := h.zero
    exact .pure _
  | succ count ih =>
    cases h with
    | cons hfirst hrest =>
      refine .bind (alike_nested hcode hcode' none hfirst) fun item => .guarded ?_
      exact .step (.check _) fun _ => .step (.check _) fun _ => ih _ _ hrest

theorem alike_rightSide (type : ElementType) (fill : Shape) (h : Wholes count nodes) :
    Alike Q code code' nodes (rightSide code fuel count · type fill)
      (rightSide code' fuel count · type fill) := by
  unfold rightSide
  by_cases hone : count = 1
  · simp only [if_pos hone]
    exact alike_nested hcode hcode' _ (hone ▸ h).one
  · simp only [if_neg hone]
    exact alike_listItems hcode hcode' 0 _ h

def Both (pc pc' p p' : Nat) : Prop := p = pc ∧ p' = pc'

theorem inStep_assign (var : Handle) {axes : Option (List Axis)}
    (h : Wholes (Axis.boundsOf (axes.getD []) + count) nodes) (hplaced : Placed code (pc + 1) nodes)
    (hplaced' : Placed code' (pc' + 1) nodes) :
    InStep Q (Both (pc + 1 + nodes.length) (pc' + 1 + nodes.length))
      (assign code fuel pc var axes count) (assign code' fuel pc' var axes count) := by
  have htwins := twins_expression (Q := Q) hcode hcode' fuel
  refine .seq (.valueOf var) fun target => ?_
  by_cases hwritable : target.owner.isWritable
  case neg =>
    rw [if_pos (by simp [hwritable]), if_pos (by simp [hwritable])]
    exact .reading fun _ _ _ => .seq (.check _) fun _ => .failing _ _ _
  rw [if_neg (by simp [hwritable]), if_neg (by simp [hwritable])]
  cases axes with
  | none =>
    have hzero : Axis.boundsOf (Option.getD none []) + count = count := Nat.zero_add _
    rw [hzero] at h
    refine .bind (alike_rightSide hcode hcode' _ _ h hplaced hplaced') ?_
    rintro ⟨rhs, _⟩ ⟨_, _⟩ ⟨rfl, rfl, rfl⟩
    exact .seq (.valueOf var) fun _ => .seq (.check _) fun _ => .seq (.update var _) fun _ =>
      .pure ⟨rfl, rfl⟩
  | some axes =>
    obtain ⟨front, back, rfl, hfront, hback⟩ := Wholes.split h
    refine .bind (alike_sectionWith htwins target.shape hfront hplaced.left hplaced'.left) ?_
    rintro ⟨view, _⟩ ⟨_, _⟩ ⟨rfl, rfl, rfl⟩
    refine .bind (alike_rightSide hcode hcode' _ _ hback hplaced.right hplaced'.right) ?_
    rintro ⟨rhs, _⟩ ⟨_, _⟩ ⟨rfl, rfl, rfl⟩
    refine .seq (.valueOf var) fun value => .seq (.update var _) fun _ => ?_
    refine .seq (.check _) fun _ => .pure ⟨?_, ?_⟩
    · rw [length_append, Nat.add_assoc]
    · rw [length_append, Nat.add_assoc]

theorem inStep_declare (var : Handle) {dims : Nat} (h : Wholes dims nodes)
    (hplaced : Placed code (pc + 1) nodes) (hplaced' : Placed code' (pc' + 1) nodes) :
    InStep Q (Both (pc + 1 + nodes.length) (pc' + 1 + nodes.length))
      (declare code fuel pc var dims) (declare code' fuel pc' var dims) := by
  have htwins := twins_expression (Q := Q) hcode hcode' fuel
  refine .bind (alike_extentsWith htwins h hplaced hplaced') ?_
  rintro ⟨extents, _⟩ ⟨_, _⟩ ⟨rfl, rfl, rfl⟩
  exact .seq (.check _) fun _ => .seq (.valueOf var) fun _ => .seq (.check _) fun _ =>
    .seq (.update var _) fun _ => .pure ⟨rfl, rfl⟩

theorem inStep_arguments (f : Function) (index : Nat) (h : Wholes count nodes)
    (hplaced : Placed code pc nodes) (hplaced' : Placed code' pc' nodes) :
    InStep Q (Arrive (pc + nodes.length) (pc' + nodes.length))
      (arguments code fuel f count index pc) (arguments code' fuel f count index pc') := by
  induction count generalizing index nodes pc pc' with
  | zero =>
    obtain rfl := h.zero
    exact .pure ⟨rfl, rfl, rfl⟩
  | succ count ih =>
    cases h with
    | @cons _ first rest hfirst hrest =>
      have hreference : reference? code pc = reference? code' pc' := by
        obtain ⟨header, later, rfl, -⟩ := hfirst.header
        rw [ reference?, reference?, hplaced.left.head, hplaced'.left.head]
      refine .bind (alike_nested hcode hcode' none hfirst hplaced.left hplaced'.left) ?_
      rintro ⟨cell, _⟩ ⟨_, _⟩ ⟨rfl, rfl, rfl⟩
      refine .seq (.check _) fun _ => .seq (.onValues _) fun _ => ?_
      refine .bind (ih (index + 1) hrest hplaced.right hplaced'.right) ?_
      rintro ⟨references, _⟩ ⟨_, _⟩ ⟨rfl, rfl, rfl⟩
      rw [arrive_append, hreference]
      exact .pure ⟨rfl, rfl, rfl⟩

theorem inStep_command (func : Nat) (h : Wholes argc nodes)
    (hplaced : Placed code (pc + 1) nodes) (hplaced' : Placed code' (pc' + 1) nodes) :
    InStep Q (Both (pc + 1 + nodes.length) (pc' + 1 + nodes.length))
      (command code fuel pc func argc) (command code' fuel pc' func argc) := by
  refine .seq (.functionOf func) fun f => .reading fun m _ _ => ?_
  refine .bind (inStep_arguments hcode hcode' f 0 h hplaced hplaced') ?_
  rintro ⟨references, _⟩ ⟨_, _⟩ ⟨rfl, rfl, rfl⟩
  refine .reading fun m₁ _ _ => .seq (.check _) fun args => .seq (.invoke f args _) ?_
  rintro ⟨_, out, fault?⟩
  refine .seq (.modify (fun _ => rfl) fun _ _ => rfl) fun _ => ?_
  cases fault? with
  | some fault => exact .fail fault
  | none =>
    exact .seq (inStep_writeBack f _ 0 references) fun _ =>
      .seq (.modify (fun _ => rfl) fun _ _ => rfl) fun _ => .pure ⟨rfl, rfl⟩

end Statements

/-! ### Requests and conditions -/

theorem inStep_delete (name : String) : InStep Q Eq (delete name) (delete name) := by
  refine .reading fun m _ _ => ?_
  dsimp only
  cases m.workspace.names.get? name with
  | none => exact .fail _
  | some entry =>
    cases entry with
    | var handle =>
      exact .seq (.valueOf handle) fun _ => .guarded (.modify (fun _ => rfl) fun _ _ => rfl)
    | _ => exact .fail _

theorem inStep_print (text : String) : InStep Q Eq (print text) (print text) :=
  .modify (fun _ => rfl) fun _ _ => rfl

/-- The same end, and not the one of a program that ran to its last node. -/
def Breaks (flow flow' : Option Flow) : Prop := flow = flow' ∧ flow ≠ some .finished

theorem inStep_carryOut (list : List Request) :
    InStep Q Breaks (carryOut list) (carryOut list) := by
  induction list with
  | nil => exact .pure ⟨rfl, nofun⟩
  | cons request rest ih =>
    cases request with
    | delete name => exact .seq (inStep_delete name) fun _ => ih
    | list beginning =>
      exact .reading fun _ _ _ => .seq (.check _) fun _ => .seq (inStep_print _) fun _ => ih
    | help topic =>
      exact .reading fun _ _ _ => .seq (.check _) fun _ => .seq (inStep_print _) fun _ => ih
    | exit mode => exact .pure ⟨rfl, nofun⟩

theorem inStep_requests : InStep Q Breaks requests requests :=
  .reading fun _ _ _ => .seq (.modify (fun _ => rfl) fun _ _ => rfl) fun _ => inStep_carryOut _

theorem inStep_popCondition : InStep Q Eq popCondition popCondition :=
  .seq (.onValues _) fun _ => .guarded (.seq (.check _) fun _ => .check _)

/-! ### Counted loops -/

/-- The states of counted loops below an address, and the same states farther behind. -/
def Shifted (d n : Nat) (K L : Counters) : Prop :=
  (∀ i, L.lookup (d + i) = K.lookup i) ∧ ∀ entry ∈ K, entry.1 < n

section Loops

theorem Shifted.setState (h : Shifted d n K L) (hpc : pc < n)
    (state : LoopState) : Shifted d n (setState pc state K) (setState (d + pc) state L) := by
  refine ⟨fun i => ?_, ?_⟩
  · by_cases hi : i = pc
    · rw [hi, lookup_setState, lookup_setState]
    · have hne : d + i ≠ d + pc := by omega
      rw [ArrayCommand.setState, ArrayCommand.setState, lookup_cons, lookup_cons,
        beq_false_of_ne hi, beq_false_of_ne hne]
      rw [lookup_filter_ne hi, lookup_filter_ne hne, h.1]
  · rw [ArrayCommand.setState, forall_mem_cons]
    exact ⟨hpc, fun entry hentry => h.2 entry (mem_filter.1 hentry).1⟩

theorem inStep_setCounter (hpc : pc < n) (state : LoopState) :
    InStep (Shifted d n) Eq (setCounter pc state) (setCounter (d + pc) state) := by
  rintro m _ ⟨L, hL, rfl⟩
  exact .value rfl ⟨_, hL.setState hpc state, rfl⟩

theorem inStep_nextRound (hpc : pc < n) (var : Handle) (initial : Option LoopState) :
    InStep (Shifted d n) Eq (nextRound pc var initial) (nextRound (d + pc) var initial) := by
  refine .reading fun m L hL => ?_
  have hstate : counterState { m with counters := L } (d + pc) initial =
      counterState m pc initial := by
    rw [counterState, counterState, hL.1]
  rw [hstate]
  cases counterState m pc initial with
  | none => exact .malformed _
  | some state =>
    dsimp only
    cases state.remaining with
    | zero => exact .pure rfl
    | succ remaining =>
      refine .seq (.valueOf var) fun cell => .guarded (.seq (.check _) fun _ => ?_)
      refine .seq (.update var _) fun _ => .ite (.seq (.pure rfl) ?rest) (.seq (.check _) ?rest)
      exact fun _ => .seq (inStep_setCounter hpc _) fun _ => .pure rfl

theorem inStep_loopInit {address : Nat} {var : Handle}
    {state : Option LoopState} {exit counter : Int} (hasStep : Bool)
    (hjump : jump pc counter = some address) (hjump' : jump (d + pc) counter = some (d + address))
    (hat : code[address]? = some (.loopCounter var state exit))
    (hat' : code'[d + address]? = some (.loopCounter var state exit)) (hn : address < n) :
    InStep (Shifted d n) Eq (loopInit code pc counter hasStep)
      (loopInit code' (d + pc) counter hasStep) := by
  rw [loopInit, loopInit, hjump, hjump']
  refine .ite (.seq (.onValues _) fun _ => .seq (.pure rfl) ?rest) (.seq (.pure rfl) ?rest)
  intro step
  refine .seq (.onValues _) fun _ => .seq (.onValues _) fun _ => ?_
  dsimp only
  rw [hat, hat']
  exact .seq (.valueOf var) fun _ => .seq (.check _) fun _ => inStep_setCounter hn _

end Loops

/-! ### Programs inside of longer ones -/

/-- The same place in a program that stands `d` nodes farther behind, or the same end. -/
inductive Moved (d : Nat) (allowed : Nat → Prop) : Next → Next → Prop
  | at {pc : Nat} : allowed pc → Moved d allowed (.at pc) (.at (d + pc))
  | done {flow : Flow} : flow ≠ .finished → Moved d allowed (.done flow) (.done flow)

theorem jump_shift {target : Nat} (h : jump pc offset = some target) :
    jump (d + pc) offset = some (d + target) := by
  unfold jump at h ⊢
  split at h
  · rename_i n hn
    cases h
    have hsum : ((d + pc : Nat) : Int) + offset = Int.ofNat (d + target) := by
      rw [Int.ofNat_eq_natCast] at hn ⊢
      omega
    rw [hsum]
  · cases h

section Inside

variable {items : List (List Node)}
  (hitems : code.toList = items.flatten) (hformed : ∀ item ∈ items, IsItem item)
  (hlands : ∀ pc node, code[pc]? = some node → ∀ offset ∈ node.offsets,
    ∃ target, jump pc offset = some target ∧ Starts 0 items target)
  (hsits : ∀ pc node, code[pc]? = some node → Sits code pc node)
  (hinside : Placed code' d code.toList) (hcode : code.size < wordSize)
  (hcode' : code'.size < wordSize)
variable {node : Node}

include hitems hformed in
theorem item_at (hstarts : Starts 0 items pc) (hnode : code[pc]? = some node) :
    ∃ rest, IsItem (node :: rest) ∧ Placed code pc (node :: rest) ∧
      Starts 0 items (pc + (rest.length + 1)) := by
  obtain ⟨front, back, rfl, hpc⟩ := hstarts
  have hplaced : Placed code 0 code.toList := placed_toArray code.toList
  rw [hitems, flatten_append] at hplaced
  have hback := hplaced.right
  rw [← hpc] at hback
  cases back with
  | nil =>
    have hsize := congrArg length hitems
    rw [append_nil, Array.length_toList] at hsize
    have := (Array.getElem?_eq_some_iff.1 hnode).1
    omega
  | cons item later =>
    rw [flatten_cons] at hback
    have hitem := hformed item (by simp)
    obtain ⟨node', rest, rfl⟩ : ∃ node' rest, item = node' :: rest := by
      cases hitem with
      | expression type => exact ⟨_, _, rfl⟩
      | control | statement => exact ⟨_, _, rfl⟩
    have hhead := hback.left.head
    rw [hnode, Option.some.injEq] at hhead
    subst hhead
    refine ⟨rest, hitem, hback.left, front ++ [node :: rest], later, by simp, ?_⟩
    simp only [flatten_append, length_append, flatten_singleton, length_cons]
    omega

include hinside in
theorem placed_inside (h : Placed code pc nodes) : Placed code' (d + pc) nodes := by
  intro i hi
  have hat := h i hi
  rw [getElem?_eq_getElem hi] at hat
  have hlt := (Array.getElem?_eq_some_iff.1 hat).1
  have hin := hinside (pc + i) (by simpa using hlt)
  rw [Nat.add_assoc, hin, Array.getElem?_toList, hat, getElem?_eq_getElem hi]

include hinside in
theorem node_inside (h : code[pc]? = some node) : code'[d + pc]? = some node := by
  have hlt := (Array.getElem?_eq_some_iff.1 h).1
  rw [hinside pc (by simpa using hlt), Array.getElem?_toList, h]

include hlands hsits hinside in
theorem inStep_control (hcontrol : node.isControl = true) (hnode : code[pc]? = some node)
    (hnext : Starts 0 items (pc + 1)) :
    InStep (Shifted d code.size) (Moved d (Starts 0 items)) (step code fuel pc node)
      (step code' fuel (d + pc) node) := by
  have hpc := (Array.getElem?_eq_some_iff.1 hnode).1
  -- a jump goes to the same place in both programs
  have hgoes (pc : Nat) (node : Node) (hnode : code[pc]? = some node) (offset : Int)
      (hoffset : offset ∈ node.offsets) :
      Moved d (Starts 0 items) (goTo code (jump pc offset))
        (goTo code' (jump (d + pc) offset)) := by
    obtain ⟨target, hjump, htarget⟩ := hlands pc node hnode offset hoffset
    rw [hjump, jump_shift hjump]
    exact .at htarget
  have hahead : Moved d (Starts 0 items) (.at (pc + 1)) (.at (d + pc + 1)) := .at hnext
  cases node with
  | branch offset => exact .pure (hgoes pc _ hnode offset (by simp [Node.offsets]))
  | branchIfFalse offset =>
    refine .seq inStep_popCondition fun _ => .ite (.pure hahead) ?_
    exact .pure (hgoes pc _ hnode offset (by simp [Node.offsets]))
  | gate exit next => exact .pure hahead
  | via offset leave =>
    obtain ⟨gate, exit, next, hjump, hgate⟩ := hsits pc _ hnode
    rw [step, step, hjump, jump_shift hjump]
    dsimp only
    rw [hgate, node_inside hinside hgate]
    refine .pure (hgoes gate _ hgate _ ?_)
    cases leave <;> simp [Node.offsets]
  | loopInit counter hasStep =>
    obtain ⟨hjump, exit, var, exit', -, hcounter, -⟩ := hsits pc _ hnode
    have hsize := (Array.getElem?_eq_some_iff.1 hcounter).1
    exact .seq (inStep_loopInit hasStep hjump (jump_shift hjump) hcounter
      (node_inside hinside hcounter) hsize) fun _ => .pure hahead
  | loopCounter var state exit =>
    refine .seq (inStep_nextRound hpc var state) fun _ => .ite (.pure hahead) ?_
    exact .pure (hgoes pc _ hnode exit (by simp [Node.offsets]))
  | stop => exact .pure (.done (by decide))
  | _ => cases hcontrol

include hitems hformed hlands hsits hinside hcode hcode' in
theorem inStep_step (fuel : Nat) (hstarts : Starts 0 items pc) (hnode : code[pc]? = some node) :
    InStep (Shifted d code.size) (Moved d (Starts 0 items)) (step code fuel pc node)
      (step code' fuel (d + pc) node) := by
  obtain ⟨rest, hitem, hplaced, hnext⟩ := item_at hitems hformed hstarts hnode
  have hplaced' := placed_inside hinside hplaced
  have hbehind : Moved d (Starts 0 items) (.at (pc + 1 + rest.length))
      (.at (d + pc + 1 + rest.length)) := by
    have h := Moved.at (d := d) hnext
    rwa [Nat.add_comm rest.length, ← Nat.add_assoc, ← Nat.add_assoc, ← Nat.add_assoc] at h
  cases hitem with
  | control hcontrol => exact inStep_control hlands hsits hinside hcontrol hnode hnext
  | @expression slots operands body type hoperands hbody =>
    have hle := hplaced.le_size (by simp)
    have hle' := hplaced'.le_size (by simp)
    rw [length_cons, length_append] at hle hle'
    rw [step, step]
    dsimp only
    rw [behind_eq (by omega), behind_eq (by omega)]
    rw [length_append] at hbehind
    have hwhole : Whole _ := .computed type hoperands hbody
    refine .seq (inStep_expression hcode hcode' fuel none hwhole hplaced hplaced') fun _ => ?_
    exact .seq (.onValues _) fun _ => .pure hbehind
  | @statement _ count _ hcount hwholes =>
    cases node with
    | assign var axes count =>
      cases hcount
      refine .bind (inStep_assign hcode hcode' var hwholes hplaced.tail hplaced'.tail) ?_
      rintro _ _ ⟨rfl, rfl⟩
      exact .pure hbehind
    | command func argc =>
      cases hcount
      refine .bind (inStep_command hcode hcode' func hwholes hplaced.tail
        hplaced'.tail) ?_
      rintro _ _ ⟨rfl, rfl⟩
      refine .bind inStep_requests ?_
      rintro flow _ ⟨rfl, hflow⟩
      cases flow with
      | none => exact .pure hbehind
      | some flow => exact .pure (.done fun h => hflow (congrArg some h))
    | declare var dims =>
      cases hcount
      refine .bind (inStep_declare hcode hcode' var hwholes hplaced.tail hplaced'.tail) ?_
      rintro _ _ ⟨rfl, rfl⟩
      exact .pure hbehind
    | _ => cases hcount

include hitems in
theorem starts_le_size (h : Starts 0 items pc) : pc ≤ code.size := by
  have hle := h.le
  rwa [← hitems, Nat.zero_add, Array.length_toList] at hle

include hitems hformed hlands hsits hinside hcode hcode' in
/-- A run of a program inside of a longer one.  Either the program comes to its end and the longer
one goes on behind it with the fuel that is left, or both come to the same end. -/
theorem runFrom_inside (fuel : Nat) (hstarts : Starts 0 items pc)
    (hm : Beside (Shifted d code.size) m m') :
    (∃ k m₁ m₁', 1 ≤ k ∧ k ≤ fuel ∧ Beside (Shifted d code.size) m₁ m₁' ∧
      runFrom code fuel pc m = .ok .finished m₁ ∧
      ∀ n, runFrom code' (fuel + n) (d + pc) m' = runFrom code' (k + n) (d + code.size) m₁') ∨
    Together (Shifted d code.size) (fun flow flow' => flow = flow' ∧ flow ≠ .finished)
      (runFrom code fuel pc m) (runFrom code' fuel (d + pc) m') := by
  induction fuel generalizing pc m m' with
  | zero => exact .inr (.failure hm)
  | succ fuel ih =>
    cases hnode : code[pc]? with
    | none =>
      obtain rfl : pc = code.size :=
        Nat.le_antisymm (starts_le_size hitems hstarts) (Array.getElem?_eq_none_iff.1 hnode)
      refine .inl ⟨fuel + 1, m, m', by omega, by omega, hm, ?_, fun n => rfl⟩
      rw [runFrom, hnode]
      rfl
    | some node =>
      have hstep := InStep.seq .checkInterrupt (fun _ : Unit => inStep_step hitems hformed
        hlands hsits hinside hcode hcode' fuel hstarts hnode) m m' hm
      -- with more fuel the node of the longer program does the same
      have hmore (n : Nat) := (Outlasts.refl checkInterrupt).bind (fun _ : Unit =>
        outlasts_step code' (Nat.le_add_right fuel n) (d + pc) node) m'
      simp only [Nat.add_right_comm fuel 1, runFrom, hnode, node_inside hinside hnode]
      simp only [← bind_assoc]
      rw [bind_apply (checkInterrupt >>= fun _ => step code fuel pc node)]
      simp only [bind_apply (checkInterrupt >>= fun _ => step code' _ (d + pc) node)]
      generalize (checkInterrupt >>= fun _ => step code fuel pc node) m = r at hstep ⊢
      generalize (checkInterrupt >>= fun _ => step code' fuel (d + pc) node) m' = r' at hstep hmore ⊢
      cases hstep with
      | failure hm => exact .inr (.failure hm)
      | @value next next' m₁ m₁' hnext hm =>
        have hsame (n : Nat) : (checkInterrupt >>= fun _ => step code' (fuel + n) (d + pc) node) m' =
            .ok next' m₁' := (hmore n).resolve_left (by simp)
        simp only [hsame]
        cases hnext with
        | «at» hstarts =>
          rcases ih hstarts hm with ⟨k, m₁, m₁', hk, hle, h⟩ | h
          · exact .inl ⟨k, m₁, m₁', hk, by omega, h⟩
          · exact .inr h
        | done hflow => exact .inr (.value ⟨rfl, hflow⟩ hm)

include hitems hformed hlands hsits hinside hcode hcode' in
theorem runFrom_last (hlast : code'.size = d + code.size) (hm : Beside (Shifted d code.size) m m') :
    Together (Shifted d code.size) Eq (runFrom code fuel 0 m) (runFrom code' fuel d m') := by
  have hruns := runFrom_inside hitems hformed hlands hsits hinside hcode hcode' fuel .first hm
  rw [Nat.add_zero] at hruns
  rcases hruns with ⟨k, m₁, m₁', hk, hle, hm₁, hrun, hrun'⟩ | h
  · obtain ⟨k, rfl⟩ : ∃ n, k = n + 1 := ⟨k - 1, by omega⟩
    have hrun' := hrun' 0
    rw [Nat.add_zero] at hrun'
    rw [hrun, hrun', runFrom, Array.getElem?_eq_none (Nat.le_of_eq hlast)]
    exact .value rfl hm₁
  · generalize runFrom code fuel 0 m = r at h
    generalize runFrom code' fuel d m' = r' at h
    cases h with
    | value hflow hm => exact .value hflow.1 hm
    | failure hm => exact .failure hm

end Inside

/-! ### Programs one behind the other -/

/-- Run a program, and if it comes to its end, another one. -/
def inTurn (first second : Array Node) (fuel : Nat) : MachineM Flow := do
  match ← run first fuel with
  | .finished =>
    modify fun m => { m with counters := [] }
    run second fuel
  | flow => return flow

/-- How a run ended and what it left; the states of counted loops are of no use any more. -/
def outcome : EStateM.Result Failure Machine Flow → EStateM.Result Failure Machine Flow
  | .ok flow m => .ok flow { m with counters := [] }
  | .error failure m => .error failure { m with counters := [] }

theorem outcome_eq {r' : Result Flow} (h : Together Q Eq r r') : outcome r' = outcome r := by
  cases h with
  | value hflow hm =>
    obtain ⟨counters, -, rfl⟩ := hm
    subst hflow
    rfl
  | failure hm =>
    obtain ⟨counters, -, rfl⟩ := hm
    rfl

theorem Shifted.refl : Shifted 0 n [] [] := ⟨fun _ => rfl, nofun⟩

theorem Shifted.behind (h : Shifted 0 n K L) : Shifted n k [] L := by
  refine ⟨fun i => ?_, nofun⟩
  have hlookup := h.1 (n + i)
  rw [Nat.zero_add] at hlookup
  rw [hlookup, lookup_nil, lookup_eq_none_iff]
  intro entry hentry
  have hlt := h.2 entry hentry
  exact bne_iff_ne.2 (by omega)

section InTurn

variable {first second : Array Node} {m₁ : Machine}

theorem run_mono {fuel' : Nat} (hle : fuel ≤ fuel')
    (hfinal : Final (outcome (run code fuel m))) : run code fuel' m = run code fuel m := by
  refine (outlasts_run code hle m).resolve_left ?_
  rintro ⟨m', hspent⟩
  rw [hspent] at hfinal
  exact hfinal _ rfl

theorem run_second (h : WellFormed second) (hsize : (first ++ second).size < wordSize)
    {m₁' : Machine} (hm : Beside (Shifted 0 first.size) m₁ m₁') :
    Together (Shifted first.size second.size) Eq (run second fuel { m₁ with counters := [] })
      (runFrom (first ++ second) fuel first.size m₁') := by
  obtain ⟨items, hitems, hformed, hlands⟩ := h.items
  obtain ⟨L, hL, rfl⟩ := hm
  have hlength : (first ++ second).size = first.size + second.size := Array.size_append ..
  refine runFrom_last hitems hformed hlands h.sits ?_ (by omega) hsize hlength ⟨L, hL.behind, rfl⟩
  have hplaced := placed_toArray (first.toList ++ second.toList)
  have hright := hplaced.right
  rwa [Nat.zero_add, Array.length_toList, ← append_toArray] at hright

/-- The first of two programs that stand one behind the other runs as it does alone, and if it comes
to its end, the second one follows with the fuel that is left. -/
theorem run_first (h : WellFormed first) (hsize : (first ++ second).size < wordSize)
    (hm : m.counters = []) (fuel : Nat) :
    (∃ k m₁ m₁', 1 ≤ k ∧ k ≤ fuel ∧ Beside (Shifted 0 first.size) m₁ m₁' ∧
      run first fuel m = .ok .finished m₁ ∧
      ∀ n, run (first ++ second) (fuel + n) m = runFrom (first ++ second) (k + n) first.size m₁') ∨
    Together (Shifted 0 first.size) (fun flow flow' => flow = flow' ∧ flow ≠ .finished)
      (run first fuel m) (run (first ++ second) fuel m) := by
  obtain ⟨items, hitems, hformed, hlands⟩ := h.items
  have hlength : (first ++ second).size = first.size + second.size := Array.size_append ..
  have hplaced := placed_toArray (first.toList ++ second.toList)
  rw [← append_toArray] at hplaced
  have hbeside : Beside (Shifted 0 first.size) m m := ⟨m.counters, hm ▸ .refl, rfl⟩
  have hruns := runFrom_inside hitems hformed hlands h.sits hplaced.left (by omega) hsize fuel
    .first hbeside
  rwa [Nat.zero_add, Nat.zero_add] at hruns

theorem inTurn_of_finished (second : Array Node) (h : run first fuel m = .ok .finished m₁) :
    inTurn first second fuel m = run second fuel { m₁ with counters := [] } := by
  rw [inTurn, bind_apply, h]
  rfl

theorem outcome_inTurn
    (h : Together Q (fun flow flow' => flow = flow' ∧ flow ≠ .finished) (run first fuel m) r) :
    outcome r = outcome (inTurn first second fuel m) := by
  generalize hrun : run first fuel m = r₁ at h
  rw [inTurn, bind_apply, hrun]
  cases h with
  | @value flow flow' m₁ m₁' hflow hm =>
    obtain ⟨rfl, hne⟩ := hflow
    obtain ⟨counters, -, rfl⟩ := hm
    cases flow with
    | finished => exact absurd rfl hne
    | stopped => rfl
    | exit mode => rfl
  | failure hm =>
    obtain ⟨counters, -, rfl⟩ := hm
    rfl

theorem run_append (hfirst : WellFormed first) (hsecond : WellFormed second)
    (hsize : (first ++ second).size < wordSize) (hm : m.counters = []) (hfinal : Final r) :
    (∃ fuel, outcome (run (first ++ second) fuel m) = r) ↔
      ∃ fuel, outcome (inTurn first second fuel m) = r := by
  constructor
  · rintro ⟨fuel, rfl⟩
    refine ⟨fuel, ?_⟩
    rcases run_first hfirst hsize hm fuel with
      ⟨k, m₁, m₁', hk, hle, hm₁, hrun, happend⟩ | htogether
    · -- the second program alone has more fuel than it needs
      have happend := happend 0
      rw [Nat.add_zero] at happend
      rw [happend, Nat.add_zero, outcome_eq (run_second hsecond hsize hm₁)] at hfinal ⊢
      rw [inTurn_of_finished second hrun, run_mono hle hfinal]
    · exact (outcome_inTurn htogether).symm
  · rintro ⟨fuel, rfl⟩
    rcases run_first hfirst hsize hm fuel with
      ⟨k, m₁, m₁', hk, hle, hm₁, hrun, happend⟩ | htogether
    · refine ⟨fuel + fuel, ?_⟩
      rw [inTurn_of_finished second hrun] at hfinal ⊢
      rw [happend, outcome_eq (run_second hsecond hsize hm₁), run_mono (Nat.le_add_left fuel k) hfinal]
    · exact ⟨fuel, outcome_inTurn htogether⟩

end InTurn

/-- Compiled programs may stand anywhere.  If the nodes of one statement stand behind those of
another, a run of them ends as the two statements end one after the other: the first one, and if it
comes to its end, the second one. -/
theorem compiled_inTurn {σ τ : Type} (source : LineSource σ) (source' : LineSource τ)
    (maxName maxName' fuel fuel' : Nat) (line line' : String) (c c₁ : Compiler σ)
    (c' c₁' : Compiler τ) (hempty : c.program.nodes = #[]) (hloops : c.loops = [])
    (h : Compiler.compile source maxName fuel line c = .ok () c₁)
    (hempty' : c'.program.nodes = #[]) (hloops' : c'.loops = [])
    (h' : Compiler.compile source' maxName' fuel' line' c' = .ok () c₁')
    (hsize : c₁.program.size + c₁'.program.size < 0x8000000000000000) (m : Machine)
    (hm : m.counters = []) (r : EStateM.Result Failure Machine Flow) (hfinal : Final r) :
    (∃ fuel, outcome (run (c₁.program.nodes ++ c₁'.program.nodes) fuel m) = r) ↔
      ∃ fuel, outcome (inTurn c₁.program.nodes c₁'.program.nodes fuel m) = r := by
  have hwell := compile_formed hempty hloops (by omega) h
  have hwell' := compile_formed hempty' hloops' (by omega) h'
  refine run_append hwell hwell' ?_ hm hfinal
  rw [Array.size_append]
  exact Nat.lt_trans hsize (by decide)

theorem run_of_leftAtOnce (h : leftAtOnce code.toList = true) :
    code.size = 5 ∧ run (code ++ code) 5 start = .ok .finished start := by
  obtain ⟨nodes⟩ := code
  simp only at h
  unfold leftAtOnce at h
  split at h
  · exact ⟨rfl, rfl⟩
  · cases h

theorem compiled_inTurn_twice :
    ∃ c, Compiler.compile .ofList 8 3 "repeat" (.start ["break", "until false"]) = .ok () c ∧
      ∃ fuel, outcome (inTurn c.program.nodes c.program.nodes fuel Machine.start) =
        .ok .finished Machine.start := by
  have hcode : (match Compiler.compile .ofList 8 3 "repeat" (.start ["break", "until false"]) with
    | .ok _ c => leftAtOnce c.program.nodes.toList
    | .error _ _ => false) = true := by decide +kernel
  generalize hrun : Compiler.compile .ofList 8 3 "repeat" (.start ["break", "until false"]) =
    result at hcode
  cases result with
  | error failure c => cases hcode
  | ok _ c =>
    obtain ⟨hsize, hends⟩ := run_of_leftAtOnce hcode
    have hwords : c.program.size + c.program.size < 0x8000000000000000 := by
      rw [Program.size, hsize]
      decide
    refine ⟨c, rfl, ?_⟩
    refine (compiled_inTurn .ofList .ofList 8 8 3 3 "repeat" "repeat" _ c _ c rfl rfl hrun rfl rfl
      hrun hwords Machine.start rfl _ fun s h => by cases h).1 ⟨5, ?_⟩
    rw [hends]
    rfl

end Control

end ArrayCommand
