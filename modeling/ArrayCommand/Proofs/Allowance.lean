/-
What a program may do to the host.

The host changes only when a function is called and when what it asked for is carried out.  So what
every function that is called keeps to is what the whole program keeps to.

Main definitions:

* `Allowance` — how the host may change while the functions of a table are called;
* `Allowance.Within` — a computation of the machine that stays within the allowance;
* `Allowance.Tame`, `Allowance.Tames` — a function that respects the allowance, and code that calls
  only such functions in its expressions.

Main results:

* `Evaluate.compatible_within` — evaluating an expression stays within the allowance;
* `Control.within_carryOut` — and so does carrying out requests;
* `Control.within_runFrom` — and so does a program whose commands do.
-/

import ArrayCommand.Proofs.Frame

namespace ArrayCommand

open Machine

variable {func argc : Nat} {type : ElementType}

/-! ### Allowances -/

/-- How the host may change while the functions of a table are called.  Printing is always
allowed. -/
structure Allowance where
  table : Array Function
  host : Host → Host → Prop
  refl : ∀ h, host h h
  trans : ∀ {h₁ h₂ h₃}, host h₁ h₂ → host h₂ h₃ → host h₁ h₃
  print : ∀ h text, host h (h.print text)

/-- The function that a node of an expression calls. -/
def Node.callee? : Node → Option Nat
  | .call func _ _ => some func
  | .once _ func _ _ => some func
  | _ => none

namespace Allowance

variable {α β : Type} (A : Allowance)

/-- From a machine with the table to another one within the allowance. -/
def Reaches (m m' : Machine) : Prop :=
  m.workspace.functions = A.table →
    m'.workspace.functions = A.table ∧ A.host m.host m'.host

instance : IsPreorder Machine A.Reaches where
  refl m hm := ⟨hm, A.refl m.host⟩
  trans _ _ _ h h' hm := ⟨(h' (h hm).1).1, A.trans (h hm).2 (h' (h hm).1).2⟩

/-- A computation of the machine that stays within the allowance. -/
abbrev Within (x : MachineM α) : Prop := Moves (.of A.Reaches) x

/-- A function that respects the allowance, whatever it is called with. -/
def Tame (f : Function) : Prop := ∀ c, A.host c.host (leftIn (f.native c)).host

/-- Code whose expressions call only functions that respect the allowance. -/
def Tames (code : Array Node) : Prop :=
  ∀ node ∈ code, ∀ func f, node.callee? = some func → A.table[func]? = some f → A.Tame f

variable {A}

theorem Reaches.of_eq {m m' : Machine} (hfunctions : m'.workspace.functions = m.workspace.functions)
    (hhost : m'.host = m.host) : A.Reaches m m' := by
  rw [Reaches, hfunctions, hhost]
  exact fun hm => ⟨hm, A.refl _⟩

theorem within_modify {f : Machine → Machine}
    (hfunctions : ∀ m, (f m).workspace.functions = m.workspace.functions)
    (hhost : ∀ m, (f m).host = m.host) : A.Within (modify f) :=
  .modify fun m => .of_eq (hfunctions m) (hhost m)

theorem within_update (var : Handle) (value : Cell) : A.Within (update var value) :=
  within_modify (fun _ => rfl) fun _ => rfl

theorem within_onValues (step : EStateM Fault (Stack Cell) α) : A.Within (onValues step) :=
  moves_onValues (fun _ _ => Reaches.of_eq rfl rfl) (fun _ _ => Reaches.of_eq rfl rfl) step

theorem within_onRun (step : EStateM Fault (Stack Scalar) α) : A.Within (onRun step) :=
  moves_onRun (fun _ _ => Reaches.of_eq rfl rfl) (fun _ _ => Reaches.of_eq rfl rfl) step

theorem within_looking {next : Machine → MachineM β}
    (h : ∀ m, m.workspace.functions = A.table → A.Within (next m)) : A.Within (get >>= next) :=
  .of_leftIn fun m hm => (h m hm).leftIn m hm

theorem within_functionOf {next : Function → MachineM β}
    (hnext : ∀ f, A.table[func]? = some f → A.Within (next f)) :
    A.Within (functionOf func >>= next) := by
  rw [functionOf, bind_assoc]
  refine within_looking fun m hm => ?_
  rw [hm]
  cases hf : A.table[func]? with
  | none => exact .failing _ _
  | some f => exact hnext f hf

theorem within_invoke {f : Function} (hf : A.Tame f) (args : Array Cell) (out : Option Cell) :
    A.Within (invoke f args out) := by
  refine .of_leftIn fun m hm => ?_
  have hf := hf ⟨m.host, args, out⟩
  rw [invoke, get_bind_apply]
  generalize f.native ⟨m.host, args, out⟩ = r at hf
  cases r with
  | ok _ c => exact ⟨hm, hf⟩
  | error fault c => exact ⟨hm, hf⟩

end Allowance

open Machine Allowance

variable {A : Allowance} {code : Array Node}

/-! ### Evaluation -/

namespace Evaluate

section Nested

variable {sub : Sub} (hsub : ∀ pc fill, A.Within (sub pc fill))

include hsub

theorem within_argumentsWith (f : Function) (count index pc : Nat) :
    A.Within (argumentsWith sub code f count index pc) := by
  induction count generalizing index pc with
  | zero => exact .pure _
  | succ count ih =>
    exact .bind (moves_nestedWith hsub code pc none) fun _ => .bind (moves_check _) fun _ =>
      .bind (within_onValues _) fun _ => ih _ _

theorem within_onceWith (hcode : A.Tames code) {slot : Nat}
    (hmem : .once slot func argc type ∈ code) (pc : Nat) :
    A.Within (onceWith sub code pc func argc type) := by
  refine within_functionOf fun f hf => .bind .get fun m => ?_
  refine .bind (within_argumentsWith hsub f argc 0 pc) fun pc => .bind .get fun m₁ => ?_
  refine .bind (moves_check _) fun args => ?_
  refine .bind (within_invoke (hcode _ hmem func f rfl hf) _ _) fun ⟨_, out, fault?⟩ => ?_
  refine .bind (within_modify (fun _ => rfl) fun _ => rfl) fun _ => ?_
  cases fault? with
  | some fault => exact moves_fail fault
  | none => exact .ite (.bind (.pure _) fun _ => .pure _) (.bind (moves_check _) fun _ => .pure _)

end Nested

section Code

variable (hcode : A.Tames code)

include hcode

theorem within_callElement
    (hmem : .call func argc type ∈ code) : A.Within (callElement func argc type) := by
  refine within_functionOf fun f hf => .bind (within_onRun _) fun args => ?_
  refine .bind (within_invoke (hcode _ hmem func f rfl hf) _ _) fun ⟨_, out, fault?⟩ => ?_
  cases fault? with
  | some fault => exact moves_fail fault
  | none =>
    cases out with
    | some out => exact moves_check _
    | none => exact moves_malformed _

/-- Every step of an evaluation stays within the allowance that the functions it calls respect. -/
theorem compatible_within : Compatible code False fun _ x _ => A.Within x :=
  compatible_moves (fun _ _ => .of_eq rfl rfl) (fun _ _ => .of_eq rfl rfl) (within_callElement hcode)
    fun hsub => within_onceWith hsub hcode

end Code

end Evaluate

/-! ### Requests -/

namespace Control

theorem within_delete (name : String) : A.Within (delete name) := by
  refine within_looking fun m hm => ?_
  dsimp only
  split
  · exact moves_fail _
  · exact .bind (moves_valueOf _) fun _ => .optional (moves_fail _) fun _ =>
      .modify fun m' _ => ⟨hm, A.refl _⟩
  · exact moves_fail _

theorem within_print (text : String) : A.Within (print text) :=
  .modify fun m hm => ⟨hm, A.print m.host text⟩

theorem within_carryOut (list : List Request) : A.Within (carryOut list) :=
  sequential_moves.carryOut within_delete within_print list

/-! ### Programs -/

theorem within_writeBack (f : Function) (base index : Nat) (references : List (Option Handle)) :
    A.Within (writeBack f base index references) := by
  induction references generalizing index with
  | nil => exact .pure _
  | cons reference rest ih =>
    cases reference with
    | none => exact ih _
    | some var =>
      refine .bind .get fun m => ?_
      split
      · exact .bind (moves_valueOf var) fun _ => .ite (.optional (moves_fail _) fun _ =>
          .bind (moves_check _) fun _ => .bind (within_update _ _) fun _ => ih _) (ih _)
      · exact moves_malformed _

theorem within_setCounter (pc : Nat) (state : LoopState) : A.Within (setCounter pc state) :=
  within_modify (fun _ => rfl) fun _ => rfl

theorem within_nextRound (pc : Nat) (var : Handle) (initial : Option LoopState) :
    A.Within (nextRound pc var initial) := by
  refine .bind .get fun m => ?_
  split
  · split
    · exact .pure _
    · refine .bind (moves_valueOf var) fun cell => .optional (moves_fail _) fun _ =>
        .bind (moves_check _) fun _ => .bind (within_update _ _) fun _ => ?_
      refine .ite (.bind (.pure _) ?rest) (.bind (moves_check _) ?rest)
      exact fun next => .bind (within_setCounter _ _) fun _ => .pure _
  · exact moves_malformed _

section Code

variable (hcode : A.Tames code)

include hcode

theorem within_rightSide (fuel count pc : Nat) (type : ElementType) (fill : Shape) :
    A.Within (rightSide code fuel count pc type fill) :=
  (Evaluate.compatible_within hcode).rightSide (.inl rfl) count pc type fill

theorem within_assign (fuel pc : Nat) (var : Handle) (axes : Option (List Axis)) (count : Nat) :
    A.Within (assign code fuel pc var axes count) := by
  refine .bind (moves_valueOf var) fun target => ?_
  refine .ite (.bind .get fun _ => .bind (moves_check _) fun _ => .failing _ _) ?_
  cases axes with
  | none =>
    exact .bind (within_rightSide hcode fuel count _ _ _) fun _ => .bind (moves_valueOf _) fun _ =>
      .bind (moves_check _) fun _ => .bind (within_update _ _) fun _ => .pure _
  | some axes =>
    refine .bind ((Evaluate.compatible_within hcode).selection (.inl rfl) _ _ _)
      fun ⟨view, pc⟩ => .bind (within_rightSide hcode fuel count _ _ _) fun ⟨rhs, pc⟩ => ?_
    exact .bind (moves_valueOf _) fun cell => .bind (within_update _ _) fun _ =>
      .bind (moves_check _) fun _ => .pure _

theorem within_declare (fuel pc : Nat) (var : Handle) (dims : Nat) :
    A.Within (declare code fuel pc var dims) :=
  .bind ((Evaluate.compatible_within hcode).extents (.inl rfl) dims _) fun _ =>
    .bind (moves_check _) fun _ => .bind (moves_valueOf _) fun _ => .bind (moves_check _) fun _ =>
      .bind (within_update _ _) fun _ => .pure _

theorem within_arguments (fuel : Nat) (f : Function) (count index pc : Nat) :
    A.Within (arguments code fuel f count index pc) := by
  induction count generalizing index pc with
  | zero => exact .pure _
  | succ count ih =>
    exact .bind ((Evaluate.compatible_within hcode).nested (.inl rfl) pc none) fun _ =>
      .bind (moves_check _) fun _ => .bind (within_onValues _) fun _ =>
        .bind (ih _ _) fun _ => .pure _

theorem within_runFrom (hcommand : ∀ fuel pc func argc, code[pc]? = some (.command func argc) →
      A.Within (step code fuel pc (.command func argc))) (fuel pc : Nat) :
    A.Within (runFrom code fuel pc) := by
  have hclosed : Closed code fun _ x => A.Within x :=
    { sequential_moves with
      exhausted := .throw _
      pop := within_onValues _
      setCounter := within_setCounter
      value := fun fuel pc => .bind ((Evaluate.compatible_within hcode).expression (.inl rfl) pc none)
        fun _ => within_onValues _
      assign := within_assign hcode
      declare := fun _ => within_declare hcode _ _ _ _
      command := hcommand _ _ _ _
      nextRound := fun _ => within_nextRound _ _ _ }
  exact hclosed.runFrom fuel pc

end Code

end Control

end ArrayCommand
