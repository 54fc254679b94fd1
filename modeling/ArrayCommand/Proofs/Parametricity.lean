/-
Relations that evaluation respects, and properties that running keeps.

Much of what can be said of evaluating expressions is said of single steps: they leave something
alone, they stay within something, they come to the same with more fuel.  It carries over to a whole
evaluation, because an evaluation is nothing but its steps one after another.  Here this is shown
once, for every relation between two computations that is closed under the steps; what is said of a
single computation is a relation that does not look at the other one.

* `Evaluate.Steady` — a relation that is closed under the steps of a body;
* `Evaluate.Compatible` — and under calls and the end of the fuel as well;
* `Evaluate.Compatible.expression` — **such a relation holds of evaluating an expression**;
* `Evaluate.Compatible.selection`, `Evaluate.Compatible.rightSide`, … — and of what statements read;
* `Control.Closed` — a property that is closed under the steps of a program;
* `Control.Closed.runFrom` — **such a property holds of running it**.
-/

import ArrayCommand.Machine.Control

namespace ArrayCommand

variable {short c : Prop} {fuel fuel' : Nat} {code : Array Node} {node : Node}

/-- Fuel that is the same, or less if that may be. -/
def Enough (short : Prop) (fuel fuel' : Nat) : Prop := fuel = fuel' ∨ short ∧ fuel ≤ fuel'

namespace Enough

theorem zero (h : Enough short 0 fuel) : short ∨ fuel = 0 := by
  rcases h with rfl | ⟨hshort, -⟩
  · exact .inr rfl
  · exact .inl hshort

theorem succ (h : Enough short (fuel + 1) fuel') :
    ∃ fuel'', fuel' = fuel'' + 1 ∧ Enough short fuel fuel'' := by
  rcases h with rfl | ⟨hshort, hle⟩
  · exact ⟨fuel, rfl, .inl rfl⟩
  · exact ⟨fuel' - 1, by omega, .inr ⟨hshort, by omega⟩⟩

end Enough

namespace Evaluate

open Machine Stack

/-- A relation between computations that is closed under the steps of a body.  A step that looks at
the machine does not look at the counters of loops. -/
structure Steady (code : Array Node) (R : (α : Type) → MachineM α → MachineM α → Prop) : Prop where
  pure : ∀ {α : Type} (a : α), R α (pure a) (pure a)
  bind : ∀ {α β : Type} {x y : MachineM α} {f g : α → MachineM β}, R α x y →
    (∀ a, R β (f a) (g a)) → R β (x >>= f) (y >>= g)
  look : ∀ {β : Type} {f g : Machine → MachineM β},
    (∀ m counters, g { m with counters } = g m) → (∀ m, R β (f m) (g m)) →
      R β (get >>= f) (get >>= g)
  check : ∀ {α : Type} (result : Except Fault α), R α (check result) (check result)
  onRun : ∀ {α : Type} (step : EStateM Fault (Stack Scalar) α), R α (onRun step) (onRun step)
  exchange : ∀ place value,
    R PUnit
      (modify fun m => { m with run := { m.run with items := m.run.items.setIfInBounds place value } })
      (modify fun m => { m with run := { m.run with items := m.run.items.setIfInBounds place value } })
  call : ∀ {func argc : Nat} {type : ElementType}, .call func argc type ∈ code →
    R Scalar (callElement func argc type) (callElement func argc type)

/-- A relation between computations that is closed under the steps of an evaluation.  If `short`
holds, the first one may run out of fuel where the second one goes on. -/
structure Compatible (code : Array Node) (short : Prop)
    (R : (α : Type) → MachineM α → MachineM α → Prop) : Prop extends Steady code R where
  exhausted : ∀ {α : Type}, R α (throw .exhausted) (throw .exhausted)
  spent : ∀ {α : Type} (y : MachineM α), short → R α (throw .exhausted) y
  once : ∀ {sub sub' : Sub}, (∀ pc fill, R Cell (sub pc fill) (sub' pc fill)) →
    ∀ {slot func argc : Nat} {type : ElementType}, .once slot func argc type ∈ code →
      ∀ pc, R (Operand × Nat) (onceWith sub code pc func argc type)
        (onceWith sub' code pc func argc type)

variable {R : (α : Type) → MachineM α → MachineM α → Prop}
  {α β : Type}

/-! ### Bodies -/

namespace Steady

theorem ite (_ : Steady code R) [Decidable c] {x x' y y' : MachineM α} (hx : R α x y)
    (hx' : R α x' y') : R α (if c then x else x') (if c then y else y') := by
  split
  · exact hx
  · exact hx'

variable (h : Steady code R)

include h

theorem fail (fault : Fault) : R α (fail fault) (fail fault) := h.check (.error fault)

theorem malformed (detail : String) : R α (malformed detail) (malformed detail) := h.fail _

theorem guarded [Decidable c] {cause : Cause} {detail : String}
    {f g : PUnit → MachineM β} (hf : ∀ u, R β (f u) (g u)) :
    R β (if c then Machine.fail (.because cause detail) >>= f else f ⟨⟩)
      (if c then Machine.fail (.because cause detail) >>= g else g ⟨⟩) :=
  h.ite (h.bind (h.fail _) hf) (hf ⟨⟩)

theorem valueOf (var : Handle) : R Cell (valueOf var) (valueOf var) :=
  h.look (fun _ _ => rfl) fun _ => h.check _

theorem checkInterrupt : R Unit checkInterrupt checkInterrupt :=
  h.look (fun _ _ => rfl) fun _ => h.ite (h.fail _) (h.pure _)

theorem pop : R Scalar (Machine.onRun pop) (Machine.onRun pop) := h.onRun _

theorem push (value : Scalar) :
    R Unit (Machine.onRun (push value)) (Machine.onRun (push value)) := h.onRun _

theorem fetch (operands : Array Operand) (slot : Nat) (element : Element) :
    R Scalar (fetch operands slot element) (fetch operands slot element) := by
  unfold Evaluate.fetch
  split
  · exact h.malformed _
  · dsimp only
    split
    · exact h.bind (h.valueOf _) fun _ => h.check _
    · exact h.check _

theorem takeSubstring (bounds : Nat) : R Unit (takeSubstring bounds) (takeSubstring bounds) := by
  refine h.ite (h.bind h.pop fun _ => h.bind (h.check _) fun _ => h.bind (h.pure _) ?rest)
    (h.bind (h.pure _) ?rest)
  intro last
  refine h.bind h.pop fun _ => h.bind (h.check _) fun _ => h.bind h.pop fun text => ?_
  cases text with
  | text => exact h.bind (h.check _) fun _ => h.push _
  | _ => exact h.fail _

theorem coerce (want : ElementType) (depth base : Nat) :
    R Unit (coerce want depth base) (coerce want depth base) := by
  refine h.look (fun _ _ => rfl) fun m => h.guarded fun _ => ?_
  dsimp only
  split
  · exact h.pure _
  · split
    case h_1 => exact h.exchange _ _
    case h_2 fault _ =>
      exact h.bind (h.exchange _ _) fun _ => h.fail fault

theorem decides (disjunction : Bool) : R Bool (decides disjunction) (decides disjunction) := by
  refine h.look (fun _ _ => rfl) fun m => ?_
  split
  · exact h.malformed _
  · exact h.bind (h.check _) fun _ => h.ite (h.pure _) (h.bind h.pop fun _ => h.pure _)

theorem instruction (operands : Array Operand) (element : Element) (base : Nat)
    (hmem : node ∈ code) :
    R Unit (instruction operands element base node) (instruction operands element base node) := by
  cases node with
  | const value => exact h.push _
  | operand slot => exact h.bind (h.fetch operands slot element) h.push
  | placeholder => exact h.push _
  | call func argc type => exact h.bind (h.call hmem) h.push
  | substring bounds => exact h.takeSubstring bounds
  | coerce want depth => exact h.coerce want depth base
  | neg type => exact h.bind h.pop fun _ => h.bind (h.check _) h.push
  | not => exact h.bind h.pop fun _ => h.bind (h.check _) h.push
  | binary op type =>
    exact h.bind (h.onRun _) fun _ => h.bind (h.check _) h.push
  | _ => exact h.malformed _

theorem elements {value value' : Element → MachineM Scalar}
    (hvalue : ∀ element, R Scalar (value element) (value' element)) (indices : List Index)
    (number : Nat) (out : Cell) :
    R Cell (elements value indices number out) (elements value' indices number out) := by
  induction indices generalizing number out with
  | nil => exact h.pure _
  | cons index rest ih =>
    exact h.bind h.checkInterrupt fun _ => h.bind (hvalue _) fun _ =>
      h.bind (h.check _) fun _ => ih _ _

end Steady

namespace Compatible

variable (h : Compatible code short R)

include h

theorem body (stop : Nat) (operands : Array Operand) (element : Element) (base : Nat)
    (hfuel : Enough short fuel fuel') (pc : Nat) :
    R Unit (body code stop operands element base fuel pc)
      (body code stop operands element base fuel' pc) := by
  induction fuel generalizing fuel' pc with
  | zero =>
    rcases hfuel.zero with hshort | rfl
    · exact h.spent _ hshort
    · exact h.exhausted
  | succ fuel ih =>
    obtain ⟨fuel', rfl, hless⟩ := hfuel.succ
    have ih := ih hless
    refine h.ite (h.pure _) ?_
    split
    case h_1 => exact h.malformed _
    case h_2 =>
      refine h.bind (h.decides false) fun _ => h.ite ?_ (ih _)
      split
      · exact ih _
      · exact h.pure _
    case h_3 =>
      refine h.bind (h.decides true) fun _ => h.ite ?_ (ih _)
      split
      · exact ih _
      · exact h.pure _
    case h_4 hnode =>
      exact h.bind (h.instruction operands element base (Array.mem_of_getElem? hnode)) fun _ => ih _

theorem elementValue (start stop : Nat) (operands : Array Operand)
    (hfuel : Enough short fuel fuel') (element : Element) :
    R Scalar (elementValue code start stop operands fuel element)
      (elementValue code start stop operands fuel' element) :=
  h.look (fun _ _ => rfl) fun _ => h.bind (h.body stop operands element _ hfuel start) fun _ =>
    h.bind h.pop fun _ => h.look (fun _ _ => rfl) fun _ => h.guarded fun _ => h.pure _

/-! ### Nested expressions -/

section Nested

variable {sub sub' : Sub} (hsub : ∀ pc fill, R Cell (sub pc fill) (sub' pc fill))

include hsub

theorem nestedWith (pc : Nat) (fill : Option Shape) :
    R _ (nestedWith sub code pc fill) (nestedWith sub' code pc fill) := by
  refine h.bind ?_ fun _ => h.bind (hsub pc fill) fun _ => h.pure _
  rw [lengthAt]
  split
  · exact h.pure _
  · exact h.malformed _

theorem integerWith (pc : Nat) : R _ (integerWith sub code pc) (integerWith sub' code pc) :=
  h.bind (h.nestedWith hsub pc none) fun _ => h.bind (h.check _) fun _ => h.pure _

theorem optionWith (pc : Nat) (there : Bool) :
    R _ (optionWith sub code pc there) (optionWith sub' code pc there) :=
  h.ite (h.bind (h.integerWith hsub pc) fun _ => h.pure _) (h.pure _)

theorem axisWith (pc axis extent : Nat) (a : Axis) :
    R _ (axisWith sub code pc axis extent a) (axisWith sub' code pc axis extent a) := by
  cases a with
  | all => exact h.bind (h.check _) fun _ => h.pure _
  | «at» =>
    exact h.bind (h.integerWith hsub pc) fun _ => h.bind (h.check _) fun _ => h.pure _
  | range hasFirst hasLast hasStep =>
    refine h.bind (h.optionWith hsub pc hasFirst) fun ⟨first, pc⟩ => ?_
    refine h.bind (h.optionWith hsub pc hasLast) fun ⟨last, pc⟩ => ?_
    refine h.bind (h.optionWith hsub pc hasStep) fun ⟨step, pc⟩ => ?_
    exact h.guarded fun _ => h.bind (h.check _) fun _ => h.pure _

theorem axesWith (shape : Shape) (axes : List Axis) (pc axis : Nat) (base : Int) :
    R _ (axesWith sub code shape pc axis base axes) (axesWith sub' code shape pc axis base axes) := by
  induction axes generalizing pc axis base with
  | nil => exact h.pure _
  | cons a rest ih =>
    exact h.bind (h.axisWith hsub pc axis _ a) fun ⟨_, pc⟩ =>
      h.bind (h.check _) fun base => h.bind (ih pc (axis + 1) base) fun _ => h.pure _

theorem sectionWith (pc : Nat) (shape : Shape) (axes : List Axis) :
    R _ (sectionWith sub code pc shape axes) (sectionWith sub' code pc shape axes) := by
  refine h.guarded fun _ => h.bind (h.axesWith hsub shape axes pc 0 0) fun ⟨ranges, pc⟩ => ?_
  exact h.bind (h.check _) fun _ => h.pure _

theorem extentsWith (count pc : Nat) :
    R _ (extentsWith sub code count pc) (extentsWith sub' code count pc) := by
  induction count generalizing pc with
  | zero => exact h.pure _
  | succ count ih =>
    exact h.bind (h.integerWith hsub pc) fun ⟨_, pc⟩ => h.guarded fun _ =>
      h.bind (ih pc) fun _ => h.pure _

theorem arrayWith (pc : Nat) (var : Handle) (cast : Nat) :
    R _ (arrayWith sub code pc var cast) (arrayWith sub' code pc var cast) :=
  h.bind (h.valueOf var) fun _ => h.ite (h.pure _) <|
    h.bind (h.extentsWith hsub cast pc) fun _ => h.bind (h.check _) fun _ =>
      h.guarded fun _ => h.pure _

theorem operandsWith (count pc : Nat) :
    R _ (operandsWith sub code count pc) (operandsWith sub' code count pc) := by
  induction count generalizing pc with
  | zero => exact h.pure _
  | succ count ih =>
    have hrest (first : Operand × Nat) : R _
        (Evaluate.operandsWith sub code count first.2 >>= fun rest =>
          pure (first.1 :: rest.1, rest.2))
        (Evaluate.operandsWith sub' code count first.2 >>= fun rest =>
          pure (first.1 :: rest.1, rest.2)) := h.bind (ih first.2) fun _ => h.pure _
    rw [Evaluate.operandsWith, Evaluate.operandsWith]
    split
    case h_1 => exact h.bind (h.arrayWith hsub _ _ _) hrest
    case h_2 =>
      exact h.bind (h.valueOf _) fun _ => h.bind (h.sectionWith hsub _ _ _) fun _ =>
        h.bind (h.pure _) hrest
    case h_3 hnode => exact h.bind (h.once hsub (Array.mem_of_getElem? hnode) _) hrest
    case h_4 => exact h.bind (h.malformed _) hrest
    case h_5 => exact h.bind (h.malformed _) hrest

end Nested

/-! ### Whole expressions -/

/-- A relation that is closed under the steps of an evaluation holds of evaluating an expression. -/
theorem expression (hfuel : Enough short fuel fuel') (pc : Nat) (fill : Option Shape) :
    R Cell (expression code fuel pc fill) (expression code fuel' pc fill) := by
  induction fuel generalizing fuel' pc fill with
  | zero =>
    rcases hfuel.zero with hshort | rfl
    · exact h.spent _ hshort
    · exact h.exhausted
  | succ fuel ih =>
    obtain ⟨fuel', rfl, hless⟩ := hfuel.succ
    rw [Evaluate.expression, Evaluate.expression]
    split
    · split
      · exact h.bind (h.valueOf _) fun _ => h.pure _
      · exact h.pure _
      · refine h.bind (h.operandsWith (ih hless) _ _) fun _ => h.bind (h.check _) fun _ => ?_
        exact h.bind (h.check _) fun _ => h.elements (h.elementValue _ _ _ hfuel) _ _ _
    · exact h.malformed _

section Reading

variable (hfuel : Enough short fuel fuel')

include hfuel

theorem nested (pc : Nat) (fill : Option Shape) :
    R _ (nested code fuel pc fill) (nested code fuel' pc fill) :=
  h.nestedWith (h.expression hfuel) pc fill

theorem operands (count pc : Nat) :
    R _ (Evaluate.operandsWith (Evaluate.expression code fuel) code count pc)
      (Evaluate.operandsWith (Evaluate.expression code fuel') code count pc) :=
  h.operandsWith (h.expression hfuel) count pc

theorem selection (pc : Nat) (shape : Shape) (axes : List Axis) :
    R _ (Evaluate.sectionWith (Evaluate.expression code fuel) code pc shape axes)
      (Evaluate.sectionWith (Evaluate.expression code fuel') code pc shape axes) :=
  h.sectionWith (h.expression hfuel) pc shape axes

theorem extents (count pc : Nat) :
    R _ (Evaluate.extentsWith (Evaluate.expression code fuel) code count pc)
      (Evaluate.extentsWith (Evaluate.expression code fuel') code count pc) :=
  h.extentsWith (h.expression hfuel) count pc

theorem listItems (count index pc : Nat) (list : Cell) :
    R _ (Control.listItems code fuel count index pc list)
      (Control.listItems code fuel' count index pc list) := by
  induction count generalizing index pc list with
  | zero => exact h.pure _
  | succ count ih =>
    exact h.bind (h.nested hfuel pc none) fun _ => h.guarded fun _ =>
      h.bind (h.check _) fun _ => h.bind (h.check _) fun _ => ih _ _ _

theorem rightSide (count pc : Nat) (type : ElementType) (fill : Shape) :
    R _ (Control.rightSide code fuel count pc type fill)
      (Control.rightSide code fuel' count pc type fill) :=
  h.ite (h.nested hfuel pc _) (h.listItems hfuel count 0 pc _)

end Reading

end Compatible

end Evaluate

/-! ### Programs -/

namespace Control

open Machine Stack

/-- A property of computations that holds of several if it holds of each. -/
structure Sequential (P : (α : Type) → MachineM α → Prop) : Prop where
  pure : ∀ {α : Type} (a : α), P α (pure a)
  bind : ∀ {α β : Type} {x : MachineM α} {f : α → MachineM β}, P α x → (∀ a, P β (f a)) →
    P β (x >>= f)
  look : P Machine get
  check : ∀ {α : Type} (result : Except Fault α), P α (check result)

/-- A property of computations that is closed under the steps of a program.  What a node does to
variables and what a command does is left to the property. -/
structure Closed (code : Array Node) (P : (α : Type) → MachineM α → Prop) : Prop
    extends Sequential P where
  exhausted : ∀ {α : Type}, P α (throw .exhausted)
  pop : P Cell (onValues pop)
  setCounter : ∀ pc state, P Unit (setCounter pc state)
  value : ∀ fuel pc, P Unit (Evaluate.expression code fuel pc none >>= fun c => onValues (push c))
  assign : ∀ fuel pc var axes count, P Nat (assign code fuel pc var axes count)
  declare : ∀ {fuel pc var dims}, code[pc]? = some (.declare var dims) →
    P Nat (declare code fuel pc var dims)
  command : ∀ {fuel pc func argc}, code[pc]? = some (.command func argc) →
    P Next (step code fuel pc (.command func argc))
  nextRound : ∀ {pc var state exit}, code[pc]? = some (.loopCounter var state exit) →
    P Bool (nextRound pc var state)

variable {P : (α : Type) → MachineM α → Prop} {α β : Type}

namespace Sequential

theorem ite (_ : Sequential P) [Decidable c] {x y : MachineM α} (hx : P α x)
    (hy : P α y) : P α (if c then x else y) := by
  split
  · exact hx
  · exact hy

variable (h : Sequential P)

include h

theorem fail (fault : Fault) : P α (fail fault) := h.check (.error fault)

theorem malformed (detail : String) : P α (malformed detail) := h.fail _

theorem carryOut (hdelete : ∀ name, P Unit (delete name)) (hprint : ∀ text, P Unit (print text))
    (list : List Request) : P (Option Flow) (carryOut list) := by
  induction list with
  | nil => exact h.pure _
  | cons request rest ih =>
    cases request with
    | delete name => exact h.bind (hdelete name) fun _ => ih
    | list beginning =>
      exact h.bind h.look fun _ => h.bind (h.check _) fun _ => h.bind (hprint _) fun _ => ih
    | help topic =>
      exact h.bind h.look fun _ => h.bind (h.check _) fun _ => h.bind (hprint _) fun _ => ih
    | exit mode => exact h.pure _

end Sequential

namespace Closed

variable (h : Closed code P)

include h

theorem loopInit (pc : Nat) (counter : Int) (hasStep : Bool) :
    P Unit (loopInit code pc counter hasStep) := by
  refine h.ite (h.bind h.pop fun _ => h.bind (h.pure _) ?rest) (h.bind (h.pure _) ?rest)
  intro step
  refine h.bind h.pop fun stop => h.bind h.pop fun start => ?_
  split
  · split
    · exact h.bind (h.bind h.look fun _ => h.check _) fun _ =>
        h.bind (h.check _) fun _ => h.setCounter _ _
    · exact h.malformed _
  · exact h.malformed _

theorem popCondition : P Bool popCondition := by
  refine h.bind h.pop fun cell => h.ite (h.bind (h.fail _) ?rest) (?rest ⟨⟩)
  exact fun _ => h.bind (h.check _) fun _ => h.check _

theorem step (fuel : Nat) {pc : Nat} (hnode : code[pc]? = some node) :
    P Next (step code fuel pc node) := by
  cases node with
  | expr header =>
    have hvalue := h.bind (h.value fuel pc) fun _ => h.pure (Next.at (behind pc header.length))
    rwa [bind_assoc] at hvalue
  | assign var axes count => exact h.bind (h.assign fuel pc var axes count) fun _ => h.pure _
  | command func argc => exact h.command hnode
  | declare var dims => exact h.bind (h.declare hnode) fun _ => h.pure _
  | branch offset => exact h.pure _
  | branchIfFalse offset => exact h.bind h.popCondition fun _ => h.ite (h.pure _) (h.pure _)
  | gate exit next => exact h.pure _
  | via offset leave =>
    rw [Control.step]
    split
    · split
      · exact h.pure _
      · exact h.malformed _
    · exact h.malformed _
  | loopInit counter hasStep => exact h.bind (h.loopInit pc counter hasStep) fun _ => h.pure _
  | loopCounter var state exit =>
    exact h.bind (h.nextRound hnode) fun _ => h.ite (h.pure _) (h.pure _)
  | stop => exact h.pure _
  | _ => exact h.malformed _

theorem runFrom (fuel pc : Nat) : P Flow (runFrom code fuel pc) := by
  induction fuel generalizing pc with
  | zero => exact h.exhausted
  | succ fuel ih =>
    have hinterrupt : P Unit checkInterrupt :=
      h.bind h.look fun _ => h.ite (h.fail _) (h.pure _)
    rw [Control.runFrom]
    split
    case h_1 => exact h.pure _
    case h_2 node hnode =>
      refine h.bind hinterrupt fun _ => h.bind (h.step fuel hnode) fun next => ?_
      cases next with
      | «at» pc => exact ih pc
      | done flow => exact h.pure _

end Closed

end Control

end ArrayCommand
