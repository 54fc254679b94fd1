/-
What computations leave alone.

A computation that fails keeps what it did before it failed, so what can be said of the state it
leaves off in depends on how it ended.  A frame is a pair of relations between the first and the
last state, one for success and one for failure, that hold of a sequence of steps if they hold of
each step.  Evaluating an expression may print, draw random numbers and use the stacks, but it never
touches the names and the variables, whatever the nodes are; if it succeeds, the stack of cells is
back at what it was.

* `Leads` — where a computation leads if it succeeds, and if it fails;
* `Frame`, `Moves` — relations that can be followed step by step, and computations within them;
* `Machine.evaluation` — the frame of everything that only evaluates;
* `Evaluate.moves_expression` — evaluating an expression stays within that frame.
-/

import Mathlib.Order.Defs.Unbundled
import ArrayCommand.Proofs.Parametricity
import ArrayCommand.Proofs.Tracking

namespace ArrayCommand

/-! ### Where a computation leads -/

section Frames

variable {ε σ α β : Type} {e : ε} {R : σ → σ → Prop}
variable {x : EStateM ε σ α} {f : α → EStateM ε σ β} {s s' : σ}

theorem bind_eq_error :
    (x >>= f) s = .error e s' ↔
      x s = .error e s' ∨ ∃ a s₁, x s = .ok a s₁ ∧ f a s₁ = .error e s' := by
  change EStateM.bind x f s = .error e s' ↔ _
  rw [EStateM.bind]
  cases x s with
  | ok a s₁ => exact ⟨fun h => .inr ⟨a, s₁, rfl, h⟩, by rintro (h | ⟨_, _, h, h'⟩) <;> grind⟩
  | error e₁ s₁ => simp

/-- From every state a computation leads to a state that stands in one relation to it if it succeeds
there, and in another one if it fails. -/
structure Leads (ok error : σ → σ → Prop) (x : EStateM ε σ α) : Prop where
  run : ∀ s,
    match x s with
    | .ok _ s' => ok s s'
    | .error _ s' => error s s'

theorem Leads.ok {ok error : σ → σ → Prop} (h : Leads ok error x) {a : α} (hx : x s = .ok a s') :
    ok s s' := by
  have h := h.run s
  rwa [hx] at h

theorem Leads.error {ok error : σ → σ → Prop} (h : Leads ok error x)
    (hx : x s = .error e s') : error s s' := by
  have h := h.run s
  rwa [hx] at h

theorem Leads.bind {first next ok error : σ → σ → Prop} (hx : Leads first error x)
    (hf : ∀ a, Leads next error (f a)) (hok : ∀ {s t u}, first s t → next t u → ok s u)
    (herror : ∀ {s t u}, first s t → error t u → error s u) : Leads ok error (x >>= f) := by
  refine ⟨fun s => ?_⟩
  have h := hx.run s
  change match EStateM.bind x f s with
    | .ok _ s' => ok s s'
    | .error _ s' => error s s'
  rw [EStateM.bind]
  generalize x s = r at h
  cases r with
  | error e s₁ => exact h
  | ok a s₁ =>
    have h' := (hf a).run s₁
    dsimp only at h h' ⊢
    generalize f a s₁ = r at h'
    cases r with
    | ok b s₂ => exact hok h h'
    | error e s₂ => exact herror h h'

theorem Leads.remember {ok error : σ → σ → Prop} {f : σ → EStateM ε σ β}
    (h : ∀ s, Leads (fun t u => t = s → ok t u) error (f s)) : Leads ok error (get >>= f) := by
  refine ⟨fun s => ?_⟩
  have h := (h s).run s
  change match f s s with
    | .ok _ s' => ok s s'
    | .error _ s' => error s s'
  generalize f s s = r at h
  cases r with
  | ok b s' => exact h rfl
  | error e s' => exact h

/-- Relations between the first and the last state that can be followed step by step. -/
structure Frame (σ : Type) where
  ok : σ → σ → Prop
  error : σ → σ → Prop
  refl_ok : ∀ s, ok s s
  refl_error : ∀ s, error s s
  trans_ok : ∀ {s t u}, ok s t → ok t u → ok s u
  trans_error : ∀ {s t u}, ok s t → error t u → error s u

/-- The frame of a relation that holds in either case. -/
def Frame.of (R : σ → σ → Prop) [IsPreorder σ R] : Frame σ where
  ok := R
  error := R
  refl_ok := refl_of R
  refl_error := refl_of R
  trans_ok := trans_of R
  trans_error := trans_of R

def Moves (F : Frame σ) (x : EStateM ε σ α) : Prop := Leads F.ok F.error x

namespace Moves

variable {F : Frame σ}

theorem pure (a : α) : Moves F (pure a : EStateM ε σ α) := ⟨F.refl_ok⟩

theorem throw (e : ε) : Moves F (throw e : EStateM ε σ α) := ⟨F.refl_error⟩

theorem get : Moves F (get : EStateM ε σ σ) := ⟨F.refl_ok⟩

theorem modify {f : σ → σ} (h : ∀ s, F.ok s (f s)) : Moves F (modify f : EStateM ε σ PUnit) :=
  ⟨h⟩

theorem bind (hx : Moves F x) (hf : ∀ a, Moves F (f a)) : Moves F (x >>= f) :=
  Leads.bind hx hf F.trans_ok F.trans_error

theorem ite {c : Prop} [Decidable c] {y : EStateM ε σ α} (hx : Moves F x) (hy : Moves F y) :
    Moves F (if c then x else y) := by
  split
  · exact hx
  · exact hy

theorem optional {c : Prop} [Decidable c] {x : EStateM ε σ PUnit} {f : PUnit → EStateM ε σ β}
    (hx : Moves F x) (hf : ∀ u, Moves F (f u)) : Moves F (if c then x >>= f else f ⟨⟩) :=
  .ite (hx.bind hf) (hf ⟨⟩)

theorem failing (e : ε) (f : α → EStateM ε σ β) :
    Moves F ((MonadExcept.throw e : EStateM ε σ α) >>= f) :=
  ⟨F.refl_error⟩

/-- The state in which a computation leaves off, if the frame has one relation for both cases. -/
theorem leftIn [IsPreorder σ R] (h : Moves (.of R) x) (s : σ) :
    R s (ArrayCommand.leftIn (x s)) := by
  have h := h.run s
  generalize x s = r at h
  cases r <;> exact h

theorem of_leftIn [IsPreorder σ R] (h : ∀ s, R s (ArrayCommand.leftIn (x s))) :
    Moves (.of R) x := by
  refine ⟨fun s => ?_⟩
  have h := h s
  generalize x s = r at h
  cases r <;> exact h

end Moves

theorem leftIn_bind {P : σ → Prop} (herror : ∀ e s', x s = .error e s' → P s')
    (hok : ∀ a s', x s = .ok a s' → P (leftIn (f a s'))) : P (leftIn ((x >>= f) s)) := by
  rw [bind_apply]
  cases hx : x s with
  | ok a s' => exact hok a s' hx
  | error e s' => exact herror e s' hx

end Frames

/-! ### The machine -/

namespace Machine

variable {n size : Nat} {m m₁ m₂ m' : Machine}

section Still

variable {α : Type} {F : Frame Machine} {result : Except Fault α}

theorem moves_fail (fault : Fault) : Moves F (fail (α := α) fault) := .throw _

theorem moves_malformed (detail : String) : Moves F (malformed (α := α) detail) := .throw _

theorem moves_check (result : Except Fault α) : Moves F (check result) := by
  cases result with
  | ok a => exact .pure a
  | error fault => exact .throw _

theorem moves_checkInterrupt : Moves F checkInterrupt :=
  .bind .get fun _ => .ite (moves_fail _) (.pure _)

theorem moves_valueOf (var : Handle) : Moves F (valueOf var) := .bind .get fun _ => moves_check _

theorem moves_onRun (hok : ∀ m run, F.ok m { m with run }) (herror : ∀ m run, F.error m { m with run })
    (step : EStateM Fault (Stack Scalar) α) : Moves F (onRun step) := by
  refine ⟨fun m => ?_⟩
  rw [onRun]
  cases step m.run with
  | ok a run => exact hok m run
  | error fault run => exact herror m run

theorem moves_onValues (hok : ∀ m values, F.ok m { m with values })
    (herror : ∀ m values, F.error m { m with values }) (step : EStateM Fault (Stack Cell) α) :
    Moves F (onValues step) := by
  refine ⟨fun m => ?_⟩
  rw [onValues]
  cases step m.values with
  | ok a values => exact hok m values
  | error fault values => exact herror m values

theorem moves_functionOf (func : Nat) : Moves F (functionOf func) := by
  refine .bind .get fun m => ?_
  split
  · exact .pure _
  · exact moves_malformed _

theorem moves_lengthAt (code : Array Node) (pc : Nat) : Moves F (lengthAt code pc) := by
  rw [lengthAt]
  split
  · exact .pure _
  · exact moves_malformed _

theorem check_eq_ok {a : α} : check result m = .ok a m' ↔ result = .ok a ∧ m' = m := by
  cases result with
  | ok b =>
    constructor
    · rintro ⟨⟩
      exact ⟨rfl, rfl⟩
    · rintro ⟨⟨⟩, rfl⟩
      rfl
  | error fault =>
    constructor
    · rintro ⟨⟩
    · rintro ⟨⟨⟩, -⟩

theorem check_eq_error {failure : Failure} :
    check result m = .error failure m' ↔
      ∃ fault, result = .error fault ∧ failure = .fault fault ∧ m' = m := by
  cases result with
  | ok b =>
    constructor
    · rintro ⟨⟩
    · rintro ⟨_, ⟨⟩, -⟩
  | error fault =>
    constructor
    · rintro ⟨⟩
      exact ⟨fault, rfl, rfl, rfl⟩
    · rintro ⟨_, ⟨⟩, rfl, rfl⟩
      rfl

theorem valueOf_eq_ok {var : Handle} {c : Cell} :
    valueOf var m = .ok c m' ↔ m.workspace.memory.value var = .ok c ∧ m' = m := check_eq_ok

theorem lengthAt_eq_ok {code : Array Node} {pc length : Nat}
    (h : lengthAt code pc m = .ok length m') :
    ∃ header, code[pc]? = some (.expr header) ∧ length = header.length ∧ m' = m := by
  rw [lengthAt] at h
  cases hnode : code[pc]? with
  | none =>
    rw [hnode] at h
    cases h
  | some node =>
    rw [hnode] at h
    cases node with
    | expr header =>
      cases h
      exact ⟨header, rfl, rfl, rfl⟩
    | _ => cases h

theorem functionOf_eq_ok {func : Nat} {f : Function} (h : functionOf func m = .ok f m') :
    m.workspace.functions[func]? = some f ∧ m' = m := by
  rw [functionOf, get_bind_apply] at h
  cases hf : m.workspace.functions[func]? with
  | none => simp [hf, malformed, fail] at h; cases h
  | some g =>
    rw [hf] at h
    cases h
    exact ⟨rfl, rfl⟩

end Still

/-- What only evaluates leaves the names and the variables alone, and if it succeeds, the stack of
cells is back at what it was. -/
def evaluation : Frame Machine where
  ok m m' := m'.workspace = m.workspace ∧ m'.values = m.values
  error m m' := m'.workspace = m.workspace
  refl_ok _ := ⟨rfl, rfl⟩
  refl_error _ := rfl
  trans_ok h h' := ⟨h'.1.trans h.1, h'.2.trans h.2⟩
  trans_error h h' := h'.trans h.1

theorem moves_invoke (f : Function) (args : Array Cell) (out : Option Cell) :
    Moves evaluation (invoke f args out) := by
  refine Leads.remember fun m => ?_
  cases f.native ⟨m.host, args, out⟩ with
  | ok _ c => exact ⟨fun _ h => h ▸ ⟨rfl, rfl⟩⟩
  | error fault c => exact ⟨fun _ h => h ▸ ⟨rfl, rfl⟩⟩

/-- Cells were put on the stack, and the names and the variables are the same. -/
def Pushed (count : Nat) (m m' : Machine) : Prop :=
  m'.workspace = m.workspace ∧
    ∃ cells : Array Cell, cells.size = count ∧ m'.values.items = m.values.items ++ cells ∧
      m'.values.title = m.values.title ∧ m'.values.limit = m.values.limit

theorem Pushed.zero (m : Machine) : Pushed 0 m m := ⟨rfl, #[], rfl, by simp, rfl, rfl⟩

theorem Pushed.trans {k : Nat} (h : Pushed n m m₁) (h' : Pushed k m₁ m₂) : Pushed (n + k) m m₂ := by
  obtain ⟨hw, cells, hsize, hitems, htitle, hlimit⟩ := h
  obtain ⟨hw', cells', hsize', hitems', htitle', hlimit'⟩ := h'
  refine ⟨hw'.trans hw, cells ++ cells', ?_, ?_, htitle'.trans htitle, hlimit'.trans hlimit⟩
  · rw [Array.size_append, hsize, hsize']
  · rw [hitems', hitems, Array.append_assoc]

theorem Pushed.after (h : evaluation.ok m m₁) (h' : Pushed n m₁ m₂) : Pushed n m m₂ := by
  obtain ⟨hw', cells, hsize, hitems, htitle, hlimit⟩ := h'
  rw [h.2] at hitems htitle hlimit
  exact ⟨hw'.trans h.1, cells, hsize, hitems, htitle, hlimit⟩

theorem Pushed.before (h : Pushed n m m₁) (h' : evaluation.ok m₁ m₂) : Pushed n m m₂ := by
  obtain ⟨hw, hvalues⟩ := h
  rw [← h'.2] at hvalues
  exact ⟨h'.1.trans hw, hvalues⟩

theorem Pushed.trans_error (h : Pushed n m m₁) (h' : evaluation.error m₁ m₂) :
    evaluation.error m m₂ :=
  h'.trans h.1

theorem Pushed.truncate (h : Pushed n m m') : m'.values.truncate m.values.size = m.values := by
  obtain ⟨-, cells, -, hitems, htitle, hlimit⟩ := h
  have hkept : (m.values.items ++ cells).take m.values.items.size = m.values.items := by simp
  rw [Stack.truncate, hitems, htitle, hlimit, Stack.size, hkept]

theorem Pushed.tail (h : Pushed n m m') :
    ∃ cells, cells.size = n ∧ m'.values.tail n = .ok cells := by
  obtain ⟨-, cells, rfl, hitems, -⟩ := h
  have hsize : m'.values.size = m.values.size + cells.size := by
    rw [Stack.size, hitems, Array.size_append, Stack.size]
  refine ⟨cells, rfl, ?_⟩
  rw [Stack.tail, if_neg (by omega), hsize, Nat.add_sub_cancel, hitems, Stack.size]
  simp

theorem Pushed.replaceTail (h : Pushed n m m') {cells : Array Cell} (hcells : cells.size = n) :
    (m'.values.replaceTail cells).items = m.values.items ++ cells := by
  obtain ⟨-, old, hold, hitems, -⟩ := h
  have hsize : m'.values.size - cells.size = m.values.items.size := by
    rw [Stack.size, hitems, Array.size_append, hold, hcells, Nat.add_sub_cancel]
  rw [Stack.replaceTail, hsize, hitems]
  simp

/-- The stack was cut to a size, and the names and the variables are the same. -/
def CutTo (size : Nat) (m m' : Machine) : Prop :=
  m'.workspace = m.workspace ∧ m'.values = m.values.truncate size

theorem CutTo.after (h : evaluation.ok m m₁) (h' : CutTo size m₁ m₂) : CutTo size m m₂ :=
  ⟨h'.1.trans h.1, h.2 ▸ h'.2⟩

theorem CutTo.before (h : CutTo size m m₁) (h' : evaluation.ok m₁ m₂) : CutTo size m m₂ :=
  ⟨h'.1.trans h.1, h'.2.trans h.2⟩

theorem CutTo.trans_error (h : CutTo size m m₁) (h' : evaluation.error m₁ m₂) :
    evaluation.error m m₂ :=
  h'.trans h.1

theorem leads_truncate (size : Nat) :
    Leads (ε := Failure) (CutTo size) evaluation.error
      (modify fun m => { m with values := m.values.truncate size }) :=
  ⟨fun _ => ⟨rfl, rfl⟩⟩

theorem leads_push (cell : Cell) :
    Leads (Pushed 1) evaluation.error (onValues (Stack.push cell)) := by
  refine ⟨fun m => ?_⟩
  rw [onValues, Stack.push]
  cases Stack.check { m.values with items := m.values.items.push cell } with
  | ok _ => exact ⟨rfl, #[cell], rfl, by simp, rfl, rfl⟩
  | error fault => rfl

end Machine

/-! ### Evaluation -/

namespace Evaluate

open Machine

theorem moves_nestedWith {F : Frame Machine} {sub : Sub} (hsub : ∀ pc fill, Moves F (sub pc fill))
    (code : Array Node) (pc : Nat) (fill : Option Shape) : Moves F (nestedWith sub code pc fill) :=
  .bind (moves_lengthAt code pc) fun _ => .bind (hsub pc fill) fun _ => .pure _

section Nested

variable {sub : Sub} (hsub : ∀ pc fill, Moves evaluation (sub pc fill)) (code : Array Node)

include hsub

theorem leads_argumentsWith (f : Function) (count index pc : Nat) :
    Leads (Pushed count) evaluation.error (argumentsWith sub code f count index pc) := by
  induction count generalizing index pc with
  | zero => exact ⟨fun m => .zero m⟩
  | succ count ih =>
    refine .bind (moves_nestedWith hsub code pc none) (fun first => ?_) Pushed.after
      evaluation.trans_error
    refine .bind (moves_check _) (fun _ => ?_) Pushed.after evaluation.trans_error
    exact .bind (leads_push _) (fun _ => ih _ _)
      (fun h h' => Nat.add_comm count 1 ▸ h.trans h') Pushed.trans_error

theorem moves_onceWith (pc func argc : Nat) (type : ElementType) :
    Moves evaluation (onceWith sub code pc func argc type) := by
  refine .bind (moves_functionOf func) fun f => Leads.remember fun m => ?_
  -- What follows the arguments cuts the stack to the size it had before them.
  refine Leads.bind (leads_argumentsWith hsub code f argc 0 pc)
    (fun pc => (?_ : Leads (CutTo m.values.size) _ _))
    (fun h h' hm => ⟨h'.1.trans h.1, h'.2.trans (hm ▸ h.truncate)⟩) Pushed.trans_error
  refine .bind (Moves.get : Moves evaluation _) (fun m₁ => ?_) CutTo.after evaluation.trans_error
  refine .bind (moves_check _) (fun args => ?_) CutTo.after evaluation.trans_error
  refine .bind (moves_invoke f args _) (fun ⟨_, out, fault?⟩ => ?_) CutTo.after
    evaluation.trans_error
  refine .bind (leads_truncate _) (fun _ => (?_ : Moves evaluation _)) CutTo.before
    CutTo.trans_error
  cases fault? with
  | some fault => exact moves_fail fault
  | none => exact .ite (.bind (.pure _) fun _ => .pure _) (.bind (moves_check _) fun _ => .pure _)

end Nested

theorem moves_callElement (func argc : Nat) (type : ElementType) :
    Moves evaluation (callElement func argc type) := by
  refine .bind (moves_functionOf func) fun f => ?_
  refine .bind (moves_onRun (F := evaluation) (fun _ _ => ⟨rfl, rfl⟩) (fun _ _ => rfl) _) fun args => ?_
  refine .bind (moves_invoke f _ _) fun ⟨_, out, fault?⟩ => ?_
  cases fault? with
  | some fault => exact moves_fail fault
  | none =>
    cases out with
    | some out => exact moves_check _
    | none => exact moves_malformed _

/-- An evaluation stays within every frame that lets the run stack change and that the calls stay
within. -/
theorem compatible_moves {F : Frame Machine} {code : Array Node}
    (hok : ∀ m run, F.ok m { m with run }) (herror : ∀ m run, F.error m { m with run })
    (hcall : ∀ {func argc type}, .call func argc type ∈ code → Moves F (callElement func argc type))
    (honce : ∀ {sub : Sub}, (∀ pc fill, Moves F (sub pc fill)) → ∀ {slot func argc type},
      .once slot func argc type ∈ code → ∀ pc, Moves F (onceWith sub code pc func argc type)) :
    Compatible code False fun _ x _ => Moves F x where
  pure a := .pure a
  bind hx hf := .bind hx hf
  look _ hf := .bind .get hf
  check _ := moves_check _
  onRun _ := moves_onRun hok herror _
  exchange _ _ := .modify fun m => hok m _
  call := hcall
  exhausted := .throw _
  spent _ := False.elim
  once hsub _ _ _ _ := honce hsub

theorem compatible_evaluation (code : Array Node) :
    Compatible code False fun _ x _ => Moves evaluation x :=
  compatible_moves (fun _ _ => ⟨rfl, rfl⟩) (fun _ _ => rfl) (fun _ => moves_callElement _ _ _)
    fun hsub _ _ _ _ _ pc => moves_onceWith hsub code pc _ _ _

theorem moves_expression (code : Array Node) (fuel pc : Nat) (fill : Option Shape) :
    Moves evaluation (expression code fuel pc fill) :=
  (compatible_evaluation code).expression (.inl rfl) pc fill

theorem moves_nested (code : Array Node) (fuel pc : Nat) (fill : Option Shape) :
    Moves evaluation (nested code fuel pc fill) :=
  moves_nestedWith (moves_expression code fuel) code pc fill

theorem moves_sectionWith (code : Array Node) (fuel pc : Nat) (shape : Shape) (axes : List Axis) :
    Moves evaluation (sectionWith (expression code fuel) code pc shape axes) :=
  (compatible_evaluation code).selection (.inl rfl) pc shape axes

theorem moves_extentsWith (code : Array Node) (fuel count pc : Nat) :
    Moves evaluation (extentsWith (expression code fuel) code count pc) :=
  (compatible_evaluation code).extents (.inl rfl) count pc

end Evaluate

theorem Control.sequential_moves {F : Frame Machine} : Sequential fun _ x => Moves F x where
  pure a := .pure a
  bind hx hf := .bind hx hf
  look := .get
  check _ := Machine.moves_check _

end ArrayCommand
