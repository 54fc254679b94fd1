/-
Fuel.

Every loop that may go on for ever takes fuel, and it fails when there is none left.  Apart from that
the amount makes no difference: what has come to an end with some fuel comes to the same end with
more, whether it succeeds or fails.  The loops hand their fuel on to their parts, so this is followed
through the parts: through evaluation and the nodes of a program, and through the blocks of the
compiler.

Main definitions:

* `Outlasts` — a computation that goes on at most where another one has run out of fuel.

Main results:

* `Control.outlasts_run`, `Compiler.outlasts_compile` — more fuel for running and for compiling;
* `Session.statement_outlasts`, `Session.outlasts_step`, `Session.outlasts_drain` — **more fuel changes
  nothing for a statement, a step or a run that has come to an end**.
-/

import ArrayCommand.Proofs.Parametricity
import ArrayCommand.Proofs.Tracking
import ArrayCommand.Session

namespace ArrayCommand

variable {fuel fuel' : Nat}

/-! ### Computations with more fuel -/

section Fuel

variable {σ α β : Type}

/-- From every state `y` does what `x` does, unless `x` runs out of fuel there. -/
def Outlasts (y x : EStateM Failure σ α) : Prop :=
  ∀ s, (∃ s', x s = .error .exhausted s') ∨ y s = x s

namespace Outlasts

variable {x y : EStateM Failure σ α} {f g : α → EStateM Failure σ β}

theorem refl (x : EStateM Failure σ α) : Outlasts x x := fun _ => .inr rfl

theorem spent (y : EStateM Failure σ α) : Outlasts y (throw .exhausted) := fun s => .inl ⟨s, rfl⟩

theorem bind (h : Outlasts y x) (hf : ∀ a, Outlasts (g a) (f a)) :
    Outlasts (y >>= g) (x >>= f) := by
  intro s
  rcases h s with ⟨s', hx⟩ | hx
  · exact .inl ⟨s', by rw [bind_apply, hx]⟩
  · rw [bind_apply, bind_apply, hx]
    cases x s with
    | ok a s₁ => exact hf a s₁
    | error failure s₁ => exact .inr rfl

theorem behind (x : EStateM Failure σ α) (hf : ∀ a, Outlasts (g a) (f a)) :
    Outlasts (x >>= g) (x >>= f) :=
  .bind (.refl x) hf

/-- Only the first step takes fuel. -/
theorem before (h : Outlasts y x) (f : α → EStateM Failure σ β) : Outlasts (y >>= f) (x >>= f) :=
  .bind h fun a => .refl (f a)

theorem ite {c : Prop} [Decidable c] {x' y' : EStateM Failure σ α} (h : Outlasts y x)
    (h' : Outlasts y' x') : Outlasts (if c then y else y') (if c then x else x') := by
  split
  · exact h
  · exact h'

theorem ok (h : Outlasts y x) {a : α} {s s' : σ} (hx : x s = .ok a s') : y s = .ok a s' := by
  rcases h s with ⟨s'', hspent⟩ | hsame
  · rw [hx] at hspent
    cases hspent
  · rw [hsame, hx]

end Outlasts

end Fuel

/-! ### Evaluation -/

namespace Evaluate

open Machine

section Nested

variable {sub sub' : Sub} (hsub : ∀ pc fill, Outlasts (sub' pc fill) (sub pc fill))
  (code : Array Node)

include hsub

theorem outlasts_nestedWith (pc : Nat) (fill : Option Shape) :
    Outlasts (nestedWith sub' code pc fill) (nestedWith sub code pc fill) :=
  .behind _ fun _ => .before (hsub pc fill) _

theorem outlasts_argumentsWith (f : Function) (count index pc : Nat) :
    Outlasts (argumentsWith sub' code f count index pc)
      (argumentsWith sub code f count index pc) := by
  induction count generalizing index pc with
  | zero => exact .refl _
  | succ count ih =>
    refine .bind (outlasts_nestedWith hsub code pc none) fun ⟨cell, pc⟩ => ?_
    exact .behind _ fun _ => .behind _ fun _ => ih _ _

theorem outlasts_onceWith (pc func argc : Nat) (type : ElementType) :
    Outlasts (onceWith sub' code pc func argc type) (onceWith sub code pc func argc type) :=
  .behind _ fun f => .behind _ fun _ => .before (outlasts_argumentsWith hsub code f argc 0 pc) _

end Nested

theorem compatible_outlasts (code : Array Node) : Compatible code True fun _ x y => Outlasts y x where
  pure _ := .refl _
  bind hx hf := .bind hx hf
  look _ hf := .behind _ hf
  check _ := .refl _
  onRun _ := .refl _
  exchange _ _ := .refl _
  call _ := .refl _
  exhausted := .refl _
  spent y _ := .spent y
  once hsub _ _ _ _ _ pc := outlasts_onceWith hsub code pc _ _ _

end Evaluate

/-! ### Programs -/

namespace Control

open Machine Evaluate

section Statements

variable (code : Array Node) (h : fuel ≤ fuel')

include h

theorem outlasts_assign (pc : Nat) (var : Handle) (axes : Option (List Axis)) (count : Nat) :
    Outlasts (assign code fuel' pc var axes count) (assign code fuel pc var axes count) := by
  refine .behind _ fun target => .ite (.refl _) ?_
  cases axes with
  | none => exact .before ((compatible_outlasts code).rightSide (.inr ⟨trivial, h⟩) count _ _ _) _
  | some axes =>
    refine .bind ((compatible_outlasts code).selection (.inr ⟨trivial, h⟩) _ _ _)
      fun ⟨view, pc⟩ => ?_
    exact .before ((compatible_outlasts code).rightSide (.inr ⟨trivial, h⟩) count pc _ _) _

theorem outlasts_declare (pc : Nat) (var : Handle) (dims : Nat) :
    Outlasts (declare code fuel' pc var dims) (declare code fuel pc var dims) :=
  .before ((compatible_outlasts code).extents (.inr ⟨trivial, h⟩) dims _) _

theorem outlasts_arguments (f : Function) (count index pc : Nat) :
    Outlasts (arguments code fuel' f count index pc) (arguments code fuel f count index pc) := by
  induction count generalizing index pc with
  | zero => exact .refl _
  | succ count ih =>
    refine .bind ((compatible_outlasts code).nested (.inr ⟨trivial, h⟩) pc none) fun ⟨cell, next⟩ => ?_
    exact .behind _ fun _ => .behind _ fun _ => .before (ih _ _) _

theorem outlasts_command (pc func argc : Nat) :
    Outlasts (command code fuel' pc func argc) (command code fuel pc func argc) :=
  .behind _ fun f => .behind _ fun _ => .before (outlasts_arguments code h f argc 0 _) _

theorem outlasts_step (pc : Nat) (node : Node) :
    Outlasts (step code fuel' pc node) (step code fuel pc node) := by
  cases node with
  | expr header => exact .before ((compatible_outlasts code).expression (.inr ⟨trivial, h⟩) pc none) _
  | assign var axes count => exact .before (outlasts_assign code h pc var axes count) _
  | command func argc => exact .before (outlasts_command code h pc func argc) _
  | declare var dims => exact .before (outlasts_declare code h pc var dims) _
  | _ => exact .refl _

end Statements

theorem outlasts_runFrom (code : Array Node) (h : fuel ≤ fuel') (pc : Nat) :
    Outlasts (runFrom code fuel' pc) (runFrom code fuel pc) := by
  induction fuel generalizing fuel' pc with
  | zero => exact .spent _
  | succ fuel ih =>
    obtain ⟨fuel', rfl⟩ : ∃ n, fuel' = n + 1 := ⟨fuel' - 1, by omega⟩
    have h := Nat.le_of_succ_le_succ h
    rw [runFrom, runFrom]
    split
    · exact .refl _
    · refine .behind _ fun _ => .bind (outlasts_step code h pc _) fun next => ?_
      cases next with
      | «at» pc => exact ih h pc
      | done flow => exact .refl _

theorem outlasts_run (code : Array Node) (h : fuel ≤ fuel') :
    Outlasts (run code fuel') (run code fuel) :=
  outlasts_runFrom code h 0

end Control

/-! ### Compilation -/

namespace Compiler

variable {σ : Type}

section Nested

variable {block block' : Block σ}
  (hblock : ∀ opener closers, Outlasts (block' opener closers) (block opener closers))

include hblock

theorem outlasts_arms (h : fuel ≤ fuel') (keyword : Keyword) :
    Outlasts (arms block' fuel' keyword) (arms block fuel keyword) := by
  induction fuel generalizing fuel' keyword with
  | zero => exact .spent _
  | succ fuel ih =>
    obtain ⟨fuel', rfl⟩ : ∃ n, fuel' = n + 1 := ⟨fuel' - 1, by omega⟩
    have ih := ih (Nat.le_of_succ_le_succ h)
    have hcondition : Outlasts (arms block' (fuel' + 1) .if) (arms block (fuel + 1) .if) := by
      refine .behind _ fun _ => .behind _ fun _ => .behind _ fun _ => ?_
      refine .bind (hblock _ _) fun closer => .ite (.refl _) ?_
      exact .behind _ fun _ => .behind _ fun _ => .before (ih closer) _
    cases keyword with
    | «if» | elseIf => exact hcondition
    | «else» => exact .before (hblock _ _) _
    | _ => exact .refl _

theorem outlasts_inLoop (gate : Nat) {opener : Keyword} {closers : List Keyword} :
    Outlasts (inLoop gate (block' opener closers)) (inLoop gate (block opener closers)) :=
  .behind _ fun _ => .before (hblock _ _) _

theorem outlasts_whileBlock : Outlasts (whileBlock block') (whileBlock block) :=
  .behind _ fun gate => .behind _ fun _ => .behind _ fun _ => .behind _ fun _ =>
    .before (outlasts_inLoop hblock gate) _

theorem outlasts_repeatBlock : Outlasts (repeatBlock block') (repeatBlock block) :=
  .behind _ fun _ => .behind _ fun gate => .before (outlasts_inLoop hblock gate) _

theorem outlasts_doBlock : Outlasts (doBlock block') (doBlock block) := by
  refine .behind _ fun ⟨name, column, list⟩ => .behind _ fun var => .behind _ fun _ => ?_
  refine .behind _ fun _ => .behind _ fun gate => .behind _ fun _ => .behind _ fun _ => ?_
  exact .before (outlasts_inLoop hblock gate) _

theorem outlasts_keyword (h : fuel ≤ fuel') (word : Keyword) (column : Column) :
    Outlasts (keyword block' fuel' word column) (keyword block fuel word column) := by
  cases word with
  | «if» => exact .before (.before (outlasts_arms hblock h .if) _) _
  | «while» => exact .before (outlasts_whileBlock hblock) _
  | «repeat» => exact .before (outlasts_repeatBlock hblock) _
  | «do» => exact .before (outlasts_doBlock hblock) _
  | _ => exact .refl _

theorem outlasts_statement (h : fuel ≤ fuel') :
    Outlasts (statement block' fuel') (statement block fuel) := by
  refine .behind _ fun ⟨token, column⟩ => ?_
  cases token with
  | name text =>
    dsimp only
    split
    · exact outlasts_keyword hblock h _ column
    · exact .refl _
  | _ => exact .refl _

end Nested

theorem outlasts_block (source : LineSource σ) (maxName : Nat) (h : fuel ≤ fuel') (opener : Keyword)
    (closers : List Keyword) :
    Outlasts (block source maxName fuel' opener closers)
      (block source maxName fuel opener closers) := by
  induction fuel generalizing fuel' opener closers with
  | zero => exact .spent _
  | succ fuel ih =>
    obtain ⟨fuel', rfl⟩ : ∃ n, fuel' = n + 1 := ⟨fuel' - 1, by omega⟩
    have h := Nat.le_of_succ_le_succ h
    refine .behind _ fun line => ?_
    cases line with
    | none => exact .refl _
    | some line =>
      refine .behind _ fun _ => .bind (outlasts_statement (ih h) h) fun closing? => ?_
      cases closing? with
      | none => exact ih h opener closers
      | some closing => exact .refl _

theorem outlasts_topLevel (source : LineSource σ) (maxName : Nat) (h : fuel ≤ fuel') :
    Outlasts (topLevel source maxName fuel') (topLevel source maxName fuel) :=
  .before (outlasts_statement (outlasts_block source maxName h) h) _

theorem outlasts_compile (source : LineSource σ) (maxName : Nat) (line : String)
    (h : fuel ≤ fuel') :
    Outlasts (compile source maxName fuel' line) (compile source maxName fuel line) := by
  intro c
  unfold compile
  rcases outlasts_topLevel source maxName h { c with lexer := .ofText line maxName } with
    ⟨c', hspent⟩ | hsame
  · rw [hspent]
    exact .inl ⟨_, rfl⟩
  · rw [hsame]
    exact .inr rfl

end Compiler

/-! ### Sessions -/

namespace Session

variable [Outside]

theorem compile_outlasts (h : fuel ≤ fuel') (line : String) (s : Session) :
    (∃ text s', s.compile fuel line = (.error (.exhausted, text), s')) ∨
      s.compile fuel' line = s.compile fuel line := by
  unfold compile
  dsimp only
  rcases Compiler.outlasts_compile (furtherLines s.settings.continuationPrompt)
    s.settings.limits.nameLength line h _ with ⟨c, hspent⟩ | hsame
  · rw [hspent]
    exact .inl ⟨_, _, rfl⟩
  · rw [hsame]
    exact .inr rfl

theorem execute_outlasts (h : fuel ≤ fuel') (s : Session) :
    (∃ s', s.execute fuel = (.error .exhausted, s')) ∨ s.execute fuel' = s.execute fuel := by
  unfold execute
  rcases Control.outlasts_run s.program.nodes h { s.machine with counters := [] } with
    ⟨m, hspent⟩ | hsame
  · rw [hspent]
    exact .inl ⟨_, rfl⟩
  · rw [hsame]
    exact .inr rfl

theorem statement_outlasts (h : fuel ≤ fuel') (line : String) (s : Session) :
    (∃ text s', s.statement fuel line = (.error (.exhausted, text), s')) ∨
      s.statement fuel' line = s.statement fuel line := by
  unfold statement
  dsimp only
  generalize (if s.verbose then s.print (Text.trim line ++ "\n") else s) = s
  rcases compile_outlasts h line s with ⟨text, s', hspent⟩ | hsame
  · rw [hspent]
    exact .inl ⟨_, _, rfl⟩
  · rw [hsame]
    obtain ⟨outcome, s₁⟩ := s.compile fuel line
    cases outcome with
    | error failure => exact .inr rfl
    | ok _ =>
      dsimp only
      rcases execute_outlasts h s₁ with ⟨s', hspent⟩ | hsame
      · rw [hspent]
        exact .inl ⟨_, _, rfl⟩
      · rw [hsame]
        exact .inr rfl

theorem outlasts_step (h : fuel ≤ fuel') : Outlasts (step fuel') (step fuel) := by
  intro s
  rw [step, step]
  split
  · exact .inr rfl
  · exact .inr rfl
  · exact .inr rfl
  · rcases statement_outlasts h _ _ with ⟨text, s', hspent⟩ | hsame
    · rw [hspent]
      exact .inl ⟨_, rfl⟩
    · rw [hsame]
      exact .inr rfl

/-- A step leads to one session, whatever the fuel. -/
theorem step_unique {s t t' : Session} {outcome outcome' : Step} (h : step fuel s = .ok outcome t)
    (h' : step fuel' s = .ok outcome' t') : outcome = outcome' ∧ t = t' := by
  have hmore := (outlasts_step (Nat.le_max_left fuel fuel')).ok h
  have hmore' := (outlasts_step (Nat.le_max_right fuel fuel')).ok h'
  rw [hmore] at hmore'
  cases hmore'
  exact ⟨rfl, rfl⟩

theorem outlasts_drain (depth : Nat) (h : fuel ≤ fuel') :
    Outlasts (drain depth fuel') (drain depth fuel) := by
  induction fuel generalizing fuel' with
  | zero => exact .spent _
  | succ fuel ih =>
    obtain ⟨fuel', rfl⟩ : ∃ n, fuel' = n + 1 := ⟨fuel' - 1, by omega⟩
    have h := Nat.le_of_succ_le_succ h
    refine .behind _ fun s => .ite (.refl _) (.bind (outlasts_step h) fun outcome => ?_)
    cases outcome with
    | ran => exact ih h
    | ended => exact .refl _
    | exit mode => exact .refl _

end Session

end ArrayCommand
