/-
What functions ask for.

A function may ask the interpreter for something.  It is carried out behind the command that has
called the function, if that command succeeds; what is asked for in an expression, or by a command
that fails, waits for the next command that succeeds.  A function that is discreet leaves nothing
waiting: it asks only if it returns nothing, and it does not ask and then fail.

Main definitions:

* `Function.Handed` — arguments as a command hands them over;
* `Function.Discreet` — a function that leaves nothing waiting;
* `Call.Modest` — a body that leaves its arguments alone and asks for nothing before it fails.

Main results:

* `Core.discreet` — all core functions are discreet.
-/

import ArrayCommand.Proofs.Frame

namespace ArrayCommand

variable {asking exchanging : Prop} {f : Function}

/-! ### Functions -/

namespace Function

theorem decl_mem (f : Function) (i : Nat) : f.decl i ∈ f.args ∨ f.decl i = ⟨.any, .any, .value⟩ := by
  unfold decl
  split
  case h_1 d hd => exact .inl (List.mem_of_getElem? hd)
  case h_2 =>
    split
    case h_1 d hd => exact .inl (List.mem_of_getLast? hd)
    case h_2 => exact .inr rfl

/-- Arguments as a command hands them over: a bare name comes as a text. -/
def Handed (f : Function) (args : Array Cell) : Prop :=
  ∀ i cell, args[i]? = some cell → (f.decl i).mode = .name → (f.decl i).type ≠ .literal →
    ∃ name, cell = .scalar (.text name)

/-- A function that leaves nothing waiting that it asks for.  With a result it may be called in an
expression and does not ask at all.  Behind a command that has variables to hand back the handing
back may fail, and so it does not ask, either. -/
structure Discreet (f : Function) : Prop where
  answering : f.returns ≠ .nothing → ∀ c, c.host.requests = [] →
    (leftIn (f.native c)).host.requests = []
  failing : ∀ {c c' : Call} {fault : Fault}, f.Handed c.args → c.host.requests = [] →
    f.native c = .error fault c' → c'.host.requests = []
  keeping : ∀ {c c' : Call} {i : Nat}, (f.decl i).mode = .reference → c.host.requests = [] →
    f.native c = .ok () c' → c'.host.requests = []

end Function

/-! ### Bodies -/

section Bodies

variable {α β : Type}

/-- A body that asks for nothing and changes no argument before it fails.  What it may not do, it
does not do when it succeeds, either. -/
def Call.Modest (asking exchanging : Prop) (x : EStateM Fault Call α) : Prop :=
  Leads
    (fun c c' => (asking ∨ c'.host.requests = c.host.requests) ∧ (exchanging ∨ c'.args = c.args))
    (fun c c' => c'.host.requests = c.host.requests ∧ c'.args = c.args) x

namespace Call.Modest

variable {x : EStateM Fault Call α}

theorem pure (a : α) : Modest asking exchanging (pure a) := ⟨fun _ => ⟨.inr rfl, .inr rfl⟩⟩

theorem get : Modest asking exchanging MonadState.get := ⟨fun _ => ⟨.inr rfl, .inr rfl⟩⟩

theorem throw (fault : Fault) : Modest (α := α) asking exchanging (throw fault) :=
  ⟨fun _ => ⟨rfl, rfl⟩⟩

theorem modify {f : Call → Call} (h : ∀ c, (f c).host.requests = c.host.requests)
    (hargs : ∀ c, (f c).args = c.args) : Modest asking exchanging (modify f) :=
  ⟨fun c => ⟨.inr (h c), .inr (hargs c)⟩⟩

theorem bind {next : α → EStateM Fault Call β} (hx : Modest False False x)
    (hnext : ∀ a, Modest asking exchanging (next a)) : Modest asking exchanging (x >>= next) := by
  refine Leads.bind hx hnext (fun h h' => ?_) fun h h' => ?_
  · rw [h.1.resolve_left id, h.2.resolve_left id] at h'
    exact h'
  · rw [h.1.resolve_left id, h.2.resolve_left id] at h'
    exact h'

theorem ite {c : Prop} [Decidable c] {y : EStateM Fault Call α} (hx : Modest asking exchanging x)
    (hy : Modest asking exchanging y) : Modest asking exchanging (if c then x else y) := by
  split
  · exact hx
  · exact hy

theorem lift (result : Except Fault α) : Modest asking exchanging (Call.lift result) := by
  cases result with
  | ok a => exact pure a
  | error fault => exact throw fault

theorem arg (index : Nat) : Modest asking exchanging (Call.arg index) := by
  refine .bind .get fun c => ?_
  split
  · exact .pure _
  · exact .throw _

theorem return' (cell : Cell) : Modest asking exchanging (Call.return' cell) := by
  refine .bind .get fun c => ?_
  split
  · exact .modify (fun _ => rfl) fun _ => rfl
  · exact .throw _

theorem returnScalar (value : Scalar) : Modest asking exchanging (Call.returnScalar value) :=
  return' _

theorem print (text : String) : Modest asking exchanging (Call.print text) :=
  .modify (fun _ => rfl) fun _ => rfl

theorem request (r : Request) : Modest True exchanging (Call.request r) :=
  ⟨fun _ => ⟨.inl trivial, .inr rfl⟩⟩

theorem args_eq (h : Modest asking exchanging x) (hkeep : ¬exchanging) (c : Call) :
    (leftIn (x c)).args = c.args := by
  have h := h.run c
  generalize x c = r at h
  cases r with
  | ok a c' => exact h.2.resolve_left hkeep
  | error fault c' => exact h.2

end Call.Modest

end Bodies

namespace Function.Discreet

open Call

/-- A function that never asks. -/
theorem of_silent (h : Modest False exchanging f.native) : f.Discreet := by
  have hsame (c : Call) : (leftIn (f.native c)).host.requests = c.host.requests := by
    have h := h.run c
    generalize f.native c = r at h
    cases r with
    | ok u c' => exact h.1.resolve_left id
    | error fault c' => exact h.1
  refine ⟨fun _ c hc => (hsame c).trans hc, fun {c c' fault} _ hc hrun => ?_,
    fun {c c' i} _ hc hrun => ?_⟩
  · have hsame := hsame c
    rw [hrun] at hsame
    exact hsame.trans hc
  · have hsame := hsame c
    rw [hrun] at hsame
    exact hsame.trans hc

theorem of_failing (hf : f.returns = .nothing) (hargs : ∀ d ∈ f.args, d.mode ≠ .reference)
    (h : ∀ {c c' : Call} {fault : Fault}, f.Handed c.args → f.native c = .error fault c' →
      c'.host.requests = c.host.requests) : f.Discreet where
  answering hreturns := absurd hf hreturns
  failing hhanded hc hrun := (h hhanded hrun).trans hc
  keeping {c c' i} hmode := by
    rcases f.decl_mem i with hmem | hdecl
    · exact absurd hmode (hargs _ hmem)
    · rw [hdecl] at hmode
      cases hmode

theorem of_asking (h : Modest True exchanging f.native) (hf : f.returns = .nothing)
    (hargs : ∀ d ∈ f.args, d.mode ≠ .reference) : f.Discreet := by
  exact of_failing hf hargs fun _ hrun => (h.error hrun).1

end Function.Discreet

/-! ### The core functions -/

namespace Core

open Call

theorem modest_print : Modest asking exchanging print :=
  .bind .get fun _ => .bind (.print _) fun _ => .print _

theorem modest_topic : Modest asking exchanging topic := by
  refine .bind .get fun c => ?_
  split
  · exact .pure _
  · exact .lift _

theorem modest_exitCode : Modest asking exchanging exitCode := by
  refine .bind .get fun c => ?_
  split
  · exact .pure _
  · exact .bind (.lift _) fun _ => .ite (.pure _) (.throw _)

theorem modest_swap (h : exchanging) : Modest asking exchanging swap := by
  refine .bind .get fun c => ?_
  split
  · exact .ite ⟨fun _ => ⟨.inr rfl, .inl h⟩⟩ (.throw _)
  · exact .throw _

theorem modest_floating (f : Float → Except Fault Float) : Modest asking exchanging (floating f) :=
  .bind (.arg 0) fun _ => .bind (.lift _) fun _ => .bind (.lift _) fun _ =>
    .ite (.returnScalar _) (.throw _)

theorem modest_abs : Modest asking exchanging abs := by
  refine .bind (.arg 0) fun _ => .bind (.lift _) fun s => ?_
  cases s with
  | integer n => exact .bind (.lift _) fun _ => .returnScalar _
  | float x => exact .returnScalar _
  | text s => exact .throw _
  | logical b => exact .throw _

theorem modest_nint : Modest asking exchanging nint := by
  refine .bind (.arg 0) fun _ => .bind (.lift _) fun s => ?_
  split
  · exact .returnScalar _
  · exact .bind (.lift _) fun _ => .bind (.lift _) fun _ => .returnScalar _

theorem modest_rand : Modest asking exchanging rand := by
  refine ⟨fun c => ?_⟩
  rw [rand, get_bind_apply]
  generalize c.host.generator.draw = drawn
  obtain ⟨x, generator⟩ := drawn
  exact (Modest.returnScalar (.float x)).run { c with host := { c.host with generator } }

theorem modest_size : Modest asking exchanging size := by
  refine .bind (.arg 0) fun _ => .bind .get fun c => ?_
  split
  · exact .returnScalar _
  · exact .bind (.lift _) fun _ => .ite (.returnScalar _) (.throw _)

theorem modest_sum : Modest asking exchanging sum := by
  refine .bind (.arg 0) fun cell => ?_
  cases cell.data with
  | integer v => exact .bind (.lift _) fun _ => .returnScalar _
  | float v => exact .returnScalar _
  | text v | logical v => exact .throw _

theorem modest_extreme (integers : Int → Int → Bool) (floats : Float → Float → Bool) :
    Modest asking exchanging (extreme integers floats) := by
  refine .bind (.arg 0) fun cell => .ite (.throw _) ?_
  cases cell.data with
  | integer v | float v =>
    dsimp only
    split
    · exact .throw _
    · exact .returnScalar _
  | text v | logical v => exact .throw _

theorem modest_ramp : Modest asking exchanging ramp :=
  .bind (.arg 0) fun _ => .bind (.lift _) fun _ => .ite (.throw _) (.return' _)

theorem deleteAll_ok {cells : List Cell} (h : ∀ cell ∈ cells, ∃ name, cell = .scalar (.text name))
    (c : Call) : ∃ c', deleteAll cells c = .ok () c' := by
  induction cells generalizing c with
  | nil => exact ⟨c, rfl⟩
  | cons cell rest ih =>
    rw [List.forall_mem_cons] at h
    obtain ⟨⟨name, rfl⟩, hrest⟩ := h
    exact ih hrest _

theorem discreet_delete (hf : f.returns = .nothing) (hargs : f.args = [⟨.text, .scalar, .name⟩])
    (hnative : f.native = delete) : f.Discreet := by
  refine .of_failing hf (by simp [hargs]) fun {c c' fault} hhanded hrun => ?_
  have hdecl (i : Nat) : f.decl i = ⟨.text, .scalar, .name⟩ := by
    rw [Function.decl, hargs]
    cases i <;> rfl
  have hnames : ∀ cell ∈ c.args.toList, ∃ name, cell = .scalar (.text name) := by
    intro cell hmem
    obtain ⟨i, hi⟩ := List.mem_iff_getElem?.mp hmem
    rw [Array.getElem?_toList] at hi
    exact hhanded i cell hi (by rw [hdecl]) (by simp [hdecl])
  obtain ⟨c₁, hok⟩ := deleteAll_ok hnames c
  rw [hnative, delete, get_bind_apply, hok] at hrun
  cases hrun

/-- A core function asks for nothing, or is a command that asks in its last step; only the deletion
of variables asks for several things, and only the exchange of two variables changes its arguments. -/
theorem modest : ∀ f ∈ functions, Modest False (f.native = swap) f.native ∨
    (Modest True False f.native ∧ f.returns = .nothing ∧ ∀ d ∈ f.args, d.mode ≠ .reference) ∨
    (f.native = delete ∧ f.returns = .nothing ∧ f.args = [⟨.text, .scalar, .name⟩]) := by
  have real {exchanging : Prop} (name : String) (f : Float → Except Fault Float) :
      Modest False exchanging (realFunction name (floating f)).native := modest_floating f
  have ask (native : Native) (r : String → Request) (h : native = topic >>= fun t => request (r t)) :
      Modest True False native := h ▸ .bind modest_topic fun _ => .request _
  have leave (native : Native) (r : Int → Request)
      (h : native = exitCode >>= fun code => request (r code)) : Modest True False native :=
    h ▸ .bind modest_exitCode fun _ => .request _
  have number {exchanging : Prop} (native : Native) {α : Type} (read : Cell → Except Fault α)
      (s : α → Scalar) (h : native = arg 0 >>= fun cell => lift (read cell) >>= fun a => returnScalar (s a)) :
      Modest False exchanging native :=
    h ▸ .bind (.arg 0) fun _ => .bind (.lift _) fun _ => .returnScalar _
  have dates {exchanging : Prop} : Modest False exchanging date := .bind .get fun _ => .returnScalar _
  rw [functions]
  simp only [List.forall_mem_cons]
  refine ⟨.inl modest_print, .inr (.inl ⟨ask _ _ rfl, rfl, by decide⟩), .inr (.inr ⟨rfl, rfl, rfl⟩),
    .inl (modest_swap rfl), .inr (.inl ⟨leave _ _ rfl, rfl, by decide⟩),
    .inr (.inl ⟨leave _ _ rfl, rfl, by decide⟩), .inr (.inl ⟨ask _ _ rfl, rfl, by decide⟩),
    .inl modest_abs, .inl (real _ _), .inl (real _ _), .inl (real _ _), .inl (real _ _),
    .inl (real _ _), .inl (real _ _), .inl (real _ _), .inl (number _ _ _ rfl), .inl modest_nint,
    .inl (number _ _ _ rfl), .inl (number _ _ _ rfl), .inl modest_rand, .inl modest_size,
    .inl modest_sum, .inl (modest_extreme _ _), .inl (modest_extreme _ _), .inl modest_ramp,
    .inl dates, by simp⟩

theorem discreet (hf : f ∈ functions) : f.Discreet := by
  rcases modest f hf with h | ⟨h, hreturns, hargs⟩ | ⟨hnative, hreturns, hargs⟩
  · exact .of_silent h
  · exact .of_asking h hreturns hargs
  · exact discreet_delete hreturns hargs hnative

end Core

end ArrayCommand
