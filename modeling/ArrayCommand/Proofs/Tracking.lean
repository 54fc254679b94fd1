/-
A machine that keeps pace with a computation without stacks.

The machine may be cut off from outside: it is asked to stop, a stack is full, or its fuel runs out.
Unless that happens, it ends the way the computation does, with the same fault or with results that
belong together, and what both can see is the same.

* `Disturbance` — the faults of a machine that is cut off;
* `Tracks` — one run of the machine keeps pace with one run of a computation;
* `Tracks.bind` — keeping pace step by step.
-/

import ArrayCommand.Proofs.Meaning

namespace ArrayCommand

open Machine

variable {short short' : Prop}

/-! ### Running a computation step by step -/

section Running

variable {ε σ α β : Type}
variable {x : EStateM ε σ α} {s s' : σ}

theorem bind_apply (x : EStateM ε σ α) (f : α → EStateM ε σ β) (s : σ) :
    (x >>= f) s =
      match x s with
      | .ok a s => f a s
      | .error e s => .error e s := rfl

theorem bind_ok {a : α} (h : x s = .ok a s') (f : α → EStateM ε σ β) : (x >>= f) s = f a s' := by
  rw [bind_apply, h]

theorem bind_error {e : ε} (h : x s = .error e s') (f : α → EStateM ε σ β) :
    (x >>= f) s = .error e s' := by
  rw [bind_apply, h]

theorem bind_eq_ok {f : α → EStateM ε σ β} {b : β} :
    (x >>= f) s = .ok b s' ↔ ∃ a s₁, x s = .ok a s₁ ∧ f a s₁ = .ok b s' := by
  rw [bind_apply]
  constructor
  · intro h
    cases hx : x s with
    | ok a s₁ => exact ⟨a, s₁, rfl, by rwa [hx] at h⟩
    | error e s₁ => rw [hx] at h; cases h
  · rintro ⟨a, s₁, hx, h⟩
    rw [hx]
    exact h

theorem map_eq_ok {x : Except ε α} {f : α → β} {b : β} :
    x.map f = .ok b ↔ ∃ a, x = .ok a ∧ f a = b := by
  cases x <;> simp [Except.map]

theorem pure_apply (a : α) (s : σ) : (pure a : EStateM ε σ α) s = .ok a s := rfl

theorem get_bind_apply (f : σ → EStateM ε σ β) (s : σ) : (get >>= f) s = f s s := rfl

theorem set_bind_apply (t : σ) (f : PUnit → EStateM ε σ β) (s : σ) :
    (set t >>= f) s = f ⟨⟩ t := rfl

theorem modify_bind_apply (g : σ → σ) (f : PUnit → EStateM ε σ β) (s : σ) :
    (modify g >>= f) s = f ⟨⟩ (g s) := rfl

end Running

theorem Direct.check_ok_bind {σ α β : Type} (a : α) (f : α → EStateM Fault σ β) :
    (Direct.check (.ok a) >>= f) = f a := rfl

theorem Machine.invoke_eq (f : Function) (args : Array Cell) (out : Option Cell) (m : Machine) :
    invoke f args out m = match f.native ⟨m.host, args, out⟩ with
      | .ok () c => .ok (c.args, c.out, none) { m with host := c.host }
      | .error fault c => .ok (c.args, c.out, some fault) { m with host := c.host } := by
  rw [invoke, get_bind_apply]
  cases f.native ⟨m.host, args, out⟩ <;> rfl

/-! ### Keeping pace -/

/-- The faults that come from outside of a program, with a machine that shows what was wrong: it is
asked to stop, or one of its stacks holds more than it may. -/
inductive Disturbance : Fault → Machine → Prop
  | interrupted {m : Machine} : m.host.interrupted = true → Disturbance (.because .interrupted "") m
  | singles {m : Machine} : m.run.limit < m.run.size →
      Disturbance (.because .stackOverflow m.run.title) m
  | cells {m : Machine} : m.values.limit < m.values.size →
      Disturbance (.because .stackOverflow m.values.title) m

abbrev Machine.Result (α : Type) := EStateM.Result Failure Machine α

/-- A run that was cut off: its fuel is spent, which happens only if `short` holds, or it was
disturbed from outside. -/
inductive CutOff {α : Type} (short : Prop) : Machine.Result α → Prop
  | spent {m : Machine} : short → CutOff short (.error .exhausted m)
  | disturbed {f : Fault} {m : Machine} : Disturbance f m → CutOff short (.error (.fault f) m)

theorem CutOff.mono {α : Type} {r : Result α}
    (h : CutOff short r) (hs : short → short') : CutOff short' r := by
  cases h with
  | spent h => exact .spent (hs h)
  | disturbed h => exact .disturbed h

/-- A run of the machine keeps pace with a run of a computation.  The state of the computation is
what `view` sees of the machine.  Results belong together by `post`, `kept` holds of a machine that
failed, and the fuel may run out only if `short` holds. -/
inductive Tracks {α β σ : Type} (view : Machine → σ) (kept : Machine → Prop) (short : Prop)
    (post : α → β → Machine → Prop) :
    Machine.Result α → EStateM.Result Fault σ β → Prop
  | value {a : α} {b : β} {m : Machine} : post a b m →
      Tracks view kept short post (.ok a m) (.ok b (view m))
  | fault {f : Fault} {m : Machine} : kept m →
      Tracks view kept short post (.error (.fault f) m) (.error f (view m))
  | disturbed {f : Fault} {m : Machine} {r : EStateM.Result Fault σ β} : Disturbance f m →
      Tracks view kept short post (.error (.fault f) m) r
  | spent {m : Machine} {r : EStateM.Result Fault σ β} : short →
      Tracks view kept short post (.error .exhausted m) r

namespace Tracks

variable {α β γ δ σ : Type} {view : Machine → σ} {kept : Machine → Prop}
  {post : α → β → Machine → Prop} {after : γ → δ → Machine → Prop} {x : MachineM α}
  {next : α → MachineM γ} {y : EStateM Fault σ β} {r : Result α}
variable {m : Machine} {s : σ}

theorem bind
    {cont : β → EStateM Fault σ δ} (h : Tracks view kept short post (x m) (y s))
    (hnext : ∀ a b m', post a b m' →
      Tracks view kept short after (next a m') (cont b (view m'))) :
    Tracks view kept short after ((x >>= next) m) ((y >>= cont) s) := by
  rw [bind_apply, bind_apply]
  generalize x m = rx at h
  generalize y s = ry at h
  cases h with
  | value hp => exact hnext _ _ _ hp
  | fault hk => exact .fault hk
  | disturbed hd => exact .disturbed hd
  | spent hs => exact .spent hs

/-- The results may be asked to belong together less closely, and the fuel may be shorter. -/
theorem mono {post' : α → β → Machine → Prop} {x : Result α}
    {y : EStateM.Result Fault σ β} (h : Tracks view kept short post x y) (hs : short → short')
    (hp : ∀ a b m, post a b m → post' a b m) : Tracks view kept short' post' x y := by
  cases h with
  | value hpost => exact .value (hp _ _ _ hpost)
  | fault hk => exact .fault hk
  | disturbed hd => exact .disturbed hd
  | spent h => exact .spent (hs h)

theorem of_ok {b : β} (h : Tracks view kept short post r (.ok b s)) :
    CutOff short r ∨ ∃ a m, r = .ok a m ∧ view m = s ∧ post a b m := by
  generalize hy : EStateM.Result.ok b s = y at h
  cases h with
  | value hp =>
    obtain ⟨rfl, rfl⟩ := EStateM.Result.ok.inj hy
    exact .inr ⟨_, _, rfl, rfl, hp⟩
  | fault hk => cases hy
  | disturbed hd => exact .inl (.disturbed hd)
  | spent hs => exact .inl (.spent hs)

theorem of_error {f : Fault} (h : Tracks view kept short post r (.error f s)) :
    CutOff short r ∨ ∃ m, r = .error (.fault f) m ∧ view m = s ∧ kept m := by
  generalize hy : EStateM.Result.error f s = y at h
  cases h with
  | value hp => cases hy
  | fault hk =>
    obtain ⟨rfl, rfl⟩ := EStateM.Result.error.inj hy
    exact .inr ⟨_, rfl, rfl, hk⟩
  | disturbed hd => exact .inl (.disturbed hd)
  | spent hs => exact .inl (.spent hs)

theorem map {x : Result α} (f : β → δ) {after : α → δ → Machine → Prop}
    (h : Tracks view kept short post x (y s)) (hp : ∀ a b m, post a b m → after a (f b) m) :
    Tracks view kept short after x ((do return f (← y) : EStateM Fault σ δ) s) := by
  rw [bind_apply]
  generalize y s = ry at h
  cases h with
  | value hpost => exact .value (hp _ _ _ hpost)
  | fault hk => exact .fault hk
  | disturbed hd => exact .disturbed hd
  | spent hs => exact .spent hs

theorem step {y : EStateM.Result Fault σ δ} {a : α}
    {m' : Machine} (hx : x m = .ok a m') (hnext : Tracks view kept short after (next a m') y) :
    Tracks view kept short after ((x >>= next) m) y := by
  rw [bind_ok hx]
  exact hnext

theorem check (hk : kept m) {result : Except Fault α} {cont : α → EStateM Fault σ δ}
    (hnext : ∀ a, result = .ok a → Tracks view kept short after (next a m) (cont a (view m))) :
    Tracks view kept short after ((check result >>= next) m)
      ((Direct.check result >>= cont) (view m)) := by
  cases result with
  | ok a => exact hnext a rfl
  | error fault => exact .fault hk

theorem functionOf (hk : kept m) (func : Nat) :
    Tracks Machine.host kept short
      (fun a b m' => a = b ∧ m' = m ∧ m.workspace.functions[func]? = some a)
      (Machine.functionOf func m) (Direct.functionOf m.workspace func m.host) := by
  rw [Machine.functionOf, get_bind_apply, Direct.functionOf]
  cases hf : m.workspace.functions[func]? with
  | none => exact .fault hk
  | some f => exact .value ⟨rfl, rfl, rfl⟩

theorem invoke {f : Function} {args : Array Cell} {out : Option Cell}
    {next : Array Cell × Option Cell × Option Fault → MachineM γ}
    {cont : Array Cell × Option Cell → HostM δ}
    (hok : ∀ c : Call, Tracks host kept short after
      (next (c.args, c.out, none) { m with host := c.host }) (cont (c.args, c.out) c.host))
    (herror : ∀ (fault : Fault) (c : Call), Tracks host kept short after
      (next (c.args, c.out, some fault) { m with host := c.host }) (.error fault c.host)) :
    Tracks host kept short after ((invoke f args out >>= next) m)
      ((Direct.invoke f args out >>= cont) m.host) := by
  rw [bind_apply, bind_apply, invoke_eq, Direct.invoke]
  cases f.native ⟨m.host, args, out⟩ with
  | ok _ c => exact hok c
  | error fault c => exact herror fault c

end Tracks

end ArrayCommand
