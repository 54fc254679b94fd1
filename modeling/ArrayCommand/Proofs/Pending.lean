/-
What waits on the stacks of a running machine.

A program expects at each of its addresses that cells of certain types wait on the stack of cells, and
that the counters of certain loops are set.  Its nodes keep these expectations: a node that is run as it
is expected leads to another address as it is expected there, and it fails neither for the types nor
for the machine.  So the expectations hold in every state of a run, and a run that blames the types
has come to a command that exchanges two variables.

Main definitions:

* `Pending`, `Pending.Fits` — what is expected at an address, and a machine that is as expected;
* `Post` — a node whose ways all lead to addresses with expectations;
* `Control.Visits` — the states that a run comes to.

Main results:

* `Post.step` — one node, run as expected;
* `Guarded.visits` — **expectations hold in every state of a run**;
* `Guarded.fault` — **a run fails properly, or an exchange of two variables fails.**
-/

import ArrayCommand.Proofs.Conduct

namespace ArrayCommand

open List Machine Control

variable {counter pc target fuel : Nat} {loops : List Nat} {K : Counters} {w : Workspace}
  {m₀ m m' : Machine} {G : Pending} {W : World} {f : Fault} {allowed : Fault → Prop}
  {post : Next → Machine → Prop} {r : Result Next} {code : Array Node}
  {expected : Nat → Pending → Prop} {offset exit : Int} {first last : Typed} {bound : Option Typed}
  {var : Handle}

/-! ### Expectations -/

/-- What is expected at an address: the types of the cells that wait, and the counters of the loops
that have been started. -/
structure Pending where
  types : List ElementType
  loops : List Nat

/-- The counters of some loops are set, and all that are set can be counted with. -/
structure Counting (loops : List Nat) (K : Counters) : Prop where
  set : ∀ c ∈ loops, ∃ state, K.lookup c = some state
  counts : ∀ {c state}, K.lookup c = some state → state.Counts

theorem lookup_setState_of_ne {c : Nat} (h : c ≠ counter) (state : LoopState)
    (K : Counters) : (setState counter state K).lookup c = K.lookup c := by
  rw [setState, lookup_cons, beq_false_of_ne h]
  exact lookup_filter_ne h K

namespace Counting

variable {loops' : List Nat}

theorem mono (h : Counting loops K) (hsub : loops' ⊆ loops) : Counting loops' K :=
  ⟨fun c hc => h.set c (hsub hc), h.counts⟩

theorem setState (h : Counting loops K) (counter : Nat) {state : LoopState} (hstate : state.Counts) :
    Counting (counter :: loops) (setState counter state K) where
  set c hc := by
    by_cases heq : c = counter
    · exact ⟨state, heq ▸ lookup_setState counter state K⟩
    · rw [lookup_setState_of_ne heq]
      exact h.set c ((mem_cons.mp hc).resolve_left heq)
  counts {c state'} hc := by
    by_cases heq : c = counter
    · rw [heq, lookup_setState] at hc
      cases hc
      exact hstate
    · rw [lookup_setState_of_ne heq] at hc
      exact h.counts hc

end Counting

/-- A machine is as expected: the variables are those of a later state, and cells of the expected types
wait on top of what was on the stack when the statement was entered. -/
inductive Pending.Fits (w : Workspace) (m₀ : Machine) (G : Pending) : Machine → Prop
  | intro (W : World) (K : Counters) (cells : List Cell) : w.Later W.workspace →
      cells.map Cell.type = G.types → Counting G.loops K →
      Fits w m₀ G ((m₀.place W K).loaded W.host cells)

namespace Pending.Fits

theorem later (h : G.Fits w m₀ m) : w.Later m.workspace := by
  cases h with
  | intro _ _ _ hlater => exact hlater

/-- A machine on whose stack nothing waits. -/
theorem idle (hW : w.Later W.workspace)
    (hK : Counting loops K) : Pending.Fits w m₀ ⟨[], loops⟩ (m₀.place W K) := by
  have h : Pending.Fits w m₀ ⟨[], loops⟩ ((m₀.place W K).loaded W.host []) :=
    .intro W K [] hW rfl hK
  rwa [loaded_nil] at h

theorem of_idle (h : Pending.Fits w m₀ ⟨[], loops⟩ m) :
    ∃ W K, m = m₀.place W K ∧ w.Later W.workspace ∧ Counting loops K := by
  cases h with
  | intro W K cells hW htypes hK =>
    obtain rfl := map_eq_nil_iff.mp htypes
    exact ⟨W, K, loaded_nil, hW, hK⟩

end Pending.Fits

/-! ### Nodes with expectations -/

/-- Something is expected at an address, with no more loops than have been started. -/
def Expects (expected : Nat → Pending → Prop) (pc : Nat) (types : List ElementType)
    (loops : List Nat) : Prop :=
  ∃ loops', loops' ⊆ loops ∧ expected pc ⟨types, loops'⟩

/-- The node at an address does what is expected of it, and wherever it leads to, what it leaves
waiting is expected there. -/
inductive Post (w : Workspace) (code : Array Node) (expected : Nat → Pending → Prop) :
    Nat → Pending → Prop
  | simple {s : Simple} {pc : Nat} {loops : List Nat} : Placed code pc s.code → s.WellTyped w →
      Expects expected (pc + s.code.length) [] loops → Post w code expected pc ⟨[], loops⟩
  | value {t : Typed} {pc : Nat} {types : List ElementType} {loops : List Nat} :
      Placed code pc (t.expr.code t.type) → t.WellTyped w →
      Expects expected (pc + (t.expr.code t.type).length) (types ++ [t.type]) loops →
      Post w code expected pc ⟨types, loops⟩
  | fork {pc target : Nat} {offset : Int} {loops : List Nat} :
      code[pc]? = some (.branchIfFalse offset) → Machine.jump pc offset = some target →
      Expects expected (pc + 1) [] loops → Expects expected target [] loops →
      Post w code expected pc ⟨[.logical], loops⟩
  | branch {pc target : Nat} {offset : Int} {loops : List Nat} :
      code[pc]? = some (.branch offset) → Machine.jump pc offset = some target →
      Expects expected target [] loops → Post w code expected pc ⟨[], loops⟩
  | gate {pc : Nat} {exit again : Int} {loops : List Nat} : code[pc]? = some (.gate exit again) →
      Expects expected (pc + 1) [] loops → Post w code expected pc ⟨[], loops⟩
  | leap {pc gate left skip : Nat} {offset : Int} {leave : Bool} {loops : List Nat} :
      code[pc]? = some (.via offset leave) → Machine.jump pc offset = some gate →
      GateAt code gate left skip → Expects expected left [] loops → Expects expected skip [] loops →
      Post w code expected pc ⟨[], loops⟩
  | init {first last : Typed} {bound : Option Typed} {pc counter : Nat} {offset exit : Int}
      {var : Handle} {loops : List Nat} :
      code[pc]? = some (.loopInit offset bound.isSome) → Machine.jump pc offset = some counter →
      code[counter]? = some (.loopCounter var none exit) → w.Numbers var →
      (∀ t ∈ loopBounds first last bound, t.type.isNumeric) →
      Expects expected (pc + 1) [] (counter :: loops) →
      Post w code expected pc ⟨(loopBounds first last bound).map Typed.type, loops⟩
  | round {pc target : Nat} {exit : Int} {var : Handle} {loops : List Nat} :
      code[pc]? = some (.loopCounter var none exit) → Machine.jump pc exit = some target →
      w.Numbers var → pc ∈ loops → Expects expected (pc + 1) [] loops →
      Expects expected target [] loops → Post w code expected pc ⟨[], loops⟩
  | stop {pc : Nat} {loops : List Nat} : code[pc]? = some .stop →
      Post w code expected pc ⟨[], loops⟩
  | finished {pc : Nat} {loops : List Nat} : code[pc]? = none → Post w code expected pc ⟨[], loops⟩

/-! ### One node -/

/-- A node ends as promised, with an allowed fault, or for want of fuel. -/
def Proceeds (allowed : Fault → Prop) (post : Next → Machine → Prop) :
    Machine.Result Next → Prop
  | .ok next m => post next m
  | .error (.fault f) _ => allowed f
  | .error .exhausted _ => True

theorem Disturbance.isProper (h : Disturbance f m) : f.IsProper := by
  cases h with
  | interrupted | singles | cells => exact Fault.isProper_because.2 (by decide)

theorem Tracks.proceeds {β σ : Type} {view : Machine → σ} {kept : Machine → Prop} {short : Prop}
    {same : Next → β → Machine → Prop} {y : EStateM.Result Fault σ β}
    (h : Tracks view kept short same r y) (proper : ∀ f : Fault, f.IsProper → allowed f)
    (hok : ∀ next b m, same next b m → y = .ok b (view m) → post next m)
    (herror : ∀ f s, y = .error f s → allowed f) : Proceeds allowed post r := by
  cases h with
  | value hsame => exact hok _ _ _ hsame rfl
  | fault => exact herror _ _ rfl
  | disturbed hd => exact proper _ hd.isProper
  | spent => trivial

/-- The node at an address is a command whose exchange of two variables fails. -/
def FailsToExchange (code : Array Node) (pc : Nat) (m : Machine) (f : Fault) : Prop :=
  ∃ func args, Placed code pc (Simple.command func args).code ∧ Simple.Exchanges m.world func args f

/-- Wherever a run goes on, the machine is as expected there. -/
def Arrives (w : Workspace) (m₀ : Machine) (expected : Nat → Pending → Prop) (next : Next)
    (m : Machine) : Prop :=
  ∀ pc, next = .at pc → ∃ G, expected pc G ∧ G.Fits w m₀ m

section Step

variable {node : Node}

/-- A run arrives at an address where nothing is waited for. -/
theorem Expects.arrives (h : Expects expected pc [] loops) (hW : w.Later W.workspace)
    (hK : Counting loops K) : Arrives w m₀ expected (.at pc) (m₀.place W K) := by
  obtain ⟨loops', hsub, hexpected⟩ := h
  intro pc' hpc'
  cases hpc'
  exact ⟨_, hexpected, .idle hW (hK.mono hsub)⟩

theorem Arrives.done (flow : Flow) : Arrives w m₀ expected (.done flow) m :=
  fun _ h => by cases h

theorem Simple.WellTyped.step (hw : w.IsCore) (hcode : code.size < wordSize) {s : Simple}
    (hs : s.WellTyped w) (hplaced : Placed code pc s.code)
    (hnext : Expects expected (pc + s.code.length) [] loops) (hW : w.Later W.workspace)
    (hK : Counting loops K) (hnode : code[pc]? = some node) (fuel : Nat) :
    Proceeds (fun f => f.IsProper ∨ FailsToExchange code pc (m₀.place W K) f)
      (Arrives w m₀ expected) (step code fuel pc node (m₀.place W K)) := by
  obtain ⟨first, rest, hfirst⟩ : ∃ first rest, s.code = first :: rest := by
    cases s <;> exact ⟨_, _, rfl⟩
  have hhead : code[pc]? = some first := (hfirst ▸ hplaced).head
  obtain rfl : first = node := Option.some.inj (hhead.symm.trans hnode)
  have hkeeps : ∀ f ∈ (m₀.place W K).workspace.functions, f.KeepsCount := by
    intro f hf
    have hf : f ∈ W.workspace.functions := hf
    rw [hW.functions] at hf
    exact Core.keepsCount (hw f hf)
  have hrun := hs.run hw hW
  refine (Simple.simulates s hfirst hcode hplaced hkeeps).proceeds (fun _ => .inl) ?_ ?_
  · rintro next flow? _ ⟨rfl, W', rfl⟩ hok
    cases flow? with
    | some flow => exact .done flow
    | none =>
      have hok : s.run W = .ok none W' := hok
      rw [hok] at hrun
      exact hnext.arrives (W := W') hrun hK
  · intro f W' herror
    have herror : s.run W = .error f W' := herror
    rw [herror] at hrun
    refine hrun.imp_right fun hexchange => ?_
    obtain ⟨func, args, rfl, hexchange⟩ := hexchange
    exact ⟨func, args, hplaced, hexchange⟩

theorem Typed.WellTyped.step (hw : w.IsCore) (hcode : code.size < wordSize) {t : Typed}
    (ht : t.WellTyped w) (hplaced : Placed code pc (t.expr.code t.type)) {types : List ElementType}
    (hnext : Expects expected (pc + (t.expr.code t.type).length) (types ++ [t.type]) loops)
    (hm : Pending.Fits w m₀ ⟨types, loops⟩ m) (hnode : code[pc]? = some node) (fuel : Nat) :
    Proceeds Fault.IsProper (Arrives w m₀ expected) (step code fuel pc node m) := by
  obtain rfl := Option.some.inj (hplaced.head.symm.trans hnode)
  obtain ⟨loops', hsub, hexpected⟩ := hnext
  cases hm with
  | intro W K cells hW htypes hK =>
    have hvalue := ht.ensures hw hW none W.host
    have htrack := t.expr.tracks_step t.type hcode hplaced fuel
      (m := (m₀.place W K).loaded W.host cells)
    refine htrack.proceeds Fault.proper ?_ ?_
    · rintro next cell _ ⟨rfl, host, rfl⟩ hok pc' hpc'
      cases hpc'
      have hok : t.expr.evaluate W.workspace t.type none W.host = .ok cell host := hok
      rw [hok] at hvalue
      refine ⟨_, hexpected, ?_⟩
      rw [loaded_loaded]
      refine .intro ⟨W.workspace, host⟩ K (cells ++ [cell]) hW ?_ (hK.mono hsub)
      rw [map_append, htypes, map_singleton, hvalue]
    · intro f host herror
      have herror : t.expr.evaluate W.workspace t.type none W.host = .error f host := herror
      rw [herror] at hvalue
      exact hvalue

theorem step_fork (htarget : jump pc offset = some target)
    (hyes : Expects expected (pc + 1) [] loops) (hno : Expects expected target [] loops)
    (hm : Pending.Fits w m₀ ⟨[.logical], loops⟩ m) (fuel : Nat) :
    Proceeds Fault.IsProper (Arrives w m₀ expected)
      (step code fuel pc (.branchIfFalse offset) m) := by
  cases hm with
  | intro W K cells hW htypes hK =>
    obtain ⟨cell, rfl, htype⟩ := map_eq_singleton_iff.mp htypes
    have hpop := popCondition_loaded (m₀.place W K) W.host cell
    have hcondition := Cell.sound_condition htype
    rw [step, bind_apply, hpop]
    cases hc : cell.condition with
    | error f =>
      rw [hc] at hcondition
      exact hcondition
    | ok b =>
      cases b with
      | true => exact hyes.arrives hW hK
      | false =>
        rw [htarget]
        exact hno.arrives hW hK

theorem cells_of_bounds {cells : List Cell}
    (h : cells.map Cell.type = (loopBounds first last bound).map Typed.type) :
    ∃ start stop bound', cells = start :: stop :: Option.toList bound' ∧
      bound'.isSome = bound.isSome := by
  cases bound with
  | none =>
    obtain ⟨start, _, rfl, -, h⟩ := map_eq_cons_iff.mp h
    obtain ⟨stop, _, rfl, -, h⟩ := map_eq_cons_iff.mp h
    obtain rfl := map_eq_nil_iff.mp h
    exact ⟨start, stop, none, rfl, rfl⟩
  | some t =>
    obtain ⟨start, _, rfl, -, h⟩ := map_eq_cons_iff.mp h
    obtain ⟨stop, _, rfl, -, h⟩ := map_eq_cons_iff.mp h
    obtain ⟨step, rfl, -⟩ := map_eq_singleton_iff.mp h
    exact ⟨start, stop, some step, rfl, rfl⟩

theorem step_init (hcounter : jump pc offset = some counter)
    (hnode : code[counter]? = some (.loopCounter var none exit)) (hvar : w.Numbers var)
    (hbounds : ∀ t ∈ loopBounds first last bound, t.type.isNumeric)
    (hnext : Expects expected (pc + 1) [] (counter :: loops))
    (hm : Pending.Fits w m₀ ⟨(loopBounds first last bound).map Typed.type, loops⟩ m) (fuel : Nat) :
    Proceeds Fault.IsProper (Arrives w m₀ expected)
      (step code fuel pc (.loopInit offset bound.isSome) m) := by
  cases hm with
  | intro W K cells hW htypes hK =>
    have htypes : cells.map Cell.type = (loopBounds first last bound).map Typed.type := htypes
    have hnumeric : ∀ c ∈ cells, c.type.isNumeric := by
      intro c hc
      have hmem : c.type ∈ (loopBounds first last bound).map Typed.type :=
        htypes ▸ mem_map_of_mem hc
      obtain ⟨t, ht, htype⟩ := mem_map.mp hmem
      exact htype ▸ hbounds t ht
    obtain ⟨start, stop, last', rfl, hsome⟩ := cells_of_bounds htypes
    have hstart := hnumeric start (by simp)
    have hstop := hnumeric stop (by simp)
    have hlast : ∀ c ∈ last', c.type.isNumeric := by
      intro c hc
      exact hnumeric c (by simp [Option.mem_def.mp hc])
    have hstate := safe_loopState hvar hstart hstop hlast W hW
    rw [← hsome]
    refine (tracks_loopInit start stop last' W.host hcounter hnode fuel).proceeds Fault.proper ?_ ?_
    · rintro next state _ ⟨rfl, W', rfl⟩ hok
      rw [hok] at hstate
      exact hnext.arrives hstate.1 (hK.setState counter hstate.2)
    · intro f W' herror
      rw [herror] at hstate
      exact hstate

theorem step_round (htarget : jump pc exit = some target) (hvar : w.Numbers var) (hpc : pc ∈ loops)
    (hround : Expects expected (pc + 1) [] loops) (hexit : Expects expected target [] loops)
    (hW : w.Later W.workspace) (hK : Counting loops K) (fuel : Nat) :
    Proceeds Fault.IsProper (Arrives w m₀ expected)
      (step code fuel pc (.loopCounter var none exit) (m₀.place W K)) := by
  obtain ⟨⟨value, stride, remaining⟩, hlookup⟩ := hK.set pc hpc
  have hcounts := hK.counts hlookup
  cases remaining with
  | zero =>
    simp only [step, nextRound, bind_assoc, get_bind_apply, counterState_place hlookup, htarget]
    exact hexit.arrives hW hK
  | succ rest =>
    have hstart := safe_startRound hvar hcounts rest W hW
    refine (tracks_round code m₀ var exit W hlookup fuel).proceeds Fault.proper ?_ ?_
    · rintro next following _ ⟨rfl, W', rfl⟩ hok
      rw [hok] at hstart
      have hset := (hK.setState pc hstart.2).mono fun c hc => mem_cons_of_mem pc hc
      exact hround.arrives hstart.1 hset
    · intro f W' herror
      rw [herror] at hstart
      exact hstart

theorem Proceeds.mono {allowed' : Fault → Prop} (h : Proceeds allowed post r)
    (hf : ∀ f, allowed f → allowed' f) : Proceeds allowed' post r := by
  cases r with
  | ok next m => exact h
  | error failure m =>
    cases failure with
    | fault f => exact hf f h
    | exhausted => trivial

/-- **One node, run as expected**, leads to a machine that is as expected; it fails properly, or it is
an exchange of two variables that fails. -/
theorem Post.step (hw : w.IsCore) (hcode : code.size < wordSize) (h : Post w code expected pc G)
    (hm : G.Fits w m₀ m) (hnode : code[pc]? = some node) (fuel : Nat) :
    Proceeds (fun f => f.IsProper ∨ FailsToExchange code pc m f) (Arrives w m₀ expected)
      (step code fuel pc node m) := by
  have proper : ∀ f : Fault, f.IsProper → f.IsProper ∨ FailsToExchange code pc m f := fun _ => .inl
  cases h with
  | simple hplaced hs hnext =>
    obtain ⟨W, K, rfl, hW, hK⟩ := hm.of_idle
    exact hs.step hw hcode hplaced hnext hW hK hnode fuel
  | value hplaced ht hnext => exact (ht.step hw hcode hplaced hnext hm hnode fuel).mono proper
  | fork hat htarget hyes hno =>
    obtain rfl := Option.some.inj (hat.symm.trans hnode)
    exact (step_fork htarget hyes hno hm fuel).mono proper
  | branch hat htarget hnext =>
    obtain rfl := Option.some.inj (hat.symm.trans hnode)
    obtain ⟨W, K, rfl, hW, hK⟩ := hm.of_idle
    rw [step, htarget]
    exact hnext.arrives hW hK
  | gate hat hnext =>
    obtain rfl := Option.some.inj (hat.symm.trans hnode)
    obtain ⟨W, K, rfl, hW, hK⟩ := hm.of_idle
    exact hnext.arrives hW hK
  | @leap _ _ _ _ _ leave _ hat hoffset hgate hleft hskip =>
    obtain rfl := Option.some.inj (hat.symm.trans hnode)
    obtain ⟨W, K, rfl, hW, hK⟩ := hm.of_idle
    obtain ⟨exit, again, hgate, hexit, hagain⟩ := hgate
    simp only [step, hoffset, hgate]
    cases leave with
    | true =>
      simp only [if_true, hexit]
      exact hleft.arrives hW hK
    | false =>
      simp only [Bool.false_eq_true, if_false, hagain]
      exact hskip.arrives hW hK
  | init hat hcounter hloop hvar hbounds hnext =>
    obtain rfl := Option.some.inj (hat.symm.trans hnode)
    exact (step_init hcounter hloop hvar hbounds hnext hm fuel).mono proper
  | round hat htarget hvar hpc hround hexit =>
    obtain rfl := Option.some.inj (hat.symm.trans hnode)
    obtain ⟨W, K, rfl, hW, hK⟩ := hm.of_idle
    exact (step_round htarget hvar hpc hround hexit hW hK fuel).mono proper
  | stop hat =>
    obtain rfl := Option.some.inj (hat.symm.trans hnode)
    exact .done .stopped
  | finished hat =>
    rw [hat] at hnode
    cases hnode

end Step

/-! ### Runs -/

namespace Control

/-- The states that a run from an address on comes to, with the fuel it has. -/
inductive Visits (code : Array Node) : (fuel pc : Nat) → Machine → Nat → Machine → Prop
  | here (fuel pc : Nat) (m : Machine) : Visits code fuel pc m pc m
  | after {fuel pc pc' pc'' : Nat} {m m' m'' : Machine} {node : Node} : code[pc]? = some node →
      m.host.interrupted = false → step code fuel pc node m = .ok (.at pc') m' →
      Visits code fuel pc' m' pc'' m'' → Visits code (fuel + 1) pc m pc'' m''

theorem fault_of_runFrom (h : runFrom code fuel pc m = .error (.fault f) m') :
    f.IsProper ∨ ∃ pc' n node fuel', Visits code fuel pc m pc' n ∧ code[pc']? = some node ∧
      step code fuel' pc' node n = .error (.fault f) m' := by
  induction fuel generalizing pc m with
  | zero => cases h
  | succ fuel ih =>
    cases hnode : code[pc]? with
    | none =>
      rw [runFrom, hnode] at h
      cases h
    | some node =>
      rw [runFrom, hnode] at h
      dsimp only at h
      rw [bind_apply, checkInterrupt, get_bind_apply] at h
      cases hi : m.host.interrupted with
      | true =>
        rw [hi] at h
        cases h
        exact .inl (by simp)
      | false =>
        rw [hi] at h
        simp only [Bool.false_eq_true, if_false, pure_apply] at h
        rw [bind_apply] at h
        cases hstep : step code fuel pc node m with
        | error failure n =>
          rw [hstep] at h
          cases h
          exact .inr ⟨pc, m, node, fuel, .here _ _ _, hnode, hstep⟩
        | ok next n =>
          rw [hstep] at h
          cases next with
          | done flow => cases h
          | «at» pc₁ =>
            refine (ih h).imp_right fun hvisits => ?_
            obtain ⟨pc', n', node', fuel', hvisits, hnode', hfails⟩ := hvisits
            exact ⟨pc', n', node', fuel', .after hnode hi hstep hvisits, hnode', hfails⟩

end Control

/-- Every address with an expectation has a node that keeps it. -/
def Guarded (w : Workspace) (code : Array Node) (expected : Nat → Pending → Prop) : Prop :=
  ∀ pc G, expected pc G → Post w code expected pc G

namespace Guarded

variable {n : Machine}
  {pc' : Nat} (hw : w.IsCore) (hcode : code.size < wordSize)
  (h : Guarded w code expected) (hG : expected pc G) (hm : G.Fits w m₀ m)

include hw hcode h hG hm

/-- **Expectations hold in every state of a run.** -/
theorem visits (hvisits : Visits code fuel pc m pc' n) :
    ∃ G', expected pc' G' ∧ G'.Fits w m₀ n := by
  induction hvisits generalizing G with
  | here => exact ⟨G, hG, hm⟩
  | @after fuel pc _ _ m _ _ node hnode _ hstep _ ih =>
    have hproceeds := (h pc G hG).step hw hcode hm hnode fuel
    rw [hstep] at hproceeds
    obtain ⟨G₁, hG₁, hm₁⟩ := hproceeds _ rfl
    exact ih hG₁ hm₁

/-- **A run fails properly, or it has come to an exchange of two variables that fails.** -/
theorem fault (hrun : runFrom code fuel pc m = .error (.fault f) m') :
    f.IsProper ∨ ∃ pc' n, Visits code fuel pc m pc' n ∧ FailsToExchange code pc' n f := by
  obtain hproper | ⟨pc', n, node, fuel', hvisits, hnode, hfails⟩ := fault_of_runFrom hrun
  · exact .inl hproper
  obtain ⟨G', hG', hn⟩ := visits hw hcode h hG hm hvisits
  have hproceeds := (h _ G' hG').step hw hcode hn hnode fuel'
  rw [hfails] at hproceeds
  exact hproceeds.imp_right fun hexchange => ⟨pc', n, hvisits, hexchange⟩

end Guarded

end ArrayCommand
