/-
Runs of the machine over a part of a program.

A part of a program is entered at its first address and left at an address that depends on how the
statement ended that it belongs to.  Unless the machine is cut off, it arrives there with the
variables and the host that the statement leaves, with the stacks as they were, and with the states
of the loops outside of the part untouched.

* `Reaches`, `Ends`, `Starves` — a run comes to an address, comes to an end, or does not end within
  an amount of fuel;
* `Runs` — a run does what a part of a statement does; `Runs.bind` puts parts together;
* `Expr.runs_holds` — a condition with the jump behind it;
* `runs_loopStart`, `tracks_round` — the counter of a loop is set, and a round of it is started.
-/

import ArrayCommand.Proofs.Simulation

namespace ArrayCommand

open Machine Control

variable {lo hi n pc pc' F F' counter : Nat} {code : Array Node} {m : Machine} {node : Node}
  {K K' : Counters} {W W' : World} {f : Fault} {host : Host}
variable {lo' hi' : Nat} {offset exit : Int} {var : Handle}

/-! ### Runs of the machine -/

def seen {α : Type} : Machine.Result α → EStateM.Result Failure World α
  | .ok a m => .ok a m.world
  | .error failure m => .error failure m.world

/-- A run from one address goes over `n` nodes to another one, unless it is cut off before. -/
def Reaches (code : Array Node) (n pc : Nat) (m : Machine) (pc' : Nat) (m' : Machine) : Prop :=
  ∃ need, ∀ fuel, CutOff (fuel < need) (runFrom code fuel pc m) ∨
    (n ≤ fuel ∧ runFrom code fuel pc m = runFrom code (fuel - n) pc' m')

/-- A run ends with a result, unless it is cut off before. -/
def Ends (code : Array Node) (pc : Nat) (m : Machine) (r : EStateM.Result Failure World Flow) :
    Prop :=
  ∃ need, ∀ fuel, CutOff (fuel < need) (runFrom code fuel pc m) ∨
    seen (runFrom code fuel pc m) = r

/-- Fuel up to `n` does not bring a run to its end. -/
def Starves (code : Array Node) (n pc : Nat) (m : Machine) : Prop :=
  ∀ fuel, fuel ≤ n → CutOff True (runFrom code fuel pc m)

section Runs

variable {n' pc'' : Nat} {m' m'' : Machine}
  {r : EStateM.Result Failure World Flow}

theorem Reaches.refl : Reaches code 0 pc m pc m := ⟨0, fun _ => .inr ⟨Nat.zero_le _, rfl⟩⟩

theorem Reaches.trans (h : Reaches code n pc m pc' m') (h' : Reaches code n' pc' m' pc'' m'') :
    Reaches code (n + n') pc m pc'' m'' := by
  obtain ⟨need, h⟩ := h
  obtain ⟨need', h'⟩ := h'
  refine ⟨max need (need' + n), fun fuel => ?_⟩
  obtain hcut | ⟨hn, hrun⟩ := h fuel
  · exact .inl (hcut.mono fun _ => by omega)
  rw [hrun]
  obtain hcut | ⟨hn', hrun'⟩ := h' (fuel - n)
  · exact .inl (hcut.mono fun _ => by omega)
  · exact .inr ⟨by omega, by rw [hrun', Nat.sub_sub]⟩

theorem Reaches.ends (h : Reaches code n pc m pc' m') (h' : Ends code pc' m' r) :
    Ends code pc m r := by
  obtain ⟨need, h⟩ := h
  obtain ⟨need', h'⟩ := h'
  refine ⟨max need (need' + n), fun fuel => ?_⟩
  obtain hcut | ⟨hn, hrun⟩ := h fuel
  · exact .inl (hcut.mono fun _ => by omega)
  rw [hrun]
  exact (h' (fuel - n)).imp_left fun hcut => hcut.mono fun _ => by omega

theorem Reaches.starves (hF : F ≤ F' + n) (h : Reaches code n pc m pc' m')
    (h' : Starves code F' pc' m') : Starves code F pc m := by
  obtain ⟨need, h⟩ := h
  intro fuel hfuel
  obtain hcut | ⟨hn, hrun⟩ := h fuel
  · exact hcut.mono fun _ => trivial
  · rw [hrun]
    exact h' (fuel - n) (by omega)

theorem Starves.mono (hF : F ≤ F') (h : Starves code F' pc m) : Starves code F pc m :=
  fun fuel hfuel => h fuel (Nat.le_trans hfuel hF)

theorem Ends.finished (h : code[pc]? = none) : Ends code pc m (.ok .finished m.world) := by
  refine ⟨1, fun fuel => ?_⟩
  cases fuel with
  | zero => exact .inl (.spent Nat.zero_lt_one)
  | succ fuel => exact .inr (by rw [runFrom, h]; rfl)

/-! ### One node -/

/-- What becomes of a run after one of its nodes. -/
def afterNode (code : Array Node) (fuel : Nat) :
    Machine.Result Next → Machine.Result Flow
  | .ok (.at pc) m => runFrom code fuel pc m
  | .ok (.done flow) m => .ok flow m
  | .error failure m => .error failure m

/-- A run goes on after its first node, unless it is asked to stop. -/
theorem runFrom_node (h : code[pc]? = some node) (fuel : Nat) :
    CutOff False (runFrom code (fuel + 1) pc m) ∨
      runFrom code (fuel + 1) pc m = afterNode code fuel (step code fuel pc node m) := by
  rw [runFrom]
  simp only [h]
  rw [bind_apply, checkInterrupt, get_bind_apply]
  cases hi : m.host.interrupted with
  | true => exact .inl (.disturbed (.interrupted hi))
  | false =>
    refine .inr ?_
    simp only [Bool.false_eq_true, if_false, pure_apply]
    rw [bind_apply]
    cases step code fuel pc node m with
    | ok next m' => cases next <;> rfl
    | error failure m' => rfl

theorem CutOff.afterNode {short : Prop} {fuel : Nat} {r : Result Next}
    (h : CutOff short r) : CutOff short (ArrayCommand.afterNode code fuel r) := by
  cases h with
  | spent h => exact .spent h
  | disturbed h => exact .disturbed h

section Step

variable (need : Nat)

theorem Reaches.step (hnode : code[pc]? = some node)
    (h : ∀ fuel, CutOff (fuel < need) (step code fuel pc node m) ∨
      step code fuel pc node m = .ok (.at pc') m') : Reaches code 1 pc m pc' m' := by
  refine ⟨need + 1, fun fuel => ?_⟩
  cases fuel with
  | zero => exact .inl (.spent (Nat.succ_pos _))
  | succ fuel =>
    obtain hcut | hrun := runFrom_node hnode fuel (m := m)
    · exact .inl (hcut.mono False.elim)
    rw [hrun]
    obtain hcut | hstep := h fuel
    · exact .inl (hcut.afterNode.mono fun _ => by omega)
    · rw [hstep]
      exact .inr ⟨Nat.succ_pos _, rfl⟩

theorem Ends.step (hnode : code[pc]? = some node)
    (h : ∀ fuel, CutOff (fuel < need) (step code fuel pc node m) ∨
      seen (afterNode code fuel (step code fuel pc node m)) = r) : Ends code pc m r := by
  refine ⟨need + 1, fun fuel => ?_⟩
  cases fuel with
  | zero => exact .inl (.spent (Nat.succ_pos _))
  | succ fuel =>
    obtain hcut | hrun := runFrom_node hnode fuel (m := m)
    · exact .inl (hcut.mono False.elim)
    rw [hrun]
    exact (h fuel).imp_left fun hcut => hcut.afterNode.mono fun _ => by omega

end Step

end Runs

/-! ### Functions stay -/

/-- A part of a statement leaves the functions as they are. -/
def WorldM.Settled {α : Type} (x : WorldM α) : Prop :=
  ∀ W a W', x W = .ok a W' → W'.workspace.functions = W.workspace.functions

namespace WorldM.Settled

variable {α β : Type}

theorem bind {x : WorldM α} {f : α → WorldM β} (hx : Settled x) (hf : ∀ a, Settled (f a)) :
    Settled (x >>= f) := by
  intro W b W'' h
  obtain ⟨a, W', hx', hf'⟩ := bind_eq_ok.1 h
  exact (hf a _ _ _ hf').trans (hx _ _ _ hx')

theorem pure (a : α) : Settled (Pure.pure a : WorldM α) := by
  rintro W _ _ ⟨⟩
  rfl

theorem throw (f : Fault) : Settled (MonadExcept.throw f : WorldM α) := by
  rintro W _ _ ⟨⟩

theorem get : Settled (MonadState.get : WorldM World) := by
  rintro W _ _ ⟨⟩
  rfl

theorem check (result : Except Fault α) : Settled (Direct.check result : WorldM α) := by
  cases result with
  | ok a => exact pure a
  | error f => exact throw f

theorem valueOf (var : Handle) : Settled (WorldM.valueOf var) := get.bind fun _ => check _

theorem update (var : Handle) (value : Cell) : Settled (WorldM.update var value) := by
  rintro W _ _ ⟨⟩
  rfl

theorem evaluating (x : Workspace → HostM α) : Settled (WorldM.evaluating x) := by
  intro W a W' h
  rw [WorldM.evaluating] at h
  cases hx : x W.workspace W.host with
  | ok _ _ => rw [hx] at h; cases h; rfl
  | error _ _ => rw [hx] at h; cases h

theorem print (text : String) : Settled (WorldM.print text) := by
  rintro W _ _ ⟨⟩
  rfl

theorem delete (name : String) : Settled (WorldM.delete name) := by
  refine get.bind fun W => ?_
  cases W.workspace.names.get? name with
  | none => exact throw _
  | some entry =>
    cases entry with
    | var handle =>
      refine (valueOf handle).bind fun value => (check _).bind fun _ => ?_
      rintro W _ _ ⟨⟩
      rfl
    | func _ _ => exact throw _
    | package _ => exact throw _

theorem carryOut (list : List Request) : Settled (WorldM.carryOut list) := by
  induction list with
  | nil => exact pure none
  | cons request rest ih =>
    cases request with
    | delete name => exact (delete name).bind fun _ => ih
    | list beginning => exact get.bind fun _ => (check _).bind fun _ => (print _).bind fun _ => ih
    | help topic => exact get.bind fun _ => (check _).bind fun _ => (print _).bind fun _ => ih
    | exit mode => exact pure _

theorem requests : Settled WorldM.requests := by
  refine get.bind fun W => Settled.bind ?_ fun _ => carryOut _
  rintro W _ _ ⟨⟩
  rfl

theorem writeBack (f : Function) (cells : Array Cell) (refs : List (Option Handle)) :
    ∀ index, Settled (Argument.writeBack f cells index refs) := by
  induction refs with
  | nil => exact fun _ => pure ()
  | cons ref refs ih =>
    intro index
    cases ref with
    | none => exact ih (index + 1)
    | some var =>
      rw [Argument.writeBack]
      cases cells[index]? with
      | none => exact throw _
      | some new =>
        refine (valueOf var).bind fun cell => ?_
        split
        · exact ih (index + 1)
        · exact (check _).bind fun _ => (check _).bind fun _ => (update _ _).bind fun _ =>
            ih (index + 1)

theorem assigning (var : Handle) (subscripts : Option (List Subscript)) (values : List Typed) :
    Settled (Simple.assigning var subscripts values) := by
  refine (valueOf var).bind fun target => get.bind fun _ => (check _).bind fun _ => ?_
  cases subscripts with
  | none =>
    exact (evaluating _).bind fun _ => (valueOf var).bind fun _ => (check _).bind fun _ =>
      update _ _
  | some subscripts =>
    exact (evaluating _).bind fun _ => (evaluating _).bind fun _ => (valueOf var).bind fun _ =>
      (update _ _).bind fun _ => check _

theorem run (s : Simple) : Settled s.run := by
  cases s with
  | assign var subscripts values => exact (assigning var subscripts values).bind fun _ => pure _
  | command func args =>
    exact (evaluating _).bind fun _ => (evaluating _).bind fun _ => (evaluating _).bind fun _ =>
      (writeBack _ _ _ _).bind fun _ => requests
  | declare var extents =>
    exact ((evaluating _).bind fun _ => (check _).bind fun _ => (valueOf _).bind fun _ =>
      (check _).bind fun _ => update _ _).bind fun _ => pure _

theorem startRound (var : Handle) (value step : Scalar) (rest : Nat) :
    Settled (ArrayCommand.startRound var value step rest) :=
  (valueOf var).bind fun _ => (check _).bind fun _ => (check _).bind fun _ =>
    (update _ _).bind fun _ => check _

theorem loopStart (var : Handle) (first last : Typed) (step : Option Typed) :
    Settled (ArrayCommand.loopStart var first last step) :=
  (evaluating _).bind fun _ => (valueOf var).bind fun _ => check _

end WorldM.Settled

/-! ### Runs of statements -/

/-- The states of counted loops, under the addresses of their counters. -/
abbrev Counters := List (Nat × LoopState)

/-- The machine in another world and with other counters. -/
def Machine.place (m : Machine) (W : World) (counters : Counters) : Machine :=
  { m with workspace := W.workspace, host := W.host, counters }

/-- No state of a loop has changed, unless its counter stands between two addresses. -/
def AgreeOff (lo hi : Nat) (before after : Counters) : Prop :=
  ∀ pc, pc < lo ∨ hi ≤ pc → after.lookup pc = before.lookup pc

theorem AgreeOff.refl (K : Counters) : AgreeOff lo hi K K :=
  fun _ _ => rfl

theorem AgreeOff.trans {K'' : Counters} (h : AgreeOff lo hi K K')
    (h' : AgreeOff lo hi K' K'') : AgreeOff lo hi K K'' :=
  fun pc hpc => (h' pc hpc).trans (h pc hpc)

theorem AgreeOff.mono (h : AgreeOff lo hi K K') (hlo : lo' ≤ lo)
    (hhi : hi ≤ hi') : AgreeOff lo' hi' K K' :=
  fun pc hpc => h pc (by omega)

section Nodes

variable {α : Type} {m₀ : Machine} (need : Nat)
  {exits : α → Next} {counters : α → Counters} {x : WorldM α}

section Succeeds

variable (hnode : code[pc]? = some node)
  (h : ∀ fuel, Tracks world (fun _ => True) (fuel < need)
    (fun next a m' => next = exits a ∧ ∃ W', m' = m.place W' (counters a))
    (step code fuel pc node m₀) (x W))

include hnode h

theorem reaches_of_ok {a : α} (hx : x W = .ok a W') (hexit : exits a = .at pc') :
    Reaches code 1 pc m₀ pc' (m.place W' (counters a)) := by
  refine Reaches.step need hnode fun fuel => ?_
  have hstep := h fuel
  rw [hx] at hstep
  refine hstep.of_ok.imp_right ?_
  rintro ⟨_, _, hr, rfl, rfl, W₁, rfl⟩
  rw [hr, hexit]
  rfl

theorem ends_of_ok {a : α} {flow : Flow} (hx : x W = .ok a W') (hexit : exits a = .done flow) :
    Ends code pc m₀ (.ok flow W') := by
  refine Ends.step need hnode fun fuel => ?_
  have hstep := h fuel
  rw [hx] at hstep
  refine hstep.of_ok.imp_right ?_
  rintro ⟨_, _, hr, rfl, rfl, -⟩
  rw [hr, hexit]
  rfl

end Succeeds

theorem ends_of_error {post : Next → α → Machine → Prop} (hnode : code[pc]? = some node)
    (h : ∀ fuel, Tracks world (fun _ => True) (fuel < need) post (step code fuel pc node m₀) (x W))
    (hx : x W = .error f W') : Ends code pc m₀ (.error (.fault f) W') := by
  refine Ends.step need hnode fun fuel => ?_
  have hstep := h fuel
  rw [hx] at hstep
  refine hstep.of_error.imp_right ?_
  rintro ⟨_, hr, rfl, -⟩
  rw [hr]
  rfl

end Nodes

/-- A run of the machine from an address on does what a part of a statement does.  After a result
`a` it is where `exits a` says, having taken at least `n` nodes; if the part runs out of fuel, then
fuel up to `F` does not bring the machine to an end either.  Only counters between `lo` and `hi` are
touched. -/
inductive Runs {α : Type} (code : Array Node) (m : Machine) (n F lo hi : Nat) (exits : α → Next)
    (pc : Nat) (W : World) (K : Counters) :
    EStateM.Result Failure World α → Prop
  | arrives {a : α} {k pc' : Nat} {W' : World} {K' : Counters} :
      exits a = .at pc' → Reaches code k pc (m.place W K) pc' (m.place W' K') → n ≤ k →
      W'.workspace.functions = W.workspace.functions → AgreeOff lo hi K K' →
      Runs code m n F lo hi exits pc W K (.ok a W')
  | ends {a : α} {flow : Flow} {W' : World} : exits a = .done flow →
      Ends code pc (m.place W K) (.ok flow W') → Runs code m n F lo hi exits pc W K (.ok a W')
  | fault {f : Fault} {W' : World} : Ends code pc (m.place W K) (.error (.fault f) W') →
      Runs code m n F lo hi exits pc W K (.error (.fault f) W')
  | starves {W' : World} : Starves code F pc (m.place W K) →
      Runs code m n F lo hi exits pc W K (.error .exhausted W')

namespace Runs

variable {α β : Type} {exits : α → Next}
  {exits' : β → Next}
variable {r : EStateM.Result Failure World α}

theorem after {k : Nat} (hF : F ≤ F' + k)
    (hreach : Reaches code k pc (m.place W K) pc' (m.place W' K'))
    (hfunctions : W'.workspace.functions = W.workspace.functions) (hK : AgreeOff lo hi K K')
    (h : Runs code m 0 F' lo hi exits pc' W' K' r) : Runs code m 0 F lo hi exits pc W K r := by
  cases h with
  | arrives he hr _ hf hK' =>
    exact .arrives he (hreach.trans hr) (Nat.zero_le _) (hf.trans hfunctions) (hK.trans hK')
  | ends he hr => exact .ends he (hreach.ends hr)
  | fault hr => exact .fault (hreach.ends hr)
  | starves hr => exact .starves (hreach.starves hF hr)

theorem bind {x : RunM α} {cont : α → RunM β} (hF : F ≤ F' + n) (hlo : lo ≤ lo') (hhi : hi' ≤ hi)
    (hx : Runs code m n F lo' hi' exits pc W K (x W))
    (hnext : ∀ a pc' W' K', exits a = .at pc' → W'.workspace.functions = W.workspace.functions →
      AgreeOff lo' hi' K K' → Runs code m 0 F' lo hi exits' pc' W' K' (cont a W'))
    (hdone : ∀ a flow W', exits a = .done flow → ∃ b, exits' b = .done flow ∧ cont a W' = .ok b W') :
    Runs code m 0 F lo hi exits' pc W K ((x >>= cont) W) := by
  rw [bind_apply]
  generalize x W = r at hx
  cases hx with
  | arrives he hr hk hf hK =>
    exact after (by omega) hr hf (hK.mono hlo hhi) (hnext _ _ _ _ he hf hK)
  | ends he hr =>
    obtain ⟨b, hb, hcont⟩ := hdone _ _ _ he
    dsimp only
    rw [hcont]
    exact .ends hb hr
  | fault hr => exact .fault hr
  | starves hr => exact .starves hr

theorem mono (h : Runs code m n F' lo hi exits pc W K r) (hF : F ≤ F') :
    Runs code m n F lo hi exits pc W K r := by
  cases h with
  | arrives he hr hk hf hK => exact .arrives he hr hk hf hK
  | ends he hr => exact .ends he hr
  | fault hr => exact .fault hr
  | starves hr => exact .starves (hr.mono hF)

theorem widen (h : Runs code m n F lo' hi' exits pc W K r) (hlo : lo ≤ lo') (hhi : hi' ≤ hi) :
    Runs code m n F lo hi exits pc W K r := by
  cases h with
  | arrives he hr hk hf hK => exact .arrives he hr hk hf (hK.mono hlo hhi)
  | ends he hr => exact .ends he hr
  | fault hr => exact .fault hr
  | starves hr => exact .starves hr

theorem ofStep {x : WorldM α} (need : Nat) (hnode : code[pc]? = some node) (hsettled : x.Settled)
    (h : ∀ fuel, Simulates (fuel < need) (m.place W K) (fun next a => next = exits a)
      (step code fuel pc node (m.place W K)) (x W)) :
    Runs code m 1 F lo hi exits pc W K (attempt x W) := by
  have hsteps : ∀ fuel, Tracks world (fun _ => True) (fuel < need)
      (fun next a m' => next = exits a ∧ ∃ W', m' = m.place W' K)
      (step code fuel pc node (m.place W K)) (x W) := fun fuel => (h fuel).mono id fun _ _ _ => id
  rw [attempt]
  cases hx : x W with
  | error f W' => exact .fault (ends_of_error need hnode hsteps hx)
  | ok a W' =>
    cases hexit : exits a with
    | «at» pc' =>
      exact .arrives hexit (reaches_of_ok need hnode hsteps hx hexit) (Nat.le_refl 1)
        (hsettled _ _ _ hx) (.refl K)
    | done flow => exact .ends hexit (ends_of_ok need hnode hsteps hx hexit)

end Runs

/-! ### Expressions and conditions -/

section Conditions

variable {e : Expr} {type : ElementType}

theorem Expr.tracks_step (e : Expr) (type : ElementType) (hcode : code.size < wordSize)
    (hplaced : Placed code pc (e.code type)) (fuel : Nat) :
    Tracks Machine.host (fun m' => m'.workspace = m.workspace) (fuel < (e.code type).length)
      (fun next cell m' => next = .at (pc + (e.code type).length) ∧
        ∃ host, m' = m.loaded host [cell])
      (step code fuel pc
        (.expr ⟨(e.prologue 0).length + (e.body 0).length, e.slots, type, .value⟩) m)
      (e.evaluate m.workspace type none m.host) := by
  have hsize := hplaced.le_size (by simp [Expr.code, headed])
  have hcomputes := e.computes m.workspace type none code fuel pc m rfl hcode hplaced
  rw [← bind_pure (e.evaluate m.workspace type none)]
  refine Tracks.bind hcomputes ?_
  rintro cell _ _ ⟨rfl, host, rfl⟩
  refine Tracks.pushCell (.value ⟨?_, host, rfl⟩)
  simp only [Expr.code, headed, List.length_cons, List.length_append] at hsize ⊢
  rw [behind_eq (by omega), Next.at.injEq]
  omega

theorem Expr.reaches (hcode : code.size < wordSize) (hplaced : Placed code pc (e.code type))
    {cell : Cell} (h : e.evaluate m.workspace type none m.host = .ok cell host) :
    Reaches code 1 pc m (pc + (e.code type).length) (m.loaded host [cell]) := by
  refine Reaches.step (e.code type).length hplaced.head fun fuel => ?_
  have hstep := e.tracks_step type hcode hplaced fuel (m := m)
  rw [h] at hstep
  refine hstep.of_ok.imp_right ?_
  rintro ⟨_, _, hr, rfl, rfl, host', rfl⟩
  exact hr

theorem Expr.ends (hcode : code.size < wordSize) (hplaced : Placed code pc (e.code type))
    (h : e.evaluate m.workspace type none m.host = .error f host) :
    Ends code pc m (.error (.fault f) ⟨m.workspace, host⟩) := by
  refine Ends.step (e.code type).length hplaced.head fun fuel => ?_
  have hstep := e.tracks_step type hcode hplaced fuel (m := m)
  rw [h] at hstep
  refine hstep.of_error.imp_right ?_
  rintro ⟨m', hr, rfl, hw⟩
  rw [hr, ← hw]
  rfl

theorem Machine.pop_loaded (m : Machine) (host : Host) (cells : List Cell) (cell : Cell) :
    onValues Stack.pop (m.loaded host (cells ++ [cell])) =
      .ok cell (m.loaded host cells) := by
  simp [onValues, loaded, Stack.pop]

theorem popCondition_loaded (m : Machine) (host : Host) (cell : Cell) :
    popCondition (m.loaded host [cell]) = match cell.condition with
      | .ok b => .ok b (m.loaded host [])
      | .error f => .error (.fault f) (m.loaded host []) := by
  have hpop : onValues Stack.pop (m.loaded host [cell]) = .ok cell (m.loaded host []) :=
    m.pop_loaded host [] cell
  rw [popCondition, bind_ok hpop, Cell.condition]
  by_cases hsize : cell.size ≠ 1
  · rw [if_pos hsize, if_pos hsize]
    rfl
  · rw [if_neg hsize, if_neg hsize]
    cases cell.first with
    | error f => rfl
    | ok s =>
      change check s.truth (m.loaded host []) = match s.truth with
        | .ok b => .ok b (m.loaded host [])
        | .error f => .error (.fault f) (m.loaded host [])
      cases s.truth <;> rfl

theorem Expr.runs_holds {target : Nat} (test : Expr) (hcode : code.size < wordSize)
    (hplaced : Placed code pc (test.code .logical ++ [.branchIfFalse offset]))
    (htarget : jump (pc + test.testSize) offset = some target) :
    Runs code m 1 F lo hi
      (fun b => .at (if b then pc + test.testSize + 1 else target)) pc W K
      (attempt test.holds W) := by
  have hnode := hplaced.right.head
  cases hcell : test.evaluate W.workspace .logical none W.host with
  | error f host =>
    have hrun : attempt test.holds W = .error (.fault f) ⟨W.workspace, host⟩ := by
      simp only [attempt, Expr.holds, bind_apply, WorldM.evaluating, hcell]
    rw [hrun]
    exact .fault (Expr.ends (m := m.place W K) hcode hplaced.left hcell)
  | ok cell host =>
    have hreach := Expr.reaches (m := m.place W K) hcode hplaced.left hcell
    have hpop := popCondition_loaded (m.place W K) host cell
    have hrun : attempt test.holds W = match cell.condition with
        | .ok b => .ok b ⟨W.workspace, host⟩
        | .error f => .error (.fault f) ⟨W.workspace, host⟩ := by
      simp only [attempt, Expr.holds, bind_apply, WorldM.evaluating, hcell]
      cases cell.condition <;> rfl
    rw [hrun]
    cases hcond : cell.condition with
    | error f =>
      rw [hcond] at hpop
      refine .fault (hreach.ends (Ends.step 0 hnode fun fuel => .inr ?_))
      rw [step, bind_error hpop]
      rfl
    | ok b =>
      rw [hcond] at hpop
      have hnext : Reaches code 1 (pc + test.testSize) ((m.place W K).loaded host [cell])
          (if b then pc + test.testSize + 1 else target) (m.place ⟨W.workspace, host⟩ K) := by
        refine Reaches.step 0 hnode fun fuel => .inr ?_
        rw [step, bind_ok hpop]
        cases b with
        | true => rfl
        | false => exact congrArg (fun t => EStateM.Result.ok (goTo code t) _) htarget
      exact .arrives rfl (hreach.trans hnext) (by omega) rfl (.refl K)

end Conditions

/-! ### Counted loops -/

/-- The state of a loop is set under the address of its counter. -/
def setState (counter : Nat) (state : LoopState) (K : Counters) : Counters :=
  (counter, state) :: K.filter fun entry => entry.1 != counter

theorem lookup_setState (counter : Nat) (state : LoopState) (K : Counters) :
    (setState counter state K).lookup counter = some state := by
  simp [setState]

theorem lookup_filter_ne {a b : Nat} (h : a ≠ b) (K : Counters) :
    (K.filter fun entry => entry.1 != b).lookup a = K.lookup a := by
  induction K with
  | nil => rfl
  | cons entry K ih =>
    obtain ⟨c, state⟩ := entry
    by_cases hcb : c = b
    · subst hcb
      simp [ih, List.lookup_cons, beq_false_of_ne h]
    · simp [List.lookup_cons, hcb, ih]

theorem AgreeOff.setState (h : lo ≤ counter ∧ counter < hi) (state : LoopState)
    (K : Counters) : AgreeOff lo hi K (ArrayCommand.setState counter state K) := by
  intro a ha
  have hne : a ≠ counter := by omega
  rw [ArrayCommand.setState, List.lookup_cons, beq_false_of_ne hne]
  exact lookup_filter_ne hne K

section Count

variable {first last : Typed} {step : Option Typed}

theorem pushes_loopCells (hcode : code.size < wordSize)
    (hplaced : Placed code pc (Typed.codes (loopBounds first last step))) :
    match loopCells first last step m.workspace m.host with
    | .ok (start, stop, step') host =>
      step'.isSome = step.isSome ∧
        ∃ n, Reaches code n pc m (pc + (Typed.codes (loopBounds first last step)).length)
          (m.loaded host (start :: stop :: step'.toList))
    | .error f host => Ends code pc m (.error (.fault f) ⟨m.workspace, host⟩) := by
  have hfirst := hplaced.left
  have hlast := hplaced.right.left
  have hstep := hplaced.right.right
  simp only [loopCells, bind_apply, Typed.bound]
  cases h₁ : first.expr.evaluate m.workspace first.type none m.host with
  | error f host => exact Expr.ends hcode hfirst h₁
  | ok start host =>
    have r₁ := Expr.reaches hcode hfirst h₁
    dsimp only
    cases h₂ : last.expr.evaluate m.workspace last.type none host with
    | error f host' => exact r₁.ends (Expr.ends hcode hlast h₂)
    | ok stop host' =>
      have r₂ := r₁.trans (Expr.reaches hcode hlast h₂)
      rw [loaded_loaded, List.singleton_append] at r₂
      cases step with
      | none =>
        refine ⟨rfl, 2, ?_⟩
        simpa [loopBounds, Typed.codes, Nat.add_assoc] using r₂
      | some t =>
        have hstep : Placed code _ (t.expr.code t.type) := hstep.left
        simp only [Typed.boundOption, Typed.bound, bind_apply]
        cases h₃ : t.expr.evaluate m.workspace t.type none host' with
        | error f host'' => exact r₂.ends (Expr.ends hcode hstep h₃)
        | ok c host'' =>
          have r₃ := r₂.trans (Expr.reaches hcode hstep h₃)
          rw [loaded_loaded] at r₃
          refine ⟨rfl, 3, ?_⟩
          simpa [loopBounds, Typed.codes, Nat.add_assoc] using r₃

theorem loopInit_loaded {initial : Option LoopState} (start stop : Cell) (step : Option Cell)
    (host : Host) (hcounter : jump pc offset = some counter)
    (hnode : code[counter]? = some (.loopCounter var initial exit)) :
    loopInit code pc offset step.isSome (m.loaded host (start :: stop :: step.toList)) =
      (do
        let type := (← valueOf var).type
        setCounter counter (← check (loopState type start stop step)))
        (m.loaded host []) := by
  have hstop : onValues Stack.pop (m.loaded host [start, stop]) =
    .ok stop (m.loaded host [start]) := m.pop_loaded host [start] stop
  have hstart : onValues Stack.pop (m.loaded host [start]) =
    .ok start (m.loaded host []) := m.pop_loaded host [] start
  cases step with
  | none =>
    simp only [loopInit, Option.isSome_none, Bool.false_eq_true, if_false, pure_bind,
      Option.toList_none]
    rw [bind_ok hstop, bind_ok hstart, hcounter]
    simp only [hnode]
  | some c =>
    have hstep : onValues Stack.pop (m.loaded host [start, stop, c]) =
      .ok c (m.loaded host [start, stop]) := m.pop_loaded host [start, stop] c
    simp only [loopInit, Option.isSome_some, if_true, pure_bind, Option.toList_some]
    rw [bind_ok hstep, bind_ok hstop, bind_ok hstart, hcounter]
    simp only [hnode]

theorem tracks_loopInit (start stop : Cell) (step : Option Cell) (host : Host)
    (hcounter : jump pc offset = some counter)
    (hnode : code[counter]? = some (.loopCounter var none exit)) (fuel : Nat) :
    Tracks world (fun _ => True) (fuel < 0)
      (fun next state m' => next = .at (pc + 1) ∧
        ∃ W', m' = m.place W' (setState counter state K))
      (Control.step code fuel pc (.loopInit offset step.isSome)
        ((m.place W K).loaded host (start :: stop :: step.toList)))
      ((do
        let type := (← WorldM.valueOf var).type
        Direct.check (Control.loopState type start stop step)) ⟨W.workspace, host⟩) := by
  have hloop := loopInit_loaded (m := m.place W K) start stop step host hcounter hnode
  rw [Control.step, bind_apply, hloop, ← bind_apply, loaded_nil, bind_assoc]
  refine Simulates.valueOf (m := m.place ⟨W.workspace, host⟩ K) fun cell => ?_
  rw [bind_assoc, ← bind_pure (Direct.check _)]
  exact Tracks.check (by trivial) fun state _ => .value ⟨rfl, ⟨W.workspace, host⟩, rfl⟩

theorem runs_loopStart (hcode : code.size < wordSize)
    (hplaced : Placed code pc (Typed.codes (loopBounds first last step) ++ [.loopInit offset step.isSome]))
    (hcounter : jump (pc + (Typed.codes (loopBounds first last step)).length) offset = some counter)
    (hnode : code[counter]? = some (.loopCounter var none exit)) :
    match loopStart var first last step W with
    | .ok state W' =>
      ∃ n, Reaches code n pc (m.place W K)
        (pc + (Typed.codes (loopBounds first last step)).length + 1)
        (m.place W' (setState counter state K))
    | .error f W' => Ends code pc (m.place W K) (.error (.fault f) W') := by
  have hpush := pushes_loopCells (m := m.place W K) hcode hplaced.left
  change match loopCells first last step W.workspace W.host with
    | .ok (start, stop, step') host => _
    | .error f host => _ at hpush
  cases hcells : loopCells first last step W.workspace W.host with
  | error f host =>
    have hstart : loopStart var first last step W = .error f ⟨W.workspace, host⟩ := by
      rw [loopStart, bind_apply, WorldM.evaluating, hcells]
    rw [hcells] at hpush
    rw [hstart]
    exact hpush
  | ok cells host =>
    obtain ⟨start, stop, step'⟩ := cells
    rw [hcells] at hpush
    obtain ⟨hsome, n, hreach⟩ := hpush
    have hinit := hplaced.right.head
    rw [← hsome] at hinit
    have htrack := tracks_loopInit (m := m) (W := W) (K := K) start stop step' host hcounter hnode
    have hstart : loopStart var first last step W = (do
        let type := (← WorldM.valueOf var).type
        Direct.check (Control.loopState type start stop step')) ⟨W.workspace, host⟩ := by
      rw [loopStart, bind_apply, WorldM.evaluating, hcells]
    rw [← hstart] at htrack
    cases hstate : loopStart var first last step W with
    | error f W' => exact hreach.ends (ends_of_error 0 hinit htrack hstate)
    | ok state W' =>
      have hset := reaches_of_ok 0 hinit htrack hstate rfl
      exact ⟨n + 1, hreach.trans hset⟩

theorem Machine.counterState_place {state : LoopState} (hK : K.lookup counter = some state) :
    counterState (m.place W K) counter none = some state := by
  have hplace : (m.place W K).counters = K := rfl
  rw [counterState, hplace, hK]

/-- A round of a counted loop is started. -/
theorem tracks_round (code : Array Node) (m : Machine) {rest : Nat} (var : Handle) (exit : Int)
    {value stride : Scalar} (W : World) (hK : K.lookup counter = some ⟨value, stride, rest + 1⟩)
    (fuel : Nat) :
    Tracks world (fun _ => True) (fuel < 0)
      (fun next following m' => next = .at (counter + 1) ∧
        ∃ W', m' = m.place W' (setState counter ⟨following, stride, rest⟩ K))
      (Control.step code fuel counter (.loopCounter var none exit) (m.place W K))
      (startRound var value stride rest W) := by
  simp only [Control.step, Control.nextRound, bind_assoc, get_bind_apply, counterState_place hK]
  refine Simulates.valueOf (m := m.place W K) fun cell => ?_
  by_cases hsize : cell.size ≠ 1
  · simp only [if_pos hsize]
    exact .fault trivial
  simp only [if_neg hsize, Direct.check_ok_bind, bind_assoc]
  refine Tracks.check (by trivial) fun value' _ => ?_
  let W' : World := ⟨{ W.workspace with memory := W.workspace.memory.update var value' }, W.host⟩
  by_cases hrest : rest = 0
  · simp only [if_pos hrest]
    exact .value ⟨rfl, W', rfl⟩
  · simp only [if_neg hrest, bind_assoc]
    rw [← bind_pure (Direct.check (value.sum stride))]
    exact Tracks.check (by trivial) fun next _ => .value ⟨rfl, W', rfl⟩

end Count

end ArrayCommand
