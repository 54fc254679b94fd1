/-
The machine runs statements.

The nodes of a statement, wherever they are placed, do what the statement does.  The proof follows
the tree; a loop is paid for by its condition, which takes a node of the machine in every round, so
that a loop that runs out of rounds keeps the machine from coming to an end as well.

* `runs_whileLoop`, `runs_repeatLoop`, `runs_countLoop` — the loops, whatever their bodies are;
* `Statement.runs` — the nodes of a statement within a program;
* `Statement.execute` — running a statement that is a whole program;
* `Statement.run_eq_iff` — a program that is not cut off ends exactly as its statement does.
-/

import ArrayCommand.Proofs.Running

namespace ArrayCommand

open Ending Control

variable {W : World} {code : Array Node} {m : Machine}
  {target gate left skip lo hi back finish counter : Nat} {offset exit : Int} {test : RunM Bool}
  {var : Handle} {stride : Scalar} {s : Statement} {r : EStateM.Result Failure World Flow}

/-! ### Statements -/

/-- Where the machine goes on after a statement: behind it, behind the loop around it, or at the next
round of that loop. -/
def Ending.next (finish left skip : Nat) : Ending → Next
  | .normal => .at finish
  | .left => .at left
  | .skipped => .at skip
  | .done flow => .done flow

/-- The gate of a loop stands at an address and leads behind the loop and to its next round. -/
def GateAt (code : Array Node) (gate left skip : Nat) : Prop :=
  ∃ exit again, code[gate]? = some (.gate exit again) ∧ Machine.jump gate exit = some left ∧
    Machine.jump gate again = some skip

/-- The functions of a world keep the number of their arguments. -/
def World.KeepsCounts (W : World) : Prop := ∀ f ∈ W.workspace.functions, f.KeepsCount

theorem World.KeepsCounts.of_eq {W' : World} (h : W.KeepsCounts)
    (hfunctions : W'.workspace.functions = W.workspace.functions) : W'.KeepsCounts := by
  rw [World.KeepsCounts, hfunctions]
  exact h

section Statements

variable {F pc : Nat} {K : Counters}

theorem reaches_branch (hnode : code[pc]? = some (.branch offset))
    (htarget : Machine.jump pc offset = some target) : Reaches code 1 pc m target m := by
  refine Reaches.step 0 hnode fun fuel => .inr ?_
  rw [step, htarget]
  rfl

/-- A gate does nothing where it stands. -/
theorem reaches_gate {again : Int} (hnode : code[pc]? = some (.gate exit again)) :
    Reaches code 1 pc m (pc + 1) m :=
  Reaches.step 0 hnode fun _ => .inr rfl

theorem reaches_leap {leave : Bool} (hnode : code[pc]? = some (.via offset leave))
    (hoffset : Machine.jump pc offset = some gate) (hgate : GateAt code gate left skip) :
    Reaches code 1 pc m (if leave then left else skip) m := by
  obtain ⟨exit, again, hat, hexit, hagain⟩ := hgate
  refine Reaches.step 0 hnode fun fuel => .inr ?_
  rw [step, hoffset]
  simp only [hat]
  cases leave with
  | true => exact congrArg (fun t => EStateM.Result.ok (goTo code t) m) hexit
  | false => exact congrArg (fun t => EStateM.Result.ok (goTo code t) m) hagain

theorem Simple.runs (items : List Simple) (hcode : code.size < wordSize) :
    ∀ {pc lo hi W K}, Placed code pc (Simple.codes items) → W.KeepsCounts →
      Runs code m 0 F lo hi (Ending.next (pc + (Simple.codes items).length) left skip) pc W K
        (Simple.runAll items W) := by
  induction items with
  | nil =>
    intro pc lo hi W K _ _
    exact .arrives rfl .refl (Nat.le_refl 0) rfl (.refl K)
  | cons s items ih =>
    intro pc lo hi W K hplaced hcounts
    rw [Simple.codes_cons] at hplaced ⊢
    have hs : ∃ node rest, s.code = node :: rest := by cases s <;> exact ⟨_, _, rfl⟩
    obtain ⟨node, rest, hs⟩ := hs
    have hnode : code[pc]? = some node := by
      have hplaced' := hplaced.left
      rw [hs] at hplaced'
      exact hplaced'.head
    have hfirst : Runs code m 1 F lo hi (Simple.next (pc + s.code.length)) pc W K
        (attempt s.run W) :=
      .ofStep s.code.length hnode (.run s) fun fuel =>
        s.simulates (m := m.place W K) hs hcode hplaced.left hcounts
    refine Runs.bind (Nat.le_add_right F 1) (Nat.le_refl lo) (Nat.le_refl hi) hfirst ?_ ?_
    · intro flow? pc' W' K' hexit hfunctions _
      cases flow? with
      | some flow => cases hexit
      | none =>
        cases hexit
        rw [List.length_append, ← Nat.add_assoc]
        exact ih hplaced.right (hcounts.of_eq hfunctions)
    · intro flow? flow W' hexit
      cases flow? with
      | none => cases hexit
      | some flow' => exact ⟨.done flow', hexit, rfl⟩

/-! ### Loops -/

section Loops

variable {start : Nat} {body : RunM Ending}

/-- What happens after the body of a loop.  A body that came to its end goes on at `back`, one whose
round was given up at `again`. -/
theorem Runs.afterBody {again lo' hi' : Nat} {rest : RunM Ending} (hlo : lo ≤ lo') (hhi : hi' ≤ hi)
    (hbody : Runs code m 0 F lo' hi' (next back finish again) pc W K (body W))
    (hback : ∀ W' K', W'.workspace.functions = W.workspace.functions → AgreeOff lo' hi' K K' →
      Runs code m 0 F lo hi (next finish left skip) back W' K' (rest W'))
    (hagain : ∀ W' K', W'.workspace.functions = W.workspace.functions → AgreeOff lo' hi' K K' →
      Runs code m 0 F lo hi (next finish left skip) again W' K' (rest W')) :
    Runs code m 0 F lo hi (next finish left skip) pc W K ((body >>= fun o => o.after rest) W) := by
  refine Runs.bind (Nat.le_refl F) hlo hhi hbody ?_ ?_
  · intro o pc' W' K' hexit hfunctions hK
    cases o with
    | normal => cases hexit; exact hback W' K' hfunctions hK
    | left => cases hexit; exact .arrives rfl .refl (Nat.le_refl 0) rfl (.refl K')
    | skipped => cases hexit; exact hagain W' K' hfunctions hK
    | done flow => cases hexit
  · intro o flow W' hexit
    cases o with
    | normal | left | skipped => cases hexit
    | done flow' => exact ⟨.done flow', hexit, rfl⟩

theorem runs_whileLoop {head : Nat}
    (htest : ∀ F W K, Runs code m 1 F lo hi (fun b => .at (if b then start else finish)) head W K
      (test W))
    (hbody : ∀ W K, W.KeepsCounts → Runs code m 0 F lo hi (next back finish head) start W K
      (body W))
    (hback : ∀ m, Reaches code 1 back m head m) :
    ∀ n, n ≤ F → ∀ W K, W.KeepsCounts →
      Runs code m 0 n lo hi (next finish left skip) head W K (whileLoop test body n W) := by
  intro n
  induction n with
  | zero =>
    intro _ W K _
    refine .starves fun fuel hfuel => ?_
    rw [Nat.le_zero.1 hfuel]
    exact .spent trivial
  | succ n ih =>
    intro hn W K hcounts
    -- the condition takes a node at least, which pays for the round
    refine Runs.bind (Nat.le_refl (n + 1)) (Nat.le_refl lo) (Nat.le_refl hi)
      (htest (n + 1) W K) ?_ fun b flow W' hexit => by cases hexit
    intro b pc' W' K' hexit hfunctions hK
    cases hexit
    cases b with
    | false => exact .arrives rfl .refl (Nat.le_refl 0) rfl (.refl K')
    | true =>
      have hround := fun W' K' (h : W'.KeepsCounts) => ih (by omega) W' K' h
      have hcounts' := hcounts.of_eq hfunctions
      refine Runs.afterBody (Nat.le_refl lo) (Nat.le_refl hi)
        ((hbody W' K' hcounts').mono (by omega)) ?_ ?_
      · intro W'' K'' hfunctions' _
        exact Runs.after (Nat.le_add_right n 1) (hback _) rfl (.refl K'')
          (hround W'' K'' (hcounts'.of_eq hfunctions'))
      · intro W'' K'' hfunctions' _
        exact hround W'' K'' (hcounts'.of_eq hfunctions')

theorem runs_repeatLoop {foot : Nat}
    (hbody : ∀ W K, W.KeepsCounts → Runs code m 0 F lo hi (next foot finish foot) start W K
      (body W))
    (htest : ∀ F W K, Runs code m 1 F lo hi (fun b => .at (if b then finish else start)) foot W K
      (test W)) :
    ∀ n, n ≤ F → ∀ W K, W.KeepsCounts →
      Runs code m 0 n lo hi (next finish left skip) start W K (repeatLoop body test n W) := by
  intro n
  induction n with
  | zero =>
    intro _ W K _
    refine .starves fun fuel hfuel => ?_
    rw [Nat.le_zero.1 hfuel]
    exact .spent trivial
  | succ n ih =>
    intro hn W K hcounts
    have hfoot : ∀ W' K', W'.workspace.functions = W.workspace.functions → AgreeOff lo hi K K' →
        Runs code m 0 (n + 1) lo hi (next finish left skip) foot W' K'
          ((do if ← test then return .normal else repeatLoop body test n : RunM Ending) W') := by
      intro W' K' hfunctions _
      refine Runs.bind (Nat.le_refl (n + 1)) (Nat.le_refl lo) (Nat.le_refl hi)
        (htest (n + 1) W' K') ?_ fun b flow W' hexit => by cases hexit
      intro b pc' W'' K'' hexit hfunctions' _
      cases hexit
      cases b with
      | true => exact .arrives rfl .refl (Nat.le_refl 0) rfl (.refl K'')
      | false => exact ih (by omega) W'' K'' ((hcounts.of_eq hfunctions).of_eq hfunctions')
    exact Runs.afterBody (Nat.le_refl lo) (Nat.le_refl hi) ((hbody W K hcounts).mono hn)
      hfoot hfoot

theorem reaches_noRound {value : Scalar}
    (hnode : code[counter]? = some (.loopCounter var none exit))
    (hexit : Machine.jump counter exit = some finish)
    (hK : K.lookup counter = some ⟨value, stride, 0⟩) :
    Reaches code 1 counter (m.place W K) finish (m.place W K) := by
  refine Reaches.step 0 hnode fun fuel => .inr ?_
  simp only [step, nextRound, bind_assoc, get_bind_apply, Machine.counterState_place hK, hexit]
  rfl

/-- A counted loop. -/
theorem runs_countLoop (hnode : code[counter]? = some (.loopCounter var none exit))
    (hexit : Machine.jump counter exit = some finish) (hcounter : lo ≤ counter ∧ counter < hi)
    (hbody : ∀ W K, W.KeepsCounts → Runs code m 0 F (counter + 1) hi
      (Ending.next back finish counter) (counter + 1) W K (body W))
    (hback : ∀ m, Reaches code 1 back m counter m) :
    ∀ remaining value W K, W.KeepsCounts → K.lookup counter = some ⟨value, stride, remaining⟩ →
      Runs code m 0 F lo hi (Ending.next finish left skip) counter W K
        (countLoop var stride body remaining value W) := by
  intro remaining
  induction remaining with
  | zero =>
    intro value W K _ hK
    exact .arrives rfl (reaches_noRound hnode hexit hK) (Nat.zero_le 1) rfl (.refl K)
  | succ remaining ih =>
    intro value W K hcounts hK
    rw [countLoop, bind_apply, attempt]
    have htrack := tracks_round code m var exit W hK
    cases hround : startRound var value stride remaining W with
    | error f W' => exact .fault (ends_of_error 0 hnode htrack hround)
    | ok next W' =>
      have hreach := reaches_of_ok 0 hnode htrack hround rfl
      have hcounts' := hcounts.of_eq (WorldM.Settled.startRound _ _ _ _ _ _ _ hround)
      refine Runs.after (Nat.le_add_right F 1) hreach
        (WorldM.Settled.startRound _ _ _ _ _ _ _ hround) (.setState hcounter _ _) ?_
      -- the body leaves the state of this loop alone, as its counters stand behind this one
      have hnext : ∀ W'' K'', W''.workspace.functions = W'.workspace.functions →
          AgreeOff (counter + 1) hi (setState counter ⟨next, stride, remaining⟩ K) K'' →
          Runs code m 0 F lo hi (Ending.next finish left skip) counter W'' K''
            (countLoop var stride body remaining next W'') := by
        intro W'' K'' hfunctions hK''
        refine ih next W'' K'' (hcounts'.of_eq hfunctions) ?_
        rw [hK'' counter (by omega), lookup_setState]
      refine Runs.afterBody (by omega) (Nat.le_refl hi) (hbody W' _ hcounts') ?_ hnext
      intro W'' K'' hfunctions hK''
      exact Runs.after (Nat.le_add_right F 1) (hback _) rfl (.refl K'')
        (hnext W'' K'' hfunctions hK'')

end Loops

theorem Runs.andJump {middle : Nat} {r : EStateM.Result Failure World Ending}
    (h : Runs code m 0 F lo hi (next middle left skip) pc W K r)
    (hjump : ∀ m, Reaches code 1 middle m finish m) :
    Runs code m 0 F lo hi (next finish left skip) pc W K r := by
  cases h with
  | @arrives o k pc' W' K' he hr _ hf hK =>
    cases o with
    | normal => cases he; exact .arrives rfl (hr.trans (hjump _)) (Nat.zero_le _) hf hK
    | left | skipped => exact .arrives he hr (Nat.zero_le _) hf hK
    | done flow => cases he
  | @ends o flow W' he hr =>
    cases o with
    | normal | left | skipped => cases he
    | done flow' => exact .ends he hr
  | fault hr => exact .fault hr
  | starves hr => exact .starves hr

theorem Expr.runs_test (test : Expr) (hcode : code.size < 0x8000000000000000) {back : List Node}
    (hplaced : Placed code pc (test.code .logical ++
      .branchIfFalse (Program.distance (pc + test.testSize) target) :: back))
    (htarget : target ≤ code.size) (W : World) (K : Counters) :
    Runs code m 1 F lo hi (fun b => .at (if b then pc + test.testSize + 1 else target)) pc W K
      (attempt test.holds W) := by
  have hsize := hplaced.le_size (by simp)
  simp only [List.length_append, List.length_cons, Expr.length_test] at hsize
  exact test.runs_holds (by simp only [wordSize]; omega) hplaced.through
    (jump_distance (by omega))

theorem Statement.end_le (hplaced : Placed code pc (s.code gate pc)) :
    s.size = 0 ∨ pc + s.size ≤ code.size := by
  rw [← s.length_code gate pc, List.length_eq_zero_iff]
  exact Classical.or_iff_not_imp_left.2 hplaced.le_size

theorem Statement.runs (s : Statement) (hcode : code.size < 0x8000000000000000) :
    ∀ {gate pc left skip W K}, Placed code pc (s.code gate pc) →
      (s.Leaps → GateAt code gate left skip) → W.KeepsCounts →
      Runs code m 0 F pc (pc + s.size) (next (pc + s.size) left skip) pc W K (s.run F W) := by
  have hword : code.size < wordSize := by simp only [wordSize]; omega
  induction s with
  | nothing =>
    intro gate pc left skip W K _ _ _
    exact .arrives rfl .refl (Nat.le_refl 0) rfl (.refl K)
  | line items =>
    intro gate pc left skip W K hplaced _ hcounts
    exact Simple.runs items hword hplaced hcounts
  | leap leave =>
    intro gate pc left skip W K hplaced hgate _
    have hsize := end_le hplaced
    obtain ⟨exit, again, hat, hexit, hagain⟩ := hgate trivial
    have hlt : gate < code.size := (Array.getElem?_eq_some_iff.1 hat).1
    simp only [size] at hsize
    have hreach := reaches_leap (m := m.place W K) hplaced.head (jump_distance (by omega))
      ⟨exit, again, hat, hexit, hagain⟩
    refine .arrives ?_ hreach (Nat.zero_le 1) rfl (.refl K)
    cases leave <;> rfl
  | stop =>
    intro gate pc left skip W K hplaced _ _
    exact .ends rfl (Ends.step 0 hplaced.head fun fuel => .inr rfl)
  | both first second ihf ihs =>
    intro gate pc left skip W K hplaced hgate hcounts
    have hsecond := hplaced.right
    rw [length_code] at hsecond
    refine Runs.bind (Nat.le_refl F) (Nat.le_refl pc) (by simp only [size]; omega)
      (ihf hplaced.left (fun h => hgate (.inl h)) hcounts) ?_ ?_
    · intro o pc' W' K' hexit hfunctions _
      cases o with
      | normal =>
        cases hexit
        rw [size, ← Nat.add_assoc]
        exact (ihs hsecond (fun h => hgate (.inr h)) (hcounts.of_eq hfunctions)).widen
          (by omega) (Nat.le_refl _)
      | left | skipped => cases hexit; exact .arrives rfl .refl (Nat.le_refl 0) rfl (.refl K')
      | done flow => cases hexit
    · intro o flow W' hexit
      cases o with
      | normal | left | skipped => cases hexit
      | done flow' => exact ⟨.done flow', hexit, rfl⟩
  | ifThen test yes ih =>
    intro gate pc left skip W K hplaced hgate hcounts
    have hsize := end_le hplaced
    simp only [size] at hsize
    have hyes := hplaced.right.tail
    simp only [size, ← Nat.add_assoc]
    refine Runs.bind (Nat.le_add_right F 1) (Nat.le_refl pc) (Nat.le_refl _)
      (test.runs_test hcode hplaced (by omega) W K) ?_ fun b flow W' hexit => by cases hexit
    intro b pc' W' K' hexit hfunctions _
    cases hexit
    cases b with
    | false => exact .arrives rfl .refl (Nat.le_refl 0) rfl (.refl K')
    | true => exact (ih hyes hgate (hcounts.of_eq hfunctions)).widen (by omega) (Nat.le_refl _)
  | ifElse test yes no ihy ihn =>
    intro gate pc left skip W K hplaced hgate hcounts
    have hsize := end_le hplaced
    simp only [size] at hsize
    have hyes := hplaced.right.tail.left
    have hno := hplaced.right.tail.right.tail
    have hjump := hplaced.right.tail.right.head
    simp only [length_code, Expr.length_test] at hyes hno hjump
    simp only [size, ← Nat.add_assoc]
    refine Runs.bind (Nat.le_add_right F 1) (Nat.le_refl pc) (Nat.le_refl _)
      (test.runs_test hcode hplaced (by omega) W K) ?_ fun b flow W' hexit => by cases hexit
    intro b pc' W' K' hexit hfunctions _
    cases hexit
    have hcounts' := hcounts.of_eq hfunctions
    cases b with
    | false => exact (ihn hno (fun h => hgate (.inr h)) hcounts').widen (by omega) (Nat.le_refl _)
    | true =>
      -- the first arm ends with a jump over the second one
      have harm := ihy hyes (fun h => hgate (.inl h)) hcounts' (K := K')
      exact (harm.widen (by omega) (by omega)).andJump fun _ =>
        reaches_branch hjump (jump_distance (by omega))
  | «while» test body ih =>
    intro gate pc left skip W K hplaced _ hcounts
    have hsize := end_le hplaced
    simp only [size] at hsize
    have hgate := hplaced.head
    have htest := hplaced.tail
    have hbody := hplaced.tail.right.tail.left
    have hjump := hplaced.tail.right.tail.right.head
    simp only [length_code, Expr.length_test] at hbody hjump
    have hgateAt : GateAt code pc (pc + 1 + test.testSize + 1 + body.size + 1) (pc + 1) :=
      ⟨_, _, hgate, jump_distance (by omega), rfl⟩
    simp only [size, ← Nat.add_assoc]
    refine Runs.after (Nat.le_add_right F 1) (reaches_gate hgate) rfl (.refl K) ?_
    refine runs_whileLoop (fun F W K => test.runs_test hcode htest (by omega) W K) ?_
      (fun _ => reaches_branch hjump (jump_distance (by omega))) F (Nat.le_refl F)
      W K hcounts
    intro W K hcounts
    exact (ih hbody (fun _ => hgateAt) hcounts).widen (by omega) (by omega)
  | «repeat» body test ih =>
    intro gate pc left skip W K hplaced _ hcounts
    have hsize := end_le hplaced
    simp only [size] at hsize
    have hgate := hplaced.head
    have hbody := hplaced.tail.left
    have htest := hplaced.tail.right
    rw [length_code] at htest
    have hgateAt : GateAt code pc (pc + 1 + body.size + test.testSize + 1) (pc + 1 + body.size) :=
      ⟨_, _, hgate, jump_distance (by omega), jump_distance (by omega)⟩
    simp only [size, ← Nat.add_assoc]
    refine Runs.after (Nat.le_add_right F 1) (reaches_gate hgate) rfl (.refl K) ?_
    refine runs_repeatLoop ?_ (fun F W K => test.runs_test hcode htest (by omega) W K) F
      (Nat.le_refl F) W K hcounts
    intro W K hcounts
    exact (ih hbody (fun _ => hgateAt) hcounts).widen (by omega) (by omega)
  | count var first last step body ih =>
    intro gate pc left skip W K hplaced _ hcounts
    have hsize := end_le hplaced
    simp only [size] at hsize
    generalize hbounds : Typed.codes (loopBounds first last step) = bounds at hsize
    have hgate := hplaced.right.tail.head
    have hcounter := hplaced.right.tail.tail.head
    have hbody := hplaced.right.tail.tail.tail.left
    have hjump := hplaced.right.tail.tail.tail.right.head
    simp only [length_code, hbounds] at hgate hcounter hbody hjump
    have hgateAt : GateAt code (pc + bounds.length + 1) (pc + bounds.length + 3 + body.size + 1)
        (pc + bounds.length + 2) :=
      ⟨_, _, hgate, jump_distance (by omega), rfl⟩
    have hstart := runs_loopStart (m := m) (W := W) (K := K) hword hplaced.through
      (by rw [hbounds]; exact jump_distance (by omega)) hcounter
    rw [run, bind_apply, attempt]
    cases hstate : loopStart var first last step W with
    | error f W' =>
      rw [hstate] at hstart
      exact .fault hstart
    | ok state W' =>
      rw [hstate] at hstart
      obtain ⟨n, hreach⟩ := hstart
      have hfunctions := WorldM.Settled.loopStart _ _ _ _ _ _ _ hstate
      simp only [size, hbounds, ← Nat.add_assoc] at hreach ⊢
      refine Runs.after (Nat.le_add_right F _) (hreach.trans (reaches_gate hgate)) hfunctions
        (.setState (by omega) _ _) ?_
      refine runs_countLoop hcounter (jump_distance (by omega)) (by omega) ?_
        (fun _ => reaches_branch hjump (jump_distance (by omega))) _ _ _ _
        (hcounts.of_eq hfunctions) (lookup_setState _ _ _)
      intro W K hcounts
      exact (ih hbody (fun _ => hgateAt) hcounts).widen (Nat.le_refl _) (by omega)

end Statements

/-! ### Whole programs -/

def Statement.execute (fuel : Nat) (s : Statement) : RunM Flow := do
  match ← s.run fuel with
  | .done flow => return flow
  | _ => return .finished

section Programs

theorem Statement.runs_execute (gate : Nat) (hleaps : ¬ s.Leaps) (hsize : s.size < 0x8000000000000000)
    (hcounts : m.world.KeepsCounts) (F : Nat) :
    Runs (s.code gate 0).toArray m 0 F 0 s.size Next.done 0 m.world m.counters
      (s.execute F m.world) := by
  have hcode : (s.code gate 0).toArray.size < 0x8000000000000000 := by simpa using hsize
  have hgate : s.Leaps → GateAt (s.code gate 0).toArray gate s.size s.size := fun h =>
    absurd h hleaps
  have hruns := s.runs hcode (placed_toArray _) hgate hcounts (m := m) (F := F) (K := m.counters)
  rw [Nat.zero_add] at hruns
  have hnone : (s.code gate 0).toArray[s.size]? = none := by simp
  refine Runs.bind (Nat.le_refl F) (Nat.le_refl 0) (Nat.le_refl _) hruns ?_ ?_
  · intro o pc' W' K' hexit _ _
    cases o with
    | normal | left | skipped => cases hexit; exact .ends rfl (Ends.finished hnone)
    | done flow => cases hexit
  · intro o flow W' hexit
    cases o with
    | normal | left | skipped => cases hexit
    | done flow' => exact ⟨flow', hexit, rfl⟩

/-- A program is never cut off from outside. -/
def Undisturbed (code : Array Node) (m : Machine) : Prop :=
  ∀ fuel f m', Control.run code fuel m = .error (.fault f) m' → ¬ Disturbance f m'

/-- A result with which a run is over: not one for which there was too little fuel. -/
def Final {σ α : Type} (r : EStateM.Result Failure σ α) : Prop := ∀ s, r ≠ .error .exhausted s

theorem Undisturbed.spent {short : Prop} {fuel : Nat}
    (h : Undisturbed code m) (hcut : CutOff short (run code fuel m)) :
    short ∧ ¬ Final (seen (run code fuel m)) := by
  generalize hr : run code fuel m = r at hcut
  cases hcut with
  | spent hs => exact ⟨hs, fun hfinal => hfinal _ rfl⟩
  | disturbed hd => exact absurd hd (h fuel _ _ hr)

theorem Ends.seen_eq (hends : Ends code 0 m r) (hquiet : Undisturbed code m) :
    (∃ fuel, seen (run code fuel m) = r) ∧
      ∀ fuel, Final (seen (run code fuel m)) → seen (run code fuel m) = r := by
  obtain ⟨need, hends⟩ := hends
  refine ⟨⟨need, ?_⟩, fun fuel hfinal => ?_⟩
  · obtain hcut | hseen := hends need
    · exact absurd (hquiet.spent hcut).1 (Nat.lt_irrefl need)
    · exact hseen
  · obtain hcut | hseen := hends fuel
    · exact absurd hfinal (hquiet.spent hcut).2
    · exact hseen

/-- A program that is not cut off from outside ends exactly as its statement does: with the same
flow or fault, the same variables and the same output, or not at all. -/
theorem Statement.run_eq_iff (hleaps : ¬ s.Leaps) (hsize : s.size < 0x8000000000000000)
    (hcounts : m.world.KeepsCounts) (hquiet : Undisturbed (s.code gate 0).toArray m)
    (hfinal : Final r) :
    (∃ fuel, seen (Control.run (s.code gate 0).toArray fuel m) = r) ↔
      ∃ fuel, s.execute fuel m.world = r := by
  have hruns := s.runs_execute gate hleaps hsize hcounts
  constructor
  · rintro ⟨fuel, rfl⟩
    refine ⟨fuel, ?_⟩
    have hfuel := hruns fuel
    generalize s.execute fuel m.world = r at hfuel
    cases hfuel with
    | arrives he _ _ _ _ => cases he
    | ends he hr => cases he; exact ((hr.seen_eq hquiet).2 fuel hfinal).symm
    | fault hr => exact ((hr.seen_eq hquiet).2 fuel hfinal).symm
    | starves hr => exact absurd hfinal (hquiet.spent (hr fuel (Nat.le_refl fuel))).2
  · rintro ⟨F, rfl⟩
    have hF := hruns F
    generalize s.execute F m.world = r at hF hfinal
    cases hF with
    | arrives he _ _ _ _ => cases he
    | ends he hr => cases he; exact (hr.seen_eq hquiet).1
    | fault hr => exact (hr.seen_eq hquiet).1
    | starves _ => exact absurd rfl (hfinal _)

end Programs

end ArrayCommand
