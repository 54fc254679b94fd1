/-
The rounds of counted loops.

The number of rounds of a loop over integers is settled when the loop is entered: it is computed from
the bounds, which are words, without wrapping around, and kept in a word.  The counter then gives the
variable its next value before each round, and it computes the value after that only if there is
another round.  So no value that goes beyond the bounds is ever computed, and a loop runs exactly the
rounds whose values do not go beyond the last one.

There is one exception.  A loop through all integers has one round more than a word can count; its
count wraps around to zero, and the loop has no rounds at all.

Main definitions:

* `Control.Admits` — a round whose value does not go beyond the last one;
* `Control.Everything` — the bounds of a loop through all integers;
* `Control.Laps` — the rounds that a counter has started, with whatever is done between them.

Main results:

* `Control.rounds_lt_or` — only a loop through all integers has too many rounds for a word;
* `Control.nextRound_starts`, `Control.nextRound_ends` — what the counter does with its state;
* `Control.Laps.state` — the state of the counter after some rounds;
* `Control.loop_rounds` — **a counted loop runs the rounds between its bounds**, in order.
-/

import ArrayCommand.Proofs.Frame
import ArrayCommand.Proofs.Sections
import ArrayCommand.Proofs.Storage

namespace ArrayCommand

namespace Control

open Machine

/-! ### Numbers of rounds -/

/-- The value of a round does not go beyond the last one; rounds are counted from zero. -/
def Admits (first last step : Int) (k : Nat) : Prop :=
  0 < step ∧ first + k * step ≤ last ∨ step < 0 ∧ last ≤ first + k * step

/-- The bounds of a loop through all integers, upwards or downwards. -/
def Everything (first last step : Int) : Prop :=
  first = -0x8000000000000000 ∧ last = 0x7fffffffffffffff ∧ step = 1 ∨
    first = 0x7fffffffffffffff ∧ last = -0x8000000000000000 ∧ step = -1

variable {first last step : Int} {k : Nat}

theorem Everything.rounds_eq (h : Everything first last step) :
    rounds first last step = wordSize := by
  obtain ⟨rfl, rfl, rfl⟩ | ⟨rfl, rfl, rfl⟩ := h
  · rfl
  · rfl

/-- Only a loop through all integers has more rounds than a word can count. -/
theorem rounds_lt_or (hfirst : FitsInteger first) (hlast : FitsInteger last) :
    rounds first last step < wordSize ∨ Everything first last step := by
  by_cases h : wordSize - 1 < rounds first last step
  · right
    unfold FitsInteger at hfirst hlast
    -- the last of so many rounds is as far from the first one as two integers can be
    obtain ⟨hpos, hle⟩ | ⟨hneg, hle⟩ := lt_rounds.1 h
    · simp only [wordSize] at hle
      exact .inl (by omega)
    · simp only [wordSize] at hle
      exact .inr (by omega)
  · left
    unfold wordSize at h ⊢
    omega

theorem fits_round (hfirst : FitsInteger first) (hlast : FitsInteger last)
    (h : k < rounds first last step) : FitsInteger (first + k * step) := by
  unfold FitsInteger at *
  obtain ⟨hpos, hle⟩ | ⟨hneg, hle⟩ := lt_rounds.1 h
  · have := Int.mul_nonneg (Int.natCast_nonneg k) hpos.le
    omega
  · have := Int.mul_nonpos_of_nonneg_of_nonpos (Int.natCast_nonneg k) hneg.le
    omega

/-! ### The counter -/

/-- A variable holds an integer and nothing else. -/
def Holds (var : Handle) (n : Int) (m : Machine) : Prop :=
  ∃ v, m.workspace.memory.get? var = some v ∧ v.value.data = .integer #[n]

variable {pc : Nat} {var : Handle} {initial : Option LoopState} {m m' : Machine} {n : Int}

theorem nextRound_ends {next stride : Scalar} (h : m.counters.lookup pc = some ⟨next, stride, 0⟩) :
    nextRound pc var initial m = .ok false m := by
  have hstate : counterState m pc initial = some ⟨next, stride, 0⟩ := by rw [counterState, h]
  rw [nextRound, get_bind_apply, hstate]
  rfl

/-- A round is started: the variable gets its value, and the value after it is computed if there is
another round. -/
theorem nextRound_starts (initial : Option LoopState) {remaining : Nat}
    (h : m.counters.lookup pc = some ⟨.integer n, .integer step, remaining + 1⟩)
    (hvar : ∃ old, Holds var old m) (hfits : remaining ≠ 0 → FitsInteger (n + step)) :
    ∃ m', nextRound pc var initial m = .ok true m' ∧ Holds var n m' ∧
      ∃ next, m'.counters.lookup pc = some ⟨.integer next, .integer step, remaining⟩ ∧
        (remaining ≠ 0 → next = n + step) := by
  obtain ⟨old, v, hv, hdata⟩ := hvar
  have hstate : counterState m pc initial = some ⟨.integer n, .integer step, remaining + 1⟩ := by
    rw [counterState, h]
  have hvalue : valueOf var m = .ok v.value m :=
    valueOf_eq_ok.2 ⟨Memory.value_eq_ok.2 ⟨v, hv, rfl⟩, rfl⟩
  have hsize : v.value.size = 1 := by rw [Cell.size, hdata]; rfl
  have hset : v.value.set 0 (.integer n) = .ok { v.value with data := .integer #[n] } := by
    rw [Cell.set, if_pos (by omega), Cell.type, hdata]
    rfl
  have hholds (counters : List (Nat × LoopState)) : Holds var n
      { m with
        workspace := { m.workspace with
          memory := m.workspace.memory.update var { v.value with data := .integer #[n] } }
        counters } := by
    refine ⟨⟨v.name, { v.value with data := .integer #[n] }⟩, ?_, rfl⟩
    rw [Memory.get?_update, if_pos rfl, hv]
    rfl
  rw [nextRound, get_bind_apply, hstate]
  dsimp only
  rw [bind_ok hvalue, if_neg (by simp [hsize]), hset]
  by_cases hlast : remaining = 0
  · subst hlast
    exact ⟨_, rfl, hholds _, n, List.lookup_cons_self, fun h => absurd rfl h⟩
  · have hsum : Scalar.sum (.integer n) (.integer step) = .ok (.integer (n + step)) := by
      rw [Scalar.sum, Integer.fit, if_pos (hfits hlast)]
      rfl
    rw [hsum, if_neg hlast]
    exact ⟨_, rfl, hholds _, n + step, List.lookup_cons_self, fun _ => rfl⟩

/-! ### Rounds one after another -/

/-- The rounds that the counter at an address has started, each with the value of the variable at its
beginning, up to a machine that comes to the counter again.  What is done between two rounds is
anything that leaves the counter alone and an integer in the variable. -/
inductive Laps (pc : Nat) (var : Handle) (initial : Option LoopState) (m : Machine) :
    List Int → Machine → Prop
  | start : Laps pc var initial m [] m
  | next {ns : List Int} {m₁ m₂ m₃ : Machine} {n : Int} : Laps pc var initial m ns m₁ →
      nextRound pc var initial m₁ = .ok true m₂ → Holds var n m₂ →
      m₃.counters.lookup pc = m₂.counters.lookup pc → (∃ old, Holds var old m₃) →
      Laps pc var initial m (ns ++ [n]) m₃

/-- The state of a counter behind some rounds: the values were those of the first rounds, and as many
rounds are taken off the count. -/
theorem Laps.state {ns : List Int} {count : Nat} (hlaps : Laps pc var initial m ns m')
    (h : m.counters.lookup pc = some ⟨.integer first, .integer step, count⟩)
    (hvar : ∃ old, Holds var old m) (hfits : ∀ k < count, FitsInteger (first + k * step)) :
    ns = (List.range ns.length).map (fun k : Nat => first + k * step) ∧ ns.length ≤ count ∧
      (∃ old, Holds var old m') ∧ ∃ next,
        m'.counters.lookup pc = some ⟨.integer next, .integer step, count - ns.length⟩ ∧
        (ns.length < count → next = first + ns.length * step) := by
  induction hlaps with
  | start => exact ⟨rfl, Nat.zero_le _, hvar, first, h, fun _ => by simp⟩
  | @next ns m₁ m₂ m₃ n _ hround hn hcounter hvar' ih =>
    obtain ⟨hns, hle, hvar₁, next, hnext, hvalue⟩ := ih
    obtain hlt | heq := Nat.lt_or_eq_of_le hle
    · obtain ⟨remaining, hremaining⟩ : ∃ r, count - ns.length = r + 1 :=
        ⟨count - ns.length - 1, by omega⟩
      have hadd : first + ns.length * step + step = first + (ns.length + 1 : Nat) * step := by
        rw [Nat.cast_succ, add_mul, one_mul, add_assoc]
      rw [hremaining, hvalue hlt] at hnext
      obtain ⟨m₂', hround', ⟨v', hv', hdata'⟩, following, hfollowing, hsum⟩ :=
        nextRound_starts initial hnext hvar₁
          fun hmore => hadd ▸ hfits (ns.length + 1) (by omega)
      cases hround.symm.trans hround'
      obtain ⟨v, hv, hdata⟩ := hn
      cases hv.symm.trans hv'
      cases hdata.symm.trans hdata'
      rw [List.length_append, List.length_singleton]
      refine ⟨?_, hlt, hvar', following, ?_, fun hmore => ?_⟩
      · rw [List.range_succ, List.map_append, ← hns]
        rfl
      · rw [hcounter, hfollowing]
        congr 2
        omega
      · rw [hsum (by omega), hadd]
    · rw [heq, Nat.sub_self] at hnext
      rw [nextRound_ends hnext] at hround
      cases hround

/-! ### Whole loops -/

def stepOf : Option Cell → Except Fault Int
  | some step => step.integer
  | none => .ok 1

/-- A step of zero is refused.  With any other step the counter starts exactly the rounds whose values
do not go beyond the last one, in their order, and fails in none of them; only a loop through all
integers, which has one round more than a word counts, has no rounds at all. -/
theorem loop_rounds {start stop : Cell} {step? : Option Cell} (hstart : start.integer = .ok first)
    (hstop : stop.integer = .ok last) (hstep : stepOf step? = .ok step) (hfirst : FitsInteger first)
    (hlast : FitsInteger last) :
    (step = 0 → loopState .integer start stop step? = .error (.because .domainError "ZERO STEP")) ∧
    (step ≠ 0 → ∃ state, loopState .integer start stop step? = .ok state ∧
      ∀ (pc : Nat) (var : Handle) (initial : Option LoopState) (m : Machine),
        m.counters.lookup pc = some state → (∃ old, Holds var old m) →
        (¬Everything first last step → ∀ ns m', Laps pc var initial m ns m' →
          ns = (List.range ns.length).map (fun k : Nat => first + k * step) ∧
          (∀ k < ns.length, Admits first last step k) ∧
          (Admits first last step ns.length → ∃ m'', nextRound pc var initial m' = .ok true m'' ∧
            Holds var (first + ns.length * step) m'') ∧
          (¬Admits first last step ns.length → nextRound pc var initial m' = .ok false m')) ∧
        (Everything first last step → nextRound pc var initial m = .ok false m)) := by
  have hloop : loopState .integer start stop step? =
      if step = 0 then .error (.because .domainError "ZERO STEP")
      else .ok ⟨.integer first, .integer step, rounds first last step % wordSize⟩ := by
    rw [loopState, integerLoop, hstart, hstop]
    cases step? with
    | none =>
      cases hstep
      rfl
    | some cell =>
      dsimp only [stepOf] at hstep
      simp only [hstep, bind, Except.bind]
      split <;> rfl
  refine ⟨fun hzero => by rw [hloop, if_pos hzero], fun hzero => ?_⟩
  refine ⟨_, by rw [hloop, if_neg hzero], fun pc var initial m hcounter hvar => ⟨?_, ?_⟩⟩
  · intro hsome ns m' hlaps
    have hcount : rounds first last step < wordSize :=
      (rounds_lt_or hfirst hlast).resolve_right hsome
    rw [Nat.mod_eq_of_lt hcount] at hcounter
    obtain ⟨hns, hle, hvar', next, hnext, hvalue⟩ :=
      hlaps.state hcounter hvar fun k hk => fits_round hfirst hlast hk
    refine ⟨hns, fun k hk => lt_rounds.1 (by omega), fun hmore => ?_, fun hover => ?_⟩
    · have hlt := lt_rounds.2 hmore
      obtain ⟨remaining, hremaining⟩ : ∃ r, rounds first last step - ns.length = r + 1 :=
        ⟨rounds first last step - ns.length - 1, by omega⟩
      rw [hremaining, hvalue hlt] at hnext
      obtain ⟨m'', hround, hholds, -⟩ := nextRound_starts initial hnext hvar' fun hmore => by
        have hfits := fits_round hfirst hlast (k := ns.length + 1) (by omega : _ < rounds first last step)
        rwa [Nat.cast_succ, add_mul, one_mul, ← add_assoc] at hfits
      exact ⟨m'', hround, hholds⟩
    · have hnone : rounds first last step - ns.length = 0 :=
        Nat.sub_eq_zero_of_le (Nat.le_of_not_lt fun hlt => hover (lt_rounds.1 hlt))
      rw [hnone] at hnext
      exact nextRound_ends hnext
  · intro hall
    rw [hall.rounds_eq, Nat.mod_self] at hcounter
    exact nextRound_ends hcounter

/-- A machine with one variable, at a counter that counts from ten down to one by threes. -/
def counting : Machine :=
  { Evaluate.blank with
    workspace := { Workspace.bare 8 with memory := (({} : Memory).insert "i" (.scalar (.integer 0))).1 }
    counters := [(0, ⟨.integer 10, .integer (-3), 4⟩)] }

/-- The rounds of ten, seven, four and one, and the end of the loop. -/
theorem loop_rounds_threes :
    (∃ old, Holds ⟨0, 0⟩ old counting) ∧ ¬Everything 10 1 (-3) ∧
      ∃ m, Laps 0 ⟨0, 0⟩ none counting [10, 7, 4, 1] m ∧ nextRound 0 ⟨0, 0⟩ none m = .ok false m := by
  have hvar : ∃ old, Holds ⟨0, 0⟩ old counting :=
    ⟨0, ⟨"i", .scalar (.integer 0)⟩, rfl, rfl⟩
  have hsome : ¬Everything 10 1 (-3) := by unfold Everything; omega
  obtain ⟨state, hstate, hrounds⟩ := (loop_rounds
    (rfl : (Cell.scalar (.integer 10)).integer = .ok 10)
    (rfl : (Cell.scalar (.integer 1)).integer = .ok 1)
    (rfl : stepOf (some (.scalar (.integer (-3)))) = .ok (-3)) (by decide) (by decide)).2 (by decide)
  cases hstate
  have hlaps := (hrounds 0 ⟨0, 0⟩ none counting rfl hvar).1 hsome
  have hnext {ns : List Int} {m : Machine} (h : Laps 0 ⟨0, 0⟩ none counting ns m)
      (hmore : Admits 10 1 (-3) ns.length) :
      ∃ m', Laps 0 ⟨0, 0⟩ none counting (ns ++ [10 + ns.length * (-3 : Int)]) m' := by
    obtain ⟨m', hround, hholds⟩ := (hlaps ns m h).2.2.1 hmore
    exact ⟨m', h.next hround hholds rfl ⟨_, hholds⟩⟩
  obtain ⟨m₁, h₁⟩ := hnext .start (.inr (by decide))
  obtain ⟨m₂, h₂⟩ := hnext h₁ (.inr (by decide))
  obtain ⟨m₃, h₃⟩ := hnext h₂ (.inr (by decide))
  obtain ⟨m₄, h₄⟩ := hnext h₃ (.inr (by decide))
  have hover : ¬Admits 10 1 (-3) 4 := by unfold Admits; omega
  exact ⟨hvar, hsome, m₄, h₄, (hlaps _ m₄ h₄).2.2.2 hover⟩

/-- From the least integer to the greatest one: the first round is between the bounds, but none
remains. -/
theorem loop_through_all :
    loopState .integer (.scalar (.integer (-0x8000000000000000)))
        (.scalar (.integer 0x7fffffffffffffff)) none =
      .ok ⟨.integer (-0x8000000000000000), .integer 1, 0⟩ ∧
    Admits (-0x8000000000000000) 0x7fffffffffffffff 1 0 :=
  ⟨rfl, .inl (by decide)⟩

end Control

end ArrayCommand
