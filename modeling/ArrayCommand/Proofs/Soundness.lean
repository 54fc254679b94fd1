/-
Compiled statements are sound.

The program of a well-typed statement has expectations at all of its addresses, so that what is known
of runs as expected holds of it.  Between two statements, and before each round of a loop, nothing waits
on the stacks.  In a session that has only the core module, all statements that the compiler accepts
are well typed, and the functions they call do as they declare.

Main definitions:

* `Statement.Spot` — the addresses of a statement, and what is expected there;
* `Statement.Boundary` — where a statement or a round of a loop begins or ends;
* `Statement.RunsSoundly` — faults, values and stacks of a run are as they should be.

Main results:

* `Statement.guarded` — a well-typed statement keeps all of its expectations;
* `Statement.Spot.idle` — nothing waits at a boundary;
* `Statement.WellTyped.runsSoundly` — the program of a well-typed statement runs soundly;
* `Session.compile_sound` — **compiled statements are sound.**
-/

import ArrayCommand.Proofs.Callees
import ArrayCommand.Proofs.Pending

namespace ArrayCommand

open Typed Simple List

variable {expected : Nat → Pending → Prop} {types : List ElementType} {code : Array Node}
  {t : Statement} {q : Nat} {m : Machine} {f : Fault}
variable {test : Expr} {bounds : List Typed}

variable {pc p : Nat} {loops : List Nat} {G : Pending} {s : Statement}

/-! ### Spots -/

/-- The addresses of a condition: its value, and the jump behind it. -/
def Expr.Spot (test : Expr) (pc : Nat) (loops : List Nat) (p : Nat) (G : Pending) : Prop :=
  p = pc ∧ G = ⟨[], loops⟩ ∨ p = pc + test.testSize ∧ G = ⟨[.logical], loops⟩

/-- The addresses of the bounds of a loop; those to the left wait. -/
def Typed.BoundSpot (bounds : List Typed) (pc : Nat) (loops : List Nat) (p : Nat) (G : Pending) :
    Prop :=
  ∃ front t back, bounds = front ++ t :: back ∧ p = pc + (Typed.codes front).length ∧
    G = ⟨front.map Typed.type, loops⟩

/-- The addresses of a statement that begins at an address inside of some loops, and what is expected
there. -/
def Statement.Spot : Statement → (pc : Nat) → (loops : List Nat) → Nat → Pending → Prop
  | .nothing, _, _, _, _ => False
  | .line items, pc, loops, p, G => G = ⟨[], loops⟩ ∧
    ∃ front s back, items = front ++ s :: back ∧ p = pc + (Simple.codes front).length
  | .leap _, pc, loops, p, G => p = pc ∧ G = ⟨[], loops⟩
  | .stop, pc, loops, p, G => p = pc ∧ G = ⟨[], loops⟩
  | .both first second, pc, loops, p, G =>
    first.Spot pc loops p G ∨ second.Spot (pc + first.size) loops p G
  | .ifThen test yes, pc, loops, p, G =>
    test.Spot pc loops p G ∨ yes.Spot (pc + test.testSize + 1) loops p G
  | .ifElse test yes no, pc, loops, p, G =>
    let middle := pc + test.testSize + 1 + yes.size
    test.Spot pc loops p G ∨ yes.Spot (pc + test.testSize + 1) loops p G ∨
      (p = middle ∧ G = ⟨[], loops⟩) ∨ no.Spot (middle + 1) loops p G
  | .while test body, pc, loops, p, G =>
    let fork := pc + 1 + test.testSize
    ((p = pc ∨ p = fork + 1 + body.size) ∧ G = ⟨[], loops⟩) ∨ test.Spot (pc + 1) loops p G ∨
      body.Spot (fork + 1) loops p G
  | .repeat body test, pc, loops, p, G =>
    (p = pc ∧ G = ⟨[], loops⟩) ∨ body.Spot (pc + 1) loops p G ∨
      test.Spot (pc + 1 + body.size) loops p G
  | .count _ first last step body, pc, loops, p, G =>
    let bounds := loopBounds first last step
    let init := pc + (Typed.codes bounds).length
    Typed.BoundSpot bounds pc loops p G ∨ (p = init ∧ G = ⟨bounds.map Typed.type, loops⟩) ∨
      ((p = init + 1 ∨ p = init + 2 ∨ p = init + 3 + body.size) ∧ G = ⟨[], (init + 2) :: loops⟩) ∨
      body.Spot (init + 3) ((init + 2) :: loops) p G

theorem Expr.testSize_pos (test : Expr) : 0 < test.testSize := by
  simp [Expr.testSize, Expr.code, headed]

theorem Expects.mono {loops' : List Nat} (h : Expects expected pc types loops)
    (hsub : loops ⊆ loops') : Expects expected pc types loops' := by
  obtain ⟨loops₀, hsub₀, h⟩ := h
  exact ⟨loops₀, Subset.trans hsub₀ hsub, h⟩

theorem Expects.of_eq (h : expected pc ⟨types, loops⟩) : Expects expected pc types loops :=
  ⟨loops, Subset.refl loops, h⟩

section Posts

variable {w : Workspace}

/-- Where a statement begins, nothing waits. -/
theorem Statement.entry (s : Statement) : ∀ {pc : Nat} {loops : List Nat},
    (∀ p G, s.Spot pc loops p G → expected p G) → Expects expected (pc + s.size) [] loops →
      Expects expected pc [] loops := by
  induction s with
  | nothing => exact fun _ hfinish => hfinish
  | line items =>
    intro pc loops hspots hfinish
    cases items with
    | nil => exact hfinish
    | cons s rest => exact .of_eq (hspots _ _ ⟨rfl, [], s, rest, rfl, rfl⟩)
  | leap leave => exact fun hspots _ => .of_eq (hspots _ _ ⟨rfl, rfl⟩)
  | stop => exact fun hspots _ => .of_eq (hspots _ _ ⟨rfl, rfl⟩)
  | both first second ihf ihs =>
    intro pc loops hspots hfinish
    rw [size, ← Nat.add_assoc] at hfinish
    exact ihf (fun p G h => hspots p G (.inl h)) (ihs (fun p G h => hspots p G (.inr h)) hfinish)
  | ifThen test yes => exact fun hspots _ => .of_eq (hspots _ _ (.inl (.inl ⟨rfl, rfl⟩)))
  | ifElse test yes no => exact fun hspots _ => .of_eq (hspots _ _ (.inl (.inl ⟨rfl, rfl⟩)))
  | «while» test body => exact fun hspots _ => .of_eq (hspots _ _ (.inl ⟨.inl rfl, rfl⟩))
  | «repeat» body test => exact fun hspots _ => .of_eq (hspots _ _ (.inl ⟨rfl, rfl⟩))
  | count var first last step body =>
    exact fun hspots _ => .of_eq (hspots _ _ (.inl ⟨[], first, last :: step.toList, rfl, rfl, rfl⟩))

theorem Expr.posts (htest : test.IsCondition w) {target : Nat} {offset : Int} {back : List Node}
    (hplaced : Placed code pc (test.code .logical ++ .branchIfFalse offset :: back))
    (hjump : Machine.jump (pc + test.testSize) offset = some target)
    (hspots : ∀ p G, test.Spot pc loops p G → expected p G)
    (hyes : Expects expected (pc + test.testSize + 1) [] loops)
    (hno : Expects expected target [] loops) :
    ∀ p G, test.Spot pc loops p G → Post w code expected p G := by
  obtain ⟨t, ht, htype, rfl⟩ := htest
  rintro p G (⟨rfl, rfl⟩ | ⟨rfl, rfl⟩)
  · have hfork := hspots _ _ (.inr ⟨rfl, rfl⟩)
    rw [← htype] at hplaced hfork
    refine .value hplaced.left ht (.of_eq ?_)
    exact hfork
  · exact .fork hplaced.right.head hjump hyes hno

theorem Simple.posts {items : List Simple} (hitems : ∀ s ∈ items, s.WellTyped w)
    (hplaced : Placed code pc (codes items))
    (hspots : ∀ p G, (Statement.line items).Spot pc loops p G → expected p G)
    (hfinish : Expects expected (pc + (codes items).length) [] loops) :
    ∀ p G, (Statement.line items).Spot pc loops p G → Post w code expected p G := by
  rintro p G ⟨rfl, front, s, back, rfl, rfl⟩
  have happend : codes (front ++ s :: back) = codes front ++ (s.code ++ codes back) := by
    simp [codes]
  rw [happend] at hplaced hfinish
  refine .simple hplaced.right.left (hitems s (by simp)) ?_
  cases back with
  | nil =>
    have hnil : codes [] = [] := rfl
    rw [hnil, append_nil, length_append, ← Nat.add_assoc] at hfinish
    exact hfinish
  | cons s' back =>
    refine .of_eq (hspots _ _ ⟨rfl, front ++ [s], s', back, by simp, ?_⟩)
    simp [codes, Nat.add_assoc]

theorem Typed.posts (hbounds : ∀ t ∈ bounds, t.WellTyped w)
    (hplaced : Placed code pc (codes bounds))
    (hspots : ∀ p G, BoundSpot bounds pc loops p G → expected p G)
    (hinit : expected (pc + (codes bounds).length) ⟨bounds.map type, loops⟩) :
    ∀ p G, BoundSpot bounds pc loops p G → Post w code expected p G := by
  rintro p G ⟨front, t, back, rfl, rfl, rfl⟩
  have happend : codes (front ++ t :: back) =
      codes front ++ (t.expr.code t.type ++ codes back) := by
    simp [codes]
  rw [happend] at hplaced hinit
  refine .value hplaced.right.left (hbounds t (by simp)) (.of_eq ?_)
  cases back with
  | nil =>
    have hnil : codes [] = [] := rfl
    rw [hnil, append_nil, length_append, ← Nat.add_assoc, map_append] at hinit
    exact hinit
  | cons t' back =>
    refine hspots _ _ ⟨front ++ [t], t', back, by simp, ?_, by simp⟩
    simp [codes, Nat.add_assoc]

/-- A well-typed statement keeps its expectations, provided that something is expected where it ends
and where the loop around it leads to. -/
theorem Statement.posts (s : Statement) (hcode : code.size < 0x8000000000000000) :
    ∀ {gate pc left skip : Nat} {loops : List Nat}, s.WellTyped w →
      Placed code pc (s.code gate pc) → (∀ p G, s.Spot pc loops p G → expected p G) →
      Expects expected (pc + s.size) [] loops →
      (s.Leaps → GateAt code gate left skip ∧ Expects expected left [] loops ∧
        Expects expected skip [] loops) →
      ∀ p G, s.Spot pc loops p G → Post w code expected p G := by
  induction s with
  | nothing =>
    intro gate pc left skip loops _ _ _ _ _ p G hspot
    cases hspot
  | line items =>
    intro gate pc left skip loops hs hplaced hspots hfinish _
    exact Simple.posts hs hplaced hspots hfinish
  | leap leave =>
    intro gate pc left skip loops _ hplaced _ _ hgate
    rintro p G ⟨rfl, rfl⟩
    obtain ⟨⟨exit, again, hat, hexit, hagain⟩, hleft, hskip⟩ := hgate trivial
    have hsize := end_le hplaced
    have hlt : gate < code.size := (Array.getElem?_eq_some_iff.1 hat).1
    simp only [size] at hsize
    exact .leap hplaced.head (jump_distance (by omega)) ⟨exit, again, hat, hexit, hagain⟩
      hleft hskip
  | stop =>
    intro gate pc left skip loops _ hplaced _ _ _
    rintro p G ⟨rfl, rfl⟩
    exact .stop hplaced.head
  | both first second ihf ihs =>
    intro gate pc left skip loops hs hplaced hspots hfinish hgate
    have hsecond := hplaced.right
    rw [length_code] at hsecond
    rw [size, ← Nat.add_assoc] at hfinish
    have hspots₂ := fun p G h => hspots p G (.inr h)
    have hmiddle := second.entry hspots₂ hfinish
    rintro p G (hspot | hspot)
    · exact ihf hs.1 hplaced.left (fun p G h => hspots p G (.inl h)) hmiddle
        (fun h => hgate (.inl h)) p G hspot
    · exact ihs hs.2 hsecond hspots₂ hfinish (fun h => hgate (.inr h)) p G hspot
  | ifThen test yes ih =>
    intro gate pc left skip loops hs hplaced hspots hfinish hgate
    have hsize := end_le hplaced
    simp only [size] at hsize
    simp only [size, ← Nat.add_assoc] at hfinish
    have hspots₂ := fun p G h => hspots p G (.inr h)
    rintro p G (hspot | hspot)
    · exact Expr.posts hs.1 hplaced (jump_distance (by omega))
        (fun p G h => hspots p G (.inl h)) (yes.entry hspots₂ hfinish) hfinish p G hspot
    · exact ih hs.2 hplaced.right.tail hspots₂ hfinish hgate p G hspot
  | ifElse test yes no ihy ihn =>
    intro gate pc left skip loops hs hplaced hspots hfinish hgate
    have hsize := end_le hplaced
    simp only [size] at hsize
    have hyes := hplaced.right.tail.left
    have hno := hplaced.right.tail.right.tail
    have hjump := hplaced.right.tail.right.head
    simp only [length_code, Expr.length_test] at hyes hno hjump
    simp only [size, ← Nat.add_assoc] at hfinish
    have hspotsYes := fun p G h => hspots p G (.inr (.inl h))
    have hspotsNo := fun p G h => hspots p G (.inr (.inr (.inr h)))
    -- The first arm ends with a jump over the second one.
    have hmiddle : Expects expected (pc + test.testSize + 1 + yes.size) [] loops :=
      .of_eq (hspots _ _ (.inr (.inr (.inl ⟨rfl, rfl⟩))))
    rintro p G (hspot | hspot | ⟨rfl, rfl⟩ | hspot)
    · exact Expr.posts hs.1 hplaced (jump_distance (by omega))
        (fun p G h => hspots p G (.inl h)) (yes.entry hspotsYes hmiddle) (no.entry hspotsNo hfinish)
        p G hspot
    · exact ihy hs.2.1 hyes hspotsYes hmiddle (fun h => hgate (.inl h)) p G hspot
    · exact .branch hjump (jump_distance (by omega)) hfinish
    · exact ihn hs.2.2 hno hspotsNo hfinish (fun h => hgate (.inr h)) p G hspot
  | «while» test body ih =>
    intro gate pc left skip loops hs hplaced hspots hfinish _
    have hsize := end_le hplaced
    simp only [size] at hsize
    have hbody := hplaced.tail.right.tail.left
    have hjump := hplaced.tail.right.tail.right.head
    simp only [length_code, Expr.length_test] at hbody hjump
    simp only [size, ← Nat.add_assoc] at hfinish
    have hgateAt : GateAt code pc (pc + 1 + test.testSize + 1 + body.size + 1) (pc + 1) :=
      ⟨_, _, hplaced.head, jump_distance (by omega), rfl⟩
    have hspotsBody := fun p G h => hspots p G (.inr (.inr h))
    have hback : Expects expected (pc + 1 + test.testSize + 1 + body.size) [] loops :=
      .of_eq (hspots _ _ (.inl ⟨.inr rfl, rfl⟩))
    have hhead : Expects expected (pc + 1) [] loops :=
      .of_eq (hspots _ _ (.inr (.inl (.inl ⟨rfl, rfl⟩))))
    rintro p G (⟨rfl | rfl, rfl⟩ | hspot | hspot)
    · exact .gate hplaced.head hhead
    · exact .branch hjump (jump_distance (by omega)) hhead
    · exact Expr.posts hs.1 hplaced.tail (jump_distance (by omega))
        (fun p G h => hspots p G (.inr (.inl h))) (body.entry hspotsBody hback) hfinish p G hspot
    · exact ih hs.2 hbody hspotsBody hback (fun _ => ⟨hgateAt, hfinish, hhead⟩) p G hspot
  | «repeat» body test ih =>
    intro gate pc left skip loops hs hplaced hspots hfinish _
    have hsize := end_le hplaced
    simp only [size] at hsize
    have htest := hplaced.tail.right
    rw [length_code] at htest
    simp only [size, ← Nat.add_assoc] at hfinish
    have hgateAt : GateAt code pc (pc + 1 + body.size + test.testSize + 1) (pc + 1 + body.size) :=
      ⟨_, _, hplaced.head, jump_distance (by omega), jump_distance (by omega)⟩
    have hspotsBody := fun p G h => hspots p G (.inr (.inl h))
    have hspotsTest := fun p G h => hspots p G (.inr (.inr h))
    have hfoot : Expects expected (pc + 1 + body.size) [] loops :=
      .of_eq (hspotsTest _ _ (.inl ⟨rfl, rfl⟩))
    have hhead := body.entry hspotsBody hfoot
    rintro p G (⟨rfl, rfl⟩ | hspot | hspot)
    · exact .gate hplaced.head hhead
    · exact ih hs.1 hplaced.tail.left hspotsBody hfoot (fun _ => ⟨hgateAt, hfinish, hfoot⟩) p G hspot
    · exact Expr.posts hs.2 htest (jump_distance (by omega)) hspotsTest hfinish hhead
        p G hspot
  | count var first last step body ih =>
    intro gate pc left skip loops hs hplaced hspots hfinish _
    obtain ⟨hvar, hbounds, hs⟩ := hs
    have hsize := end_le hplaced
    simp only [size] at hsize
    have hinit := hplaced.right.head
    have hgate := hplaced.right.tail.head
    have hcounter := hplaced.right.tail.tail.head
    have hbody := hplaced.right.tail.tail.tail.left
    have hjump := hplaced.right.tail.tail.tail.right.head
    simp only [length_code] at hinit hgate hcounter hbody hjump
    simp only [size, ← Nat.add_assoc] at hfinish
    have hspotsBounds := fun p G h => hspots p G (.inl h)
    have hspotsBody := fun p G h => hspots p G (.inr (.inr (.inr h)))
    let init := pc + (Typed.codes (loopBounds first last step)).length
    have hloop {p : Nat} (hp : p = init + 1 ∨ p = init + 2 ∨ p = init + 3 + body.size) :
        Expects expected p [] ((init + 2) :: loops) :=
      .of_eq (hspots _ _ (.inr (.inr (.inl ⟨hp, rfl⟩))))
    have hround := hloop (.inr (.inl rfl))
    have hback := hloop (.inr (.inr rfl))
    have hgateAt : GateAt code (init + 1) (init + 3 + body.size + 1) (init + 2) :=
      ⟨_, _, hgate, jump_distance (by omega), rfl⟩
    have hout := hfinish.mono (subset_cons_self (init + 2) loops)
    rintro p G (hspot | ⟨rfl, rfl⟩ | ⟨rfl | rfl | rfl, rfl⟩ | hspot)
    · exact Typed.posts (fun t ht => (hbounds t ht).1) hplaced.left hspotsBounds
        (hspots _ _ (.inr (.inl ⟨rfl, rfl⟩))) p G hspot
    · exact .init hinit (jump_distance (by omega)) hcounter hvar
        (fun t ht => (hbounds t ht).2) (hloop (.inl rfl))
    · exact .gate hgate hround
    · exact .round hcounter (jump_distance (by omega)) hvar mem_cons_self
        (body.entry hspotsBody hback) hout
    · exact .branch hjump (jump_distance (by omega)) hround
    · exact ih hs hbody hspotsBody hback (fun _ => ⟨hgateAt, hout, hround⟩) p G hspot

/-- What is expected at the addresses of a statement that is a whole program. -/
def Statement.Expected (s : Statement) (p : Nat) (G : Pending) : Prop :=
  s.Spot 0 [] p G ∨ p = s.size ∧ G = ⟨[], []⟩

theorem Statement.guarded (hs : s.WellTyped w) (hleaps : ¬ s.Leaps)
    (hsize : s.size < 0x8000000000000000) (gate : Nat) :
    Guarded w (s.code gate 0).toArray s.Expected := by
  have hcode : (s.code gate 0).toArray.size < 0x8000000000000000 := by simpa using hsize
  have hfinish : Expects s.Expected (0 + s.size) [] [] :=
    .of_eq (.inr ⟨Nat.zero_add _, rfl⟩)
  have hgate : s.Leaps → GateAt (s.code gate 0).toArray gate 0 0 ∧ Expects s.Expected 0 [] [] ∧
      Expects s.Expected 0 [] [] := fun h => absurd h hleaps
  rintro p G (hspot | ⟨rfl, rfl⟩)
  · exact s.posts hcode hs (placed_toArray _) (fun p G h => .inl h) hfinish hgate p G hspot
  · exact .finished (by simp)

theorem Statement.expected_start (s : Statement) : s.Expected 0 ⟨[], []⟩ := by
  have hfinish : Expects s.Expected (0 + s.size) [] [] :=
    .of_eq (.inr ⟨Nat.zero_add _, rfl⟩)
  obtain ⟨loops, hsub, h⟩ := s.entry (fun p G h => .inl h) hfinish
  rwa [subset_nil.mp hsub] at h

end Posts

/-! ### Boundaries -/

/-- A statement that begins at an address is a direct part of another one. -/
inductive Statement.Part : Statement → (pc : Nat) → Statement → (pc : Nat) → Prop
  | first (s second : Statement) (pc : Nat) : Part s pc (.both s second) pc
  | second (first s : Statement) (pc : Nat) : Part s (pc + first.size) (.both first s) pc
  | «then» (test : Expr) (s : Statement) (pc : Nat) :
      Part s (pc + test.testSize + 1) (.ifThen test s) pc
  | yes (test : Expr) (s no : Statement) (pc : Nat) :
      Part s (pc + test.testSize + 1) (.ifElse test s no) pc
  | no (test : Expr) (yes s : Statement) (pc : Nat) :
      Part s (pc + test.testSize + 1 + yes.size + 1) (.ifElse test yes s) pc
  | «while» (test : Expr) (s : Statement) (pc : Nat) :
      Part s (pc + 1 + test.testSize + 1) (.while test s) pc
  | «repeat» (s : Statement) (test : Expr) (pc : Nat) : Part s (pc + 1) (.repeat s test) pc
  | count (var : Handle) (first last : Typed) (step : Option Typed) (s : Statement) (pc : Nat) :
      Part s (pc + (Typed.codes (loopBounds first last step)).length + 3)
        (.count var first last step s) pc

/-- An address where a statement begins or ends, be it the whole one or one inside of it, or where a
round of a loop begins. -/
inductive Statement.Boundary : Statement → (pc : Nat) → Nat → Prop
  | start (s : Statement) (pc : Nat) : Boundary s pc pc
  | finish (s : Statement) (pc : Nat) : Boundary s pc (pc + s.size)
  | item (front back : List Simple) (pc : Nat) :
      Boundary (.line (front ++ back)) pc (pc + (Simple.codes front).length)
  | whileRound (test : Expr) (body : Statement) (pc : Nat) : Boundary (.while test body) pc (pc + 1)
  | countRound (var : Handle) (first last : Typed) (step : Option Typed) (body : Statement)
      (pc : Nat) : Boundary (.count var first last step body) pc
        (pc + (Typed.codes (loopBounds first last step)).length + 2)
  | inside {s t : Statement} {pc q p : Nat} : Part t q s pc → Boundary t q p → Boundary s pc p

theorem Simple.length_code_pos (s : Simple) : 0 < s.code.length := by
  cases s <;> simp [code]

theorem Expr.length_code_pos (e : Expr) (type : ElementType) : 0 < (e.code type).length := by
  simp [Expr.code, headed]

theorem Typed.length_bounds_pos (first last : Typed) (step : Option Typed) :
    0 < (codes (loopBounds first last step)).length := by
  have := first.expr.length_code_pos first.type
  rw [loopBounds, codes_cons, length_append]
  omega

theorem Typed.BoundSpot.range (h : BoundSpot bounds pc loops p G) :
    pc ≤ p ∧ p < pc + (codes bounds).length := by
  obtain ⟨front, t, back, rfl, rfl, -⟩ := h
  have hpos := t.expr.length_code_pos t.type
  have happend : (codes (front ++ t :: back)).length =
      (codes front).length + ((t.expr.code t.type).length + (codes back).length) := by
    simp [codes]
  omega

theorem Expr.Spot.range (h : test.Spot pc loops p G) : pc ≤ p ∧ p ≤ pc + test.testSize := by
  rcases h with ⟨rfl, -⟩ | ⟨rfl, -⟩
  · omega
  · omega

theorem Statement.Spot.range (h : s.Spot pc loops p G) : pc ≤ p ∧ p < pc + s.size := by
  induction s generalizing pc loops with
  | nothing => cases h
  | line items =>
    obtain ⟨-, front, s, back, rfl, rfl⟩ := h
    have hpos := s.length_code_pos
    have happend : (Simple.codes (front ++ s :: back)).length =
        (Simple.codes front).length + (s.code.length + (Simple.codes back).length) := by
      simp [Simple.codes]
    rw [size]
    omega
  | leap leave =>
    rw [h.1, size]
    omega
  | stop =>
    rw [h.1, size]
    omega
  | both first second ihf ihs =>
    rw [size]
    rcases h with h | h
    · have := ihf h
      omega
    · have := ihs h
      omega
  | ifThen test yes ih =>
    rw [size]
    rcases h with h | h
    · have := h.range
      omega
    · have := ih h
      omega
  | ifElse test yes no ihy ihn =>
    rw [size]
    rcases h with h | h | ⟨rfl, -⟩ | h
    · have := h.range
      omega
    · have := ihy h
      omega
    · omega
    · have := ihn h
      omega
  | «while» test body ih =>
    rw [size]
    rcases h with ⟨rfl | rfl, -⟩ | h | h
    · omega
    · omega
    · have := h.range
      omega
    · have := ih h
      omega
  | «repeat» body test ih =>
    rw [size]
    rcases h with ⟨rfl, -⟩ | h | h
    · omega
    · have := ih h
      omega
    · have := h.range
      omega
  | count var first last step body ih =>
    rw [size]
    rcases h with h | ⟨rfl, -⟩ | ⟨rfl | rfl | rfl, -⟩ | h
    · have := h.range
      omega
    · omega
    · omega
    · omega
    · omega
    · have := ih h
      omega

theorem Statement.Part.range (h : Part t q s pc) : pc ≤ q ∧ q + t.size ≤ pc + s.size := by
  cases h with
  | first | second | «then» | yes | no | «while» | «repeat» | count =>
    rw [size]
    omega

theorem Statement.Boundary.range (h : s.Boundary pc p) : pc ≤ p ∧ p ≤ pc + s.size := by
  induction h with
  | start s pc | finish s pc => omega
  | item front back pc =>
    have happend : (Simple.codes (front ++ back)).length =
        (Simple.codes front).length + (Simple.codes back).length := by
      simp [Simple.codes]
    rw [size]
    omega
  | whileRound test body pc =>
    rw [size]
    omega
  | countRound var first last step body pc =>
    rw [size]
    omega
  | inside hpart _ ih =>
    have := hpart.range
    omega

/-- An address inside of a part is a boundary of the whole only if it is one of the part. -/
theorem Statement.Boundary.of_part (h : s.Boundary pc p)
    (hpart : Part t q s pc) (hp : q ≤ p ∧ p < q + t.size) : t.Boundary q p := by
  have hrange := hpart.range
  cases h with
  | start => exact (show q = pc by omega) ▸ .start t q
  | finish => omega
  | item => cases hpart
  | whileRound | countRound =>
    cases hpart
    omega
  | @inside _ t' _ _ _ hpart' h =>
    -- Two parts of a statement touch at most where the first one ends.
    have hrange' := h.range
    cases hpart with
    | first =>
      cases hpart' with
      | first => exact h
      | second => omega
    | second =>
      cases hpart' with
      | first => exact (show p = pc + t'.size by omega) ▸ .start t _
      | second => exact h
    | yes =>
      cases hpart' with
      | yes => exact h
      | no => omega
    | no =>
      cases hpart' with
      | yes => omega
      | no => exact h
    | «then» | «while» | «repeat» | count =>
      cases hpart'
      exact h

/-- Only the truth value of a condition waits, where the jump behind it stands. -/
theorem Expr.Spot.idle (h : test.Spot pc loops p G) (hp : p ≠ pc + test.testSize) :
    G.types = [] := by
  rcases h with ⟨-, rfl⟩ | ⟨heq, -⟩
  · rfl
  · exact absurd heq hp

theorem Typed.BoundSpot.idle (h : BoundSpot bounds pc loops p G) (hp : p = pc) : G.types = [] := by
  obtain ⟨front, t, back, rfl, rfl, rfl⟩ := h
  cases front with
  | nil => rfl
  | cons t' front =>
    have hpos := t'.expr.length_code_pos t'.type
    rw [codes_cons, length_append] at hp
    omega

/-- **Nothing waits at a boundary.** -/
theorem Statement.Spot.idle (h : s.Spot pc loops p G) (hp : s.Boundary pc p) : G.types = [] := by
  have hwhole := h.range
  induction s generalizing pc loops with
  | nothing => cases h
  | line items => rw [h.1]
  | leap leave => rw [h.2]
  | stop => rw [h.2]
  | both first second ihf ihs =>
    rcases h with h | h
    · exact ihf h (hp.of_part (.first _ _ _) h.range) h.range
    · exact ihs h (hp.of_part (.second _ _ _) h.range) h.range
  | ifThen test yes ih =>
    rcases h with h | h
    · refine h.idle fun hfork => ?_
      have hpos := test.testSize_pos
      cases hp with
      | start | finish => omega
      | inside hpart hp =>
        have := hp.range
        cases hpart
        omega
    · exact ih h (hp.of_part (.then _ _ _) h.range) h.range
  | ifElse test yes no ihy ihn =>
    rcases h with h | h | ⟨-, rfl⟩ | h
    · refine h.idle fun hfork => ?_
      have hpos := test.testSize_pos
      cases hp with
      | start | finish => omega
      | inside hpart hp =>
        have := hp.range
        cases hpart with
        | yes | no => omega
    · exact ihy h (hp.of_part (.yes _ _ _ _) h.range) h.range
    · rfl
    · exact ihn h (hp.of_part (.no _ _ _ _) h.range) h.range
  | «while» test body ih =>
    rcases h with ⟨-, rfl⟩ | h | h
    · rfl
    · refine h.idle fun hfork => ?_
      have hpos := test.testSize_pos
      cases hp with
      | start | finish | whileRound => omega
      | inside hpart hp =>
        have := hp.range
        cases hpart
        omega
    · exact ih h (hp.of_part (.while _ _ _) h.range) h.range
  | «repeat» body test ih =>
    rcases h with ⟨-, rfl⟩ | h | h
    · rfl
    · exact ih h (hp.of_part (.repeat _ _ _) h.range) h.range
    · refine h.idle fun hfork => ?_
      have hpos := test.testSize_pos
      cases hp with
      | start | finish => omega
      | inside hpart hp =>
        have := hp.range
        cases hpart
        omega
  | count var first last step body ih =>
    rcases h with h | ⟨hinit, -⟩ | ⟨-, rfl⟩ | h
    · have hrange := h.range
      refine h.idle ?_
      cases hp with
      | start => rfl
      | finish | countRound => omega
      | inside hpart hp =>
        have := hp.range
        cases hpart
        omega
    · have hpos := length_bounds_pos first last step
      cases hp with
      | start | finish | countRound => omega
      | inside hpart hp =>
        have := hp.range
        cases hpart
        omega
    · rfl
    · exact ih h (hp.of_part (.count _ _ _ _ _ _) h.range) h.range

/-- Nothing waits at a boundary of a whole program, its end included. -/
theorem Statement.Expected.idle (h : s.Expected p G) (hp : s.Boundary 0 p) : G.types = [] := by
  rcases h with h | ⟨-, rfl⟩
  · exact h.idle hp
  · rfl

/-! ### Runs -/

theorem FailsToExchange.cause (h : FailsToExchange code pc m f) : f.cause ≠ .internalError := by
  obtain ⟨func, args, -, g, cells, host, call, -, -, -, hswap⟩ := h
  rcases Core.cause_swap hswap with hcause | hcause
  · rw [hcause]
    decide
  · rw [hcause]
    decide

/-- A program of a statement runs soundly on a machine. -/
structure Statement.RunsSoundly (s : Statement) (code : Array Node) (m : Machine) : Prop where
  /-- No fault blames the machine, and none blames the types of values, but one with which `swap`
  itself refuses two variables. -/
  faults {fuel : Nat} {f : Fault} {m' : Machine} : Control.run code fuel m = .error (.fault f) m' →
    f.cause ≠ .internalError ∧ (f.cause = .typeMismatch →
      ∃ pc n, Control.Visits code fuel 0 m pc n ∧ FailsToExchange code pc n f)
  /-- An expression that is evaluated with the variables of a state of the run has the type of its
  header. -/
  types {fuel pc : Nat} {n : Machine} : Control.Visits code fuel 0 m pc n →
    ∀ {n' n'' : Machine} {fuel' address : Nat} {header : Header} {fill : Option Shape} {cell : Cell},
      n'.workspace = n.workspace → code[address]? = some (.expr header) →
      Evaluate.expression code fuel' address fill n' = .ok cell n'' → cell.type = header.type
  /-- Both stacks are at a boundary what they were on entry. -/
  heights {fuel pc : Nat} {n : Machine} : Control.Visits code fuel 0 m pc n → s.Boundary 0 pc →
    n.values = m.values ∧ n.run = m.run

/-- The program of a well-typed statement runs soundly, as long as only core functions are called. -/
theorem Statement.WellTyped.runsSoundly (hs : s.WellTyped m.workspace)
    (hw : m.workspace.IsCore) (hcounters : m.counters = []) (hleaps : ¬ s.Leaps)
    (hsize : s.size < 0x8000000000000000) : s.RunsSoundly (s.code 0 0).toArray m := by
  have hguarded := Statement.guarded hs hleaps hsize 0
  have hcode : (s.code 0 0).toArray.size < wordSize := by
    rw [size_toArray, Statement.length_code]
    exact Nat.lt_trans hsize (by decide)
  have hstart : Pending.Fits m.workspace m ⟨[], []⟩ m := by
    have hidle : Pending.Fits m.workspace m ⟨[], []⟩ (m.place m.world []) :=
      .idle (.refl _) ⟨fun _ h => (by cases h), fun h => (by cases h)⟩
    have hplace : m.place m.world [] = m := by
      rw [← hcounters]
      rfl
    rwa [hplace] at hidle
  have hvisits {fuel pc : Nat} {n : Machine}
      (h : Control.Visits (s.code 0 0).toArray fuel 0 m pc n) :=
    hguarded.visits hw hcode s.expected_start hstart h
  refine ⟨fun hrun => ?_, fun h _ _ _ _ _ _ _ hn' hheader heval => ?_, fun h hp => ?_⟩
  · rcases hguarded.fault hw hcode s.expected_start hstart hrun with hproper | hexchange
    · exact ⟨hproper.2, fun hcause => absurd hcause hproper.1⟩
    · refine ⟨?_, fun _ => hexchange⟩
      obtain ⟨pc, n, -, hfails⟩ := hexchange
      exact hfails.cause
  · obtain ⟨G, -, hn⟩ := hvisits h
    have hmem := mem_toArray.mp (Array.mem_of_getElem? hheader)
    obtain htells | ⟨_, _, hcommand⟩ := (hs.orderly 0 0).regular hmem
    · exact Evaluate.type_expression htells (hn' ▸ hn.later) hheader heval
    · cases hcommand
  · obtain ⟨⟨types, loops⟩, hG, hn⟩ := hvisits h
    obtain rfl : types = [] := hG.idle hp
    obtain ⟨W, K, rfl, -, -⟩ := hn.of_idle
    exact ⟨rfl, rfl⟩

/-! ### Sessions of the core -/

namespace Session

variable [Outside] {settings : Settings} {s s' : Session}

/-- Without further modules, a session has no functions but those of the core. -/
theorem Reached.isCore (hs : Reached settings (fun _ => False) s) : s.workspace.IsCore :=
  hs.sort (fun _ hf => hf) fun _ hm => hm.elim

/-- **Compiled statements are sound.**  In a session without further modules, the program of every
statement that is accepted runs soundly on the variables that the session has come to. -/
theorem compile_sound {fuel : Nat} {line : String} (hs : Reached settings (fun _ => False) s)
    (h : s.compile fuel line = (.ok (), s')) (hsize : s'.program.size < 0x8000000000000000) :
    ∃ lines tree lexer, Draws (furtherLines s.settings.continuationPrompt) s.input lines s'.input ∧
      Written s.settings.limits.nameLength
        ⟨s.workspace, .ofText line s.settings.limits.nameLength⟩ lines tree ⟨s'.workspace, lexer⟩ ∧
      s'.program.nodes = (tree.code 0 0).toArray ∧
      tree.RunsSoundly s'.program.nodes { s'.machine with counters := [] } := by
  cases hcompile : Compiler.compile (furtherLines s.settings.continuationPrompt)
      s.settings.limits.nameLength fuel line
      { workspace := s.workspace, program := s.program.clear
        lexer := .ofText line s.settings.limits.nameLength, source := s.input } with
  | error failure c =>
    rw [compile, hcompile] at h
    cases h
  | ok _ c =>
    rw [compile, hcompile] at h
    cases h
    obtain ⟨lines, tree, hdraws, hwritten, hleaps, hnodes, -⟩ := compile_ok rfl rfl hcompile
    obtain ⟨created, hgrows⟩ := Compiler.grows_of_compile hcompile
    have hm := hs.matched.consistent
    have hcore : c.workspace.IsCore :=
      Workspace.keepsSort_of_eq (hgrows.additions hm).functions hs.isCore
    have htyped : tree.WellTyped c.workspace := hwritten.lasting.now hm
    have htree : tree.size < 0x8000000000000000 := by
      rwa [Program.size, hnodes, List.size_toArray, Statement.length_code] at hsize
    refine ⟨lines, tree, c.lexer, hdraws, hwritten, hnodes, ?_⟩
    rw [hnodes]
    exact htyped.runsSoundly hcore rfl hleaps htree

end Session

namespace Session

open scoped Cabinet

def mixed : Session := (((Session.initial {} []).statement 60 "x = 1").2.statement 60 "t = \"a\"").2

/-- The fault that a run has ended with, if it has. -/
def faultOf? : EStateM.Result Failure Machine Flow → Option Fault
  | .error (.fault f) _ => some f
  | _ => none

theorem faultOf?_eq_some {result : EStateM.Result Failure Machine Flow}
    (h : faultOf? result = some f) : ∃ m, result = .error (.fault f) m := by
  unfold faultOf? at h
  split at h
  case h_1 m => cases h; exact ⟨m, rfl⟩
  case h_2 => cases h

/-- An exchange of a number and a text is accepted, and `swap` refuses it. -/
theorem compile_sound_swap :
    ∃ s s' : Session, Reached {} (fun _ => False) s ∧ s.compile 60 "swap x, t" = (.ok (), s') ∧
      ∃ f m' pc n, Control.run s'.program.nodes 60 { s'.machine with counters := [] } =
          .error (.fault f) m' ∧ f.cause = .typeMismatch ∧
        FailsToExchange s'.program.nodes pc n f := by
  have hs : Reached {} (fun _ => False) mixed := .statement 60 _ (.statement 60 _ (.initial []))
  have haccepted : (mixed.compile 60 "swap x, t").1.isOk = true := by decide +kernel
  have hrefused : (mixed.compile 60 "swap x, t").2.program.size = 3 ∧
      (faultOf? (Control.run (mixed.compile 60 "swap x, t").2.program.nodes 60
        { (mixed.compile 60 "swap x, t").2.machine with counters := [] })).map Fault.cause =
          some .typeMismatch := by decide +kernel
  generalize hcompile : mixed.compile 60 "swap x, t" = result at haccepted hrefused
  obtain ⟨outcome, s'⟩ := result
  obtain ⟨hsize, hrefused⟩ := hrefused
  obtain ⟨f, hf, hcause⟩ := Option.map_eq_some_iff.mp hrefused
  obtain ⟨m', hrun⟩ := faultOf?_eq_some hf
  cases outcome with
  | error => cases haccepted
  | ok =>
    have hsize : s'.program.size = 3 := hsize
    obtain ⟨lines, tree, lexer, -, -, -, hsound⟩ := compile_sound hs hcompile (by omega)
    obtain ⟨pc, n, -, hexchange⟩ := (hsound.faults hrun).2 hcause
    exact ⟨mixed, s', hs, hcompile, f, m', pc, n, hrun, hcause, hexchange⟩

end Session

end ArrayCommand
