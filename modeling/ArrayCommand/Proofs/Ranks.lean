/-
The rank that is known when an expression is read.

The rank of a value is the highest rank of the operands that its expression resolves.  So the rank
that reading finds is right if it is right for the operands: their variables must not have changed
their ranks since, and functions must return values of the rank they declare.  It is wrong for two
kinds of operands.  A variable that is cast to no extents keeps its shape, but counts as a single
value (`Term.cast_keeps_rank`), and the bounds of a part of a text are not counted at all.

* `Term.Settled` — an expression without such operands, and in which the others are as they were;
* `Term.ensures_rank` — the highest rank of its operands is the one that was found;
* `Term.static_rank` — **the values of such an expression have the rank that was found.**
-/

import ArrayCommand.Proofs.Assignment
import ArrayCommand.Proofs.Grammar
import ArrayCommand.Proofs.Readers

namespace ArrayCommand

open Direct (check)

variable {shapes shapes' : List Shape} {rank rank' : Nat} {s : Shape} {w w' : Workspace}

/-! ### The highest rank -/

structure Shape.Highest (shapes : List Shape) (rank : Nat) : Prop where
  le : ∀ s ∈ shapes, s.rank ≤ rank
  mem : rank = 0 ∨ ∃ s ∈ shapes, s.rank = rank

namespace Shape.Highest

theorem nil : Highest [] 0 := ⟨by simp, .inl rfl⟩

theorem single (s : Shape) : Highest [s] s.rank := ⟨by simp, .inr ⟨s, by simp, rfl⟩⟩

theorem append (h : Highest shapes rank) (h' : Highest shapes' rank') :
    Highest (shapes ++ shapes') (max rank rank') := by
  obtain ⟨hle, hmem⟩ := h
  obtain ⟨hle', hmem'⟩ := h'
  refine ⟨fun s hs => ?_, ?_⟩
  · grind
  · obtain hmax | hmax := max_choice rank rank' <;> rw [hmax] <;> grind

theorem rank_domain (h : Highest shapes rank) (hs : Evaluate.domain shapes = .ok s) :
    s.rank = rank := by
  obtain ⟨-, f, herror, -⟩ | ⟨dims, hcommon⟩ := Evaluate.clash_or_common shapes
  · cases herror.symm.trans hs
  · have hdims : s.rank = dims.length :=
      congrArg List.length (Shape.ofDims_ok (hcommon.domain_eq.symm.trans hs)).1
    have hle := h.le
    have hge := hcommon.rank_le
    obtain h0 | ⟨t, ht, hrank⟩ := h.mem <;> obtain h0' | ⟨t', ht', hrank'⟩ := hcommon.rank_mem <;>
      grind

end Shape.Highest

theorem Sound.of_ok {α : Type} {post : α → Prop} {r : Except Fault α} (h : ∀ a, r = .ok a → post a) :
    Sound (fun _ => True) post r := by
  cases r with
  | ok a => exact h a rfl
  | error f => exact trivial

theorem Ensures.any {α σ : Type} (x : EStateM Fault σ α) :
    Ensures (fun _ => True) (fun _ => True) x := fun s => by
  cases x s <;> trivial

/-- The operands of a meaning have this highest rank. -/
abbrev Meaning.OfRank (rank : Nat) (m : Meaning) : Prop := Shape.Highest m.shapes rank

theorem Meaning.ensures_rank {m : Meaning} {type : ElementType} (h : m.OfRank rank) :
    Ensures (fun _ => True) (fun c => c.rank = rank) (m.cell type none) := by
  have hfill (indices : List Index) : ∀ (number : Nat) (out : Cell), out.rank = rank →
      Ensures (fun _ => True) (fun c => c.rank = rank) (fillFrom m.value indices number out) := by
    induction indices with
    | nil => exact fun _ _ hout => .pure hout
    | cons index rest ih =>
      intro number out hout
      refine (Ensures.any _).bind fun s _ => .bind (.check ?_) fun c hc => ih _ _ hc
      rw [Cell.set]
      split
      · exact (Sound.of_ok fun _ _ => trivial).map fun _ _ => hout
      · trivial
  refine .bind (.check (.of_ok fun s hs => h.rank_domain hs)) fun s hs => ?_
  refine .bind (.check (.of_ok fun c hc => ?_)) fun c hc => hfill _ _ _ hc
  rw [Option.getD_none, ite_self] at hc
  exact Cell.allocate_ok hc ▸ hs

/-! ### Operands -/

/-- Every value that a function returns has a rank. -/
def Function.Returns (f : Function) (rank : Nat) : Prop :=
  ∀ c u c', f.native c = .ok u c' → ∃ out, c'.out = some out ∧ out.rank = rank

theorem Function.Returns.ensures_callOnce {f : Function} (h : f.Returns rank) (type : ElementType)
    (cells : List Cell) :
    Ensures (fun _ => True) (·.view.shape.rank = rank) (Direct.callOnce f type cells) := by
  have hinvoke (out : Cell) : Ensures (fun _ => True) (fun r => ∃ out, r.2 = some out ∧ out.rank = rank)
      (Direct.invoke f cells.toArray (some out)) := by
    intro host
    rw [Direct.invoke]
    cases hnative : f.native ⟨host, cells.toArray, some out⟩ with
    | ok u c => exact h _ _ _ hnative
    | error => trivial
  refine (hinvoke _).bind ?_
  rintro ⟨_, _⟩ ⟨out, rfl, hout⟩
  refine .bind (.check ?_) fun c (hc : c.rank = rank) => .pure hc
  rw [Option.getD_some, Cell.inType]
  split
  · exact hout
  · exact (Sound.of_ok fun _ _ => trivial).map fun _ _ => hout

theorem Term.ensures_extents (w : Workspace) (es : List Term) :
    Ensures (fun _ => True) (·.length = es.length) (Term.extents w es) := by
  induction es with
  | nil =>
    rw [Term.extents]
    exact .pure rfl
  | cons e es ih =>
    rw [Term.extents]
    exact (Ensures.any _).bind fun _ _ => (Ensures.any _).bind fun _ _ =>
      (Ensures.any _).bind fun _ _ => ih.bind fun _ h => .pure (congrArg (· + 1) h)

theorem Selector.ensures_spans (w : Workspace) (shape : Shape) (ss : List Selector) :
    ∀ axis base, Ensures (fun _ => True) (·.length = ss.length) (Selector.spans w shape axis base ss) := by
  induction ss with
  | nil =>
    intro axis base
    rw [Selector.spans]
    exact .pure rfl
  | cons s ss ih =>
    intro axis base
    rw [Selector.spans]
    exact (Ensures.any _).bind fun _ _ => (Ensures.any _).bind fun _ _ =>
      (ih _ _).bind fun _ h => .pure (congrArg (· + 1) h)

theorem Evaluate.length_keptAxes : ∀ (axes : List Axis) (ranges : List AxisRange) (strides : List Int),
    axes.length = ranges.length → axes.length ≤ strides.length →
    (keptAxes axes ranges strides).length = (axes.filter (· != .at)).length
  | [], _, _, _, _ => by simp [keptAxes]
  | a :: axes, range :: ranges, stride :: strides, h, h' => by
    have ih := length_keptAxes axes ranges strides (Nat.succ.inj h) (Nat.le_of_succ_le_succ h')
    by_cases ha : a = .at <;> simp [keptAxes, ha, ih]

theorem ensures_operand (operand : Operand) (h : operand.view.shape.rank = rank) :
    Ensures (σ := Host) (fun _ => True) (Meaning.OfRank rank) (pure (.operand w operand)) :=
  .pure (h ▸ .single _)

theorem Term.ensures_slice (w : Workspace) (var : Handle) (type : ElementType)
    (selectors : List Selector) :
    Ensures (fun _ => True) (Meaning.OfRank (selectors.filter fun s => s.axis != .at).length)
      ((Term.slice var type selectors).meaning w) := by
  rw [meaning]
  refine (Ensures.any _).bind fun value _ => ?_
  by_cases hrank : selectors.length = value.shape.rank
  · refine (Ensures.any _).bind fun _ _ =>
      (Selector.ensures_spans w value.shape selectors 0 0).bind fun ranges hranges => ?_
    refine .bind (.check (.bind (.of_ok fun s => Shape.ofDims_ok) fun s hs => ?_)) fun _ h =>
      ensures_operand _ h
    have hkept := Evaluate.length_keptAxes (selectors.map Selector.axis) ranges
      ((List.range maxRank).map (Evaluate.signedStride value.shape)) (by simpa using hranges.symm)
      (by rw [List.length_map, hrank]; exact value.shape.rank_le)
    rw [List.filter_map, List.length_map] at hkept
    exact (congrArg List.length hs.1).trans ((List.length_map _).trans hkept)
  · rw [Evaluate.checkAxes, if_pos hrank]
    exact fun _ => trivial

/-! ### Expressions -/

mutual

/-- An expression read in one workspace whose rank may be relied on in another one. -/
def Term.Settled (w w' : Workspace) : Term → Prop
  | .literal _ | .placeholder | .slice _ _ _ => True
  | .whole var _ => ∀ cell cell', w.memory.value var = .ok cell → w'.memory.value var = .ok cell' →
      cell'.rank = cell.rank
  | .cast _ _ extents => extents ≠ []
  | .once func _ => ∀ f rank, w'.functions[func]? = some f → f.rank.rank? = some rank →
      f.Returns rank
  | .call _ args => Term.AllSettled w w' args
  | .part text first last => text.Settled w w' ∧
      Ensures (fun _ => True) (Meaning.OfRank 0) (first.meaning w') ∧
      Ensures (fun _ => True) (∀ m ∈ ·, m.OfRank 0) (Term.meaningOption w' last)
  | .plus e | .minus e | .not e => e.Settled w w'
  | .binary _ l r | .and l r | .or l r => l.Settled w w' ∧ r.Settled w w'

def Term.AllSettled (w w' : Workspace) : List Term → Prop
  | [] => True
  | e :: es => e.Settled w w' ∧ Term.AllSettled w w' es

end

theorem ensures_two {x y : HostM Meaning} {f : Meaning → Meaning → Meaning} {l r : Option Nat}
    (hf : ∀ a b, (f a b).shapes = a.shapes ++ b.shapes) (h : Parse.mergeRank l r = some rank)
    (hx : ∀ k, l = some k → Ensures (fun _ => True) (Meaning.OfRank k) x)
    (hy : ∀ k, r = some k → Ensures (fun _ => True) (Meaning.OfRank k) y) :
    Ensures (fun _ => True) (Meaning.OfRank rank) (do return f (← x) (← y)) := by
  match l, r, h with
  | some l, some r, rfl =>
    refine (hx l rfl).bind fun a ha => (hy r rfl).bind fun b hb => .pure ?_
    rw [Meaning.OfRank, hf]
    exact ha.append hb

mutual

theorem Term.ensures_rank (later : w.Later w') : (e : Term) → e.Settled w w' → ∀ rank,
    e.rank? w = some rank → Ensures (fun _ => True) (Meaning.OfRank rank) (e.meaning w')
  | .literal value, _, rank, h => by
    simp only [rank?, meaning] at h ⊢
    cases h
    exact .pure .nil
  | .placeholder, _, _, h => by
    rw [rank?] at h
    cases h
  | .whole var type, hs, rank, h => by
    simp only [rank?, Settled, meaning] at h hs ⊢
    cases hcell : w.memory.value var with
    | error => rw [hcell] at h; cases h
    | ok cell =>
      rw [hcell] at h
      cases h
      exact .bind (.check (.of_ok fun cell' => hs cell cell' hcell)) fun _ h => ensures_operand _ h
  | .cast var type [], hs, _, _ => by
    rw [Settled] at hs
    exact absurd rfl hs
  | .cast var type (e :: es), _, rank, h => by
    simp only [rank?, meaning] at h ⊢
    cases h
    refine (Ensures.any _).bind fun value _ => (ensures_extents w' (e :: es)).bind fun dims hdims => ?_
    refine .bind (.check ?_) fun _ h => ensures_operand _ h
    refine (Sound.of_ok fun s => Shape.ofDims_ok).bind fun s hs => ?_
    split
    · trivial
    · exact (congrArg List.length hs.1).trans hdims
  | .slice var type selectors, _, rank, h => by
    rw [rank?] at h
    cases h
    exact ensures_slice w' var type selectors
  | .once func args, hs, rank, h => by
    simp only [rank?, Settled, meaning] at h hs ⊢
    obtain ⟨f, hf, hrank⟩ := Option.bind_eq_some_iff.1 h
    rw [← later.functions] at hf
    refine (Direct.ensures_functionOf hf).bind ?_
    rintro _ rfl
    exact (Ensures.any _).bind fun cells _ =>
      ((hs _ rank hf hrank).ensures_callOnce _ cells).bind fun _ h => ensures_operand _ h
  | .call func args, hs, rank, h => by
    simp only [rank?, Settled, meaning] at h hs ⊢
    obtain ⟨k, r, hk, rfl, hargs⟩ := Term.ensures_ranks later args hs (some 0) rank h
    cases hk
    rw [Nat.zero_max]
    exact (Ensures.any _).bind fun f _ => (hargs f 0).bind fun ms hms => .pure hms
  | .part text first last, hs, rank, h => by
    simp only [rank?, Settled, meaning] at h hs ⊢
    refine (text.ensures_rank later hs.1 rank h).bind fun a ha => hs.2.1.bind fun b hb => ?_
    refine hs.2.2.bind fun c hc => .pure ?_
    have hlast : Shape.Highest (Meaning.shapesOption (c.map (·.converted .integer))) 0 := by
      cases c with
      | none => exact .nil
      | some c => exact hc c rfl
    have hall := (ha.append hb).append hlast
    rwa [Nat.max_zero, Nat.max_zero] at hall
  | .plus e, hs, rank, h => by
    simp only [rank?, Settled, meaning] at h hs ⊢
    exact e.ensures_rank later hs rank h
  | .minus e, hs, rank, h | .not e, hs, rank, h => by
    simp only [rank?, Settled, meaning] at h hs ⊢
    exact (e.ensures_rank later hs rank h).bind fun _ hm => .pure hm
  | .binary _ l r, hs, rank, h | .and l r, hs, rank, h | .or l r, hs, rank, h => by
    simp only [rank?, Settled, meaning] at h hs ⊢
    exact ensures_two (fun _ _ => rfl) h (l.ensures_rank later hs.1) (r.ensures_rank later hs.2)

theorem Term.ensures_ranks (later : w.Later w') : (es : List Term) → AllSettled w w' es → ∀ known rank,
    ranks w known es = some rank → ∃ k r, known = some k ∧ rank = max k r ∧ ∀ f index,
      Ensures (fun _ => True) (fun ms => Shape.Highest (ms.map Meaning.shapes).flatten r)
        (handed w' f index es)
  | [], _, known, rank, h => by
    rw [ranks] at h
    refine ⟨rank, 0, h, (Nat.max_zero _).symm, fun f index => ?_⟩
    rw [handed]
    exact .pure .nil
  | e :: es, hs, known, rank, h => by
    rw [ranks] at h
    rw [AllSettled] at hs
    obtain ⟨k, r, hk, rfl, hrest⟩ := ensures_ranks later es hs.2 _ rank h
    match known, hrank : e.rank? w, hk with
    | some k, some r', rfl =>
      refine ⟨k, max r' r, rfl, Nat.max_assoc .., fun f index => ?_⟩
      rw [handed]
      exact (e.ensures_rank later hs.1 r' hrank).bind fun m hm =>
        (hrest f (index + 1)).bind fun ms hms => .pure (hm.append hms)

end

open Parse in
/-- **The rank that reading finds is the rank of the value.**  Every expression that is accepted
follows from the rules.  Where they find a rank, a value computed without a shape to fill has it, in
every later state of the variables in which the expression is settled. -/
theorem Term.static_rank (honest : ∀ f ∈ w.functions, f.Honest fun _ => True) :
    (∀ l t l', expression w l = .ok t l' → ∃ s, Elaborates w s t) ∧
    ∀ s t rank, Elaborates w s t → t.rank = some rank →
      ∀ (m m' : Machine) (code : Array Node) (pc fuel : Nat) (cell : Cell), w.Later m.workspace →
        s.Settled w m.workspace → code.size < wordSize → Placed code pc (t.expr.code t.type) →
        Evaluate.expression code fuel pc none m = .ok cell m' → cell.rank = rank := by
  refine ⟨fun l t l' h => (gives_expression w).result h, ?_⟩
  intro s t rank hterm hrank m m' code pc fuel cell later hs hcode hplaced hrun
  have env (w' : Workspace) (later : w.Later w') : Trusted (fun _ => True) w w' :=
    ⟨fun _ _ => trivial, later, honest⟩
  have hvalue : Ensures (fun _ => True) (·.rank = rank)
      (t.expr.evaluate m.workspace t.type none) := by
    rw [Expr.evaluate, (hterm.realizes (env m.workspace later)).realized.meaning]
    refine (s.ensures_rank later hs rank ?_).bind fun _ => Meaning.ensures_rank
    rw [← hterm.rank_eq (env w (.refl w)), hrank]
  have hfollows := t.expr.computes m.workspace t.type none code fuel pc m rfl hcode hplaced
  rw [hrun] at hfollows
  cases hresult : t.expr.evaluate m.workspace t.type none m.host with
  | ok c host =>
    rw [hresult] at hfollows
    cases hfollows with
    | value h => exact h.1 ▸ hvalue.of_ok hresult
  | error f host =>
    rw [hresult] at hfollows
    cases hfollows

/-- All elements of a vector but the first one. -/
theorem Term.static_rank_section :
    let s : Term := .slice ⟨0, 0⟩ .integer [.range (some (.literal (.integer 2))) none none]
    let e : Expr := .slice ⟨0, 0⟩ [.range (some (.const (.integer 2))) none none]
    Elaborates .listed s ⟨e, .integer, some 1⟩ ∧
      ∃ cell m', Evaluate.expression (e.code .integer).toArray 10 0 none .listed = .ok cell m' ∧
        cell.rank = 1 := by
  intro s e
  have htwo : IsInteger .listed (.literal (.integer 2)) (.const (.integer 2)) :=
    .intro (.literal (.integer 2)) (rfl : Parse.convert _ .integer ⟨0, 0⟩ = .ok _)
  obtain ⟨cell, hcell, htype⟩ : ∃ cell, Workspace.listed.memory.value ⟨0, 0⟩ = .ok cell ∧
      cell.type = .integer := ⟨_, rfl, rfl⟩
  have hterm := Elaborates.slice hcell (.range (.some htwo) .none .none .nil) (by decide)
  rw [htype] at hterm
  obtain ⟨value, hvalue⟩ := Option.isSome_iff_exists.1 (by decide +kernel :
    (returned? (Evaluate.expression (e.code .integer).toArray 10 0 none .listed)).isSome)
  obtain ⟨m', hrun⟩ := exists_of_returned? hvalue
  have hnone : Workspace.listed.functions = #[] := by rfl
  exact ⟨hterm, value, m', hrun, (static_rank (by simp [hnone])).2 s _ 1 hterm rfl .listed m' _ 0 10
    value (.refl _) (by rw [Settled]; trivial) (by decide +kernel) (placed_toArray _) hrun⟩

/-- A vector that is cast to no extents counts as a single value. -/
theorem Term.cast_keeps_rank :
    ∃ t l' cell m', Parse.expression .listed (.ofText "li\x7b\x7d" 8) = .ok t l' ∧ t.rank = some 0 ∧
      Evaluate.expression (t.expr.code t.type).toArray 10 0 none .listed = .ok cell m' ∧
      cell.rank = 1 := by
  have hranks : ((returned? (Parse.expression .listed (.ofText "li\x7b\x7d" 8))).bind fun t =>
      (returned? (Evaluate.expression (t.expr.code t.type).toArray 10 0 none .listed)).map
        fun cell => (t.rank, cell.rank)) = some (some 0, 1) := by decide +kernel
  obtain ⟨t, hread, hcell⟩ := Option.bind_eq_some_iff.1 hranks
  obtain ⟨cell, hrun, hboth⟩ := Option.map_eq_some_iff.1 hcell
  obtain ⟨l', hread⟩ := exists_of_returned? hread
  obtain ⟨m', hrun⟩ := exists_of_returned? hrun
  obtain ⟨hstatic, hrank⟩ := Prod.mk.inj hboth
  exact ⟨t, l', cell, m', hread, hstatic, hrun, hrank⟩

end ArrayCommand
