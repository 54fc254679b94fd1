/-
The common shape of operands.

Operands are taken together one after another, and what has been found so far is kept as a list of
extents.  An extent of one fits every other one, so an axis keeps the first extent that is not one,
and every later operand must have the same one there.  What comes out is described without an order:
its rank is the highest one, and on each axis it has the extent that some operand has there, or one.

The number of elements is checked from the first axis on.  A shape is refused as soon as the product of
its first extents is no word, even if a later extent is zero and the shape has no elements.

Main definitions:

* `Evaluate.Clash` — two operands with different extents on an axis, neither of which is one;
* `Evaluate.Common` — the extents that operands have in common.

Main results:

* `Evaluate.meetAll_cases` — two operands taken together;
* `Evaluate.commonDims_cases` — all of them, one after another;
* `Evaluate.common_unique` — operands have their extents in common in one way only;
* `View.offset_whole_lt` — an operand has an element for every index of the common shape;
* `Evaluate.domain_spec` — **the common shape does not depend on the order of operands.**
-/

import ArrayCommand.Proofs.Sections

namespace ArrayCommand

namespace Evaluate

/-! ### Extents in common -/

/-- Two operands have different extents on an axis that both have, and neither extent is one. -/
def Clash (shapes : List Shape) : Prop :=
  ∃ s ∈ shapes, ∃ t ∈ shapes, ∃ axis, axis < s.rank ∧ axis < t.rank ∧
    s.extent axis ≠ t.extent axis ∧ s.extent axis ≠ 1 ∧ t.extent axis ≠ 1

/-- The extents that operands have in common: as many as the highest rank, and on each axis the extent
of every operand whose extent is not one, or one if there is no such operand. -/
structure Common (shapes : List Shape) (dims : List Nat) : Prop where
  rank_le : ∀ s ∈ shapes, s.rank ≤ dims.length
  rank_mem : dims.length = 0 ∨ ∃ s ∈ shapes, s.rank = dims.length
  extent_eq : ∀ s ∈ shapes, ∀ axis, s.extent axis = 1 ∨ s.extent axis = dims.getD axis 1
  extent_mem : ∀ axis, dims.getD axis 1 = 1 ∨ ∃ s ∈ shapes, s.extent axis = dims.getD axis 1

variable {shapes done rest other : List Shape} {s : Shape} {dims dims' have' : List Nat} {axis : Nat}

theorem lt_length_of_getD_ne (h : dims.getD axis 1 ≠ 1) : axis < dims.length := by
  by_contra hle
  exact h (by rw [List.getD_eq_getElem?_getD, List.getElem?_eq_none (Nat.le_of_not_lt hle)]; rfl)

theorem Common.not_clash (h : Common shapes dims) : ¬Clash shapes := by
  rintro ⟨s, hs, t, ht, axis, -, -, hne, hs₁, ht₁⟩
  have hsame := (h.extent_eq s hs axis).resolve_left hs₁
  exact hne (hsame.trans ((h.extent_eq t ht axis).resolve_left ht₁).symm)

theorem common_unique (h : Common shapes dims) (h' : Common shapes dims') : dims = dims' := by
  have hlength {dims dims' : List Nat} (h : Common shapes dims) (h' : Common shapes dims') :
      dims.length ≤ dims'.length := by
    obtain hzero | ⟨s, hs, hrank⟩ := h.rank_mem
    · omega
    · exact hrank ▸ h'.rank_le s hs
  have hextent (axis : Nat) : dims.getD axis 1 = dims'.getD axis 1 := by
    obtain hone | ⟨s, hs, hsame⟩ := h.extent_mem axis
    · obtain hone' | ⟨s', hs', hsame'⟩ := h'.extent_mem axis
      · rw [hone, hone']
      · have := h.extent_eq s' hs' axis
        omega
    · obtain hone' | ⟨s', hs', hsame'⟩ := h'.extent_mem axis
      · have := h'.extent_eq s hs axis
        omega
      · have := h.extent_eq s' hs' axis
        have := h'.extent_eq s hs axis
        omega
  refine List.ext_getElem (Nat.le_antisymm (hlength h h') (hlength h' h)) fun axis hlt hlt' => ?_
  simpa [hlt, hlt'] using hextent axis

/-! ### Two operands -/

/-- The extents of two operands agree if on each axis they are the same or one of them is one. -/
def Agree (dims dims' : List Nat) : Prop :=
  ∀ axis, dims'.getD axis 1 = 1 ∨ dims'.getD axis 1 = dims.getD axis 1 ∨ dims.getD axis 1 = 1

/-- Two operands are taken together if they agree: an extent of one gives way to the other one. -/
theorem meetAll_cases (axis : Nat) (have' dims : List Nat) :
    (Agree have' dims ∧ ∃ both, meetAll axis have' dims = .ok both ∧
      both.length = max have'.length dims.length ∧
      ∀ k, both.getD k 1 = if dims.getD k 1 = 1 then have'.getD k 1 else dims.getD k 1) ∨
    (¬Agree have' dims ∧ ∃ f, meetAll axis have' dims = .error f ∧ f.cause = .shapeMismatch) := by
  fun_induction meetAll axis have' dims with
  | case1 axis dims =>
    refine .inl ⟨fun k => .inr (.inr rfl), dims, rfl, by simp, fun k => ?_⟩
    split
    case isTrue h => exact h
    case isFalse => rfl
  | case2 axis have' => exact .inl ⟨fun k => .inl rfl, have', rfl, by simp, fun k => rfl⟩
  | case3 axis h have' d dims ih =>
    have hagree : Agree (h :: have') (d :: dims) ↔ (d = 1 ∨ d = h ∨ h = 1) ∧ Agree have' dims :=
      ⟨fun hall => ⟨hall 0, fun k => hall (k + 1)⟩, fun hall k => by
        cases k with
        | zero => exact hall.1
        | succ k => exact hall.2 k⟩
    have hmeet : (d = 1 ∨ d = h ∨ h = 1) ∧ meet axis h d = .ok (if d = 1 then h else d) ∨
        ¬(d = 1 ∨ d = h ∨ h = 1) ∧ ∃ f, meet axis h d = .error f ∧ f.cause = .shapeMismatch := by
      unfold meet
      by_cases hfirst : d = 1 ∨ d = h
      · refine .inl ⟨by omega, ?_⟩
        rw [if_pos hfirst]
        split <;> simp_all
      · rw [if_neg hfirst]
        by_cases hone : h = 1
        · exact .inl ⟨.inr (.inr hone), by rw [if_pos hone, if_neg (by omega)]⟩
        · rw [if_neg hone]
          exact .inr ⟨by omega, _, rfl, rfl⟩
    rw [hagree]
    obtain ⟨hfirst, hok⟩ | ⟨hfirst, f, herror, hcause⟩ := hmeet
    · rw [hok]
      obtain ⟨hrest, both, hboth, hlength, hextent⟩ | ⟨hrest, f, herror, hcause⟩ := ih
      · refine .inl ⟨⟨hfirst, hrest⟩, (if d = 1 then h else d) :: both, ?_, ?_, fun k => ?_⟩
        · rw [hboth]
          rfl
        · simp only [List.length_cons, hlength]
          omega
        · cases k with
          | zero => rfl
          | succ k => exact hextent k
      · refine .inr ⟨fun hall => hrest hall.2, f, ?_, hcause⟩
        rw [herror]
        rfl
    · rw [herror]
      exact .inr ⟨fun hall => hfirst hall.1, f, rfl, hcause⟩

/-! ### All operands -/

theorem Common.append (h : Common done have') {both : List Nat}
    (hlength : both.length = max have'.length s.dims.length)
    (hextent : ∀ k, both.getD k 1 = if s.dims.getD k 1 = 1 then have'.getD k 1 else s.dims.getD k 1)
    (hagree : Agree have' s.dims) : Common (done ++ [s]) both where
  rank_le t ht := by
    obtain ht | rfl := by simpa using ht
    · have := h.rank_le t ht
      omega
    · change t.dims.length ≤ _
      omega
  rank_mem := by
    obtain hle | hle := Nat.le_total have'.length s.dims.length
    · exact .inr ⟨s, by simp, by rw [hlength, Nat.max_eq_right hle]; rfl⟩
    · rw [hlength, Nat.max_eq_left hle]
      exact h.rank_mem.imp_right fun ⟨t, ht, hrank⟩ => ⟨t, by simp [ht], hrank⟩
  extent_eq t ht axis := by
    rw [hextent axis]
    obtain ht | rfl := by simpa using ht
    · have hold := h.extent_eq t ht axis
      have := hagree axis
      split
      case isTrue => exact hold
      case isFalse => omega
    · change t.dims.getD axis 1 = 1 ∨ t.dims.getD axis 1 = _
      split
      case isTrue hone => exact .inl hone
      case isFalse => exact .inr rfl
  extent_mem axis := by
    rw [hextent axis]
    split
    case isTrue => exact (h.extent_mem axis).imp_right fun ⟨t, ht, hsame⟩ => ⟨t, by simp [ht], hsame⟩
    case isFalse => exact .inr ⟨s, by simp, rfl⟩

/-- An operand that does not agree with what others have in common clashes with one of them. -/
theorem Common.clash (h : Common done have') (hagree : ¬Agree have' s.dims) :
    Clash (done ++ s :: rest) := by
  simp only [Agree, not_forall, not_or] at hagree
  obtain ⟨axis, hs, hne, hhave⟩ := hagree
  obtain ⟨t, ht, hsame⟩ := (h.extent_mem axis).resolve_left hhave
  have htne : t.extent axis ≠ 1 := hsame ▸ hhave
  have htlt : axis < t.dims.length := lt_length_of_getD_ne htne
  exact ⟨s, by simp, t, by simp [ht], axis, lt_length_of_getD_ne hs, htlt, hsame ▸ hne, hs,
    htne⟩

/-- The operands have extents in common, or two of them clash.  The extents found so far are those of
the operands that have been taken in. -/
theorem commonDims_cases (h : Common done have') (rest : List Shape) :
    (∃ dims, commonDims have' rest = .ok dims ∧ Common (done ++ rest) dims) ∨
    ∃ f, commonDims have' rest = .error f ∧ f.cause = .shapeMismatch ∧ Clash (done ++ rest) := by
  induction rest generalizing done have' with
  | nil => exact .inl ⟨have', rfl, by simpa using h⟩
  | cons s rest ih =>
    rw [commonDims]
    obtain ⟨hagree, both, hboth, hlength, hextent⟩ | ⟨hagree, f, herror, hcause⟩ :=
      meetAll_cases 0 have' s.dims
    · have := ih (h.append hlength hextent hagree)
      rw [List.append_assoc, List.singleton_append] at this
      rwa [hboth]
    · rw [herror]
      exact .inr ⟨f, rfl, hcause, h.clash hagree⟩

theorem Common.nil : Common [] [] := ⟨by simp, .inl rfl, by simp, fun _ => .inl rfl⟩

theorem Common.domain_eq (h : Common shapes dims) : domain shapes = Shape.ofDims dims := by
  obtain ⟨dims', hdims, hcommon⟩ | ⟨f, -, -, hclash⟩ := commonDims_cases .nil shapes
  · cases common_unique h hcommon
    rw [domain, hdims]
    rfl
  · exact absurd hclash h.not_clash

theorem clash_or_common (shapes : List Shape) :
    (Clash shapes ∧ ∃ f, domain shapes = .error f ∧ f.cause = .shapeMismatch) ∨
    ∃ dims, Common shapes dims := by
  obtain ⟨dims, -, hcommon⟩ | ⟨f, herror, hcause, hclash⟩ := commonDims_cases .nil shapes
  · exact .inr ⟨dims, hcommon⟩
  · refine .inl ⟨hclash, f, ?_, hcause⟩
    rw [domain, herror]
    rfl

theorem Common.perm (h : Common shapes dims) (hperm : shapes.Perm other) : Common other dims where
  rank_le s hs := h.rank_le s (hperm.mem_iff.2 hs)
  rank_mem := h.rank_mem.imp_right fun ⟨s, hs, hrank⟩ => ⟨s, hperm.mem_iff.1 hs, hrank⟩
  extent_eq s hs := h.extent_eq s (hperm.mem_iff.2 hs)
  extent_mem axis :=
    (h.extent_mem axis).imp_right fun ⟨s, hs, hsame⟩ => ⟨s, hperm.mem_iff.1 hs, hsame⟩

end Evaluate

/-! ### Elements of an operand -/

theorem Shape.size_eq_extents (s : Shape) : s.size = [s.extent 0, s.extent 1, s.extent 2].prod := by
  obtain ⟨_ | ⟨a, _ | ⟨b, _ | ⟨c, _ | ⟨d, dims⟩⟩⟩⟩, hrank⟩ := s
  case cons.cons.cons.cons => exact absurd hrank (by simp [maxRank])
  all_goals simp [size_eq_prod, extent]

theorem View.offset_whole_lt {operand s : Shape} {index : Index} (hindex : index ∈ s.indices)
    (hfits : ∀ axis, operand.extent axis = 1 ∨ operand.extent axis = s.extent axis) :
    (View.whole operand).offset index < operand.size := by
  obtain ⟨hi, hj, hk⟩ := Shape.mem_indices.1 hindex
  -- along an axis of extent one the operand stays at its only subscript
  have halong (axis n : Nat) (hn : n < s.extent axis) : ∃ i, OnAxis (operand.extent axis) i ∧
      ∀ stride : Int, along (operand.extent axis) n stride = (i - 1) * stride := by
    by_cases hmore : 1 < operand.extent axis
    · have := (hfits axis).resolve_left (by omega)
      exact ⟨n + 1, ⟨by omega, by omega⟩, fun stride => by rw [along, if_pos hmore]; congr; omega⟩
    · have := hfits axis
      exact ⟨1, ⟨by omega, by omega⟩, fun stride => by rw [along, if_neg hmore]; simp⟩
  obtain ⟨i, hi, hfirst⟩ := halong 0 index.i hi
  obtain ⟨j, hj, hsecond⟩ := halong 1 index.j hj
  obtain ⟨k, hk, hthird⟩ := halong 2 index.k hk
  obtain ⟨hnonneg, hlt⟩ := columnMajor_bounds (.cons hi (.cons hj (.cons hk .nil)))
  rw [← Shape.size_eq_extents] at hlt
  have hoffset : (View.whole operand).offset index = Word.unsigned
      (columnMajor [operand.extent 0, operand.extent 1, operand.extent 2] [i, j, k]) := by
    unfold offset whole Shape.strides columnMajor
    rw [hfirst, hsecond, hthird]
    congr 1
    push_cast [columnMajor]
    linear_combination
  rw [hoffset, Word.unsigned]
  unfold wordSize
  omega

namespace Evaluate

variable {dims : List Nat}

/-- A shape is refused if the product of its first extents, up to some axis, is no word. -/
theorem checkedSize_isSome (dims : List Nat) {acc : Nat} (hacc : acc < wordSize) :
    (Shape.checkedSize acc dims).isSome ↔ ∀ n, acc * (dims.take n).prod < wordSize := by
  induction dims generalizing acc with
  | nil => simpa [Shape.checkedSize] using hacc
  | cons d dims ih =>
    rw [Shape.checkedSize]
    split
    case isTrue hlt =>
      rw [ih hlt]
      refine ⟨fun h n => ?_, fun h n => ?_⟩
      · cases n with
        | zero => simpa using hacc
        | succ n => simpa [mul_assoc] using h n
      · simpa [mul_assoc] using h (n + 1)
    case isFalse hlt => exact ⟨by simp, fun h => absurd (by simpa using h 1) hlt⟩

/-- Operands clash exactly if their common shape is refused for a mismatch.  Otherwise it has the
highest rank and on each axis the extent of the operands that have another one than one there; it is
refused only if the product of its first extents is no word.  The order of operands makes no
difference, and every operand has an element for each index. -/
theorem domain_spec (shapes : List Shape) :
    ((∃ f, domain shapes = .error f ∧ f.cause = .shapeMismatch) ↔ Clash shapes) ∧
    (¬Clash shapes → ∃ s : Shape, Common shapes s.dims ∧
      ((∀ n, (s.dims.take n).prod < wordSize) → domain shapes = .ok s) ∧
      (¬(∀ n, (s.dims.take n).prod < wordSize) →
        ∃ f, domain shapes = .error f ∧ f.cause = .overflow)) ∧
    (∀ other, shapes.Perm other → domain shapes = domain other ∨
      ∃ f f', domain shapes = .error f ∧ domain other = .error f' ∧ f.cause = f'.cause) ∧
    ∀ s, domain shapes = .ok s → ∀ operand ∈ shapes, ∀ index ∈ s.indices,
      (View.whole operand).offset index < operand.size := by
  have hofDims {dims : List Nat} (h : Common shapes dims) : ∃ s : Shape, s.dims = dims ∧
      domain shapes = if (Shape.checkedSize 1 dims).isSome then .ok s
        else .error (.because .overflow "ARRAY TOO LARGE") := by
    have hrank : dims.length ≤ maxRank := by
      obtain hzero | ⟨s, -, hrank⟩ := h.rank_mem
      · omega
      · exact hrank ▸ s.rank_le
    refine ⟨⟨dims, hrank⟩, rfl, ?_⟩
    rw [h.domain_eq, Shape.ofDims, dif_pos hrank]
    cases Shape.checkedSize 1 dims <;> rfl
  refine ⟨⟨?_, fun hclash => ?_⟩, fun hclash => ?_, fun other hperm => ?_, ?_⟩
  · rintro ⟨f, herror, hcause⟩
    obtain ⟨hclash, -⟩ | ⟨dims, hcommon⟩ := clash_or_common shapes
    · exact hclash
    · obtain ⟨s, -, hdomain⟩ := hofDims hcommon
      rw [hdomain] at herror
      split at herror
      · cases herror
      · cases herror
        cases hcause
  · obtain ⟨-, hmismatch⟩ | ⟨dims, hcommon⟩ := clash_or_common shapes
    · exact hmismatch
    · exact absurd hclash hcommon.not_clash
  · obtain ⟨hclash', -⟩ | ⟨dims, hcommon⟩ := clash_or_common shapes
    · exact absurd hclash' hclash
    · obtain ⟨s, rfl, hdomain⟩ := hofDims hcommon
      have hsome := checkedSize_isSome s.dims (by decide : 1 < wordSize)
      simp only [one_mul] at hsome
      rw [hdomain]
      exact ⟨s, hcommon, fun h => if_pos (hsome.2 h), fun h => ⟨_, if_neg (mt hsome.1 h), rfl⟩⟩
  · obtain ⟨hclash, f, herror, hcause⟩ | ⟨dims, hcommon⟩ := clash_or_common shapes
    · obtain ⟨-, f', herror', hcause'⟩ | ⟨dims, hcommon⟩ := clash_or_common other
      · exact .inr ⟨f, f', herror, herror', hcause.trans hcause'.symm⟩
      · exact absurd hclash (hcommon.perm hperm.symm).not_clash
    · exact .inl (hcommon.domain_eq.trans (hcommon.perm hperm).domain_eq.symm)
  · intro s hs operand hoperand index hindex
    obtain ⟨-, f, herror, -⟩ | ⟨dims, hcommon⟩ := clash_or_common shapes
    · rw [hs] at herror
      cases herror
    · rw [hcommon.domain_eq] at hs
      obtain ⟨rfl, -⟩ := Shape.ofDims_ok hs
      exact View.offset_whole_lt hindex (hcommon.extent_eq operand hoperand)

/-- Two operands without elements whose common shape has no elements either, and is refused. -/
theorem domain_refuses_empty :
    let a : Shape := ⟨[0x10000000000, 1, 0], by decide⟩
    let b : Shape := ⟨[1, 0x10000000000, 0], by decide⟩
    Shape.ofDims a.dims = .ok a ∧ Shape.ofDims b.dims = .ok b ∧ ¬Clash [a, b] ∧
      Common [a, b] [0x10000000000, 0x10000000000, 0] ∧
      [0x10000000000, 0x10000000000, 0].prod < wordSize ∧
      domain [a, b] = .error (.because .overflow "ARRAY TOO LARGE") := by
  intro a b
  obtain ⟨dims, hdims, hcommon⟩ | ⟨f, hdims, -⟩ := commonDims_cases .nil [a, b]
  · cases hdims
    exact ⟨rfl, rfl, hcommon.not_clash, hcommon, by decide, rfl⟩
  · cases hdims

end Evaluate

end ArrayCommand
