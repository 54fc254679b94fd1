/-
Sections and words.

The subscripts of a section are checked with numbers of any size, but positions are computed in
words.  In an array whose elements a signed word can count, every position in a section, every step
on the way to it and every part of the base fit.  The distance between neighbours may not: it is also
computed for an axis that selects one element or none, where no step is ever taken, and then the
interpreter crashes.

* `Selection.Fits` — the numbers along an axis fit;
* `Selection.fitting_iff` — only a step can keep a section from being made;
* `Evaluate.section_fits` — **what fits in every section, and which sections crash**;
* `Evaluate.step_overflows` — a distance that does not fit.
-/

import Mathlib.Algebra.BigOperators.Group.List.Lemmas
import Mathlib.Algebra.Order.BigOperators.GroupWithZero.List
import Mathlib.Algebra.Order.Ring.Abs
import Mathlib.Tactic.Linarith
import ArrayCommand.Proofs.Sections

namespace ArrayCommand

open Evaluate List

variable {ss : List Selection} {stride : Nat} {s : Selection} {counts index : List Nat}

namespace Selection

variable {dims : List Nat}

/-- The distance along a non-empty axis is a signed word if the number of elements is one. -/
theorem signed_stride {a : Nat} (hpos : ∀ d ∈ dims, 0 < d)
    (hsize : a * dims.prod < 0x8000000000000000) : Word.signed a = a := by
  have hle := Nat.le_mul_of_pos_right a (prod_pos hpos)
  exact Word.signed_of_bounds (by omega) (by omega)

theorem sectionBase_bounds (hinside : Forall₂ Inside dims ss) (hpos : ∀ d ∈ dims, 0 < d)
    {a : Nat} (hsize : a * dims.prod < 0x8000000000000000) (k : Nat) :
    0 ≤ sectionBase ((spans dims ss).take k) (stridesFrom a dims) ∧
      sectionBase ((spans dims ss).take k) (stridesFrom a dims) ≤ a * ((dims.prod : Int) - 1) := by
  induction hinside generalizing a k with
  | nil => simp [spans, sectionBase]
  | @cons d s dims ss hs _ ih =>
    have hstride := signed_stride hpos hsize
    obtain ⟨hd, hpos⟩ := forall_mem_cons.1 hpos
    have ha : (0 : Int) ≤ a := Int.natCast_nonneg a
    rw [prod_cons, ← mul_assoc] at hsize
    cases k with
    | zero =>
      have hprod : 0 < (d :: dims).prod := prod_pos (forall_mem_cons.2 ⟨hd, hpos⟩)
      exact ⟨Int.le_refl 0, Int.mul_nonneg ha (by omega)⟩
    | succ k =>
      obtain ⟨hlow, hhigh⟩ := ih hpos hsize k
      simp only [spans, stridesFrom, take_succ_cons, sectionBase, prod_cons, hstride]
      push_cast at hhigh ⊢
      split
      case isTrue =>
        refine ⟨by omega, ?_⟩
        nlinarith
      case isFalse hcount =>
        obtain ⟨hfirst, hfirst'⟩ := (hs.ends hcount).1
        have hterm : 0 ≤ (s.first d - 1) * a := Int.mul_nonneg (by omega) ha
        dsimp only [span]
        refine ⟨by omega, ?_⟩
        nlinarith

/-- The axes of an array with their subscripts and the storage distances along them. -/
def axesFrom : Nat → List Nat → List Selection → List (Nat × Selection × Nat)
  | a, d :: dims, s :: ss => (d, s, a) :: axesFrom (a * d) dims ss
  | _, _, _ => []

theorem mem_axesFrom (hinside : Forall₂ Inside dims ss) (hpos : ∀ d ∈ dims, 0 < d)
    {a d : Nat} (ha : 0 < a) (h : (d, s, stride) ∈ axesFrom a dims ss) :
    s.Inside d ∧ 0 < stride ∧ stride * d ≤ a * dims.prod := by
  induction hinside generalizing a with
  | nil => cases h
  | @cons e r dims ss hr _ ih =>
    obtain ⟨he, hrest⟩ := forall_mem_cons.1 hpos
    rw [prod_cons, ← mul_assoc]
    obtain heq | h := mem_cons.1 h
    · cases heq
      exact ⟨hr, ha, Nat.le_mul_of_pos_right _ (prod_pos hrest)⟩
    · exact ih hrest (Nat.mul_pos ha he) h

end Selection

theorem Word.fits_of_abs {n : Int} (h : |n| < 0x8000000000000000) : Fits n := by
  rw [abs_lt] at h
  exact signed_of_bounds (by omega) (by omega)

theorem Below.nil (h : Below counts index) : Below counts [] := by
  induction counts generalizing index with
  | nil => exact nofun
  | cons count counts ih => exact ⟨Nat.zero_lt_of_lt h.1, ih h.2⟩

theorem Below.take (h : Below counts index) (k : Nat) : Below counts (index.take k) := by
  induction counts generalizing index k with
  | nil => exact fun n hn => h n (mem_of_mem_take hn)
  | cons count counts ih =>
    obtain _ | k := k
    · exact h.nil
    obtain _ | ⟨n, index⟩ := index
    · exact h
    · exact ⟨h.1, ih h.2 k⟩

namespace View

theorem distance_nil (kept : List (Nat × Int)) : distance kept [] = 0 := by
  induction kept with
  | nil => rfl
  | cons axis kept ih => simp [distance, along, ih]

/-- Steps along the first axes alone lead to the element whose other coordinates are zero. -/
theorem distance_take (kept : List (Nat × Int)) (index : List Nat) (k : Nat) :
    distance (kept.take k) index = distance kept (index.take k) := by
  induction kept generalizing index k with
  | nil => simp [distance]
  | cons axis kept ih =>
    obtain _ | k := k
    · exact (distance_nil _).symm
    obtain _ | ⟨n, index⟩ := index
    · rw [distance_nil, take_nil, distance_nil]
    · exact congrArg _ (ih index k)

end View

/-- The numbers along an axis: the first subscript, its distance, and for an axis with more than one
element the step and the distances of all of its elements from the first one. -/
structure Selection.Fits (extent : Nat) (s : Selection) (stride : Nat) : Prop where
  first : (s.span extent).count ≠ 0 →
    Word.Fits (s.first extent - 1) ∧ Word.Fits ((s.first extent - 1) * stride)
  step : 1 < (s.span extent).count → Word.Fits (s.step * stride) ∧
    ∀ n, n < (s.span extent).count → Word.Fits (n * (s.step * stride))

theorem Selection.Inside.fits {extent : Nat} (h : s.Inside extent) (hstride : 0 < stride)
    (hsize : stride * extent < 0x8000000000000000) : s.Fits extent stride := by
  have hmul {x : Int} (hx : 0 ≤ x) (hle : x ≤ extent - 1) :
      0 ≤ x * stride ∧ x ≤ x * stride ∧ x * stride < 0x8000000000000000 := by
    have hlt := Int.mul_le_mul_of_nonneg_right hle (Int.natCast_nonneg stride)
    have hself := le_mul_of_one_le_right hx (b := (stride : Int)) (by omega)
    rw [sub_mul, one_mul] at hlt
    have hall : (extent : Int) * stride < 0x8000000000000000 := by
      rw [mul_comm]
      exact_mod_cast hsize
    omega
  refine ⟨fun hcount => ?_, fun hcount => ?_⟩
  · obtain ⟨hfirst, hfirst'⟩ := (h.ends hcount).1
    obtain ⟨hlow, hself, hhigh⟩ := hmul (x := s.first extent - 1) (by omega) (by omega)
    exact ⟨Word.signed_of_bounds (by omega) (by omega), Word.signed_of_bounds (by omega) (by omega)⟩
  · have hreach := h.reach (by omega)
    have hall (n : Nat) (hn : n < (s.span extent).count) : Word.Fits (n * (s.step * stride)) := by
      have hle : (n : Int) * |s.step| ≤ extent - 1 :=
        (Int.mul_le_mul_of_nonneg_right (by omega) (abs_nonneg _)).trans hreach
      refine Word.fits_of_abs ?_
      rw [← mul_assoc, abs_mul, abs_mul, Nat.abs_cast, Nat.abs_cast]
      exact (hmul (Int.mul_nonneg (Int.natCast_nonneg n) (abs_nonneg _)) hle).2.2
    exact ⟨by simpa using hall 1 hcount, hall⟩

/-- The first elements lead to an element of the array, so that only the step of an axis that is kept
can be too large. -/
theorem Selection.fitting_iff {dims : List Nat} (hinside : Forall₂ Inside dims ss)
    (hpos : ∀ d ∈ dims, 0 < d) {a : Nat} (hsize : a * dims.prod < 0x8000000000000000) {base : Int}
    (hlow : 0 ≤ base) (hhigh : base < a) : Fitting a base dims ss ↔
      ∀ d s stride, (d, s, stride) ∈ axesFrom a dims ss → s.axis ≠ .at →
        Word.Fits (s.step * stride) := by
  induction hinside generalizing a base with
  | nil => exact ⟨fun _ _ _ _ hmem => (not_mem_nil hmem).elim, fun _ => .nil⟩
  | @cons d s dims ss hs _ ih =>
    have hstride := signed_stride hpos hsize
    obtain ⟨hd, hpos⟩ := forall_mem_cons.1 hpos
    rw [prod_cons, ← mul_assoc] at hsize
    have hpart (hcount : (s.span d).count ≠ 0) : 0 ≤ (s.first d - 1) * a ∧
        base + (s.first d - 1) * a < ((a * d : Nat) : Int) := by
      obtain ⟨hfirst, hfirst'⟩ := (hs.ends hcount).1
      have hle : (s.first d - 1) * (a : Int) ≤ (d - 1) * a :=
        Int.mul_le_mul_of_nonneg_right (by omega) (Int.natCast_nonneg a)
      rw [sub_mul, one_mul] at hle
      exact ⟨Int.mul_nonneg (by omega) (Int.natCast_nonneg a), by push_cast; linarith⟩
    have htotal : ((a * d : Nat) : Int) < 0x8000000000000000 := by
      have := Nat.le_mul_of_pos_right (a * d) (prod_pos hpos)
      omega
    have hplace : s.Placeable d (Word.signed a) base ↔
        (s.axis ≠ .at → Word.Fits (s.step * a)) := by
      rw [hstride]
      refine ⟨Placeable.step, fun hstep => ⟨fun hcount => ?_, fun hcount => ?_, hstep⟩⟩
      · have := hpart hcount
        exact Word.signed_of_bounds (by omega) (by omega)
      · have := hpart hcount
        exact Word.signed_of_bounds (by omega) (by omega)
    have hreach : 0 ≤ s.reach d (Word.signed a) base ∧
        s.reach d (Word.signed a) base < ((a * d : Nat) : Int) := by
      rw [reach, hstride]
      split
      · have := Nat.le_mul_of_pos_right a hd
        omega
      · rename_i hcount
        have := hpart hcount
        omega
    have hrest := ih hpos hsize hreach.1 hreach.2
    constructor
    · rintro (_ | ⟨hs, hss⟩) d' s' stride hmem
      obtain heq | hmem := mem_cons.1 hmem
      · cases heq
        exact hplace.1 hs
      · exact hrest.1 hss d' s' stride hmem
    · intro hall
      refine .cons (hplace.2 (hall d s a mem_cons_self)) (hrest.2 fun d' s' stride hmem => ?_)
      exact hall d' s' stride (mem_cons_of_mem _ hmem)

namespace Evaluate

variable {sub : Sub} {code : Array Node} {m m' : Machine} {pc pc' : Nat} {shape : Shape}

/-- In a section of an array that is not empty the base, with each of its parts, and the position of
every element, with each step on the way to it, fit a signed word.  So do the distances between
neighbours on every axis with more than one element.  The section crashes exactly if the distance on
an axis that is kept and selects one element or none does not fit. -/
theorem section_fits (h : Supplied sub code m pc ss m' pc') {dims : List Nat}
    (hshape : Shape.ofDims dims = .ok shape) (hempty : 0 < shape.size)
    (hsize : shape.size < 0x8000000000000000)
    (hrefused : ¬(ss.length ≠ shape.rank ∨ ∃ d s, (d, s) ∈ shape.dims.zip ss ∧ s.Refused d)) :
    let result := sectionWith sub code pc shape (ss.map Selection.axis) m
    (∀ d s stride, (d, s, stride) ∈ Selection.axesFrom 1 shape.dims ss → s.Fits d stride) ∧
    (∀ k, Word.Fits (sectionBase ((Selection.spans shape.dims ss).take k) (stridesFrom 1 shape.dims))) ∧
    ((∃ m₁, result = .error (.fault (.because .crash "")) m₁) ↔
      ∃ d s stride, (d, s, stride) ∈ Selection.axesFrom 1 shape.dims ss ∧ s.axis ≠ .at ∧
        (s.span d).count ≤ 1 ∧ ¬Word.Fits (s.step * stride)) ∧
    ∀ view pc₁ m₁, result = .ok (view, pc₁) m₁ →
      view = Selection.view shape.dims ss view.shape ∧
      ∀ index ∈ view.shape.indices, ∀ k,
        Word.Fits (view.base + View.distance ((Selection.kept shape.dims ss).take k) index.coordinates) := by
  obtain ⟨rfl, hchecked, hword⟩ := Shape.ofDims_ok hshape
  rw [Shape.size_eq_prod] at hempty hsize hword
  rw [show shape.rank = shape.dims.length from rfl, ← not_inside_iff, not_not] at hrefused
  have hpos : ∀ d ∈ shape.dims, 0 < d := fun d hd => Nat.pos_of_dvd_of_pos (List.dvd_prod hd) hempty
  have hsize' : 1 * shape.dims.prod < 0x8000000000000000 := by omega
  have haxes : ∀ d s stride, (d, s, stride) ∈ Selection.axesFrom 1 shape.dims ss →
      s.Fits d stride := by
    intro d s stride hmem
    obtain ⟨hs, hstride, hle⟩ := Selection.mem_axesFrom hrefused hpos Nat.one_pos hmem
    exact hs.fits hstride (by omega)
  have hfitting : Selection.Fitting 1 0 shape.dims ss ↔ _ :=
    Selection.fitting_iff hrefused hpos hsize' (Int.le_refl 0) Int.one_pos
  refine ⟨haxes, fun k => ?_, ?_, ?_⟩
  · obtain ⟨hlow, hhigh⟩ := Selection.sectionBase_bounds hrefused hpos hsize' k
    exact Word.signed_of_bounds (by omega) (by omega)
  · constructor
    · rintro ⟨m₁, hcrash⟩
      by_contra hnone
      have hfits : Selection.Fitting 1 0 shape.dims ss := by
        refine hfitting.2 fun d s stride hmem haxis => ?_
        by_contra hstep
        refine hnone ⟨d, s, stride, hmem, haxis, not_lt.1 fun hcount => ?_, hstep⟩
        exact hstep ((haxes d s stride hmem).step hcount).1
      obtain ⟨part, -, hok⟩ := sectionWith_ok h hchecked hrefused hfits
      rw [hok] at hcrash
      cases hcrash
    · rintro ⟨d, s, stride, hmem, haxis, -, hstep⟩
      exact sectionWith_crash h hrefused fun hfits => hstep (hfitting.1 hfits d s stride hmem haxis)
  · intro view pc₁ m₁ hview
    obtain ⟨-, part, hpart, rfl⟩ := eq_view_of_sectionWith h hchecked hview
    refine ⟨rfl, fun index hindex k => ?_⟩
    have hbelow := (hpart ▸ below_of_mem hindex : Below (Selection.counts shape.dims ss) _).take k
    obtain ⟨hlow, hhigh⟩ := columnMajor_bounds (Selection.named_inside hrefused hbelow)
    have hposition := Selection.position hrefused hbelow hchecked
    rw [Nat.cast_one, one_mul] at hposition
    rw [View.distance_take]
    change Word.Fits (sectionBase _ _ + View.distance (keptAxes _ _ _) _)
    rw [hposition]
    exact Word.signed_of_bounds (by omega) (by omega)

/-- A column that is read backwards, `3:1:-1`, of an array of three rows. -/
theorem section_fits_backwards :
    let code := numberNodes [3, 1, -1, 2]
    let ss : List Selection := [.range (some 3) (some 1) (some (-1)), .at 2]
    let view : View := ⟨5, .vector 3, (-1, 0, 0)⟩
    Supplied (expression code 4) code blank 0 ss blank 8 ∧
      Shape.ofDims [3, 4] = .ok ⟨[3, 4], by decide⟩ ∧
      sectionWith (expression code 4) code 0 ⟨[3, 4], by decide⟩ (ss.map Selection.axis) blank =
        .ok (view, 8) blank ∧
      ∀ index ∈ view.shape.indices, ∀ k,
        Word.Fits (5 + View.distance ((Selection.kept [3, 4] ss).take k) index.coordinates) := by
  intro code ss view
  have hsupplied : Supplied (expression code 4) code blank 0 ss blank 8 :=
    .cons rfl (.cons rfl (.nil blank 8))
  have hshape : Shape.ofDims [3, 4] = .ok ⟨[3, 4], by decide⟩ := rfl
  have hview : sectionWith (expression code 4) code 0 ⟨[3, 4], by decide⟩ (ss.map Selection.axis)
      blank = .ok (view, 8) blank := rfl
  have hinside : List.Forall₂ Selection.Inside [3, 4] ss := by decide +zetaReduce
  have hfits := section_fits hsupplied hshape (by decide) (by decide) fun h =>
    not_inside_iff.2 h hinside
  exact ⟨hsupplied, hshape, hview, (hfits.2.2.2 view 8 blank hview).2⟩

/-- The step of an axis with one element may be any: `1, 1:1:9223372036854775807` in an array of two
rows is not refused, and it crashes. -/
theorem step_overflows :
    let code := numberNodes [1, 1, 1, 9223372036854775807]
    let ss : List Selection := [.at 1, .range (some 1) (some 1) (some 9223372036854775807)]
    Supplied (expression code 4) code blank 0 ss blank 8 ∧
      Shape.ofDims [2, 2] = .ok ⟨[2, 2], by decide⟩ ∧
      List.Forall₂ Selection.Inside [2, 2] ss ∧
      sectionWith (expression code 4) code 0 ⟨[2, 2], by decide⟩ (ss.map Selection.axis) blank =
        .error (.fault (.because .crash "")) blank ∧
      ¬Word.Fits (9223372036854775807 * 2) := by
  exact ⟨.cons rfl (.cons rfl (.nil blank 8)), rfl, by decide, rfl, by decide⟩

end Evaluate

end ArrayCommand
