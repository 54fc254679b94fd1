/-
Sections of arrays.

A section gives a subscript for every axis: a single one, all of them, or a range whose bounds may be
missing.  Here the values of the subscripts are known, and the section that the machine makes of them
is compared with what they name: which subscripts each axis selects, how many there are, and which
element of the array stands at an index of the section.

* `Selection` — a subscript with its values; `Selection.Selects` — what it selects;
* `Selection.Refused` — a subscript that a section must not have;
* `columnMajor` — the position of an element in storage;
* `Selection.named`, `Evaluate.Extents` — the subscripts of the element at an index of a section, and
  the extents of a section;
* `Evaluate.Supplied` — the subscripts of all axes are read;
* `Evaluate.section_addresses` — **a section addresses exactly the elements that it names.**
-/

import Mathlib.Algebra.Order.BigOperators.Group.List
import Mathlib.Tactic.LinearCombination
import ArrayCommand.Proofs.Tracking

namespace ArrayCommand

open List Shape

open Evaluate (AxisRange axisRange)

variable {n acc pc pc' : Nat} {ss : List Selection} {index : Index} {code : Array Node}
  {m m' : Machine} {shape : Shape}
variable {dims : List Nat} {subscripts : List Int}

/-! ### Rounds -/

/-- The rounds of a range are numbered from zero, and each one has a value that does not go beyond
the end. -/
theorem lt_rounds {first last step : Int} : n < rounds first last step ↔
    0 < step ∧ first + n * step ≤ last ∨ step < 0 ∧ last ≤ first + n * step := by
  have hn : (0 : Int) ≤ n := Int.natCast_nonneg n
  unfold rounds
  obtain hstep | rfl | hstep := Int.lt_trichotomy 0 step
  · have hmul : 0 ≤ n * step := Int.mul_nonneg hn hstep.le
    by_cases hle : first ≤ last
    · have hdiv : (n : Int) ≤ (last - first) / step ↔ n * step ≤ last - first :=
        Int.le_ediv_iff_mul_le hstep
      rw [if_pos (.inl ⟨hstep, hle⟩), Int.tdiv_eq_ediv_of_nonneg (Int.sub_nonneg.2 hle)]
      omega
    · rw [if_neg (by omega)]
      omega
  · simp
  · have hmul : n * step ≤ 0 := Int.mul_nonpos_of_nonneg_of_nonpos hn hstep.le
    by_cases hle : last ≤ first
    · have hdiv : (n : Int) ≤ (first - last) / (-step) ↔ n * (-step) ≤ first - last :=
        Int.le_ediv_iff_mul_le (Int.neg_pos.2 hstep)
      have htdiv : Int.tdiv (last - first) step = (first - last) / (-step) := by
        rw [← Int.neg_tdiv_neg, Int.neg_sub, Int.tdiv_eq_ediv_of_nonneg (Int.sub_nonneg.2 hle)]
      rw [Int.mul_neg] at hdiv
      rw [if_pos (.inr ⟨hstep, hle⟩), htdiv]
      omega
    · rw [if_neg (by omega)]
      omega

/-! ### Subscripts -/

def OnAxis (extent : Nat) (i : Int) : Prop := 1 ≤ i ∧ i ≤ extent

instance (extent : Nat) (i : Int) : Decidable (OnAxis extent i) :=
  inferInstanceAs (Decidable (_ ∧ _))

/-- A subscript whose expressions have their values. -/
inductive Selection where
  | all
  | at (i : Int)
  | range (first last step : Option Int)

namespace Selection

def axis : Selection → Axis
  | all => .all
  | «at» _ => .at
  | range first last step => .range first.isSome last.isSome step.isSome

def step : Selection → Int
  | range _ _ step => step.getD 1
  | _ => 1

/-- The subscript that a selection starts with.  If it is not given, it is the end of the axis that
the step leads away from. -/
def first (extent : Nat) : Selection → Int
  | all => 1
  | «at» i => i
  | range first _ step => first.getD (if 0 < step.getD 1 then 1 else extent)

/-- The subscript that a selection does not go beyond. -/
def last (extent : Nat) : Selection → Int
  | all => extent
  | «at» i => i
  | range _ last step => last.getD (if 0 < step.getD 1 then extent else 1)

/-- The subscripts in the order of selection, counted from zero. -/
def nth (extent : Nat) (s : Selection) (n : Nat) : Int := s.first extent + n * s.step

/-- Whether there is such a subscript: the ones before it and it do not go beyond the last. -/
def Selects (extent : Nat) (s : Selection) (n : Nat) : Prop :=
  0 < s.step ∧ s.nth extent n ≤ s.last extent ∨ s.step < 0 ∧ s.last extent ≤ s.nth extent n

/-- A step of zero, or a selection whose first or last subscript is outside of the axis. -/
def Refused (extent : Nat) (s : Selection) : Prop :=
  s.step = 0 ∨ ∃ n, s.Selects extent n ∧ (n = 0 ∨ ¬s.Selects extent (n + 1)) ∧
    ¬OnAxis extent (s.nth extent n)

/-- The range that the machine makes of a subscript. -/
def span (extent : Nat) (s : Selection) : AxisRange :=
  ⟨s.first extent, rounds (s.first extent) (s.last extent) s.step, s.step⟩

def span? (axis extent : Nat) (s : Selection) : Except Fault AxisRange :=
  if s.step = 0 then .error (.because .domainError "ZERO STEP")
  else axisRange axis extent (s.first extent) (s.last extent) s.step

variable {extent : Nat} {s : Selection}

theorem lt_count : n < (s.span extent).count ↔ s.Selects extent n := lt_rounds

/-- A subscript that is not refused has a step and selects inside of the axis. -/
structure Inside (extent : Nat) (s : Selection) : Prop where
  step_ne : s.step ≠ 0
  bounds : ∀ n, n < (s.span extent).count → OnAxis extent (s.nth extent n)

instance : Decidable (s.Inside extent) :=
  decidable_of_iff (s.step ≠ 0 ∧ ∀ n, n < (s.span extent).count → OnAxis extent (s.nth extent n))
    ⟨fun ⟨hstep, hbounds⟩ => ⟨hstep, hbounds⟩, fun h => ⟨h.step_ne, h.bounds⟩⟩

def final (extent : Nat) (s : Selection) : Int := s.nth extent ((s.span extent).count - 1)

theorem inside_of_ends (hstep : s.step ≠ 0) (hends : (s.span extent).count ≠ 0 →
    OnAxis extent (s.first extent) ∧ OnAxis extent (s.final extent)) : s.Inside extent := by
  refine ⟨hstep, fun n hn => ?_⟩
  unfold final nth OnAxis at *
  have hle : (n : Int) ≤ ((s.span extent).count - 1 : Nat) := by omega
  obtain hpos | hneg := Int.lt_or_gt_of_ne hstep.symm
  · have hlow := Int.mul_nonneg (Int.natCast_nonneg n) hpos.le
    have hhigh := Int.mul_le_mul_of_nonneg_right hle hpos.le
    omega
  · have hlow := Int.mul_nonpos_of_nonneg_of_nonpos (Int.natCast_nonneg n) hneg.le
    have hhigh := Int.mul_le_mul_of_nonpos_right hle hneg.le
    omega

@[simp] theorem nth_zero : s.nth extent 0 = s.first extent := by simp [nth]

theorem Inside.ends (h : s.Inside extent) (hcount : (s.span extent).count ≠ 0) :
    OnAxis extent (s.first extent) ∧ OnAxis extent (s.final extent) :=
  ⟨nth_zero ▸ h.bounds 0 (by omega), h.bounds _ (by omega)⟩

theorem inside_iff : s.Inside extent ↔ ¬s.Refused extent := by
  constructor
  · rintro h (hstep | ⟨n, hn, -, hout⟩)
    · exact h.step_ne hstep
    · exact hout (h.bounds n (lt_count.2 hn))
  · intro h
    rw [Refused, not_or, not_exists] at h
    refine inside_of_ends h.1 fun hcount => ⟨?_, ?_⟩
    · by_contra hout
      exact h.2 0 ⟨lt_count.1 (by omega), .inl rfl, by rwa [nth_zero]⟩
    · by_contra hout
      refine h.2 ((s.span extent).count - 1) ⟨lt_count.1 (by omega), .inr ?_, hout⟩
      rw [← lt_count]
      omega

/-- The machine refuses what is refused, and nothing else. -/
theorem span?_eq_ok_iff {axis : Nat} {r : AxisRange} :
    s.span? axis extent = .ok r ↔ s.Inside extent ∧ r = s.span extent := by
  have hfinal (hcount : (s.span extent).count ≠ 0) :
      s.first extent + (((s.span extent).count : Int) - 1) * s.step = s.final extent := by
    rw [final, nth, Nat.cast_sub (by omega), Nat.cast_one]
  unfold span?
  by_cases hstep : s.step = 0
  · rw [if_pos hstep]
    exact ⟨nofun, fun h => absurd hstep h.1.step_ne⟩
  have hcheck : ((s.span extent).count = 0 ∨ Evaluate.inside extent (s.first extent) ∧
      Evaluate.inside extent (s.first extent + (((s.span extent).count : Int) - 1) * s.step)) ↔
      s.Inside extent := by
    constructor
    · intro h
      refine inside_of_ends hstep fun hcount => ?_
      rw [hfinal hcount] at h
      simpa [Evaluate.inside, OnAxis] using h.resolve_left hcount
    · intro h
      refine or_iff_not_imp_left.2 fun hcount => ?_
      rw [hfinal hcount]
      simpa [Evaluate.inside, OnAxis] using h.ends hcount
  rw [if_neg hstep, axisRange]
  split
  case isTrue h => exact ⟨fun hr => ⟨hcheck.1 h, (Except.ok.inj hr).symm⟩, fun hr => by rw [hr.2]; rfl⟩
  case isFalse h => exact ⟨nofun, fun hr => absurd (hcheck.2 hr.1) h⟩

theorem Inside.reach (h : s.Inside extent) (hcount : (s.span extent).count ≠ 0) :
    (((s.span extent).count : Int) - 1) * |s.step| ≤ extent - 1 := by
  obtain ⟨hfirst, hfinal⟩ := h.ends hcount
  rw [final, nth, Nat.cast_sub (by omega), Nat.cast_one] at hfinal
  unfold OnAxis at hfirst hfinal
  obtain hpos | hneg := Int.lt_or_gt_of_ne h.step_ne.symm
  · rw [abs_of_pos hpos]
    omega
  · rw [abs_of_neg hneg, Int.mul_neg]
    omega

theorem Inside.count_le (h : s.Inside extent) : (s.span extent).count ≤ extent := by
  by_cases hcount : (s.span extent).count = 0
  · omega
  have hreach := h.reach hcount
  have hle : ((s.span extent).count : Int) - 1 ≤ ((s.span extent).count - 1) * |s.step| :=
    le_mul_of_one_le_right (by omega) (Int.one_le_abs h.step_ne)
  omega

/-! ### All axes -/

def spans : List Nat → List Selection → List AxisRange
  | d :: dims, s :: ss => s.span d :: spans dims ss
  | _, _ => []

/-- The numbers of subscripts on the axes that are kept. -/
def counts : List Nat → List Selection → List Nat
  | d :: dims, s :: ss =>
    if s.axis = .at then counts dims ss else (s.span d).count :: counts dims ss
  | _, _ => []

/-- The subscripts that name the element at an index of the section. -/
def named : List Nat → List Selection → List Nat → List Int
  | d :: dims, s :: ss, index =>
    if s.axis = .at then s.first d :: named dims ss index
    else s.nth d (index.headD 0) :: named dims ss index.tail
  | _, _, _ => []

end Selection

/-- The position of an element in storage: the subscript of the first axis varies fastest. -/
def columnMajor : List Nat → List Int → Int
  | d :: dims, i :: subscripts => i - 1 + d * columnMajor dims subscripts
  | _, _ => 0

/-- The storage distances along axes as signed words, from a distance on. -/
def stridesFrom : Nat → List Nat → List Int
  | _, [] => []
  | a, d :: dims => Word.signed a :: stridesFrom (a * d) dims

/-- A distance that is not a signed word belongs to an axis on which nothing is far away. -/
theorem mul_signed {a d : Nat} (h : a * d < wordSize) {x : Int} (hx : 1 < d ∨ x = 0) :
    x * Word.signed a = x * a := by
  obtain hd | rfl := hx
  · have hle : a * 2 ≤ a * d := Nat.mul_le_mul_left a hd
    unfold wordSize at h
    rw [Word.signed_of_bounds (by omega) (by omega)]
  · rw [zero_mul, zero_mul]

/-- An index with a coordinate for every axis, and nothing but zeros behind them. -/
def Below : List Nat → List Nat → Prop
  | [], index => ∀ n ∈ index, n = 0
  | count :: counts, index => index.headD 0 < count ∧ Below counts index.tail

/-- How far the element at an index is from the first one. -/
def View.distance : List (Nat × Int) → List Nat → Int
  | [], _ => 0
  | (count, step) :: kept, index => along count (index.headD 0) step + distance kept index.tail

namespace Selection

open Evaluate

variable {dims : List Nat} {index : List Nat}

theorem count_at {s : Selection} (h : s.axis = .at) (extent : Nat) : (s.span extent).count = 1 := by
  cases s <;> cases h
  simp [span, first, last, step, rounds]

theorem along_eq {count : Nat} (h : n < count) (step : Int) :
    View.along count n step = n * step := by
  unfold View.along
  split
  · rfl
  · obtain rfl : n = 0 := by omega
    simp

theorem position (hinside : Forall₂ Inside dims ss) (hindex : Below (counts dims ss) index)
    {a : Nat} (hsize : (checkedSize a dims).isSome) :
    sectionBase (spans dims ss) (stridesFrom a dims) +
      View.distance (keptAxes (ss.map axis) (spans dims ss) (stridesFrom a dims)) index =
    a * columnMajor dims (named dims ss index) := by
  induction hinside generalizing a index with
  | nil => simp [spans, sectionBase, keptAxes, View.distance, columnMajor]
  | @cons d s dims ss hs _ ih =>
    rw [checkedSize] at hsize
    split at hsize
    case isFalse => cases hsize
    case isTrue hlt =>
      have hfirst (hcount : (s.span d).count ≠ 0) :
          (s.first d - 1) * Word.signed a = (s.first d - 1) * a := by
        obtain ⟨hlow, hhigh⟩ := (hs.ends hcount).1
        exact mul_signed hlt (by omega)
      simp only [spans, stridesFrom, sectionBase, keptAxes, map_cons, named, counts] at hindex ⊢
      by_cases haxis : s.axis = .at
      · simp only [if_pos haxis] at hindex ⊢
        have hrest := ih hindex hsize
        have hcount : (s.span d).count ≠ 0 := by simp [count_at haxis]
        rw [Nat.cast_mul] at hrest
        rw [if_neg hcount, columnMajor]
        dsimp only [span]
        linear_combination hrest + hfirst hcount
      · simp only [if_neg haxis] at hindex ⊢
        obtain ⟨hn, hindex⟩ := hindex
        have hrest := ih hindex hsize
        have hcount := hs.count_le
        have hstep : (index.headD 0 : Int) * s.step * Word.signed a = index.headD 0 * s.step * a := by
          refine mul_signed hlt ?_
          obtain hzero | hpos := Nat.eq_zero_or_pos (index.headD 0)
          · exact .inr (by rw [hzero, Nat.cast_zero, zero_mul])
          · exact .inl (by omega)
        rw [Nat.cast_mul] at hrest
        rw [if_neg (by omega), columnMajor, View.distance, along_eq hn, nth]
        dsimp only [span]
        linear_combination hrest + hfirst (by omega) + hstep

theorem named_inside (hinside : Forall₂ Inside dims ss) (hindex : Below (counts dims ss) index) :
    Forall₂ OnAxis dims (named dims ss index) := by
  induction hinside generalizing index with
  | nil => exact .nil
  | @cons d s dims ss hs _ ih =>
    simp only [named, counts] at hindex ⊢
    by_cases haxis : s.axis = .at
    · simp only [if_pos haxis] at hindex ⊢
      exact .cons (hs.ends (by simp [count_at haxis])).1 (ih hindex)
    · simp only [if_neg haxis] at hindex ⊢
      exact .cons (hs.bounds _ hindex.1) (ih hindex.2)

theorem named_injective (hinside : Forall₂ Inside dims ss) {other : List Nat}
    (hindex : Below (counts dims ss) index) (hother : Below (counts dims ss) other)
    (hlength : index.length = other.length) (h : named dims ss index = named dims ss other) :
    index = other := by
  induction hinside generalizing index other with
  | nil =>
    refine ext_getElem hlength fun k hk hk' => ?_
    rw [hindex _ (getElem_mem hk), hother _ (getElem_mem hk')]
  | @cons d s dims ss hs _ ih =>
    simp only [named, counts] at h hindex hother
    by_cases haxis : s.axis = .at
    · simp only [if_pos haxis] at h hindex hother
      exact ih hindex hother hlength (cons.inj h).2
    · simp only [if_neg haxis] at h hindex hother
      obtain ⟨hhead, htail⟩ := cons.inj h
      have hrest := ih hindex.2 hother.2 (by simp [hlength]) htail
      have hfirst : index.headD 0 = other.headD 0 := by
        have := mul_right_cancel₀ hs.step_ne (add_left_cancel hhead)
        exact_mod_cast this
      cases index <;> cases other <;> simp_all

theorem length_counts_le (dims : List Nat) (ss : List Selection) :
    (counts dims ss).length ≤ dims.length := by
  fun_induction counts dims ss with
  | case1 d dims s ss haxis ih => exact Nat.le_succ_of_le ih
  | case2 d dims s ss haxis ih => exact Nat.succ_le_succ ih
  | case3 => exact Nat.zero_le _

theorem checkedSize_counts (hinside : Forall₂ Inside dims ss) {acc' : Nat} (hacc : acc' ≤ acc)
    (h : (checkedSize acc dims).isSome) : (checkedSize acc' (counts dims ss)).isSome := by
  induction hinside generalizing acc acc' with
  | nil => rfl
  | @cons d s dims ss hs _ ih =>
    rw [checkedSize] at h
    split at h
    case isFalse => cases h
    case isTrue hlt =>
      rw [counts]
      have hcount := hs.count_le
      split
      case isTrue haxis =>
        refine ih ?_ h
        rw [count_at haxis] at hcount
        exact hacc.trans (Nat.le_mul_of_pos_right acc hcount)
      case isFalse =>
        have hle := Nat.mul_le_mul hacc hcount
        rw [checkedSize, if_pos (hle.trans_lt hlt)]
        exact ih hle h

end Selection

theorem columnMajor_bounds (h : Forall₂ OnAxis dims subscripts) :
    0 ≤ columnMajor dims subscripts ∧ columnMajor dims subscripts < dims.prod := by
  induction h with
  | nil => simp [columnMajor]
  | @cons d i dims subscripts hi _ ih =>
    obtain ⟨hlow, hhigh⟩ := hi
    rw [columnMajor, prod_cons, Nat.cast_mul]
    have hd : (0 : Int) ≤ d := Int.natCast_nonneg d
    have hnonneg := Int.mul_nonneg hd ih.1
    have hle : (d : Int) * (columnMajor dims subscripts + 1) ≤ d * (dims.prod : Int) :=
      Int.mul_le_mul_of_nonneg_left ih.2 hd
    rw [mul_add, mul_one] at hle
    omega

theorem columnMajor_injective {others : List Int} (h : Forall₂ OnAxis dims subscripts)
    (hothers : Forall₂ OnAxis dims others)
    (heq : columnMajor dims subscripts = columnMajor dims others) : subscripts = others := by
  induction h generalizing others with
  | nil =>
    cases hothers
    rfl
  | @cons d i dims subscripts hi _ ih =>
    cases hothers with
    | @cons _ j _ others hj hothers =>
      obtain ⟨hi, hi'⟩ := hi
      obtain ⟨hj, hj'⟩ := hj
      rw [columnMajor, columnMajor] at heq
      -- The subscript of the first axis is the remainder by its extent.
      have hfirst : i - 1 = j - 1 := by
        have := congrArg (· % (d : Int)) heq
        simp only [Int.add_mul_emod_self_left] at this
        rwa [Int.emod_eq_of_lt (by omega) (by omega), Int.emod_eq_of_lt (by omega) (by omega)] at this
      rw [hfirst, add_right_inj] at heq
      have hrest := ih hothers (mul_left_cancel₀ (by omega) heq)
      rw [sub_left_inj.1 hfirst, hrest]

/-! ### Views -/

namespace Shape

variable {s : Shape}

theorem size_eq_prod (s : Shape) : s.size = s.dims.prod := prod_eq_foldl.symm

theorem checkedSize_eq_some {size : Nat} (hacc : acc < wordSize)
    (h : checkedSize acc dims = some size) : size = acc * dims.prod ∧ size < wordSize := by
  induction dims generalizing acc with
  | nil =>
    cases h
    exact ⟨by simp, hacc⟩
  | cons d dims ih =>
    rw [checkedSize] at h
    split at h
    case isTrue hlt =>
      rw [prod_cons, ← mul_assoc]
      exact ih hlt h
    case isFalse => cases h

theorem ofDims_ok (h : ofDims dims = .ok s) :
    s.dims = dims ∧ (checkedSize 1 dims).isSome ∧ s.size < wordSize := by
  unfold ofDims at h
  split at h
  case isFalse => cases h
  case isTrue =>
    split at h
    case h_2 => cases h
    case h_1 size hsize =>
      cases h
      have := checkedSize_eq_some (by decide) hsize
      rw [size_eq_prod]
      exact ⟨rfl, by simp [hsize], by simp only; omega⟩

theorem mem_indices : index ∈ s.indices ↔
    index.i < s.extent 0 ∧ index.j < s.extent 1 ∧ index.k < s.extent 2 := by
  obtain ⟨i, j, k⟩ := index
  simp [indices, and_comm, and_assoc]

end Shape

/-- The coordinates of an index, the fastest one first. -/
def Index.coordinates (index : Index) : List Nat := [index.i, index.j, index.k]

theorem below_of_mem {s : Shape} (h : index ∈ s.indices) : Below s.dims index.coordinates := by
  rw [mem_indices] at h
  obtain ⟨_ | ⟨a, _ | ⟨b, _ | ⟨c, _ | ⟨d, dims⟩⟩⟩⟩, hrank⟩ := s
  case cons.cons.cons.cons => exact absurd hrank (by simp [maxRank])
  all_goals simpa [extent, Below, Index.coordinates] using h

/-! ### Numbers that fit -/

/-- A number that a signed word holds. -/
def Word.Fits (n : Int) : Prop := signed n = n

instance (n : Int) : Decidable (Word.Fits n) := inferInstanceAs (Decidable (_ = _))

theorem Word.checked_eq_ok {n : Int} (h : Fits n) : checked n = .ok n := if_pos h

theorem Word.checked_eq_error {n : Int} (h : ¬Fits n) : checked n = .error (.because .crash "") :=
  if_neg h

namespace Selection

variable {extent : Nat} {s : Selection} {stride base : Int}

/-- Where the first element that a subscript selects leads from `base`. -/
def reach (extent : Nat) (s : Selection) (stride base : Int) : Int :=
  base + if (s.span extent).count = 0 then 0 else (s.first extent - 1) * stride

/-- The numbers on an axis fit: the distance of the first subscript, where it leads, and the step of
an axis that is kept, however many subscripts there are. -/
structure Placeable (extent : Nat) (s : Selection) (stride base : Int) : Prop where
  first : (s.span extent).count ≠ 0 → Word.Fits ((s.first extent - 1) * stride)
  base : (s.span extent).count ≠ 0 → Word.Fits (base + (s.first extent - 1) * stride)
  step : s.axis ≠ .at → Word.Fits (s.step * stride)

theorem reached_eq (s : Selection) (extent : Nat) (stride base : Int) :
    Evaluate.reached (s.span extent) stride base =
      if (s.span extent).count = 0 then .ok base
      else (do Word.checked (base + (← Word.checked ((s.first extent - 1) * stride)))) := rfl

theorem placed_eq_ok (h : s.Placeable extent stride base) :
    Evaluate.placed s.axis (s.span extent) stride base = .ok (s.reach extent stride base) := by
  have hreached : Evaluate.reached (s.span extent) stride base =
      .ok (s.reach extent stride base) := by
    rw [reached_eq, reach]
    split
    case isTrue => rw [add_zero]
    case isFalse hcount =>
      rw [Word.checked_eq_ok (h.first hcount)]
      exact Word.checked_eq_ok (h.base hcount)
  unfold Evaluate.placed
  rw [hreached]
  by_cases haxis : s.axis = .at
  · exact if_pos haxis
  · refine (if_neg haxis).trans ?_
    dsimp only [span]
    rw [Word.checked_eq_ok (h.step haxis)]
    rfl

theorem placed_eq_error (h : ¬s.Placeable extent stride base) :
    Evaluate.placed s.axis (s.span extent) stride base = .error (.because .crash "") := by
  unfold Evaluate.placed
  rw [reached_eq]
  by_cases hbase : (s.span extent).count ≠ 0 → Word.Fits ((s.first extent - 1) * stride) ∧
      Word.Fits (base + (s.first extent - 1) * stride)
  · -- The base fits, so the step does not.
    have hstep : ¬(s.axis ≠ .at → Word.Fits (s.step * stride)) := fun hstep =>
      h ⟨fun hcount => (hbase hcount).1, fun hcount => (hbase hcount).2, hstep⟩
    obtain ⟨haxis, hstep⟩ := Classical.not_imp.1 hstep
    have hlater (base : Int) : (if s.axis = .at then return base else do
        let _ ← Word.checked ((s.span extent).step * stride)
        return base : Except Fault Int) = .error (.because .crash "") := by
      rw [if_neg haxis]
      dsimp only [span]
      rw [Word.checked_eq_error hstep]
      rfl
    by_cases hcount : (s.span extent).count = 0
    · rw [if_pos hcount]
      exact hlater base
    · rw [if_neg hcount, Word.checked_eq_ok (hbase hcount).1]
      change (Word.checked _ >>= _) = _
      rw [Word.checked_eq_ok (hbase hcount).2]
      exact hlater _
  · obtain ⟨hcount, hbase⟩ := Classical.not_imp.1 hbase
    rw [if_neg hcount]
    by_cases hfirst : Word.Fits ((s.first extent - 1) * stride)
    · rw [Word.checked_eq_ok hfirst]
      change (Word.checked _ >>= _) = _
      rw [Word.checked_eq_error fun h => hbase ⟨hfirst, h⟩]
      rfl
    · rw [Word.checked_eq_error hfirst]
      rfl

/-- All numbers of a section fit: the axes before have brought it to `base`, and the storage distance
on the first axis is `a`. -/
inductive Fitting : (a : Nat) → (base : Int) → List Nat → List Selection → Prop
  | nil {a : Nat} {base : Int} : Fitting a base [] []
  | cons {a d : Nat} {base : Int} {s : Selection} {dims : List Nat} {ss : List Selection} :
      s.Placeable d (Word.signed a) base →
      Fitting (a * d) (s.reach d (Word.signed a) base) dims ss →
      Fitting a base (d :: dims) (s :: ss)

end Selection

theorem Shape.stride_succ (shape : Shape) {axis : Nat} (h : axis + 1 < maxRank) :
    shape.stride (axis + 1) = shape.stride axis * shape.extent axis := by
  unfold maxRank at h
  obtain rfl | rfl : axis = 0 ∨ axis = 1 := by omega
  · exact (one_mul _).symm
  · rfl

namespace Evaluate

def selectionWith (sub : Sub) (code : Array Node) (pc : Nat) : Axis → MachineM (Selection × Nat)
  | .all => return (.all, pc)
  | .at => do
    let (i, pc) ← integerWith sub code pc
    return (.at i, pc)
  | .range hasFirst hasLast hasStep => do
    let (first, pc) ← optionWith sub code pc hasFirst
    let (last, pc) ← optionWith sub code pc hasLast
    let (step, pc) ← optionWith sub code pc hasStep
    return (.range first last step, pc)

/-- The subscripts of axes have values, read one after another. -/
inductive Supplied (sub : Sub) (code : Array Node) :
    Machine → Nat → List Selection → Machine → Nat → Prop
  | nil (m : Machine) (pc : Nat) : Supplied sub code m pc [] m pc
  | cons {m m₁ m₂ : Machine} {pc pc₁ pc₂ : Nat} {s : Selection} {ss : List Selection} :
      selectionWith sub code pc s.axis m = .ok (s, pc₁) m₁ → Supplied sub code m₁ pc₁ ss m₂ pc₂ →
      Supplied sub code m pc (s :: ss) m₂ pc₂

variable {sub : Sub}

theorem axisWith_eq (pc axis extent : Nat) (a : Axis) :
    axisWith sub code pc axis extent a = (do
      let (s, pc) ← selectionWith sub code pc a
      return (← Machine.check (s.span? axis extent), pc)) := by
  cases a with
  | all => rfl
  | «at» =>
    rw [axisWith, selectionWith, bind_assoc]
    rfl
  | range hasFirst hasLast hasStep =>
    rw [axisWith, selectionWith]
    simp only [bind_assoc, pure_bind]
    refine bind_congr fun first => bind_congr fun last => bind_congr fun step => ?_
    obtain ⟨first, -⟩ := first
    obtain ⟨last, -⟩ := last
    obtain ⟨step, pc'⟩ := step
    have hspan : (Selection.range first last step).span? axis extent =
        if step.getD 1 = 0 then .error (.because .domainError "ZERO STEP")
        else axisRange axis extent (first.getD (if 0 < step.getD 1 then 1 else extent))
          (last.getD (if 0 < step.getD 1 then extent else 1)) (step.getD 1) := rfl
    rw [hspan]
    split
    · rfl
    · by_cases hpos : 0 < step.getD 1
      · simp only [if_pos hpos]
      · simp only [if_neg hpos]

/-- What reading the subscripts of axes comes to: the axes before them have brought the section to
`base`, and the first of them has the storage distance `a`. -/
structure Reading (dims : List Nat) (ss : List Selection) (a : Nat) (base : Int) (pc' : Nat)
    (m' : Machine) (r : Machine.Result (List AxisRange × Nat)) : Prop where
  ok : Forall₂ Selection.Inside dims ss → Selection.Fitting a base dims ss →
    r = .ok (Selection.spans dims ss, pc') m'
  crash : Forall₂ Selection.Inside dims ss → ¬Selection.Fitting a base dims ss →
    ∃ m₁, r = .error (.fault (.because .crash "")) m₁
  refused : ¬Forall₂ Selection.Inside dims ss → ∃ f m₁, r = .error f m₁

theorem axesWith_of_supplied (h : Supplied sub code m pc ss m' pc') {axis a : Nat} {base : Int}
    (hdims : shape.dims.drop axis = dims) (hlength : dims.length = ss.length)
    (hstride : dims ≠ [] → shape.stride axis = a) :
    Reading dims ss a base pc' m'
      (axesWith sub code shape pc axis base (ss.map Selection.axis) m) := by
  induction h generalizing dims axis a base with
  | nil m pc =>
    obtain rfl := eq_nil_of_length_eq_zero hlength
    exact ⟨fun _ _ => rfl, fun _ h => absurd .nil h, fun h => absurd .nil h⟩
  | @cons m m₁ m₂ pc pc₁ pc₂ s ss hread _ ih =>
    obtain _ | ⟨d, dims⟩ := dims
    · cases hlength
    have hextent : shape.extent axis = d := by
      rw [extent, getD_eq_getElem?_getD, ← head?_drop, hdims]
      rfl
    have hdrop : shape.dims.drop (axis + 1) = dims := by
      rw [← tail_drop, hdims]
      rfl
    have hnext : dims ≠ [] → shape.stride (axis + 1) = a * d := by
      intro hne
      have hpos := length_pos_iff.2 hne
      have hrank : (shape.dims.drop (axis + 1)).length ≤ maxRank - (axis + 1) := by
        rw [length_drop]
        exact Nat.sub_le_sub_right shape.rank_le _
      rw [hdrop] at hrank
      rw [stride_succ shape (by omega), hstride (cons_ne_nil _ _), hextent]
    have haxis : axisWith sub code pc axis (shape.extent axis) s.axis m =
        (do return (← Machine.check (s.span? axis (shape.extent axis)), pc₁)) m₁ := by
      rw [axisWith_eq]
      exact bind_ok hread _
    rw [hextent] at haxis
    rw [map_cons, axesWith, hextent]
    cases hspan : s.span? axis d with
    | error f =>
      have hnot : ¬Forall₂ Selection.Inside (d :: dims) (s :: ss) := by
        rintro (_ | ⟨hinside, -⟩)
        rw [Selection.span?_eq_ok_iff.2 ⟨hinside, rfl⟩] at hspan
        cases hspan
      rw [hspan] at haxis
      exact ⟨fun h => absurd h hnot, fun h => absurd h hnot,
        fun _ => ⟨.fault f, m₁, bind_error haxis _⟩⟩
    | ok r =>
      obtain ⟨hinside, rfl⟩ := Selection.span?_eq_ok_iff.1 hspan
      rw [hspan] at haxis
      rw [bind_ok haxis]
      dsimp only
      rw [signedStride, hstride (cons_ne_nil _ _)]
      by_cases hplace : s.Placeable d (Word.signed a) base
      · rw [Selection.placed_eq_ok hplace]
        change Reading _ _ _ _ _ _ ((axesWith _ _ _ _ _ _ _ >>= _) m₁)
        have hrest : Reading dims ss (a * d) (s.reach d (Word.signed a) base) pc₂ m₂ _ :=
          ih hdrop (Nat.succ.inj hlength) hnext
        constructor
        · rintro (_ | ⟨-, hinside⟩) (_ | ⟨-, hfits⟩)
          exact bind_ok (hrest.ok hinside hfits) _
        · rintro (_ | ⟨-, hinside⟩) hnot
          obtain ⟨m₂, herror⟩ := hrest.crash hinside fun hfits => hnot (.cons hplace hfits)
          exact ⟨m₂, bind_error herror _⟩
        · intro hnot
          obtain ⟨f, m₂, herror⟩ := hrest.refused fun hrest => hnot (.cons hinside hrest)
          exact ⟨f, m₂, bind_error herror _⟩
      · rw [Selection.placed_eq_error hplace]
        constructor
        · rintro - (_ | ⟨hplace', -⟩)
          exact absurd hplace' hplace
        · exact fun _ _ => ⟨m₁, rfl⟩
        · exact fun _ => ⟨_, m₁, rfl⟩

end Evaluate

namespace Selection

open Evaluate

theorem strides_spans (shape : Shape) (h : shape.dims.length = ss.length) :
    let strides := (List.range maxRank).map (signedStride shape)
    let ranges := spans shape.dims ss
    sectionBase ranges strides = sectionBase ranges (stridesFrom 1 shape.dims) ∧
      keptAxes (ss.map axis) ranges strides =
        keptAxes (ss.map axis) ranges (stridesFrom 1 shape.dims) := by
  obtain ⟨_ | ⟨a, _ | ⟨b, _ | ⟨c, _ | ⟨d, dims⟩⟩⟩⟩, hrank⟩ := shape
  case cons.cons.cons.cons => exact absurd hrank (by simp [maxRank])
  all_goals
    rcases ss with _ | ⟨s, _ | ⟨t, _ | ⟨u, _ | ⟨v, ss⟩⟩⟩⟩ <;> simp at h
    simp [maxRank, List.range_succ, signedStride, stride, extent, stridesFrom, spans, sectionBase,
      keptAxes]

/-- The axes of a section, with the storage distance between neighbours. -/
def kept (dims : List Nat) (ss : List Selection) : List (Nat × Int) :=
  keptAxes (ss.map axis) (spans dims ss) (stridesFrom 1 dims)

def view (dims : List Nat) (ss : List Selection) (shape : Shape) : View :=
  let step := fun k => ((kept dims ss)[k]?.map Prod.snd).getD 0
  ⟨sectionBase (spans dims ss) (stridesFrom 1 dims), shape, (step 0, step 1, step 2)⟩

theorem map_fst_keptAxes (h : dims.length = ss.length) (a : Nat) :
    (keptAxes (ss.map axis) (spans dims ss) (stridesFrom a dims)).map Prod.fst = counts dims ss := by
  induction dims generalizing ss a with
  | nil =>
    obtain rfl := eq_nil_of_length_eq_zero h.symm
    rfl
  | cons d dims ih =>
    obtain _ | ⟨s, ss⟩ := ss
    · cases h
    · have := ih (Nat.succ.inj h) (a * d)
      simp only [map_cons, spans, stridesFrom, keptAxes, counts]
      split
      · exact this
      · rw [map_cons, this]

theorem offset_view (hshape : shape.dims = (kept dims ss).map Prod.fst) (index : Index) :
    (view dims ss shape).offset index =
      Word.unsigned (sectionBase (spans dims ss) (stridesFrom 1 dims) +
        View.distance (kept dims ss) index.coordinates) := by
  have hrank := shape.rank_le
  unfold View.offset view extent
  rw [hshape] at hrank ⊢
  generalize kept dims ss = kept at hrank ⊢
  obtain _ | ⟨a, _ | ⟨b, _ | ⟨c, _ | ⟨d, kept⟩⟩⟩⟩ := kept
  case cons.cons.cons.cons => exact absurd hrank (by simp [maxRank])
  all_goals simp [View.distance, Index.coordinates, View.along, add_assoc]

end Selection

namespace Evaluate

variable {sub : Sub}

theorem reading (h : Supplied sub code m pc ss m' pc') (hlength : shape.dims.length = ss.length) :
    Reading shape.dims ss 1 0 pc' m'
      (axesWith sub code shape pc 0 0 (ss.map Selection.axis) m) :=
  axesWith_of_supplied h drop_zero hlength fun _ => rfl

/-- A section is made if no subscript is refused and its numbers fit. -/
theorem sectionWith_ok (h : Supplied sub code m pc ss m' pc')
    (hshape : (checkedSize 1 shape.dims).isSome)
    (hinside : Forall₂ Selection.Inside shape.dims ss)
    (hfits : Selection.Fitting 1 0 shape.dims ss) :
    ∃ part : Shape, part.dims = Selection.counts shape.dims ss ∧
      sectionWith sub code pc shape (ss.map Selection.axis) m =
        .ok (Selection.view shape.dims ss part, pc') m' := by
  have hlength := hinside.length_eq
  have hsize := Selection.checkedSize_counts hinside (Nat.le_refl 1) hshape
  have hrank := (Selection.length_counts_le shape.dims ss).trans shape.rank_le
  have hpart : ofDims (Selection.counts shape.dims ss) =
      .ok ⟨Selection.counts shape.dims ss, hrank⟩ := by
    obtain ⟨size, hsize⟩ := Option.isSome_iff_exists.1 hsize
    rw [ofDims, dif_pos hrank, hsize]
  refine ⟨⟨_, hrank⟩, rfl, ?_⟩
  unfold sectionWith
  rw [if_neg (by rw [length_map, ← hlength]; exact not_not.2 rfl)]
  refine (bind_ok ((reading h hlength).ok hinside hfits) _).trans ?_
  obtain ⟨hbase, hkept⟩ := Selection.strides_spans shape hlength
  have hview : viewOf shape (ss.map Selection.axis) (Selection.spans shape.dims ss) =
      .ok (Selection.view shape.dims ss ⟨Selection.counts shape.dims ss, hrank⟩) := by
    unfold viewOf
    dsimp only
    rw [hkept, hbase, Selection.map_fst_keptAxes hlength, hpart]
    rfl
  dsimp only
  rw [hview]
  rfl

theorem sectionWith_crash (h : Supplied sub code m pc ss m' pc')
    (hinside : Forall₂ Selection.Inside shape.dims ss)
    (hfits : ¬Selection.Fitting 1 0 shape.dims ss) :
    ∃ m₁, sectionWith sub code pc shape (ss.map Selection.axis) m =
      .error (.fault (.because .crash "")) m₁ := by
  have hlength := hinside.length_eq
  unfold sectionWith
  rw [if_neg (by rw [length_map, ← hlength]; exact not_not.2 rfl)]
  obtain ⟨m₁, herror⟩ := (reading h hlength).crash hinside hfits
  exact ⟨m₁, bind_error herror _⟩

theorem sectionWith_error (h : Supplied sub code m pc ss m' pc')
    (hrefused : ¬Forall₂ Selection.Inside shape.dims ss) :
    ∃ f m₁, sectionWith sub code pc shape (ss.map Selection.axis) m = .error f m₁ := by
  unfold sectionWith
  split
  case isTrue => exact ⟨_, _, rfl⟩
  case isFalse hlength =>
    rw [length_map, not_not] at hlength
    obtain ⟨f, m₁, herror⟩ := (reading h hlength.symm).refused hrefused
    exact ⟨f, m₁, bind_error herror _⟩

/-- A section that is made is the one that its subscripts select. -/
theorem eq_view_of_sectionWith (h : Supplied sub code m pc ss m' pc')
    (hshape : (checkedSize 1 shape.dims).isSome) {view : View} {pc₁ : Nat} {m₁ : Machine}
    (hok : sectionWith sub code pc shape (ss.map Selection.axis) m = .ok (view, pc₁) m₁) :
    Forall₂ Selection.Inside shape.dims ss ∧ ∃ part : Shape,
      part.dims = Selection.counts shape.dims ss ∧ view = Selection.view shape.dims ss part := by
  by_cases hinside : Forall₂ Selection.Inside shape.dims ss
  · by_cases hfits : Selection.Fitting 1 0 shape.dims ss
    · obtain ⟨part, hpart, hmade⟩ := sectionWith_ok h hshape hinside hfits
      cases hok.symm.trans hmade
      exact ⟨hinside, part, hpart, rfl⟩
    · obtain ⟨m₂, hcrash⟩ := sectionWith_crash h hinside hfits
      cases hok.symm.trans hcrash
  · obtain ⟨f, m₂, herror⟩ := sectionWith_error h hinside
    cases hok.symm.trans herror

/-- The number of subscripts that each axis selects, of the axes that are kept. -/
inductive Extents : List Nat → List Selection → List Nat → Prop
  | nil : Extents [] [] []
  | single {d : Nat} {i : Int} {dims counts : List Nat} {ss : List Selection} :
      Extents dims ss counts → Extents (d :: dims) (.at i :: ss) counts
  | kept {d count : Nat} {s : Selection} {dims counts : List Nat} {ss : List Selection} :
      s.axis ≠ .at → (∀ n, n < count ↔ s.Selects d n) → Extents dims ss counts →
      Extents (d :: dims) (s :: ss) (count :: counts)

theorem extents_counts (h : dims.length = ss.length) :
    Extents dims ss (Selection.counts dims ss) := by
  induction dims generalizing ss with
  | nil =>
    obtain rfl := eq_nil_of_length_eq_zero h.symm
    exact .nil
  | cons d dims ih =>
    obtain _ | ⟨s, ss⟩ := ss
    · cases h
    · have hrest := ih (Nat.succ.inj h)
      rw [Selection.counts]
      split
      case isTrue haxis =>
        cases s <;> cases haxis
        exact .single hrest
      case isFalse haxis => exact .kept haxis (fun n => Selection.lt_count) hrest

theorem not_inside_iff : ¬Forall₂ Selection.Inside dims ss ↔
      ss.length ≠ dims.length ∨ ∃ d s, (d, s) ∈ dims.zip ss ∧ s.Refused d := by
  rw [forall₂_iff_zip, not_and_or, eq_comm]
  simp only [Selection.inside_iff, not_forall, not_not, exists_prop, ne_eq]

theorem Index.coordinates_injective {other : Index} (h : index.coordinates = other.coordinates) :
    index = other := by
  cases index
  cases other
  simpa [Index.coordinates] using h

section Offsets

variable {part : Shape} (hinside : Forall₂ Selection.Inside dims ss)
variable (hchecked : (checkedSize 1 dims).isSome) (hsize : dims.prod < wordSize)
variable (hpart : part.dims = Selection.counts dims ss)

include hinside hchecked hsize hpart

theorem offset_eq_columnMajor (hindex : index ∈ part.indices) :
    Forall₂ OnAxis dims (Selection.named dims ss index.coordinates) ∧
      (Selection.view dims ss part).offset index =
        columnMajor dims (Selection.named dims ss index.coordinates) := by
  have hbelow := below_of_mem hindex
  rw [hpart] at hbelow
  have hnamed := Selection.named_inside hinside hbelow
  have hkept := Selection.map_fst_keptAxes hinside.length_eq 1
  obtain ⟨hnonneg, hlt⟩ := columnMajor_bounds hnamed
  refine ⟨hnamed, ?_⟩
  rw [Selection.offset_view (hpart.trans hkept.symm), Selection.kept,
    Selection.position hinside hbelow hchecked, Nat.cast_one, one_mul]
  lift columnMajor dims (Selection.named dims ss index.coordinates) to Nat using hnonneg with position
  rw [Word.unsigned_of_lt (by omega)]

theorem offset_injective {other : Index} (hindex : index ∈ part.indices) (hother : other ∈ part.indices)
    (h : (Selection.view dims ss part).offset index = (Selection.view dims ss part).offset other) :
    index = other := by
  obtain ⟨hnamed, hat⟩ := offset_eq_columnMajor hinside hchecked hsize hpart hindex
  obtain ⟨hnamed', hat'⟩ := offset_eq_columnMajor hinside hchecked hsize hpart hother
  have hbelow := hpart ▸ below_of_mem hindex
  have hbelow' := hpart ▸ below_of_mem hother
  refine Index.coordinates_injective (Selection.named_injective hinside hbelow hbelow' rfl ?_)
  exact columnMajor_injective hnamed hnamed' (by rw [← hat, ← hat', h])

end Offsets

/-- A section with too many or too few subscripts or one that is refused fails.  Otherwise it
crashes, if one of its numbers does not fit, or it is made: each of its indices stands for the
element of the array that its subscripts name, and different indices stand for different elements. -/
theorem section_addresses (h : Supplied sub code m pc ss m' pc') {dims : List Nat}
    (hshape : Shape.ofDims dims = .ok shape) :
    let refused := ss.length ≠ shape.rank ∨ ∃ d s, (d, s) ∈ shape.dims.zip ss ∧ s.Refused d
    let result := sectionWith sub code pc shape (ss.map Selection.axis) m
    (refused → ∃ f m₁, result = .error f m₁) ∧
    (¬refused → ¬Selection.Fitting 1 0 shape.dims ss →
      ∃ m₁, result = .error (.fault (.because .crash "")) m₁) ∧
    (¬refused → Selection.Fitting 1 0 shape.dims ss →
      ∃ view, result = .ok (view, pc') m' ∧ Extents shape.dims ss view.shape.dims ∧
      (∀ index ∈ view.shape.indices,
        List.Forall₂ OnAxis shape.dims (Selection.named shape.dims ss index.coordinates) ∧
        view.offset index = columnMajor shape.dims (Selection.named shape.dims ss index.coordinates) ∧
        view.offset index < shape.size) ∧
      ∀ index ∈ view.shape.indices, ∀ other ∈ view.shape.indices,
        view.offset index = view.offset other → index = other) := by
  obtain ⟨rfl, hchecked, hsize⟩ := Shape.ofDims_ok hshape
  dsimp only
  rw [Shape.size_eq_prod] at hsize ⊢
  rw [show shape.rank = shape.dims.length from rfl, ← not_inside_iff, not_not]
  refine ⟨sectionWith_error h, sectionWith_crash h, fun hinside hfits => ?_⟩
  obtain ⟨part, hpart, hok⟩ := sectionWith_ok h hchecked hinside hfits
  refine ⟨_, hok, hpart ▸ extents_counts hinside.length_eq, fun index hindex => ?_,
    fun _ hindex _ hother => offset_injective hinside hchecked hsize hpart hindex hother⟩
  obtain ⟨hnamed, heq⟩ := offset_eq_columnMajor hinside hchecked hsize hpart hindex
  have := (columnMajor_bounds hnamed).2
  exact ⟨hnamed, heq, by omega⟩

def numberNodes (ns : List Int) : Array Node :=
  (ns.flatMap fun n => [.expr ⟨1, 0, .integer, .value⟩, .const (.integer n)]).toArray

def blank : Machine :=
  { workspace := Workspace.bare 8
    values := { title := "VALUE STACK", limit := 8 }
    run := { title := "RUN STACK", limit := 8 } }

/-- Every second element of the second column, from the last one on: `3:1:-2, 2`. -/
theorem section_addresses_backwards :
    let code := numberNodes [3, 1, -2, 2]
    let ss : List Selection := [.range (some 3) (some 1) (some (-2)), .at 2]
    let view : View := ⟨5, .vector 2, (-2, 0, 0)⟩
    Supplied (expression code 4) code blank 0 ss blank 8 ∧
      Shape.ofDims [3, 4] = .ok ⟨[3, 4], by decide⟩ ∧ Selection.Fitting 1 0 [3, 4] ss ∧
      sectionWith (expression code 4) code 0 ⟨[3, 4], by decide⟩ (ss.map Selection.axis) blank =
        .ok (view, 8) blank ∧
      Extents [3, 4] ss [2] ∧ view.offset ⟨1, 0, 0⟩ = columnMajor [3, 4] [1, 2] := by
  intro code ss view
  have hsupplied : Supplied (expression code 4) code blank 0 ss blank 8 :=
    .cons rfl (.cons rfl (.nil blank 8))
  have hshape : Shape.ofDims [3, 4] = .ok ⟨[3, 4], by decide⟩ := rfl
  have hfits : Selection.Fitting 1 0 [3, 4] ss :=
    .cons ⟨fun _ => by decide, fun _ => by decide, fun _ => by decide⟩
      (.cons ⟨fun _ => by decide, fun _ => by decide, nofun⟩ .nil)
  have hview : sectionWith (expression code 4) code 0 ⟨[3, 4], by decide⟩ (ss.map Selection.axis)
      blank = .ok (view, 8) blank := rfl
  have hinside : List.Forall₂ Selection.Inside [3, 4] ss := by decide +zetaReduce
  obtain ⟨found, hfound, hextents, hoffset, -⟩ :=
    (section_addresses hsupplied hshape).2.2 (fun h => not_inside_iff.2 h hinside) hfits
  obtain rfl : view = found := by
    rw [hview] at hfound
    cases hfound
    rfl
  exact ⟨hsupplied, hshape, hfits, hview, hextents, (hoffset ⟨1, 0, 0⟩ (by decide)).2.1⟩

end Evaluate

end ArrayCommand
