/-
The order of elements in storage.

An index has its storage position from the strides of the axes; the loops over the elements of a shape
count them instead.  Both give the same number: the positions of the indices of a shape, in the order
in which the loops visit them, are the numbers below its size, one after another.

* `Shape.position` — where the element at an index is stored;
* `Shape.map_position_indices` — visiting the indices counts the positions;
* `Shape.Built.storage_order` — **the counter of a loop over elements is a storage position**, and the
  numbers that positions are made of stay within words.
-/

import Mathlib.Data.List.GetD
import Mathlib.Data.List.Nodup
import Mathlib.Data.Set.Function
import ArrayCommand.Proofs.Broadcast
import ArrayCommand.Proofs.Conduct

namespace ArrayCommand.Shape

open List

variable {s : Shape}

/-! ### Positions -/

def position (s : Shape) (index : Index) : Nat :=
  index.i * s.strides.1 + index.j * s.strides.2.1 + index.k * s.strides.2.2

/-- Counting `n` blocks of `d` numbers each. -/
theorem flatMap_range (n d base : Nat) :
    (range n).flatMap (fun q => (range d).map (base + q * d + ·)) =
      (range (d * n)).map (base + ·) := by
  induction n with
  | zero => rfl
  | succ n ih =>
    rw [range_succ, flatMap_append, ih, Nat.mul_succ, range_add, map_append,
      map_map, flatMap_singleton]
    simp [Function.comp_def, Nat.mul_comm, Nat.add_assoc]

theorem map_position_indices (s : Shape) : s.indices.map s.position = range s.size := by
  have hplane (k : Nat) : (range (s.extent 1)).flatMap (fun j =>
      (range (s.extent 0)).map fun i => s.position ⟨i, j, k⟩) =
      (range (s.extent 0 * s.extent 1)).map (0 + k * (s.extent 0 * s.extent 1) + ·) := by
    rw [← flatMap_range]
    refine flatMap_congr fun j _ => map_congr_left fun i _ => ?_
    simp only [position, strides]
    omega
  have hall := flatMap_range (s.extent 2) (s.extent 0 * s.extent 1) 0
  simp only [indices, map_flatMap, map_map, Function.comp_def, hplane, hall]
  simp [size_eq_extents, Nat.mul_assoc]

theorem length_indices (s : Shape) : s.indices.length = s.size := by
  rw [← length_map s.position, map_position_indices, length_range]

theorem nodup_indices (s : Shape) : s.indices.Nodup := by
  have hpositions : (s.indices.map s.position).Nodup := by
    rw [map_position_indices]
    exact nodup_range
  exact hpositions.of_map

theorem bijOn_position (s : Shape) : Set.BijOn s.position
    {index | index.i < s.extent 0 ∧ index.j < s.extent 1 ∧ index.k < s.extent 2}
    (Set.Iio s.size) := by
  have hpositions := s.map_position_indices
  refine ⟨fun index hindex => ?_, fun index hindex other hother heq => ?_, fun n hn => ?_⟩
  · have hmem := mem_map_of_mem (f := s.position) (mem_indices.2 hindex)
    rwa [hpositions, mem_range] at hmem
  · have hnodup : (s.indices.map s.position).Nodup := hpositions ▸ nodup_range
    exact inj_on_of_nodup_map hnodup (mem_indices.2 hindex) (mem_indices.2 hother) heq
  · have hmem : n ∈ s.indices.map s.position := hpositions ▸ mem_range.2 hn
    obtain ⟨index, hindex, hat⟩ := mem_map.1 hmem
    exact ⟨index, mem_indices.1 hindex, hat⟩

/-! ### Loops over elements -/

open Machine Evaluate in
/-- The loop that fills a cell, with positions in the place of its counter. -/
theorem elements_eq_foldlM (s : Shape) (value : Element → MachineM Scalar) (out : Cell) :
    elements value s.indices 0 out = s.indices.foldlM (fun out index => do
      checkInterrupt
      let x ← value ⟨index, s.position index⟩
      check (out.set (s.position index) x)) out := by
  have hcount := s.map_position_indices
  rw [range_eq_range'] at hcount
  generalize s.indices = indices, s.size = size, 0 = number at hcount ⊢
  induction indices generalizing size number out with
  | nil => rfl
  | cons index rest ih =>
    obtain ⟨size, rfl⟩ : ∃ n, size = n + 1 := by
      cases size
      · cases hcount
      · exact ⟨_, rfl⟩
    rw [map_cons, range'_succ] at hcount
    obtain ⟨hindex, hrest⟩ := cons.inj hcount
    rw [elements, foldlM_cons, hindex]
    simp only [bind_assoc, ih _ _ _ hrest]

/-- The values that are written over a section stand at the positions of its indices. -/
theorem store_eq_setAll {view : View} {rhs : Cell} (hview : view.shape = s)
    (hsize : rhs.size = 1 ∨ rhs.size = s.size) (target : Cell) :
    Control.store view rhs target = target.setAll (s.indices.map fun index => (view.offset index,
      rhs.data.toList.getD (if rhs.size = 1 then 0 else s.position index) (.integer 0))) := by
  have hfits : ¬(rhs.size ≠ 1 ∧ rhs.size ≠ s.size) := by tauto
  rw [Control.store, hview, if_neg hfits, ← zip_map']
  by_cases hone : rhs.size = 1
  · simp only [if_pos hone, map_const', length_indices]
    cases rhs.data.toList <;> rfl
  · have hlength : rhs.data.toList.length = s.size :=
      (Data.length_toList rhs.data).trans (hsize.resolve_left hone)
    simp only [if_neg hone]
    have hvalues : rhs.data.toList =
        (s.indices.map s.position).map (rhs.data.toList.getD · (.integer 0)) := by
      rw [map_position_indices, ← hlength]
      refine ext_getElem (by simp) fun n hn hn' => ?_
      rw [getElem_map, getElem_range, getD_eq_getElem _ _ hn]
    conv_lhs => rw [hvalues, map_map]
    rfl

/-! ### Shapes that are built -/

/-- The shapes that are built: extents are checked, and the length of a vector is a word. -/
inductive Built : Shape → Prop
  | scalar : Built scalar
  | vector {n : Nat} (h : n < wordSize) : Built (vector n)
  | ofDims {dims : List Nat} {s : Shape} (h : ofDims dims = .ok s) : Built s

theorem Built.checkedSize_dims (h : s.Built) : checkedSize 1 s.dims = some s.dims.prod := by
  cases h with
  | scalar => rfl
  | vector h => simp [checkedSize, Shape.vector, h]
  | ofDims h =>
    obtain ⟨rfl, hsome, -⟩ := ofDims_ok h
    obtain ⟨size, hsize⟩ := Option.isSome_iff_exists.1 hsome
    rw [hsize, (checkedSize_eq_some (by decide) hsize).1, Nat.one_mul]

/-- The running products of all three extents stay within words. -/
theorem Built.checkedSize_extents (h : s.Built) :
    checkedSize 1 [s.extent 0] = some s.strides.2.1 ∧
    checkedSize 1 [s.extent 0, s.extent 1] = some s.strides.2.2 ∧
    checkedSize 1 [s.extent 0, s.extent 1, s.extent 2] = some s.size := by
  have hsize := h.checkedSize_dims
  have hone : 1 < wordSize := by decide
  obtain ⟨_ | ⟨a, _ | ⟨b, _ | ⟨c, _ | ⟨d, dims⟩⟩⟩⟩, hrank⟩ := s
  case cons.cons.cons.cons => exact absurd hrank (by simp [maxRank])
  all_goals
    simp only [checkedSize, one_mul, prod_cons, prod_nil, mul_one, ← mul_assoc,
      Option.ite_none_right_eq_some, ite_eq_left_iff, not_lt, reduceCtorEq, imp_false, not_le] at hsize
    simp [checkedSize, size_eq_prod, strides, extent, hsize, hone, ← mul_assoc]

/-- **The counter of a loop over elements is a storage position.**  The size and the strides of a
shape are products that stay within words, the strides number the elements from zero on without gaps,
and the loops visit them in this order. -/
theorem Built.storage_order {s : Shape} (h : s.Built) :
    (checkedSize 1 s.dims = some s.size ∧
      checkedSize 1 [s.extent 0] = some s.strides.2.1 ∧
      checkedSize 1 [s.extent 0, s.extent 1] = some s.strides.2.2 ∧
      checkedSize 1 [s.extent 0, s.extent 1, s.extent 2] = some s.size) ∧
    Set.BijOn s.position
      {index | index.i < s.extent 0 ∧ index.j < s.extent 1 ∧ index.k < s.extent 2}
      (Set.Iio s.size) ∧
    s.indices.map s.position = List.range s.size ∧
    (∀ value out, Evaluate.elements value s.indices 0 out = s.indices.foldlM (fun out index => do
      Machine.checkInterrupt
      let x ← value ⟨index, s.position index⟩
      Machine.check (out.set (s.position index) x)) out) ∧
    ∀ (view : View) (rhs target : Cell), view.shape = s → rhs.size = 1 ∨ rhs.size = s.size →
      Control.store view rhs target = target.setAll (s.indices.map fun index =>
        (view.offset index,
          rhs.data.toList.getD (if rhs.size = 1 then 0 else s.position index) (.integer 0))) :=
  ⟨⟨s.size_eq_prod ▸ h.checkedSize_dims, h.checkedSize_extents⟩, s.bijOn_position,
    s.map_position_indices, s.elements_eq_foldlM,
    fun _ _ target hview hsize => store_eq_setAll hview hsize target⟩

/-- Two by one by three elements, and an axis without elements next to huge ones. -/
theorem storage_order_extents :
    (∃ s, ofDims [2, 1, 3] = .ok s ∧ checkedSize 1 [2, 1] = some s.strides.2.2 ∧
      s.indices.map s.position = [0, 1, 2, 3, 4, 5] ∧ s.position ⟨1, 0, 2⟩ ∈ Set.Iio s.size ∧
      ∀ index, index.i < 2 ∧ index.j < 1 ∧ index.k < 3 → s.position index = 5 → index = ⟨1, 0, 2⟩) ∧
    ∃ s, ofDims [0, 0xffffffffffffffff, 0xffffffffffffffff] = .ok s ∧
      checkedSize 1 [0, 0xffffffffffffffff] = some s.strides.2.2 ∧
      s.indices.map s.position = [] := by
  obtain ⟨s, hs⟩ : ∃ s, ofDims [2, 1, 3] = .ok s := ⟨_, rfl⟩
  obtain ⟨e, he⟩ : ∃ e, ofDims [0, 0xffffffffffffffff, 0xffffffffffffffff] = .ok e := ⟨_, rfl⟩
  obtain ⟨⟨-, -, hstride, -⟩, ⟨hmaps, hinjective, -⟩, hpositions, -⟩ :=
    Built.storage_order (.ofDims hs)
  obtain ⟨⟨-, -, hhuge, -⟩, -, hnone, -⟩ := Built.storage_order (.ofDims he)
  cases hs
  cases he
  have hlast : (⟨1, 0, 2⟩ : Index) ∈ {index : Index | index.i < 2 ∧ index.j < 1 ∧ index.k < 3} := by
    decide
  exact ⟨⟨_, rfl, hstride, hpositions, hmaps hlast, fun index hindex hfive =>
    hinjective hindex hlast hfive⟩, _, rfl, hhuge, hnone⟩

end ArrayCommand.Shape
