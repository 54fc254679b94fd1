/-
What an assignment that succeeds has written.

The right side is evaluated to the end before anything is written, so all of its elements are computed
from the variables as they were.  A whole variable takes the shape of the right side, and a single
expression without arrays is computed once for each element of the target.  A section is written over
in the order of its indices, which stand for different elements; the others stay.

* `Evaluate.Yields`, `Evaluate.Worth` — the elements of an expression, computed one after another;
* `Control.Right` — what stands on the right side of an assignment;
* `Evaluate.nodup_offsets` — the indices of a section stand for different elements;
* `Control.assign_writes` — **the meaning of an assignment**.
-/

import ArrayCommand.Proofs.StorageOrder

namespace ArrayCommand

open List Cell

variable {type : ElementType} {code : Array Node} {fuel pc pc' : Nat} {m m' : Machine} {view : View}
  {rhs : Cell} {v : Variable}
variable {s : Scalar} {fill : Option Shape} {cell : Cell} {axes : List Axis}

/-! ### Elements that are exchanged -/

theorem Scalar.type_convert {t : Scalar} (h : s.convert type = .ok t) : t.type = type := by
  unfold convert at h
  split at h
  case isTrue htype =>
    cases h
    exact htype
  case isFalse =>
    split at h
    · obtain ⟨x, -, rfl⟩ := map_eq_ok.1 h
      rfl
    · obtain ⟨n, -, rfl⟩ := map_eq_ok.1 h
      rfl
    · cases h

theorem Data.toList_put {d : Data} (h : s.type = d.type) (place : Nat) :
    (d.put place s).toList = d.toList.set place s := by
  cases d <;> cases s <;> cases h <;> simp [put, toList, map_set]

namespace Cell

variable {c c' : Cell} {place : Nat} {value : Scalar} {writes : List (Nat × Scalar)}

theorem toList_of_set (h : c.set place value = .ok c') : place < c.data.toList.length ∧
    ∃ s, value.convert c.type = .ok s ∧ c'.data.toList = c.data.toList.set place s := by
  obtain ⟨hplace, s, hs, rfl⟩ := set_ok h
  exact ⟨by rwa [Data.length_toList], s, hs, Data.toList_put (Scalar.type_convert hs) place⟩

theorem set_next (h : c.set place value = .ok c') : ∃ s, value.convert c.type = .ok s ∧
    c'.data.toList.length = c.data.toList.length ∧
    c'.data.toList.take (place + 1) = c.data.toList.take place ++ [s] := by
  obtain ⟨hplace, s, hs, hset⟩ := toList_of_set h
  refine ⟨s, hs, by rw [hset, length_set], ?_⟩
  rw [hset, take_add_one, getElem?_set_self hplace, take_set_of_le (Nat.le_refl _)]
  rfl

/-- The only element of a cell. -/
theorem toList_of_first (hsize : c.size = 1) (h : c.first = .ok s) : c.data.toList = [s] := by
  obtain ⟨t, ht⟩ := length_eq_one_iff.1 ((Data.length_toList c.data).trans hsize)
  have hget : c.data.get? 0 = c.data.toList[0]? := by cases c.data <;> simp [Data.get?, Data.toList]
  rw [first, get, hget, ht] at h
  cases h
  exact ht

theorem setAll_ok (h : c.setAll writes = (.ok (), c')) (hplaces : (writes.map Prod.fst).Nodup) :
    (∀ write ∈ writes, ∃ s, write.2.convert c.type = .ok s ∧ c'.data.toList[write.1]? = some s) ∧
    ∀ place ∉ writes.map Prod.fst, c'.data.toList[place]? = c.data.toList[place]? := by
  induction writes generalizing c with
  | nil =>
    cases h
    exact ⟨by simp, fun _ _ => rfl⟩
  | cons write writes ih =>
    obtain ⟨place, value⟩ := write
    obtain ⟨hnew, hplaces⟩ := nodup_cons.1 hplaces
    rw [setAll] at h
    split at h
    case h_2 => cases h
    case h_1 c₁ hset =>
      obtain ⟨hlt, s, hs, hlist⟩ := toList_of_set hset
      obtain ⟨hwritten, hothers⟩ := ih h hplaces
      rw [(set_frame hset).1] at hwritten
      refine ⟨fun write hwrite => ?_, fun other hother => ?_⟩
      · obtain rfl | hwrite := mem_cons.1 hwrite
        · exact ⟨s, hs, by rw [hothers place hnew, hlist, getElem?_set_self hlt]⟩
        · exact hwritten write hwrite
      · rw [map_cons, mem_cons, not_or] at hother
        rw [hothers other hother.2, hlist, getElem?_set_ne (Ne.symm hother.1)]

end Cell

/-! ### The elements of an expression -/

namespace Evaluate

open Machine

/-- Indices with their numbers, from a number on. -/
def numbered (number : Nat) : List Index → List Element
  | [] => []
  | index :: rest => ⟨index, number⟩ :: numbered (number + 1) rest

/-- Elements have values that are computed one after another, all from the same variables. -/
inductive Yields (value : Element → MachineM Scalar) :
    Machine → List Element → List Scalar → Machine → Prop
  | nil (m : Machine) : Yields value m [] [] m
  | cons {m m₁ m₂ : Machine} {element : Element} {elements : List Element} {s : Scalar}
      {ss : List Scalar} : value element m = .ok s m₁ → m₁.workspace = m.workspace →
      Yields value m₁ elements ss m₂ → Yields value m (element :: elements) (s :: ss) m₂

theorem elements_ok {value : Element → MachineM Scalar}
    (hvalue : ∀ element, Moves evaluation (value element)) {indices : List Index} {number : Nat}
    {out out' : Cell} (h : elements value indices number out m = .ok out' m') :
    ∃ scalars values, Yields value m (numbered number indices) scalars m' ∧
      Converted out.type scalars values ∧ out'.shape = out.shape ∧
      out'.data.toList.length = out.data.toList.length ∧
      out'.data.toList.take (number + indices.length) = out.data.toList.take number ++ values := by
  induction indices generalizing number out m with
  | nil =>
    cases h
    exact ⟨[], [], .nil _, .nil, rfl, rfl, by simp⟩
  | cons index rest ih =>
    rw [elements, bind_eq_ok] at h
    obtain ⟨u, m₀, hinterrupt, h⟩ := h
    obtain rfl : m₀ = m := by
      rw [checkInterrupt, get_bind_apply] at hinterrupt
      split at hinterrupt <;> cases hinterrupt
      rfl
    rw [bind_eq_ok] at h
    obtain ⟨s, m₁, hs, h⟩ := h
    rw [bind_eq_ok] at h
    obtain ⟨out₁, m₂, hcheck, h⟩ := h
    obtain ⟨hset, rfl⟩ := check_eq_ok.1 hcheck
    obtain ⟨scalars, values, hyields, hconverted, hshape, hlength, hlist⟩ := ih h
    obtain ⟨t, ht, hlength₁, htake⟩ := set_next hset
    obtain ⟨htype, hshape₁, -⟩ := set_frame hset
    rw [htype] at hconverted
    refine ⟨s :: scalars, t :: values, .cons hs ((hvalue _).ok hs).1 hyields, .cons ht hconverted,
      hshape.trans hshape₁, hlength.trans hlength₁, ?_⟩
    rw [htake] at hlist
    rw [length_cons, Nat.add_comm rest.length, ← Nat.add_assoc, hlist, append_assoc]
    rfl

/-- What the expression at an address is worth: its shape and its elements in storage order.  Without
arrays it is computed for every element of the shape to be filled, with their numbers. -/
inductive Worth (code : Array Node) :
    (fuel pc : Nat) → Option Shape → Machine → Shape → List Scalar → Machine → Prop
  | computed {fuel pc : Nat} {fill : Option Shape} {m m₁ m' : Machine} {header : Header}
      {operands : List Operand} {start : Nat} {common : Shape} {scalars values : List Scalar}
      (node : code[pc]? = some (.expr header)) (access : header.access = .value)
      (operands_eq : operandsWith (expression code fuel) code header.slots (pc + 1) m =
        .ok (operands, start) m₁)
      (same : m₁.workspace = m.workspace)
      (domain_eq : domain (operands.map fun operand => operand.view.shape) = .ok common)
      (yields : Yields (elementValue code start (behind pc header.length) operands.toArray (fuel + 1))
        m₁ (numbered 0 (if common.isScalar then fill.getD common else common).indices) scalars m')
      (converted : Converted header.type scalars values) :
      Worth code (fuel + 1) pc fill m (if common.isScalar then fill.getD common else common) values m'
  | reference {fuel pc : Nat} {fill : Option Shape} {m : Machine} {header : Header} {var : Handle}
      {cell : Cell} (node : code[pc]? = some (.expr header)) (access : header.access = .reference var)
      (value : m.workspace.memory.value var = .ok cell) :
      Worth code (fuel + 1) pc fill m cell.shape cell.data.toList m
  | name {fuel pc : Nat} {fill : Option Shape} {m : Machine} {header : Header} {name : String}
      (node : code[pc]? = some (.expr header)) (access : header.access = .name name) :
      Worth code (fuel + 1) pc fill m .scalar [.text name] m

theorem worth_computed {header : Header} (hnode : code[pc]? = some (.expr header))
    (haccess : header.access = .value)
    (h : computed (expression code fuel) code pc header fill (fuel + 1) m = .ok cell m') :
    Worth code (fuel + 1) pc fill m cell.shape cell.data.toList m' := by
  rw [computed, bind_eq_ok] at h
  obtain ⟨⟨operands, start⟩, m₁, hoperands, h⟩ := h
  rw [bind_eq_ok] at h
  obtain ⟨common, m₂, hcommon, h⟩ := h
  obtain ⟨hdomain, rfl⟩ := check_eq_ok.1 hcommon
  rw [bind_eq_ok] at h
  obtain ⟨out, m₃, hcheck, h⟩ := h
  obtain ⟨hout, rfl⟩ := check_eq_ok.1 hcheck
  obtain rfl := allocate_ok hout
  have hsame := (((compatible_evaluation code).operands (.inl rfl) header.slots (pc + 1)).ok hoperands).1
  obtain ⟨scalars, values, hyields, hconverted, hshape, hlength, hlist⟩ :=
    elements_ok (fun element => (compatible_evaluation code).elementValue start _ _ (.inl rfl) element) h
  have hvalues : cell.data.toList = values := by
    rw [Nat.zero_add, Shape.length_indices, take_zero, nil_append] at hlist
    rwa [take_of_length_le] at hlist
    rw [hlength, Data.length_toList, fresh, Data.size_zeroed]
  rw [hvalues, hshape]
  exact .computed hnode haccess hoperands hsame hdomain hyields
    (by simpa [type, fresh] using hconverted)

theorem worth_expression (h : expression code fuel pc fill m = .ok cell m') :
    Worth code fuel pc fill m cell.shape cell.data.toList m' := by
  cases fuel with
  | zero => cases h
  | succ fuel =>
    rw [expression] at h
    cases hnode : code[pc]? with
    | none =>
      rw [hnode] at h
      cases h
    | some node =>
      rw [hnode] at h
      cases node with
      | expr header =>
        dsimp only at h
        cases haccess : header.access with
        | reference var =>
          rw [haccess] at h
          rw [bind_eq_ok] at h
          obtain ⟨value, m₁, hvalue, h⟩ := h
          obtain ⟨hvalue, rfl⟩ := valueOf_eq_ok.1 hvalue
          cases h
          exact (Worth.reference hnode haccess hvalue :
            Worth code (fuel + 1) pc fill _ value.shape value.data.toList _)
        | name name =>
          rw [haccess] at h
          cases h
          exact .name hnode haccess
        | value =>
          rw [haccess] at h
          exact worth_computed hnode haccess h
      | _ => cases h

theorem worth_nested (h : nested code fuel pc fill m = .ok (cell, pc') m') : ∃ header,
      code[pc]? = some (.expr header) ∧ pc' = behind pc header.length ∧
      Worth code fuel pc fill m cell.shape cell.data.toList m' := by
  rw [nested, nestedWith, bind_eq_ok] at h
  obtain ⟨length, m₁, hlength, h⟩ := h
  obtain ⟨header, hnode, rfl, rfl⟩ := lengthAt_eq_ok hlength
  rw [bind_eq_ok] at h
  obtain ⟨cell', m₂, hcell, h⟩ := h
  cases h
  exact ⟨header, hnode, rfl, worth_expression hcell⟩

/-! ### The elements of a section -/

variable {sub : Sub} {shape : Shape}

theorem optionWith_ok {there : Bool} {n? : Option Int}
    (h : optionWith sub code pc there m = .ok (n?, pc') m') : n?.isSome = there := by
  cases there with
  | false =>
    cases h
    rfl
  | true =>
    rw [optionWith, if_pos rfl, bind_eq_ok] at h
    obtain ⟨⟨n, pc₁⟩, m₁, -, h⟩ := h
    cases h
    rfl

theorem selectionWith_axis {a : Axis} {s : Selection}
    (h : selectionWith sub code pc a m = .ok (s, pc') m') : s.axis = a := by
  cases a with
  | all =>
    cases h
    rfl
  | «at» =>
    rw [selectionWith, bind_eq_ok] at h
    obtain ⟨⟨i, pc₁⟩, m₁, -, h⟩ := h
    cases h
    rfl
  | range hasFirst hasLast hasStep =>
    rw [selectionWith, bind_eq_ok] at h
    obtain ⟨⟨first, pc₁⟩, m₁, hfirst, h⟩ := h
    rw [bind_eq_ok] at h
    obtain ⟨⟨last, pc₂⟩, m₂, hlast, h⟩ := h
    rw [bind_eq_ok] at h
    obtain ⟨⟨step, pc₃⟩, m₃, hstep, h⟩ := h
    cases h
    rw [Selection.axis, optionWith_ok hfirst, optionWith_ok hlast, optionWith_ok hstep]

/-- Axes have ranges only if their subscripts have values. -/
theorem axesWith_ok {axis : Nat} {base : Int} {ranges : List AxisRange}
    (h : axesWith sub code shape pc axis base axes m = .ok (ranges, pc') m') :
    ∃ ss : List Selection, ss.map Selection.axis = axes ∧ Supplied sub code m pc ss m' pc' := by
  induction axes generalizing axis base ranges pc m with
  | nil =>
    cases h
    exact ⟨[], rfl, .nil _ _⟩
  | cons a axes ih =>
    rw [axesWith, bind_eq_ok] at h
    obtain ⟨⟨range, pc₁⟩, m₁, hrange, h⟩ := h
    rw [bind_eq_ok] at h
    obtain ⟨base, m₅, hbase, h⟩ := h
    obtain ⟨-, rfl⟩ := check_eq_ok.1 hbase
    rw [bind_eq_ok] at h
    obtain ⟨⟨rest, pc₂⟩, m₂, hrest, h⟩ := h
    cases h
    rw [axisWith_eq, bind_eq_ok] at hrange
    obtain ⟨⟨s, pc₃⟩, m₃, hs, hrange⟩ := hrange
    rw [bind_eq_ok] at hrange
    obtain ⟨r, m₄, hcheck, hrange⟩ := hrange
    obtain ⟨-, rfl⟩ := check_eq_ok.1 hcheck
    cases hrange
    obtain rfl := selectionWith_axis hs
    obtain ⟨ss, rfl, hss⟩ := ih hrest
    exact ⟨s :: ss, rfl, .cons hs hss⟩

theorem nodup_offsets (hshape : Shape.ofDims shape.dims = .ok shape)
    (h : sectionWith sub code pc shape axes m = .ok (view, pc') m') :
    (view.shape.indices.map view.offset).Nodup := by
  obtain ⟨-, hchecked, hsize⟩ := Shape.ofDims_ok hshape
  have hsupplied : ∃ ss m₁ pc₁, ss.map Selection.axis = axes ∧ Supplied sub code m pc ss m₁ pc₁ := by
    rw [sectionWith] at h
    split at h
    case isTrue => cases h
    case isFalse =>
      rw [bind_eq_ok] at h
      obtain ⟨⟨ranges, pc₁⟩, m₁, hranges, -⟩ := h
      obtain ⟨ss, hss, hsupplied⟩ := axesWith_ok hranges
      exact ⟨ss, m₁, pc₁, hss, hsupplied⟩
  obtain ⟨ss, m₁, pc₁, rfl, hsupplied⟩ := hsupplied
  obtain ⟨hinside, part, hpart, rfl⟩ := eq_view_of_sectionWith hsupplied hchecked h
  rw [Shape.size_eq_prod] at hsize
  exact part.nodup_indices.map_on fun _ hindex _ hother =>
    offset_injective hinside hchecked hsize hpart hindex hother

end Evaluate

/-! ### Assignments -/

namespace Control

open Machine Evaluate

variable {count : Nat} {var : Handle}

/-- The items of a list, computed one after another from the same variables. -/
inductive Items (code : Array Node) (fuel : Nat) : Machine → Nat → List Scalar → Machine → Prop
  | nil (m : Machine) (pc : Nat) : Items code fuel m pc [] m
  | cons {m m₁ m₂ : Machine} {pc : Nat} {header : Header} {shape : Shape} {s : Scalar}
      {ss : List Scalar} : code[pc]? = some (.expr header) → Worth code fuel pc none m shape [s] m₁ →
      m₁.workspace = m.workspace → Items code fuel m₁ (behind pc header.length) ss m₂ →
      Items code fuel m pc (s :: ss) m₂

/-- What stands on the right side of an assignment: an expression, with a shape to be filled, or a
list of values of the type of the target. -/
inductive Right (code : Array Node) (fuel : Nat) :
    (count pc : Nat) → ElementType → Shape → Machine → Shape → List Scalar → Prop
  | single {pc : Nat} {type : ElementType} {fill shape : Shape} {m m' : Machine}
      {values : List Scalar} : Worth code fuel pc (some fill) m shape values m' →
      Right code fuel 1 pc type fill m shape values
  | list {count pc : Nat} {type : ElementType} {fill : Shape} {m m' : Machine}
      {items values : List Scalar} : count ≠ 1 → Items code fuel m pc items m' →
      items.length = count → Converted type items values →
      Right code fuel count pc type fill m (.vector count) values

theorem listItems_ok {index : Nat} {list list' : Cell}
    (h : listItems code fuel count index pc list m = .ok (list', pc') m') :
    ∃ items values, Items code fuel m pc items m' ∧ items.length = count ∧
      Converted list.type items values ∧ list'.shape = list.shape ∧
      list'.data.toList.length = list.data.toList.length ∧
      list'.data.toList.take (index + count) = list.data.toList.take index ++ values := by
  induction count generalizing index list pc m with
  | zero =>
    cases h
    exact ⟨[], [], .nil _ _, rfl, .nil, rfl, rfl, by simp⟩
  | succ count ih =>
    rw [listItems, bind_eq_ok] at h
    obtain ⟨⟨item, pc₁⟩, m₁, hitem, h⟩ := h
    dsimp only at h
    split at h
    case isTrue => cases h
    case isFalse hone =>
      rw [bind_eq_ok] at h
      obtain ⟨s, m₂, hfirst, h⟩ := h
      obtain ⟨hfirst, rfl⟩ := check_eq_ok.1 hfirst
      rw [bind_eq_ok] at h
      obtain ⟨list₁, m₃, hcheck, h⟩ := h
      obtain ⟨hset, rfl⟩ := check_eq_ok.1 hcheck
      obtain ⟨items, values, hitems, hcount, hconverted, hshape, hlength, hlist⟩ := ih h
      obtain ⟨t, ht, hlength₁, htake⟩ := set_next hset
      obtain ⟨htype, hshape₁, -⟩ := set_frame hset
      rw [htype] at hconverted
      obtain ⟨header, hnode, rfl, hworth⟩ := worth_nested hitem
      rw [toList_of_first (not_not.1 hone) ‹_›] at hworth
      refine ⟨s :: items, t :: values, .cons hnode hworth ((moves_nested code fuel _ _).ok hitem).1 hitems,
        by rw [length_cons, hcount], .cons ht hconverted, hshape.trans hshape₁,
        hlength.trans hlength₁, ?_⟩
      rw [htake] at hlist
      rw [Nat.add_comm count, ← Nat.add_assoc, hlist, append_assoc]
      rfl

theorem rightSide_ok {fill : Shape}
    (h : rightSide code fuel count pc type fill m = .ok (rhs, pc') m') :
    Right code fuel count pc type fill m rhs.shape rhs.data.toList := by
  rw [rightSide] at h
  split at h
  case isTrue hcount =>
    subst hcount
    obtain ⟨-, -, -, hworth⟩ := worth_nested h
    exact .single hworth
  case isFalse hcount =>
    obtain ⟨items, values, hitems, hlength, hconverted, hshape, hsize, hlist⟩ := listItems_ok h
    have hvalues : rhs.data.toList = values := by
      rw [Nat.zero_add, take_zero, nil_append, take_of_length_le] at hlist
      · exact hlist
      · rw [hsize, Data.length_toList, Cell.fresh, Data.size_zeroed, Shape.size_vector]
    rw [hvalues, hshape]
    exact .list hcount hitems hlength (by simpa [Cell.type, Cell.fresh] using hconverted)

/-- A single value for every element, or as many values as elements. -/
def spread (size : Nat) (values : List Scalar) : List Scalar :=
  if values.length = 1 then List.replicate size (values.headD (.integer 0)) else values

theorem store_ok {target stored : Cell} (h : store view rhs target = (.ok (), stored))
    (hoffsets : (view.shape.indices.map view.offset).Nodup) :
    (rhs.data.toList.length = 1 ∨ rhs.data.toList.length = view.shape.size) ∧
    Forall₂ (fun index s => ∃ t, s.convert target.type = .ok t ∧
      stored.data.toList[view.offset index]? = some t) view.shape.indices
      (spread view.shape.size rhs.data.toList) ∧
    ∀ place ∉ view.shape.indices.map view.offset,
      stored.data.toList[place]? = target.data.toList[place]? := by
  rw [store] at h
  split at h
  case isTrue => cases h
  case isFalse hsize =>
    rw [size, ← Data.length_toList] at hsize
    have hlength : (spread view.shape.size rhs.data.toList).length = view.shape.size := by
      rw [spread]
      split <;> grind
    have hwrites : sectionWrites view rhs = (view.shape.indices.map view.offset).zip
        (spread view.shape.size rhs.data.toList) := by
      rw [sectionWrites, size, ← Data.length_toList, spread]
    have hplaces : ((view.shape.indices.map view.offset).zip
        (spread view.shape.size rhs.data.toList)).map Prod.fst = view.shape.indices.map view.offset :=
      map_fst_zip (by rw [length_map, Shape.length_indices, hlength])
    change target.setAll (sectionWrites view rhs) = _ at h
    rw [hwrites] at h
    obtain ⟨hwritten, hothers⟩ := setAll_ok h (by rwa [hplaces])
    rw [hplaces] at hothers
    refine ⟨by omega, ?_, hothers⟩
    rw [forall₂_iff_zip, Shape.length_indices, hlength]
    refine ⟨rfl, fun {index s} hmem => hwritten (view.offset index, s) ?_⟩
    rw [zip_map_left]
    exact mem_map.2 ⟨(index, s), hmem, rfl⟩

/-- A cell that was assigned as a whole has the shape and the converted elements of the right side,
which fills the old shape if there are no arrays in it. -/
def Exchanged (code : Array Node) (fuel count pc : Nat) (m : Machine) (old new : Cell) : Prop :=
  ∃ values, Right code fuel count pc old.type old.shape m new.shape values ∧
    Converted new.type values new.data.toList

/-- A cell of which a section was assigned: the elements of the section are the converted values in
the order of its indices, and the others have stayed. -/
def Overwritten (code : Array Node) (fuel count pc : Nat) (axes : List Axis) (m : Machine)
    (old new : Cell) : Prop :=
  new.shape = old.shape ∧ ∃ view pc₁ m₁ shape values,
    sectionWith (expression code fuel) code pc old.shape axes m = .ok (view, pc₁) m₁ ∧
    m₁.workspace = m.workspace ∧ Right code fuel count pc₁ old.type view.shape m₁ shape values ∧
    (values.length = 1 ∨ values.length = view.shape.size) ∧
    List.Forall₂ (fun index s => ∃ t, s.convert new.type = .ok t ∧
      new.data.toList[view.offset index]? = some t) view.shape.indices (spread view.shape.size values) ∧
    ∀ place ∉ view.shape.indices.map view.offset,
      new.data.toList[place]? = old.data.toList[place]?

theorem whole_ok (hv : m.workspace.memory.get? var = some v) (h : (do
      let (rhs, pc) ← rightSide code fuel count (pc + 1) v.value.type v.value.shape
      update var (← check ((← valueOf var).assign rhs))
      return pc : MachineM Nat) m = .ok pc' m') :
    ∃ new, m'.workspace.memory = m.workspace.memory.update var new ∧
      new.type = v.value.type ∧ new.owner = v.value.owner ∧
      Exchanged code fuel count (pc + 1) m v.value new := by
  rw [bind_eq_ok] at h
  obtain ⟨⟨rhs, pc₁⟩, m₁, hright, h⟩ := h
  obtain ⟨hm₁, -⟩ := (moves_rightSide code fuel count _ _ _).ok hright
  have hvalue : valueOf var m₁ = .ok v.value m₁ :=
    valueOf_eq_ok.2 ⟨Memory.value_eq_ok.2 ⟨v, hm₁ ▸ hv, rfl⟩, rfl⟩
  dsimp only at h
  rw [bind_ok hvalue, bind_eq_ok] at h
  obtain ⟨new, m₂, hcheck, h⟩ := h
  obtain ⟨hassign, rfl⟩ := check_eq_ok.1 hcheck
  cases h
  obtain ⟨converted, hconvert, rfl⟩ := map_eq_ok.1 hassign
  obtain ⟨data, hdata, rfl⟩ := map_eq_ok.1 hconvert
  have htype : data.type = v.value.type := type_convertData hdata
  refine ⟨⟨data, rhs.shape, v.value.owner⟩, by rw [← hm₁], htype, rfl, rhs.data.toList,
    rightSide_ok hright, ?_⟩
  rw [type, htype]
  exact converted_convertData hdata

theorem section_ok (hv : m.workspace.memory.get? var = some v)
    (hshape : Shape.ofDims v.value.shape.dims = .ok v.value.shape) (h : (do
      let (view, pc) ←
        Evaluate.sectionWith (Evaluate.expression code fuel) code (pc + 1) v.value.shape axes
      let (rhs, pc) ← rightSide code fuel count pc v.value.type view.shape
      let (result, value) := store view rhs (← valueOf var)
      update var value
      check result
      return pc : MachineM Nat) m = .ok pc' m') :
    ∃ new, m'.workspace.memory = m.workspace.memory.update var new ∧
      new.type = v.value.type ∧ new.owner = v.value.owner ∧
      Overwritten code fuel count (pc + 1) axes m v.value new := by
  rw [bind_eq_ok] at h
  obtain ⟨⟨view, pc₁⟩, m₁, hsection, h⟩ := h
  obtain ⟨hm₁, -⟩ := (Evaluate.moves_sectionWith code fuel _ _ _).ok hsection
  dsimp only at h
  rw [bind_eq_ok] at h
  obtain ⟨⟨rhs, pc₂⟩, m₂, hright, h⟩ := h
  have hm₂ : m₂.workspace = m.workspace :=
    ((moves_rightSide code fuel count _ _ _).ok hright).1.trans hm₁
  -- evaluation has not touched the target
  have hvalue : valueOf var m₂ = .ok v.value m₂ :=
    valueOf_eq_ok.2 ⟨Memory.value_eq_ok.2 ⟨v, hm₂ ▸ hv, rfl⟩, rfl⟩
  rw [bind_ok hvalue] at h
  rcases hstore : store view rhs v.value with ⟨result, stored⟩
  rw [hstore] at h
  rw [update, modify_bind_apply, bind_eq_ok] at h
  obtain ⟨u, m₃, hcheck, h⟩ := h
  obtain ⟨rfl, rfl⟩ := check_eq_ok.1 hcheck
  cases h
  obtain ⟨hlength, hwritten, hothers⟩ := store_ok hstore (nodup_offsets hshape hsection)
  obtain ⟨htype, hkept, howner⟩ := store_frame hstore
  rw [← htype] at hwritten
  exact ⟨stored, by rw [← hm₂], htype, howner, hkept, view, pc₁, m₁, rhs.shape, rhs.data.toList,
    hsection, hm₁, rightSide_ok hright, hlength, hwritten, hothers⟩

/-- What an assignment that succeeds has written: its variable, which keeps its type and its owner, and
no other one. -/
theorem assign_writes {code : Array Node} {fuel pc pc' : Nat} {var : Handle}
    {axes : Option (List Axis)} {count : Nat} {m m' : Machine}
    (h : assign code fuel pc var axes count m = .ok pc' m')
    (hshape : ∀ v, m.workspace.memory.get? var = some v →
      Shape.ofDims v.value.shape.dims = .ok v.value.shape) :
    ∃ v new, m.workspace.memory.get? var = some v ∧ v.value.owner.isWritable ∧
      (∀ other, m'.workspace.memory.get? other =
        if other = var then some { v with value := new } else m.workspace.memory.get? other) ∧
      new.type = v.value.type ∧ new.owner = v.value.owner ∧
      match axes with
      | none => Exchanged code fuel count (pc + 1) m v.value new
      | some axes => Overwritten code fuel count (pc + 1) axes m v.value new := by
  rw [assign, bind_eq_ok] at h
  obtain ⟨target, m₀, htarget, h⟩ := h
  obtain ⟨hvalue, rfl⟩ := valueOf_eq_ok.1 htarget
  obtain ⟨v, hv, rfl⟩ := Memory.value_eq_ok.1 hvalue
  have hothers {new : Cell} (hmemory : m'.workspace.memory = m₀.workspace.memory.update var new)
      (other : Handle) : m'.workspace.memory.get? other =
        if other = var then some { v with value := new } else m₀.workspace.memory.get? other := by
    rw [hmemory, Memory.get?_update, hv]
    rfl
  by_cases hwritable : v.value.owner.isWritable
  case neg =>
    rw [if_pos (by simp [hwritable]), get_bind_apply, bind_eq_ok] at h
    obtain ⟨_, _, -, h⟩ := h
    cases h
  rw [if_neg (by simp [hwritable])] at h
  cases axes with
  | none =>
    obtain ⟨new, hmemory, htype, howner, hvalues⟩ := whole_ok hv h
    exact ⟨v, new, hv, hwritable, hothers hmemory, htype, howner, hvalues⟩
  | some axes =>
    obtain ⟨new, hmemory, htype, howner, hvalues⟩ := section_ok hv (hshape v hv) h
    exact ⟨v, new, hv, hwritable, hothers hmemory, htype, howner, hvalues⟩

/-- A machine with three integers `v`. -/
def beforeShift : Machine :=
  { Evaluate.blank with
    workspace := { Workspace.bare 8 with
      memory := (Memory.empty.insert "v" ⟨.integer #[1, 2, 3], .vector 3, .declared⟩).1 } }

/-- The nodes of `v(2:3) = v(1:2)`. -/
def shiftNodes : Array Node :=
  #[.assign ⟨0, 0⟩ (some [.range true true false]) 1] ++ numberNodes [2, 3] ++
    #[.expr ⟨6, 1, .integer, .value⟩, .index 0 ⟨0, 0⟩ [.range true true false]] ++
    numberNodes [1, 2] ++ #[.operand 0]

/-- The first element stays, and what is written over is written over with its old value. -/
theorem assign_writes_shift :
    ∃ m' new, assign shiftNodes 9 0 ⟨0, 0⟩ (some [.range true true false]) 1 beforeShift = .ok 12 m' ∧
      m'.workspace.memory.get? ⟨0, 0⟩ = some ⟨"v", new⟩ ∧
      Overwritten shiftNodes 9 1 1 [.range true true false] beforeShift
        ⟨.integer #[1, 2, 3], .vector 3, .declared⟩ new ∧
      new.data.toList = [.integer 1, .integer 1, .integer 2] := by
  obtain ⟨m', h, hdata⟩ : ∃ m', assign shiftNodes 9 0 ⟨0, 0⟩ (some [.range true true false]) 1
      beforeShift = .ok 12 m' ∧ (m'.workspace.memory.get? ⟨0, 0⟩).map (fun v => v.value.data.toList) =
        some [.integer 1, .integer 1, .integer 2] := ⟨_, rfl, rfl⟩
  obtain ⟨v, new, hv, -, hnew, -, -, hwritten⟩ := assign_writes h fun v hv => by
    cases hv
    rfl
  cases hv
  have hvalue := (hnew ⟨0, 0⟩).trans (if_pos rfl)
  rw [hvalue] at hdata
  exact ⟨m', new, h, hvalue, hwritten, Option.some.inj hdata⟩

end Control

end ArrayCommand
