/-
Cells over the life of their variables.

A cell that the operations on cells have built stores as many elements as the extents of its shape
multiply to.  A running program puts only such cells into variables, as long as the functions that it
calls hand back such cells; and what it puts into a variable has the type and the owner of what was
there before.  So from its creation to its removal a variable keeps its name, the type of its
elements and its owner, whatever is done to its elements and to its extents.

Main definitions:

* `Cell.Built` — the cells that the operations on cells build;
* `Function.HandsBuilt` — a function that hands back such cells when it is handed such cells;
* `Machine.Tidy`, `Keeps` — a machine that holds such cells only, and steps that lead to such
  machines;
* `Session.Operation` — one operation on a session;
* `Session.Alive` — operations during all of which a variable is there.

Main results:

* `Cell.Built.wellFormed` — every cell that is built is well formed;
* `Control.keeps_runFrom` — a run of any program keeps a machine tidy;
* `Core.handsBuilt` — the core functions hand back built cells;
* `Session.variables_keep_kind` — **cells stay well formed, and variables keep their kind.**
-/

import Mathlib.Data.List.Forall2
import ArrayCommand.Proofs.Correspondence
import ArrayCommand.Proofs.Discretion

namespace ArrayCommand

open List Memory Evaluate

variable {place : Nat} {value : Cell} {w w' : Workspace} {c : Prop} {code : Array Node}
  {f : Function} {v : Variable}

/-! ### Cells that are built -/

/-- The cells that the operations on cells build, from fresh ones or from given elements. -/
inductive Cell.Built : Cell → Prop
  | fresh (type : ElementType) (shape : Shape) (owner : Owner) : Built (.fresh type shape owner)
  | allocate {type : ElementType} {shape : Shape} {owner : Owner} {c : Cell}
      (h : Cell.allocate type shape owner = .ok c) : Built c
  | ofData {data : Data} {shape : Shape} {c : Cell} (h : Cell.ofData data shape = .ok c) : Built c
  | scalar (s : Scalar) : Built (.scalar s)
  | integers (values : Array Int) : Built (.integers values)
  | floats (values : Array Float) : Built (.floats values)
  | owned {c : Cell} (hc : Built c) (owner : Owner) : Built (c.owned owner)
  | set {c c' : Cell} {index : Nat} {value : Scalar} (hc : Built c)
      (h : c.set index value = .ok c') : Built c'
  | fill {c : Cell} (hc : Built c) (value : Scalar) : Built (c.fill value).2
  | resize {c c' : Cell} {shape : Shape} (hc : Built c) (h : c.resize shape = .ok c') : Built c'
  | reshape {c c' : Cell} {shape : Shape} (hc : Built c) (h : c.reshape shape = .ok c') : Built c'
  | convert {c c' : Cell} {type : ElementType} (hc : Built c) (h : c.convert type = .ok c') :
      Built c'
  | assign {c c' source : Cell} (hc : Built c) (hsource : Built source)
      (h : c.assign source = .ok c') : Built c'

def Converted (type : ElementType) : List Scalar → List Scalar → Prop :=
  List.Forall₂ fun s t => s.convert type = .ok t

theorem Data.length_toList (d : Data) : d.toList.length = d.size := by
  cases d <;> simp [Data.toList, Data.size]

theorem Data.type_of_mem_toList {d : Data} {s : Scalar} (h : s ∈ d.toList) : s.type = d.type := by
  cases d with
  | float v | integer v | text v | logical v =>
    obtain ⟨x, -, rfl⟩ := mem_map.mp h
    rfl

namespace Cell

variable {c c' : Cell}
variable {type : ElementType} {shape : Shape}

theorem size_set {value : Scalar} (h : c.set place value = .ok c') :
    c'.data.size = c.data.size := by
  obtain ⟨-, s, -, rfl⟩ := set_ok h
  exact Data.size_put _ _ _

theorem WellFormed.set {value : Scalar} (hc : c.WellFormed)
    (h : c.set place value = .ok c') : c'.WellFormed := by
  rw [WellFormed, size_set h, (set_frame h).2.1]
  exact hc

theorem setAll_keeps {P : Cell → Prop}
    (hset : ∀ {c c' place value}, P c → set c place value = .ok c' → P c') (hc : P c)
    (writes : List (Nat × Scalar)) : P (c.setAll writes).2 := by
  induction writes generalizing c with
  | nil => exact hc
  | cons write rest ih =>
    rw [Cell.setAll]
    split
    case h_1 c₁ hc₁ => exact ih (hset hc hc₁)
    case h_2 => exact hc

theorem forall₂_of_mapM {α β ε : Type} {f : α → Except ε β} {l : List α} {l' : List β}
    (h : l.mapM f = .ok l') : Forall₂ (fun a b => f a = .ok b) l l' := by
  induction l generalizing l' with
  | nil => cases h; exact .nil
  | cons a l ih =>
    rw [mapM_cons] at h
    cases ha : f a with
    | error e => rw [ha] at h; cases h
    | ok b =>
      cases hl : l.mapM f with
      | error e => rw [ha, hl] at h; cases h
      | ok bs =>
        rw [ha, hl] at h
        cases h
        exact .cons ha (ih hl)

theorem converted_convertData {data data' : Data} (h : convertData data type = .ok data') :
    Converted type data.toList data'.toList := by
  unfold convertData at h
  split at h
  case h_1 v =>
    cases h
    simp [Converted, Data.toList, forall₂_map_left_iff, forall₂_map_right_iff,
      forall₂_same, Scalar.convert, Scalar.type, Scalar.toFloat, Except.map]
  case h_2 v =>
    rw [Array.mapM_eq_mapM_toList] at h
    obtain ⟨integers, hintegers, rfl⟩ := map_eq_ok.1 h
    obtain ⟨ns, hns, rfl⟩ := map_eq_ok.1 hintegers
    rw [Converted, Data.toList, Data.toList, forall₂_map_left_iff, forall₂_map_right_iff]
    refine (forall₂_of_mapM hns).imp fun x n hx => ?_
    change (integerOfFloat x).map Scalar.integer = _
    rw [hx]
    rfl
  case h_3 =>
    split at h
    case isTrue htype =>
      cases h
      exact forall₂_same.2 fun s hs => if_pos ((Data.type_of_mem_toList hs).trans htype)
    case isFalse => cases h

theorem WellFormed.convert (hc : c.WellFormed) (h : c.convert type = .ok c') : c'.WellFormed := by
  obtain ⟨data, hdata, rfl⟩ := map_eq_ok.1 h
  have hlength := (converted_convertData hdata).length_eq
  rw [Data.length_toList, Data.length_toList] at hlength
  exact hlength.symm.trans hc

theorem WellFormed.assign {source : Cell} (hsource : source.WellFormed)
    (h : c.assign source = .ok c') : c'.WellFormed := by
  obtain ⟨converted, hconvert, rfl⟩ := map_eq_ok.1 h
  have hconverted : converted.WellFormed := hsource.convert hconvert
  exact hconverted

theorem wellFormed_resize (h : c.resize shape = .ok c') : c'.WellFormed := by
  rw [resize] at h
  cases hroom : checkStorage c.type shape.size with
  | error fault => rw [hroom] at h; cases h
  | ok _ =>
    rw [hroom] at h
    cases h
    exact Data.size_resize _ _

theorem Built.wellFormed (h : c.Built) : c.WellFormed := by
  induction h with
  | fresh type shape owner => exact wellFormed_fresh _ _ _
  | allocate h => exact allocate_ok h ▸ wellFormed_fresh _ _ _
  | ofData h =>
    rw [Cell.ofData] at h
    split at h
    case isTrue hsize => cases h; exact hsize
    case isFalse => cases h
  | scalar s => exact wellFormed_scalar s
  | integers values => simp [WellFormed, Cell.integers, Data.size]
  | floats values => simp [WellFormed, Cell.floats, Data.size]
  | owned _ owner ih => exact ih
  | set _ h ih => exact ih.set h
  | fill _ value ih => exact setAll_keeps .set ih _
  | resize _ h _ => exact wellFormed_resize h
  | reshape _ h _ =>
    rw [Cell.reshape] at h
    split at h
    case isTrue hsize => cases h; exact hsize.symm
    case isFalse => cases h
  | convert _ h ih => exact ih.convert h
  | assign _ _ h _ ih => exact ih.assign h

theorem Built.store {view : View} {rhs : Cell} (hc : c.Built) :
    (Control.store view rhs c).2.Built := by
  rw [Control.store]
  split
  · exact hc
  · exact setAll_keeps .set hc _

theorem Built.redeclared (hc : c.Built) (h : Control.redeclared c shape = .ok c') : c'.Built := by
  rw [Control.redeclared] at h
  split at h
  · cases h
    exact hc
  · split at h
    · exact hc.resize h
    · exact .allocate h

end Cell

/-- The number of elements is the product of the three extents, those past the rank being one. -/
theorem Shape.size_eq (s : Shape) : s.size = s.extent 0 * s.extent 1 * s.extent 2 := by
  obtain ⟨dims, hrank⟩ := s
  match dims with
  | [] => rfl
  | [a] => simp [size, extent]
  | [a, b] => simp [size, extent]
  | [a, b, c] => simp [size, extent]
  | _ :: _ :: _ :: _ :: _ =>
    simp only [length_cons, maxRank] at hrank
    omega

theorem Shape.extent_of_rank_le {s : Shape} {axis : Nat} (h : s.rank ≤ axis) :
    s.extent axis = 1 := by
  rw [extent, getD_eq_getElem?_getD, getElem?_eq_none h]
  rfl

/-! ### Machines that hold such cells -/

/-- A function that hands back built cells when it is handed built cells, whether it succeeds or
fails. -/
def Function.HandsBuilt (f : Function) : Prop :=
  ∀ call : Call, (∀ c ∈ call.args, c.Built) → ∀ c ∈ (leftIn (f.native call)).args, c.Built

/-- Every variable holds a built cell, and every function hands back such cells. -/
structure Workspace.Tidy (w : Workspace) : Prop where
  cells : ∀ var v, w.memory.get? var = some v → v.value.Built
  functions : ∀ f ∈ w.functions, f.HandsBuilt

/-- The variables and the stack hold built cells. -/
structure Machine.Tidy (m : Machine) : Prop where
  workspace : m.workspace.Tidy
  values : ∀ c ∈ m.values.items, c.Built

namespace Workspace

theorem Tidy.withValue (hw : w.Tidy) (var : Handle) (hvalue : value.Built) :
    (w.withValue var value).Tidy := by
  refine ⟨fun other v hv => ?_, hw.functions⟩
  have hv : (w.memory.update var value).get? other = some v := hv
  rw [get?_update] at hv
  split at hv
  case isTrue heq =>
    obtain ⟨v₁, -, rfl⟩ := Option.map_eq_some_iff.mp hv
    exact hvalue
  case isFalse => exact hw.cells other v hv

theorem Tidy.withdraw (hw : w.Tidy) (name : String) (var : Handle) : (w.withdraw name var).Tidy := by
  refine ⟨fun other v hv => ?_, hw.functions⟩
  have hv : (w.memory.remove var).get? other = some v := hv
  rw [get?_remove] at hv
  split at hv
  case isTrue => cases hv
  case isFalse => exact hw.cells other v hv

end Workspace

/-! ### Steps that keep a machine tidy -/

theorem mem_of_mem_extract {α : Type} {a : α} {values : Array α} {i j : Nat}
    (h : a ∈ values.extract i j) : a ∈ values := by
  obtain ⟨k, hk, rfl⟩ := Array.mem_extract_iff_getElem.mp h
  exact Array.getElem_mem _

/-- From a tidy machine a step comes to a tidy machine with a value that has a property.  If it fails,
the variables are still in order. -/
structure Keeps {α : Type} (Q : α → Prop) (x : MachineM α) : Prop where
  run : ∀ m, m.Tidy →
    match x m with
    | .ok a m' => m'.Tidy ∧ Q a
    | .error _ m' => m'.workspace.Tidy

abbrev KeepsTidy {α : Type} (x : MachineM α) : Prop := Keeps (fun _ => True) x

namespace Keeps

open Machine

variable {α β : Type} {Q : α → Prop} {R : β → Prop} {x : MachineM α} {f : α → MachineM β}

theorem pure {a : α} (h : Q a) : Keeps Q (pure a) := ⟨fun _ hm => ⟨hm, h⟩⟩

theorem throw (failure : Failure) : Keeps Q (throw failure) := ⟨fun _ hm => hm.workspace⟩

theorem fail (fault : Fault) : Keeps Q (fail fault) := .throw _

theorem get : Keeps Machine.Tidy (get : MachineM Machine) := ⟨fun _ hm => ⟨hm, hm⟩⟩

theorem set {m : Machine} (h : m.Tidy) : KeepsTidy (set m : MachineM PUnit) :=
  ⟨fun _ _ => ⟨h, trivial⟩⟩

theorem modify {g : Machine → Machine} (h : ∀ m, m.Tidy → (g m).Tidy) :
    KeepsTidy (modify g : MachineM PUnit) :=
  ⟨fun m hm => ⟨h m hm, trivial⟩⟩

theorem bind (hx : Keeps Q x) (hf : ∀ a, Q a → Keeps R (f a)) : Keeps R (x >>= f) := by
  refine ⟨fun m hm => ?_⟩
  have hrun := hx.run m hm
  rw [bind_apply]
  generalize x m = result at hrun
  cases result with
  | error failure m' => exact hrun
  | ok a m' => exact (hf a hrun.2).run m' hrun.1

theorem ite [Decidable c] {y : MachineM α} (hx : Keeps Q x) (hy : Keeps Q y) :
    Keeps Q (if c then x else y) := by
  split
  · exact hx
  · exact hy

theorem failing (fault : Fault) (f : α → MachineM β) : Keeps R (Machine.fail fault >>= f) :=
  ⟨fun _ hm => hm.workspace⟩

theorem guarded [Decidable c] {fault : Fault} {f : PUnit → MachineM β}
    (hf : Keeps R (f ⟨⟩)) : Keeps R (if c then Machine.fail fault >>= f else f ⟨⟩) :=
  .ite (.failing fault f) hf

theorem check {result : Except Fault α} (h : ∀ a, result = .ok a → Q a) :
    Keeps Q (check result) := by
  cases result with
  | ok a => exact .pure (h a rfl)
  | error fault => exact .throw _

/-- What only evaluates leaves the variables and the stack as they are. -/
theorem evaluating (h : Moves evaluation x)
    (hvalue : ∀ m a m', m.Tidy → x m = .ok a m' → Q a) : Keeps Q x := by
  refine ⟨fun m hm => ?_⟩
  cases hx : x m with
  | ok a m' =>
    have hsame := h.ok hx
    exact ⟨⟨hsame.1 ▸ hm.workspace, hsame.2 ▸ hm.values⟩, hvalue m a m' hm hx⟩
  | error failure m' =>
    have hsame : m'.workspace = m.workspace := h.error hx
    change m'.workspace.Tidy
    rw [hsame]
    exact hm.workspace

theorem of_evaluation (h : Moves evaluation x) : KeepsTidy x :=
  .evaluating h fun _ _ _ _ _ => trivial

theorem valueOf (var : Handle) : Keeps Cell.Built (valueOf var) := by
  refine .evaluating (moves_valueOf var) fun m c m' hm h => ?_
  obtain ⟨v, hv, rfl⟩ := value_eq_ok.mp (valueOf_eq_ok.mp h).1
  exact hm.workspace.cells var v hv

theorem update (var : Handle) (h : value.Built) : KeepsTidy (update var value) :=
  .modify fun _ hm => ⟨hm.workspace.withValue var h, hm.values⟩

theorem push {cell : Cell} (h : cell.Built) : KeepsTidy (onValues (Stack.push cell)) := by
  refine ⟨fun m hm => ?_⟩
  rw [onValues, Stack.push]
  cases Stack.check _ with
  | error fault => exact hm.workspace
  | ok _ =>
    refine ⟨⟨hm.workspace, fun c hc => ?_⟩, trivial⟩
    rcases Array.mem_push.mp hc with hc | rfl
    · exact hm.values c hc
    · exact h

theorem pop : Keeps Cell.Built (onValues Stack.pop) := by
  refine ⟨fun m hm => ?_⟩
  rw [onValues, Stack.pop]
  cases hback : m.values.items.back? with
  | none => exact hm.workspace
  | some value =>
    refine ⟨⟨hm.workspace, fun c hc => hm.values c ?_⟩, hm.values value ?_⟩
    · rw [← Array.extract_eq_pop rfl] at hc
      exact mem_of_mem_extract hc
    · exact Array.mem_of_back? hback

end Keeps

/-! ### Evaluation -/

namespace Evaluate

open Machine

theorem keeps_elements {value : Element → MachineM Scalar}
    (hvalue : ∀ element, Moves evaluation (value element)) (indices : List Index) (number : Nat)
    {out : Cell} (hout : out.Built) : Keeps Cell.Built (elements value indices number out) := by
  induction indices generalizing number out with
  | nil => exact .pure hout
  | cons index rest ih =>
    refine .bind (.of_evaluation moves_checkInterrupt) fun _ _ => ?_
    refine .bind (.of_evaluation (hvalue _)) fun s _ => ?_
    exact .bind (.check fun out' h => hout.set h) fun out' hout' => ih _ hout'

theorem keeps_expression (code : Array Node) (fuel pc : Nat) (fill : Option Shape) :
    Keeps Cell.Built (expression code fuel pc fill) := by
  cases fuel with
  | zero => exact .throw _
  | succ fuel =>
    rw [expression]
    split
    · split
      · exact .bind (.valueOf _) fun _ hvalue => .pure (hvalue.owned _)
      · exact .pure (.scalar _)
      · have hevaluation := compatible_evaluation code
        refine .bind (.of_evaluation (hevaluation.operands (.inl rfl) _ _)) fun _ _ => ?_
        refine .bind (.check fun _ _ => trivial) fun _ _ => ?_
        refine .bind (.check fun _ h => Cell.Built.allocate h) fun _ hout => ?_
        exact keeps_elements (hevaluation.elementValue _ _ _ (.inl rfl)) _ _ hout
    · exact .fail _

theorem keeps_nested (code : Array Node) (fuel pc : Nat) (fill : Option Shape) :
    Keeps (fun r => r.1.Built) (nested code fuel pc fill) :=
  .bind (.of_evaluation (moves_lengthAt code pc)) fun _ _ =>
    .bind (keeps_expression code fuel pc fill) fun _ hc => .pure hc

end Evaluate

/-! ### Running -/

namespace Control

open Machine

theorem keeps_listItems (fuel count index pc : Nat) {list : Cell} (hlist : list.Built) :
    Keeps (fun r => r.1.Built) (listItems code fuel count index pc list) := by
  induction count generalizing index pc list with
  | zero => exact .pure hlist
  | succ count ih =>
    refine .bind (keeps_nested code fuel pc none) fun item hitem => ?_
    refine .guarded ?_
    refine .bind (.check fun _ _ => trivial) fun s _ => ?_
    exact .bind (.check fun list' hset => hlist.set hset) fun list' hlist' => ih _ _ hlist'

theorem keeps_rightSide (fuel count pc : Nat) (type : ElementType) (fill : Shape) :
    Keeps (fun r => r.1.Built) (rightSide code fuel count pc type fill) :=
  .ite (keeps_nested code fuel pc _) (keeps_listItems fuel count 0 pc (.fresh _ _ _))

theorem keeps_assign (fuel pc : Nat) (var : Handle) (axes : Option (List Axis)) (count : Nat) :
    KeepsTidy (assign code fuel pc var axes count) := by
  refine .bind (.valueOf var) fun target _ => ?_
  by_cases hwritable : target.owner.isWritable
  case neg =>
    rw [if_pos (by simp [hwritable])]
    exact .bind .get fun _ _ => .bind (.check fun _ _ => trivial) fun _ _ => .failing _ _
  rw [if_neg (by simp [hwritable])]
  cases axes with
  | none =>
    refine .bind (keeps_rightSide fuel count _ _ _) fun ⟨rhs, pc⟩ hrhs => ?_
    refine .bind (.valueOf var) fun value hvalue => ?_
    refine .bind (.check fun value' h => hvalue.assign hrhs h) fun value' hvalue' => ?_
    exact .bind (.update var hvalue') fun _ _ => .pure trivial
  | some axes =>
    refine .bind (.of_evaluation (moves_sectionWith code fuel _ _ _)) fun ⟨view, pc⟩ _ => ?_
    refine .bind (keeps_rightSide fuel count _ _ _) fun ⟨rhs, pc⟩ hrhs => ?_
    refine .bind (.valueOf var) fun value hvalue => ?_
    refine .bind (.update var hvalue.store) fun _ _ => ?_
    exact .bind (.check fun _ _ => trivial) fun _ _ => .pure trivial

theorem keeps_declare (fuel pc : Nat) (var : Handle) (dims : Nat) :
    KeepsTidy (declare code fuel pc var dims) := by
  refine .bind (.of_evaluation (moves_extentsWith code fuel _ _)) fun ⟨extents, pc⟩ _ => ?_
  refine .bind (.check fun _ _ => trivial) fun shape _ => .bind (.valueOf var) fun value hvalue => ?_
  refine .bind (.check fun value' h => hvalue.redeclared h) fun value' hvalue' => ?_
  exact .bind (.update var hvalue') fun _ _ => .pure trivial

theorem keeps_arguments (fuel : Nat) (f : Function) (count index pc : Nat) :
    KeepsTidy (arguments code fuel f count index pc) := by
  induction count generalizing index pc with
  | zero => exact .pure trivial
  | succ count ih =>
    refine .bind (keeps_nested code fuel pc none) fun cell hcell => ?_
    refine .bind (.check fun _ _ => trivial) fun _ _ => .bind (.push hcell) fun _ _ => ?_
    exact .bind (ih _ _) fun _ _ => .pure trivial

theorem keeps_writeBack (f : Function) (base index : Nat) (refs : List (Option Handle)) :
    KeepsTidy (writeBack f base index refs) := by
  induction refs generalizing index with
  | nil => exact .pure trivial
  | cons reference refs ih =>
    cases reference with
    | none => exact ih _
    | some var =>
      refine .bind .get fun m hm => ?_
      cases hnew : m.values.items[base + index]? with
      | none => exact .fail _
      | some new =>
        have hbuilt : new.Built := hm.values new (Array.mem_of_getElem? hnew)
        refine .bind (.valueOf var) fun cell hcell => .ite ?_ (ih _)
        refine .guarded ?_
        refine .bind (.check fun cell' h => hcell.assign hbuilt h) fun cell' hcell' => ?_
        exact .bind (.update var hcell') fun _ _ => ih _

theorem keeps_invoke (hf : f.HandsBuilt) {args : Array Cell} (out : Option Cell)
    (hargs : ∀ c ∈ args, c.Built) : Keeps (fun r => ∀ c ∈ r.1, c.Built) (invoke f args out) := by
  refine .bind .get fun m hm => ?_
  have hnative := hf ⟨m.host, args, out⟩ hargs
  generalize f.native ⟨m.host, args, out⟩ = result at hnative
  cases result with
  | ok _ call => exact .bind (.set ⟨hm.workspace, hm.values⟩) fun _ _ => .pure hnative
  | error fault call => exact .bind (.set ⟨hm.workspace, hm.values⟩) fun _ _ => .pure hnative

theorem keeps_functionOf (func : Nat) : Keeps Function.HandsBuilt (functionOf func) := by
  refine .evaluating (moves_functionOf func) fun m f m' hm h => ?_
  exact hm.workspace.functions f (Array.mem_of_getElem? (functionOf_eq_ok h).1)

theorem keeps_command (fuel pc func argc : Nat) : KeepsTidy (command code fuel pc func argc) := by
  refine .bind (keeps_functionOf func) fun f hf => .bind .get fun _ _ => ?_
  refine .bind (keeps_arguments fuel f argc 0 _) fun refs _ => .bind .get fun m hm => ?_
  have htail : ∀ args, m.values.tail argc = .ok args → ∀ c ∈ args, c.Built := by
    intro args h c hc
    rw [Stack.tail] at h
    split at h
    case isTrue => cases h
    case isFalse =>
      cases h
      exact hm.values c (mem_of_mem_extract hc)
  refine .bind (.check htail) fun args hargs => ?_
  refine .bind (keeps_invoke hf _ hargs) fun result hargs => ?_
  obtain ⟨args, out, fault?⟩ := result
  refine .bind (.modify fun m hm => ⟨hm.workspace, fun c hc => ?_⟩) fun _ _ => ?_
  · rcases Array.mem_append.mp hc with hc | hc
    · exact hm.values c (mem_of_mem_extract hc)
    · exact hargs c hc
  · cases fault? with
    | some fault => exact .fail fault
    | none =>
      refine .bind (keeps_writeBack f _ 0 refs.1) fun _ _ => ?_
      refine .bind (.modify fun m hm => ⟨hm.workspace, fun c hc => ?_⟩) fun _ _ => .pure trivial
      exact hm.values c (mem_of_mem_extract hc)

theorem keeps_delete (name : String) : KeepsTidy (delete name) := by
  refine .bind .get fun m hm => ?_
  dsimp only
  split
  · exact .fail _
  · refine .bind (.valueOf _) fun value _ => .guarded ?_
    exact .modify fun _ hm' => ⟨hm.workspace.withdraw _ _, hm'.values⟩
  · exact .fail _

theorem keeps_print (text : String) : KeepsTidy (print text) :=
  .modify fun _ hm => ⟨hm.workspace, hm.values⟩

theorem keeps_setCounter (pc : Nat) (state : LoopState) : KeepsTidy (setCounter pc state) :=
  .modify fun _ hm => ⟨hm.workspace, hm.values⟩

theorem keeps_nextRound (pc : Nat) (var : Handle) (state : Option LoopState) :
    KeepsTidy (nextRound pc var state) := by
  refine .bind .get fun m _ => ?_
  cases counterState m pc state with
  | none => exact .fail _
  | some state =>
    dsimp only
    cases state.remaining with
    | zero => exact .pure trivial
    | succ remaining =>
      refine .bind (.valueOf var) fun cell hcell => .guarded ?_
      refine .bind (.check fun cell' h => hcell.set h) fun cell' hcell' => ?_
      refine .bind (.update var hcell') fun _ _ => ?_
      refine .ite (.bind (Q := fun _ => True) (.pure trivial) ?rest)
        (.bind (Q := fun _ => True) (.check fun _ _ => trivial) ?rest)
      exact fun _ _ => .bind (keeps_setCounter _ _) fun _ _ => .pure trivial

theorem sequential_keeps : Sequential fun _ => KeepsTidy where
  pure _ := .pure trivial
  bind hx hf := .bind hx fun a _ => hf a
  look := .of_evaluation .get
  check _ := .check fun _ _ => trivial

theorem keeps_commandNode (fuel pc func argc : Nat) :
    KeepsTidy (step code fuel pc (.command func argc)) := by
  refine .bind (keeps_command fuel pc func argc) fun _ _ => .bind (.bind .get fun _ _ =>
    .bind (.modify fun _ hm => ⟨hm.workspace, hm.values⟩) fun _ _ =>
      sequential_keeps.carryOut keeps_delete keeps_print _) fun flow? _ => ?_
  cases flow? with
  | some flow => exact .pure trivial
  | none => exact .pure trivial

theorem closed_keeps : Closed code fun _ => KeepsTidy where
  toSequential := sequential_keeps
  exhausted := .throw _
  pop := by
    have hpop : KeepsTidy (onValues Stack.pop >>= pure) :=
      .bind .pop fun _ _ => .pure trivial
    rwa [bind_pure] at hpop
  setCounter := keeps_setCounter
  value fuel pc := .bind (keeps_expression code fuel pc none) fun _ hcell => .push hcell
  assign := keeps_assign
  declare _ := keeps_declare _ _ _ _
  command _ := keeps_commandNode _ _ _ _
  nextRound _ := keeps_nextRound _ _ _

theorem keeps_runFrom (fuel pc : Nat) : KeepsTidy (runFrom code fuel pc) :=
  closed_keeps.runFrom fuel pc

end Control

/-! ### The core functions -/

namespace Core

open Call

theorem args_deleteAll (cells : List Cell) (c : Call) :
    (leftIn (deleteAll cells c)).args = c.args := by
  induction cells generalizing c with
  | nil => rfl
  | cons cell rest ih =>
    rw [deleteAll]
    cases cell.text with
    | error fault => rfl
    | ok name => exact ih _

theorem handsBuilt_of_args (h : ∀ call, (leftIn (f.native call)).args = call.args) :
    f.HandsBuilt := by
  intro call hargs c hc
  rw [h call] at hc
  exact hargs c hc

theorem handsBuilt_swap (hf : f.native = swap) : f.HandsBuilt := by
  intro call hargs c hc
  rw [hf, swap, get_bind_apply] at hc
  generalize hlist : call.args.toList = list at hc
  rcases list with _ | ⟨a, _ | ⟨b, _ | ⟨d, rest⟩⟩⟩
  · exact hargs c hc
  · exact hargs c hc
  · dsimp only at hc
    split at hc
    case isFalse => exact hargs c hc
    case isTrue =>
      have hmem : c ∈ call.args.toList := by
        have hc : c ∈ #[b, a] := hc
        simp only [mem_toArray, mem_cons, not_mem_nil, or_false] at hc
        rw [hlist, mem_cons, mem_singleton]
        exact hc.symm
      exact hargs c (Array.mem_def.mpr hmem)
  · exact hargs c hc

/-- All core functions but one leave their arguments alone. -/
theorem leaves (hf : f ∈ functions) :
    (∀ call, (leftIn (f.native call)).args = call.args) ∨ f.native = swap := by
  rcases modest f hf with h | ⟨h, -⟩ | ⟨hnative, -⟩
  · by_cases hswap : f.native = swap
    · exact .inr hswap
    · exact .inl (h.args_eq hswap)
  · exact .inl (h.args_eq id)
  · rw [hnative]
    exact .inl fun call => args_deleteAll _ call

theorem handsBuilt : ∀ f ∈ functions, f.HandsBuilt := by
  intro f hf
  rcases leaves hf with h | h
  · exact handsBuilt_of_args h
  · exact handsBuilt_swap h

end Core

/-! ### Kinds of variables -/

/-- The same name, type and owner. -/
structure Variable.SameKind (v v' : Variable) : Prop where
  name : v'.name = v.name
  type : v'.value.type = v.value.type
  owner : v'.value.owner = v.value.owner

namespace Variable.SameKind

variable {v' v'' : Variable}

theorem refl (v : Variable) : SameKind v v := ⟨rfl, rfl, rfl⟩

theorem trans (h : SameKind v v') (h' : SameKind v' v'') : SameKind v v'' :=
  ⟨h'.name.trans h.name, h'.type.trans h.type, h'.owner.trans h.owner⟩

end Variable.SameKind

namespace Workspace

variable {w'' : Workspace}

/-- Every variable of the second workspace is one of the first, and of the same kind. -/
def Stems (w w' : Workspace) : Prop :=
  ∀ var v', w'.memory.get? var = some v' → ∃ v, w.memory.get? var = some v ∧ v.SameKind v'

theorem Stems.refl (w : Workspace) : Stems w w := fun _ v hv => ⟨v, hv, .refl v⟩

theorem Stems.trans (h : Stems w w') (h' : Stems w' w'') : Stems w w'' := by
  intro var v'' hv''
  obtain ⟨v', hv', hkind'⟩ := h' var v'' hv''
  obtain ⟨v, hv, hkind⟩ := h var v' hv'
  exact ⟨v, hv, hkind.trans hkind'⟩

theorem stems_withValue {var : Handle} (hvar : w.memory.get? var = some v)
    (hakin : v.value.Akin value) : Stems w (w.withValue var value) := by
  intro other v' hv'
  have hv' : (w.memory.update var value).get? other = some v' := hv'
  rw [get?_update] at hv'
  split at hv'
  case isFalse => exact ⟨v', hv', .refl v'⟩
  case isTrue heq =>
    subst heq
    rw [hvar] at hv'
    cases hv'
    exact ⟨v, hvar, rfl, hakin.1, hakin.2⟩

theorem stems_withdraw (name : String) (var : Handle) : Stems w (w.withdraw name var) := by
  intro other v' hv'
  have hv' : (w.memory.remove var).get? other = some v' := hv'
  rw [get?_remove] at hv'
  split at hv'
  case isTrue => cases hv'
  case isFalse => exact ⟨v', hv', .refl v'⟩

theorem Change.stems (h : w.Change code w') : Stems w w' := by
  cases h with
  | write hvar _ hakin => exact stems_withValue hvar hakin
  | declare _ hvar hvalue => exact stems_withValue hvar (Cell.akin_redeclared hvalue)
  | count _ hvar hakin => exact stems_withValue hvar hakin
  | delete => exact stems_withdraw _ _

theorem Change.consistent (h : w.Change code w') (hw : w.memory.Consistent) :
    w'.memory.Consistent := by
  cases h with
  | write | declare | count => exact hw.update _ _
  | delete => exact hw.remove _

theorem stems_of_run (h : Relation.ReflTransGen (Change code) w w') :
    Stems w w' ∧ (w.memory.Consistent → w'.memory.Consistent) := by
  induction h with
  | refl => exact ⟨.refl w, id⟩
  | tail _ hchange ih => exact ⟨ih.1.trans hchange.stems, fun hw => hchange.consistent (ih.2 hw)⟩

/-- Nothing is missing in memory, and all of it is tidy. -/
structure InOrder (w : Workspace) : Prop where
  consistent : w.memory.Consistent
  tidy : w.Tidy

/-- From a workspace that is in order to another one that has all its variables. -/
def Gains (w w' : Workspace) : Prop :=
  w.InOrder → w'.InOrder ∧ ∀ var v, w.memory.get? var = some v → w'.memory.get? var = some v

instance : IsPreorder Workspace Gains where
  refl _ hw := ⟨hw, fun _ _ => id⟩
  trans _ _ _ h h' hw :=
    ⟨(h' (h hw).1).1, fun var v hv => (h' (h hw).1).2 var v ((h hw).2 var v hv)⟩

theorem moves_enterName (name : String) (entry : Entry) : Moves (.of Gains) (enter name entry) := by
  refine .of_leftIn fun w hw => ?_
  rw [enter]
  split
  · exact ⟨⟨hw.consistent, hw.tidy.cells, hw.tidy.functions⟩, fun _ _ => id⟩
  · exact ⟨hw, fun _ _ => id⟩

theorem moves_enterEach {functions : List Function} (h : ∀ f ∈ functions, f.HandsBuilt) :
    Moves (.of Gains) (enterFunctions functions) := by
  refine moves_enterFunctions (fun _ _ _ => moves_enterName _ _) fun f hf w hw => ?_
  refine ⟨⟨hw.consistent, hw.tidy.cells, fun g hg => ?_⟩, fun _ _ => id⟩
  rcases Array.mem_push.mp hg with hg | rfl
  · exact hw.tidy.functions g hg
  · exact h g hf

theorem gains_insert (name : String) (hvalue : value.Built) :
    Gains w { w with memory := (w.memory.insert name value).1 } := by
  intro hw
  have hget := get?_insert hw.consistent name value
  refine ⟨⟨hw.consistent.insert name value, fun var v hv => ?_, hw.tidy.functions⟩,
    fun var v hv => ?_⟩
  · have hv : (w.memory.insert name value).1.get? var = some v := hv
    rw [hget] at hv
    split at hv
    · cases hv
      exact hvalue
    · exact hw.tidy.cells var v hv
  · exact get?_insert_of_some hw.consistent name value hv

end Workspace

/-- A module whose variables hold built cells and whose functions hand back such cells. -/
structure Module.Tidy (m : Module) : Prop where
  vars : ∀ var ∈ m.vars, var.2.Built
  functions : ∀ f ∈ m.functions, f.HandsBuilt

theorem Core.tidy : Core.module.Tidy where
  vars := by
    intro var hvar
    simp only [Core.module, mem_cons, not_mem_nil, or_false] at hvar
    rcases hvar with rfl | rfl
    · exact .owned (.scalar _) _
    · exact .owned (.scalar _) _
  functions := Core.handsBuilt

namespace Workspace

theorem moves_register {m : Module} (hm : m.Tidy) : Moves (.of Gains) (register m) := by
  refine .bind .get fun _ => .bind (moves_enterName _ _) fun _ => ?_
  refine .bind (moves_enterEach hm.functions) fun _ => .bind
    (moves_enterVariables (fun _ _ => moves_enterName _ _) fun var hvar _ =>
      gains_insert var.1 (hm.vars var hvar)) fun _ => ?_
  exact .modify fun _ hw => ⟨⟨hw.consistent, hw.tidy.cells, hw.tidy.functions⟩, fun _ _ => id⟩

theorem inOrder_initial (nameLength : Nat) : (initial nameLength).InOrder := by
  have hbare : (bare nameLength).InOrder := by
    refine ⟨.empty, fun var v hv => ?_, fun f hf => ?_⟩
    · simp [bare, get?] at hv
    · simp [bare] at hf
  rw [initial, after_eq_leftIn]
  exact ((moves_register Core.tidy).leftIn _ hbare).1

theorem InOrder.grows {created : List (String × Handle)} (hw : w.InOrder)
    (h : w.Grows created w') : w'.InOrder := by
  have hadditions := h.additions hw.consistent
  refine ⟨h.consistent hw.consistent, fun var v hv => ?_, fun f hf => ?_⟩
  · cases hbefore : w.memory.get? var with
    | some v₁ =>
      rw [hadditions.kept var v₁ hbefore] at hv
      cases hv
      exact hw.tidy.cells var v hbefore
    | none =>
      obtain ⟨-, -, type, shape, hvalue⟩ := hadditions.fresh var v hv hbefore
      rw [hvalue]
      exact .fresh _ _ _
  · rw [hadditions.functions] at hf
    exact hw.tidy.functions f hf

theorem InOrder.withdraw (hw : w.InOrder) (name : String) (var : Handle) :
    (w.withdraw name var).InOrder :=
  ⟨hw.consistent.remove var, hw.tidy.withdraw name var⟩

theorem InOrder.withdrawAll (hw : w.InOrder) (list : List (String × Handle)) :
    (list.foldl (fun w (name, handle) => w.withdraw name handle) w).InOrder ∧
      Stems w (list.foldl (fun w (name, handle) => w.withdraw name handle) w) := by
  induction list generalizing w with
  | nil => exact ⟨hw, .refl w⟩
  | cons entry rest ih =>
    obtain ⟨hrest, hstems⟩ := ih (hw.withdraw entry.1 entry.2)
    exact ⟨hrest, (stems_withdraw entry.1 entry.2).trans hstems⟩

end Workspace

/-! ### Sessions -/

namespace Session

variable [Outside] {s s' : Session}

/-- One operation on a session: a module is registered, successfully or not, a statement is made, the
session is shut down, or something is done that concerns neither the workspace nor the stack of
cells. -/
inductive Operation (s : Session) : Session → Prop
  | register {m : Module} (hm : m.Tidy) : Operation s (s.register m).2
  | statement (fuel : Nat) (line : String) : Operation s (s.statement fuel line).2
  | shutdown (mode : ExitMode) : Operation s (s.shutdown mode)
  | aside {s' : Session} (hworkspace : s'.workspace = s.workspace)
      (hvalues : s'.machine.values = s.machine.values) : Operation s s'

/-- Nothing is missing in memory, and variables and stack hold built cells. -/
structure InOrder (s : Session) : Prop where
  workspace : s.workspace.InOrder
  values : ∀ c ∈ s.machine.values.items, c.Built

/-- A variable that is there before and afterwards is of the same kind. -/
def KeepsKinds (s s' : Session) : Prop :=
  ∀ var v v', s.workspace.memory.get? var = some v → s'.workspace.memory.get? var = some v' →
    v.SameKind v'

theorem keepsKinds_of_kept (h : ∀ var v, s.workspace.memory.get? var = some v →
    s'.workspace.memory.get? var = some v) : KeepsKinds s s' := by
  intro var v v' hv hv'
  rw [h var v hv] at hv'
  cases hv'
  exact .refl v

theorem keepsKinds_of_stems (h : s.workspace.Stems s'.workspace) : KeepsKinds s s' := by
  intro var v v' hv hv'
  obtain ⟨v₁, hv₁, hkind⟩ := h var v' hv'
  rw [hv] at hv₁
  cases hv₁
  exact hkind

theorem machine_flushOutput (s : Session) : s.flushOutput.workspace = s.workspace ∧
    s.flushOutput.machine.values = s.machine.values := by
  rw [flushOutput]
  split <;> exact ⟨rfl, rfl⟩

theorem inOrder_execute (hs : s.InOrder) (fuel : Nat) : (s.execute fuel).2.InOrder := by
  have hconsistent := (Workspace.stems_of_run (changes_execute fuel s)).2 hs.workspace.consistent
  have hkeeps : Keeps _ (Control.runFrom s.program.nodes fuel 0) := Control.keeps_runFrom fuel 0
  have hrun := hkeeps.run { s.machine with counters := [] } ⟨hs.workspace.tidy, hs.values⟩
  rw [execute, Control.run] at hconsistent ⊢
  generalize Control.runFrom s.program.nodes fuel 0 { s.machine with counters := [] } = result
    at hrun hconsistent ⊢
  cases result with
  | ok flow m =>
    refine ⟨⟨hconsistent, ?_⟩, ?_⟩
    · rw [(machine_flushOutput _).1]
      exact hrun.1.workspace
    · rw [(machine_flushOutput _).2]
      intro c hc
      simp [Stack.clear] at hc
  | error failure m =>
    refine ⟨⟨hconsistent, ?_⟩, ?_⟩
    · rw [(machine_flushOutput _).1]
      exact hrun
    · rw [(machine_flushOutput _).2]
      intro c hc
      simp [Stack.clear] at hc

theorem inOrder_statement (hs : s.InOrder) (fuel : Nat) (line : String) :
    (s.statement fuel line).2.InOrder := by
  have hgoes := goes_statement fuel line s
  have hshown : (s.shown line).InOrder := by
    refine ⟨?_, ?_⟩
    · rw [workspace_shown]
      exact hs.workspace
    · rw [machine_shown]
      exact hs.values
  generalize s.shown line = s₁ at hgoes hshown
  generalize s.statement fuel line = result at hgoes ⊢
  cases hgoes with
  | @refused c _ hcompile =>
    obtain ⟨created, grown, hgrows, hworkspace⟩ := Compiler.grows_of_compile_error rfl hcompile
    refine ⟨?_, hshown.values⟩
    change c.workspace.InOrder
    rw [hworkspace]
    exact ((hshown.workspace.grows hgrows).withdrawAll created).1
  | @ran c hcompile =>
    obtain ⟨created, hgrows⟩ := Compiler.grows_of_compile hcompile
    have hcompiled : (s₁.compiled c).InOrder := ⟨hshown.workspace.grows hgrows, hshown.values⟩
    exact inOrder_execute hcompiled fuel

/-- A statement creates variables before it runs and deletes none that it creates anew, so a variable
that is there before and afterwards is the same one. -/
theorem keepsKinds_statement (hs : s.InOrder) (fuel : Nat) (line : String) :
    KeepsKinds s (s.statement fuel line).2 := by
  obtain ⟨created, grown, hgrows, hrolled | hrun⟩ := grows_statement fuel line s
  · have halike := hgrows.rollback hs.workspace.consistent
    refine keepsKinds_of_kept fun var v hv => ?_
    rw [hrolled, halike.get?]
    exact hv
  · have hkept := (hgrows.additions hs.workspace.consistent).kept
    intro var v v' hv hv'
    obtain ⟨v₁, hv₁, hkind⟩ := (Workspace.stems_of_run hrun).1 var v' hv'
    rw [hkept var v hv] at hv₁
    cases hv₁
    exact hkind

theorem shutdown_cases (mode : ExitMode) (s : Session) :
    (s.shutdown mode).machine.values = s.machine.values ∧
      ((s.shutdown mode).workspace = s.workspace ∨
        (s.shutdown mode).workspace = s.workspace.dropDeclared) := by
  have hteardown : (s.teardown mode).machine.values = s.machine.values := by
    obtain ⟨host, hhost⟩ := teardown_eq mode s
    rw [hhost]
  cases mode with
  | full code =>
    obtain ⟨hworkspace, hvalues⟩ := machine_flushOutput (s.teardown (.full code)).release
    refine ⟨hvalues.trans hteardown, .inr (hworkspace.trans ?_)⟩
    change (s.teardown (.full code)).workspace.dropDeclared = _
    rw [workspace_teardown]
  | minimal code =>
    obtain ⟨hworkspace, hvalues⟩ := machine_flushOutput (s.teardown (.minimal code))
    exact ⟨hvalues.trans hteardown, .inl (hworkspace.trans (workspace_teardown _ s))⟩

theorem InOrder.operation (hs : s.InOrder) (h : Operation s s') : s'.InOrder ∧ KeepsKinds s s' := by
  cases h with
  | @register m hm =>
    have hgains := (Workspace.moves_register hm).leftIn s.workspace hs.workspace
    rw [Session.register]
    generalize Workspace.register m s.workspace = result at hgains
    cases result with
    | ok _ w => exact ⟨⟨hgains.1, hs.values⟩, keepsKinds_of_kept hgains.2⟩
    | error fault w => exact ⟨⟨hgains.1, hs.values⟩, keepsKinds_of_kept hgains.2⟩
  | statement fuel line => exact ⟨inOrder_statement hs fuel line, keepsKinds_statement hs fuel line⟩
  | shutdown mode =>
    obtain ⟨hvalues, hworkspace | hworkspace⟩ := shutdown_cases mode s
    · refine ⟨⟨hworkspace ▸ hs.workspace, hvalues ▸ hs.values⟩, keepsKinds_of_stems ?_⟩
      rw [hworkspace]
      exact .refl _
    · obtain ⟨horder, hstems⟩ := hs.workspace.withdrawAll s.workspace.declared
      refine ⟨⟨hworkspace ▸ horder, hvalues ▸ hs.values⟩, keepsKinds_of_stems ?_⟩
      rw [hworkspace]
      exact hstems
  | aside hworkspace hvalues =>
    refine ⟨⟨hworkspace ▸ hs.workspace, hvalues ▸ hs.values⟩, keepsKinds_of_stems ?_⟩
    rw [hworkspace]
    exact .refl _

theorem inOrder_of_operations {settings : Settings} {world : Outside.World}
    (hs : Relation.ReflTransGen Operation (.initial settings world) s) : s.InOrder := by
  induction hs with
  | refl => exact ⟨Workspace.inOrder_initial _, fun c hc => by simp [initial] at hc⟩
  | tail _ hstep ih => exact (ih.operation hstep).1

/-- Operations after each of which a variable is still there. -/
def Alive (var : Handle) : Session → Session → Prop :=
  Relation.ReflTransGen fun s s' => Operation s s' ∧ ∃ v, s'.workspace.memory.get? var = some v

/-- Every cell is well formed, and every variable keeps its kind for life.  In a session that any
operations have led to, the storage of every variable is as long as the product of its extents, and
while a variable is there its name, the type of its elements and its owner stay what they are. -/
theorem variables_keep_kind {settings : Settings} {world : Outside.World}
    (hs : Relation.ReflTransGen Operation (.initial settings world) s) :
    (∀ var v, s.workspace.memory.get? var = some v →
      v.value.size = v.value.shape.extent 0 * v.value.shape.extent 1 * v.value.shape.extent 2 ∧
        ∀ axis, v.value.rank ≤ axis → v.value.shape.extent axis = 1) ∧
      ∀ var v s', s.workspace.memory.get? var = some v → Alive var s s' →
        ∃ v', s'.workspace.memory.get? var = some v' ∧ v'.name = v.name ∧
          v'.value.type = v.value.type ∧ v'.value.owner = v.value.owner := by
  have horder := inOrder_of_operations hs
  constructor
  · intro var v hv
    have hsize : v.value.size = v.value.shape.size := (horder.workspace.tidy.cells var v hv).wellFormed
    exact ⟨hsize.trans (Shape.size_eq _), fun axis => Shape.extent_of_rank_le⟩
  · intro var v s' hv halive
    suffices h : s'.InOrder ∧ ∃ v', s'.workspace.memory.get? var = some v' ∧ v.SameKind v' by
      obtain ⟨-, v', hv', hkind⟩ := h
      exact ⟨v', hv', hkind.name, hkind.type, hkind.owner⟩
    induction halive with
    | refl => exact ⟨horder, v, hv, .refl v⟩
    | tail _ hstep ih =>
      obtain ⟨horder₁, v₁, hv₁, hkind₁⟩ := ih
      obtain ⟨hoperation, v₂, hv₂⟩ := hstep
      obtain ⟨horder₂, hkinds⟩ := horder₁.operation hoperation
      exact ⟨horder₂, v₂, hv₂, hkind₁.trans (hkinds var v₁ v₂ hv₁ hv₂)⟩

end Session

namespace Session

open scoped Cabinet

/-- A variable that is declared again has other extents and is still of the same kind. -/
theorem variables_keep_kind_declared_again :
    ∃ v v', (Session.after 60 ["integer v(2)"]).workspace.memory.get? ⟨2, 0⟩ = some v ∧
      (Session.after 60 ["integer v(2)", "integer v(2, 3)"]).workspace.memory.get? ⟨2, 0⟩ = some v' ∧
      v.value.size = 2 ∧ v'.value.size = 6 ∧ v'.name = v.name ∧
      v'.value.type = v.value.type ∧ v'.value.owner = v.value.owner := by
  have hsizes : ((Session.after 60 ["integer v(2)"]).workspace.memory.get? ⟨2, 0⟩).map
        (fun v => v.value.size) = some 2 ∧
      ((Session.after 60 ["integer v(2)", "integer v(2, 3)"]).workspace.memory.get? ⟨2, 0⟩).map
        (fun v => v.value.size) = some 6 := by decide +kernel
  obtain ⟨v, hv, hsize⟩ := Option.map_eq_some_iff.mp hsizes.1
  obtain ⟨v', hv', hsize'⟩ := Option.map_eq_some_iff.mp hsizes.2
  have hreached : Relation.ReflTransGen Operation (.initial {} []) (.after 60 ["integer v(2)"]) :=
    .single (.statement 60 "integer v(2)")
  have halive : Alive ⟨2, 0⟩ (.after 60 ["integer v(2)"])
      (.after 60 ["integer v(2)", "integer v(2, 3)"]) :=
    .single ⟨.statement 60 "integer v(2, 3)", v', hv'⟩
  obtain ⟨v₁, hv₁, hname, htype, howner⟩ := (variables_keep_kind hreached).2 _ v _ hv halive
  cases hv'.symm.trans hv₁
  exact ⟨v, v', hv, hv', hsize, hsize', hname, htype, howner⟩

end Session

end ArrayCommand
