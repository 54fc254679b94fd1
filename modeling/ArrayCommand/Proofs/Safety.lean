/-
What typed computations give.

A computation is sound if its result is as promised and its faults are of the kind that is allowed.
Operations on values of the right types are sound: they give values of the type of the operation,
and none of their faults is a fault of types or of the machine itself.  The same holds of
everything that an expression is made of, up to the cell of its values.

* `Fault.IsProper` — faults that blame neither the types nor the machine;
* `Sound`, `Ensures` — checks, and computations with a state, that keep a promise;
* `BinaryOp.sound_apply`, `Scalar.sound_convert`, … — operations on values of the right types;
* `Function.Gets`, `Function.Honest` — arguments as a function declares them, and a function that
  returns what it declares;
* `Meaning.HasType` — a meaning whose values have a type;
* `Meaning.ensures_cell` — the cell of its values has that type, and as many elements as its shape
  counts.
-/

import Mathlib.Data.List.Forall2
import ArrayCommand.Expr.Parse
import ArrayCommand.Proofs.Tracking

namespace ArrayCommand

open Cell Integer List

open Direct (check functionOf)
open Evaluate (AxisRange axisRange Element)

variable {allowed : Fault → Prop} {s l r text : Scalar} {type : ElementType} {c : Cell}
  {var : Handle} {args : List Scalar} {types : List ElementType} {ms : List Meaning} {view : View}

/-! ### Promises -/

/-- A fault that is neither one of types nor one of the machine itself. -/
def Fault.IsProper (f : Fault) : Prop := f.cause ≠ .typeMismatch ∧ f.cause ≠ .internalError

instance (f : Fault) : Decidable f.IsProper := inferInstanceAs (Decidable (_ ∧ _))

@[simp] theorem Fault.isProper_because {cause : Cause} {detail : String} :
    (Fault.because cause detail).IsProper ↔ cause ≠ .typeMismatch ∧ cause ≠ .internalError := .rfl

/-- A check whose result is as promised, or whose fault is allowed. -/
def Sound {α : Type} (allowed : Fault → Prop) (post : α → Prop) : Except Fault α → Prop
  | .ok a => post a
  | .error f => allowed f

/-- A check whose faults are allowed. -/
abbrev Faults {α : Type} (allowed : Fault → Prop) : Except Fault α → Prop :=
  Sound allowed fun _ => True

/-- A computation whose results are as promised and whose faults are allowed, whatever state it
starts in. -/
def Ensures {α σ : Type} (allowed : Fault → Prop) (post : α → Prop) (x : EStateM Fault σ α) : Prop :=
  ∀ s, match x s with
    | .ok a _ => post a
    | .error f _ => allowed f

section Promises

variable {α β σ : Type} {post post' : α → Prop} {after : β → Prop}

namespace Sound

variable {r : Except Fault α}

theorem mono (h : Sound allowed post r) (hp : ∀ a, post a → post' a) : Sound allowed post' r := by
  cases r with
  | ok a => exact hp a h
  | error f => exact h

theorem bind {next : α → Except Fault β} (h : Sound allowed post r)
    (hnext : ∀ a, post a → Sound allowed after (next a)) : Sound allowed after (r >>= next) := by
  cases r with
  | ok a => exact hnext a h
  | error f => exact h

theorem map {f : α → β} (h : Sound allowed post r) (hf : ∀ a, post a → after (f a)) :
    Sound allowed after (r.map f) := by
  cases r with
  | ok a => exact hf a h
  | error f => exact h

end Sound

namespace Ensures

variable {x : EStateM Fault σ α}

theorem pure {a : α} (h : post a) : Ensures (σ := σ) allowed post (pure a) := fun _ => h

theorem bind {next : α → EStateM Fault σ β} (h : Ensures allowed post x)
    (hnext : ∀ a, post a → Ensures allowed after (next a)) :
    Ensures allowed after (x >>= next) := by
  intro s
  have hs := h s
  rw [bind_apply]
  cases hx : x s with
  | ok a s' =>
    rw [hx] at hs
    exact hnext a hs s'
  | error f s' =>
    rw [hx] at hs
    exact hs

theorem check {r : Except Fault α} (h : Sound allowed post r) :
    Ensures (σ := σ) allowed post (check r) := by
  intro s
  cases r with
  | ok a => exact h
  | error f => exact h

theorem mono (h : Ensures allowed post x) (hp : ∀ a, post a → post' a) :
    Ensures allowed post' x := by
  intro s
  have hs := h s
  cases hx : x s with
  | ok a s' =>
    rw [hx] at hs
    exact hp a hs
  | error f s' =>
    rw [hx] at hs
    exact hs

theorem of_ok {a : α} {s s' : σ} (h : Ensures allowed post x) (hx : x s = .ok a s') : post a := by
  have hs := h s
  rw [hx] at hs
  exact hs

end Ensures

end Promises

theorem bind_congr_post {α β σ : Type} {post : α → Prop}
    {x : EStateM Fault σ α} {f g : α → EStateM Fault σ β} (h : Ensures allowed post x)
    (hfg : ∀ a, post a → f a = g a) : x >>= f = x >>= g := by
  funext s
  rw [bind_apply, bind_apply]
  cases hx : x s with
  | ok a s' => exact congrFun (hfg a (h.of_ok hx)) s'
  | error f s' => rfl

/-! ### Single values -/

section Types

namespace Scalar

theorem convert_self (h : s.type = type) :
    s.convert type = .ok s := if_pos h

theorem sound_truth (h : s.type = .logical) : Faults allowed s.truth := by
  cases s <;> first | exact trivial | cases h

theorem type_negate {s' : Scalar} (h : s.negate = .ok s') : s'.type = s.type := by
  cases s with
  | integer n =>
    dsimp only [negate] at h
    cases hfit : fit (-n) with
    | ok n' =>
      rw [hfit] at h
      cases h
      rfl
    | error f =>
      rw [hfit] at h
      cases h
  | float x =>
    cases h
    rfl
  | text t => cases h
  | logical b => cases h

theorem sound_complement (h : s.type = .logical) : Sound allowed (·.type = .logical) s.complement :=
  (sound_truth h).map fun _ _ => rfl

theorem sound_arithmetic {f : Scalar → Scalar → Except Fault Scalar}
    (hinteger : ∀ l r, Sound allowed (·.type = .integer) (f (.integer l) (.integer r)))
    (hfloat : ∀ l r, Sound allowed (·.type = .float) (f (.float l) (.float r))) (hl : l.type = type)
    (hr : r.type = type) (hn : type.isNumeric) : Sound allowed (·.type = type) (f l r) := by
  subst hl
  cases l with
  | integer a =>
    cases r with
    | integer b => exact hinteger a b
    | _ => cases hr
  | float a =>
    cases r with
    | float b => exact hfloat a b
    | _ => cases hr
  | text a | logical a => cases hn

end Scalar

theorem Data.type_get? {d : Data} {index : Nat} (h : d.get? index = some s) : s.type = d.type := by
  cases d with
  | float v | integer v | text v | logical v =>
    obtain ⟨x, -, rfl⟩ := Option.map_eq_some_iff.1 h
    rfl

theorem Cell.type_scalar (s : Scalar) : (scalar s).type = s.type := by
  cases s <;> rfl

end Types

section Values

variable (proper : ∀ f : Fault, f.IsProper → allowed f)

include proper

theorem Integer.sound_fit (n : Int) : Faults allowed (fit n) := by
  unfold fit
  split
  · exact trivial
  · exact proper _ (by decide)

theorem sound_finite (x : Float) : Sound allowed (·.type = .float) (finite x) := by
  unfold finite
  split
  · rfl
  · exact proper _ (by decide)

theorem sound_integerOfFloat (x : Float) : Faults allowed (integerOfFloat x) := by
  unfold integerOfFloat
  split
  · split
    · exact trivial
    · exact proper _ (by simp)
  · exact proper _ (by simp)

namespace Scalar

theorem sound_toInteger (h : s.type.isNumeric) : Faults allowed s.toInteger := by
  cases s with
  | integer n => exact trivial
  | float x => exact sound_integerOfFloat proper x
  | text t => cases h
  | logical b => cases h

/-- A value can be converted to its own type, and a number to the type of another number. -/
theorem sound_convert (h : s.type = type ∨ s.type.isNumeric ∧ type.isNumeric) :
    Sound allowed (·.type = type) (s.convert type) := by
  unfold convert
  split
  case isTrue heq => exact heq
  case isFalse hne =>
    obtain ⟨hs, htype⟩ := h.resolve_left hne
    cases type with
    | float =>
      cases s with
      | integer n => rfl
      | float x => rfl
      | text t => cases hs
      | logical b => cases hs
    | integer => exact (sound_toInteger proper hs).map fun _ _ => rfl
    | text | logical => cases htype

theorem sound_negate (h : s.type.isNumeric) : Sound allowed (·.type = s.type) s.negate := by
  cases s with
  | integer n => exact (sound_fit proper _).map fun _ _ => rfl
  | float x => rfl
  | text t => cases h
  | logical b => cases h

theorem sound_divide (l r : Float) :
    Sound allowed (·.type = .float) (divide (.float l) (.float r)) := by
  dsimp only [divide]
  split
  · exact proper _ (by decide)
  · exact sound_finite proper _

theorem sound_power (l r : Float) :
    Sound allowed (·.type = .float) (power (.float l) (.float r)) := by
  dsimp only [power]
  split
  · exact proper _ (by simp)
  · split
    · exact proper _ (by decide)
    · exact sound_finite proper _

/-- Two values of one type have an order, unless one of them is not a number. -/
theorem sound_compare (h : l.type = r.type) : Faults allowed (l.compare r) := by
  cases l with
  | integer a =>
    cases r with
    | integer b => exact trivial
    | _ => cases h
  | float a =>
    cases r with
    | float b =>
      dsimp only [compare]
      split
      · exact trivial
      · split
        · exact trivial
        · split
          · exact trivial
          · exact proper _ (by simp)
    | _ => cases h
  | text a =>
    cases r with
    | text b => exact trivial
    | _ => cases h
  | logical a =>
    cases r with
    | logical b => exact trivial
    | _ => cases h

end Scalar

theorem Integer.sound_divide (l r : Int) : Faults allowed (divide l r) := by
  unfold divide
  split
  · exact proper _ (by decide)
  · exact sound_fit proper _

theorem Integer.sound_power (l r : Int) : Faults allowed (power l r) := by
  unfold power
  repeat' split
  all_goals first
    | exact trivial
    | exact proper _ (by decide)
    | exact sound_fit proper _

theorem BinaryOp.sound_apply {op : BinaryOp} {operand result : ElementType}
    (hl : l.type = operand) (hr : r.type = operand) (h : op.result? operand = some result) :
    Sound allowed (·.type = result) (op.apply l r) := by
  have hcompare : ∀ op : BinaryOp, Sound allowed (fun s : Scalar => s.type = .logical)
      ((l.compare r).map fun order => Scalar.logical (op.holds order)) := fun _ =>
    (Scalar.sound_compare proper (hl.trans hr.symm)).map fun _ _ => rfl
  have hsame : ∀ {f : Scalar → Scalar → Except Fault Scalar},
      (∀ l r, Sound allowed (·.type = .integer) (f (.integer l) (.integer r))) →
      (∀ l r, Sound allowed (·.type = .float) (f (.float l) (.float r))) →
      (if operand.isNumeric then some operand else none) = some result →
      Sound allowed (·.type = result) (f l r) := by
    intro f hinteger hfloat hresult
    split at hresult
    case isTrue hn =>
      cases hresult
      exact Scalar.sound_arithmetic hinteger hfloat hl hr hn
    case isFalse => cases hresult
  cases op with
  | add | sub | mul =>
    exact hsame (fun _ _ => (sound_fit proper _).map fun _ _ => rfl)
      (fun _ _ => sound_finite proper _) h
  | div =>
    exact hsame (fun _ _ => (sound_divide proper _ _).map fun _ _ => rfl)
      (Scalar.sound_divide proper) h
  | pow =>
    exact hsame (fun _ _ => (sound_power proper _ _).map fun _ _ => rfl)
      (Scalar.sound_power proper) h
  | concat =>
    subst hl
    cases l with
    | text a =>
      cases r with
      | text b =>
        cases h
        rfl
      | _ => cases hr
    | _ => cases h
  | eq | notEq =>
    cases h
    exact hcompare _
  | lt | ltEq | gt | gtEq =>
    have hresult : result = .logical := by
      cases operand <;> cases h <;> rfl
    subst hresult
    exact hcompare _

theorem sound_substring (text : String) (first last : Int) :
    Faults allowed (substring text first last) := by
  unfold substring
  dsimp only
  split
  · exact trivial
  · split
    · exact proper _ (by simp)
    · exact trivial

theorem Scalar.sound_between (h : text.type = .text) (first last : Int) :
    Sound allowed (·.type = .text) (text.between first last) := by
  cases text with
  | text s => exact (sound_substring proper s first last).map fun _ _ => rfl
  | _ => cases h

theorem Scalar.sound_part {first : Scalar} {last : Option Scalar} (h : text.type = .text)
    (hfirst : first.type.isNumeric) (hlast : ∀ s ∈ last, s.type.isNumeric) :
    Sound allowed (·.type = .text) (text.part first last) := by
  cases last with
  | none =>
    exact (sound_toInteger proper hfirst).bind fun _ _ => sound_between proper h _ _
  | some last =>
    refine (sound_toInteger proper (hlast last rfl)).bind fun _ _ => ?_
    exact (sound_toInteger proper hfirst).bind fun _ _ => sound_between proper h _ _

/-! ### Cells -/

theorem Cell.sound_get (c : Cell) (index : Nat) :
    Sound allowed (·.type = c.type) (c.get index) := by
  unfold get
  cases h : c.data.get? index with
  | some s => exact Data.type_get? h
  | none => exact proper _ (Fault.isProper_because.2 (by decide))

theorem Cell.sound_set (index : Nat) (h : s.type = c.type ∨ s.type.isNumeric ∧ c.type.isNumeric) :
    Sound allowed (fun c' => c'.type = c.type ∧ (c.WellFormed → c'.WellFormed)) (c.set index s) := by
  unfold set
  split
  · refine (Scalar.sound_convert proper h).map fun s _ => ⟨Data.type_put _ _ _, fun hc => ?_⟩
    exact (Data.size_put _ _ _).trans hc
  · exact proper _ (Fault.isProper_because.2 (by decide))

theorem Cell.sound_allocate (type : ElementType) (shape : Shape) (owner : Owner) :
    Sound allowed (fun c => c.type = type ∧ c.WellFormed) (allocate type shape owner) := by
  unfold allocate checkStorage
  split
  · exact ⟨Data.type_zeroed _ _, wellFormed_fresh _ _ _⟩
  · exact proper _ (by simp)

theorem Cell.sound_only (c : Cell) : Sound allowed (·.type = c.type) c.only := by
  unfold only
  split
  · exact sound_get proper c 0
  · exact proper _ (by simp)

/-- The only element of a cell of numbers has an integer part, or it is too large. -/
theorem Cell.sound_integer (h : c.type.isNumeric) : Faults allowed c.integer :=
  (sound_only proper c).bind fun _ hs => Scalar.sound_toInteger proper (hs ▸ h)

/-! ### Shapes and sections -/

theorem Shape.sound_ofDims (dims : List Nat) : Faults allowed (Shape.ofDims dims) := by
  unfold Shape.ofDims
  split
  · split
    · exact trivial
    · exact proper _ (by simp)
  · exact proper _ (by simp)

theorem Shape.sound_cast (shape : Shape) (dims : List Nat) : Faults allowed (shape.cast dims) := by
  refine (Shape.sound_ofDims proper dims).bind fun _ _ => ?_
  split
  · exact proper _ (by simp)
  · exact trivial

namespace Evaluate

theorem sound_meetAll (axis : Nat) (dims dims' : List Nat) :
    Faults allowed (meetAll axis dims dims') := by
  induction dims generalizing axis dims' with
  | nil => exact trivial
  | cons d dims ih =>
    cases dims' with
    | nil => exact trivial
    | cons d' dims' =>
      have hmeet : Faults allowed (meet axis d d') := by
        unfold meet
        split
        · exact trivial
        · split
          · exact trivial
          · exact proper _ (by simp)
      exact hmeet.bind fun _ _ => (ih (axis + 1) dims').bind fun _ _ => trivial

theorem sound_domain (shapes : List Shape) : Faults allowed (domain shapes) := by
  have hcommon : ∀ dims, Faults allowed (commonDims dims shapes) := by
    induction shapes with
    | nil => exact fun _ => trivial
    | cons shape shapes ih =>
      exact fun dims => (sound_meetAll proper 0 dims shape.dims).bind fun _ _ => ih _
  exact (hcommon []).bind fun _ _ => Shape.sound_ofDims proper _

theorem sound_axisRange (axis extent : Nat) (first last step : Int) :
    Faults allowed (axisRange axis extent first last step) := by
  unfold axisRange
  dsimp only
  split
  · exact trivial
  · exact proper _ (by simp)

theorem sound_axisBetween (axis extent : Nat) (first last step : Option Int) :
    Faults allowed (axisBetween axis extent first last step) := by
  unfold axisBetween
  by_cases h : step.getD 1 = 0
  · simp only [h, if_true]
    exact proper _ (by simp)
  · simp only [h, if_false]
    exact sound_axisRange proper axis extent _ _ _

theorem sound_checked (n : Int) : Faults allowed (Word.checked n) := by
  unfold Word.checked
  split
  · exact trivial
  · exact proper _ (by simp)

theorem sound_placed (a : Axis) (range : AxisRange) (stride base : Int) :
    Faults allowed (placed a range stride base) := by
  have hreached : Faults allowed (reached range stride base) := by
    unfold reached
    split
    · exact trivial
    · exact (sound_checked proper _).bind fun _ _ => sound_checked proper _
  refine hreached.bind fun base _ => ?_
  split
  · exact trivial
  · exact (sound_checked proper _).bind fun _ _ => trivial

theorem sound_viewOf (shape : Shape) (axes : List Axis) (ranges : List AxisRange) :
    Faults allowed (viewOf shape axes ranges) := by
  exact (Shape.sound_ofDims proper _).bind fun _ _ => trivial

theorem sound_extentOf (n : Int) : Faults allowed (extentOf n) := by
  unfold extentOf
  split
  · exact proper _ (by simp)
  · exact trivial

theorem sound_checkAxes (count : Nat) (shape : Shape) : Faults allowed (checkAxes count shape) := by
  unfold checkAxes
  split
  · exact proper _ (by simp)
  · exact trivial

end Evaluate

theorem Memory.sound_value {memory : Memory} {post : Cell → Prop}
    (h : ∀ cell, memory.value var = .ok cell → post cell) :
    Sound allowed post (memory.value var) := by
  unfold Memory.value Memory.get at h ⊢
  cases hvar : memory.get? var with
  | some var' =>
    rw [hvar] at h
    exact h _ rfl
  | none => exact proper _ (Fault.isProper_because.2 (by decide))

end Values

/-! ### Functions -/

/-- An argument of a type that its declaration allows; a name is handed over as a text. -/
def ArgDecl.Admits (decl : ArgDecl) (type : ElementType) : Prop :=
  if decl.mode = .name then type = .text else decl.type.accepts type

/-- Arguments as many and of the types as a function declares them. -/
structure Function.Accepts (f : Function) (types : List ElementType) : Prop where
  enough : f.minArgs ≤ types.length
  room : ∀ most, f.maxArgs = some most → types.length ≤ most
  types : ∀ (i : Nat) (type : ElementType), types[i]? = some type → (f.decl i).Admits type

/-- The arguments that a function is promised.  A function called for every element gets single
values, one called once gets cells of the declared ranks. -/
structure Function.Gets (f : Function) (args : Array Cell) : Prop where
  accepted : f.Accepts (args.toList.map Cell.type)
  single : f.kind = .elemental → ∀ cell ∈ args, cell.shape = .scalar
  ranks : f.kind = .once → ∀ (i : Nat) (cell : Cell), args[i]? = some cell →
    (f.decl i).rank.accepts cell.rank cell.size
  formed : ∀ (i : Nat) (cell : Cell), args[i]? = some cell → (f.decl i).mode ≠ .reference →
    cell.WellFormed

theorem Function.gets_scalars {f : Function} (hkind : f.kind = .elemental)
    (h : f.Accepts (args.map Scalar.type)) : f.Gets (args.map scalar).toArray where
  accepted := by
    rw [map_map]
    exact (map_congr_left fun s _ => type_scalar s) ▸ h
  single _ cell hcell := by
    obtain ⟨s, -, rfl⟩ := mem_map.1 (mem_toArray.1 hcell)
    rfl
  ranks honce := by
    rw [hkind] at honce
    cases honce
  formed i cell hcell _ := by
    obtain ⟨s, -, rfl⟩ := mem_map.1 (mem_of_getElem? (getElem?_toArray ▸ hcell))
    exact wellFormed_scalar s

/-- A function that keeps its own promise on such arguments: it returns a value of the type it
declares for them, or it fails in an allowed way. -/
def Function.Honest (allowed : Fault → Prop) (f : Function) : Prop :=
  ∀ (host : Host) (args : Array Cell) (out : Cell) (column : Column), f.Gets args →
    Parse.resultType f (args.toList.map Cell.type) column = .ok out.type →
    match f.native ⟨host, args, some out⟩ with
    | .ok _ call => ∃ out', call.out = some out' ∧ out'.type = out.type
    | .error fault _ => allowed fault

/-! ### Meanings -/

def Meaning.HasType (allowed : Fault → Prop) (m : Meaning) (type : ElementType) : Prop :=
  ∀ element, Ensures allowed (·.type = type) (m.value element)

def Operand.HasType (allowed : Fault → Prop) (w : Workspace) (operand : Operand)
    (type : ElementType) : Prop :=
  ∀ element, Sound allowed (·.type = type) (operand.element w element)

section Meanings

variable {w : Workspace} {m l r : Meaning}
variable {f : Function} {func : Nat} {column : Column}

namespace Meaning

variable {type' : ElementType}

theorem hasType_const (value : Scalar) : (const value).HasType allowed value.type :=
  fun _ => .pure rfl

theorem hasType_placeholder : placeholder.HasType allowed .integer := fun _ => .pure rfl

theorem hasType_operand {o : Operand} (h : o.HasType allowed w type) :
    (operand w o).HasType allowed type := fun element => .check (h element)

theorem HasType.map {f : Scalar → Except Fault Scalar} (h : m.HasType allowed type)
    (hf : ∀ s : Scalar, s.type = type → Sound allowed (·.type = type') (f s)) :
    (m.map f).HasType allowed type' :=
  fun element => (h element).bind fun s hs => .check (hf s hs)

theorem HasType.map₂ {type'' : ElementType} {f : Scalar → Scalar → Except Fault Scalar}
    (hl : l.HasType allowed type) (hr : r.HasType allowed type')
    (hf : ∀ a b : Scalar, a.type = type → b.type = type' →
      Sound allowed (·.type = type'') (f a b)) : (Meaning.map₂ f l r).HasType allowed type'' :=
  fun element => (hl element).bind fun a ha => (hr element).bind fun b hb => .check (hf a b ha hb)

theorem HasType.map₂_congr {f g : Scalar → Scalar → Except Fault Scalar}
    (hl : l.HasType allowed type) (hr : r.HasType allowed type')
    (hfg : ∀ a b : Scalar, a.type = type → b.type = type' → f a b = g a b) :
    Meaning.map₂ f l r = Meaning.map₂ g l r := by
  refine Meaning.ext rfl (funext fun element => ?_)
  refine bind_congr_post (hl element) fun a ha => bind_congr_post (hr element) fun b hb => ?_
  exact congrArg check (hfg a b ha hb)

theorem HasType.guarded (decisive : Bool) (hl : l.HasType allowed .logical)
    (hr : r.HasType allowed .logical) : (guarded decisive l r).HasType allowed .logical := by
  intro element
  refine (hl element).bind fun a ha => (Ensures.check (Scalar.sound_truth ha)).bind fun b _ => ?_
  split
  · exact .pure ha
  · exact hr element

theorem ensures_values (h : Forall₂ (Meaning.HasType allowed) ms types) (element : Element) :
    Ensures allowed (fun vs : List Scalar => vs.map Scalar.type = types)
      (ms.mapM fun m => m.value element) := by
  induction h with
  | nil => exact .pure rfl
  | cons hm _ ih =>
    rw [mapM_cons]
    refine (hm element).bind fun s hs => ih.bind fun vs hvs => .pure ?_
    rw [map_cons, hs, hvs]

end Meaning

theorem Direct.ensures_functionOf (hf : w.functions[func]? = some f) :
    Ensures allowed (· = f) (functionOf w func) := by
  intro host
  rw [functionOf, hf]
  rfl

theorem Direct.ensures_invoke {args : Array Cell} {owner : Owner} (honest : f.Honest allowed)
    (hargs : f.Gets args)
    (hresult : Parse.resultType f (args.toList.map Cell.type) column = .ok type) :
    Ensures allowed (fun r => ∃ out, r.2 = some out ∧ out.type = type)
      (Direct.invoke f args (some (Cell.fresh type .scalar owner))) := by
  intro host
  have hfresh : (Cell.fresh type .scalar owner).type = type := Data.type_zeroed _ _
  have hnative := honest host args (Cell.fresh type .scalar owner) column hargs (hfresh.symm ▸ hresult)
  rw [Direct.invoke]
  cases hrun : f.native ⟨host, args, some (Cell.fresh type .scalar owner)⟩ with
  | error fault call =>
    rw [hrun] at hnative
    exact hnative
  | ok _ call =>
    rw [hrun] at hnative
    obtain ⟨out, hout, htype⟩ := hnative
    exact ⟨out, hout, htype.trans hfresh⟩

variable (proper : ∀ f : Fault, f.IsProper → allowed f)

include proper

theorem Operand.hasType_var (h : ∀ cell, w.memory.value var = .ok cell → cell.type = type) :
    (⟨.var var, view⟩ : Operand).HasType allowed w type := by
  intro element
  refine (Memory.sound_value proper h).bind fun cell hcell => ?_
  exact (sound_get proper cell _).mono fun s hs => hs.trans hcell

theorem Operand.hasType_cell {cell : Cell} (h : cell.type = type) :
    (⟨.cell cell, view⟩ : Operand).HasType allowed w type :=
  fun _ => (sound_get proper cell _).mono fun _ hs => hs.trans h

namespace Meaning

theorem HasType.part {text first : Meaning} {last : Option Meaning}
    (htext : text.HasType allowed .text) (hfirst : first.HasType allowed .integer)
    (hlast : ∀ m ∈ last, m.HasType allowed .integer) :
    (part text first last).HasType allowed .text := by
  intro element
  refine (htext element).bind fun t ht => (hfirst element).bind fun a ha => ?_
  have hoption : Ensures allowed (fun o : Option Scalar => ∀ s ∈ o, s.type = .integer)
      (valueOption element last) := by
    cases last with
    | none => exact .pure nofun
    | some m =>
      refine (hlast m rfl element).bind fun s hs => .pure ?_
      rintro _ ⟨⟩
      exact hs
  refine hoption.bind fun o ho => .check ?_
  exact Scalar.sound_part proper ht (ha ▸ rfl) fun s hs => ho s hs ▸ rfl

end Meaning

theorem Direct.ensures_call (hf : w.functions[func]? = some f) (hkind : f.kind = .elemental)
    (honest : f.Honest allowed) (hargs : f.Accepts (args.map Scalar.type))
    (hresult : Parse.resultType f (args.map Scalar.type) column = .ok type) :
    Ensures allowed (·.type = type) (Direct.call w func type args) := by
  have htypes : (args.map Cell.scalar).toArray.toList.map Cell.type = args.map Scalar.type := by
    rw [map_map]
    exact map_congr_left fun s _ => Cell.type_scalar s
  refine (Direct.ensures_functionOf hf).bind ?_
  rintro _ rfl
  refine (Direct.ensures_invoke honest (Function.gets_scalars hkind hargs)
    (htypes.symm ▸ hresult)).bind ?_
  rintro ⟨_, _⟩ ⟨out, rfl, htype⟩
  exact .check ((Cell.sound_get proper out 0).mono fun s hs => hs.trans htype)

theorem Meaning.hasType_call
    (hf : w.functions[func]? = some f) (hkind : f.kind = .elemental) (honest : f.Honest allowed)
    (hargs : f.Accepts types) (hresult : Parse.resultType f types column = .ok type)
    (h : Forall₂ (Meaning.HasType allowed) ms types) :
    (Meaning.call w func type ms).HasType allowed type := by
  intro element
  refine (Meaning.ensures_values h element).bind fun vs hvs => ?_
  subst hvs
  exact Direct.ensures_call proper hf hkind honest hargs hresult

theorem Direct.ensures_callOnce {args : List Cell} (honest : f.Honest allowed)
    (hargs : f.Gets args.toArray)
    (hresult : Parse.resultType f (args.map Cell.type) column = .ok type) :
    Ensures allowed (fun o : Operand => o.HasType allowed w type)
      (Direct.callOnce f type args) := by
  refine (Direct.ensures_invoke honest hargs hresult).bind ?_
  rintro ⟨_, _⟩ ⟨out, rfl, htype⟩
  have hin : Sound allowed (· = out) (out.inType type) := by
    rw [Cell.inType, if_pos htype]
    rfl
  refine (Ensures.check hin).bind ?_
  rintro _ rfl
  exact .pure (Operand.hasType_cell proper htype)

namespace Meaning

theorem ensures_fillFrom (h : m.HasType allowed type) (indices : List Index) :
    ∀ (number : Nat) (out : Cell), out.type = type → out.WellFormed →
      Ensures allowed (fun c => c.type = type ∧ c.WellFormed)
        (fillFrom m.value indices number out) := by
  induction indices with
  | nil => exact fun _ _ ht hf => .pure ⟨ht, hf⟩
  | cons index rest ih =>
    intro number out ht hf
    refine (h ⟨index, number⟩).bind fun s hs => ?_
    have hset := sound_set (c := out) proper number (.inl (hs.trans ht.symm))
    refine (Ensures.check hset).bind fun c hc => ?_
    exact ih (number + 1) c (hc.1.trans ht) (hc.2 hf)

theorem ensures_cell (h : m.HasType allowed type) (fill : Option Shape) :
    Ensures allowed (fun c => c.type = type ∧ c.WellFormed) (m.cell type fill) := by
  refine (Ensures.check (Evaluate.sound_domain proper m.shapes)).bind fun shape _ => ?_
  refine (Ensures.check (sound_allocate proper type _ _)).bind fun out hout => ?_
  exact ensures_fillFrom proper h _ 0 out hout.1 hout.2

theorem ensures_integer (h : m.HasType allowed .integer) :
    Ensures allowed (fun _ => True) m.integer := by
  refine (ensures_cell proper h none).bind fun c hc => .check (sound_integer proper ?_)
  rw [hc.1]
  rfl

end Meaning

end Meanings

end ArrayCommand
