/-
What the parts of a well-typed statement do.

A part of a statement is safe if it never blames the types or the machine, and if every variable has
the type afterwards that it had when the statement was read.  Assignments and declarations that are
well typed are safe, and so are conditions and the bounds and rounds of counted loops.  A command is
safe as long as its function is; the core function that exchanges two variables is the only one that
may blame the types, and then it is this function itself that does.

Main definitions:

* `Workspace.IsCore` — a workspace that has no functions but those of the core;
* `WorldM.Safe` — a part of a statement that is safe in every later state of the variables;
* `Simple.Exchanges` — a command whose exchange of two variables fails.

Main results:

* `Typed.WellTyped.ensures` — the value of a well-typed expression has its type;
* `Simple.safe_assigning`, `Simple.safe_declaring` — assignments and declarations are safe;
* `Simple.WellTyped.run` — **a simple statement is safe, unless an exchange of two variables fails**;
* `Cell.sound_condition`, `safe_loopState`, `safe_startRound` — conditions and counted loops.
-/

import ArrayCommand.Proofs.Natives

namespace ArrayCommand

open Fault Control Cell Argument WorldM List Memory

open Direct (check)

variable {w W : Workspace} {var : Handle} {value : Cell} {f : Fault} {allowed : Fault → Prop}
  {ss : List Term} {extents : List Expr} {column : Column} {cells : Array Cell}
variable {type : ElementType} {c : Cell} {values : List Typed}

/-! ### Later states -/

/-- A workspace that has no functions but those of the core. -/
def Workspace.IsCore (w : Workspace) : Prop := ∀ f ∈ w.functions, f ∈ Core.functions

/-- A value of the type that a variable has, if it is there. -/
def Workspace.Takes (w : Workspace) (var : Handle) (value : Cell) : Prop :=
  ∀ cell, w.memory.value var = .ok cell → value.type = cell.type

namespace Workspace

theorem IsCore.trusted (hw : w.IsCore) (h : w.Later W) : Trusted IsProper w W :=
  ⟨proper, h, fun f hf => Core.honest (hw f hf)⟩

theorem Later.takes (h : w.Later W) (hvar : W.memory.value var = .ok value) : w.Takes var value :=
  fun _ hcell => h.types hcell hvar

theorem Later.of_stems {W' : Workspace} (h : w.Later W) (hstems : W.Stems W')
    (hfunctions : W'.functions = W.functions) : w.Later W' where
  functions := hfunctions.trans h.functions
  types hcell hcell' := by
    obtain ⟨v', hv', rfl⟩ := value_eq_ok.mp hcell'
    obtain ⟨v, hv, hkind⟩ := hstems _ v' hv'
    exact hkind.type.trans (h.types hcell (value_eq_ok.mpr ⟨v, hv, rfl⟩))

theorem Later.update (h : w.Later W) (hvalue : w.Takes var value) :
    w.Later { W with memory := W.memory.update var value } where
  functions := h.functions
  types {other _ _} hcell hcell' := by
    obtain ⟨v', hv', rfl⟩ := value_eq_ok.mp hcell'
    rw [get?_update] at hv'
    split at hv'
    case isFalse => exact h.types hcell (value_eq_ok.mpr ⟨v', hv', rfl⟩)
    case isTrue heq =>
      subst heq
      obtain ⟨v, -, rfl⟩ := Option.map_eq_some_iff.mp hv'
      exact hvalue _ hcell

end Workspace

/-! ### Safe parts -/

/-- A part of a statement that is safe: in every later state of the variables it comes to a still
later one with a result as promised, or it fails properly. -/
def WorldM.Safe {α : Type} (w : Workspace) (post : α → Prop) (x : WorldM α) : Prop :=
  ∀ W, w.Later W.workspace → match x W with
    | .ok a W' => w.Later W'.workspace ∧ post a
    | .error f _ => f.IsProper

namespace WorldM.Safe

variable {α β : Type} {post : α → Prop} {after : β → Prop}

theorem bind {x : WorldM α} {next : α → WorldM β} (h : Safe w post x)
    (hnext : ∀ a, post a → Safe w after (next a)) : Safe w after (x >>= next) := by
  intro W hW
  have hx := h W hW
  rw [bind_apply]
  cases hrun : x W with
  | ok a W' =>
    rw [hrun] at hx
    exact hnext a hx.2 W' hx.1
  | error f W' =>
    rw [hrun] at hx
    exact hx

theorem pure {a : α} (h : post a) : Safe w post (Pure.pure a) := fun _ hW => ⟨hW, h⟩

theorem throw (h : f.IsProper) : Safe w post (MonadExcept.throw f) := fun _ _ => h

theorem get : Safe w (fun W : World => w.Later W.workspace) MonadState.get :=
  fun _ hW => ⟨hW, hW⟩

theorem check {r : Except Fault α} (h : Sound IsProper post r) : Safe w post (Direct.check r) := by
  intro W hW
  cases r with
  | ok a => exact ⟨hW, h⟩
  | error f => exact h

theorem evaluating {x : Workspace → HostM α}
    (h : ∀ W, w.Later W → Ensures IsProper post (x W)) : Safe w post (evaluating x) := by
  intro W hW
  have hx := h W.workspace hW W.host
  rw [WorldM.evaluating]
  cases hrun : x W.workspace W.host with
  | ok a host =>
    rw [hrun] at hx
    exact ⟨hW, hx⟩
  | error f host =>
    rw [hrun] at hx
    exact hx

theorem valueOf (w : Workspace) (var : Handle) : Safe w (w.Takes var) (valueOf var) := by
  refine get.bind fun W hW => check (sound_value proper fun cell hcell => ?_)
  exact hW.takes hcell

theorem update (h : w.Takes var value) :
    Safe w (fun _ => True) (update var value) := fun _ hW => ⟨hW.update h, trivial⟩

theorem print (text : String) : Safe w (fun _ => True) (print text) := fun _ hW => ⟨hW, trivial⟩

theorem guard {p : Prop} [Decidable p] (h : f.IsProper) :
    Safe w (fun _ => p) (Direct.check (if p then .ok () else .error f)) := by
  by_cases hp : p
  · rw [if_pos hp]
    exact check hp
  · rw [if_neg hp]
    exact check h

end WorldM.Safe

/-! ### Cells -/

theorem Sound.mapM {α β : Type} {f : α → Except Fault β}
    (h : ∀ a, Faults allowed (f a)) (v : Array α) :
    Faults allowed (v.mapM f) := by
  have hlist : ∀ list : List α, Faults allowed (list.mapM f) := by
    intro list
    induction list with
    | nil => exact trivial
    | cons a list ih =>
      rw [mapM_cons]
      exact (h a).bind fun _ _ => ih.bind fun _ _ => trivial
  rw [Array.mapM_eq_mapM_toList]
  exact (hlist v.toList).map fun _ _ => trivial

namespace Cell

theorem sound_convertData {data : Data} (h : data.type.Suits type) :
    Sound IsProper (·.type = type) (convertData data type) := by
  obtain rfl | ⟨hdata, htype⟩ := h
  · cases data <;> rfl
  cases data with
  | integer v =>
    cases type with
    | integer | float => rfl
    | text | logical => cases htype
  | float v =>
    cases type with
    | integer => exact (Sound.mapM (sound_integerOfFloat proper) v).map fun _ _ => rfl
    | float => rfl
    | text | logical => cases htype
  | text v | logical v => cases hdata

theorem sound_assign {source : Cell} (h : source.type.Suits c.type) :
    Sound IsProper (·.type = c.type) (c.assign source) := by
  have hconvert : Sound IsProper (fun d : Cell => d.type = c.type) (source.convert c.type) :=
    (sound_convertData h).map fun _ hd => hd
  exact hconvert.map fun _ hd => hd

theorem sound_setAll {entries : List (Nat × Scalar)}
    (h : ∀ entry ∈ entries, entry.2.type.Suits c.type) :
    Faults IsProper (c.setAll entries).1 ∧ (c.setAll entries).2.type = c.type := by
  induction entries generalizing c with
  | nil => exact ⟨trivial, rfl⟩
  | cons entry rest ih =>
    obtain ⟨index, value⟩ := entry
    obtain ⟨hvalue, hrest⟩ := forall_mem_cons.mp h
    have hset := sound_set proper index hvalue
    rw [setAll]
    cases hc : c.set index value with
    | error f =>
      rw [hc] at hset
      exact ⟨hset, rfl⟩
    | ok c' =>
      rw [hc] at hset
      have hrest' := ih (c := c') fun entry hentry => hset.1.symm ▸ hrest entry hentry
      exact ⟨hrest'.1, hrest'.2.trans hset.1⟩

theorem sound_redeclared (value : Cell) (shape : Shape) :
    Sound IsProper (·.type = value.type) (redeclared value shape) := by
  unfold redeclared
  split
  · rfl
  · split
    · unfold resize checkStorage
      split
      · exact Data.type_resize _ _
      · exact isProper_because.2 (by decide)
    · exact (sound_allocate proper _ _ _).mono fun _ hc => hc.1

/-- The only element of a cell of truth values. -/
theorem sound_condition (h : c.type = .logical) : Faults IsProper c.condition := by
  unfold condition
  split
  · exact isProper_because.2 (by decide)
  · refine (sound_get proper c 0).bind fun s hs => Scalar.sound_truth (hs.trans h)

end Cell

theorem Control.sound_store (view : View) {rhs target : Cell} (h : rhs.type.Suits target.type) :
    Faults IsProper (store view rhs target).1 ∧ (store view rhs target).2.type = target.type := by
  unfold store
  dsimp only
  split
  · exact ⟨isProper_because.2 (by decide), rfl⟩
  refine sound_setAll fun entry hentry => ?_
  have hvalue := (of_mem_zip hentry).2
  have hmem : entry.2 ∈ rhs.data.toList := by
    split at hvalue
    case isFalse => exact hvalue
    case isTrue hone =>
      rw [eq_of_mem_replicate hvalue]
      have hlength : rhs.data.toList.length = 1 := (Data.length_toList _).trans hone
      obtain ⟨s, hs⟩ := length_eq_one_iff.mp hlength
      simp [hs]
  exact Data.type_of_mem_toList hmem ▸ h

/-! ### Values -/

section Values

variable (hw : w.IsCore) (hW : w.Later W)

include hw hW

/-- **The value of a well-typed expression has its type**, in every later state of the variables. -/
theorem Typed.WellTyped.ensures {t : Typed} (ht : t.WellTyped w) (fill : Option Shape) :
    Ensures IsProper (fun c => c.type = t.type) (t.expr.evaluate W t.type fill) := by
  obtain ⟨s, hs⟩ := ht
  have hrealized := (hs.realizes (hw.trusted hW)).realized
  rw [Expr.evaluate, hrealized.meaning]
  refine hrealized.typed.bind fun m hm => ?_
  exact (Meaning.ensures_cell proper hm fill).mono fun _ hc => hc.1

theorem Typed.ensures_listItems (h : ∀ v ∈ values, v.WellTyped w ∧ v.type.Suits type)
    {list : Cell} (index : Nat) (hlist : list.type = type) :
    Ensures IsProper (fun c => c.type = type) (Typed.listItems W values index list) := by
  induction values generalizing index list with
  | nil => exact .pure hlist
  | cons v values ih =>
    obtain ⟨⟨hv, hsuits⟩, hrest⟩ := forall_mem_cons.mp h
    refine (hv.ensures hw hW none).bind fun item hitem => ?_
    have hone : Sound IsProper (fun _ : Unit => True)
        (if item.size ≠ 1 then .error (.because .shapeMismatch "LIST ITEMS MUST BE SCALARS")
          else .ok ()) := by
      split
      · exact isProper_because.2 (by decide)
      · exact trivial
    refine (Ensures.check hone).bind fun _ _ => ?_
    refine (Ensures.check (sound_get proper item 0)).bind fun s hs => ?_
    have hset : s.type.Suits list.type := by rw [hs, hitem, hlist]; exact hsuits
    refine (Ensures.check (sound_set proper index hset)).bind fun list' hlist' => ?_
    exact ih hrest (index + 1) (hlist'.1.trans hlist)

theorem Typed.ensures_rightSide (h : ∀ v ∈ values, v.WellTyped w ∧ v.type.Suits type)
    (fill : Shape) :
    Ensures IsProper (fun c => c.type.Suits type) (Typed.rightSide values type fill W) := by
  unfold Typed.rightSide
  split
  case h_1 v =>
    obtain ⟨hv, hsuits⟩ := h v (mem_singleton_self v)
    exact (hv.ensures hw hW (some fill)).mono fun c hc => hc ▸ hsuits
  case h_2 =>
    have hfresh : (fresh type (.vector values.length) .temporary).type = type :=
      Data.type_zeroed _ _
    exact (Typed.ensures_listItems hw hW h 0 hfresh).mono fun c hc => .inl hc

theorem Selector.Elaborate.ensures_view {ss : List Selector} {subscripts : List Subscript}
    (h : Selector.Elaborate w ss subscripts) (shape : Shape) :
    Ensures IsProper (fun _ => True) (Subscript.view W shape subscripts) := by
  have hrealized := h.realized (hw.trusted hW)
  refine (Ensures.check (Evaluate.sound_checkAxes proper _ shape)).bind fun _ _ => ?_
  rw [hrealized.spans]
  refine (hrealized.ensures shape 0 0).bind fun ranges _ => ?_
  exact .check (Evaluate.sound_viewOf proper shape _ ranges)

theorem Term.AreIntegers.ensures (h : Term.AreIntegers w ss extents) :
    Ensures IsProper (fun _ => True) (Expr.extents W extents) := by
  have hrealized := h.realized (hw.trusted hW)
  rw [hrealized.extents]
  exact hrealized.ensures

end Values

/-! ### Assignments and declarations -/

theorem Memory.sound_get (memory : Memory) (var : Handle) : Faults IsProper (memory.get var) := by
  unfold get
  split
  · exact trivial
  · exact isProper_because.2 (by decide)

section Simple

variable (hw : w.IsCore) {cell : Cell}

include hw

theorem Simple.safe_assigning {subscripts : Option (List Subscript)}
    (hvar : w.memory.value var = .ok cell)
    (hsubscripts : ∀ list, subscripts = some list → ∃ ss, Selector.Elaborate w ss list)
    (hvalues : ∀ v ∈ values, v.WellTyped w ∧ v.type.Suits cell.type) :
    Safe w (fun _ => True) (Simple.assigning var subscripts values) := by
  refine (Safe.valueOf w var).bind fun target htarget => ?_
  have htype : target.type = cell.type := htarget cell hvar
  refine Safe.get.bind fun W _ => ?_
  have hwritable : Faults IsProper
      (target.checkWritable ((W.workspace.memory.get var).map Variable.name)) := by
    unfold checkWritable
    split
    · exact trivial
    · have hname : Faults IsProper ((W.workspace.memory.get var).map Variable.name) :=
        (sound_get W.workspace.memory var).map fun _ _ => trivial
      exact hname.bind fun _ _ => isProper_because.2 (by decide)
  refine (Safe.check hwritable).bind fun _ _ => ?_
  -- The right side is evaluated before the variable is read again.
  have hright (shape : Shape) : Safe w (fun rhs : Cell => rhs.type.Suits cell.type)
      (evaluating (Typed.rightSide values target.type shape)) := by
    rw [htype]
    exact .evaluating fun W hW => Typed.ensures_rightSide hw hW hvalues shape
  cases subscripts with
  | none =>
    refine (hright target.shape).bind fun rhs hrhs => (Safe.valueOf w var).bind fun now hnow => ?_
    have hsuits : rhs.type.Suits now.type := (hnow cell hvar).symm ▸ hrhs
    refine (Safe.check (sound_assign hsuits)).bind fun value hvalue => Safe.update ?_
    exact fun c hc => hvalue.trans (hnow c hc)
  | some list =>
    obtain ⟨ss, hss⟩ := hsubscripts list rfl
    have hview : Safe w (fun _ => True) (evaluating fun w => Subscript.view w target.shape list) :=
      .evaluating fun W hW => hss.ensures_view hw hW target.shape
    refine hview.bind fun view _ => (hright view.shape).bind fun rhs hrhs => ?_
    refine (Safe.valueOf w var).bind fun now hnow => ?_
    obtain ⟨hresult, hvalue⟩ := sound_store view ((hnow cell hvar).symm ▸ hrhs)
    refine (Safe.update fun c hc => hvalue.trans (hnow c hc)).bind fun _ _ => ?_
    exact .check hresult

theorem Simple.safe_declaring (h : Term.AreIntegers w ss extents) :
    Safe w (fun _ => True) (Simple.declaring var extents) := by
  have hextents : Safe w (fun _ => True) (evaluating fun w => Expr.extents w extents) :=
    .evaluating fun W hW => h.ensures hw hW
  refine hextents.bind fun dims _ => ?_
  refine (Safe.check (Shape.sound_ofDims proper dims)).bind fun shape _ => ?_
  refine (Safe.valueOf w var).bind fun now hnow => ?_
  refine (Safe.check (sound_redeclared now shape)).bind fun value hvalue => Safe.update ?_
  exact fun c hc => hvalue.trans (hnow c hc)

end Simple

/-! ### Requests -/

section Requests

theorem Control.sound_describe (W : Workspace) (name : String) (var : Handle) :
    Faults IsProper (describe W name var) :=
  (sound_value proper fun _ _ => trivial).bind fun _ _ => trivial

theorem Control.sound_describeAll (W : Workspace) (entries : List (String × Entry)) :
    Faults IsProper (describeAll W entries) := by
  induction entries with
  | nil => exact trivial
  | cons entry rest ih =>
    obtain ⟨name, entry⟩ := entry
    cases entry with
    | var handle => exact (sound_describe W name handle).bind fun _ _ => ih.bind fun _ _ => trivial
    | func id preferred => exact ih
    | package index => exact ih

theorem NameTable.sound_lookup {α : Type} (t : NameTable α) (name : String) :
    Faults IsProper (t.lookup name) := by
  unfold NameTable.lookup
  split
  · exact isProper_because.2 (by decide)
  · exact isProper_because.2 (by decide)
  · split
    · exact trivial
    · exact isProper_because.2 (by decide)
  · dsimp only
    split
    · exact trivial
    · exact isProper_because.2 (by decide)

theorem Control.sound_helpText (W : Workspace) (topic : String) :
    Faults IsProper (helpText W topic) := by
  unfold helpText
  split
  · exact trivial
  refine (NameTable.sound_lookup W.names topic).bind fun found _ => ?_
  obtain ⟨name, entry⟩ := found
  cases entry with
  | package index =>
    dsimp only
    split <;> exact trivial
  | func id preferred =>
    dsimp only
    split <;> exact trivial
  | var handle =>
    exact (sound_get W.memory handle).bind fun v _ => sound_describe W v.name handle

theorem WorldM.safe_delete (name : String) : Safe w (fun _ => True) (delete name) := by
  refine Safe.get.bind fun W _ => ?_
  cases W.workspace.names.get? name with
  | none => exact .throw (by simp)
  | some entry =>
    cases entry with
    | var handle =>
      refine (Safe.valueOf w handle).bind fun value _ => ?_
      refine (Safe.guard (by simp)).bind fun _ _ => ?_
      intro W hW
      exact ⟨hW.of_stems (Workspace.stems_withdraw name handle) rfl, trivial⟩
    | func id preferred => exact .throw (by simp)
    | package index => exact .throw (by simp)

theorem WorldM.safe_carryOut (list : List Request) : Safe w (fun _ => True) (carryOut list) := by
  induction list with
  | nil => exact .pure trivial
  | cons request rest ih =>
    cases request with
    | delete name => exact (safe_delete name).bind fun _ _ => ih
    | list beginning =>
      refine Safe.get.bind fun W _ => ?_
      refine (Safe.check (sound_describeAll W.workspace _)).bind fun text _ => ?_
      exact (Safe.print text).bind fun _ _ => ih
    | help topic =>
      refine Safe.get.bind fun W _ => ?_
      refine (Safe.check (sound_helpText W.workspace topic)).bind fun text _ => ?_
      exact (Safe.print text).bind fun _ _ => ih
    | exit mode => exact .pure trivial

/-- What a command asked for is safe, whatever it is. -/
theorem WorldM.safe_requests : Safe w (fun _ => True) requests := by
  refine Safe.get.bind fun W _ => ?_
  have hclear : Safe w (fun _ => True) (modify fun W : World =>
      { W with host := { W.host with requests := [] } }) := fun _ hW => ⟨hW, trivial⟩
  exact hclear.bind fun _ _ => safe_carryOut _

end Requests

/-! ### Commands -/

/-- Cells as a function called once gets them, from an argument on. -/
def Function.handed (f : Function) : (index : Nat) → List Cell → List Cell
  | _, [] => []
  | index, c :: rest =>
    (if (f.decl index).mode = .reference then c.owned .functionReference else c) ::
      f.handed (index + 1) rest

theorem Function.types_handed (f : Function) (index : Nat) (cells : List Cell) :
    (f.handed index cells).map Cell.type = cells.map Cell.type := by
  induction cells generalizing index with
  | nil => rfl
  | cons c rest ih =>
    rw [handed, map_cons, map_cons, ih]
    split <;> rfl

theorem Function.getElem?_handed (f : Function) (index : Nat) (cells : List Cell) {i : Nat}
    (h : cells[i]? = some c) :
    ∃ c', (f.handed index cells)[i]? = some c' ∧ c'.data = c.data ∧ c'.shape = c.shape := by
  induction cells generalizing index i with
  | nil => cases h
  | cons d rest ih =>
    cases i with
    | succ i => exact ih (index + 1) h
    | zero =>
      cases h
      refine ⟨_, rfl, ?_⟩
      split <;> exact ⟨rfl, rfl⟩

/-- The cells of the arguments of a command are those of a function called once, but for the
owners. -/
theorem Argument.onceCells_eq (f : Function) (W : Workspace) (args : List Argument) (index : Nat) :
    onceCells W f index args = do
      return f.handed index (← commandCells f W index args) := by
  induction args generalizing index with
  | nil => rfl
  | cons a args ih =>
    rw [onceCells, commandCells, bind_assoc]
    refine bind_congr fun cell => ?_
    rw [Function.onceCell, Direct.check_bind, bind_assoc, bind_assoc]
    refine bind_congr fun _ => ?_
    rw [ih]
    simp only [bind_assoc, pure_bind]
    rfl

theorem Ensures.of_map {α β σ : Type} {post : β → Prop} {f : α → β} {x : EStateM Fault σ α}
    (h : Ensures allowed post (do return f (← x))) : Ensures allowed (fun a => post (f a)) x := by
  intro s
  have hs := h s
  rw [bind_apply] at hs
  cases hx : x s with
  | ok a s' =>
    rw [hx] at hs
    exact hs
  | error e s' =>
    rw [hx] at hs
    exact hs

section Commands

variable {f : Function} {as : List Actual} {args : List (Argument × ElementType)}

theorem Actual.Elaborate.ensures_commandCells (hw : w.IsCore) (hW : w.Later W) (hkind : f.kind = .once)
    (h : Actual.Elaborate w f 0 as args)
    (henough : Parse.enough f args.length column = .ok ()) :
    Ensures IsProper (fun cells => f.Gets cells.toArray ∧ cells.map Cell.type = args.map Prod.snd)
      (commandCells f W 0 (args.map Prod.fst)) := by
  have hrealized := h.realized (hw.trusted hW)
  have haccepts : f.Accepts (args.map Prod.snd) :=
    hrealized.accepted.accepts (by rw [length_map, henough])
  have htyped := hrealized.typed
  rw [← hrealized.cells, onceCells_eq] at htyped
  refine htyped.of_map.mono fun cells hcells => ?_
  obtain ⟨htypes, hall⟩ := hcells
  rw [Function.types_handed] at htypes
  have hat {i : Nat} {c : Cell} (hi : cells.toArray[i]? = some c) :
      (f.decl i).rank.accepts c.rank c.size ∧ ((f.decl i).mode ≠ .reference → c.WellFormed) := by
    rw [getElem?_toArray] at hi
    obtain ⟨c', hc', hdata, hshape⟩ := f.getElem?_handed 0 cells hi
    have hc := hall i c' hc'
    rw [Nat.zero_add, Cell.rank, Cell.size, Cell.WellFormed, hdata, hshape] at hc
    exact hc
  refine ⟨?_, htypes⟩
  exact
    { accepted := htypes ▸ haccepts
      single := fun helemental => by rw [hkind] at helemental; cases helemental
      ranks := fun _ i c hi => (hat hi).1
      formed := fun i c hi => (hat hi).2 }

theorem Actual.Elaborate.references {index : Nat} (h : Actual.Elaborate w f index as args) :
    ∀ a ∈ args, ∀ var, a.1.reference? = some var →
      ∃ cell, w.memory.value var = .ok cell ∧ cell.type = a.2 := by
  induction args generalizing index as with
  | nil =>
    intro a ha
    cases ha
  | cons b args ih =>
    intro a ha var href
    cases h with
    | value _ _ _ _ hs =>
      rcases mem_cons.mp ha with rfl | ha
      · cases href
      · exact ih hs a ha var href
    | reference _ _ hvar _ hs =>
      rcases mem_cons.mp ha with rfl | ha
      · cases href
        exact ⟨_, hvar, rfl⟩
      · exact ih hs a ha var href
    | name _ _ hs =>
      rcases mem_cons.mp ha with rfl | ha
      · cases href
      · exact ih hs a ha var href

theorem Argument.safe_writeBack (f : Function) (refs : List (Option Handle)) (index : Nat)
    (h : ∀ i var, refs[i]? = some (some var) →
      ∃ new cell, cells[index + i]? = some new ∧ w.memory.value var = .ok cell ∧
        new.type = cell.type) :
    Safe w (fun _ => True) (writeBack f cells index refs) := by
  induction refs generalizing index with
  | nil => exact .pure trivial
  | cons ref refs ih =>
    have hrest : Safe w (fun _ => True) (writeBack f cells (index + 1) refs) := by
      refine ih (index + 1) fun i var hi => ?_
      have hnext := h (i + 1) var hi
      rwa [show index + (i + 1) = index + 1 + i by omega] at hnext
    cases ref with
    | none => exact hrest
    | some var =>
      obtain ⟨new, cell, hnew, hcell, htype⟩ := h 0 var rfl
      rw [writeBack, show cells[index]? = some new from hnew]
      refine (Safe.valueOf w var).bind fun now hnow => ?_
      split
      · exact hrest
      · refine (Safe.guard (isProper_because.2 (by decide))).bind fun _ _ => ?_
        have hsuits : new.type.Suits now.type := .inl (htype.trans (hnow cell hcell).symm)
        refine (Safe.check (sound_assign hsuits)).bind fun value hvalue => ?_
        exact (Safe.update fun c hc => hvalue.trans (hnow c hc)).bind fun _ _ => hrest

/-- A command that exchanges two variables and fails: its arguments have been evaluated, and its own
function refuses them. -/
def Simple.Exchanges (W : World) (func : Nat) (args : List Argument) (fault : Fault) : Prop :=
  ∃ f cells host call, W.workspace.functions[func]? = some f ∧ f.native = Core.swap ∧
    Argument.commandCells f W.workspace 0 args W.host = .ok cells host ∧
    Core.swap ⟨host, cells.toArray, none⟩ = .error fault call

theorem Core.invoked (host : Host) (hf : f ∈ Core.functions) (hcells : f.Gets cells) :
    match f.native ⟨host, cells, resultCell f⟩ with
    | .ok _ c => c.args.toList.map Cell.type = cells.toList.map Cell.type
    | .error fault _ => fault.IsProper ∨ f.native = Core.swap ∧ f.returns = .nothing := by
  rcases Core.behaves f hf with h | ⟨hnative, hreturns⟩
  · have hout : f.returns ≠ .nothing → (resultCell f).isSome := by
      intro hne
      unfold resultCell
      split
      case h_1 heq => exact absurd heq hne
      case h_2 => rfl
      case h_3 => rfl
    have hrun := h cells (resultCell f) hcells hout host
    cases hx : f.native ⟨host, cells, resultCell f⟩ with
    | ok u c =>
      rw [hx] at hrun
      exact congrArg (fun args : Array Cell => args.toList.map Cell.type) hrun.1
    | error fault c =>
      rw [hx] at hrun
      exact .inl hrun
  · cases hx : f.native ⟨host, cells, resultCell f⟩ with
    | ok u c =>
      rw [hnative] at hx
      exact Core.types_swap hx
    | error fault c => exact .inr ⟨hnative, hreturns⟩

/-- A command is safe, unless an exchange of two variables fails. -/
theorem Simple.safe_commanding (hw : w.IsCore) {func : Nat} {W : World}
    (hW : w.Later W.workspace) (hf : w.functions[func]? = some f) (hkind : f.kind = .once)
    (hargs : Actual.Elaborate w f 0 as args)
    (henough : Parse.enough f args.length column = .ok ()) :
    match Simple.commanding func (args.map Prod.fst) W with
    | .ok _ W' => w.Later W'.workspace
    | .error fault _ => fault.IsProper ∨ Exchanges W func (args.map Prod.fst) fault := by
  have hcore : f ∈ Core.functions := hw f (Array.mem_of_getElem? hf)
  have hfW : W.workspace.functions[func]? = some f := hW.functions ▸ hf
  have hfunction : evaluating (fun w => Direct.functionOf w func) W = .ok f W := by
    simp only [evaluating, Direct.functionOf, hfW]
    rfl
  have hcells := hargs.ensures_commandCells hw hW hkind henough W.host
  rw [Simple.commanding, bind_ok hfunction, bind_apply, evaluating]
  cases hc : commandCells f W.workspace 0 (args.map Prod.fst) W.host with
  | error fault host =>
    rw [hc] at hcells
    exact .inl hcells
  | ok cells host =>
    rw [hc] at hcells
    obtain ⟨hgets, htypes⟩ := hcells
    have hinvoked := Core.invoked host hcore hgets
    dsimp only
    rw [bind_apply, evaluating, Direct.invoke]
    cases hx : f.native ⟨host, cells.toArray, resultCell f⟩ with
    | error fault call =>
      rw [hx] at hinvoked
      refine hinvoked.imp_right fun hswap => ⟨f, cells, host, call, hfW, hswap.1, hc, ?_⟩
      have hnone : resultCell f = none := by rw [resultCell, hswap.2]
      rw [← hswap.1, ← hnone]
      exact hx
    | ok u call =>
      rw [hx] at hinvoked
      have hleft : call.args.toList.map Cell.type = args.map Prod.snd := hinvoked.trans htypes
      have hwrite : Safe w (fun _ => True)
          (writeBack f call.args 0 ((args.map Prod.fst).map reference?)) := by
        refine safe_writeBack f _ 0 fun i var hi => ?_
        rw [map_map, getElem?_map] at hi
        obtain ⟨a, ha, href⟩ := Option.map_eq_some_iff.mp hi
        obtain ⟨cell, hcell, htype⟩ := hargs.references a (mem_of_getElem? ha) var href
        have hat : (call.args.toList.map Cell.type)[i]? = some a.2 := by
          rw [hleft, getElem?_map, ha]
          rfl
        rw [getElem?_map, Array.getElem?_toList] at hat
        obtain ⟨new, hnew, hnewtype⟩ := Option.map_eq_some_iff.mp hat
        exact ⟨new, cell, by rw [Nat.zero_add, hnew], hcell, hnewtype.trans htype.symm⟩
      have hrest := (hwrite.bind fun _ _ => safe_requests) ⟨W.workspace, call.host⟩ hW
      dsimp only
      generalize (writeBack f call.args 0 ((args.map Prod.fst).map reference?) >>=
        fun _ => requests) ⟨W.workspace, call.host⟩ = r at hrest
      cases r with
      | ok flow W' => exact hrest.1
      | error fault W' => exact .inl hrest

end Commands

/-- **A well-typed simple statement is safe**, unless it is a command whose exchange of two variables
fails. -/
theorem Simple.WellTyped.run (hw : w.IsCore) {s : Simple} (hs : s.WellTyped w)
    {W : World} (hW : w.Later W.workspace) :
    match s.run W with
    | .ok _ W' => w.Later W'.workspace
    | .error fault _ => fault.IsProper ∨
        ∃ func args, s = .command func args ∧ Simple.Exchanges W func args fault := by
  have hsafe {x : WorldM (Option Flow)} (hx : Safe w (fun _ => True) x) :
      match x W with
      | .ok _ W' => w.Later W'.workspace
      | .error fault _ => fault.IsProper ∨
          ∃ func args, s = .command func args ∧ Simple.Exchanges W func args fault := by
    have hrun := hx W hW
    cases hr : x W with
    | ok a W' =>
      rw [hr] at hrun
      exact hrun.1
    | error fault W' =>
      rw [hr] at hrun
      exact .inl hrun
  cases hs with
  | assign hvar hsubscripts hvalues =>
    exact hsafe ((safe_assigning hw hvar hsubscripts hvalues).bind fun _ _ => .pure trivial)
  | declare hextents => exact hsafe ((safe_declaring hw hextents).bind fun _ _ => .pure trivial)
  | command hf hkind hargs henough =>
    obtain ⟨as, args, has, rfl⟩ := hargs.elaborate (Core.plain (hw _ (Array.mem_of_getElem? hf)))
    rw [length_map] at henough
    have hrun := safe_commanding hw hW hf hkind has henough
    rw [Simple.run]
    revert hrun
    cases Simple.commanding _ _ W with
    | ok a W' => exact id
    | error fault W' => exact Or.imp_right fun h => ⟨_, _, rfl, h⟩

/-! ### Counted loops -/

/-- A state that a loop can count with: the next value and the step are numbers of one type. -/
structure LoopState.Counts (state : LoopState) : Prop where
  numeric : state.next.type.isNumeric
  step : state.step.type = state.next.type

section Loops

variable {start stop : Cell} {step : Option Cell}

theorem Control.sound_integerLoop (hstart : start.type.isNumeric) (hstop : stop.type.isNumeric)
    (hstep : ∀ c ∈ step, c.type.isNumeric) :
    Sound IsProper LoopState.Counts (integerLoop start stop step) := by
  have hrest (first last n : Int) : Sound IsProper LoopState.Counts (do
      if n = 0 then throw (.because .domainError "ZERO STEP")
      return ⟨.integer first, .integer n, rounds first last n % wordSize⟩) := by
    by_cases hn : n = 0
    · rw [if_pos hn]
      exact isProper_because.2 (by decide)
    · rw [if_neg hn]
      exact ⟨rfl, rfl⟩
  refine (sound_integer proper hstart).bind fun first _ => ?_
  refine (sound_integer proper hstop).bind fun last _ => ?_
  cases step with
  | none => exact hrest first last 1
  | some c => exact (sound_integer proper (hstep c rfl)).bind fun n _ => hrest first last n

theorem Control.sound_floatLoop (hstart : start.type.isNumeric) (hstop : stop.type.isNumeric)
    (hstep : ∀ c ∈ step, c.type.isNumeric) :
    Sound IsProper LoopState.Counts (floatLoop start stop step) := by
  have hrest (first last x : Float) : Sound IsProper LoopState.Counts (do
      if x == 0.0 then throw (.because .domainError "ZERO STEP")
      let count := ((last - first + x) / x).floor
      let remaining ← if count > 0.0 then (integerOfFloat count).map Int.toNat else pure 0
      return ⟨.float first, .float x, remaining⟩) := by
    by_cases hx : (x == 0.0) = true
    · rw [if_pos hx]
      exact isProper_because.2 (by decide)
    · rw [if_neg hx]
      dsimp only
      split
      · have hcount : Faults IsProper
            ((integerOfFloat ((last - first + x) / x).floor).map Int.toNat) :=
          (sound_integerOfFloat proper _).map fun _ _ => trivial
        exact hcount.bind fun _ _ => ⟨rfl, rfl⟩
      · exact ⟨rfl, rfl⟩
  refine (sound_float hstart).bind fun first _ => (sound_float hstop).bind fun last _ => ?_
  cases step with
  | none => exact hrest first last 1.0
  | some c => exact (sound_float (hstep c rfl)).bind fun x _ => hrest first last x

theorem safe_loopState (hvar : w.Numbers var) (hstart : start.type.isNumeric)
    (hstop : stop.type.isNumeric) (hstep : ∀ c ∈ step, c.type.isNumeric) :
    Safe w LoopState.Counts (do
      let type := (← valueOf var).type
      check (loopState type start stop step)) := by
  obtain ⟨cell, hcell, hn, -⟩ := hvar
  refine (Safe.valueOf w var).bind fun now hnow => .check ?_
  rw [hnow cell hcell]
  cases htype : cell.type with
  | integer => exact sound_integerLoop hstart hstop hstep
  | float => exact sound_floatLoop hstart hstop hstep
  | text | logical =>
    rw [htype] at hn
    cases hn

theorem safe_startRound (hvar : w.Numbers var) {state : LoopState}
    (hstate : state.Counts) (rest : Nat) :
    Safe w (fun next => LoopState.Counts ⟨next, state.step, rest⟩)
      (startRound var state.next state.step rest) := by
  obtain ⟨cell, hcell, hn, -⟩ := hvar
  refine (Safe.valueOf w var).bind fun now hnow => ?_
  have htype := hnow cell hcell
  have hsingle : Sound IsProper (fun _ : Unit => True)
      (if now.size ≠ 1 then .error (.because .rankMismatch "LOOP VARIABLE MUST BE A SCALAR")
        else .ok ()) := by
    split
    · exact isProper_because.2 (by decide)
    · exact trivial
  refine (Safe.check hsingle).bind fun _ _ => ?_
  have hsuits : state.next.type.Suits now.type := .inr ⟨hstate.numeric, htype ▸ hn⟩
  refine (Safe.check (sound_set proper 0 hsuits)).bind fun value hvalue => ?_
  refine (Safe.update fun c hc => hvalue.1.trans (hnow c hc)).bind fun _ _ => .check ?_
  split
  · exact ⟨hstate.numeric, hstate.step⟩
  · have hsum : Sound IsProper (fun s : Scalar => s.type = state.next.type)
        (state.next.sum state.step) :=
      Scalar.sound_arithmetic (f := Scalar.sum)
        (fun l r => (Integer.sound_fit proper (l + r)).map fun _ _ => rfl)
        (fun l r => sound_finite proper (l + r)) rfl hstate.step hstate.numeric
    exact hsum.mono fun s hs => ⟨hs ▸ hstate.numeric, hstate.step.trans hs.symm⟩

end Loops

end ArrayCommand
