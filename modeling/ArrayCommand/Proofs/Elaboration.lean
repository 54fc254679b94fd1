/-
Types and conversions of expressions.

Reading an expression gives it types, and it writes conversions into the tree where they are needed.
The rules are stated here as a relation between expressions as they are written and typed trees.  A
typed tree means the same as the expression it comes from, and its values have the type it says,
provided the functions return what they are declared to return.

* `Term.Elaborates` — the typing rules, with the tree that they give;
* `Workspace.Later` — a later state of the variables, in which none has changed its type;
* `Realized`, `Faithful` — a typed tree means what an expression means, and has its type;
* `Term.Elaborates.realizes` — the tree of an expression is faithful to it in every later state.
-/

import ArrayCommand.Proofs.Safety
import ArrayCommand.Proofs.Term

namespace ArrayCommand

open Term Meaning BinaryOp List Evaluate

open Direct (check functionOf)

variable {column : Column} {type l r want : ElementType} {allowed : Fault → Prop} {w : Workspace}
  {f : Function} {types : List ElementType} {e : Expr} {t t' : Typed} {s : Term}
  {subscripts : List Subscript} {es : List Expr} {last : Option Term} {e' : Option Expr}
  {index : Nat} {var : Handle}
variable {func : Nat} {decl : ArgDecl}

variable {op : BinaryOp} {operand result : ElementType}

/-! ### The rules -/

mutual

/-- An expression is well typed, and this is its tree with the type of its elements.  The negative of
a constant may be formed at once. -/
inductive Term.Elaborates (w : Workspace) : Term → Typed → Prop
  | literal (value : Scalar) : Term.Elaborates w (.literal value) (Parse.constant value)
  | placeholder : Term.Elaborates w .placeholder ⟨.placeholder, .integer, none⟩
  | whole {var : Handle} {cell : Cell} : w.memory.value var = .ok cell →
      Term.Elaborates w (.whole var cell.type) ⟨.whole var, cell.type, some cell.rank⟩
  | cast {var : Handle} {cell : Cell} {extents : List Term} {es : List Expr} :
      w.memory.value var = .ok cell → Term.AreIntegers w extents es → es.length ≤ maxRank →
      Term.Elaborates w (.cast var cell.type extents)
        ⟨.cast var es, cell.type, some es.length⟩
  | slice {var : Handle} {cell : Cell} {selectors : List Selector} {subscripts : List Subscript} :
      w.memory.value var = .ok cell → Selector.Elaborate w selectors subscripts →
      subscripts.length ≤ maxRank →
      Term.Elaborates w (.slice var cell.type selectors)
        ⟨.slice var subscripts, cell.type,
          some (subscripts.filter fun s => s.axis != .at).length⟩
  | once {func : Nat} {f : Function} {args : List Actual} {args' : List (Argument × ElementType)}
      {type : ElementType} {column : Column} :
      w.functions[func]? = some f → f.kind = .once → Actual.Elaborate w f 0 args args' →
      Parse.enough f args'.length column = .ok () →
      Parse.resultType f (args'.map Prod.snd) column = .ok type →
      Term.Elaborates w (.once func args)
        ⟨.once func (args'.map Prod.fst) type, type, f.rank.rank?⟩
  | call {func : Nat} {f : Function} {args : List Term} {args' : List Typed} {type : ElementType}
      {column : Column} :
      w.functions[func]? = some f → f.kind = .elemental → Term.AreHanded w f 0 args args' →
      Parse.enough f args'.length column = .ok () →
      Parse.resultType f (args'.map Typed.type) column = .ok type →
      Term.Elaborates w (.call func args)
        ⟨.call func (args'.map Typed.expr) type, type,
          (args'.map Typed.rank).foldl Parse.mergeRank (some 0)⟩
  | part {text first : Term} {last : Option Term} {t : Typed} {e : Expr} {e' : Option Expr} :
      Term.Elaborates w text t → t.type = .text → Term.IsInteger w first e →
      Term.MayBeInteger w last e' →
      Term.Elaborates w (.part text first last) { t with expr := .substring t.expr e e' }
  | plus {s : Term} {t : Typed} : Term.Elaborates w s t → t.type.isNumeric →
      Term.Elaborates w (.plus s) t
  | minus {s : Term} {t : Typed} : Term.Elaborates w s t → t.type.isNumeric →
      Term.Elaborates w (.minus s) { t with expr := .neg t.type t.expr }
  | folded {s : Term} {t : Typed} {value value' : Scalar} : Term.Elaborates w s t →
      t.expr = .const value → value.negate = .ok value' →
      Term.Elaborates w (.minus s) { t with expr := .const value' }
  | not {s : Term} {t : Typed} : Term.Elaborates w s t → t.type = .logical →
      Term.Elaborates w (.not s) { t with expr := .not t.expr }
  | binary {op : BinaryOp} {l r : Term} {tl tr : Typed} {operand result : ElementType} :
      Term.Elaborates w l tl → Term.Elaborates w r tr →
      op.signature tl.type tr.type = .ok ⟨operand, result⟩ →
      Term.Elaborates w (.binary op l r)
        ⟨.binary op operand (tl.type != operand) (tr.type != operand) tl.expr tr.expr, result,
          Parse.mergeRank tl.rank tr.rank⟩
  | and {l r : Term} {tl tr : Typed} : Term.Elaborates w l tl → Term.Elaborates w r tr →
      tl.type = .logical → tr.type = .logical →
      Term.Elaborates w (.and l r)
        ⟨.and tl.expr tr.expr, .logical, Parse.mergeRank tl.rank tr.rank⟩
  | or {l r : Term} {tl tr : Typed} : Term.Elaborates w l tl → Term.Elaborates w r tr →
      tl.type = .logical → tr.type = .logical →
      Term.Elaborates w (.or l r)
        ⟨.or tl.expr tr.expr, .logical, Parse.mergeRank tl.rank tr.rank⟩

/-- A number, with the tree of its integer part. -/
inductive Term.IsInteger (w : Workspace) : Term → Expr → Prop
  | intro {s : Term} {t t' : Typed} {column : Column} : Term.Elaborates w s t →
      Parse.convert t .integer column = .ok t' → Term.IsInteger w s t'.expr

/-- A number that may be missing. -/
inductive Term.MayBeInteger (w : Workspace) : Option Term → Option Expr → Prop
  | none : Term.MayBeInteger w none none
  | some {s : Term} {e : Expr} : Term.IsInteger w s e → Term.MayBeInteger w (some s) (some e)

/-- Several numbers. -/
inductive Term.AreIntegers (w : Workspace) : List Term → List Expr → Prop
  | nil : Term.AreIntegers w [] []
  | cons {s : Term} {e : Expr} {ss : List Term} {es : List Expr} : Term.IsInteger w s e →
      Term.AreIntegers w ss es → Term.AreIntegers w (s :: ss) (e :: es)

/-- The arguments of a function called for every element, from one on. -/
inductive Term.AreHanded (w : Workspace) : Function → Nat → List Term → List Typed → Prop
  | nil (f : Function) (index : Nat) : Term.AreHanded w f index [] []
  | cons {f : Function} {index : Nat} {s : Term} {t t' : Typed} {ss : List Term} {ts : List Typed}
      {column : Column} : f.admits index → (f.decl index).mode = .value → Term.Elaborates w s t →
      Parse.accept t (f.decl index) column = .ok t' → Term.AreHanded w f (index + 1) ss ts →
      Term.AreHanded w f index (s :: ss) (t' :: ts)

/-- The subscripts of a section. -/
inductive Selector.Elaborate (w : Workspace) : List Selector → List Subscript → Prop
  | nil : Selector.Elaborate w [] []
  | all {ss : List Selector} {subscripts : List Subscript} : Selector.Elaborate w ss subscripts →
      Selector.Elaborate w (.all :: ss) (.all :: subscripts)
  | at {s : Term} {e : Expr} {ss : List Selector} {subscripts : List Subscript} :
      Term.IsInteger w s e → Selector.Elaborate w ss subscripts →
      Selector.Elaborate w (.at s :: ss) (.at e :: subscripts)
  | range {first last step : Option Term} {e e' e'' : Option Expr} {ss : List Selector}
      {subscripts : List Subscript} : Term.MayBeInteger w first e → Term.MayBeInteger w last e' →
      Term.MayBeInteger w step e'' → Selector.Elaborate w ss subscripts →
      Selector.Elaborate w (.range first last step :: ss) (.range e e' e'' :: subscripts)

/-- The arguments of a function called once, from one on, with their types. -/
inductive Actual.Elaborate (w : Workspace) :
    Function → Nat → List Actual → List (Argument × ElementType) → Prop
  | nil (f : Function) (index : Nat) : Actual.Elaborate w f index [] []
  | value {f : Function} {index : Nat} {s : Term} {t t' : Typed} {as : List Actual}
      {args : List (Argument × ElementType)} {column : Column} : f.admits index →
      (f.decl index).mode = .value → Term.Elaborates w s t →
      Parse.accept t (f.decl index) column = .ok t' → Actual.Elaborate w f (index + 1) as args →
      Actual.Elaborate w f index (.value s :: as) ((.value t'.expr t'.type, t'.type) :: args)
  | reference {f : Function} {index : Nat} {var : Handle} {cell : Cell} {as : List Actual}
      {args : List (Argument × ElementType)} : f.admits index → (f.decl index).mode = .reference →
      w.memory.value var = .ok cell → (f.decl index).type.accepts cell.type →
      Actual.Elaborate w f (index + 1) as args →
      Actual.Elaborate w f index (.reference var cell.type :: as)
        ((.reference var cell.type, cell.type) :: args)
  | name {f : Function} {index : Nat} {text : String} {as : List Actual}
      {args : List (Argument × ElementType)} : f.admits index → (f.decl index).mode = .name →
      Actual.Elaborate w f (index + 1) as args →
      Actual.Elaborate w f index (.name text :: as) ((.name text, .text) :: args)

end

/-! ### What may be relied on -/

/-- A later state of a workspace: the functions are the same, and a variable that is still there has
the type it had. -/
structure Workspace.Later (w w' : Workspace) : Prop where
  functions : w'.functions = w.functions
  types : ∀ {var : Handle} {cell cell' : Cell}, w.memory.value var = .ok cell →
    w'.memory.value var = .ok cell' → cell'.type = cell.type

theorem Workspace.Later.refl (w : Workspace) : w.Later w where
  functions := rfl
  types h h' := by
    rw [h] at h'
    cases h'
    rfl

/-! ### Rules of types -/

theorem BinaryOp.of_signature (h : op.signature l r = .ok ⟨operand, result⟩) :
    meet? l r = some operand ∧ op.result? operand = some result := by
  unfold signature at h
  cases hmeet : meet? l r with
  | none =>
    rw [hmeet] at h
    cases h
  | some type =>
    rw [hmeet] at h
    cases hresult : op.result? type with
    | none =>
      simp only [Option.bind_eq_bind, Option.bind_some, hresult, Option.bind_none] at h
      cases h
    | some type' =>
      simp only [Option.bind_eq_bind, Option.bind_some, hresult] at h
      cases h
      exact ⟨rfl, hresult⟩

theorem BinaryOp.resultOf_eq (hmeet : meet? l r = some operand)
    (hresult : op.result? operand = some result) : op.resultOf l r = result := by
  rw [resultOf, hmeet, Option.bind_some, hresult, Option.getD_some]

/-- The conversions in front of an operation are those that the values themselves ask for. -/
theorem BinaryOp.applyAt_eq_promoted (op : BinaryOp) {l r : Scalar}
    (h : meet? l.type r.type = some operand) :
    op.applyAt operand (l.type != operand) (r.type != operand) l r = op.promoted l r := by
  cases l <;> cases r <;> cases h <;> rfl

theorem BinaryOp.sound_promoted (proper : ∀ f : Fault, f.IsProper → allowed f) {l r : Scalar}
    (hmeet : meet? l.type r.type = some operand)
    (hresult : op.result? operand = some result) :
    Sound allowed (·.type = result) (op.promoted l r) := by
  have htypes : (l.promote r).1.type = operand ∧ (l.promote r).2.type = operand := by
    cases l <;> cases r <;> cases hmeet <;> exact ⟨rfl, rfl⟩
  exact sound_apply proper htypes.1 htypes.2 hresult

theorem Workspace.returned_eq (hf : w.functions[func]? = some f)
    (h : Parse.resultType f types column = .ok type) : w.returned func types = type := by
  unfold Parse.resultType at h
  rw [Workspace.returned, hf, Option.map_some]
  cases hreturns : f.returns with
  | nothing =>
    rw [hreturns] at h
    cases h
  | fixed type' =>
    rw [hreturns] at h
    cases h
    rfl
  | sameAs index =>
    simp only [hreturns] at h ⊢
    cases htype : types[index]? with
    | none =>
      rw [htype] at h
      cases h
    | some type' =>
      rw [htype] at h
      cases h
      rfl

/-! ### Meanings of trees -/

/-- A tree has a meaning, and the values of this meaning have a type. -/
structure Realized (allowed : Fault → Prop) (w : Workspace) (x : HostM Meaning) (e : Expr)
    (type : ElementType) : Prop where
  meaning : e.meaning w = x
  typed : Ensures allowed (fun m => m.HasType allowed type) x

/-- A typed tree realizes an expression: it means the same and has its type. -/
structure Faithful (allowed : Fault → Prop) (w : Workspace) (s : Term) (t : Typed) : Prop where
  realized : Realized allowed w (s.meaning w) t.expr t.type
  type : s.type w = t.type

theorem Meaning.converted_eq {m : Meaning} (h : m.HasType allowed type) : m.converted type = m := by
  refine Meaning.ext rfl (funext fun element => ?_)
  calc (m.converted type).value element
      = m.value element >>= fun s => check (.ok s) :=
        bind_congr_post (h element) fun s hs => congrArg check (Scalar.convert_self hs)
    _ = m.value element := bind_pure (m.value element)

namespace Realized

variable (proper : ∀ f : Fault, f.IsProper → allowed f)
  {x y : HostM Meaning} {l r : Expr}

theorem converted_self (h : Realized allowed w x e type) :
    Realized allowed w (do return (← x).converted type) e type := by
  have hx : (do return (← x).converted type) = x :=
    calc (do return (← x).converted type) = x >>= pure :=
          bind_congr_post h.typed fun m hm => by rw [converted_eq hm]
      _ = x := bind_pure x
  rw [hx]
  exact h

include proper

theorem coerce (h : Realized allowed w x e type) (hn : type.isNumeric) (hwant : want.isNumeric) :
    Realized allowed w (do return (← x).converted want) (.coerce want e) want where
  meaning := by
    rw [Expr.meaning, h.meaning]
    rfl
  typed := h.typed.bind fun m hm => .pure <| hm.map fun s hs =>
    Scalar.sound_convert proper (.inr ⟨hs.symm ▸ hn, hwant⟩)

theorem neg (h : Realized allowed w x e type) (hn : type.isNumeric) :
    Realized allowed w (do return (← x).map Scalar.negate) (.neg type e) type where
  meaning := by rw [Expr.meaning, h.meaning]
  typed := h.typed.bind fun m hm => .pure <| hm.map fun s hs =>
    (Scalar.sound_negate proper (hs.symm ▸ hn)).mono fun s' hs' => hs'.trans hs

theorem binary {lhs rhs : ElementType} (hl : Realized allowed w x l lhs)
    (hr : Realized allowed w y r rhs) (h : op.signature lhs rhs = .ok ⟨operand, result⟩) :
    Realized allowed w (do
        let l ← x
        let r ← y
        return .map₂ op.promoted l r)
      (.binary op operand (lhs != operand) (rhs != operand) l r) result where
  meaning := by
    rw [Expr.meaning, hl.meaning, hr.meaning]
    refine bind_congr_post hl.typed fun ml hml => bind_congr_post hr.typed fun mr hmr => ?_
    refine congrArg pure (hml.map₂_congr hmr fun a b ha hb => ?_)
    subst ha hb
    exact op.applyAt_eq_promoted (of_signature h).1
  typed := by
    obtain ⟨hmeet, hresult⟩ := of_signature h
    refine hl.typed.bind fun ml hml => hr.typed.bind fun mr hmr => .pure ?_
    refine hml.map₂ hmr fun a b ha hb => ?_
    subst ha hb
    exact sound_promoted proper hmeet hresult

omit proper in
theorem not (h : Realized allowed w x e .logical) :
    Realized allowed w (do return (← x).map Scalar.complement) (.not e) .logical where
  meaning := by rw [Expr.meaning, h.meaning]
  typed := h.typed.bind fun m hm => .pure <| hm.map fun s hs => Scalar.sound_complement hs

omit proper in
theorem guarded {decisive : Bool} (hl : Realized allowed w x l .logical)
    (hr : Realized allowed w y r .logical)
    (he : e.meaning w = do return .guarded decisive (← l.meaning w) (← r.meaning w)) :
    Realized allowed w (do return .guarded decisive (← x) (← y)) e .logical where
  meaning := by rw [he, hl.meaning, hr.meaning]
  typed := hl.typed.bind fun ml hml => hr.typed.bind fun mr hmr => .pure (hml.guarded decisive hmr)

theorem convert (h : Realized allowed w x t.expr t.type)
    (ht : Parse.convert t want column = .ok t') :
    Realized allowed w (do return (← x).converted want) t'.expr want ∧ t'.type = want := by
  unfold Parse.convert at ht
  split at ht
  case isTrue heq =>
    cases ht
    exact ⟨heq ▸ h.converted_self, heq⟩
  case isFalse =>
    split at ht
    case isTrue hn =>
      cases ht
      obtain ⟨hn, hwant⟩ := Bool.and_eq_true_iff.1 hn
      exact ⟨h.coerce proper hn hwant, rfl⟩
    case isFalse => cases ht

theorem accept (h : Realized allowed w x t.expr t.type) (ht : Parse.accept t decl column = .ok t') :
    Realized allowed w (do return (← x).converted (decl.target t.type)) t'.expr t'.type ∧
      t'.type = decl.target t.type ∧ decl.type.accepts t'.type := by
  unfold Parse.accept at ht
  unfold ArgDecl.target
  cases hdecl : decl.type with
  | any =>
    rw [hdecl] at ht
    cases ht
    exact ⟨h.converted_self, rfl, rfl⟩
  | numeric =>
    simp only [hdecl] at ht
    split at ht
    case isTrue hn =>
      cases ht
      exact ⟨h.converted_self, rfl, hn⟩
    case isFalse => cases ht
  | float | integer | text | literal | logical =>
    rw [hdecl] at ht
    obtain ⟨h', htype⟩ := h.convert proper ht
    exact ⟨htype.symm ▸ h', htype, htype.symm ▸ rfl⟩

end Realized

/-! ### Parts of trees -/

def Term.integral (w : Workspace) (s : Term) : HostM Meaning := do
  return (← s.meaning w).converted .integer

section Parts

variable (proper : ∀ f : Fault, f.IsProper → allowed f)
variable {ss : List Selector}

/-- An integer that may be missing. -/
structure MayBeRealized (allowed : Fault → Prop) (w : Workspace) (o : Option Term)
    (e : Option Expr) : Prop where
  isSome : e.isSome = o.isSome
  bound : Expr.bound w e = Term.bound w o
  ensures_bound : Ensures allowed (fun _ => True) (Term.bound w o)
  meaning : Expr.meaningOption w e =
    do return (← Term.meaningOption w o).map (·.converted .integer)
  typed : Ensures allowed (fun o : Option Meaning => ∀ m ∈ o, m.HasType allowed .integer)
    (Expr.meaningOption w e)

theorem MayBeRealized.none : MayBeRealized allowed w none none where
  isSome := rfl
  bound := rfl
  ensures_bound := .pure trivial
  meaning := rfl
  typed := .pure nofun

theorem MayBeRealized.some (proper : ∀ f : Fault, f.IsProper → allowed f)
    (h : Realized allowed w (s.integral w) e .integer) :
    MayBeRealized allowed w (some s) (some e) where
  isSome := rfl
  bound := by
    rw [Expr.bound, Term.bound, h.meaning, Term.integral]
    simp only [bind_assoc, pure_bind]
  ensures_bound := by
    have hbound : Term.bound w (Option.some s) = do
        return Option.some (← (← s.integral w).integer) := by
      rw [Term.bound, Term.integral]
      simp only [bind_assoc, pure_bind]
    rw [hbound]
    exact h.typed.bind fun m hm => (ensures_integer proper hm).bind fun _ _ => .pure trivial
  meaning := by
    rw [Expr.meaningOption, Term.meaningOption, h.meaning, Term.integral]
    simp only [bind_assoc, pure_bind, Option.map_some]
  typed := by
    rw [Expr.meaningOption, h.meaning]
    refine h.typed.bind fun m hm => .pure ?_
    rintro _ ⟨⟩
    exact hm

/-- Extents. -/
structure ExtentsRealized (allowed : Fault → Prop) (w : Workspace) (ss : List Term)
    (es : List Expr) : Prop where
  length : es.length = ss.length
  extents : Expr.extents w es = Term.extents w ss
  ensures : Ensures allowed (fun _ => True) (Term.extents w ss)

theorem ExtentsRealized.nil : ExtentsRealized allowed w [] [] where
  length := rfl
  extents := rfl
  ensures := .pure trivial

theorem ExtentsRealized.cons {ss : List Term} (proper : ∀ f : Fault, f.IsProper → allowed f)
    (h : Realized allowed w (s.integral w) e .integer) (hs : ExtentsRealized allowed w ss es) :
    ExtentsRealized allowed w (s :: ss) (e :: es) := by
  have hextents : Term.extents w (s :: ss) = do
      let n ← (← s.integral w).integer
      let extent ← check (extentOf n)
      return extent :: (← Term.extents w ss) := by
    rw [Term.extents, Term.integral]
    simp only [bind_assoc, pure_bind]
  refine ⟨?_, ?_, ?_⟩
  · rw [length_cons, length_cons, hs.length]
  · rw [Expr.extents, hextents, h.meaning, hs.extents]
  · rw [hextents]
    refine h.typed.bind fun m hm => (ensures_integer proper hm).bind fun n _ => ?_
    refine (Ensures.check (sound_extentOf proper n)).bind fun _ _ => ?_
    exact hs.ensures.bind fun _ _ => .pure trivial

/-- Subscripts. -/
structure SelectorsRealized (allowed : Fault → Prop) (w : Workspace) (ss : List Selector)
    (subscripts : List Subscript) : Prop where
  axes : subscripts.map Subscript.axis = ss.map Selector.axis
  spans : ∀ shape axis base,
    Subscript.spans w shape axis base subscripts = Selector.spans w shape axis base ss
  ensures : ∀ shape axis base, Ensures allowed (fun _ => True) (Selector.spans w shape axis base ss)

theorem SelectorsRealized.nil : SelectorsRealized allowed w [] [] where
  axes := rfl
  spans _ _ _ := rfl
  ensures _ _ _ := .pure trivial

include proper

theorem SelectorsRealized.cons {s : Selector} {subscript : Subscript}
    (haxis : subscript.axis = s.axis)
    (hspan : ∀ axis extent, subscript.span w axis extent = s.span w axis extent)
    (hensures : ∀ axis extent, Ensures allowed (fun _ => True) (s.span w axis extent))
    (hs : SelectorsRealized allowed w ss subscripts) :
    SelectorsRealized allowed w (s :: ss) (subscript :: subscripts) where
  axes := by rw [map_cons, map_cons, haxis, hs.axes]
  spans shape axis base := by
    rw [Subscript.spans, Selector.spans, hspan, haxis]
    simp only [hs.spans]
  ensures shape axis base := by
    refine (hensures axis _).bind fun range _ => ?_
    refine (Ensures.check (sound_placed proper s.axis range _ base)).bind fun base _ => ?_
    refine (hs.ensures shape (axis + 1) base).bind fun _ _ => ?_
    exact .pure trivial

theorem SelectorsRealized.all (hs : SelectorsRealized allowed w ss subscripts) :
    SelectorsRealized allowed w (.all :: ss) (.all :: subscripts) :=
  .cons proper rfl (fun _ _ => rfl)
    (fun axis extent => .check (sound_axisRange proper axis extent _ _ _)) hs

theorem SelectorsRealized.at (h : Realized allowed w (s.integral w) e .integer)
    (hs : SelectorsRealized allowed w ss subscripts) :
    SelectorsRealized allowed w (.at s :: ss) (.at e :: subscripts) := by
  have hspan : ∀ axis extent, (Selector.at s).span w axis extent =
      ((do (← s.integral w).integer) >>= fun i =>
        check (axisRange axis extent i i 1)) := by
    intro axis extent
    rw [Selector.span, integral]
    simp only [bind_assoc, pure_bind]
  refine .cons proper rfl (fun axis extent => ?_) (fun axis extent => ?_) hs
  · rw [Subscript.span, hspan, h.meaning, bind_assoc]
  · rw [hspan]
    refine (h.typed.bind fun m hm => ensures_integer proper hm).bind fun i _ => ?_
    exact .check (sound_axisRange proper axis extent i i 1)

theorem SelectorsRealized.range {first step : Option Term} {e e'' : Option Expr}
    (hfirst : MayBeRealized allowed w first e) (hlast : MayBeRealized allowed w last e')
    (hstep : MayBeRealized allowed w step e'') (hs : SelectorsRealized allowed w ss subscripts) :
    SelectorsRealized allowed w (.range first last step :: ss)
      (.range e e' e'' :: subscripts) := by
  refine .cons proper ?_ (fun axis extent => ?_) (fun axis extent => ?_) hs
  · rw [Subscript.axis, Selector.axis, hfirst.isSome, hlast.isSome, hstep.isSome]
  · rw [Subscript.span, Selector.span, hfirst.bound, hlast.bound, hstep.bound]
  · rw [Selector.span]
    refine hfirst.ensures_bound.bind fun a _ => hlast.ensures_bound.bind fun b _ => ?_
    refine hstep.ensures_bound.bind fun c _ => .check ?_
    exact sound_axisBetween proper axis extent a b c

end Parts

/-! ### Arguments -/

theorem ArgDecl.Admits.of_accepts (hmode : decl.mode ≠ .name) (h : decl.type.accepts type) :
    decl.Admits type := by
  rw [ArgDecl.Admits, if_neg hmode]
  exact h

theorem ArgDecl.Admits.of_name (hmode : decl.mode = .name) : decl.Admits .text := by
  rw [ArgDecl.Admits, if_pos hmode]

/-- Types of arguments that a function accepts, from one argument on. -/
structure Function.AcceptsFrom (f : Function) (index : Nat) (types : List ElementType) : Prop where
  room : types = [] ∨ ∀ most, f.maxArgs = some most → index + types.length ≤ most
  types : ∀ (i : Nat) (type : ElementType), types[i]? = some type →
    (f.decl (index + i)).Admits type

namespace Function.AcceptsFrom

theorem nil : f.AcceptsFrom index [] := ⟨.inl rfl, nofun⟩

theorem cons (hadmits : f.admits index) (haccepts : (f.decl index).Admits type)
    (h : f.AcceptsFrom (index + 1) types) : f.AcceptsFrom index (type :: types) where
  room := by
    refine .inr fun most hmost => ?_
    simp only [Function.admits, hmost, decide_eq_true_eq] at hadmits
    rw [length_cons]
    cases h.room with
    | inl hnil =>
      subst hnil
      exact hadmits
    | inr hroom =>
      have := hroom most hmost
      omega
  types i type' hi := by
    cases i with
    | zero =>
      cases hi
      exact haccepts
    | succ i =>
      rw [show index + (i + 1) = index + 1 + i by omega]
      exact h.types i type' hi

theorem accepts (h : f.AcceptsFrom 0 types)
    (henough : Parse.enough f types.length column = .ok ()) : f.Accepts types where
  enough := by
    unfold Parse.enough at henough
    split at henough
    · cases henough
    · omega
  room most hmost := by
    cases h.room with
    | inl hnil =>
      subst hnil
      exact Nat.zero_le most
    | inr hroom =>
      have := hroom most hmost
      omega
  types i type' hi := by
    have := h.types i type' hi
    rwa [Nat.zero_add] at this

end Function.AcceptsFrom

section Arguments

variable (proper : ∀ f : Fault, f.IsProper → allowed f)
variable {as : List Actual} {args : List (Argument × ElementType)}

/-- The arguments of a function called for every element, from one on. -/
structure HandedRealized (allowed : Fault → Prop) (w : Workspace) (f : Function) (index : Nat)
    (ss : List Term) (ts : List Typed) : Prop where
  accepted : f.AcceptsFrom index (ts.map Typed.type)
  types : ∀ func, w.functions[func]? = some f → Term.types w func index ss = ts.map Typed.type
  meanings : Expr.meanings w (ts.map Typed.expr) = Term.handed w f index ss
  typed : Ensures allowed
    (fun ms => List.Forall₂ (Meaning.HasType allowed) ms (ts.map Typed.type))
    (Term.handed w f index ss)

theorem HandedRealized.nil : HandedRealized allowed w f index [] [] where
  accepted := .nil
  types _ _ := rfl
  meanings := rfl
  typed := .pure .nil

/-- The arguments of a function called once, from one on. -/
structure ActualsRealized (allowed : Fault → Prop) (w : Workspace) (f : Function) (index : Nat)
    (as : List Actual) (args : List (Argument × ElementType)) : Prop where
  accepted : f.AcceptsFrom index (args.map Prod.snd)
  types : ∀ func, w.functions[func]? = some f → Actual.types w func index as = args.map Prod.snd
  cells : Argument.onceCells w f index (args.map Prod.fst) = Actual.cells w f index as
  typed : Ensures allowed
    (fun cells => cells.map Cell.type = args.map Prod.snd ∧
      ∀ (i : Nat) (cell : Cell), cells[i]? = some cell →
        (f.decl (index + i)).rank.accepts cell.rank cell.size ∧
        ((f.decl (index + i)).mode ≠ .reference → cell.WellFormed))
    (Actual.cells w f index as)

theorem ActualsRealized.nil : ActualsRealized allowed w f index [] [] where
  accepted := .nil
  types _ _ := rfl
  cells := rfl
  typed := .pure ⟨rfl, nofun⟩

include proper

theorem HandedRealized.cons {ss : List Term} {ts : List Typed} (hadmits : f.admits index)
    (hmode : (f.decl index).mode = .value) (h : Faithful allowed w s t)
    (haccept : Parse.accept t (f.decl index) column = .ok t')
    (hs : HandedRealized allowed w f (index + 1) ss ts) :
    HandedRealized allowed w f index (s :: ss) (t' :: ts) := by
  obtain ⟨hrealized, htype, haccepts⟩ := h.realized.accept proper haccept
  have hhanded : Term.handed w f index (s :: ss) = do
      let m ← (do return (← s.meaning w).converted ((f.decl index).target t.type))
      return m :: (← Term.handed w f (index + 1) ss) := by
    rw [Term.handed, h.type]
    simp only [bind_assoc, pure_bind]
  refine ⟨.cons hadmits (.of_accepts (by simp [hmode]) haccepts) hs.accepted, fun func hf => ?_, ?_, ?_⟩
  · have hdecl : w.declOf func index = f.decl index := by rw [Workspace.declOf, hf]
    rw [Term.types, hdecl, h.type, hs.types func hf, map_cons, htype]
  · rw [hhanded, map_cons, Expr.meanings, hrealized.meaning, hs.meanings]
  · rw [hhanded]
    exact hrealized.typed.bind fun m hm => hs.typed.bind fun ms hms => .pure (.cons hm hms)

theorem Function.sound_onceCell (f : Function) (index : Nat) (cell : Cell) :
    Sound allowed (fun c => c.type = cell.type ∧ (f.decl index).rank.accepts c.rank c.size ∧
      (cell.WellFormed → c.WellFormed)) (f.onceCell index cell) := by
  unfold Function.onceCell Machine.checkRank
  split
  case isTrue hrank =>
    split
    · exact ⟨rfl, hrank, id⟩
    · exact ⟨rfl, hrank, id⟩
  case isFalse => exact proper _ (by simp)

theorem ActualsRealized.cons {a : Actual} {arg : Argument} (hadmits : f.admits index)
    (haccepts : (f.decl index).Admits type) (htypes : ∀ func, w.functions[func]? = some f →
      Actual.types w func index (a :: as) = type :: Actual.types w func (index + 1) as)
    (hcell : arg.cell w = a.cell w (f.decl index)) (htyped : Ensures allowed
      (fun c => c.type = type ∧ ((f.decl index).mode ≠ .reference → c.WellFormed))
      (a.cell w (f.decl index))) (hs : ActualsRealized allowed w f (index + 1) as args) :
    ActualsRealized allowed w f index (a :: as) ((arg, type) :: args) where
  accepted := .cons hadmits haccepts hs.accepted
  types func hf := by rw [htypes func hf, hs.types func hf, map_cons]
  cells := by rw [map_cons, Argument.onceCells, Actual.cells, hcell, hs.cells]
  typed := by
    refine htyped.bind fun c hc => ?_
    refine (Ensures.check (Function.sound_onceCell proper f index c)).bind fun c' hc' => ?_
    refine hs.typed.bind fun cells hcells => .pure ⟨?_, fun i cell hi => ?_⟩
    · rw [map_cons, map_cons, hc'.1, hc.1, hcells.1]
    · cases i with
      | zero =>
        cases hi
        exact ⟨hc'.2.1, fun hmode => hc'.2.2 (hc.2 hmode)⟩
      | succ i =>
        rw [show index + (i + 1) = index + 1 + i by omega]
        exact hcells.2 i cell hi

theorem ActualsRealized.value (hadmits : f.admits index) (hmode : (f.decl index).mode = .value)
    (h : Faithful allowed w s t) (haccept : Parse.accept t (f.decl index) column = .ok t')
    (hs : ActualsRealized allowed w f (index + 1) as args) :
    ActualsRealized allowed w f index (.value s :: as)
      ((.value t'.expr t'.type, t'.type) :: args) := by
  obtain ⟨hrealized, htype, haccepts⟩ := h.realized.accept proper haccept
  have hcell : (Actual.value s).cell w (f.decl index) =
      ((do return (← s.meaning w).converted ((f.decl index).target t.type)) >>= fun m =>
        m.cell t'.type none) := by
    rw [Actual.cell, h.type, htype]
    simp only [bind_assoc, pure_bind]
  refine .cons proper hadmits (.of_accepts (by simp [hmode]) haccepts) (fun func hf => ?_) ?_ ?_ hs
  · have hdecl : w.declOf func index = f.decl index := by rw [Workspace.declOf, hf]
    rw [Actual.types, hdecl, h.type, htype]
  · rw [hcell, Argument.cell, hrealized.meaning]
  · rw [hcell]
    refine hrealized.typed.bind fun m hm => ?_
    exact (ensures_cell proper hm none).mono fun c hc => ⟨hc.1, fun _ => hc.2⟩

theorem ActualsRealized.reference (hadmits : f.admits index)
    (hmode : (f.decl index).mode = .reference)
    (hvar : ∀ cell, w.memory.value var = .ok cell → cell.type = type)
    (haccepts : (f.decl index).type.accepts type)
    (hs : ActualsRealized allowed w f (index + 1) as args) :
    ActualsRealized allowed w f index (.reference var type :: as)
      ((.reference var type, type) :: args) := by
  refine .cons proper hadmits (.of_accepts (by simp [hmode]) haccepts) (fun func _ => by rw [Actual.types])
    rfl ?_ hs
  refine (Ensures.check (Memory.sound_value proper hvar)).bind fun c hc => .pure ⟨hc, ?_⟩
  exact fun hne => absurd hmode hne

theorem ActualsRealized.name {text : String} (hadmits : f.admits index)
    (hmode : (f.decl index).mode = .name) (hs : ActualsRealized allowed w f (index + 1) as args) :
    ActualsRealized allowed w f index (.name text :: as) ((.name text, .text) :: args) :=
  .cons proper hadmits (.of_name hmode) (fun func _ => by rw [Actual.types]) rfl
    (.pure ⟨rfl, fun _ => Cell.wellFormed_scalar _⟩) hs

end Arguments

/-! ### Expressions -/

namespace Faithful

variable (proper : ∀ f : Fault, f.IsProper → allowed f)
variable {rank : Option Nat} {tl tr : Typed} {l r : Term}

include proper

theorem whole (hvar : ∀ cell, w.memory.value var = .ok cell → cell.type = type) :
    Faithful allowed w (.whole var type) ⟨.whole var, type, rank⟩ where
  realized := by
    refine ⟨rfl, ?_⟩
    refine (Ensures.check (Memory.sound_value proper hvar)).bind fun cell _ => .pure ?_
    exact hasType_operand (Operand.hasType_var proper hvar)
  type := rfl

theorem cast {extents : List Term} (hvar : ∀ cell, w.memory.value var = .ok cell → cell.type = type)
    (h : ExtentsRealized allowed w extents es) :
    Faithful allowed w (.cast var type extents) ⟨.cast var es, type, rank⟩ where
  realized := by
    have hvalue := Ensures.check (σ := Host) (Memory.sound_value proper hvar)
    cases extents with
    | nil =>
      obtain rfl := length_eq_zero_iff.1 h.length
      refine ⟨by rw [Expr.meaning, Term.meaning], ?_⟩
      refine hvalue.bind fun cell _ => .pure ?_
      exact hasType_operand (Operand.hasType_var proper hvar)
    | cons s ss =>
      obtain ⟨e, es, rfl⟩ := exists_cons_of_length_eq_add_one h.length
      refine ⟨by rw [Expr.meaning, Term.meaning, h.extents], ?_⟩
      refine hvalue.bind fun cell _ => h.ensures.bind fun dims _ => ?_
      refine (Ensures.check (Shape.sound_cast proper cell.shape dims)).bind fun _ _ => .pure ?_
      exact hasType_operand (Operand.hasType_var proper hvar)
  type := by rw [Term.type]

theorem slice {selectors : List Selector}
    (hvar : ∀ cell, w.memory.value var = .ok cell → cell.type = type)
    (h : SelectorsRealized allowed w selectors subscripts) :
    Faithful allowed w (.slice var type selectors) ⟨.slice var subscripts, type, rank⟩ where
  realized := by
    have hlength : subscripts.length = selectors.length := by
      simpa using congrArg length h.axes
    refine ⟨?_, ?_⟩
    · rw [Expr.meaning, Term.meaning, hlength, h.axes]
      simp only [h.spans]
    · rw [Term.meaning]
      refine (Ensures.check (Memory.sound_value proper hvar)).bind fun cell _ => ?_
      refine (Ensures.check (sound_checkAxes proper _ cell.shape)).bind fun _ _ => ?_
      refine (h.ensures cell.shape 0 0).bind fun ranges _ => ?_
      refine (Ensures.check (sound_viewOf proper _ _ ranges)).bind fun _ _ => .pure ?_
      exact hasType_operand (Operand.hasType_var proper hvar)
  type := by rw [Term.type]

theorem part {text first : Term} (htext : Faithful allowed w text t) (htype : t.type = .text)
    (hfirst : Realized allowed w (first.integral w) e .integer)
    (hlast : MayBeRealized allowed w last e') :
    Faithful allowed w (.part text first last) { t with expr := .substring t.expr e e' } where
  realized := by
    have hpart : Term.meaning w (.part text first last) = do
        let text ← text.meaning w
        let first ← first.integral w
        let last ← Expr.meaningOption w e'
        return .part text first last := by
      rw [Term.meaning, Term.integral, hlast.meaning]
      simp only [bind_assoc, pure_bind]
    refine ⟨?_, ?_⟩
    · rw [hpart, Expr.meaning, htext.realized.meaning, hfirst.meaning]
    · rw [hpart]
      refine htext.realized.typed.bind fun m hm => hfirst.typed.bind fun m' hm' => ?_
      refine hlast.typed.bind fun o ho => .pure ?_
      rw [htype] at hm ⊢
      exact hm.part proper hm' ho
  type := by rw [Term.type, htype]

theorem call {args : List Term} {args' : List Typed}
    (hf : w.functions[func]? = some f) (hkind : f.kind = .elemental) (honest : f.Honest allowed)
    (hargs : HandedRealized allowed w f 0 args args')
    (henough : Parse.enough f args'.length column = .ok ())
    (hresult : Parse.resultType f (args'.map Typed.type) column = .ok type) :
    Faithful allowed w (.call func args)
      ⟨.call func (args'.map Typed.expr) type, type, rank⟩ := by
  have htype : Term.type w (.call func args) = type := by
    rw [Term.type, hargs.types func hf, Workspace.returned_eq hf hresult]
  have hfunction : functionOf w func = pure f := by rw [functionOf, hf]
  have haccepts : f.Accepts (args'.map Typed.type) :=
    hargs.accepted.accepts (by rw [length_map, henough])
  refine ⟨⟨?_, ?_⟩, htype⟩
  · rw [Expr.meaning, Term.meaning, hfunction, pure_bind, htype, hargs.meanings]
  · rw [Term.meaning, hfunction, pure_bind, htype]
    refine hargs.typed.bind fun ms hms => .pure ?_
    exact hasType_call proper hf hkind honest haccepts hresult hms

theorem once {args : List Actual} {args' : List (Argument × ElementType)}
    (hf : w.functions[func]? = some f) (hkind : f.kind = .once) (honest : f.Honest allowed)
    (hargs : ActualsRealized allowed w f 0 args args')
    (henough : Parse.enough f args'.length column = .ok ())
    (hresult : Parse.resultType f (args'.map Prod.snd) column = .ok type) :
    Faithful allowed w (.once func args)
      ⟨.once func (args'.map Prod.fst) type, type, rank⟩ := by
  have htype : Term.type w (.once func args) = type := by
    rw [Term.type, hargs.types func hf, Workspace.returned_eq hf hresult]
  have hfunction : functionOf w func = pure f := by rw [functionOf, hf]
  have haccepts : f.Accepts (args'.map Prod.snd) :=
    hargs.accepted.accepts (by rw [length_map, henough])
  refine ⟨⟨?_, ?_⟩, htype⟩
  · rw [Expr.meaning, Term.meaning, hfunction, pure_bind, pure_bind, htype, hargs.cells]
  · rw [Term.meaning, hfunction, pure_bind, htype]
    refine hargs.typed.bind fun cells hcells => ?_
    rw [← hcells.1] at haccepts hresult
    have hgets : f.Gets cells.toArray :=
      { accepted := haccepts
        single := fun h => by rw [hkind] at h; cases h
        ranks := fun _ i cell hi => by simpa using (hcells.2 i cell (by simpa using hi)).1
        formed := fun i cell hi hmode =>
          (hcells.2 i cell (by simpa using hi)).2 (by simpa using hmode) }
    refine (Direct.ensures_callOnce (w := w) proper honest hgets hresult).bind fun o ho => .pure ?_
    exact hasType_operand ho

omit proper in
theorem folded {value value' : Scalar} (h : Faithful allowed w s t) (hconst : t.expr = .const value)
    (hnegate : value.negate = .ok value') :
    Faithful allowed w (.minus s) { t with expr := .const value' } where
  realized := by
    have hmeaning : s.meaning w = pure (.const value) := by
      rw [← h.realized.meaning, hconst, Expr.meaning]
    have hmap : (Meaning.const value).map Scalar.negate = .const value' :=
      Meaning.ext rfl (funext fun _ => congrArg check hnegate)
    refine ⟨?_, ?_⟩
    · rw [Expr.meaning, meaning, hmeaning, pure_bind, hmap]
    · rw [meaning, hmeaning, pure_bind, hmap]
      intro host element host'
      have htype := h.realized.typed host
      rw [hmeaning] at htype
      exact (Scalar.type_negate hnegate).trans (htype element host')
  type := h.type

theorem minus (h : Faithful allowed w s t) (hn : t.type.isNumeric) :
    Faithful allowed w (.minus s) { t with expr := .neg t.type t.expr } where
  realized := by
    exact h.realized.neg proper hn
  type := by rw [Term.type, h.type]

theorem binary (hl : Faithful allowed w l tl) (hr : Faithful allowed w r tr)
    (h : op.signature tl.type tr.type = .ok ⟨operand, result⟩) :
    Faithful allowed w (.binary op l r)
      ⟨.binary op operand (tl.type != operand) (tr.type != operand) tl.expr tr.expr, result,
        rank⟩ where
  realized := by
    exact hl.realized.binary proper hr.realized h
  type := by
    obtain ⟨hmeet, hresult⟩ := of_signature h
    rw [Term.type, hl.type, hr.type, resultOf_eq hmeet hresult]

omit proper in
theorem not (h : Faithful allowed w s t) (htype : t.type = .logical) :
    Faithful allowed w (.not s) { t with expr := .not t.expr } where
  realized := by
    have hrealized := h.realized
    rw [htype] at hrealized
    rw [Term.meaning, htype]
    exact hrealized.not
  type := by rw [Term.type, htype]

omit proper in
theorem and (hl : Faithful allowed w l tl) (hr : Faithful allowed w r tr) (htl : tl.type = .logical)
    (htr : tr.type = .logical) :
    Faithful allowed w (.and l r) ⟨.and tl.expr tr.expr, .logical, rank⟩ where
  realized := by
    rw [Term.meaning]
    exact (htl ▸ hl.realized).guarded (htr ▸ hr.realized) (by rw [Expr.meaning])
  type := by rw [Term.type]

omit proper in
theorem or (hl : Faithful allowed w l tl) (hr : Faithful allowed w r tr) (htl : tl.type = .logical)
    (htr : tr.type = .logical) :
    Faithful allowed w (.or l r) ⟨.or tl.expr tr.expr, .logical, rank⟩ where
  realized := by
    rw [Term.meaning]
    exact (htl ▸ hl.realized).guarded (htr ▸ hr.realized) (by rw [Expr.meaning])
  type := by rw [Term.type]

end Faithful

/-- What may be relied on when a tree is evaluated in a later state than it was read in. -/
structure Trusted (allowed : Fault → Prop) (w w' : Workspace) : Prop where
  proper : ∀ f : Fault, f.IsProper → allowed f
  later : w.Later w'
  honest : ∀ f ∈ w.functions, f.Honest allowed

section Main

variable {w' : Workspace}

theorem Trusted.typeOf (env : Trusted allowed w w') {cell : Cell}
    (h : w.memory.value var = .ok cell) :
    ∀ cell', w'.memory.value var = .ok cell' → cell'.type = cell.type :=
  fun _ h' => env.later.types h h'

theorem Trusted.functionAt (env : Trusted allowed w w')
    (h : w.functions[func]? = some f) : w'.functions[func]? = some f ∧ f.Honest allowed :=
  ⟨env.later.functions ▸ h, env.honest f (Array.mem_of_getElem? h)⟩

variable (env : Trusted allowed w w')

include env

mutual

/-- **The tree of a well-typed expression means what the expression means**, and its values have the
type that the tree says, in every later state of the variables. -/
theorem Term.Elaborates.realizes {s : Term} {t : Typed} : Elaborates w s t → Faithful allowed w' s t
  | .literal value => ⟨⟨rfl, .pure (hasType_const value)⟩, rfl⟩
  | .placeholder => ⟨⟨rfl, .pure hasType_placeholder⟩, rfl⟩
  | .whole h => .whole env.proper (env.typeOf h)
  | .cast h hs _ => .cast env.proper (env.typeOf h) hs.realized
  | .slice h hs _ => .slice env.proper (env.typeOf h) hs.realized
  | .once h hkind hargs henough hresult =>
    have hf := env.functionAt h
    .once env.proper hf.1 hkind hf.2 hargs.realized henough hresult
  | .call h hkind hargs henough hresult =>
    have hf := env.functionAt h
    .call env.proper hf.1 hkind hf.2 hargs.realized henough hresult
  | .part htext htype hfirst hlast =>
    .part env.proper htext.realizes htype hfirst.realized hlast.realized
  | .plus h _ =>
    have h := h.realizes
    ⟨by rw [meaning]; exact h.realized, by rw [type, h.type]⟩
  | .minus h hn => .minus env.proper h.realizes hn
  | .folded h hconst hnegate => .folded h.realizes hconst hnegate
  | .not h htype => .not h.realizes htype
  | .binary hl hr hsignature => .binary env.proper hl.realizes hr.realizes hsignature
  | .and hl hr htl htr => .and hl.realizes hr.realizes htl htr
  | .or hl hr htl htr => .or hl.realizes hr.realizes htl htr

theorem Term.IsInteger.realized {s : Term} {e : Expr} :
    IsInteger w s e → Realized allowed w' (s.integral w') e .integer
  | .intro h hconvert => (h.realizes.realized.convert env.proper hconvert).1

theorem Term.MayBeInteger.realized {o : Option Term} {e : Option Expr} :
    MayBeInteger w o e → MayBeRealized allowed w' o e
  | .none => .none
  | .some h => .some env.proper h.realized

theorem Term.AreIntegers.realized {ss : List Term} {es : List Expr} :
    AreIntegers w ss es → ExtentsRealized allowed w' ss es
  | .nil => .nil
  | .cons h hs => .cons env.proper h.realized hs.realized

theorem Term.AreHanded.realized {f : Function} {index : Nat} {ss : List Term} {ts : List Typed} :
    AreHanded w f index ss ts → HandedRealized allowed w' f index ss ts
  | .nil _ _ => .nil
  | .cons hadmits hmode h haccept hs =>
    .cons env.proper hadmits hmode h.realizes haccept hs.realized

theorem Selector.Elaborate.realized {ss : List Selector} {subscripts : List Subscript} :
    Selector.Elaborate w ss subscripts → SelectorsRealized allowed w' ss subscripts
  | .nil => .nil
  | .all hs => .all env.proper hs.realized
  | .at h hs => .at env.proper h.realized hs.realized
  | .range hfirst hlast hstep hs =>
    .range env.proper hfirst.realized hlast.realized hstep.realized hs.realized

theorem Actual.Elaborate.realized {f : Function} {index : Nat}
    {as : List Actual} {args : List (Argument × ElementType)} :
    Actual.Elaborate w f index as args → ActualsRealized allowed w' f index as args
  | .nil _ _ => .nil
  | .value hadmits hmode h haccept hs =>
    .value env.proper hadmits hmode h.realizes haccept hs.realized
  | .reference hadmits hmode h haccepts hs =>
    .reference env.proper hadmits hmode (env.typeOf h) haccepts hs.realized
  | .name hadmits hmode hs => .name env.proper hadmits hmode hs.realized

end

end Main

end ArrayCommand
