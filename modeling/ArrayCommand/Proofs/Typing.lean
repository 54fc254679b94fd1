/-
Statements that are compiled are well typed.

A simple statement is well typed if its expressions are and if their values suit the variables they go
to; a statement is well typed if its parts are.  Reading a line creates variables, so that the rules are
stated in any workspace that is left behind the last line: everything read before is still well typed
there.

* `ElementType.Suits` — values of one type can become values of another;
* `Workspace.Precedes`, `Term.Elaborates.weaken` — what is well typed stays so when variables are added;
* `Simple.WellTyped`, `Statement.WellTyped` — the rules;
* `Compiler.gives_values`, `Compiler.gives_commandArguments`, … — the readers of the parts of a statement;
* `Outline.Finds` — reading adds variables only, and finds something that holds behind it;
* `Written.lasting` — **what is read from the lines of a statement is well typed.**
-/

import ArrayCommand.Proofs.Creation
import ArrayCommand.Proofs.Readers

namespace ArrayCommand

open Parse

variable {w w' : Workspace} {f : Function} {index : Nat} {args : List Argument} {type : ElementType}
  {value : Cell} {u : Unit}
variable {column : Column} {name : String}

/-! ### Types that suit each other -/

/-- Values of the first type are of the second one, or both are numbers. -/
def ElementType.Suits (type want : ElementType) : Prop :=
  type = want ∨ type.isNumeric ∧ want.isNumeric

namespace ElementType.Suits

variable {a b c : ElementType}

theorem refl (a : ElementType) : a.Suits a := .inl rfl

theorem trans (h : a.Suits b) (h' : b.Suits c) : a.Suits c := by
  obtain rfl | ⟨ha, hb⟩ := h
  · exact h'
  · obtain rfl | ⟨-, hc⟩ := h'
    · exact .inr ⟨ha, hb⟩
    · exact .inr ⟨ha, hc⟩

end ElementType.Suits

/-! ### More variables -/

/-- All variables of the first workspace are in the second one with the same values. -/
structure Workspace.Precedes (w w' : Workspace) : Prop where
  functions : w'.functions = w.functions
  value : ∀ {var : Handle} {cell : Cell}, w.memory.value var = .ok cell →
    w'.memory.value var = .ok cell

namespace Workspace.Precedes

variable {w'' : Workspace}

theorem refl (w : Workspace) : w.Precedes w := ⟨rfl, id⟩

theorem trans (h : w.Precedes w') (h' : w'.Precedes w'') : w.Precedes w'' :=
  ⟨h'.functions.trans h.functions, fun hvalue => h'.value (h.value hvalue)⟩

theorem functionAt (h : w.Precedes w') {func : Nat}
    (hf : w.functions[func]? = some f) : w'.functions[func]? = some f :=
  h.functions ▸ hf

end Workspace.Precedes

section Weakening

mutual

theorem Term.Elaborates.weaken (h : w.Precedes w') {s : Term} {t : Typed} :
    Term.Elaborates w s t → Term.Elaborates w' s t
  | .literal value => .literal value
  | .placeholder => .placeholder
  | .whole hvar => .whole (h.value hvar)
  | .cast hvar hs hrank => .cast (h.value hvar) (hs.weaken h) hrank
  | .slice hvar hs hrank => .slice (h.value hvar) (hs.weaken h) hrank
  | .once hf hkind hargs henough hresult =>
    .once (h.functionAt hf) hkind (hargs.weaken h) henough hresult
  | .call hf hkind hargs henough hresult =>
    .call (h.functionAt hf) hkind (hargs.weaken h) henough hresult
  | .part htext htype hfirst hlast =>
    .part (htext.weaken h) htype (hfirst.weaken h) (hlast.weaken h)
  | .plus hs hn => .plus (hs.weaken h) hn
  | .minus hs hn => .minus (hs.weaken h) hn
  | .folded hs hconst hnegate => .folded (hs.weaken h) hconst hnegate
  | .not hs htype => .not (hs.weaken h) htype
  | .binary hl hr hsignature => .binary (hl.weaken h) (hr.weaken h) hsignature
  | .and hl hr htl htr => .and (hl.weaken h) (hr.weaken h) htl htr
  | .or hl hr htl htr => .or (hl.weaken h) (hr.weaken h) htl htr

theorem Term.IsInteger.weaken (h : w.Precedes w') {s : Term} {e : Expr} :
    Term.IsInteger w s e → Term.IsInteger w' s e
  | .intro hs hconvert => .intro (hs.weaken h) hconvert

theorem Term.MayBeInteger.weaken (h : w.Precedes w') {o : Option Term} {e : Option Expr} :
    Term.MayBeInteger w o e → Term.MayBeInteger w' o e
  | .none => .none
  | .some hs => .some (hs.weaken h)

theorem Term.AreIntegers.weaken (h : w.Precedes w') {ss : List Term} {es : List Expr} :
    Term.AreIntegers w ss es → Term.AreIntegers w' ss es
  | .nil => .nil
  | .cons hs hss => .cons (hs.weaken h) (hss.weaken h)

theorem Term.AreHanded.weaken (h : w.Precedes w') {f : Function} {index : Nat} {ss : List Term}
    {ts : List Typed} : Term.AreHanded w f index ss ts → Term.AreHanded w' f index ss ts
  | .nil f index => .nil f index
  | .cons hadmits hmode hs haccept hss =>
    .cons hadmits hmode (hs.weaken h) haccept (hss.weaken h)

theorem Selector.Elaborate.weaken (h : w.Precedes w') {ss : List Selector}
    {subscripts : List Subscript} :
    Selector.Elaborate w ss subscripts → Selector.Elaborate w' ss subscripts
  | .nil => .nil
  | .all hss => .all (hss.weaken h)
  | .at hs hss => .at (hs.weaken h) (hss.weaken h)
  | .range hfirst hlast hstep hss =>
    .range (hfirst.weaken h) (hlast.weaken h) (hstep.weaken h) (hss.weaken h)

theorem Actual.Elaborate.weaken (h : w.Precedes w') {f : Function} {index : Nat}
    {as : List Actual} {args : List (Argument × ElementType)} :
    Actual.Elaborate w f index as args → Actual.Elaborate w' f index as args
  | .nil f index => .nil f index
  | .value hadmits hmode hs haccept has =>
    .value hadmits hmode (hs.weaken h) haccept (has.weaken h)
  | .reference hadmits hmode hvar haccepts has =>
    .reference hadmits hmode (h.value hvar) haccepts (has.weaken h)
  | .name hadmits hmode has => .name hadmits hmode (has.weaken h)

end

theorem Typed.WellTyped.weaken (h : w.Precedes w') {t : Typed} (ht : t.WellTyped w) :
    t.WellTyped w' := by
  obtain ⟨s, hs⟩ := ht
  exact ⟨s, hs.weaken h⟩

end Weakening

/-! ### The rules -/

/-- An argument of a command: it is as its function declares it, or it is a text that needs no
quotes. -/
def Argument.Handed (w : Workspace) (f : Function) (index : Nat) (a : Argument) : Prop :=
  f.admits index ∧ ((∃ actual type, Actual.Elaborate w f index [actual] [(a, type)]) ∨
    (f.decl index).type = .literal ∧ ∃ text, a = .value (.const (.text text)) .text)

/-- The arguments of a command from one on. -/
inductive Argument.AllHanded (w : Workspace) (f : Function) : Nat → List Argument → Prop
  | nil (index : Nat) : AllHanded w f index []
  | cons {index : Nat} {a : Argument} {args : List Argument} : a.Handed w f index →
      AllHanded w f (index + 1) args → AllHanded w f index (a :: args)

/-- A well-typed simple statement.  Every value of an assignment suits the variable, and subscripts
and extents are integers; a command gets the arguments that its function declares. -/
inductive Simple.WellTyped (w : Workspace) : Simple → Prop
  | assign {var : Handle} {cell : Cell} {subscripts : Option (List Subscript)}
      {values : List Typed} : w.memory.value var = .ok cell →
      (∀ list, subscripts = some list → ∃ ss, Selector.Elaborate w ss list) →
      (∀ v ∈ values, v.WellTyped w ∧ v.type.Suits cell.type) →
      WellTyped w (.assign var subscripts values)
  | command {func : Nat} {f : Function} {args : List Argument} {column : Column} :
      w.functions[func]? = some f → f.kind = .once → Argument.AllHanded w f 0 args →
      Parse.enough f args.length column = .ok () → WellTyped w (.command func args)
  | declare {var : Handle} {ss : List Term} {extents : List Expr} :
      Term.AreIntegers w ss extents → WellTyped w (.declare var extents)

def Expr.IsCondition (w : Workspace) (e : Expr) : Prop :=
  ∃ t : Typed, t.WellTyped w ∧ t.type = .logical ∧ t.expr = e

/-- A variable that holds numbers and may be written. -/
def Workspace.Numbers (w : Workspace) (var : Handle) : Prop :=
  ∃ cell, w.memory.value var = .ok cell ∧ cell.type.isNumeric ∧ cell.owner.isWritable

/-- A well-typed statement: its parts are well typed, its conditions are truth values, and the
variables and the bounds of its counted loops are numbers. -/
def Statement.WellTyped (w : Workspace) : Statement → Prop
  | .nothing => True
  | .line items => ∀ s ∈ items, s.WellTyped w
  | .leap _ => True
  | .stop => True
  | .both first second => first.WellTyped w ∧ second.WellTyped w
  | .ifThen test yes => test.IsCondition w ∧ yes.WellTyped w
  | .ifElse test yes no => test.IsCondition w ∧ yes.WellTyped w ∧ no.WellTyped w
  | .while test body => test.IsCondition w ∧ body.WellTyped w
  | .repeat body test => body.WellTyped w ∧ test.IsCondition w
  | .count var first last step body =>
    w.Numbers var ∧ (∀ t ∈ loopBounds first last step, t.WellTyped w ∧ t.type.isNumeric) ∧
      body.WellTyped w

/-- A text that needs no quotes is passed by value. -/
def Function.Plain (f : Function) : Prop :=
  ∀ index, (f.decl index).type = .literal → (f.decl index).mode = .value

section Arguments

theorem Argument.AllHanded.weaken (h : w.Precedes w')
    (hargs : AllHanded w f index args) : AllHanded w' f index args := by
  induction hargs with
  | nil index => exact .nil index
  | cons ha _ ih =>
    refine .cons ⟨ha.1, ha.2.imp_left ?_⟩ ih
    rintro ⟨actual, type, hactual⟩
    exact ⟨actual, type, hactual.weaken h⟩

/-- If texts without quotes are passed by value, all arguments are as their function declares them. -/
theorem Argument.AllHanded.elaborate (hf : f.Plain) (hargs : AllHanded w f index args) :
    ∃ as list, Actual.Elaborate w f index as list ∧ list.map Prod.fst = args := by
  induction hargs with
  | nil index => exact ⟨_, _, .nil f index, rfl⟩
  | @cons index a _ ha _ ih =>
    obtain ⟨as, list, has, rfl⟩ := ih
    obtain ⟨hadmits, ⟨actual, type, hactual⟩ | ⟨htype, text, rfl⟩⟩ := ha
    · cases hactual with
      | value _ hmode hs haccept => exact ⟨_, _, .value hadmits hmode hs haccept has, rfl⟩
      | reference _ hmode hvar haccepts =>
        exact ⟨_, _, .reference hadmits hmode hvar haccepts has, rfl⟩
      | name _ hmode => exact ⟨_, _, .name hadmits hmode has, rfl⟩
    · have haccept : accept (constant (.text text)) (f.decl index) .unset =
          .ok (constant (.text text)) := by
        rw [accept, htype]
        rfl
      exact ⟨_, _, .value hadmits (hf index htype) (.literal (.text text)) haccept has, rfl⟩

end Arguments

/-! ### Readers of the parts of a statement -/

namespace Compiler

open Parse (Gives)

theorem suits_listType {have' : Option ElementType} {out : ElementType}
    (h : listType have' type column = .ok out) :
    type.Suits out ∧ ∀ t, have' = some t → t.Suits out := by
  unfold listType at h
  cases have' with
  | none =>
    cases h
    exact ⟨.refl _, fun t ht => by cases ht⟩
  | some t =>
    dsimp only at h
    split at h
    case isTrue heq =>
      cases h
      subst heq
      exact ⟨.refl _, fun t ht => by cases ht; exact .refl _⟩
    case isFalse =>
      split at h
      case isTrue hn =>
        cases h
        obtain ⟨ht, htype⟩ := Bool.and_eq_true_iff.mp hn
        exact ⟨.inr ⟨htype, rfl⟩, fun t ht' => by cases ht'; exact .inr ⟨ht, rfl⟩⟩
      case isFalse => cases h

/-- The values of an assignment suit their common type, and so does what stands before them. -/
theorem gives_values (w : Workspace) (fuel : Nat) (have' : Option ElementType) :
    Gives (fun out => (∀ t ∈ out.1, t.WellTyped w ∧ t.type.Suits out.2) ∧
      ∀ t, have' = some t → t.Suits out.2) (values w fuel have') := by
  induction fuel generalizing have' with
  | zero => exact .throw _
  | succ fuel ih =>
    refine .skip fun column => (gives_expression w).bind fun t ht => .check fun type htype => ?_
    obtain ⟨hsuits, hbefore⟩ := suits_listType htype
    refine .skip fun more => .ite (fun _ => (ih _).bind fun rest hrest => ?_) fun _ => .pure ?_
    · obtain ⟨rest, type'⟩ := rest
      obtain ⟨hrest, hthis⟩ := hrest
      refine .pure ⟨fun t' ht' => ?_, fun t' ht' => (hbefore t' ht').trans (hthis type rfl)⟩
      rcases List.mem_cons.mp ht' with rfl | ht'
      · exact ⟨ht, hsuits.trans (hthis type rfl)⟩
      · exact hrest t' ht'
    · refine ⟨fun t' ht' => ?_, hbefore⟩
      rw [List.mem_singleton.mp ht']
      exact ⟨ht, hsuits⟩

theorem gives_target (w : Workspace) (name : String) (column : Column) (known : Bool) :
    Gives (fun subscripts => ∀ list, subscripts = some list → ∃ ss, Selector.Elaborate w ss list)
      (target w name column known) := by
  refine .skip fun token => .ite (fun _ => .pure fun list h => by cases h) fun _ => ?_
  refine .ite (fun _ => .throw _) fun _ => .skip fun _ => ?_
  refine (gives_subscripts (gives_nested w) _).bind fun subscripts h => .pure ?_
  intro list hlist
  cases hlist
  exact h.2

section Arguments

theorem gives_literalArgument (htype : (f.decl index).type = .literal)
    (hadmits : f.admits index) : Gives (Argument.Handed w f index) literalArgument := by
  refine .skip fun token => ?_
  split
  · exact .pure ⟨hadmits, .inr ⟨htype, _, rfl⟩⟩
  · exact .pure ⟨hadmits, .inr ⟨htype, _, rfl⟩⟩
  · exact .skip fun _ => .throw _

theorem gives_argumentsFrom (parens : Bool) (fuel count : Nat) :
    Gives (Argument.AllHanded w f count) (argumentsFrom w f parens fuel count) := by
  induction fuel generalizing count with
  | zero => exact .throw _
  | succ fuel ih =>
    refine (gives_room f count).bind fun _ hadmits => ?_
    have hrest {a : Argument} (ha : a.Handed w f count) :
        Gives (Argument.AllHanded w f count) (do
          if ← comma then
            return a :: (← argumentsFrom w f parens fuel (count + 1))
          return [a]) := by
      refine .skip fun more => .ite (fun _ => (ih _).bind fun args hargs => .pure ?_) fun _ => .pure ?_
      · exact .cons ha hargs
      · exact .cons ha (.nil _)
    refine .ite (fun hliteral => ?_) fun _ => ?_
    · have htype : (f.decl count).type = .literal := by
        simp only [Bool.and_eq_true, decide_eq_true_eq] at hliteral
        exact hliteral.1
      exact (gives_literalArgument htype hadmits).bind fun a ha => hrest ha
    · have hargument : Gives (Argument.Handed w f count) (argument w (f.decl count)) := by
        refine (gives_argument (gives_nested w) _).bind fun a ha => .pure ⟨hadmits, .inl ?_⟩
        obtain ⟨actual, hactual⟩ := ha rfl hadmits (.nil f (count + 1))
        exact ⟨actual, _, hactual⟩
      exact hargument.bind fun a ha => hrest ha

theorem gives_arguments (parens : Bool) (column : Column) :
    Gives (fun args => Argument.AllHanded w f 0 args ∧
      ∃ column, enough f args.length column = .ok ()) (arguments w f parens column) := by
  have hrest {args : List Argument} (hargs : Argument.AllHanded w f 0 args) :
      Gives (fun args => Argument.AllHanded w f 0 args ∧
        ∃ column, enough f args.length column = .ok ()) (do
          check (enough f args.length column)
          return args) :=
    .check fun _ henough => .pure ⟨hargs, column, henough⟩
  have hbody (empty : Bool) :
      Gives (fun args => Argument.AllHanded w f 0 args ∧
        ∃ column, enough f args.length column = .ok ()) (do
          let args ←
            if empty then pure []
            else do
              let args ← argumentsFrom w f parens (budget (← get)) 0
              if parens then expect .rightParen
              pure args
          check (enough f args.length column)
          return args) := by
    refine .ite (fun _ => hrest (.nil 0)) fun _ => .skip fun l => ?_
    refine (gives_argumentsFrom parens _ 0).bind fun args hargs => ?_
    exact .ite (fun _ => .skip fun _ => hrest hargs) fun _ => hrest hargs
  exact .ite (fun _ => .skip hbody) fun _ => .skip hbody

theorem gives_commandArguments (column : Column) :
    Gives (fun args => Argument.AllHanded w f 0 args ∧
      ∃ column, enough f args.length column = .ok ()) (commandArguments w f column) := by
  refine .skip fun token => .ite (fun _ => ?_) fun _ => .skip fun start => .skip fun _ => ?_
  · exact gives_arguments false column
  refine .skip fun l => ?_
  have hrest := @gives_arguments w f false column
  split
  case h_1 args l' hargs =>
    refine .skip fun _ => .skip fun done => .ite (fun _ => .pure ?_) fun _ => .skip fun _ => hrest
    exact (gives_arguments true column).result hargs
  case h_2 => exact .skip fun _ => hrest

end Arguments

theorem commandFunction_eq_ok {id : Nat} (h : commandFunction w name column = .ok (id, f)) :
    w.functions[id]? = some f ∧ f.kind = .once := by
  unfold commandFunction at h
  split at h
  · cases h
  · cases h
  · cases h
  · split at h
    · cases h
    case h_2 g hg =>
      split at h
      · cases h
      case isFalse hkind =>
        cases h
        refine ⟨hg, ?_⟩
        cases hf : f.kind with
        | elemental => exact absurd hf hkind
        | once => rfl

theorem gives_command (w : Workspace) (name : String) (column : Column) :
    Gives (fun out : Nat × List Argument => (Simple.command out.1 out.2).WellTyped w) (do
      let (id, f) ← check (commandFunction w name column)
      return (id, ← commandArguments w f column)) := by
  refine .check fun found hfound => ?_
  obtain ⟨hf, hkind⟩ := commandFunction_eq_ok hfound
  refine (gives_commandArguments column).bind fun args hargs => .pure ?_
  obtain ⟨hhanded, column', henough⟩ := hargs
  exact .command hf hkind hhanded henough

theorem gives_extents (w : Workspace) (fuel : Nat) :
    Gives (fun es => ∃ ss, Term.AreIntegers w ss es) (extents w fuel) := by
  induction fuel with
  | zero => exact .throw _
  | succ fuel ih =>
    refine (gives_subscript (gives_nested w)).bind fun e he => .skip fun more => ?_
    obtain ⟨s, he⟩ := he
    refine .ite (fun _ => ih.bind fun es hes => .pure ?_) fun _ => .pure ⟨_, .cons he .nil⟩
    obtain ⟨ss, hes⟩ := hes
    exact ⟨_, .cons he hes⟩

theorem gives_declarator (w : Workspace) :
    Gives (fun out => ∃ ss, Term.AreIntegers w ss out.2.2) (declarator w) := by
  refine .skip fun name => .skip fun token => .ite (fun _ => .pure ⟨_, .nil⟩) fun _ => ?_
  refine .skip fun _ => .skip fun l => (gives_extents w _).bind fun es hes => .pure hes

theorem gives_bounds (w : Workspace) (room : Nat) :
    Gives (fun list : List Typed => ∀ t ∈ list, t.WellTyped w ∧ t.type.isNumeric)
      (bounds w room) := by
  induction room with
  | zero => exact .pure fun t ht => by cases ht
  | succ room ih =>
    refine .skip fun column => (gives_expression w).bind fun t ht => ?_
    refine .ite (fun _ => .throw _) fun hn => ?_
    have hn : t.type.isNumeric := by simpa using hn
    have hone : ∀ t' ∈ [t], t'.WellTyped w ∧ t'.type.isNumeric := fun t' ht' => by
      rw [List.mem_singleton.mp ht']
      exact ⟨ht, hn⟩
    refine .ite (fun _ => .pure hone) fun _ => .skip fun more => .ite (fun _ => ?_) fun _ => .pure hone
    refine ih.bind fun rest hrest => .pure fun t' ht' => ?_
    rcases List.mem_cons.mp ht' with rfl | ht'
    · exact ⟨ht, hn⟩
    · exact hrest t' ht'

theorem gives_loopHead (w : Workspace) :
    Gives (fun out : String × Column × List Typed =>
      ∀ t ∈ out.2.2, t.WellTyped w ∧ t.type.isNumeric) (loopHead w) := by
  refine .skip fun name => .skip fun _ => (gives_bounds w 3).bind fun list hlist => ?_
  refine .ite (fun _ => .skip fun _ => .throw _) fun _ => .skip fun _ => .pure hlist

end Compiler

/-! ### Lines -/

/-- Reading has added variables only. -/
def Reading.Grows (r r' : Reading) : Prop := ∃ created, r.workspace.Grows created r'.workspace

/-- Reading adds variables only, and something holds behind it, whatever variables are added then. -/
structure Lasting (Q : Workspace → Prop) (r r' : Reading) : Prop where
  grows : r.Grows r'
  holds : r.workspace.memory.Consistent → ∀ w, r'.workspace.Precedes w → Q w

namespace Lasting

variable {Q R : Workspace → Prop} {r r₁ r' : Reading}

theorem consistent (h : Lasting Q r r') (hm : r.workspace.memory.Consistent) :
    r'.workspace.memory.Consistent := by
  obtain ⟨created, hgrows⟩ := h.grows
  exact hgrows.consistent hm

theorem precedes (h : Lasting Q r r') (hm : r.workspace.memory.Consistent) :
    r.workspace.Precedes r'.workspace := by
  obtain ⟨created, hgrows⟩ := h.grows
  have hadds := hgrows.additions hm
  refine ⟨hadds.functions, fun hvalue => ?_⟩
  obtain ⟨v, hv, rfl⟩ := Memory.value_eq_ok.mp hvalue
  exact Memory.value_eq_ok.mpr ⟨v, hadds.kept _ v hv, rfl⟩

theorem now (h : Lasting Q r r') (hm : r.workspace.memory.Consistent) : Q r'.workspace :=
  h.holds hm _ (.refl _)

/-- Only the line is read. -/
theorem still (hworkspace : r'.workspace = r.workspace)
    (h : ∀ w, r.workspace.Precedes w → Q w) : Lasting Q r r' where
  grows := ⟨[], hworkspace ▸ .nothing⟩
  holds _ w hw := h w (hworkspace ▸ hw)

theorem mono (h : Lasting Q r r') (hR : ∀ w, Q w → R w) : Lasting R r r' :=
  ⟨h.grows, fun hm w hw => hR w (h.holds hm w hw)⟩

theorem andThen (h : Lasting Q r r₁) (h' : Lasting R r₁ r') : Lasting (fun w => Q w ∧ R w) r r' where
  grows := by
    obtain ⟨created, hgrows⟩ := h.grows
    obtain ⟨created', hgrows'⟩ := h'.grows
    exact ⟨created' ++ created, hgrows.trans hgrows'⟩
  holds hm w hw :=
    ⟨h.holds hm w ((h'.precedes (h.consistent hm)).trans hw), h'.holds (h.consistent hm) w hw⟩

end Lasting

namespace Outline

variable {α β : Type} {Q : Workspace → α → Prop} {R : Workspace → β → Prop} {next : α → ReadM β}

/-- Reading adds variables only, and what it finds is as promised behind it. -/
structure Finds (Q : Workspace → α → Prop) (x : ReadM α) : Prop where
  result : ∀ {r r' : Reading} {a : α}, x r = .ok a r' → Lasting (fun w => Q w a) r r'

namespace Finds

variable {x : ReadM α}

theorem pure {a : α} (h : ∀ w, Q w a) : Finds Q (pure a) :=
  ⟨fun hx => by cases hx; exact .still rfl fun w _ => h w⟩

theorem throw (fault : Fault) : Finds Q (throw fault) := ⟨fun hx => by cases hx⟩

theorem get : Finds (fun _ _ => True) (get : ReadM Reading) :=
  ⟨fun hx => by cases hx; exact .still rfl fun _ _ => trivial⟩

theorem bind (hx : Finds Q x)
    (hnext : ∀ a, Finds (fun w b => Q w a → R w b) (next a)) : Finds R (x >>= next) := by
  refine ⟨fun hrun => ?_⟩
  obtain ⟨a, r₁, hrun, hrest⟩ := bind_eq_ok.mp hrun
  exact ((hx.result hrun).andThen ((hnext a).result hrest)).mono fun w h => h.2 h.1

theorem skip (hx : Finds Q x) (hnext : ∀ a, Finds R (next a)) : Finds R (x >>= next) :=
  hx.bind fun a => ⟨fun hrun => ((hnext a).result hrun).mono fun _ h _ => h⟩

theorem ite {c : Prop} [Decidable c] {y : ReadM α} (hx : Finds Q x) (hy : Finds Q y) :
    Finds Q (if c then x else y) := by
  split
  · exact hx
  · exact hy

theorem check (result : Except Fault α) :
    Finds (fun _ a => result = .ok a) (Direct.check result) := by
  cases result with
  | ok a => exact .pure fun _ => rfl
  | error fault => exact .throw fault

theorem reading {read : Workspace → Reader α} (h : ∀ w, Gives (Q w) (read w))
    (hQ : ∀ {w w' a}, w.Precedes w' → Q w a → Q w' a) : Finds Q (Outline.reading read) := by
  refine ⟨fun {r r' a} hx => ?_⟩
  unfold Outline.reading at hx
  cases hread : read r.workspace r.lexer with
  | ok b lexer =>
    rw [hread] at hx
    cases hx
    exact .still rfl fun w hw => hQ hw ((h _).result hread)
  | error fault lexer =>
    rw [hread] at hx
    cases hx

theorem taking (read : Reader α) : Finds (fun _ _ => True) (Outline.taking read) :=
  reading (fun _ => ⟨fun _ => trivial⟩) fun _ _ => trivial

theorem lookup (name : String) : Finds (fun _ _ => True) (Outline.lookup name) :=
  get.skip fun _ => pure fun _ => trivial

theorem valueOf (var : Handle) :
    Finds (fun w cell => w.memory.value var = .ok cell) (Outline.valueOf var) := by
  refine ⟨fun {r r' cell} hx => ?_⟩
  rw [Outline.valueOf, get_bind_apply] at hx
  cases hvalue : r.workspace.memory.value var with
  | error fault => rw [hvalue] at hx; cases hx
  | ok _ =>
    rw [hvalue] at hx
    cases hx
    exact .still rfl fun w hw => hw.value hvalue

theorem create (name : String) (type : ElementType) (shape : Shape) :
    Finds (fun w var => w.memory.value var = .ok (Cell.fresh type shape .declared))
      (Outline.create name (Cell.fresh type shape .declared)) := by
  refine ⟨fun {r r' var} hx => ?_⟩
  unfold Outline.create at hx
  cases hcreate : Workspace.create name (Cell.fresh type shape .declared) r.workspace with
  | error fault w => rw [hcreate] at hx; cases hx
  | ok handle w =>
    rw [hcreate] at hx
    cases hx
    refine ⟨⟨_, .create .nothing hcreate⟩, fun hm w hw => hw.value ?_⟩
    have hget := Workspace.get?_create hm hcreate var
    rw [if_pos rfl] at hget
    exact Memory.value_eq_ok.mpr ⟨_, hget, rfl⟩

end Finds

theorem suits_of_assignable
    (h : assignable name column type value = .ok u) : type.Suits value.type := by
  unfold assignable at h
  by_cases htype : value.type = type
  · exact .inl htype.symm
  · cases hn : value.type.isNumeric && type.isNumeric with
    | true =>
      obtain ⟨hvalue, htype⟩ := Bool.and_eq_true_iff.mp hn
      exact .inr ⟨htype, hvalue⟩
    | false =>
      cases hwritable : value.owner.isWritable with
      | true => simp [hwritable, htype, hn] at h
      | false =>
        rw [hwritable] at h
        cases h

theorem finds_assignment (name : String) (column : Column) :
    Finds Simple.WellTyped (assignment name column) := by
  refine (Finds.lookup name).skip fun entry => (Finds.check _).skip fun var? => ?_
  refine (Finds.reading (fun w => Compiler.gives_target w name column var?.isSome) ?_).bind
    fun subscripts => (Finds.taking _).skip fun _ => ?_
  · intro w w' subscripts hw hsubscripts list hlist
    obtain ⟨ss, hss⟩ := hsubscripts list hlist
    exact ⟨ss, hss.weaken hw⟩
  have hvalues : Finds (fun w out => ∀ t ∈ out.1, Typed.WellTyped w t ∧ t.type.Suits out.2)
      (reading fun w => do Compiler.values w (budget (← get)) none) := by
    refine .reading (fun w => .skip fun l => ⟨fun hread => ?_⟩) fun hw h t ht => ?_
    · exact ((Compiler.gives_values w _ none).result hread).1
    · exact ⟨(h t ht).1.weaken hw, (h t ht).2⟩
  refine hvalues.bind fun out => ?_
  cases var? with
  | some var =>
    refine (Finds.valueOf var).bind fun cell => (Finds.check _).bind fun _ => .pure ?_
    intro w hassignable hcell hvalues hsubscripts
    have hsuits := suits_of_assignable hassignable
    exact .assign hcell hsubscripts fun v hv => ⟨(hvalues v hv).1, (hvalues v hv).2.trans hsuits⟩
  | none =>
    refine (Finds.create name out.2 .scalar).bind fun var => .pure ?_
    intro w hcell hvalues hsubscripts
    refine .assign hcell hsubscripts fun v hv => ?_
    rw [Cell.fresh, Cell.type, Data.type_zeroed]
    exact hvalues v hv

theorem finds_command (name : String) (column : Column) :
    Finds Simple.WellTyped (command name column) := by
  refine (Finds.reading (fun w => Compiler.gives_command w name column) ?_).bind
    fun out => .pure fun w h => h
  intro w w' out hw h
  cases h with
  | command hf hkind hargs henough =>
    exact .command (hw.functionAt hf) hkind (hargs.weaken hw) henough

theorem finds_declared (name : String) (type : ElementType) (rank : Nat) (column : Column) :
    Finds (fun _ _ => True) (declared name type rank column) := by
  refine (Finds.lookup name).skip fun entry => ?_
  obtain _ | handle | _ | _ := entry
  case none =>
    refine (Finds.check _).skip fun shape => ⟨fun hx => ?_⟩
    exact ((Finds.create name type shape).result hx).mono fun _ _ => trivial
  case some.var =>
    exact (Finds.valueOf handle).skip fun _ => (Finds.check _).skip fun _ => .pure fun _ => trivial
  case some.func => exact .throw _
  case some.package => exact .throw _

theorem finds_declarators (type : ElementType) (fuel : Nat) :
    Finds (fun w items => ∀ s ∈ items, Simple.WellTyped w s) (declarators type fuel) := by
  induction fuel with
  | zero => exact .throw _
  | succ fuel ih =>
    refine (Finds.reading Compiler.gives_declarator ?_).bind fun out => (Finds.check _).skip fun _ => ?_
    · rintro w w' out hw ⟨ss, hss⟩
      exact ⟨ss, hss.weaken hw⟩
    refine (finds_declared _ type _ _).skip fun var => (Finds.taking _).skip fun more => ?_
    refine .ite (ih.bind fun rest => .pure ?_) (.pure ?_)
    · rintro w hrest ⟨ss, hss⟩
      exact List.forall_mem_cons.mpr ⟨.declare hss, hrest⟩
    · rintro w ⟨ss, hss⟩
      exact List.forall_mem_singleton.mpr (.declare hss)

theorem finds_declaration (type : ElementType) :
    Finds (fun w items => ∀ s ∈ items, Simple.WellTyped w s) (declaration type) :=
  Finds.get.skip fun _ => (finds_declarators type _).bind fun _ =>
    (Finds.taking _).skip fun _ => .pure fun _ h => h

theorem finds_condition : Finds Expr.IsCondition condition := by
  refine (Finds.taking _).skip fun column => (Finds.reading gives_expression ?_).bind fun t => ?_
  · exact fun hw ht => ht.weaken hw
  refine (Finds.check _).bind fun _ => (Finds.taking _).skip fun _ => .pure fun w htype ht => ?_
  refine ⟨t, ht, ?_, rfl⟩
  by_contra hne
  simp [hne] at htype

theorem numbers_of_countable (h : countable name column value = .ok u) :
    value.type.isNumeric = true ∧ value.owner.isWritable = true := by
  unfold countable at h
  cases hn : value.type.isNumeric with
  | false => rw [hn] at h; cases h
  | true =>
    cases hwritable : value.owner.isWritable with
    | true => exact ⟨rfl, rfl⟩
    | false => rw [hn, hwritable] at h; cases h

/-- The variable of a counted loop is tested, or it is a new one. -/
theorem finds_loopVariable (name : String) (column : Column) (bounds : List Typed) :
    Finds Workspace.Numbers (loopVariable name column bounds) := by
  refine (Finds.lookup name).skip fun entry => ?_
  obtain _ | handle | _ | _ := entry
  case none =>
    refine ⟨fun hx => ((Finds.create name _ .scalar).result hx).mono fun w h => ⟨_, h, ?_, rfl⟩⟩
    split <;> rfl
  case some.var =>
    refine (Finds.valueOf handle).bind fun cell => (Finds.check _).bind fun _ => .pure ?_
    exact fun w hcountable hcell => ⟨cell, hcell, numbers_of_countable hcountable⟩
  case some.func => exact .throw _
  case some.package => exact .throw _

theorem finds_counting :
    Finds (fun w out => Workspace.Numbers w out.1 ∧
      ∀ t ∈ out.2, Typed.WellTyped w t ∧ t.type.isNumeric) counting := by
  refine (Finds.reading Compiler.gives_loopHead ?_).bind fun out =>
    (finds_loopVariable _ _ _).bind fun var => .pure fun w hvar hbounds => ⟨hvar, hbounds⟩
  exact fun hw h t ht => ⟨(h t ht).1.weaken hw, (h t ht).2⟩

def Head.WellTyped (w : Workspace) : Head → Prop
  | .simple items => ∀ s ∈ items, s.WellTyped w
  | _ => True

theorem finds_keyword (word : Keyword) (column : Column) :
    Finds Head.WellTyped (keyword word column) := by
  have hend (h : Head) (hh : ∀ w, h.WellTyped w) : Finds Head.WellTyped (do endOfLine; return h) :=
    (Finds.taking _).skip fun _ => .pure hh
  cases word with
  | integer | float | string | logical => exact (finds_declaration _).bind fun _ => .pure fun _ h => h
  | «break» | «continue» | stop => exact hend _ fun _ => trivial
  | «then» => exact .throw _
  | «else» =>
    exact (Finds.taking _).skip fun _ => .ite (.pure fun _ => trivial) (.pure fun _ => trivial)
  | «end» => exact (Finds.taking _).skip fun _ => .pure fun _ => trivial
  | _ => exact .pure fun _ => trivial

theorem finds_head : Finds Head.WellTyped head := by
  refine (Finds.taking _).skip ?_
  rintro ⟨token, column⟩
  cases token with
  | finish => exact .pure fun _ => trivial
  | name text =>
    dsimp only
    split
    · exact finds_keyword _ column
    · refine Finds.get.skip fun r => ?_
      refine .ite ((finds_assignment text column).bind ?rest) ((finds_command text column).bind ?rest)
      exact fun s => (Finds.taking _).skip fun _ => .pure fun w h => List.forall_mem_singleton.mpr h
  | _ => exact .throw _

theorem finds_closing (word : Keyword) : Finds (fun _ _ => True) (closing word) :=
  .ite (.taking _) (.pure fun _ => trivial)

end Outline

/-! ### Statements -/

section Statements

open Outline

variable {maxName : Nat}

mutual

theorem Written.lasting {r r' : Reading} {lines : List String} {s : Statement}
    (h : Written maxName r lines s r') : Lasting (fun w => s.WellTyped w) r r' :=
  match h with
  | .nothing hhead => (finds_head.result hhead).mono fun _ _ => trivial
  | .simple hhead => finds_head.result hhead
  | .leap hhead => (finds_head.result hhead).mono fun _ _ => trivial
  | .stop hhead => (finds_head.result hhead).mono fun _ _ => trivial
  | .conditional hhead hchain => ((finds_head.result hhead).andThen hchain.lasting).mono fun _ h => h.2
  | .while hhead htest hend hbody =>
    ((finds_head.result hhead).andThen ((finds_condition.result htest).andThen
      (((Finds.taking _).result hend).andThen hbody.lasting))).mono fun _ h => ⟨h.2.1, h.2.2.2⟩
  | .repeat hhead hend hbody htest hend' =>
    ((finds_head.result hhead).andThen (((Finds.taking _).result hend).andThen
      (hbody.lasting.andThen ((finds_condition.result htest).andThen
        ((Finds.taking _).result hend'))))).mono fun _ h => ⟨h.2.2.1, h.2.2.2.1⟩
  | .count hhead hcounting hbody =>
    ((finds_head.result hhead).andThen ((finds_counting.result hcounting).andThen
      hbody.lasting)).mono fun _ h => ⟨h.2.1.1, h.2.1.2, h.2.2⟩

theorem Block.lasting {closers : List Keyword} {r r' : Reading} {lines : List String}
    {s : Statement} {word : Keyword} (h : Block maxName closers r lines s word r') :
    Lasting (fun w => s.WellTyped w) r r' :=
  match h with
  | .close hhead _ hclosing => by
    have hfound := (finds_head.result hhead).andThen ((finds_closing _).result hclosing)
    exact ⟨hfound.grows, fun _ _ _ => trivial⟩
  | .next hfirst hrest => by
    have hfound := hfirst.lasting.andThen hrest.lasting
    exact ⟨hfound.grows, hfound.holds⟩

theorem Chain.lasting {r r' : Reading} {lines : List String} {s : Statement}
    (h : Chain maxName r lines s r') : Lasting (fun w => s.WellTyped w) r r' :=
  match h with
  | .last htest hend hyes =>
    ((finds_condition.result htest).andThen (((Finds.taking _).result hend).andThen
      hyes.lasting)).mono fun _ h => ⟨h.1, h.2.2⟩
  | .otherwise htest hend hyes hno =>
    ((finds_condition.result htest).andThen (((Finds.taking _).result hend).andThen
      (hyes.lasting.andThen hno.lasting))).mono fun _ h => ⟨h.1, h.2.2⟩
  | .again htest hend hyes hno =>
    ((finds_condition.result htest).andThen (((Finds.taking _).result hend).andThen
      (hyes.lasting.andThen hno.lasting))).mono fun _ h => ⟨h.1, h.2.2⟩

end

end Statements

end ArrayCommand
