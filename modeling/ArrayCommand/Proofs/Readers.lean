/-
Everything that is read is well typed.

The readers of expressions check types while they read.  Here it is shown that they check enough: a
tree that is returned is the tree that the rules of types give for some expression, whatever the line
is.  The readers are followed one by one, with the reader of nested expressions as a parameter.

* `Parse.Gives` — whatever a reader returns is as promised;
* `Typed.WellTyped` — a tree that the rules of types give;
* `Parse.gives_operand`, `Parse.gives_call`, … — the readers of the parts of an expression;
* `Parse.gives_expression` — **every expression that is read is well typed.**
-/

import ArrayCommand.Proofs.Elaboration

namespace ArrayCommand

open Typed

variable {decl : ArgDecl} {id : Nat} {column : Column}

/-! ### Promises of readers -/

/-- Whatever a reader returns is as promised. -/
structure Parse.Gives {α : Type} (post : α → Prop) (x : Parse.Reader α) : Prop where
  result : ∀ {l l' : Lexer} {a : α}, x l = .ok a l' → post a

namespace Parse.Gives

variable {α β : Type} {post : α → Prop} {after : β → Prop}
variable {x : Reader α} {next : α → Reader β}

theorem pure {a : α} (h : post a) : Gives post (pure a) := ⟨fun hx => by cases hx; exact h⟩

theorem throw (fault : Fault) : Gives post (throw fault : Reader α) := ⟨fun hx => by cases hx⟩

theorem bind (h : Gives post x) (hnext : ∀ a, post a → Gives after (next a)) :
    Gives after (x >>= next) := by
  refine ⟨fun hrun => ?_⟩
  obtain ⟨a, l, hx, hrest⟩ := bind_eq_ok.mp hrun
  exact (hnext a (h.result hx)).result hrest

theorem skip (h : ∀ a, Gives after (next a)) : Gives after (x >>= next) := by
  have hx : Gives (fun _ => True) x := ⟨fun _ => trivial⟩
  exact hx.bind fun a _ => h a

theorem check {r : Except Fault α} (h : ∀ a, r = .ok a → Gives after (next a)) :
    Gives after (Parse.check r >>= next) := by
  cases r with
  | ok a => exact h a rfl
  | error fault => exact ⟨fun hx => by cases hx⟩

theorem checked {r : Except Fault α} (h : ∀ a, r = .ok a → post a) :
    Gives post (Parse.check r) := by
  cases r with
  | ok a => exact pure (h a rfl)
  | error fault => exact throw fault

theorem ite {c : Prop} [Decidable c] {y : Reader α} (hx : c → Gives post x)
    (hy : ¬ c → Gives post y) : Gives post (if c then x else y) := by
  split
  case isTrue h => exact hx h
  case isFalse h => exact hy h

end Parse.Gives

/-! ### Subscripts -/

/-- A tree that the rules of types give for some expression. -/
def Typed.WellTyped (w : Workspace) (t : Typed) : Prop := ∃ s, Term.Elaborates w s t

/-- A subscript that may stand in front of others. -/
def Subscript.Fits (w : Workspace) (a : Subscript) : Prop :=
  ∀ {ss : List Selector} {subscripts : List Subscript}, Selector.Elaborate w ss subscripts →
    ∃ s, Selector.Elaborate w (s :: ss) (a :: subscripts)

/-- An argument that may stand in front of others, where it is declared so. -/
def Argument.Fits (w : Workspace) (decl : ArgDecl) (a : Argument × ElementType) : Prop :=
  ∀ {f : Function} {index : Nat} {as : List Actual} {args : List (Argument × ElementType)},
    f.decl index = decl → f.admits index → Actual.Elaborate w f (index + 1) as args →
      ∃ a', Actual.Elaborate w f index (a' :: as) (a :: args)

namespace Parse

section Parts

variable {w : Workspace} {sub : Sub} (hsub : ∀ used least, Gives (WellTyped w) (sub used least))
variable {f : Function} {l : Typed}

include hsub

theorem gives_subscript : Gives (fun e => ∃ s, Term.IsInteger w s e) (subscriptWith sub) := by
  refine .skip fun column => (hsub 0 0).bind fun t ht => .check fun t' ht' => .pure ?_
  obtain ⟨s, hs⟩ := ht
  exact ⟨s, .intro hs ht'⟩

theorem gives_bound (stops : List Token) :
    Gives (fun e => ∃ o, Term.MayBeInteger w o e) (boundWith sub stops) := by
  refine .skip fun token => .ite (fun _ => .pure ⟨none, .none⟩) fun _ => ?_
  refine (gives_subscript hsub).bind fun e he => .pure ?_
  obtain ⟨s, hs⟩ := he
  exact ⟨some s, .some hs⟩

theorem gives_axis : Gives (Subscript.Fits w) (axisWith sub) := by
  refine (gives_bound hsub _).bind fun first hfirst => .skip fun token => ?_
  refine .ite (fun _ => ?_) fun _ => .skip fun _ => ?_
  · obtain ⟨_, hfirst⟩ := hfirst
    cases hfirst with
    | none => exact .pure fun hs => ⟨_, .all hs⟩
    | some h => exact .pure fun hs => ⟨_, .at h hs⟩
  · refine (gives_bound hsub _).bind fun last hlast => .skip fun token => ?_
    have hrange {step : Option Expr} (hstep : ∃ o, Term.MayBeInteger w o step) :
        Gives (Subscript.Fits w)
          (if first.isNone && last.isNone && step.isNone then return .all
          else return .range first last step) := by
      obtain ⟨_, hfirst⟩ := hfirst
      obtain ⟨_, hlast⟩ := hlast
      obtain ⟨_, hstep⟩ := hstep
      exact .ite (fun _ => .pure fun hs => ⟨_, .all hs⟩) fun _ =>
        .pure fun hs => ⟨_, .range hfirst hlast hstep hs⟩
    refine .ite (fun _ => .skip fun _ => ?_) fun _ => hrange ⟨_, .none⟩
    refine (gives_subscript hsub).bind fun e he => ?_
    obtain ⟨s, hs⟩ := he
    exact hrange ⟨_, .some hs⟩

theorem gives_subscripts (room : Nat) :
    Gives (fun subscripts => subscripts.length ≤ room ∧ ∃ ss, Selector.Elaborate w ss subscripts)
      (subscriptsWith sub room) := by
  induction room with
  | zero => exact .skip fun _ => .skip fun _ => .throw _
  | succ room ih =>
    refine (gives_axis hsub).bind fun a ha => .skip fun more => .ite (fun _ => ?_) fun _ => ?_
    · refine ih.bind fun subscripts h => .pure ?_
      obtain ⟨hlength, ss, hs⟩ := h
      obtain ⟨s, ha⟩ := ha hs
      exact ⟨Nat.succ_le_succ hlength, _, ha⟩
    · obtain ⟨s, ha⟩ := ha .nil
      exact .pure ⟨Nat.succ_le_succ (Nat.zero_le room), _, ha⟩

theorem gives_extents (fuel : Nat) :
    Gives (fun es => ∃ ss, Term.AreIntegers w ss es) (extentsWith sub fuel) := by
  induction fuel with
  | zero => exact .throw _
  | succ fuel ih =>
    refine (gives_subscript hsub).bind fun e he => .skip fun more => ?_
    obtain ⟨s, he⟩ := he
    refine .ite (fun _ => ih.bind fun es hes => .pure ?_) fun _ => .pure ⟨_, .cons he .nil⟩
    obtain ⟨ss, hes⟩ := hes
    exact ⟨_, .cons he hes⟩

/-! ### Arguments -/

theorem gives_valueArgument (hmode : decl.mode = .value) (column : Column) :
    Gives (Argument.Fits w decl) (valueArgument sub decl column) := by
  refine (hsub 0 0).bind fun t ht => .check fun t' ht' => .ite (fun _ => .throw _) fun _ => .pure ?_
  obtain ⟨s, hs⟩ := ht
  rintro f index as args rfl hadmits h
  exact ⟨_, .value hadmits hmode hs ht' h⟩

omit hsub in
theorem gives_referenceArgument (hmode : decl.mode = .reference)
    (column : Column) : Gives (Argument.Fits w decl) (referenceArgument w decl column) := by
  refine .skip fun token => ?_
  cases token with
  | name name =>
    refine .skip fun follow => .ite (fun _ => .throw _) fun _ => ?_
    split
    · exact .throw _
    · refine .check fun cell hcell => .ite (fun _ => .throw _) fun haccepts => .pure ?_
      rintro f index as args rfl hadmits h
      exact ⟨_, .reference hadmits hmode hcell (by simpa using haccepts) h⟩
    · exact .throw _
  | _ => exact .throw _

theorem gives_argument (decl : ArgDecl) :
    Gives (Argument.Fits w decl) (argumentWith w sub decl) := by
  refine .skip fun column => ?_
  cases hmode : decl.mode with
  | value => exact gives_valueArgument hsub hmode column
  | reference => exact gives_referenceArgument hmode column
  | name =>
    refine .skip fun token => ?_
    cases token with
    | name name =>
      refine .pure ?_
      rintro f index as args rfl hadmits h
      exact ⟨_, .name hadmits hmode h⟩
    | _ => exact .throw _

omit hsub in
theorem gives_room (f : Function) (count : Nat) : Gives (fun _ => f.admits count) (room f count) := by
  unfold room Function.admits
  cases f.maxArgs with
  | none => exact .pure rfl
  | some most =>
    refine .ite (fun _ => .skip fun _ => .throw _) fun h => .pure ?_
    simpa using h

theorem gives_onceArguments (f : Function) (fuel count : Nat) :
    Gives (fun args => ∃ as, Actual.Elaborate w f count as args)
      (onceArguments w sub f fuel count) := by
  induction fuel generalizing count with
  | zero => exact .throw _
  | succ fuel ih =>
    refine (gives_room f count).bind fun _ hadmits => ?_
    refine (gives_argument hsub _).bind fun a ha => .skip fun more => ?_
    refine .ite (fun _ => (ih (count + 1)).bind fun args hargs => .pure ?_) fun _ => .pure ?_
    · obtain ⟨as, hargs⟩ := hargs
      obtain ⟨a', ha⟩ := ha rfl hadmits hargs
      exact ⟨_, ha⟩
    · obtain ⟨a', ha⟩ := ha rfl hadmits (.nil f (count + 1))
      exact ⟨_, ha⟩

theorem gives_elementalArguments (f : Function) (fuel count used : Nat) :
    Gives (fun args => ∃ ss, Term.AreHanded w f count ss args)
      (elementalArguments sub f fuel count used) := by
  induction fuel generalizing count used with
  | zero => exact .throw _
  | succ fuel ih =>
    refine (gives_room f count).bind fun _ hadmits => .skip fun column => ?_
    refine .ite (fun _ => .throw _) fun hmode => (hsub used 0).bind fun t ht => ?_
    have hmode : (f.decl count).mode = .value := by simpa using hmode
    obtain ⟨s, hs⟩ := ht
    refine .check fun t' ht' => .skip fun more => ?_
    refine .ite (fun _ => (ih _ _).bind fun args hargs => .pure ?_) fun _ => .pure ?_
    · obtain ⟨ss, hargs⟩ := hargs
      exact ⟨_, .cons hadmits hmode hs ht' hargs⟩
    · exact ⟨_, .cons hadmits hmode hs ht' (.nil f (count + 1))⟩

/-! ### Operands -/

omit hsub in
theorem gives_elemental (hf : w.functions[id]? = some f) (hkind : f.kind = .elemental)
    {args : List Typed} (hargs : ∃ ss, Term.AreHanded w f 0 ss args) (column : Column) :
    Gives (Typed.WellTyped w) (do
      check (enough f args.length column)
      let type ← check (resultType f (args.map Typed.type) column)
      let rank := (args.map Typed.rank).foldl mergeRank (some 0)
      return ⟨.call id (args.map Typed.expr) type, type, rank⟩) := by
  obtain ⟨ss, hargs⟩ := hargs
  exact .check fun _ henough => .check fun type htype =>
    .pure ⟨_, .call hf hkind hargs henough htype⟩

omit hsub in
theorem gives_once (hf : w.functions[id]? = some f) (hkind : f.kind = .once)
    {args : List (Argument × ElementType)} (hargs : ∃ as, Actual.Elaborate w f 0 as args)
    (column : Column) :
    Gives (WellTyped w) (do
      check (enough f args.length column)
      let type ← check (resultType f (args.map Prod.snd) column)
      return ⟨.once id (args.map Prod.fst) type, type, f.rank.rank?⟩) := by
  obtain ⟨as, hargs⟩ := hargs
  exact .check fun _ henough => .check fun type htype =>
    .pure ⟨_, .once hf hkind hargs henough htype⟩

omit hsub in
theorem gives_parens {α : Type} {post : α → Prop} {parens : Bool}
    {next : Bool → Reader α} (h : ∀ empty, Gives post (next empty)) :
    Gives post (do
      if parens then
        let _ ← Lexer.next
      else if 0 < f.minArgs then
        throw (countFault f column " NEEDS ARGUMENTS")
      let empty ← if parens then closing else pure true
      next empty) := by
  cases parens with
  | true => exact .skip fun _ => .skip h
  | false =>
    exact .ite (fun h => by cases h) fun _ => .ite (fun _ => ⟨fun hx => by cases hx⟩) fun _ => h true

theorem gives_call (fuel used id : Nat) (column : Column) :
    Gives (Typed.WellTyped w) (callWith w sub fuel used id column) := by
  unfold callWith
  cases hf : w.functions[id]? with
  | none => exact .throw _
  | some f =>
    refine .skip fun token => gives_parens fun empty => ?_
    split
    case h_1 hkind =>
      refine .ite (fun _ => gives_elemental hf hkind ⟨_, .nil f 0⟩ column) fun _ => ?_
      exact (gives_elementalArguments hsub f fuel 0 used).bind fun args hargs =>
        gives_elemental hf hkind hargs column
    case h_2 hkind =>
      refine .ite (fun _ => gives_once hf hkind ⟨_, .nil f 0⟩ column) fun _ => ?_
      exact (gives_onceArguments hsub f fuel 0).bind fun args hargs =>
        gives_once hf hkind hargs column

theorem gives_operand (fuel : Nat) (var : Handle) :
    Gives (WellTyped w) (operandWith w sub fuel var) := by
  refine .check fun cell hcell => .skip fun token => ?_
  split
  · refine .skip fun _ => (gives_subscripts hsub maxRank).bind fun subscripts h => .pure ?_
    obtain ⟨hlength, ss, hs⟩ := h
    exact ⟨_, .slice hcell hs hlength⟩
  · have hcast {es : List Expr} (hes : ∃ ss, Term.AreIntegers w ss es) (column : Column) :
        Gives (WellTyped w) (do
          expect .rightBrace
          if maxRank < es.length then throw (.said .rankMismatch column "AT MOST 3 DIMENSIONS")
          return ⟨.cast var es, cell.type, some es.length⟩) := by
      obtain ⟨ss, hes⟩ := hes
      exact .skip fun _ => .ite (fun _ => .throw _) fun hrank =>
        .pure ⟨_, .cast hcell hes (Nat.le_of_not_lt hrank)⟩
    refine .skip fun column => .skip fun _ => .skip fun token => ?_
    refine .ite (fun _ => hcast ⟨_, .nil⟩ column) fun _ => ?_
    exact (gives_extents hsub fuel).bind fun es hes => hcast hes column
  · exact .pure ⟨_, .whole hcell⟩

theorem gives_name (fuel used : Nat) (name : String) (column : Column) :
    Gives (WellTyped w) (nameWith w sub fuel used name column) := by
  refine .ite (fun _ => .pure ⟨_, .literal _⟩) fun _ => ?_
  refine .ite (fun _ => .pure ⟨_, .literal _⟩) fun _ => ?_
  split
  · exact .throw _
  · exact gives_operand hsub fuel _
  · exact gives_call hsub fuel used _ column
  · exact .throw _

theorem gives_primary (fuel used : Nat) : Gives (WellTyped w) (primaryWith w sub fuel used) := by
  refine .skip fun first => ?_
  obtain ⟨token, column⟩ := first
  dsimp only
  split
  · exact .pure ⟨_, .literal _⟩
  · exact .pure ⟨_, .literal _⟩
  · exact .pure ⟨_, .literal _⟩
  · exact .pure ⟨_, .placeholder⟩
  · refine (hsub used 0).bind fun t ht => .skip fun token => ?_
    split
    · exact .pure ht
    · exact .throw _
  · exact gives_name hsub fuel used _ column
  · exact .throw _
  · exact .throw _

theorem gives_bracketed (fuel used : Nat) :
    Gives (WellTyped w) (bracketedWith w sub fuel used) := by
  refine (gives_primary hsub fuel used).bind fun t ht => .skip fun token => ?_
  refine .ite (fun _ => .pure ht) fun _ => .skip fun bracket => .ite (fun _ => .throw _) fun htype => ?_
  have htype : t.type = .text := by simpa using htype
  obtain ⟨s, hs⟩ := ht
  refine .skip fun column => (hsub _ 0).bind fun first hfirst => .check fun first' hfirst' => ?_
  obtain ⟨s₁, hs₁⟩ := hfirst
  have hpart {last : Option Expr} (hlast : ∃ o, Term.MayBeInteger w o last) :
      Gives (WellTyped w) (do
        expect .rightBracket
        return { t with expr := .substring t.expr first'.expr last }) := by
    obtain ⟨o, hlast⟩ := hlast
    exact .skip fun _ => .pure ⟨_, .part hs htype (.intro hs₁ hfirst') hlast⟩
  refine .skip fun token => .ite (fun _ => .skip fun _ => .skip fun column => ?_) fun _ =>
    hpart ⟨_, .none⟩
  refine (hsub _ 0).bind fun last hlast => .check fun last' hlast' => ?_
  obtain ⟨s₂, hs₂⟩ := hlast
  exact hpart ⟨_, .some (.intro hs₂ hlast')⟩

/-! ### Signs and operators -/

omit hsub in
theorem wellTyped_negated {t t' : Typed} {used : Nat} (ht : t.WellTyped w)
    (hn : t.type.isNumeric) (h : negated t used column = .ok t') : t'.WellTyped w := by
  obtain ⟨s, hs⟩ := ht
  unfold negated at h
  split at h
  case h_1 value hconst =>
    split at h
    case isTrue =>
      cases hvalue : value.negate with
      | ok value' =>
        rw [hvalue] at h
        cases h
        exact ⟨_, .folded hs hconst hvalue⟩
      | error fault =>
        rw [hvalue] at h
        cases h
    case isFalse =>
      cases h
      exact ⟨_, .minus hs hn⟩
  case h_2 =>
    cases h
    exact ⟨_, .minus hs hn⟩

theorem gives_unary (fuel used : Nat) : Gives (WellTyped w) (unaryWith w sub fuel used) := by
  refine .skip fun token => ?_
  split
  · refine .skip fun _ => (hsub used _).bind fun t ht => .ite (fun _ => .throw _) fun htype => .pure ?_
    obtain ⟨s, hs⟩ := ht
    exact ⟨_, .not hs (by simpa using htype)⟩
  · refine .skip fun _ => (hsub used _).bind fun t ht => .ite (fun _ => .throw _) fun htype => ?_
    exact .checked fun t' ht' => wellTyped_negated ht (by simpa using htype) ht'
  · refine .skip fun _ => (hsub used _).bind fun t ht => .ite (fun _ => .throw _) fun htype => .pure ?_
    obtain ⟨s, hs⟩ := ht
    exact ⟨_, .plus hs (by simpa using htype)⟩
  · exact gives_bracketed hsub fuel used

theorem gives_logical (used level : Nat) (op : Operator) {build : Expr → Expr → Expr}
    (hbuild : ∀ r : Typed, l.type = .logical → r.type = .logical → r.WellTyped w →
      WellTyped w ⟨build l.expr r.expr, .logical, mergeRank l.rank r.rank⟩)
    (column : Column) :
    Gives (WellTyped w) (logicalWith sub used level op build l column) := by
  refine .ite (fun _ => .throw _) fun hl => (hsub _ _).bind fun r hr => ?_
  refine .ite (fun _ => .throw _) fun htype => .pure ?_
  exact hbuild r (by simpa using hl) (by simpa using htype) hr

theorem gives_binary (used level : Nat) (op : Operator) (hl : l.WellTyped w) (column : Column) :
    Gives (WellTyped w) (binaryWith sub used level op l column) := by
  obtain ⟨sl, hsl⟩ := hl
  unfold binaryWith
  split
  · refine gives_logical hsub used level _ (fun r hl hr h => ?_) column
    obtain ⟨sr, hsr⟩ := h
    exact ⟨_, .and hsl hsr hl hr⟩
  · refine gives_logical hsub used level _ (fun r hl hr h => ?_) column
    obtain ⟨sr, hsr⟩ := h
    exact ⟨_, .or hsl hsr hl hr⟩
  · refine (hsub _ _).bind fun r hr => ?_
    obtain ⟨sr, hsr⟩ := hr
    cases BinaryOp.ofOperator? op with
    | none => exact .throw _
    | some binary =>
      dsimp only
      split
      · exact .throw _
      case h_2 operand result hsignature => exact .pure ⟨_, .binary hsl hsr hsignature⟩

theorem gives_operators (used least fuel : Nat) (hl : l.WellTyped w) :
    Gives (WellTyped w) (operatorsWith sub used least fuel l) := by
  induction fuel generalizing l with
  | zero => exact .throw _
  | succ fuel ih =>
    refine .skip fun token => ?_
    split
    case h_1 op =>
      cases precedence? op with
      | none => exact .pure hl
      | some level =>
        refine .ite (fun _ => .pure hl) fun _ => .skip fun behind => ?_
        exact (gives_binary hsub used level op hl _).bind fun l hl => ih hl
    case h_2 => exact .pure hl

end Parts

/-! ### Whole expressions -/

theorem gives_expr (w : Workspace) (fuel used least : Nat) :
    Gives (WellTyped w) (expr w fuel used least) := by
  induction fuel generalizing used least with
  | zero => exact .throw _
  | succ fuel ih =>
    exact (gives_unary ih (fuel + 1) used).bind fun l hl =>
      gives_operators ih used least (fuel + 1) hl

theorem gives_nested (w : Workspace) (used least : Nat) :
    Gives (WellTyped w) (nested w used least) :=
  .skip fun _ => gives_expr w _ used least

theorem gives_expression (w : Workspace) : Gives (WellTyped w) (expression w) := gives_nested w 0 0

end Parse

end ArrayCommand
