/-
Expressions as they are written, read and evaluated.

A well-typed expression may be written in many ways: with more parentheses than the ladder of
operators asks for, with shortened names, with or without the parentheses of a call that has no
arguments.  All of them are accepted, and the nodes that they emit compute the value of the
expression.

* `Term.WellTyped` — the rules of types of the language;
* `Term.Writes` — the ways to write an expression;
* `Term.Writes.reads` — every way to write a well-typed expression is read as a tree of it;
* `Term.emitted_computes` — **the nodes of an expression compute its value.**
-/

import ArrayCommand.Proofs.Elaboration
import ArrayCommand.Proofs.Evaluation
import ArrayCommand.Proofs.Precedence

namespace ArrayCommand

open List Term Parse BinaryOp

variable {t : Typed} {decl : ArgDecl} {f : Function} {count used fuel index func : Nat}
  {w : Workspace} {ts ts' rest after stops : List Token} {r : Nat → Except Cause Typed}
  {o first last : Option Expr} {s : Subscript} {ss : List Subscript} {es : List Expr}
  {args : List Typed} {name : String} {var : Handle} {cell : Cell} {a : Argument × ElementType}
  {preferred : Bool} {type : ElementType} {allowed : Fault → Prop} {l : Term} {op : Operator}

/-! ### Ranks -/

mutual

/-- The rank of an expression where it is known before it is evaluated. -/
def Term.rank? (w : Workspace) : Term → Option Nat
  | .literal _ => some 0
  | .placeholder => none
  | .whole var _ => (w.memory.value var).toOption.map Cell.rank
  | .cast _ _ extents => some extents.length
  | .slice _ _ selectors => some (selectors.filter fun s => s.axis != .at).length
  | .once func _ => w.functions[func]?.bind fun f => f.rank.rank?
  | .call _ args => Term.ranks w (some 0) args
  | .part text _ _ => text.rank? w
  | .plus e => e.rank? w
  | .minus e => e.rank? w
  | .not e => e.rank? w
  | .binary _ l r => Parse.mergeRank (l.rank? w) (r.rank? w)
  | .and l r => Parse.mergeRank (l.rank? w) (r.rank? w)
  | .or l r => Parse.mergeRank (l.rank? w) (r.rank? w)

/-- The greatest rank of several expressions, and of what is known already. -/
def Term.ranks (w : Workspace) (known : Option Nat) : List Term → Option Nat
  | [] => known
  | e :: es => Term.ranks w (Parse.mergeRank known (e.rank? w)) es

end

/-! ### Types -/

def Workspace.Declares (w : Workspace) (var : Handle) (type : ElementType) : Prop :=
  ∃ cell, w.memory.value var = .ok cell ∧ cell.type = type

/-- Whether a value of a type may be handed over; a number may become one of the other type. -/
def ArgDecl.takes (decl : ArgDecl) (type : ElementType) : Bool :=
  match decl.type with
  | .float => type.isNumeric
  | .integer => type.isNumeric
  | .numeric => type.isNumeric
  | .text => type == .text
  | .literal => type == .text
  | .logical => type == .logical
  | .any => true

/-- A function that returns a value if it is called with some number of arguments. -/
def Function.Yields (f : Function) (count : Nat) : Prop :=
  f.minArgs ≤ count ∧
    match f.returns with
    | .nothing => False
    | .fixed _ => True
    | .sameAs index => index < count

mutual

def Term.WellTyped (w : Workspace) : Term → Prop
  | .literal _ => True
  | .placeholder => True
  | .whole var type => w.Declares var type
  | .cast var type extents =>
    w.Declares var type ∧ extents.length ≤ maxRank ∧ Term.AllNumbers w extents
  | .slice var type selectors =>
    w.Declares var type ∧ selectors.length ≤ maxRank ∧ Selector.AllNumbers w selectors
  | .once func args =>
    ∃ f, w.functions[func]? = some f ∧ f.kind = .once ∧ f.Yields args.length ∧
      Actual.Fit w f 0 args
  | .call func args =>
    ∃ f, w.functions[func]? = some f ∧ f.kind = .elemental ∧ f.Yields args.length ∧
      Term.Fit w f 0 args
  | .part text first last =>
    text.WellTyped w ∧ text.type w = .text ∧ (first.WellTyped w ∧ (first.type w).isNumeric) ∧
      Term.MayBeNumber w last
  | .plus e => e.WellTyped w ∧ (e.type w).isNumeric
  | .minus e => e.WellTyped w ∧ (e.type w).isNumeric
  | .not e => e.WellTyped w ∧ e.type w = .logical
  | .binary op l r =>
    l.WellTyped w ∧ r.WellTyped w ∧
      ((BinaryOp.meet? (l.type w) (r.type w)).bind op.result?).isSome
  | .and l r => (l.WellTyped w ∧ l.type w = .logical) ∧ r.WellTyped w ∧ r.type w = .logical
  | .or l r => (l.WellTyped w ∧ l.type w = .logical) ∧ r.WellTyped w ∧ r.type w = .logical

def Term.MayBeNumber (w : Workspace) : Option Term → Prop
  | none => True
  | some e => e.WellTyped w ∧ (e.type w).isNumeric

def Term.AllNumbers (w : Workspace) : List Term → Prop
  | [] => True
  | e :: es => (e.WellTyped w ∧ (e.type w).isNumeric) ∧ Term.AllNumbers w es

def Selector.AllNumbers (w : Workspace) : List Selector → Prop
  | [] => True
  | .all :: ss => Selector.AllNumbers w ss
  | .at e :: ss => (e.WellTyped w ∧ (e.type w).isNumeric) ∧ Selector.AllNumbers w ss
  | .range first last step :: ss =>
    (Term.MayBeNumber w first ∧ Term.MayBeNumber w last ∧ Term.MayBeNumber w step) ∧
      Selector.AllNumbers w ss

/-- Arguments that a function called for every element takes, from one on. -/
def Term.Fit (w : Workspace) (f : Function) : (index : Nat) → List Term → Prop
  | _, [] => True
  | index, e :: es =>
    (f.admits index ∧ (f.decl index).mode = .value ∧ e.WellTyped w ∧
      (f.decl index).takes (e.type w)) ∧ Term.Fit w f (index + 1) es

/-- Arguments that a function called once takes, from one on.  What is known to be an array is no
single value. -/
def Actual.Fit (w : Workspace) (f : Function) : (index : Nat) → List Actual → Prop
  | _, [] => True
  | index, .value e :: as =>
    (f.admits index ∧ (f.decl index).mode = .value ∧ e.WellTyped w ∧
      (f.decl index).takes (e.type w) ∧
      ((f.decl index).rank = .scalar → ∀ rank, e.rank? w = some rank → rank = 0)) ∧
      Actual.Fit w f (index + 1) as
  | index, .reference var type :: as =>
    (f.admits index ∧ (f.decl index).mode = .reference ∧ w.Declares var type ∧
      (f.decl index).type.accepts type) ∧ Actual.Fit w f (index + 1) as
  | index, .name _ :: as =>
    (f.admits index ∧ (f.decl index).mode = .name) ∧ Actual.Fit w f (index + 1) as

end

/-! ### Ways to write an expression -/

/-- What a name stands for in an expression.  The truth values cannot be taken by other things. -/
structure Workspace.Names (w : Workspace) (name : String) (entry : Entry) : Prop where
  notTrue : Text.sameFolded name "true" = false
  notFalse : Text.sameFolded name "false" = false
  lookup : ∃ full, w.names.lookup name = .ok (full, entry)

mutual

/-- The ways to write an expression.  Without parentheses around it, its operator must have at least
the level `least`, and none of the operators that may stand behind it up to the level `bound` may
take its right end away. -/
inductive Term.Writes (w : Workspace) : (least bound : Nat) → Term → List Token → Prop
  | atom {least bound : Nat} {s : Term} {ts : List Token} :
      Term.Atom w s ts → Term.Writes w least bound s ts
  | character {least bound : Nat} {text first : Term} {ts ts' : List Token} :
      Term.Atom w text ts → Term.Writes w 0 0 first ts' →
      Term.Writes w least bound (.part text first none)
        (ts ++ .leftBracket :: (ts' ++ [.rightBracket]))
  | part {least bound : Nat} {text first last : Term} {ts ts' ts'' : List Token} :
      Term.Atom w text ts → Term.Writes w 0 0 first ts' → Term.Writes w 0 0 last ts'' →
      Term.Writes w least bound (.part text first (some last))
        (ts ++ .leftBracket :: (ts' ++ .colon :: (ts'' ++ [.rightBracket])))
  | plus {least bound : Nat} {e : Term} {ts : List Token} : bound ≤ Sign.level →
      Term.Writes w Sign.level bound e ts →
      Term.Writes w least bound (.plus e) (.operator .plus :: ts)
  | minus {least bound : Nat} {e : Term} {ts : List Token} : bound ≤ Sign.level →
      Term.Writes w Sign.level bound e ts →
      Term.Writes w least bound (.minus e) (.operator .minus :: ts)
  | not {least bound : Nat} {e : Term} {ts : List Token} : bound ≤ Sign.level →
      Term.Writes w Sign.level bound e ts →
      Term.Writes w least bound (.not e) (.operator .not :: ts)
  | binary {least bound : Nat} {op : Operator} {binary : BinaryOp} {l r : Term}
      {ts ts' : List Token} : BinaryOp.ofOperator? op = some binary → least ≤ op.level →
      bound ≤ op.level → Term.Writes w op.left op.left l ts →
      Term.Writes w op.right bound r ts' →
      Term.Writes w least bound (.binary binary l r) (ts ++ .operator op :: ts')
  | and {least bound : Nat} {l r : Term} {ts ts' : List Token} : least ≤ Operator.and.level →
      bound ≤ Operator.and.level → Term.Writes w Operator.and.left Operator.and.left l ts →
      Term.Writes w Operator.and.right bound r ts' →
      Term.Writes w least bound (.and l r) (ts ++ .operator .and :: ts')
  | or {least bound : Nat} {l r : Term} {ts ts' : List Token} : least ≤ Operator.or.level →
      bound ≤ Operator.or.level → Term.Writes w Operator.or.left Operator.or.left l ts →
      Term.Writes w Operator.or.right bound r ts' →
      Term.Writes w least bound (.or l r) (ts ++ .operator .or :: ts')

/-- The ways to write constants, variables and calls, and expressions in parentheses. -/
inductive Term.Atom (w : Workspace) : Term → List Token → Prop
  | integer {n : Int} : 0 ≤ n → FitsInteger n → Term.Atom w (.literal (.integer n)) [.integer n]
  | float (x : Float) : Term.Atom w (.literal (.float x)) [.float x]
  | text (s : String) : Term.Atom w (.literal (.text s)) [.text s]
  | true {name : String} : Text.sameFolded name "true" →
      Term.Atom w (.literal (.logical true)) [.name name]
  | false {name : String} : Text.sameFolded name "true" = false →
      Text.sameFolded name "false" → Term.Atom w (.literal (.logical false)) [.name name]
  | placeholder : Term.Atom w .placeholder [.placeholder]
  | parens {s : Term} {ts : List Token} : Term.Writes w 0 0 s ts → Term.Atom w s (enclosed ts)
  | whole {name : String} {var : Handle} {type : ElementType} : w.Names name (.var var) →
      Term.Atom w (.whole var type) [.name name]
  | cast {name : String} {var : Handle} {type : ElementType} {extents : List Term}
      {ts : List Token} : w.Names name (.var var) → Term.Listed w extents ts →
      Term.Atom w (.cast var type extents) (.name name :: .leftBrace :: (ts ++ [.rightBrace]))
  | slice {name : String} {var : Handle} {type : ElementType} {selectors : List Selector}
      {ts : List Token} : w.Names name (.var var) → Selector.Listed w selectors ts →
      Term.Atom w (.slice var type selectors) (.name name :: enclosed ts)
  | call {name : String} {func : Nat} {preferred : Bool} {args : List Term} {ts : List Token} :
      w.Names name (.func func preferred) → Term.Listed w args ts →
      Term.Atom w (.call func args) (.name name :: enclosed ts)
  | once {name : String} {func : Nat} {preferred : Bool} {args : List Actual} {ts : List Token} :
      w.Names name (.func func preferred) → Actual.Listed w args ts →
      Term.Atom w (.once func args) (.name name :: enclosed ts)
  | callEmpty {name : String} {func : Nat} {preferred : Bool} {ts : List Token} :
      w.Names name (.func func preferred) → ts = [] ∨ ts = enclosed [] →
      Term.Atom w (.call func []) (.name name :: ts)
  | onceEmpty {name : String} {func : Nat} {preferred : Bool} {ts : List Token} :
      w.Names name (.func func preferred) → ts = [] ∨ ts = enclosed [] →
      Term.Atom w (.once func []) (.name name :: ts)

/-- Expressions with commas between them. -/
inductive Term.Listed (w : Workspace) : List Term → List Token → Prop
  | one {s : Term} {ts : List Token} : Term.Writes w 0 0 s ts → Term.Listed w [s] ts
  | more {s : Term} {ss : List Term} {ts ts' : List Token} : Term.Writes w 0 0 s ts →
      Term.Listed w ss ts' → Term.Listed w (s :: ss) (ts ++ .comma :: ts')

/-- A bound of a range, which may be missing. -/
inductive Term.Bound (w : Workspace) : Option Term → List Token → Prop
  | none : Term.Bound w none []
  | some {s : Term} {ts : List Token} : Term.Writes w 0 0 s ts → Term.Bound w (some s) ts

/-- The ways to write a subscript. -/
inductive Selector.Writes (w : Workspace) : Selector → List Token → Prop
  | all : Selector.Writes w .all [.colon]
  | at {s : Term} {ts : List Token} : Term.Writes w 0 0 s ts → Selector.Writes w (.at s) ts
  | range {first last : Option Term} {ts ts' : List Token} : Term.Bound w first ts →
      Term.Bound w last ts' → first.isSome ∨ last.isSome →
      Selector.Writes w (.range first last none) (ts ++ .colon :: ts')
  | stepped {first last : Option Term} {step : Term} {ts ts' ts'' : List Token} :
      Term.Bound w first ts → Term.Bound w last ts' → Term.Writes w 0 0 step ts'' →
      Selector.Writes w (.range first last (some step)) (ts ++ .colon :: (ts' ++ .colon :: ts''))

/-- Subscripts with commas between them. -/
inductive Selector.Listed (w : Workspace) : List Selector → List Token → Prop
  | one {s : Selector} {ts : List Token} : Selector.Writes w s ts → Selector.Listed w [s] ts
  | more {s : Selector} {ss : List Selector} {ts ts' : List Token} : Selector.Writes w s ts →
      Selector.Listed w ss ts' → Selector.Listed w (s :: ss) (ts ++ .comma :: ts')

/-- The ways to write an argument of a call made once. -/
inductive Actual.Writes (w : Workspace) : Actual → List Token → Prop
  | value {s : Term} {ts : List Token} : Term.Writes w 0 0 s ts → Actual.Writes w (.value s) ts
  | reference {name full : String} {var : Handle} {type : ElementType} :
      w.names.lookup name = .ok (full, .var var) →
      Actual.Writes w (.reference var type) [.name name]
  | name (text : String) : Actual.Writes w (.name text) [.name text]

/-- Arguments with commas between them. -/
inductive Actual.Listed (w : Workspace) : List Actual → List Token → Prop
  | one {a : Actual} {ts : List Token} : Actual.Writes w a ts → Actual.Listed w [a] ts
  | more {a : Actual} {as : List Actual} {ts ts' : List Token} : Actual.Writes w a ts →
      Actual.Listed w as ts' → Actual.Listed w (a :: as) (ts ++ .comma :: ts')

end

/-! ### Conversions -/

namespace Parse

def converted (t : Typed) (want : ElementType) : Typed :=
  if t.type = want then t else { t with expr := .coerce want t.expr, type := want }

theorem rank_converted (t : Typed) (want : ElementType) : (converted t want).rank = t.rank := by
  rw [converted]
  split <;> rfl

theorem convert_eq {want : ElementType} (h : t.type = want ∨ t.type.isNumeric ∧ want.isNumeric)
    (column : Column) : convert t want column = .ok (converted t want) := by
  rw [convert, converted]
  by_cases htype : t.type = want
  · rw [if_pos htype, if_pos htype]
  · obtain ⟨hn, hwant⟩ := h.resolve_left htype
    rw [if_neg htype, if_neg htype, if_pos (by rw [hn, hwant]; rfl)]

theorem accept_eq (h : decl.takes t.type) (column : Column) :
    accept t decl column = .ok (converted t (decl.target t.type)) := by
  unfold ArgDecl.takes at h
  unfold accept ArgDecl.target
  cases hdecl : decl.type with
  | any => exact congrArg Except.ok (if_pos rfl).symm
  | numeric =>
    rw [hdecl] at h
    exact (if_pos h).trans (congrArg Except.ok (if_pos rfl).symm)
  | float | integer =>
    rw [hdecl] at h
    exact convert_eq (.inr ⟨h, rfl⟩) column
  | text | literal | logical =>
    rw [hdecl] at h
    exact convert_eq (.inl (by simpa using h)) column

theorem resultType_eq {types : List ElementType} (h : f.Yields types.length) :
    ∃ type, ∀ column, resultType f types column = .ok type := by
  have hreturns := h.2
  unfold resultType
  cases hf : f.returns with
  | nothing =>
    rw [hf] at hreturns
    exact hreturns.elim
  | fixed type => exact ⟨type, fun _ => rfl⟩
  | sameAs index =>
    rw [hf] at hreturns
    refine ⟨types.get ⟨index, hreturns⟩, fun column => ?_⟩
    simp only [getElem?_eq_getElem hreturns]
    rfl

theorem enough_eq (h : f.Yields count) (column : Column) :
    enough f count column = .ok () := if_neg (Nat.not_lt.2 h.1)

/-! ### Readers of parts -/

section Parts

variable {α : Type} {ts'' later : List Token} {token : Token}
  {e : Expr}

theorem Reads.column {f : Column → Reader α} {s : Except Cause α}
    (h : Phrase ts) (hf : ∀ column, Reads (ts ++ rest) after (f column) s) :
    Reads (ts ++ rest) after (Lexer.peekColumn >>= f) s := by
  obtain ⟨first, tail, rfl, -⟩ := h.opens
  exact .peekColumn hf

theorem Reads.ok {result : Except Fault α} {a : α} (h : result = .ok a) :
    Reads ts ts (Parse.check result) (.ok a) := by
  subst h
  exact .check _

/-- Tokens that a reader takes up to one of some tokens. -/
structure Spells (w : Workspace) (ts stops : List Token) (read : Sub → Reader α) (a : α) :
    Prop where
  inside : ∀ token ∈ ts, token.isFinish = false
  reads : ∀ {fuel : Nat} {token : Token} {later : List Token}, ts.length ≤ fuel →
    token ∈ stops → Reads (ts ++ token :: later) (token :: later) (read (expr w fuel)) (.ok a)

/-- Tokens that a reader of lists takes, with the parenthesis behind them. -/
structure Closed (w : Workspace) (ts : List Token) (read : Sub → Nat → Reader α) (a : α) :
    Prop where
  inside : ∀ token ∈ ts, token.isFinish = false
  reads : ∀ {fuel count : Nat} {later : List Token}, ts.length ≤ fuel → ts.length ≤ count →
    Reads (ts ++ .rightParen :: later) later (read (expr w fuel) count) (.ok a)

theorem reads_next (h : token = .comma ∨ token = .rightParen) :
    Reads (token :: later) later continues (.ok (token == .comma)) := by
  refine .nextAt fun _ => ?_
  obtain rfl | rfl := h
  · exact .pure true
  · exact .pure false

theorem reads_comma : Reads (.comma :: later) later comma (.ok true) :=
  .seq .peek (.seq .next (.pure true))

theorem reads_noComma (h : token ≠ .comma) :
    Reads (token :: later) (token :: later) comma (.ok false) := by
  refine .seq .peek ?_
  rw [Token.beq_eq_false h (by simp)]
  exact .pure false

theorem reads_closing : Reads (.rightParen :: later) later closing (.ok true) :=
  .seq .peek (.seq .next (.pure true))

theorem reads_noClosing (h : Phrase ts) : Reads (ts ++ rest) (ts ++ rest) closing (.ok false) := by
  obtain ⟨first, tail, rfl, hfirst⟩ := h.opens
  refine .seq .peek ?_
  have hne : first ≠ .rightParen := by
    rintro rfl
    cases hfirst
  rw [Token.beq_eq_false hne (by simp)]
  exact .pure false

theorem reads_room (h : f.admits count) : Reads ts ts (room f count) (.ok ()) := by
  unfold room
  unfold Function.admits at h
  cases hmost : f.maxArgs with
  | none => exact .pure ()
  | some most =>
    rw [hmost] at h
    dsimp only at h ⊢
    rw [if_neg (by simpa using h)]
    exact .pure ()

theorem Readable.reads_ok (h : Readable w 0 0 ts r) (hr : r used = .ok t)
    (hfuel : ts.length ≤ fuel) (htoken : token ∈ marks) :
    Reads (ts ++ token :: later) (token :: later) (expr w fuel used 0) (.ok t) :=
  hr ▸ h.upTo hfuel htoken

theorem Readable.subscript (h : Readable w 0 0 ts r) (hr : r 0 = .ok t) (hn : t.type.isNumeric) :
    Spells w ts marks subscriptWith (converted t .integer).expr :=
  ⟨h.inside, fun hfuel htoken => .column h.toPhrase fun column =>
    .seq (h.reads_ok hr hfuel htoken) (.seq (.ok (convert_eq (.inr ⟨hn, rfl⟩) column)) (.pure _))⟩

/-! ### Subscripts -/

def SpellsBound (w : Workspace) (ts : List Token) : Option Expr → Prop
  | none => ts = []
  | some e => Phrase ts ∧ Spells w ts marks subscriptWith e

theorem SpellsBound.inside (h : SpellsBound w ts o) : ∀ token ∈ ts, token.isFinish = false := by
  cases o with
  | none =>
    cases h
    simp
  | some e => exact h.2.inside

/-- The tokens in front of which a bound may be missing. -/
def boundStops : List (List Token) := [[.colon], [.colon, .comma, .rightParen]]

theorem contains_opens (hstops : stops ∈ boundStops)
    (h : opens token = true) : stops.contains token = false := by
  simp only [boundStops, mem_cons, not_mem_nil, or_false] at hstops
  cases token <;> first | (cases h; done) | (obtain rfl | rfl := hstops <;> rfl)

theorem reads_bound (h : SpellsBound w ts o)
    (hstops : stops ∈ boundStops) (htoken : token ∈ stops) (hfuel : ts.length ≤ fuel) :
    Reads (ts ++ token :: later) (token :: later) (boundWith (expr w fuel) stops) (.ok o) := by
  cases o with
  | none =>
    cases h
    have hcontains : stops.contains token = true := by
      simp only [boundStops, mem_cons, not_mem_nil, or_false] at hstops
      obtain rfl | rfl := hstops <;> simp only [mem_cons, not_mem_nil, or_false] at htoken
      · subst htoken
        rfl
      · obtain rfl | rfl | rfl := htoken <;> rfl
    refine .seq .peek ?_
    rw [hcontains]
    exact .pure none
  | some e =>
    have hmark : token ∈ marks := by
      simp only [boundStops, mem_cons, not_mem_nil, or_false] at hstops
      obtain rfl | rfl := hstops <;> simp only [mem_cons, not_mem_nil, or_false] at htoken
      · subst htoken
        simp [marks]
      · obtain rfl | rfl | rfl := htoken <;> simp [marks]
    have hreads : Reads (ts ++ token :: later) (token :: later) (subscriptWith (expr w fuel))
        (.ok e) := h.2.reads hfuel hmark
    obtain ⟨first, tail, rfl, hfirst⟩ := h.1.opens
    refine .seq .peek ?_
    rw [contains_opens hstops hfirst]
    exact .seq hreads (.pure (some e))

abbrev SpellsAxis (w : Workspace) (ts : List Token) (s : Subscript) : Prop :=
  Spells w ts [.comma, .rightParen] axisWith s

theorem spellsAxis_at (hphrase : Phrase ts) (h : Spells w ts marks subscriptWith e) :
    SpellsAxis w ts (.at e) := by
  refine ⟨h.inside, fun {fuel token later} hfuel htoken => ?_⟩
  have hmark : token ∈ marks ∧ token ≠ .colon := by
    simp only [mem_cons, not_mem_nil, or_false] at htoken
    obtain rfl | rfl := htoken <;> simp [marks]
  have hreads : Reads (ts ++ token :: later) (token :: later) (subscriptWith (expr w fuel))
      (.ok e) := h.reads hfuel hmark.1
  have hbound : Reads (ts ++ token :: later) (token :: later) (boundWith (expr w fuel) [.colon])
      (.ok (some e)) := by
    obtain ⟨first, tail, rfl, hfirst⟩ := hphrase.opens
    refine .seq .peek ?_
    rw [contains_opens (by simp [boundStops]) hfirst]
    exact .seq hreads (.pure (some e))
  refine .seq hbound (.seq .peek ?_)
  rw [bne, Token.beq_eq_false hmark.2 (by simp)]
  exact .pure _

/-- The subscript of a range; without any bound it is all of the axis. -/
def rangeOf (first last step : Option Expr) : Subscript :=
  if first.isNone && last.isNone && step.isNone then .all else .range first last step

theorem spellsAxis_range (hfirst : SpellsBound w ts first) (hlast : SpellsBound w ts' last) :
    SpellsAxis w (ts ++ .colon :: ts') (rangeOf first last none) := by
  refine ⟨forall_mem_append.2 ⟨hfirst.inside, forall_mem_cons.2 ⟨rfl, hlast.inside⟩⟩,
    fun {fuel token later} hfuel htoken => ?_⟩
  rw [length_append, length_cons] at hfuel
  rw [append_assoc, cons_append]
  refine .seq (reads_bound hfirst (by simp [boundStops]) (by simp) (by omega)) (.seq .peek ?_)
  refine .seq .next (.seq (reads_bound hlast (by simp [boundStops]) ?_ (by omega)) (.seq .peek ?_))
  · exact mem_cons_of_mem _ htoken
  · have hcolon : token ≠ .colon := by
      rintro rfl
      simp at htoken
    rw [Token.beq_eq_false hcolon (by simp)]
    refine .seq (.pure none) ?_
    rw [rangeOf]
    dsimp only
    split
    · exact .pure _
    · exact .pure _

theorem spellsAxis_stepped {step : Expr} (hfirst : SpellsBound w ts first)
    (hlast : SpellsBound w ts' last) (hstep : Spells w ts'' marks subscriptWith step) :
    SpellsAxis w (ts ++ .colon :: (ts' ++ .colon :: ts'')) (.range first last (some step)) := by
  refine ⟨forall_mem_append.2 ⟨hfirst.inside, forall_mem_cons.2 ⟨rfl,
    forall_mem_append.2 ⟨hlast.inside, forall_mem_cons.2 ⟨rfl, hstep.inside⟩⟩⟩⟩,
    fun {fuel token later} hfuel htoken => ?_⟩
  rw [length_append, length_cons, length_append, length_cons] at hfuel
  rw [append_assoc, cons_append, append_assoc, cons_append]
  have hmark : token ∈ marks := by
    simp only [mem_cons, not_mem_nil, or_false] at htoken
    obtain rfl | rfl := htoken <;> simp [marks]
  refine .seq (reads_bound hfirst (by simp [boundStops]) (by simp) (by omega)) (.seq .peek ?_)
  refine .seq .next (.seq (reads_bound hlast (by simp [boundStops]) (by simp) (by omega))
    (.seq .peek ?_))
  have hreads : Reads (ts'' ++ token :: later) (token :: later) (subscriptWith (expr w fuel))
      (.ok step) := hstep.reads (by omega) hmark
  refine .seq .next (.seq hreads (.seq (.pure (some step)) ?_))
  simp only [Option.isNone_some, Bool.and_false, Bool.false_eq_true, if_false]
  exact .pure _

/-- Tokens that are read as the subscripts of a section. -/
abbrev SpellsAxes (w : Workspace) (room : Nat) (ts : List Token) (ss : List Subscript) : Prop :=
  Closed w ts (fun sub _ => subscriptsWith sub room) ss

theorem spellsAxes_one {room : Nat} (h : SpellsAxis w ts s) : SpellsAxes w (room + 1) ts [s] :=
  ⟨h.inside, fun hfuel _ => .seq (h.reads hfuel (by simp)) (.seq (reads_next (.inr rfl)) (.pure _))⟩

theorem spellsAxes_more {room : Nat} (h : SpellsAxis w ts s)
    (hs : SpellsAxes w room ts' ss) : SpellsAxes w (room + 1) (ts ++ .comma :: ts') (s :: ss) := by
  refine ⟨forall_mem_append.2 ⟨h.inside, forall_mem_cons.2 ⟨rfl, hs.inside⟩⟩,
    fun {fuel count later} hfuel hcount => ?_⟩
  rw [length_append, length_cons] at hfuel hcount
  rw [append_assoc, cons_append]
  have hrest : Reads (ts' ++ .rightParen :: later) later (subscriptsWith (expr w fuel) room)
      (.ok ss) := hs.reads (by omega) (Nat.le_refl _)
  exact .seq (h.reads (by omega) (by simp)) (.seq (reads_next (.inl rfl)) (.seq hrest (.pure _)))

/-- Tokens that are read as extents. -/
structure SpellsExtents (w : Workspace) (ts : List Token) (es : List Expr) : Prop extends
    Phrase ts where
  reads : ∀ {fuel count : Nat} {later : List Token}, ts.length ≤ fuel → ts.length ≤ count →
    Reads (ts ++ .rightBrace :: later) (.rightBrace :: later) (extentsWith (expr w fuel) count)
      (.ok es)

theorem spellsExtents_one (hphrase : Phrase ts) (h : Spells w ts marks subscriptWith e) :
    SpellsExtents w ts [e] := by
  refine ⟨hphrase, fun {fuel count later} hfuel hcount => ?_⟩
  have hpos := hphrase.length_pos
  obtain _ | count := count
  · omega
  exact .seq (h.reads hfuel (by simp [marks])) (.seq (reads_noComma (by simp)) (.pure _))

theorem spellsExtents_more (hphrase : Phrase ts) (h : Spells w ts marks subscriptWith e)
    (hs : SpellsExtents w ts' es) : SpellsExtents w (ts ++ .comma :: ts') (e :: es) := by
  refine ⟨hphrase.append (forall_mem_cons.2 ⟨rfl, hs.inside⟩),
    fun {fuel count later} hfuel hcount => ?_⟩
  rw [length_append, length_cons] at hfuel hcount
  obtain _ | count := count
  · omega
  rw [append_assoc, cons_append]
  have hrest : Reads (ts' ++ .rightBrace :: later) (.rightBrace :: later)
      (extentsWith (expr w fuel) count) (.ok es) := hs.reads (by omega) (by omega)
  exact .seq (h.reads (by omega) (by simp [marks])) (.seq reads_comma (.seq hrest (.pure _)))

/-! ### Arguments -/

section Arguments

/-- Tokens that are read as arguments of a function called for every element, from one on. -/
abbrev SpellsHanded (w : Workspace) (f : Function) (index used : Nat) (ts : List Token)
    (args : List Typed) : Prop :=
  Closed w ts (fun sub count => elementalArguments sub f count index used) args

theorem reads_handed (h : Readable w 0 0 ts r) (hr : r used = .ok t) (hadmits : f.admits index)
    (hmode : (f.decl index).mode = .value) (htakes : (f.decl index).takes t.type)
    (htoken : token = .comma ∨ token = .rightParen) (hfuel : ts.length ≤ fuel)
    (hrest : Reads rest after
      (if token == .comma then do
        return converted t ((f.decl index).target t.type) ::
          (← elementalArguments (expr w fuel) f count (index + 1)
            (used + (converted t ((f.decl index).target t.type)).expr.slots))
      else return [converted t ((f.decl index).target t.type)]) (.ok args)) :
    Reads (ts ++ token :: rest) after (elementalArguments (expr w fuel) f (count + 1) index used)
      (.ok args) := by
  refine .seq (reads_room hadmits) (.column h.toPhrase fun column => ?_)
  rw [hmode]
  have hmark : token ∈ marks := by
    obtain rfl | rfl := htoken <;> simp [marks]
  refine .seq (h.reads_ok hr hfuel hmark) (.seq (.ok (accept_eq htakes column)) ?_)
  refine .seq (reads_next htoken) ?_
  obtain rfl | rfl := htoken
  · exact hrest
  · exact hrest

theorem spellsHanded_one (h : Readable w 0 0 ts r) (hr : r used = .ok t) (hadmits : f.admits index)
    (hmode : (f.decl index).mode = .value) (htakes : (f.decl index).takes t.type) :
    SpellsHanded w f index used ts [converted t ((f.decl index).target t.type)] := by
  refine ⟨h.inside, fun {fuel count later} hfuel hcount => ?_⟩
  have hpos := h.length_pos
  obtain _ | count := count
  · omega
  exact reads_handed h hr hadmits hmode htakes (.inr rfl) hfuel (.pure _)

theorem spellsHanded_more (h : Readable w 0 0 ts r) (hr : r used = .ok t)
    (hadmits : f.admits index) (hmode : (f.decl index).mode = .value)
    (htakes : (f.decl index).takes t.type)
    (hs : SpellsHanded w f (index + 1)
      (used + (converted t ((f.decl index).target t.type)).expr.slots) ts' args) :
    SpellsHanded w f index used (ts ++ .comma :: ts')
      (converted t ((f.decl index).target t.type) :: args) := by
  refine ⟨forall_mem_append.2 ⟨h.inside, forall_mem_cons.2 ⟨rfl, hs.inside⟩⟩,
    fun {fuel count later} hfuel hcount => ?_⟩
  rw [length_append, length_cons] at hfuel hcount
  obtain _ | count := count
  · omega
  rw [append_assoc, cons_append]
  exact reads_handed h hr hadmits hmode htakes (.inl rfl) (by omega)
    (.seq (hs.reads (by omega) (by omega)) (.pure _))

/-- Tokens that are read as an argument of a function called once. -/
abbrev SpellsActual (w : Workspace) (decl : ArgDecl) (ts : List Token)
    (a : Argument × ElementType) : Prop :=
  Spells w ts [.comma, .rightParen] (fun sub => argumentWith w sub decl) a

theorem spellsActual_value (h : Readable w 0 0 ts r) (hr : r 0 = .ok t) (hmode : decl.mode = .value)
    (htakes : decl.takes t.type)
    (hrank : decl.rank = .scalar → ∀ rank, t.rank = some rank → rank = 0) :
    SpellsActual w decl ts (.value (converted t (decl.target t.type)).expr
      (converted t (decl.target t.type)).type, (converted t (decl.target t.type)).type) := by
  refine ⟨h.inside, fun {fuel token later} hfuel htoken => .column h.toPhrase fun column => ?_⟩
  have hmark : token ∈ marks := by
    simp only [mem_cons, not_mem_nil, or_false] at htoken
    obtain rfl | rfl := htoken <;> simp [marks]
  rw [hmode]
  refine .seq (h.reads_ok hr hfuel hmark) (.seq (.ok (accept_eq htakes column)) ?_)
  rw [rank_converted]
  cases hdecl : decl.rank with
  | scalar =>
    cases ht : t.rank with
    | none => exact .pure _
    | some rank =>
      cases hrank hdecl rank ht
      exact .pure _
  | _ => exact .pure _

theorem spellsActual_reference {full : String}
    (hmode : decl.mode = .reference) (hname : w.names.lookup name = .ok (full, .var var))
    (hvalue : w.memory.value var = .ok cell) (haccepts : decl.type.accepts cell.type) :
    SpellsActual w decl [.name name] (.reference var cell.type, cell.type) := by
  refine ⟨by simp [Token.isFinish], fun {fuel token later} hfuel htoken => .peekColumn fun column => ?_⟩
  rw [hmode]
  refine .seq .next (.seq .peek ?_)
  have hfollow : ([.comma, .rightParen, .finish] : List Token).contains token = true := by
    simp only [mem_cons, not_mem_nil, or_false] at htoken
    obtain rfl | rfl := htoken <;> rfl
  rw [hfollow, hname]
  refine .seq (.ok hvalue) ?_
  rw [haccepts]
  exact .pure _

theorem spellsActual_name (text : String) (hmode : decl.mode = .name) :
    SpellsActual w decl [.name text] (.name text, .text) := by
  refine ⟨by simp [Token.isFinish], fun {fuel token later} hfuel htoken => .peekColumn fun column => ?_⟩
  rw [hmode]
  exact .seq .next (.pure _)

/-- Tokens that are read as arguments of a function called once, from one on. -/
abbrev SpellsActuals (w : Workspace) (f : Function) (index : Nat) (ts : List Token)
    (args : List (Argument × ElementType)) : Prop :=
  Closed w ts (fun sub count => onceArguments w sub f count index) args

theorem spellsActuals_one (hpos : 0 < ts.length) (h : SpellsActual w (f.decl index) ts a)
    (hadmits : f.admits index) : SpellsActuals w f index ts [a] := by
  refine ⟨h.inside, fun {fuel count later} hfuel hcount => ?_⟩
  obtain _ | count := count
  · omega
  exact .seq (reads_room hadmits)
    (.seq (h.reads hfuel (by simp)) (.seq (reads_next (.inr rfl)) (.pure _)))

theorem spellsActuals_more {args : List (Argument × ElementType)}
    (h : SpellsActual w (f.decl index) ts a) (hadmits : f.admits index)
    (hs : SpellsActuals w f (index + 1) ts' args) :
    SpellsActuals w f index (ts ++ .comma :: ts') (a :: args) := by
  refine ⟨forall_mem_append.2 ⟨h.inside, forall_mem_cons.2 ⟨rfl, hs.inside⟩⟩,
    fun {fuel count later} hfuel hcount => ?_⟩
  rw [length_append, length_cons] at hfuel hcount
  obtain _ | count := count
  · omega
  rw [append_assoc, cons_append]
  exact .seq (reads_room hadmits) (.seq (h.reads (by omega) (by simp))
    (.seq (reads_next (.inl rfl)) (.seq (hs.reads (by omega) (by omega)) (.pure _))))

end Arguments

/-! ### Names and what belongs to them -/

section Named

variable {sub : Sub} {column : Column}

theorem nameWith_var (h : w.Names name (.var var)) :
    nameWith w sub fuel used name column = operandWith w sub fuel var := by
  obtain ⟨full, hlookup⟩ := h.lookup
  simp only [nameWith, h.notTrue, h.notFalse, hlookup, Bool.false_eq_true, if_false]

theorem nameWith_func (h : w.Names name (.func func preferred)) :
    nameWith w sub fuel used name column = callWith w sub fuel used func column := by
  obtain ⟨full, hlookup⟩ := h.lookup
  simp only [nameWith, h.notTrue, h.notFalse, hlookup, Bool.false_eq_true, if_false]

theorem atomic_named (hts : ∀ token ∈ ts, token.isFinish = false)
    (h : ∀ {fuel used : Nat} {token : Token} {later : List Token} (column : Column),
      ts.length ≤ fuel → token ≠ .leftParen → token ≠ .leftBrace →
        Reads (ts ++ token :: later) (token :: later)
          (nameWith w (expr w fuel) (fuel + 1) used name column) (r used)) :
    Atomic w (.name name :: ts) r := by
  refine ⟨.cons rfl hts, by simp, fun {fuel used token later} hfuel hparen hbrace => ?_⟩
  rw [length_cons] at hfuel
  exact .nextAt fun column => h column (by omega) hparen hbrace

theorem reads_expect {want : Token} (h : (want == want) = true) :
    Reads (want :: later) later (expect want) (.ok ()) := by
  refine .nextAt fun column => ?_
  dsimp only
  rw [h]
  exact .pure ()

theorem atomic_whole (hname : w.Names name (.var var)) (hvalue : w.memory.value var = .ok cell) :
    Atomic w [.name name] fun _ => .ok ⟨.whole var, cell.type, some cell.rank⟩ := by
  refine atomic_named (by simp) fun column _ hparen hbrace => ?_
  have hwhole : variableWhole w var = .ok ⟨.whole var, cell.type, some cell.rank⟩ := by
    rw [variableWhole, hvalue]
    rfl
  rw [nameWith_var hname, ← hwhole]
  exact reads_variable hparen hbrace

theorem atomic_cast (hname : w.Names name (.var var)) (hvalue : w.memory.value var = .ok cell)
    (h : SpellsExtents w ts es) (hrank : es.length ≤ maxRank) :
    Atomic w (.name name :: .leftBrace :: (ts ++ [.rightBrace])) fun _ =>
      .ok ⟨.cast var es, cell.type, some es.length⟩ := by
  refine atomic_named (forall_mem_cons.2 ⟨rfl, forall_mem_append.2 ⟨h.inside, by
    simp [Token.isFinish]⟩⟩) fun {fuel used token later} column hfuel hparen hbrace => ?_
  simp only [length_cons, length_append, length_nil] at hfuel
  rw [nameWith_var hname, cons_append, append_assoc, singleton_append]
  refine .seq (.ok hvalue) (.seq .peek (.peekColumn fun column => .seq .next ?_))
  have hreads : Reads (ts ++ .rightBrace :: token :: later) (.rightBrace :: token :: later)
      (extentsWith (expr w fuel) (fuel + 1)) (.ok es) := h.reads (by omega) (by omega)
  obtain ⟨first, tail, rfl, hfirst⟩ := h.opens
  have hne : first ≠ .rightBrace := by
    rintro rfl
    cases hfirst
  refine .seq .peek ?_
  rw [Token.beq_eq_false hne (by simp)]
  refine .seq hreads (.seq (reads_expect rfl) ?_)
  rw [if_neg (by omega)]
  exact .pure _

theorem atomic_slice (hname : w.Names name (.var var))
    (hvalue : w.memory.value var = .ok cell) (h : SpellsAxes w maxRank ts ss) :
    Atomic w (.name name :: enclosed ts) fun _ =>
      .ok ⟨.slice var ss, cell.type, some (ss.filter fun s => s.axis != .at).length⟩ := by
  refine atomic_named (forall_mem_cons.2 ⟨rfl, forall_mem_append.2 ⟨h.inside, by
    simp [Token.isFinish]⟩⟩) fun {fuel used token later} column hfuel hparen hbrace => ?_
  simp only [enclosed, length_cons, length_append, length_nil] at hfuel
  rw [nameWith_var hname, enclosed, cons_append, append_assoc, singleton_append]
  have hreads : Reads (ts ++ .rightParen :: token :: later) (token :: later)
      (subscriptsWith (expr w fuel) maxRank) (.ok ss) := h.reads (by omega) (Nat.le_refl _)
  exact .seq (.ok hvalue) (.seq .peek (.seq .next (.seq hreads (.pure _))))

theorem atomic_call {args : Nat → List Typed} {type : Nat → ElementType}
    (hname : w.Names name (.func func preferred)) (hf : w.functions[func]? = some f)
    (hkind : f.kind = .elemental) (hphrase : Phrase ts)
    (h : ∀ used, SpellsHanded w f 0 used ts (args used))
    (hyields : ∀ used, f.Yields (args used).length)
    (htype : ∀ used column, resultType f ((args used).map Typed.type) column = .ok (type used)) :
    Atomic w (.name name :: enclosed ts) fun used =>
      .ok ⟨.call func ((args used).map Typed.expr) (type used), type used,
        ((args used).map Typed.rank).foldl mergeRank (some 0)⟩ := by
  refine atomic_named hphrase.parens.inside fun {fuel used token later} column hfuel _ _ => ?_
  simp only [enclosed, length_cons, length_append, length_nil] at hfuel
  rw [nameWith_func hname, enclosed, cons_append, append_assoc, singleton_append, callWith, hf]
  have hreads : Reads (ts ++ .rightParen :: token :: later) (token :: later)
      (elementalArguments (expr w fuel) f (fuel + 1) 0 used) (.ok (args used)) :=
    (h used).reads (by omega) (by omega)
  refine .seq .peek (.seq .next (.seq (reads_noClosing hphrase) ?_))
  rw [hkind]
  exact .seq hreads (.seq (.ok (enough_eq (hyields used) column))
    (.seq (.ok (htype used column)) (.pure _)))

theorem atomic_once {args : List (Argument × ElementType)}
    (hname : w.Names name (.func func preferred)) (hf : w.functions[func]? = some f)
    (hkind : f.kind = .once) (hphrase : Phrase ts) (h : SpellsActuals w f 0 ts args)
    (hyields : f.Yields args.length)
    (htype : ∀ column, resultType f (args.map Prod.snd) column = .ok type) :
    Atomic w (.name name :: enclosed ts) fun _ =>
      .ok ⟨.once func (args.map Prod.fst) type, type, f.rank.rank?⟩ := by
  refine atomic_named hphrase.parens.inside fun {fuel used token later} column hfuel _ _ => ?_
  simp only [enclosed, length_cons, length_append, length_nil] at hfuel
  rw [nameWith_func hname, enclosed, cons_append, append_assoc, singleton_append, callWith, hf]
  have hreads : Reads (ts ++ .rightParen :: token :: later) (token :: later)
      (onceArguments w (expr w fuel) f (fuel + 1) 0) (.ok args) := h.reads (by omega) (by omega)
  refine .seq .peek (.seq .next (.seq (reads_noClosing hphrase) ?_))
  rw [hkind]
  exact .seq hreads (.seq (.ok (enough_eq hyields column)) (.seq (.ok (htype column)) (.pure _)))

def bareCall (func : Nat) (f : Function) (type : ElementType) : Typed :=
  match f.kind with
  | .elemental => ⟨.call func [] type, type, some 0⟩
  | .once => ⟨.once func [] type, type, f.rank.rank?⟩

theorem atomic_empty (hname : w.Names name (.func func preferred))
    (hf : w.functions[func]? = some f) (hyields : f.Yields 0)
    (htype : ∀ column, resultType f [] column = .ok type) (hts : ts = [] ∨ ts = enclosed []) :
    Atomic w (.name name :: ts) fun _ => .ok (bareCall func f type) := by
  have hinside : ∀ token ∈ ts, token.isFinish = false := by
    obtain rfl | rfl := hts <;> simp [enclosed, Token.isFinish]
  refine atomic_named hinside fun {fuel used token later} column hfuel hparen _ => ?_
  rw [nameWith_func hname]
  have hfew : f.minArgs = 0 := Nat.le_zero.1 hyields.1
  obtain rfl | rfl := hts
  · have hbare : calledBare w func = .ok (bareCall func f type) := by
      rw [calledBare, hf]
      dsimp only
      rw [if_neg (by omega), htype]
      rfl
    rw [← hbare]
    exact reads_called column hparen
  · rw [callWith, hf, bareCall]
    refine .seq .peek (.seq .next (.seq reads_closing ?_))
    cases f.kind with
    | elemental | once =>
      exact .seq (.pure []) (.seq (.ok (enough_eq hyields column))
        (.seq (.ok (htype column)) (.pure _)))

end Named

/-! ### Parts of texts -/

def partOf (t first : Typed) (last : Option Typed) : Typed :=
  { t with
    expr := .substring t.expr (converted first .integer).expr
      (last.map fun t => (converted t .integer).expr) }

def lastTokens : Option (List Token × (Nat → Typed)) → List Token
  | none => []
  | some (ts, _) => .colon :: ts

theorem primary_part {g g' : Nat → Typed} {last : Option (List Token × (Nat → Typed))}
    (h : Atomic w ts fun used => .ok (g used)) (hg : ∀ used, (g used).type = .text)
    (hfirst : Readable w 0 0 ts' fun used => .ok (g' used))
    (hg' : ∀ used, (g' used).type.isNumeric)
    (hlast : ∀ ts'' g'', last = some (ts'', g'') →
      (Readable w 0 0 ts'' fun used => .ok (g'' used)) ∧ ∀ used, (g'' used).type.isNumeric) :
    Primary w (ts ++ .leftBracket :: (ts' ++ (lastTokens last ++ [.rightBracket]))) fun used =>
      .ok (partOf (g used) (g' (used + (g used).expr.slots)) (last.map fun p =>
        p.2 (used + (g used).expr.slots +
          (converted (g' (used + (g used).expr.slots)) .integer).expr.slots))) := by
  have hinside : ∀ token ∈ lastTokens last, token.isFinish = false := by
    cases last with
    | none => simp [lastTokens]
    | some p => exact forall_mem_cons.2 ⟨rfl, (hlast p.1 p.2 rfl).1.inside⟩
  refine ⟨h.append ?_, ?_, fun {fuel used bound rest} hfuel hbehind => ?_⟩
  · exact forall_mem_cons.2 ⟨rfl, forall_mem_append.2 ⟨hfirst.inside,
      forall_mem_append.2 ⟨hinside, by simp [Token.isFinish]⟩⟩⟩
  · intro op later hop
    obtain ⟨token, tail, rfl, -⟩ := h.opens
    exact h.unsigned op tail (by cases hop; rfl)
  simp only [length_cons, length_append, length_nil] at hfuel
  simp only [append_assoc, cons_append, nil_append]
  refine .seq (h.reads (by omega) (by simp) (by simp)) (.seq .peek (.nextAt fun column => ?_))
  dsimp only
  rw [if_neg (by simp [hg used])]
  refine .column hfirst.toPhrase fun column => ?_
  cases last with
  | none =>
    refine .seq (hfirst.upTo (by omega) (by simp [marks])) ?_
    refine .seq (.ok (convert_eq (.inr ⟨hg' _, rfl⟩) column)) (.seq .peek ?_)
    exact .seq (.pure none) (.seq (reads_expect rfl) (.pure _))
  | some p =>
    obtain ⟨hreads, hnumber⟩ := hlast p.1 p.2 rfl
    simp only [lastTokens, length_cons] at hfuel
    refine .seq (hfirst.upTo (by omega) (by simp [marks])) ?_
    refine .seq (.ok (convert_eq (.inr ⟨hg' _, rfl⟩) column)) (.seq .peek (.seq .next ?_))
    refine .column hreads.toPhrase fun column => ?_
    refine .seq (hreads.upTo (by omega) (by simp [marks])) ?_
    refine .seq (.ok (convert_eq (.inr ⟨hnumber _, rfl⟩) column)) ?_
    exact .seq (.pure (some _)) (.seq (reads_expect rfl) (.pure _))

end Parts

end Parse

/-! ### Ranks and constants of trees -/

section Trees

variable {tl tr : Typed} {s r : Term}

theorem Parse.rank_accept {t' : Typed} {column : Column}
    (h : accept t decl column = .ok t') : t'.rank = t.rank := by
  have hconvert (want : ElementType) (h : convert t want column = .ok t') : t'.rank = t.rank := by
    unfold convert at h
    split at h
    · cases h
      rfl
    · split at h
      · cases h
        rfl
      · cases h
  unfold accept at h
  split at h
  case h_7 =>
    split at h
    · cases h
      rfl
    · cases h
  case h_6 =>
    cases h
    rfl
  all_goals exact hconvert _ h

theorem SelectorsRealized.kept {ss : List Selector} {subscripts : List Subscript}
    (h : SelectorsRealized allowed w ss subscripts) :
    (subscripts.filter fun s => s.axis != .at).length =
      (ss.filter fun s => s.axis != .at).length := by
  have hlength : ((subscripts.map Subscript.axis).filter (· != .at)).length =
      ((ss.map Selector.axis).filter (· != .at)).length := by rw [h.axes]
  rw [filter_map, length_map, filter_map, length_map] at hlength
  exact hlength

mutual

theorem Term.Elaborates.rank_eq (env : Trusted allowed w w) {s : Term} {t : Typed} :
    Elaborates w s t → t.rank = s.rank? w
  | .literal value => by rw [rank?]; rfl
  | .placeholder => by rw [rank?]
  | .whole h => by
      rw [rank?, h]
      rfl
  | .cast _ hs _ => by
      rw [rank?]
      exact congrArg some (hs.realized env).length
  | .slice _ hs _ => by
      rw [rank?]
      exact congrArg some (hs.realized env).kept
  | .once hf _ _ _ _ => by
      rw [rank?, hf]
      rfl
  | .call _ _ hargs _ _ => by
      rw [rank?]
      exact hargs.ranks_eq env (some 0)
  | .part htext _ _ _ => by
      rw [rank?]
      exact htext.rank_eq env
  | .plus h _ => by
      rw [rank?]
      exact h.rank_eq env
  | .minus h _ => by
      rw [rank?]
      exact h.rank_eq env
  | .folded h _ _ => by
      rw [rank?]
      exact h.rank_eq env
  | .not h _ => by
      rw [rank?]
      exact h.rank_eq env
  | .binary hl hr _ => by rw [rank?, hl.rank_eq env, hr.rank_eq env]
  | .and hl hr _ _ => by rw [rank?, hl.rank_eq env, hr.rank_eq env]
  | .or hl hr _ _ => by rw [rank?, hl.rank_eq env, hr.rank_eq env]

theorem Term.AreHanded.ranks_eq (env : Trusted allowed w w) {f : Function} {index : Nat}
    {ss : List Term} {ts : List Typed} : AreHanded w f index ss ts → ∀ known,
      (ts.map Typed.rank).foldl mergeRank known = ranks w known ss
  | .nil _ _ => fun _ => by
      rw [ranks]
      rfl
  | .cons _ _ h haccept hs => fun known => by
      rw [ranks, map_cons, foldl_cons, rank_accept haccept, h.rank_eq env]
      exact hs.ranks_eq env _

end

/-- A constant tree is of the type of the constant, and an integer can be negated again and
again. -/
def Typed.Mild (t : Typed) : Prop :=
  ∀ value, t.expr = .const value → value.type = t.type ∧
    ∀ n, value = .integer n → FitsInteger n ∧ FitsInteger (-n)

/-- A tree that the reader makes of an expression. -/
structure Term.Gives (w : Workspace) (s : Term) (t : Typed) : Prop where
  elaborates : Term.Elaborates w s t
  mild : t.Mild

theorem Term.Gives.type_eq (env : Trusted allowed w w) (h : s.Gives w t) :
    t.type = s.type w := (h.elaborates.realizes env).type.symm

theorem Term.Gives.minus (h : s.Gives w t) (hn : t.type.isNumeric) (used : Nat) :
    ∃ t', signedBy .minus used t = .ok t' ∧ (Term.minus s).Gives w t' := by
  have hplain : (Term.minus s).Gives w { t with expr := .neg t.type t.expr } :=
    ⟨.minus h.elaborates hn, fun _ hvalue => by cases hvalue⟩
  rw [signedBy, if_pos hn, negated]
  split
  case h_2 => exact ⟨_, rfl, hplain⟩
  case h_1 value hconst =>
    by_cases hused : used = 0
    · rw [if_pos hused]
      obtain ⟨htype, hfits⟩ := h.mild value hconst
      cases value with
      | text _ | logical _ => rw [← htype] at hn; cases hn
      | float x =>
        refine ⟨_, rfl, .folded h.elaborates hconst rfl, ?_⟩
        rintro _ ⟨⟩
        exact ⟨htype, fun _ h => by cases h⟩
      | integer n =>
        have hfit := hfits n rfl
        have hnegate : (Scalar.integer n).negate = .ok (.integer (-n)) := by
          rw [Scalar.negate, Integer.fit, if_pos hfit.2]
          rfl
        rw [hnegate]
        refine ⟨_, rfl, .folded h.elaborates hconst hnegate, ?_⟩
        rintro _ ⟨⟩
        refine ⟨htype, ?_⟩
        rintro _ ⟨⟩
        rw [Int.neg_neg]
        exact hfit.symm
    · rw [if_neg hused]
      exact ⟨_, rfl, hplain⟩

theorem Term.Gives.plus (h : s.Gives w t) (hn : t.type.isNumeric) (used : Nat) :
    ∃ t', signedBy .plus used t = .ok t' ∧ (plus s).Gives w t' :=
  ⟨t, if_pos hn, .plus h.elaborates hn, h.mild⟩

theorem Term.Gives.not (h : s.Gives w t) (htype : t.type = .logical) (used : Nat) :
    ∃ t', signedBy .not used t = .ok t' ∧ (not s).Gives w t' :=
  ⟨_, if_pos htype, .not h.elaborates htype, fun _ hvalue => by cases hvalue⟩

theorem BinaryOp.signature_eq {op : BinaryOp} {l r : ElementType}
    (h : ((meet? l r).bind op.result?).isSome) :
    ∃ signature, op.signature l r = .ok signature := by
  obtain ⟨result, hresult⟩ := Option.isSome_iff_exists.1 h
  obtain ⟨operand, hmeet, hresult⟩ := Option.bind_eq_some_iff.1 hresult
  refine ⟨⟨operand, result⟩, ?_⟩
  simp [signature, hmeet, hresult]

theorem Term.Gives.and (hl : l.Gives w tl) (hr : r.Gives w tr) (htl : tl.type = .logical)
    (htr : tr.type = .logical) :
    leftFits .and tl = .ok () ∧ ∃ t, joined .and tl tr = .ok t ∧ (and l r).Gives w t := by
  refine ⟨if_pos htl, _, ?_, .and hl.elaborates hr.elaborates htl htr, fun _ h => by cases h⟩
  rw [joined, connected, truthValue, if_pos htr]
  rfl

theorem Term.Gives.or (hl : l.Gives w tl) (hr : r.Gives w tr) (htl : tl.type = .logical)
    (htr : tr.type = .logical) :
    leftFits .or tl = .ok () ∧ ∃ t, joined .or tl tr = .ok t ∧ (or l r).Gives w t := by
  refine ⟨if_pos htl, _, ?_, .or hl.elaborates hr.elaborates htl htr, fun _ h => by cases h⟩
  rw [joined, connected, truthValue, if_pos htr]
  rfl

theorem Term.Gives.binary {binary : BinaryOp}
    (hop : ofOperator? op = some binary) (hl : l.Gives w tl) (hr : r.Gives w tr)
    (h : ((meet? tl.type tr.type).bind binary.result?).isSome) :
    ∃ t, joined op tl tr = .ok t ∧ (Term.binary binary l r).Gives w t := by
  obtain ⟨signature, hsignature⟩ := signature_eq h
  refine ⟨_, ?_, .binary hl.elaborates hr.elaborates hsignature, fun _ hvalue => by cases hvalue⟩
  have hjoined : joined op tl tr = operated binary tl tr := by
    cases op <;> cases hop <;> rfl
  rw [hjoined, operated, hsignature]

end Trees

/-! ### Reading -/

theorem BinaryOp.ne_not_of_ofOperator {binary : BinaryOp}
    (h : ofOperator? op = some binary) : op ≠ .not := by
  rintro rfl
  cases h

theorem Parse.leftFits_of_ofOperator {binary : BinaryOp}
    (h : ofOperator? op = some binary) (t : Typed) : leftFits op t = .ok () := by
  cases op <;> first | rfl | cases h

namespace Parse

variable {least bound : Nat}
  {s s' : Term}

/-- Tokens that are read as trees of an expression. -/
def Tells (w : Workspace) (least bound : Nat) (ts : List Token) (s : Term) : Prop :=
  ∃ g : Nat → Typed, (Readable w least bound ts fun used => .ok (g used)) ∧ ∀ used, s.Gives w (g used)

theorem Readable.tells (h : Readable w least bound ts r)
    (hr : ∀ used, ∃ t, r used = .ok t ∧ s.Gives w t) : Tells w least bound ts s := by
  obtain ⟨g, hg⟩ := Classical.axiomOfChoice hr
  obtain rfl : r = fun used => .ok (g used) := funext fun used => (hg used).1
  exact ⟨g, h, fun used => (hg used).2⟩

theorem Tells.signed {sign : Sign} (h : Tells w Sign.level bound ts s) (hbound : bound ≤ Sign.level)
    (hsign : ∀ t used, s.Gives w t → ∃ t', signedBy sign used t = .ok t' ∧ s'.Gives w t') :
    Tells w least bound (.operator sign.operator :: ts) s' := by
  obtain ⟨g, hreads, hg⟩ := h
  exact (hreads.signed sign hbound).tells fun used => hsign (g used) used (hg used)

theorem Tells.joined {r : Term} (hop : op ≠ .not) (hleast : least ≤ op.level)
    (hbound : bound ≤ op.level) (hl : Tells w op.left op.left ts l)
    (hr : Tells w op.right bound ts' r)
    (hjoined : ∀ tl tr, l.Gives w tl → r.Gives w tr → leftFits op tl = .ok () ∧
      ∃ t, Parse.joined op tl tr = .ok t ∧ s.Gives w t) :
    Tells w least bound (ts ++ .operator op :: ts') s := by
  obtain ⟨g, hreads, hg⟩ := hl
  obtain ⟨g', hreads', hg'⟩ := hr
  refine (hreads.joined hop hleast hbound hreads').tells fun used => ?_
  obtain ⟨hfits, t, ht, hgives⟩ :=
    hjoined (g used) (g' (used + (g used).expr.slots)) (hg used) (hg' _)
  refine ⟨t, ?_, hgives⟩
  have hboth : bothSides op (fun used => .ok (g used)) (fun used => .ok (g' used)) used =
      (leftFits op (g used) >>= fun _ =>
        Parse.joined op (g used) (g' (used + (g used).expr.slots))) := rfl
  rw [hboth, hfits, ← ht]
  rfl

/-- Tokens that are read as trees of an expression to which nothing else belongs. -/
def TellsAtom (w : Workspace) (ts : List Token) (s : Term) : Prop :=
  ∃ g : Nat → Typed, (Atomic w ts fun used => .ok (g used)) ∧ ∀ used, s.Gives w (g used)

theorem tellsAtom_constant (a : Leaf) {value : Scalar} (ha : a.typed w = .ok (constant value))
    (hvalue : ∀ n, value = .integer n → FitsInteger n ∧ FitsInteger (-n)) :
    TellsAtom w [a.token] (.literal value) := by
  have hreads := Atomic.leaf w a
  rw [ha] at hreads
  refine ⟨fun _ => constant value, hreads, fun _ => ⟨.literal value, ?_⟩⟩
  rintro _ ⟨⟩
  exact ⟨rfl, hvalue⟩

theorem Tells.number (env : Trusted allowed w w) (h : Tells w 0 0 ts s)
    (hn : (s.type w).isNumeric) :
    Phrase ts ∧ ∃ e, Spells w ts marks subscriptWith e ∧ IsInteger w s e := by
  obtain ⟨g, hreads, hg⟩ := h
  have hn : (g 0).type.isNumeric := (hg 0).type_eq env ▸ hn
  exact ⟨hreads.toPhrase, _, hreads.subscript rfl hn,
    .intro (hg 0).elaborates (convert_eq (.inr ⟨hn, rfl⟩) .unset)⟩

theorem tellsAtom_call {args : List Term} (hname : w.Names name (.func func preferred))
    (hf : w.functions[func]? = some f) (hkind : f.kind = .elemental)
    (hyields : f.Yields args.length) (hphrase : Phrase ts)
    (hargs : ∀ used, ∃ args', args'.length = args.length ∧ AreHanded w f 0 args args' ∧
      SpellsHanded w f 0 used ts args') :
    TellsAtom w (.name name :: enclosed ts) (.call func args) := by
  have htypes : ∀ used, ∃ p : List Typed × ElementType, f.Yields p.1.length ∧
      AreHanded w f 0 args p.1 ∧ SpellsHanded w f 0 used ts p.1 ∧
      ∀ column, resultType f (p.1.map Typed.type) column = .ok p.2 := by
    intro used
    obtain ⟨args', hlength, hhanded, hreads⟩ := hargs used
    rw [← hlength] at hyields
    have hcount : f.Yields (args'.map Typed.type).length := by
      rw [length_map]
      exact hyields
    obtain ⟨type, htype⟩ := resultType_eq hcount
    exact ⟨(args', type), hyields, hhanded, hreads, htype⟩
  obtain ⟨p, hp⟩ := Classical.axiomOfChoice htypes
  refine ⟨_, atomic_call hname hf hkind hphrase (fun used => (hp used).2.2.1)
    (fun used => (hp used).1) fun used => (hp used).2.2.2, fun used => ⟨?_, ?_⟩⟩
  · exact .call hf hkind (hp used).2.1 (enough_eq (hp used).1 .unset) ((hp used).2.2.2 .unset)
  · intro _ h
    cases h

end Parse

section Reading

open Parse

theorem Selector.allNumbers_cons {s : Selector} {ss : List Selector}
    (h : Selector.AllNumbers w (s :: ss)) :
    Selector.AllNumbers w [s] ∧ Selector.AllNumbers w ss := by
  cases s <;> simp_all [Selector.AllNumbers]

theorem Actual.fit_cons {a : Actual} {as : List Actual} (h : Actual.Fit w f index (a :: as)) :
    Actual.Fit w f index [a] ∧ Actual.Fit w f (index + 1) as := by
  cases a <;> simp_all [Actual.Fit]

mutual

theorem Term.Writes.reads (env : Trusted allowed w w) {least bound : Nat} {s : Term}
    {ts : List Token} : Term.Writes w least bound s ts → s.WellTyped w → Tells w least bound ts s
  | .atom h, hw => by
      obtain ⟨g, hreads, hg⟩ := h.reads env hw
      exact ⟨g, hreads.primary.readable, hg⟩
  | .character h hfirst, hw => by
      rw [Term.WellTyped] at hw
      obtain ⟨htext, htype, ⟨hwell, hn⟩, -⟩ := hw
      obtain ⟨g, hreads, hg⟩ := h.reads env htext
      obtain ⟨g', hreads', hg'⟩ := hfirst.reads env hwell
      have hg'n (used : Nat) : (g' used).type.isNumeric := (hg' used).type_eq env ▸ hn
      refine ⟨_, (@primary_part _ _ _ _ _ none hreads (fun used => ((hg used).type_eq env).trans htype)
        hreads' hg'n (by simp)).readable, fun used => ?_⟩
      refine ⟨.part (hg used).elaborates (((hg used).type_eq env).trans htype)
        (.intro (hg' _).elaborates (convert_eq (.inr ⟨hg'n _, rfl⟩) .unset)) .none, ?_⟩
      intro _ hvalue
      cases hvalue
  | .part h hfirst hlast, hw => by
      rw [Term.WellTyped, Term.MayBeNumber] at hw
      obtain ⟨htext, htype, ⟨hwell, hn⟩, hwell', hn'⟩ := hw
      obtain ⟨g, hreads, hg⟩ := h.reads env htext
      obtain ⟨g', hreads', hg'⟩ := hfirst.reads env hwell
      obtain ⟨g'', hreads'', hg''⟩ := hlast.reads env hwell'
      have hg'n (used : Nat) : (g' used).type.isNumeric := (hg' used).type_eq env ▸ hn
      have hg''n (used : Nat) : (g'' used).type.isNumeric := (hg'' used).type_eq env ▸ hn'
      refine ⟨_, (@primary_part _ _ _ _ _ (some (_, g'')) hreads
        (fun used => ((hg used).type_eq env).trans htype) hreads' hg'n ?_).readable, fun used => ?_⟩
      · rintro _ _ ⟨⟩
        exact ⟨hreads'', hg''n⟩
      refine ⟨.part (hg used).elaborates (((hg used).type_eq env).trans htype)
        (.intro (hg' _).elaborates (convert_eq (.inr ⟨hg'n _, rfl⟩) .unset))
        (.some (.intro (hg'' _).elaborates (convert_eq (.inr ⟨hg''n _, rfl⟩) .unset))), ?_⟩
      intro _ hvalue
      cases hvalue
  | .plus hbound h, hw => by
      rw [Term.WellTyped] at hw
      exact (h.reads env hw.1).signed hbound fun t used ht =>
        ht.plus (ht.type_eq env ▸ hw.2) used
  | .minus hbound h, hw => by
      rw [Term.WellTyped] at hw
      exact (h.reads env hw.1).signed hbound fun t used ht =>
        ht.minus (ht.type_eq env ▸ hw.2) used
  | .not hbound h, hw => by
      rw [Term.WellTyped] at hw
      exact (h.reads env hw.1).signed hbound fun t used ht =>
        ht.not ((ht.type_eq env).trans hw.2) used
  | .binary hop hleast hbound hl hr, hw => by
      rw [Term.WellTyped] at hw
      obtain ⟨hwl, hwr, htypes⟩ := hw
      have hne := ne_not_of_ofOperator hop
      refine .joined hne hleast hbound (hl.reads env hwl) (hr.reads env hwr) fun tl tr htl htr => ?_
      refine ⟨leftFits_of_ofOperator hop tl, Term.Gives.binary hop htl htr ?_⟩
      rw [htl.type_eq env, htr.type_eq env]
      exact htypes
  | .and hleast hbound hl hr, hw => by
      rw [Term.WellTyped] at hw
      obtain ⟨⟨hwl, hl'⟩, hwr, hr'⟩ := hw
      refine .joined (by decide) hleast hbound (hl.reads env hwl) (hr.reads env hwr)
        fun tl tr htl htr => ?_
      exact htl.and htr ((htl.type_eq env).trans hl') ((htr.type_eq env).trans hr')
  | .or hleast hbound hl hr, hw => by
      rw [Term.WellTyped] at hw
      obtain ⟨⟨hwl, hl'⟩, hwr, hr'⟩ := hw
      refine .joined (by decide) hleast hbound (hl.reads env hwl) (hr.reads env hwr)
        fun tl tr htl htr => ?_
      exact htl.or htr ((htl.type_eq env).trans hl') ((htr.type_eq env).trans hr')

theorem Term.Atom.reads (env : Trusted allowed w w) {s : Term} {ts : List Token} :
    Atom w s ts → s.WellTyped w → TellsAtom w ts s
  | .integer hn hfits, _ => by
      refine tellsAtom_constant (.integer _) rfl ?_
      rintro _ ⟨⟩
      exact ⟨hfits, by unfold FitsInteger at *; omega⟩
  | .float x, _ => tellsAtom_constant (.float x) rfl (by simp)
  | .text s, _ => tellsAtom_constant (.text s) rfl (by simp)
  | .true h, _ => tellsAtom_constant (.name _) (if_pos h) (by simp)
  | .false h h', _ => by
      refine tellsAtom_constant (.name _) ?_ (by simp)
      rw [Leaf.typed, named, h, if_neg (by simp), if_pos h']
  | .placeholder, _ =>
    ⟨fun _ => ⟨.placeholder, .integer, none⟩, Atomic.leaf w .placeholder,
      fun _ => ⟨.placeholder, fun _ hvalue => by cases hvalue⟩⟩
  | .parens h, hw => by
      obtain ⟨g, hreads, hg⟩ := h.reads env hw
      exact ⟨g, hreads.parens, hg⟩
  | .whole hname, hw => by
      rw [WellTyped] at hw
      obtain ⟨cell, hvalue, rfl⟩ := hw
      refine ⟨_, atomic_whole hname hvalue, fun _ => ⟨.whole hvalue, ?_⟩⟩
      intro _ h
      cases h
  | .cast hname h, hw => by
      rw [WellTyped] at hw
      obtain ⟨⟨cell, hvalue, rfl⟩, hlength, hnumbers⟩ := hw
      obtain ⟨es, hes, hreads⟩ := (h.reads env).1 hnumbers
      have hrank : es.length ≤ maxRank := (hes.realized env).length ▸ hlength
      refine ⟨_, atomic_cast hname hvalue hreads hrank, fun _ => ⟨.cast hvalue hes hrank, ?_⟩⟩
      intro _ h
      cases h
  | .slice hname h, hw => by
      rw [WellTyped] at hw
      obtain ⟨⟨cell, hvalue, rfl⟩, hlength, hnumbers⟩ := hw
      obtain ⟨ss, hss, hreads⟩ := h.reads env hlength hnumbers
      have hrank : ss.length ≤ maxRank := by
        have haxes := congrArg length (hss.realized env).axes
        rw [length_map, length_map] at haxes
        omega
      refine ⟨_, atomic_slice hname hvalue hreads, fun _ => ⟨.slice hvalue hss hrank, ?_⟩⟩
      intro _ h
      cases h
  | .call hname h, hw => by
      rw [WellTyped] at hw
      obtain ⟨f, hf, hkind, hyields, hfit⟩ := hw
      obtain ⟨hphrase, hargs⟩ := (h.reads env).2 f 0 hfit
      exact tellsAtom_call hname hf hkind hyields hphrase hargs
  | .once hname h, hw => by
      rw [WellTyped] at hw
      obtain ⟨f, hf, hkind, hyields, hfit⟩ := hw
      obtain ⟨hphrase, args, hlength, hargs, hreads⟩ := h.reads env f 0 hfit
      have hyields : f.Yields (args.map Prod.snd).length := by
        rw [length_map, hlength]
        exact hyields
      obtain ⟨type, htype⟩ := resultType_eq hyields
      rw [length_map] at hyields
      refine ⟨_, atomic_once hname hf hkind hphrase hreads hyields htype, fun _ => ⟨?_, ?_⟩⟩
      · exact .once hf hkind hargs (enough_eq hyields .unset) (htype .unset)
      · intro _ h
        cases h
  | .callEmpty hname hts, hw => by
      rw [WellTyped] at hw
      obtain ⟨f, hf, hkind, hyields, -⟩ := hw
      obtain ⟨type, htype⟩ := @resultType_eq f [] hyields
      refine ⟨_, atomic_empty hname hf hyields htype hts, fun _ => ?_⟩
      rw [bareCall, hkind]
      refine ⟨.call hf hkind (.nil f 0) (enough_eq hyields .unset) (htype .unset), ?_⟩
      intro _ h
      cases h
  | .onceEmpty hname hts, hw => by
      rw [WellTyped] at hw
      obtain ⟨f, hf, hkind, hyields, -⟩ := hw
      obtain ⟨type, htype⟩ := @resultType_eq f [] hyields
      refine ⟨_, atomic_empty hname hf hyields htype hts, fun _ => ?_⟩
      rw [bareCall, hkind]
      refine ⟨.once hf hkind (.nil f 0) (enough_eq hyields .unset) (htype .unset), ?_⟩
      intro _ h
      cases h

theorem Term.Listed.reads (env : Trusted allowed w w) {ss : List Term} {ts : List Token} :
    Listed w ss ts → (AllNumbers w ss → ∃ es, AreIntegers w ss es ∧ SpellsExtents w ts es) ∧
      ∀ f index, Fit w f index ss → Phrase ts ∧
        ∀ used, ∃ args, args.length = ss.length ∧ AreHanded w f index ss args ∧
          SpellsHanded w f index used ts args
  | .one h => by
      refine ⟨fun hn => ?_, fun f index hfit => ?_⟩
      · rw [AllNumbers] at hn
        obtain ⟨hphrase, e, he, hint⟩ := (h.reads env hn.1.1).number env hn.1.2
        exact ⟨[e], .cons hint .nil, spellsExtents_one hphrase he⟩
      · rw [Fit] at hfit
        obtain ⟨⟨hadmits, hmode, hwell, htakes⟩, -⟩ := hfit
        obtain ⟨g, hreads, hg⟩ := h.reads env hwell
        refine ⟨hreads.toPhrase, fun used => ?_⟩
        rw [← (hg used).type_eq env] at htakes
        exact ⟨_, rfl, .cons hadmits hmode (hg used).elaborates (accept_eq htakes .unset) (.nil _ _),
          spellsHanded_one hreads rfl hadmits hmode htakes⟩
  | .more h hs => by
      refine ⟨fun hn => ?_, fun f index hfit => ?_⟩
      · rw [AllNumbers] at hn
        obtain ⟨hphrase, e, he, hint⟩ := (h.reads env hn.1.1).number env hn.1.2
        obtain ⟨es, hes, hreads⟩ := (hs.reads env).1 hn.2
        exact ⟨e :: es, .cons hint hes, spellsExtents_more hphrase he hreads⟩
      · rw [Fit] at hfit
        obtain ⟨⟨hadmits, hmode, hwell, htakes⟩, hfit⟩ := hfit
        obtain ⟨g, hreads, hg⟩ := h.reads env hwell
        obtain ⟨hphrase, hargs⟩ := (hs.reads env).2 f (index + 1) hfit
        refine ⟨hreads.append (forall_mem_cons.2 ⟨rfl, hphrase.inside⟩), fun used => ?_⟩
        rw [← (hg used).type_eq env] at htakes
        obtain ⟨args, hlength, hargs, hreads'⟩ :=
          hargs (used + (converted (g used) ((f.decl index).target (g used).type)).expr.slots)
        exact ⟨_ :: args, congrArg Nat.succ hlength,
          .cons hadmits hmode (hg used).elaborates (accept_eq htakes .unset) hargs,
          spellsHanded_more hreads rfl hadmits hmode htakes hreads'⟩

theorem Term.Bound.reads (env : Trusted allowed w w) {o : Option Term} {ts : List Token} :
    Bound w o ts → MayBeNumber w o → ∃ e, MayBeInteger w o e ∧ SpellsBound w ts e
  | .none, _ => ⟨none, .none, rfl⟩
  | .some h, hn => by
      rw [MayBeNumber] at hn
      obtain ⟨hphrase, e, he, hint⟩ := (h.reads env hn.1).number env hn.2
      exact ⟨some e, .some hint, hphrase, he⟩

theorem Selector.Writes.reads (env : Trusted allowed w w) {s : Selector} {ts : List Token} :
    Selector.Writes w s ts → Selector.AllNumbers w [s] → ∃ subscript, SpellsAxis w ts subscript ∧
      ∀ ss subscripts, Selector.Elaborate w ss subscripts →
        Selector.Elaborate w (s :: ss) (subscript :: subscripts)
  | .all, _ => by
      have hall : SpellsAxis w ([] ++ .colon :: []) (rangeOf none none none) :=
        spellsAxis_range rfl rfl
      exact ⟨.all, hall, fun _ _ => .all⟩
  | .at h, hn => by
      rw [Selector.AllNumbers] at hn
      obtain ⟨hphrase, e, he, hint⟩ := (h.reads env hn.1.1).number env hn.1.2
      exact ⟨.at e, spellsAxis_at hphrase he, fun _ _ => .at hint⟩
  | .range hfirst hlast hsome, hn => by
      rw [Selector.AllNumbers] at hn
      obtain ⟨⟨hn, hn', -⟩, -⟩ := hn
      obtain ⟨e, he, hreads⟩ := hfirst.reads env hn
      obtain ⟨e', he', hreads'⟩ := hlast.reads env hn'
      have hrange : rangeOf e e' none = .range e e' none := by
        refine if_neg ?_
        rw [← (he.realized env).isSome, ← (he'.realized env).isSome] at hsome
        cases e <;> cases e' <;> simp at hsome ⊢
      exact ⟨_, hrange ▸ spellsAxis_range hreads hreads', fun _ _ => .range he he' .none⟩
  | .stepped hfirst hlast hstep, hn => by
      rw [Selector.AllNumbers] at hn
      obtain ⟨⟨hn, hn', hn''⟩, -⟩ := hn
      rw [MayBeNumber] at hn''
      obtain ⟨e, he, hreads⟩ := hfirst.reads env hn
      obtain ⟨e', he', hreads'⟩ := hlast.reads env hn'
      obtain ⟨-, e'', hreads'', hint⟩ := (hstep.reads env hn''.1).number env hn''.2
      exact ⟨_, spellsAxis_stepped hreads hreads' hreads'',
        fun _ _ => .range he he' (.some hint)⟩

theorem Selector.Listed.reads (env : Trusted allowed w w) {ss : List Selector} {ts : List Token} :
    Selector.Listed w ss ts → ∀ {room : Nat}, ss.length ≤ room → Selector.AllNumbers w ss →
      ∃ subscripts, Selector.Elaborate w ss subscripts ∧ SpellsAxes w room ts subscripts
  | .one h, room, hroom, hn => by
      obtain ⟨subscript, hreads, helab⟩ := h.reads env hn
      obtain ⟨room, rfl⟩ : ∃ n, room = n + 1 := ⟨room - 1, by simp at hroom; omega⟩
      exact ⟨[subscript], helab [] [] .nil, spellsAxes_one hreads⟩
  | .more h hs, room, hroom, hn => by
      obtain ⟨hn, hns⟩ := Selector.allNumbers_cons hn
      obtain ⟨room, rfl⟩ : ∃ n, room = n + 1 := ⟨room - 1, by simp at hroom; omega⟩
      obtain ⟨subscript, hreads, helab⟩ := h.reads env hn
      obtain ⟨subscripts, hsubscripts, hreads'⟩ := hs.reads env (Nat.le_of_succ_le_succ hroom) hns
      exact ⟨_, helab _ _ hsubscripts, spellsAxes_more hreads hreads'⟩

theorem Actual.Writes.reads (env : Trusted allowed w w) {a : Actual} {ts : List Token} :
    Actual.Writes w a ts → ∀ f index, Actual.Fit w f index [a] → Phrase ts ∧ f.admits index ∧
      ∃ arg, SpellsActual w (f.decl index) ts arg ∧
        ∀ as args, Actual.Elaborate w f (index + 1) as args →
          Actual.Elaborate w f index (a :: as) (arg :: args)
  | .value h, f, index, hfit => by
      rw [Actual.Fit] at hfit
      obtain ⟨⟨hadmits, hmode, hwell, htakes, hrank⟩, -⟩ := hfit
      obtain ⟨g, hreads, hg⟩ := h.reads env hwell
      rw [← (hg 0).type_eq env] at htakes
      rw [← (hg 0).elaborates.rank_eq env] at hrank
      exact ⟨hreads.toPhrase, hadmits, _, spellsActual_value hreads rfl hmode htakes hrank,
        fun _ _ => .value hadmits hmode (hg 0).elaborates (accept_eq htakes .unset)⟩
  | .reference hname, f, index, hfit => by
      rw [Actual.Fit] at hfit
      obtain ⟨⟨hadmits, hmode, ⟨cell, hvalue, rfl⟩, haccepts⟩, -⟩ := hfit
      exact ⟨.single rfl, hadmits, _, spellsActual_reference hmode hname hvalue haccepts,
        fun _ _ => .reference hadmits hmode hvalue haccepts⟩
  | .name text, f, index, hfit => by
      rw [Actual.Fit] at hfit
      obtain ⟨⟨hadmits, hmode⟩, -⟩ := hfit
      exact ⟨.single rfl, hadmits, _, spellsActual_name text hmode,
        fun _ _ => .name hadmits hmode⟩

theorem Actual.Listed.reads (env : Trusted allowed w w) {as : List Actual} {ts : List Token} :
    Actual.Listed w as ts → ∀ f index, Actual.Fit w f index as → Phrase ts ∧
      ∃ args, args.length = as.length ∧ Actual.Elaborate w f index as args ∧
        SpellsActuals w f index ts args
  | .one h, f, index, hfit => by
      obtain ⟨hphrase, hadmits, arg, hreads, helab⟩ := h.reads env f index hfit
      exact ⟨hphrase, [arg], rfl, helab [] [] (.nil _ _),
        spellsActuals_one hphrase.length_pos hreads hadmits⟩
  | .more h hs, f, index, hfit => by
      obtain ⟨hfit, hfits⟩ := Actual.fit_cons hfit
      obtain ⟨hphrase, hadmits, arg, hreads, helab⟩ := h.reads env f index hfit
      obtain ⟨hphrase', args, hlength, hargs, hreads'⟩ := hs.reads env f (index + 1) hfits
      exact ⟨hphrase.append (forall_mem_cons.2 ⟨rfl, hphrase'.inside⟩), arg :: args,
        congrArg Nat.succ hlength, helab _ _ hargs, spellsActuals_more hreads hadmits hreads'⟩

end

end Reading

/-! ### Evaluation -/

/-- A machine that keeps pace with a computation ends as it does, unless it is disturbed. -/
theorem Follows.outcome {α : Type} {m : Machine} {r : Machine.Result α}
    {y : EStateM.Result Fault Host α} (h : Follows False m (· = ·) r y) :
    CutOff False r ∨ (∃ a host, y = .ok a host ∧ r = .ok a { m with host }) ∨
      ∃ f m', y = .error f m'.host ∧ r = .error (.fault f) m' ∧ m'.workspace = m.workspace := by
  cases h with
  | value hp =>
    obtain ⟨rfl, host, rfl⟩ := hp
    exact .inr (.inl ⟨_, host, rfl, rfl⟩)
  | fault hk => exact .inr (.inr ⟨_, _, rfl, rfl, hk⟩)
  | disturbed hd => exact .inl (.disturbed hd)
  | spent hs => exact hs.elim

open Parse in
/-- **The nodes of an expression compute its value.**  Every way to write a well-typed expression is
accepted, and the nodes that it emits give the value of the expression or fail with its fault, in
every later state of the variables and wherever they stand in a program.  The functions must return
what they are declared to return, or fail; the machine may be cut off from outside. -/
theorem Term.emitted_computes {w : Workspace} {s : Term} {ts rest : List Token} {l : Lexer}
    (honest : ∀ f ∈ w.functions, f.Honest fun _ => True) (hwell : s.WellTyped w)
    (hts : s.Writes w 0 0 ts) (hrest : Behind 0 rest) (hl : l.Shows (ts ++ rest)) :
    ∃ t l', expression w l = .ok t l' ∧ l'.Shows rest ∧ t.type = s.type w ∧
      ∀ (m : Machine) (code : Array Node) (pc fuel : Nat) (fill : Option Shape),
        w.Later m.workspace → code.size < wordSize → Placed code pc (t.expr.code t.type) →
        (t.expr.code t.type).length ≤ fuel →
        CutOff False (Evaluate.expression code fuel pc fill m) ∨
          (∃ cell host, s.evaluate m.workspace fill m.host = .ok cell host ∧
            Evaluate.expression code fuel pc fill m = .ok cell { m with host }) ∨
          ∃ fault m', s.evaluate m.workspace fill m.host = .error fault m'.host ∧
            Evaluate.expression code fuel pc fill m = .error (.fault fault) m' ∧
            m'.workspace = m.workspace := by
  have env (w' : Workspace) (later : w.Later w') : Trusted (fun _ => True) w w' :=
    ⟨fun _ _ => trivial, later, honest⟩
  obtain ⟨g, hreads, hg⟩ := hts.reads (env w (.refl w)) hwell
  have hread := hreads.expression hrest l hl
  generalize hresult : expression w l = result at hread
  cases hread with
  | value hshows =>
    refine ⟨_, _, rfl, hshows, (hg 0).type_eq (env w (.refl w)), ?_⟩
    intro m code pc fuel fill hlater hcode hplaced hfuel
    have hfaithful := (hg 0).elaborates.realizes (env m.workspace hlater)
    have hevaluate : s.evaluate m.workspace fill =
        (g 0).expr.evaluate m.workspace (g 0).type fill := by
      rw [Term.evaluate, Expr.evaluate, hfaithful.realized.meaning, hfaithful.type]
    have hfollows := (g 0).expr.computes m.workspace (g 0).type fill code fuel pc m rfl hcode hplaced
    rw [hevaluate]
    exact Follows.outcome (hfollows.mono (fun hshort => absurd hfuel (by omega)) fun _ _ _ => id)

def Workspace.listed : Workspace :=
  Workspace.after (Workspace.create "list" (.integers #[4, 5, 6])) (.bare 8)

/-- The negatives of all elements but the first, with their numbers added. -/
def Term.sample : Term :=
  .binary .add (.minus (.slice ⟨0, 0⟩ .integer [.range (some (.literal (.integer 2))) none none]))
    .placeholder

def Machine.listed : Machine :=
  { workspace := .listed
    values := { title := "VALUE STACK", limit := 8 }
    run := { title := "RUN STACK", limit := 8 } }

theorem Term.sample_writes : sample.Writes .listed 0 0
    [.operator .minus, .name "li", .leftParen, .integer 2, .colon, .rightParen, .operator .plus,
      .placeholder] := by
  have hname : Workspace.listed.Names "li" (.var ⟨0, 0⟩) := ⟨by rfl, by rfl, "list", by rfl⟩
  have hrange : Selector.Writes .listed (.range (some (.literal (.integer 2))) none none)
      ([.integer 2] ++ .colon :: []) :=
    .range (.some (.atom (.integer (by decide) (by decide)))) .none (.inl rfl)
  exact .binary rfl (by decide) (by decide)
    (.minus (by decide) (.atom (.slice hname (.one hrange)))) (.atom .placeholder)

def returned? {ε σ α : Type} : EStateM.Result ε σ α → Option α
  | .ok a _ => some a
  | .error _ _ => none

theorem exists_of_returned? {ε σ α : Type} {r : EStateM.Result ε σ α} {a : α}
    (h : returned? r = some a) : ∃ s, r = .ok a s := by
  cases r <;> cases h
  exact ⟨_, rfl⟩

open Parse in
theorem Term.emitted_computes_sample :
    ∃ t l', expression .listed (.ofText "-li(2:) + @" 8) = .ok t l' ∧ l'.Shows [.finish] ∧
      t.type = .integer ∧
      Evaluate.expression (t.expr.code t.type).toArray 10 0 none .listed =
        .ok ⟨.integer #[-4, -4], .vector 2, .temporary⟩ .listed := by
  have htokens : Lexer.tokens "-li(2:) + @" 8 = .ok
      [.operator .minus, .name "li", .leftParen, .integer 2, .colon, .rightParen, .operator .plus,
        .placeholder] := by rfl
  have hwell : Term.sample.WellTyped .listed :=
    ⟨⟨⟨⟨_, rfl, rfl⟩, by decide, ⟨⟨trivial, rfl⟩, trivial, trivial⟩, trivial⟩, rfl⟩, trivial, rfl⟩
  have honest : ∀ f ∈ Workspace.listed.functions, f.Honest fun _ => True := by
    have hnone : Workspace.listed.functions = #[] := by rfl
    simp [hnone]
  obtain ⟨t, l', hread, hshows, htype, hruns⟩ := Term.emitted_computes honest hwell
    Term.sample_writes (behind_mark (by simp [marks])) (Lexer.shows_of_tokens htokens)
  refine ⟨t, l', hread, hshows, htype, ?_⟩
  have hemitted : ((emitted (expression .listed (.ofText "-li(2:) + @" 8))).toOption.any fun code =>
      code.length == 8 &&
        (returned? (Evaluate.expression code.toArray 10 0 none .listed)).isSome) = true := by
    decide +kernel
  rw [hread] at hemitted
  obtain ⟨hlength, hreturned⟩ := Bool.and_eq_true_iff.1 hemitted
  have hcode : (t.expr.code t.type).length = 8 := beq_iff_eq.1 hlength
  have hvalue : Term.sample.evaluate .listed none Machine.listed.host =
      .ok ⟨.integer #[-4, -4], .vector 2, .temporary⟩ Machine.listed.host := by rfl
  have houtcome := hruns .listed _ 0 10 none (.refl _) (by simp [hcode, wordSize])
    (placed_toArray _) (by omega)
  rcases houtcome with hcut | ⟨cell, host, hok, hrun⟩ | ⟨fault, m', herror, -⟩
  · obtain ⟨value, hvalue⟩ := Option.isSome_iff_exists.1 hreturned
    obtain ⟨m', hrun⟩ := exists_of_returned? hvalue
    cases hrun ▸ hcut
  · obtain ⟨rfl, rfl⟩ := EStateM.Result.ok.inj (hok.symm.trans hvalue)
    exact hrun
  · cases herror.symm.trans hvalue

end ArrayCommand
