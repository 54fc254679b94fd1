/-
The ladder of operators.

Operators bind on seven levels, and a sign or a negation binds between the upper two of them.  An
expression is read in a loop: a left side, and operators with their right sides as long as they bind
tightly enough.  What stands behind an expression must not be taken into it, so a writing is judged by
two numbers: the level that its operators must have, and the level that the operator behind it may
have.

Main definitions:

* `Operator.level`, `Operator.left`, `Operator.right` — how tightly an operator binds, and what it
  asks of its sides;
* `Parse.Readable` — tokens that are read as one expression, whatever stands behind them;
* `Formula` — trees of signs and operators over constants and variables;
* `Formula.typed` — what the reader makes of such a tree;
* `Formula.Writes` — the ways to write a tree, with more parentheses than needed or not;
* `Formula.bare`, `Formula.full` — the tree with only the parentheses that the ladder asks for, and
  with all of them.

Main results:

* `Formula.Writes.readable` — every way to write a tree is read as that tree;
* `Formula.emitted_writes` — **parentheses that the ladder does not ask for change nothing.**
-/

import ArrayCommand.Proofs.Stream

namespace ArrayCommand

open List

variable {op : Operator} {rest later ts ts' : List Token} {used fuel bound least : Nat}
  {w : Workspace} {r : Nat → Except Cause Typed} {e : Formula}

/-! ### Levels -/

namespace Operator

def level : Operator → Nat
  | .or => 1
  | .and => 2
  | .equal => 3
  | .notEqual => 3
  | .less => 3
  | .lessEqual => 3
  | .greater => 3
  | .greaterEqual => 3
  | .plus => 4
  | .minus => 4
  | .multiply => 5
  | .divide => 5
  | .caret => 6
  | .concat => 8
  | .not => 0

/-- The level that operators in the left side of an operator must have. -/
def left (op : Operator) : Nat := if op = .caret then op.level + 1 else op.level

/-- The level that operators in the right side of an operator must have. -/
def right (op : Operator) : Nat := if op = .caret then op.level else op.level + 1

theorem precedence?_eq (h : op ≠ .not) : Parse.precedence? op = some op.level := by
  cases op <;> first | rfl | exact absurd rfl h

/-- An operator that may stand behind the left side of another one does not continue its right
side. -/
theorem level_lt_right {next : Operator} (h : next.left ≤ op.level) : next.level < op.right := by
  revert h
  cases op <;> cases next <;> decide

theorem left_pos (h : op ≠ .not) : 0 < op.left := by
  revert h
  cases op <;> decide

theorem level_le_left (op : Operator) : op.level ≤ op.left := by
  cases op <;> decide

theorem level_le_right (op : Operator) : op.level ≤ op.right := by
  cases op <;> decide

end Operator

/-- A sign or a negation. -/
inductive Sign where
  | minus
  | plus
  | not
deriving DecidableEq, Repr

namespace Sign

def operator : Sign → Operator
  | .minus => .minus
  | .plus => .plus
  | .not => .not

def level : Nat := 7

/-- An operator that may stand behind a signed expression does not continue the operand of the
sign. -/
theorem level_lt (h : op.left ≤ level) : op.level < level := by
  revert h
  cases op <;> decide

end Sign

namespace Parse

/-! ### What stands behind an expression -/

/-- What may stand behind an expression: no bracket that would belong to it, and an operator only if
expressions up to a level may be its left side. -/
def Behind (bound : Nat) (rest : List Token) : Prop :=
  ∃ token later, rest = token :: later ∧ token ≠ .leftParen ∧ token ≠ .leftBrace ∧
    token ≠ .leftBracket ∧ ∀ op, token = .operator op → op ≠ .not → op.left ≤ bound

/-- The operator behind an expression does not continue one at a level. -/
def Stops (least : Nat) (rest : List Token) : Prop :=
  ∃ token later, rest = token :: later ∧
    ∀ op, token = .operator op → op ≠ .not → op.level < least

theorem Behind.stops (h : Behind 0 rest) : Stops 0 rest := by
  obtain ⟨token, later, hrest, -, -, -, hop⟩ := h
  exact ⟨token, later, hrest, fun op htoken hne =>
    absurd (hop op htoken hne) (Nat.not_le.2 (Operator.left_pos hne))⟩

/-- Tokens that stand between and behind expressions. -/
def marks : List Token := [.comma, .colon, .rightParen, .rightBracket, .rightBrace, .finish]

theorem behind_mark {token : Token} (h : token ∈ marks) : Behind bound (token :: later) := by
  simp only [marks, mem_cons, not_mem_nil, or_false] at h
  refine ⟨token, later, rfl, ?_⟩
  obtain rfl | rfl | rfl | rfl | rfl | rfl := h <;> simp

theorem reads_stop {sub : Sub} (t : Typed) (h : Stops least rest) :
    Reads rest rest (operatorsWith sub used least (fuel + 1) t) (.ok t) := by
  obtain ⟨token, later, rfl, hop⟩ := h
  refine .seq .peek ?_
  cases token with
  | operator op =>
    dsimp only
    by_cases hnot : op = .not
    · subst hnot
      exact .pure t
    · rw [Operator.precedence?_eq hnot]
      dsimp only
      rw [if_pos (hop op rfl hnot)]
      exact .pure t
  | _ => exact .pure t

/-! ### Readable tokens -/

def opens : Token → Bool
  | .name _ => true
  | .integer _ => true
  | .float _ => true
  | .text _ => true
  | .placeholder => true
  | .operator _ => true
  | .leftParen => true
  | _ => false

/-- Tokens that look like an expression: they begin like one, and the line does not end in them. -/
structure Phrase (ts : List Token) : Prop where
  opens : ∃ token later, ts = token :: later ∧ opens token = true
  inside : ∀ token ∈ ts, token.isFinish = false

namespace Phrase

variable {token : Token}

theorem length_pos (h : Phrase ts) : 0 < ts.length := by
  obtain ⟨token, later, rfl, -⟩ := h.opens
  exact Nat.succ_pos _

theorem single (h : Parse.opens token = true) : Phrase [token] where
  opens := ⟨token, [], rfl, h⟩
  inside := by cases token <;> first | cases h; done | simp [Token.isFinish]

theorem append (h : Phrase ts) (h' : ∀ token ∈ ts', token.isFinish = false) :
    Phrase (ts ++ ts') where
  opens := by
    obtain ⟨token, later, rfl, htoken⟩ := h.opens
    exact ⟨token, later ++ ts', rfl, htoken⟩
  inside := forall_mem_append.2 ⟨h.inside, h'⟩

theorem cons (htoken : Parse.opens token = true) (h : ∀ token ∈ ts, token.isFinish = false) :
    Phrase (token :: ts) := (single htoken).append h

theorem parens (h : Phrase ts) : Phrase (.leftParen :: (ts ++ [.rightParen])) :=
  cons rfl (forall_mem_append.2 ⟨h.inside, by simp [Token.isFinish]⟩)

end Phrase

/-- Tokens that are read as one expression with the given result, which may depend on the number of
slots taken to the left.  The reader is then in its loop over operators, before what stands
behind. -/
structure Readable (w : Workspace) (least bound : Nat) (ts : List Token)
    (r : Nat → Except Cause Typed) : Prop extends Phrase ts where
  reads : ∀ {fuel used least' : Nat} {rest after : List Token} {s : Typed → Except Cause Typed},
    ts.length ≤ fuel + 1 → least' ≤ least → Behind bound rest →
      (∀ t k, fuel + 2 ≤ k + ts.length →
        Reads rest after (operatorsWith (expr w fuel) used least' k t) (s t)) →
      Reads (ts ++ rest) after (expr w (fuel + 1) used least') (r used >>= s)

/-- Tokens that are read as one expression without an operator around it. -/
structure Primary (w : Workspace) (ts : List Token) (r : Nat → Except Cause Typed) : Prop
    extends Phrase ts where
  unsigned : ∀ op later, ts ≠ .operator op :: later
  reads : ∀ {fuel used bound : Nat} {rest : List Token}, ts.length ≤ fuel + 1 →
    Behind bound rest →
      Reads (ts ++ rest) rest (bracketedWith w (expr w fuel) (fuel + 1) used) (r used)

/-- Tokens that are read as a constant, a name with what belongs to it, or an expression in
parentheses; a part of its text may be taken behind it. -/
structure Atomic (w : Workspace) (ts : List Token) (r : Nat → Except Cause Typed) : Prop
    extends Phrase ts where
  unsigned : ∀ op later, ts ≠ .operator op :: later
  reads : ∀ {fuel used : Nat} {token : Token} {later : List Token}, ts.length ≤ fuel + 1 →
    token ≠ .leftParen → token ≠ .leftBrace →
      Reads (ts ++ token :: later) (token :: later) (primaryWith w (expr w fuel) (fuel + 1) used)
        (r used)

theorem Readable.complete (h : Readable w least bound ts r) (hfuel : ts.length ≤ fuel)
    (hbehind : Behind bound rest) (hstops : Stops least rest) :
    Reads (ts ++ rest) rest (expr w fuel used least) (r used) := by
  have hpos := h.length_pos
  obtain ⟨fuel, rfl⟩ : ∃ n, fuel = n + 1 := ⟨fuel - 1, by omega⟩
  have hreads : Reads (ts ++ rest) rest (expr w (fuel + 1) used least) (r used >>= pure) := by
    refine h.reads hfuel (Nat.le_refl least) hbehind fun t k hk => ?_
    obtain ⟨k, rfl⟩ : ∃ n, k = n + 1 := ⟨k - 1, by omega⟩
    exact reads_stop t hstops
  rwa [bind_pure] at hreads

theorem Primary.readable (h : Primary w ts r) : Readable w least bound ts r := by
  refine ⟨h.toPhrase, fun {fuel used least' rest after s} hfuel _ hbehind hloop => ?_⟩
  have hpos := h.length_pos
  have hprimary : Reads (ts ++ rest) rest (bracketedWith w (expr w fuel) (fuel + 1) used) (r used) :=
    h.reads hfuel hbehind
  have hunary : Reads (ts ++ rest) rest (unaryWith w (expr w fuel) (fuel + 1) used) (r used) := by
    obtain ⟨token, later, hts, -⟩ := h.opens
    have hsign := h.unsigned
    rw [hts, cons_append] at hprimary ⊢
    refine .seq .peek ?_
    cases token with
    | operator op => exact absurd hts (hsign op later)
    | _ => exact hprimary
  exact hunary.bind fun t _ => hloop t (fuel + 1) (by omega)

theorem Atomic.primary (h : Atomic w ts r) : Primary w ts r := by
  refine ⟨h.toPhrase, h.unsigned, fun {fuel used bound rest} hfuel hbehind => ?_⟩
  obtain ⟨token, later, rfl, hparen, hbrace, hbracket, -⟩ := hbehind
  have hreads : Reads (ts ++ token :: later) (token :: later)
      (bracketedWith w (expr w fuel) (fuel + 1) used) (r used >>= pure) := by
    refine (h.reads hfuel hparen hbrace).bind fun t _ => .seq .peek ?_
    rw [bne, Token.beq_eq_false hbracket (by simp)]
    exact .pure t
  rwa [bind_pure] at hreads

theorem Readable.upTo (h : Readable w 0 0 ts r) {token : Token}
    (hfuel : ts.length ≤ fuel) (htoken : token ∈ marks) :
    Reads (ts ++ token :: later) (token :: later) (expr w fuel used 0) (r used) :=
  h.complete hfuel (behind_mark htoken) (behind_mark htoken).stops

theorem Readable.parens (h : Readable w 0 0 ts r) :
    Atomic w (.leftParen :: (ts ++ [.rightParen])) r := by
  refine ⟨h.toPhrase.parens, by simp, fun {fuel used token later} hfuel _ _ => ?_⟩
  rw [length_cons, length_append, length_singleton] at hfuel
  have hinner : Reads (ts ++ .rightParen :: token :: later) (.rightParen :: token :: later)
      (expr w fuel used 0) (r used) := h.upTo (by omega) (by simp [marks])
  have hreads : Reads (.leftParen :: (ts ++ .rightParen :: token :: later)) (token :: later)
      (primaryWith w (expr w fuel) (fuel + 1) used) (r used >>= pure) :=
    .nextAt fun _ => hinner.bind fun t _ => .seq .next (.pure t)
  rw [bind_pure] at hreads
  rw [cons_append, append_assoc, singleton_append]
  exact hreads

/-! ### Signs -/

/-- A tree behind a sign; a constant is negated at once, unless slots are taken to its left. -/
def signedBy (s : Sign) (used : Nat) (t : Typed) : Except Cause Typed :=
  match s with
  | .minus =>
    if t.type.isNumeric then (negated t used .unset).mapError Fault.cause else .error .typeMismatch
  | .plus => if t.type.isNumeric then .ok t else .error .typeMismatch
  | .not =>
    if t.type = .logical then .ok { t with expr := .not t.expr } else .error .typeMismatch

theorem cause_within (f : Fault) (column : Column) : (f.within column).cause = f.cause := by
  rw [Fault.within]
  split <;> rfl

/-- The column of a sign only shows in the place of the fault. -/
theorem mapError_negated (t : Typed) (used : Nat) (column column' : Column) :
    (negated t used column).mapError Fault.cause = (negated t used column').mapError Fault.cause := by
  rw [negated, negated]
  split
  · split
    · split
      · rfl
      · exact congrArg Except.error ((cause_within _ _).trans (cause_within _ _).symm)
    · rfl
  · rfl

theorem Readable.signed (s : Sign) (hbound : bound ≤ Sign.level)
    (h : Readable w Sign.level bound ts r) :
    Readable w least bound (.operator s.operator :: ts) fun used => r used >>= signedBy s used := by
  refine ⟨.cons rfl h.inside, fun {fuel used least' rest after f} hfuel _ hbehind hloop => ?_⟩
  rw [length_cons] at hfuel
  have hstops : Stops Sign.level rest := by
    obtain ⟨token, later, hrest, -, -, -, hop⟩ := hbehind
    exact ⟨token, later, hrest, fun op htoken hne =>
      Sign.level_lt (Nat.le_trans (hop op htoken hne) hbound)⟩
  have hoperand : Reads (ts ++ rest) rest (expr w fuel used unaryPrecedence) (r used) :=
    h.complete (by omega) hbehind hstops
  have hunary : Reads (.operator s.operator :: (ts ++ rest)) rest
      (unaryWith w (expr w fuel) (fuel + 1) used) (r used >>= signedBy s used) := by
    refine .seq .peek ?_
    cases s with
    | minus =>
      refine .nextAt fun column => hoperand.bind fun t _ => ?_
      rw [signedBy]
      cases t.type.isNumeric with
      | true =>
        rw [mapError_negated t used .unset column]
        exact .check _
      | false => exact .throwing _ _
    | plus =>
      refine .nextAt fun column => hoperand.bind fun t _ => ?_
      rw [signedBy]
      cases t.type.isNumeric with
      | true => exact .pure t
      | false => exact .throwing _ _
    | not =>
      refine .nextAt fun column => hoperand.bind fun t _ => ?_
      rw [signedBy]
      cases t.type with
      | logical => exact .pure _
      | _ => exact .throwing _ _
  exact hunary.bind fun t _ => hloop t (fuel + 1) (by rw [length_cons]; omega)

/-! ### Operators -/

/-- A tree must be a truth value. -/
def truthValue (t : Typed) : Except Cause Unit :=
  if t.type = .logical then .ok () else .error .typeMismatch

/-- A conjunction or a disjunction wants a truth value on its left before its right side is read. -/
def leftFits (op : Operator) (l : Typed) : Except Cause Unit :=
  match op with
  | .and => truthValue l
  | .or => truthValue l
  | _ => .ok ()

def connected (build : Expr → Expr → Expr) (l r : Typed) : Except Cause Typed := do
  truthValue r
  return ⟨build l.expr r.expr, .logical, mergeRank l.rank r.rank⟩

def operated (binary : BinaryOp) (l r : Typed) : Except Cause Typed :=
  match binary.signature l.type r.type with
  | .error fault => .error fault.cause
  | .ok ⟨operand, result⟩ =>
    .ok ⟨.binary binary operand (l.type != operand) (r.type != operand) l.expr r.expr, result,
      mergeRank l.rank r.rank⟩

/-- The tree of two sides and the operator between them. -/
def joined (op : Operator) (l r : Typed) : Except Cause Typed :=
  match op with
  | .and => connected .and l r
  | .or => connected .or l r
  | _ =>
    match BinaryOp.ofOperator? op with
    | some binary => operated binary l r
    | none => .error .internalError

/-- An operator between two sides, which are read one after the other. -/
def bothSides (op : Operator) (left right : Nat → Except Cause Typed) (used : Nat) :
    Except Cause Typed := do
  let l ← left used
  leftFits op l
  joined op l (← right (used + l.expr.slots))

section Binary

variable {sub : Sub} {l : Typed} {right : Except Cause Typed}

theorem reads_logical (op : Operator) (level : Nat) (build : Expr → Expr → Expr) (column : Column)
    (h : truthValue l = .ok () → Reads ts rest (sub (used + l.expr.slots) (level + 1)) right) :
    Reads ts rest (logicalWith sub used level op build l column) (do
      truthValue l
      connected build l (← right)) := by
  rw [logicalWith]
  by_cases hl : l.type = .logical
  · have htruth : truthValue l = .ok () := if_pos hl
    rw [htruth, if_neg (by simp [hl])]
    refine (h htruth).bind fun t _ => ?_
    rw [connected, truthValue]
    cases t.type with
    | logical => exact .pure _
    | _ => exact .throwing _ _
  · have htruth : truthValue l = .error .typeMismatch := if_neg hl
    rw [htruth, if_pos (by simpa using hl)]
    exact .throwing _ _

theorem reads_operation {binary : BinaryOp} (hop : BinaryOp.ofOperator? op = some binary)
    (column : Column) (h : Reads ts rest (sub (used + l.expr.slots) op.right) right) :
    Reads ts rest (binaryWith sub used op.level op l column) (do operated binary l (← right)) := by
  unfold binaryWith
  split
  · cases hop
  · cases hop
  · refine h.bind fun t _ => ?_
    rw [hop, operated]
    dsimp only
    cases binary.signature l.type t.type with
    | error fault =>
      dsimp only
      rw [← cause_within fault column]
      exact .throw _
    | ok signature => exact .pure _

theorem reads_binary (hop : op ≠ .not) (column : Column)
    (h : leftFits op l = .ok () → Reads ts rest (sub (used + l.expr.slots) op.right) right) :
    Reads ts rest (binaryWith sub used op.level op l column) (do
      leftFits op l
      joined op l (← right)) := by
  cases hbinary : BinaryOp.ofOperator? op with
  | some binary =>
    have hfits : leftFits op l = .ok () := by
      cases op <;> first | rfl | cases hbinary
    have hjoined (r : Typed) : joined op l r = operated binary l r := by
      cases op <;> cases hbinary <;> rfl
    simp only [hfits, hjoined]
    exact reads_operation hbinary column (h hfits)
  | none =>
    cases op with
    | and =>
      exact reads_logical .and _ .and column h
    | or =>
      exact reads_logical .or _ .or column h
    | not => exact absurd rfl hop
    | _ => cases hbinary

end Binary

theorem Readable.joined (hop : op ≠ .not) (hleast : least ≤ op.level)
    (hbound : bound ≤ op.level) {r' : Nat → Except Cause Typed}
    (hl : Readable w op.left op.left ts r) (hr : Readable w op.right bound ts' r') :
    Readable w least bound (ts ++ .operator op :: ts') (bothSides op r r') := by
  refine ⟨hl.append (forall_mem_cons.2 ⟨rfl, hr.inside⟩),
    fun {fuel used least' rest after f} hfuel hle hbehind hloop => ?_⟩
  rw [length_append, length_cons] at hfuel hloop
  have hstops : Stops op.right rest := by
    obtain ⟨token, later, hrest, -, -, -, hnext⟩ := hbehind
    exact ⟨token, later, hrest, fun next htoken hne =>
      Operator.level_lt_right (Nat.le_trans (hnext next htoken hne) hbound)⟩
  have hmiddle : Behind op.left (.operator op :: (ts' ++ rest)) := by
    refine ⟨_, _, rfl, by simp, by simp, by simp, ?_⟩
    rintro _ ⟨⟩ _
    exact Nat.le_refl _
  rw [append_assoc, cons_append]
  simp only [bothSides, bind_assoc]
  refine hl.reads (by omega) (Nat.le_trans hle (Nat.le_trans hleast op.level_le_left)) hmiddle
    fun t k hk => ?_
  obtain ⟨k, rfl⟩ : ∃ n, k = n + 1 := ⟨k - 1, by omega⟩
  refine .seq .peek ?_
  dsimp only
  rw [Operator.precedence?_eq hop]
  dsimp only
  rw [if_neg (by omega)]
  refine .nextAt fun column => ?_
  have hbinary : Reads (ts' ++ rest) rest (binaryWith (expr w fuel) used op.level op t column) (do
      leftFits op t
      Parse.joined op t (← r' (used + t.expr.slots))) :=
    reads_binary hop column fun _ => hr.complete (by omega) hbehind hstops
  have hround := hbinary.bind fun t' _ => hloop t' k (by omega)
  simpa only [bind_assoc] using hround

/-! ### Names -/

def calledBare (w : Workspace) (id : Nat) : Except Cause Typed :=
  match w.functions[id]? with
  | none => .error .internalError
  | some f =>
    if 0 < f.minArgs then .error .wrongArgumentCount
    else do
      let type ← (resultType f [] .unset).mapError Fault.cause
      return match f.kind with
      | .elemental => ⟨.call id [] type, type, some 0⟩
      | .once => ⟨.once id [] type, type, f.rank.rank?⟩

def variableWhole (w : Workspace) (var : Handle) : Except Cause Typed := do
  let value ← (w.memory.value var).mapError Fault.cause
  return ⟨.whole var, value.type, some value.rank⟩

/-- A name by itself: a truth value, a variable, or a function that needs no arguments. -/
def named (w : Workspace) (name : String) : Except Cause Typed :=
  if Text.sameFolded name "true" then .ok (constant (.logical true))
  else if Text.sameFolded name "false" then .ok (constant (.logical false))
  else
    match w.names.lookup name with
    | .error fault => .error fault.cause
    | .ok (_, .var handle) => variableWhole w handle
    | .ok (_, .func id _) => calledBare w id
    | .ok (_, .package _) => .error .syntaxError

section Names

variable {sub : Sub} {token : Token}

theorem mapError_resultType (f : Function) (types : List ElementType) (column column' : Column) :
    (resultType f types column).mapError Fault.cause =
      (resultType f types column').mapError Fault.cause := by
  rw [resultType, resultType]
  cases f.returns with
  | fixed type => rfl
  | sameAs index =>
    dsimp only
    cases types[index]? <;> rfl
  | nothing => rfl

theorem reads_called {id : Nat} (column : Column) (hparen : token ≠ .leftParen) :
    Reads (token :: later) (token :: later) (callWith w sub fuel used id column)
      (calledBare w id) := by
  rw [callWith, calledBare]
  cases w.functions[id]? with
  | none => exact .throw _
  | some f =>
    refine .seq .peek ?_
    rw [Token.beq_eq_false hparen (by simp)]
    by_cases hargs : 0 < f.minArgs
    · simp only [Bool.false_eq_true, if_false, if_pos hargs]
      exact .throwing _ _
    · have henough : Reads (token :: later) (token :: later) (check (enough f 0 column))
          (.ok ()) := by
        rw [enough, if_neg (by omega)]
        exact .check _
      simp only [Bool.false_eq_true, if_false, if_neg hargs]
      rw [mapError_resultType f [] .unset column]
      refine .seq (.pure _) (.seq (.pure _) ?_)
      cases f.kind with
      | elemental | once =>
        exact .seq (.pure []) (.seq henough ((Reads.check _).bind fun type _ => .pure _))

theorem reads_variable {var : Handle} (hparen : token ≠ .leftParen) (hbrace : token ≠ .leftBrace) :
    Reads (token :: later) (token :: later) (operandWith w sub fuel var) (variableWhole w var) := by
  refine (Reads.check _).bind fun value _ => .seq .peek ?_
  cases token with
  | leftParen => exact absurd rfl hparen
  | leftBrace => exact absurd rfl hbrace
  | _ => exact .pure _

theorem reads_name {name : String} (column : Column) (hparen : token ≠ .leftParen)
    (hbrace : token ≠ .leftBrace) :
    Reads (token :: later) (token :: later) (nameWith w sub fuel used name column)
      (named w name) := by
  rw [nameWith, named]
  cases Text.sameFolded name "true" with
  | true => exact .pure _
  | false => ?_
  cases Text.sameFolded name "false" with
  | true => exact .pure _
  | false => ?_
  cases w.names.lookup name with
  | error fault =>
    dsimp only
    rw [← cause_within fault column]
    exact .throw _
  | ok found =>
    obtain ⟨full, entry⟩ := found
    cases entry with
    | var handle => exact reads_variable hparen hbrace
    | func id preferred => exact reads_called column hparen
    | package index => exact .throw _

end Names

end Parse

/-! ### Trees -/

/-- A constant or a name. -/
inductive Leaf where
  | integer (value : Int)
  | float (value : Float)
  | text (value : String)
  | placeholder
  | name (text : String)

namespace Leaf

def token : Leaf → Token
  | .integer n => .integer n
  | .float x => .float x
  | .text s => .text s
  | .placeholder => .placeholder
  | .name s => .name s

def typed (w : Workspace) : Leaf → Except Cause Typed
  | .integer n => .ok (Parse.constant (.integer n))
  | .float x => .ok (Parse.constant (.float x))
  | .text s => .ok (Parse.constant (.text s))
  | .placeholder => .ok ⟨.placeholder, .integer, none⟩
  | .name s => Parse.named w s

end Leaf

open Parse in
theorem Parse.Atomic.leaf (w : Workspace) (a : Leaf) : Atomic w [a.token] fun _ => a.typed w := by
  refine ⟨.single ?_, ?_, fun {fuel used token later} _ hparen hbrace => ?_⟩
  · cases a <;> rfl
  · intro op later
    cases a <;> simp [Leaf.token]
  · refine .nextAt fun column => ?_
    cases a with
    | name s => exact reads_name column hparen hbrace
    | _ => exact .pure _

/-- A tree of signs and binary operators over constants and names. -/
inductive Formula where
  | leaf (a : Leaf)
  | signed (s : Sign) (e : Formula)
  | joined (op : Operator) (hop : op ≠ .not) (l r : Formula)

def enclosed (ts : List Token) : List Token := .leftParen :: (ts ++ [.rightParen])

namespace Formula

open Parse

/-- What the reader makes of a tree behind operands that take `used` slots. -/
def typed (w : Workspace) : Formula → (used : Nat) → Except Cause Typed
  | .leaf a, _ => a.typed w
  | .signed s e, used => e.typed w used >>= signedBy s used
  | .joined op _ l r, used => bothSides op (l.typed w) (r.typed w) used

/-- The ways to write a tree.  Without parentheses around it, its operator must have at least the
level `least`, and none of the operators that may stand behind it up to the level `bound` may take
its right end away. -/
inductive Writes : (least bound : Nat) → Formula → List Token → Prop
  | leaf {least bound : Nat} (a : Leaf) : Writes least bound (.leaf a) [a.token]
  | parens {least bound : Nat} {e : Formula} {ts : List Token} :
      Writes 0 0 e ts → Writes least bound e (enclosed ts)
  | signed {least bound : Nat} {s : Sign} {e : Formula} {ts : List Token} :
      bound ≤ Sign.level → Writes Sign.level bound e ts →
      Writes least bound (.signed s e) (.operator s.operator :: ts)
  | joined {least bound : Nat} {op : Operator} {hop : op ≠ .not} {l r : Formula}
      {ts ts' : List Token} :
      least ≤ op.level → bound ≤ op.level → Writes op.left op.left l ts →
      Writes op.right bound r ts' →
      Writes least bound (.joined op hop l r) (ts ++ .operator op :: ts')

/-- The tree in a place that asks for a level, with only the parentheses that the ladder asks
for. -/
def bare : Formula → (least : Nat) → List Token
  | .leaf a, _ => [a.token]
  | .signed s e, least =>
    let ts := .operator s.operator :: e.bare Sign.level
    if Sign.level < least then enclosed ts else ts
  | .joined op _ l r, least =>
    let ts := l.bare op.left ++ .operator op :: r.bare op.right
    if op.level < least then enclosed ts else ts

/-- The tree with parentheses around all that is not a leaf. -/
def full : Formula → List Token
  | .leaf a => [a.token]
  | .signed s e => enclosed (.operator s.operator :: e.full)
  | .joined op _ l r => enclosed (l.full ++ .operator op :: r.full)

theorem Writes.readable (h : e.Writes least bound ts) : Readable w least bound ts (e.typed w) := by
  induction h with
  | leaf a => exact (Atomic.leaf w a).primary.readable
  | parens _ ih => exact ih.parens.primary.readable
  | signed hbound _ ih => exact ih.signed _ hbound
  | joined hleast hbound _ _ ihl ihr => exact .joined ‹_› hleast hbound ihl ihr

theorem writes_bare (e : Formula) {m : Nat} (hleast : least ≤ m) (hbound : bound ≤ m) :
    e.Writes least bound (e.bare m) := by
  induction e generalizing least bound m with
  | leaf a => exact .leaf a
  | signed s e ih =>
    rw [bare]
    by_cases hlevel : Sign.level < m
    · rw [if_pos hlevel]
      exact .parens (.signed (Nat.zero_le _) (ih (Nat.le_refl _) (Nat.zero_le _)))
    · have hsign : bound ≤ Sign.level := by omega
      rw [if_neg hlevel]
      exact .signed hsign (ih (Nat.le_refl _) hsign)
  | joined op hop l r ihl ihr =>
    have hleft : l.Writes op.left op.left (l.bare op.left) := ihl (Nat.le_refl _) (Nat.le_refl _)
    rw [bare]
    by_cases hlevel : op.level < m
    · rw [if_pos hlevel]
      exact .parens (.joined (Nat.zero_le _) (Nat.zero_le _) hleft
        (ihr (Nat.le_refl _) (Nat.zero_le _)))
    · have hright : bound ≤ op.right := Nat.le_trans (by omega) op.level_le_right
      rw [if_neg hlevel]
      exact .joined (by omega) (by omega) hleft (ihr (Nat.le_refl _) hright)

theorem writes_full (e : Formula) : e.Writes least bound e.full := by
  induction e generalizing least bound with
  | leaf a => exact .leaf a
  | signed s e ih => exact .parens (.signed (Nat.zero_le _) ih)
  | joined op hop l r ihl ihr => exact .parens (.joined (Nat.zero_le _) (Nat.zero_le _) ihl ihr)

end Formula

/-! ### Complete expressions -/

namespace Parse

theorem Readable.expression
    (h : Readable w 0 0 ts r) (hbehind : Behind 0 rest) : Reads (ts ++ rest) rest (expression w) (r 0) := by
  intro l hl
  have hlength : ts.length ≤ budget l := by
    have hle := hl.length_le h.inside
    have hmost := l.most_le
    rw [budget]
    omega
  exact h.complete hlength hbehind hbehind.stops l hl

/-- The nodes that a complete expression emits, or the cause of its failure. -/
def emitted (result : EStateM.Result Fault Lexer Typed) : Except Cause (List Node) :=
  match result with
  | .ok t _ => .ok (t.expr.code t.type)
  | .error fault _ => .error fault.cause

theorem Leaves.emitted_eq {r : Except Cause Typed} {x : EStateM.Result Fault Lexer Typed}
    (h : Leaves rest r x) : emitted x = r.map fun t => t.expr.code t.type := by
  cases h <;> rfl

end Parse

open Parse in
theorem Formula.Writes.emitted_eq {l : Lexer}
    (h : e.Writes 0 0 ts) (w : Workspace) (hbehind : Behind 0 rest) (hl : l.Shows (ts ++ rest)) :
    emitted (expression w l) = (e.typed w 0).map fun t => t.expr.code t.type :=
  (h.readable.expression hbehind l hl).emitted_eq

open Parse in
/-- **Parentheses that the ladder does not ask for change nothing.**  A tree can be written with only
the parentheses that the ladder asks for and with all of them; all the ways to write it, wherever
they stand in a line, emit the same nodes or fail for the same cause. -/
theorem Formula.emitted_writes (w : Workspace) (e : Formula) :
    e.Writes 0 0 (e.bare 0) ∧ e.Writes 0 0 e.full ∧
      ∀ {ts ts' rest : List Token} {l l' : Lexer}, e.Writes 0 0 ts → e.Writes 0 0 ts' →
        Behind 0 rest → l.Shows (ts ++ rest) → l'.Shows (ts' ++ rest) →
        emitted (expression w l) = emitted (expression w l') := by
  refine ⟨e.writes_bare (Nat.le_refl _) (Nat.le_refl _), e.writes_full, ?_⟩
  intro ts ts' rest l l' hts hts' hbehind hl hl'
  exact (hts.emitted_eq w hbehind hl).trans (hts'.emitted_eq w hbehind hl').symm

/-- Powers to the right, and a negative factor: `2 ^ 3 ^ 2 * -1 + 4`. -/
def Formula.powers : Formula :=
  .joined .plus (by decide)
    (.joined .multiply (by decide)
      (.joined .caret (by decide) (.leaf (.integer 2))
        (.joined .caret (by decide) (.leaf (.integer 3)) (.leaf (.integer 2))))
      (.signed .minus (.leaf (.integer 1))))
    (.leaf (.integer 4))

open Parse in
theorem Formula.emitted_writes_powers :
    Lexer.tokens "2 ^ 3 ^ 2 * -1 + 4" 31 = .ok (powers.bare 0) ∧
      Lexer.tokens "(((2 ^ (3 ^ 2)) * (-1)) + 4)" 31 = .ok powers.full ∧
      emitted (expression (.initial 31) (.ofText "2 ^ 3 ^ 2 * -1 + 4" 31)) =
        emitted (expression (.initial 31) (.ofText "(((2 ^ (3 ^ 2)) * (-1)) + 4)" 31)) := by
  have hbare : Lexer.tokens "2 ^ 3 ^ 2 * -1 + 4" 31 = .ok (powers.bare 0) := by rfl
  have hfull : Lexer.tokens "(((2 ^ (3 ^ 2)) * (-1)) + 4)" 31 = .ok powers.full := by rfl
  have hbehind : Behind 0 [.finish] := behind_mark (by simp [marks])
  obtain ⟨hwrites, hwrites', hsame⟩ := Formula.emitted_writes (.initial 31) powers
  exact ⟨hbare, hfull, hsame hwrites hwrites' hbehind (Lexer.shows_of_tokens hbare)
    (Lexer.shows_of_tokens hfull)⟩

end ArrayCommand
