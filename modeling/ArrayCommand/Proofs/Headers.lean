/-
The types in the headers of expressions.

The code of an expression begins with a header, in which the type of its value is written.  A value
that is computed is put into a cell of this type.  An argument that is passed by reference or by name
is not computed; its header tells the type of the variable, or that a name is a text, and well-typed
statements have no other headers.

Main definitions:

* `Header.Tells` — a header that tells the type of what it stands for;
* `Node.Regular`, `Regular` — a node as well-typed statements have it, and code that has no others.

Main results:

* `Term.Elaborates.regular` — the code of a well-typed expression is regular;
* `Evaluate.type_expression` — **the value of an expression has the type of its header**.
-/

import ArrayCommand.Proofs.PartialWrites
import ArrayCommand.Proofs.Typing

namespace ArrayCommand

open ArrayCommand.Expr

variable {w : Workspace} {f : Function} {column : Column} {type : ElementType} {t : Typed}
  {pc fuel : Nat} {header : Header} {fill : Option Shape}

/-! ### Headers -/

/-- A header tells the type of what it stands for, unless that is computed. -/
def Header.Tells (w : Workspace) (header : Header) : Prop :=
  match header.access with
  | .value => True
  | .reference var => ∃ cell, w.memory.value var = .ok cell ∧ cell.type = header.type
  | .name _ => header.type = .text

section Code

/-! ### Expressions -/

/-- A function of a table that returns something, if there is one of the number. -/
def Answers (table : Array Function) (func : Nat) : Prop :=
  ∀ f, table[func]? = some f → f.returns ≠ .nothing

theorem Parse.answers_of_resultType {table : Array Function} {func : Nat} {types : List ElementType}
    (hf : table[func]? = some f) (h : resultType f types column = .ok type) : Answers table func := by
  intro g hg hnothing
  obtain rfl : f = g := by simpa [hf] using hg
  rw [resultType, hnothing] at h
  cases h

/-- A node as well-typed statements have it, if it is no command: a header tells its type, a function
that is called returns something, and a loop counts in a variable that may be written. -/
def Node.Regular (w : Workspace) : Node → Prop
  | .expr header => header.Tells w
  | .call func _ _ => Answers w.functions func
  | .once _ func _ _ => Answers w.functions func
  | .command _ _ => False
  | .loopCounter var _ _ => w.Numbers var
  | _ => True

def Regular (w : Workspace) (nodes : List Node) : Prop := ∀ node ∈ nodes, node.Regular w

section Regular

variable {node : Node} {nodes front back : List Node}

@[simp] theorem regular_nil : Regular w [] := fun _ h => by cases h

@[simp] theorem regular_cons : Regular w (node :: nodes) ↔ node.Regular w ∧ Regular w nodes :=
  List.forall_mem_cons

@[simp] theorem regular_append : Regular w (front ++ back) ↔ Regular w front ∧ Regular w back :=
  List.forall_mem_append

@[simp] theorem regular_coercion (needed : Bool) (want : ElementType) (depth : Nat) :
    Regular w (coercion needed want depth) := by
  cases needed <;> simp [coercion, Node.Regular]

@[simp] theorem regular_headed (type : ElementType) (slots : Nat) :
    Regular w (headed type slots front back) ↔ Regular w front ∧ Regular w back := by
  simp [headed, Node.Regular, Header.Tells]

end Regular

/-- The nodes of a tree are regular, whatever its slots are. -/
def Expr.Regular (w : Workspace) (e : Expr) : Prop :=
  ∀ slot, ArrayCommand.Regular w (e.prologue slot) ∧ ArrayCommand.Regular w (e.body slot)

section Trees

variable {t' : Typed}

theorem Expr.Regular.code {e : Expr} (h : e.Regular w) (type : ElementType) :
    ArrayCommand.Regular w (e.code type) := by
  simp [Expr.code, h 0]

theorem Expr.regular_const (value : Scalar) : (const value).Regular w := by
  intro slot
  simp [prologue, body, Node.Regular]

theorem Parse.regular_convert {want : ElementType} (h : convert t want column = .ok t')
    (ht : t.expr.Regular w) : t'.expr.Regular w := by
  unfold convert at h
  split at h
  · cases h
    exact ht
  · split at h
    · cases h
      intro slot
      simp [prologue, body, Node.Regular, ht slot]
    · cases h

theorem Parse.regular_accept {decl : ArgDecl} (h : accept t decl column = .ok t')
    (ht : t.expr.Regular w) : t'.expr.Regular w := by
  unfold accept at h
  split at h
  · exact regular_convert h ht
  · exact regular_convert h ht
  · exact regular_convert h ht
  · exact regular_convert h ht
  · exact regular_convert h ht
  · cases h
    exact ht
  · split at h
    · cases h
      exact ht
    · cases h

end Trees

mutual

theorem Term.Elaborates.regular {s : Term} {t : Typed} :
    Term.Elaborates w s t → t.expr.Regular w
  | .literal value => regular_const value
  | .placeholder => fun slot => by simp [prologue, body, Node.Regular]
  | .whole _ => fun slot => by simp [prologue, body, Node.Regular]
  | .cast _ hs _ => fun slot => by simp [prologue, body, Node.Regular, hs.regular]
  | .slice _ hs _ => fun slot => by simp [prologue, body, Node.Regular, hs.regular]
  | .once hf _ hargs _ htype => fun slot => by
    simp [prologue, body, Node.Regular, hargs.regular, Parse.answers_of_resultType hf htype]
  | .call hf _ hargs _ htype => fun slot => by
    simp [prologue, body, Node.Regular, hargs.regular, Parse.answers_of_resultType hf htype]
  | .part htext _ hfirst hlast => fun slot => by
    simp [prologue, body, Node.Regular, htext.regular _, hfirst.regular _, hlast.regular _]
  | .plus hs _ => hs.regular
  | .minus hs _ => fun slot => by simp [prologue, body, Node.Regular, hs.regular slot]
  | .folded _ _ _ => regular_const _
  | .not hs _ => fun slot => by simp [prologue, body, Node.Regular, hs.regular slot]
  | .binary hl hr _ => fun slot => by
    simp [prologue, body, Node.Regular, hl.regular _, hr.regular _]
  | .and hl hr _ _ => fun slot => by
    simp [prologue, body, Node.Regular, hl.regular _, hr.regular _]
  | .or hl hr _ _ => fun slot => by
    simp [prologue, body, Node.Regular, hl.regular _, hr.regular _]

theorem Term.IsInteger.regular {s : Term} {e : Expr} : Term.IsInteger w s e → e.Regular w
  | .intro hs hconvert => Parse.regular_convert hconvert hs.regular

theorem Term.MayBeInteger.regular {o : Option Term} {e : Option Expr} :
    Term.MayBeInteger w o e → ∀ slot, Regular w (prologueOption slot e) ∧
      Regular w (bodyOption slot e)
  | .none, _ => by simp [prologueOption, bodyOption]
  | .some hs, slot => by simp [prologueOption, bodyOption, hs.regular slot]

theorem Term.MayBeInteger.regular_code {o : Option Term} {e : Option Expr} :
    Term.MayBeInteger w o e → Regular w (codeOption e)
  | .none => by simp [codeOption]
  | .some hs => by simp [codeOption, hs.regular 0]

theorem Term.AreIntegers.regular {ss : List Term} {es : List Expr} :
    Term.AreIntegers w ss es → Regular w (codes es)
  | .nil => by simp [codes]
  | .cons hs hss => by simp [codes, hs.regular 0, hss.regular]

theorem Term.AreHanded.regular {f : Function} {index : Nat} {ss : List Term} {ts : List Typed} :
    Term.AreHanded w f index ss ts → ∀ slot,
      Regular w (prologues slot (ts.map Typed.expr)) ∧ Regular w (bodies slot (ts.map Typed.expr))
  | .nil _ _, _ => by simp [prologues, bodies]
  | .cons _ _ hs haccept hss, slot => by
    simp [prologues, bodies, Parse.regular_accept haccept hs.regular slot, hss.regular _]

theorem Selector.Elaborate.regular {ss : List Selector} {subscripts : List Subscript} :
    Selector.Elaborate w ss subscripts → Regular w (Subscript.codes subscripts)
  | .nil => by simp [Subscript.codes]
  | .all hss => by simp [Subscript.codes, Subscript.code, hss.regular]
  | .at hs hss => by simp [Subscript.codes, Subscript.code, hs.regular 0, hss.regular]
  | .range hfirst hlast hstep hss => by
    simp [Subscript.codes, Subscript.code, hfirst.regular_code, hlast.regular_code, hstep.regular_code,
      hss.regular]

theorem Actual.Elaborate.regular {f : Function} {index : Nat} {as : List Actual}
    {args : List (Argument × ElementType)} :
    Actual.Elaborate w f index as args → Regular w (Argument.codes (args.map Prod.fst))
  | .nil _ _ => by simp [Argument.codes]
  | .value _ _ hs haccept hargs => by
    simp [Argument.codes, Argument.code, Parse.regular_accept haccept hs.regular 0,
      hargs.regular]
  | .reference _ _ hvar _ hargs => by
    simp [Argument.codes, Argument.code, bareHeader, Node.Regular, Header.Tells, hvar, hargs.regular]
  | .name _ _ hargs => by
    simp [Argument.codes, Argument.code, bareHeader, Node.Regular, Header.Tells, hargs.regular]

end

theorem Typed.WellTyped.regular (h : t.WellTyped w) : Regular w (t.expr.code t.type) := by
  obtain ⟨s, hs⟩ := h
  exact hs.regular.code t.type

theorem Typed.regular_codes {values : List Typed} (h : ∀ v ∈ values, v.WellTyped w) :
    Regular w (Typed.codes values) := by
  intro node hnode
  obtain ⟨nodes, hnodes, hnode⟩ := List.mem_flatten.mp hnode
  obtain ⟨v, hv, rfl⟩ := List.mem_map.mp hnodes
  exact (h v hv).regular node hnode

theorem Expr.IsCondition.regular {test : Expr} (h : test.IsCondition w) :
    ArrayCommand.Regular w (test.code .logical) := by
  obtain ⟨t, ht, hlogical, rfl⟩ := h
  exact hlogical ▸ ht.regular

theorem Argument.AllHanded.regular {index : Nat} {args : List Argument}
    (h : AllHanded w f index args) : Regular w (Argument.codes args) := by
  induction h with
  | nil => simp [Argument.codes]
  | cons ha _ ih =>
    refine regular_append.mpr ⟨?_, ih⟩
    obtain ⟨-, ⟨actual, type, hactual⟩ | ⟨-, text, rfl⟩⟩ := ha
    · simpa [Argument.codes] using hactual.regular
    · exact (regular_const (.text text)).code .text

end Code

/-! ### Values -/

theorem Cell.type_allocate {shape : Shape} {owner : Owner} {c : Cell}
    (h : Cell.allocate type shape owner = .ok c) : c.type = type :=
  Cell.allocate_ok h ▸ Data.type_zeroed _ _

namespace Evaluate

open Machine

variable {cell : Cell} {m m' : Machine}

theorem type_elements {value : Element → MachineM Scalar} {indices : List Index} {number : Nat}
    {out : Cell} (h : elements value indices number out m = .ok cell m') :
    cell.type = out.type := by
  induction indices generalizing number out m with
  | nil =>
    cases h
    rfl
  | cons index rest ih =>
    obtain ⟨_, m₁, -, h⟩ := bind_eq_ok.mp h
    obtain ⟨s, m₂, -, h⟩ := bind_eq_ok.mp h
    obtain ⟨next, m₃, hset, h⟩ := bind_eq_ok.mp h
    exact (ih h).trans (Cell.set_frame (check_eq_ok.mp hset).1).1

theorem type_computed {sub : Sub} {code : Array Node}
    (h : computed sub code pc header fill fuel m = .ok cell m') : cell.type = header.type := by
  obtain ⟨_, m₁, -, h⟩ := bind_eq_ok.mp h
  obtain ⟨shape, m₂, -, h⟩ := bind_eq_ok.mp h
  obtain ⟨out, m₃, hout, h⟩ := bind_eq_ok.mp h
  exact (type_elements h).trans (Cell.type_allocate (check_eq_ok.mp hout).1)

theorem type_expression {code : Array Node} (htells : header.Tells w) (hlater : w.Later m.workspace)
    (hheader : code[pc]? = some (.expr header)) (h : expression code fuel pc fill m = .ok cell m') :
    cell.type = header.type := by
  cases fuel with
  | zero => cases h
  | succ fuel =>
    rw [expression, hheader] at h
    rw [Header.Tells] at htells
    dsimp only at h
    cases haccess : header.access with
    | value =>
      rw [haccess] at h
      exact type_computed h
    | reference var =>
      rw [haccess] at h htells
      obtain ⟨value, hvalue, htype⟩ := htells
      obtain ⟨now, m₁, hnow, h⟩ := bind_eq_ok.mp h
      cases h
      exact (hlater.types hvalue (valueOf_eq_ok.mp hnow).1).trans htype
    | name text =>
      rw [haccess] at h htells
      cases h
      exact htells.symm

end Evaluate

end ArrayCommand
