/-
Which functions a statement calls, and how.

A function that returns nothing cannot stand in an expression: the compiler refuses it there, so that
it is called by commands only.  A command comes with its arguments behind it, and each of them is
handed over as its declaration wants it: a variable only where one is declared, and a name wherever
one is, unless the declaration wants a text that needs no quotes.

Main definitions:

* `Function.Takes` — an argument as a command hands it to its function;
* `Orderly` — nodes in which every command is followed by its arguments, all others being regular.

Main results:

* `Simple.WellTyped.orderly`, `Statement.WellTyped.orderly` — **the program of a well-typed statement is
  orderly**, whatever functions there are;
* `Orderly.answers`, `Orderly.arguments` — what it calls, and what stands behind a command.
-/

import ArrayCommand.Proofs.Headers
import ArrayCommand.Proofs.Allowance

namespace ArrayCommand

open List

variable {w : Workspace}

/-! ### Commands -/

/-- An argument as a command hands it to its function. -/
def Function.Takes (f : Function) (index : Nat) : Argument → Prop
  | .value _ _ => (f.decl index).mode = .name → (f.decl index).type = .literal
  | .reference _ _ => (f.decl index).mode = .reference
  | .name _ => True

theorem Argument.Handed.takes {f : Function} {index : Nat} {a : Argument} (h : a.Handed w f index) :
    f.Takes index a := by
  obtain ⟨-, ⟨actual, type, hactual⟩ | ⟨htype, text, rfl⟩⟩ := h
  · cases hactual with
    | value _ hmode => exact fun hname => by rw [hmode] at hname; cases hname
    | reference _ hmode => exact hmode
    | name => trivial
  · exact fun _ => htype

/-- Nodes in which every command is followed by its arguments; all others are regular. -/
inductive Orderly (w : Workspace) : List Node → Prop
  | nil : Orderly w []
  | cons {node : Node} {nodes : List Node} : node.Regular w → Orderly w nodes →
      Orderly w (node :: nodes)
  | command {func : Nat} {f : Function} {args : List Argument} {nodes : List Node} :
      w.functions[func]? = some f → Argument.AllHanded w f 0 args → Orderly w nodes →
      Orderly w (.command func args.length :: (Argument.codes args ++ nodes))

namespace Orderly

variable {node : Node} {nodes nodes' : List Node}

theorem append (h : Orderly w nodes) (h' : Orderly w nodes') : Orderly w (nodes ++ nodes') := by
  induction h with
  | nil => exact h'
  | cons hnode _ ih => exact .cons hnode ih
  | command hf hargs _ ih =>
    rw [cons_append, append_assoc]
    exact .command hf hargs ih

theorem of_regular (h : Regular w nodes) : Orderly w nodes := by
  induction nodes with
  | nil => exact .nil
  | cons node nodes ih =>
    rw [regular_cons] at h
    exact .cons h.1 (ih h.2)

theorem flatten {groups : List (List Node)} (h : ∀ group ∈ groups, Orderly w group) :
    Orderly w groups.flatten := by
  induction groups with
  | nil => exact .nil
  | cons group groups ih =>
    rw [forall_mem_cons] at h
    exact h.1.append (ih h.2)

/-- All nodes but commands are regular. -/
theorem regular (h : Orderly w nodes) (hmem : node ∈ nodes) :
    node.Regular w ∨ ∃ func argc, node = .command func argc := by
  induction h with
  | nil => cases hmem
  | cons hnode _ ih =>
    rcases mem_cons.mp hmem with rfl | hmem
    · exact .inl hnode
    · exact ih hmem
  | command _ hargs _ ih =>
    rcases mem_cons.mp hmem with rfl | hmem
    · exact .inr ⟨_, _, rfl⟩
    · rcases mem_append.mp hmem with hmem | hmem
      · exact .inl (hargs.regular node hmem)
      · exact ih hmem

/-- Expressions call only functions with a result. -/
theorem answers (h : Orderly w nodes) {func : Nat} (hmem : node ∈ nodes)
    (hcallee : node.callee? = some func) : Answers w.functions func := by
  obtain hnode | ⟨_, _, rfl⟩ := h.regular hmem
  · cases node with
    | call | once =>
      cases hcallee
      exact hnode
    | _ => cases hcallee
  · cases hcallee

theorem arguments (h : Orderly w nodes) {code : Array Node} {start pc func argc : Nat}
    (hplaced : Placed code start nodes) (hstart : start ≤ pc) (hstop : pc < start + nodes.length)
    (hnode : code[pc]? = some (.command func argc)) :
    ∃ f args, w.functions[func]? = some f ∧ argc = args.length ∧ Argument.AllHanded w f 0 args ∧
      Placed code (pc + 1) (Argument.codes args) := by
  induction h generalizing start with
  | nil =>
    simp at hstop
    omega
  | cons hregular _ ih =>
    rcases Nat.eq_or_lt_of_le hstart with rfl | hstart
    · rw [hplaced.head] at hnode
      cases hnode
      exact hregular.elim
    · exact ih hplaced.tail hstart (by rw [length_cons] at hstop; omega)
  | command hf hargs _ ih =>
    rename_i func' f args nodes _
    rcases Nat.eq_or_lt_of_le hstart with rfl | hstart
    · rw [hplaced.head] at hnode
      cases hnode
      exact ⟨f, args, hf, rfl, hargs, hplaced.tail.left⟩
    · have hrest := hplaced.tail
      by_cases hinside : pc < start + 1 + (Argument.codes args).length
      · -- There are no commands among the nodes of arguments.
        have hat := hrest.left (pc - (start + 1)) (by omega)
        rw [Nat.add_sub_cancel' (by omega), hnode] at hat
        exact (hargs.regular _ (mem_of_getElem? hat.symm)).elim
      · refine ih hrest.right (by omega) ?_
        rw [length_cons, length_append] at hstop
        omega

end Orderly

/-! ### Statements -/

theorem Simple.WellTyped.orderly {s : Simple} (h : s.WellTyped w) : Orderly w s.code := by
  cases h with
  | @assign _ _ subscripts _ _ hsubscripts hvalues =>
    have hvalues := Typed.regular_codes fun v hv => (hvalues v hv).1
    refine .cons trivial (.of_regular (regular_append.mpr ⟨?_, hvalues⟩))
    cases subscripts with
    | none => simp [Subscript.codes]
    | some list =>
      obtain ⟨ss, hss⟩ := hsubscripts list rfl
      exact hss.regular
  | command hf _ hargs _ =>
    have horderly := Orderly.command hf hargs .nil
    rwa [append_nil] at horderly
  | declare hextents => exact .cons trivial (.of_regular hextents.regular)

/-- **The program of a well-typed statement is orderly**, wherever it begins. -/
theorem Statement.WellTyped.orderly {s : Statement} (h : s.WellTyped w) (gate pc : Nat) :
    Orderly w (s.code gate pc) := by
  induction s generalizing gate pc with
  | nothing => exact .nil
  | line items =>
    refine .flatten fun nodes hnodes => ?_
    obtain ⟨item, hitem, rfl⟩ := mem_map.mp hnodes
    exact (h item hitem).orderly
  | leap | stop => exact .cons trivial .nil
  | both first second ihf ihs => exact (ihf h.1 _ _).append (ihs h.2 _ _)
  | ifThen test yes ih => exact (Orderly.of_regular h.1.regular).append (.cons trivial (ih h.2 _ _))
  | ifElse test yes no ihy ihn =>
    exact (Orderly.of_regular h.1.regular).append
      (.cons trivial ((ihy h.2.1 _ _).append (.cons trivial (ihn h.2.2 _ _))))
  | «while» test body ih =>
    exact .cons trivial ((Orderly.of_regular h.1.regular).append
      (.cons trivial ((ih h.2 _ _).append (.cons trivial .nil))))
  | «repeat» body test ih =>
    exact .cons trivial ((ih h.1 _ _).append
      ((Orderly.of_regular h.2.regular).append (.cons trivial .nil)))
  | count var first last step body ih =>
    have hbounds := Typed.regular_codes fun t ht => (h.2.1 t ht).1
    refine (Orderly.of_regular hbounds).append (.cons trivial (.cons trivial (.cons h.1 ?_)))
    exact (ih h.2.2 _ _).append (.cons trivial .nil)

end ArrayCommand
