/-
Parameters.

A parameter is a variable that is not to be changed.  Assignments, commands that take it by reference
and `delete` test for that when the program is run, and a counted loop is not compiled if its variable
is a parameter.  A declaration does not test it: it may give a parameter of the same type other
extents, and with them other elements.  That is the only way in which a parameter changes.

* `Compiler.writable_of_compile` — the loops of a statement count in variables that may be written;
* `Workspace.Change.parameter` — a single change of a program;
* `Session.Onward` — statements one after another;
* `Session.Onward.keeps_parameter` — what they leave of a parameter.
-/

import ArrayCommand.Proofs.Callees
import ArrayCommand.Proofs.Correspondence

namespace ArrayCommand

variable {var : Handle} {name : String} {v : Variable}

/-! ### Counters in the nodes -/

theorem Compiler.writable_of_compile {σ : Type} {source : LineSource σ} {maxName fuel : Nat}
    {line : String} {c c' : Compiler σ} (hempty : c.program.nodes = #[]) (hloops : c.loops = [])
    (hm : c.workspace.memory.Consistent)
    (h : Compiler.compile source maxName fuel line c = .ok () c')
    {state : Option LoopState} {exit : Int} (hnode : .loopCounter var state exit ∈ c'.program.nodes) :
    ∃ v, c'.workspace.memory.get? var = some v ∧ v.value.owner.isWritable = true := by
  obtain ⟨lines, tree, -, hwritten, -, hnodes, -⟩ := compile_ok hempty hloops h
  rw [hnodes, List.mem_toArray] at hnode
  obtain ⟨cell, hcell, -, hwritable⟩ | ⟨_, _, hcommand⟩ :=
    ((hwritten.lasting.now hm).orderly 0 0).regular hnode
  · obtain ⟨v, hv, rfl⟩ := Memory.value_eq_ok.mp hcell
    exact ⟨v, hv, hwritable⟩
  · cases hcommand

/-! ### A parameter in a workspace -/

namespace NameTable

variable {α : Type} {t : NameTable α}

theorem get?_remove {other : String} (h : Text.fold name ≠ Text.fold other) :
    (t.remove other).get? name = t.get? name := by
  rw [get?, get?, find?, find?, remove, List.find?_filter]
  congr 2
  funext entry
  by_cases hentry : entry.1 = Text.fold name
  · simp [hentry, h]
  · simp [hentry]

theorem Distinct.get?_eq (ht : t.Distinct) {payload : α}
    (h : (Text.fold name, payload) ∈ t.entries) : t.get? name = some payload := by
  cases hget : t.get? name with
  | none => exact absurd rfl (find?_eq_none.mp hget _ h)
  | some other => rw [ht.eq h (mem_of_find? hget)]

end NameTable

/-- A name that stands for a variable. -/
structure Workspace.Holds (w : Workspace) (name : String) (var : Handle) (v : Variable) : Prop where
  entry : w.names.get? name = some (.var var)
  content : w.memory.get? var = some v

/-- What becomes of a variable by declarations, if there are any. -/
structure Variable.Kept (declared : Prop) (v v' : Variable) : Prop where
  name : v'.name = v.name
  value : Relation.ReflTransGen
    (fun c c' => declared ∧ ∃ shape, Control.redeclared c shape = .ok c') v.value v'.value

namespace Variable.Kept

variable {declared declared' : Prop} {v' v'' : Variable}

theorem refl (v : Variable) : Kept declared v v := ⟨rfl, .refl⟩

theorem trans (h : Kept declared v v') (h' : Kept declared v' v'') : Kept declared v v'' :=
  ⟨h'.name.trans h.name, h.value.trans h'.value⟩

theorem mono (himp : declared → declared') (h : Kept declared v v') : Kept declared' v v' :=
  ⟨h.name, h.value.lift id fun _ _ hstep => ⟨himp hstep.1, hstep.2⟩⟩

theorem akin (h : Kept declared v v') : v.value.Akin v'.value := by
  have hvalue := h.value
  generalize v'.value = c' at hvalue
  induction hvalue with
  | refl => exact ⟨rfl, rfl⟩
  | tail _ hstep ih =>
    obtain ⟨-, shape, hshape⟩ := hstep
    have hakin := Cell.akin_redeclared hshape
    exact ⟨hakin.1.trans ih.1, hakin.2.trans ih.2⟩

theorem eq (h : Kept declared v v') (hnot : ¬ declared) : v' = v := by
  have hvalue : v'.value = v.value := by
    rcases h.value.cases_head with heq | ⟨_, hstep, -⟩
    · exact heq.symm
    · exact absurd hstep.1 hnot
  cases v
  cases v'
  cases h.name
  cases hvalue
  rfl

end Variable.Kept

namespace Workspace

variable {w w' : Workspace} {code : Array Node}

theorem Holds.withValue {other : Handle} {value : Cell} (h : w.Holds name var v)
    (hne : var ≠ other) : (w.withValue other value).Holds name var v := by
  refine ⟨h.entry, ?_⟩
  change (w.memory.update other value).get? var = some v
  rw [Memory.get?_update, if_neg hne]
  exact h.content

/-- A single change of a program leaves a parameter as it is, unless it is a declaration. -/
theorem Change.parameter (hcounter : ∀ state exit, .loopCounter var state exit ∉ code)
    (h : w.Change code w') (hw : w.Holds name var v) (hparameter : v.value.owner = .parameter) :
    ∃ v', w'.Holds name var v' ∧
      v.Kept (∃ (pc : Nat) (dims : Nat), code[pc]? = some (.declare var dims)) v' := by
  have hne {other : Handle} {u : Variable} (hother : w.memory.get? other = some u)
      (howner : u.value.owner ≠ .parameter) : var ≠ other := by
    rintro rfl
    cases hw.content.symm.trans hother
    exact howner hparameter
  cases h with
  | @write other u value hvar hwritable hakin =>
    refine ⟨v, hw.withValue (hne hvar ?_), .refl v⟩
    intro howner
    rw [howner] at hwritable
    cases hwritable
  | @count pc other state exit u value hnode hvar hakin =>
    refine ⟨v, hw.withValue ?_, .refl v⟩
    rintro rfl
    exact hcounter state exit (Array.mem_of_getElem? hnode)
  | @delete other target u hname hvar hdeletable =>
    have htarget : var ≠ target := hne hvar fun howner => by rw [howner] at hdeletable; cases hdeletable
    refine ⟨v, ⟨?_, ?_⟩, .refl v⟩
    · refine (NameTable.get?_remove fun hfold => htarget ?_).trans hw.entry
      have hentry := hw.entry
      rw [NameTable.get?, hfold] at hentry
      cases hentry.symm.trans hname
      rfl
    · change (w.memory.remove target).get? var = some v
      rw [Memory.get?_remove, if_neg htarget]
      exact hw.content
  | @declare pc dims other u shape value hnode hvar hvalue =>
    by_cases hother : var = other
    · subst hother
      cases hw.content.symm.trans hvar
      refine ⟨{ v with value }, ⟨hw.entry, ?_⟩, rfl, .single ⟨⟨pc, dims, hnode⟩, shape, hvalue⟩⟩
      change (w.memory.update var value).get? var = _
      rw [Memory.get?_update, if_pos rfl, hvar]
      rfl
    · exact ⟨v, hw.withValue hother, .refl v⟩

theorem keeps_parameter_of_run (hcounter : ∀ state exit, .loopCounter var state exit ∉ code)
    (h : Relation.ReflTransGen (Change code) w w') (hw : w.Holds name var v)
    (hparameter : v.value.owner = .parameter) :
    ∃ v', w'.Holds name var v' ∧
      v.Kept (∃ (pc : Nat) (dims : Nat), code[pc]? = some (.declare var dims)) v' := by
  induction h with
  | refl => exact ⟨v, hw, .refl v⟩
  | tail _ hchange ih =>
    obtain ⟨v₁, hv₁, hkept⟩ := ih
    have howner : v₁.value.owner = .parameter := hkept.akin.2.trans hparameter
    obtain ⟨v₂, hv₂, hkept'⟩ := hchange.parameter hcounter hv₁ howner
    exact ⟨v₂, hv₂, hkept.trans hkept'⟩

theorem Holds.grows {created : List (String × Handle)} (hw : w.Holds name var v)
    (hm : w.memory.Consistent) (hdistinct : w'.names.Distinct) (h : w.Grows created w') :
    w'.Holds name var v := by
  have hadditions := h.additions hm
  have hentry := NameTable.mem_of_find? hw.entry
  exact ⟨hdistinct.get?_eq (hadditions.entries.subset hentry), hadditions.kept var v hw.content⟩

end Workspace

/-! ### A parameter in a session -/

namespace Session

variable [Outside] {s : Session}

/-- A statement leaves a parameter as it is, but for the declarations in it. -/
theorem keeps_parameter_of_statement {spared : Handle → Prop} {plain : Prop}
    (fuel : Nat) (line : String) (hs : s.workspace.Matched spared plain)
    (hw : s.workspace.Holds name var v) (hparameter : v.value.owner = .parameter) :
    ∃ v', (s.statement fuel line).2.workspace.Holds name var v' ∧
      v.Kept (∃ (pc : Nat) (dims : Nat),
        (s.statement fuel line).2.program.nodes[pc]? = some (.declare var dims)) v' := by
  have hruns := runs_statement fuel line s
  generalize (s.statement fuel line).2.program.nodes = code at hruns ⊢
  generalize (s.statement fuel line).2.workspace = w' at hruns ⊢
  cases hruns with
  | refused hworkspace hcreated hcompile =>
    obtain ⟨created, grown, hgrows, hworkspace'⟩ :=
      Compiler.grows_of_compile_error hcreated hcompile
    have halike := (hworkspace ▸ hgrows).rollback hs.consistent
    rw [← hworkspace'] at halike
    exact ⟨v, ⟨halike.names ▸ hw.entry, (halike.get? var).trans hw.content⟩, .refl v⟩
  | ran hworkspace hempty hloops hcompile hrun =>
    obtain ⟨created, hgrows⟩ := Compiler.grows_of_compile hcompile
    rw [hworkspace] at hgrows
    have hgrown := hw.grows hs.consistent (hs.grows hgrows).distinct hgrows
    refine Workspace.keeps_parameter_of_run (fun state exit hnode => ?_) hrun hgrown hparameter
    -- The loops of the program count in variables that may be written; this one may not.
    obtain ⟨u, hu, hwritable⟩ :=
      Compiler.writable_of_compile hempty hloops (hworkspace ▸ hs.consistent) hcompile hnode
    cases hgrown.content.symm.trans hu
    rw [hparameter] at hwritable
    cases hwritable

/-- Statements one after another whose programs declare some variables only.  Between them the input
and the host may change. -/
inductive Onward (declared : Handle → Prop) (s : Session) : Session → Prop
  | start : Onward declared s s
  | statement (fuel : Nat) (line : String) {s' : Session} (h : Onward declared s s')
      (hdeclared : ∀ (pc : Nat) (var : Handle) (dims : Nat),
        (s'.statement fuel line).2.program.nodes[pc]? = some (.declare var dims) → declared var) :
      Onward declared s (s'.statement fuel line).2
  | aside {s' s'' : Session} (h : Onward declared s s') (hworkspace : s''.workspace = s'.workspace) :
      Onward declared s s''

theorem Onward.reached {settings : Settings} {allowed : Module → Prop} {declared : Handle → Prop}
    {s' : Session} (h : Onward declared s s') (hs : Reached settings allowed s) :
    Reached settings allowed s' := by
  induction h with
  | start => exact hs
  | statement fuel line _ _ ih => exact ih.statement fuel line
  | aside _ hworkspace ih => exact ih.aside hworkspace

/-- A parameter stays defined under its name, with its type and its owner, whatever statements are
made, and its value is changed by declarations of it only. -/
theorem Onward.keeps_parameter {settings : Settings} {allowed : Module → Prop}
    {declared : Handle → Prop} {s s' : Session} (hs : Reached settings allowed s)
    (h : Onward declared s s') (hname : s.workspace.names.get? name = some (.var var))
    (hvar : s.workspace.memory.get? var = some v) (hparameter : v.value.owner = .parameter) :
    s'.workspace.names.get? name = some (.var var) ∧
      ∃ v', s'.workspace.memory.get? var = some v' ∧ v'.name = v.name ∧
        v'.value.type = v.value.type ∧ v'.value.owner = .parameter ∧
        Relation.ReflTransGen (fun c c' => ∃ shape, Control.redeclared c shape = .ok c')
          v.value v'.value ∧
        (¬ declared var → v' = v) := by
  have hkept : ∃ v', s'.workspace.Holds name var v' ∧ v.Kept (declared var) v' := by
    induction h with
    | start => exact ⟨v, ⟨hname, hvar⟩, .refl v⟩
    | statement fuel line hbefore hdeclared ih =>
      obtain ⟨v₁, hv₁, hkept⟩ := ih
      have howner : v₁.value.owner = .parameter := hkept.akin.2.trans hparameter
      obtain ⟨v₂, hv₂, hkept'⟩ :=
        keeps_parameter_of_statement fuel line (hbefore.reached hs).matched hv₁ howner
      refine ⟨v₂, hv₂, hkept.trans (hkept'.mono ?_)⟩
      rintro ⟨pc, dims, hnode⟩
      exact hdeclared pc var dims hnode
    | aside _ hworkspace ih => exact hworkspace ▸ ih
  obtain ⟨v', hv', hkept⟩ := hkept
  refine ⟨hv'.entry, v', hv'.content, hkept.name, hkept.akin.1, hkept.akin.2.trans hparameter, ?_,
    hkept.eq⟩
  exact hkept.value.lift id fun _ _ hstep => hstep.2

def declares : Node → Bool
  | .declare _ _ => true
  | _ => false

end Session

namespace Session

open scoped Cabinet

/-- An assignment that reads a parameter leaves it as it is. -/
theorem keeps_parameter_assignment :
    ((Session.initial {} []).statement 60 "x = pi").2.workspace.memory.get? ⟨0, 0⟩ =
      (Session.initial {} []).workspace.memory.get? ⟨0, 0⟩ := by
  have hinitial : (Session.initial {} []).workspace.names.get? "pi" = some (.var ⟨0, 0⟩) ∧
      ((Session.initial {} []).workspace.memory.get? ⟨0, 0⟩).map (·.value.owner) =
        some .parameter ∧
      ((Session.initial {} []).statement 60 "x = pi").2.program.nodes.all (! declares ·) := by
    decide +kernel
  obtain ⟨hname, howner, hnodes⟩ := hinitial
  obtain ⟨v, hv, howner⟩ := Option.map_eq_some_iff.mp howner
  have honward : Onward (fun _ => False) (.initial {} [])
      ((Session.initial {} []).statement 60 "x = pi").2 := by
    refine .statement 60 "x = pi" .start fun pc var dims hnode => ?_
    have hall := Array.all_eq_true'.mp hnodes _ (Array.mem_of_getElem? hnode)
    cases hall
  have hreached : Reached {} (fun _ => False) (.initial {} []) := .initial []
  obtain ⟨-, v', hv', -, -, -, -, heq⟩ :=
    Onward.keeps_parameter hreached honward hname hv howner
  rw [hv', hv, heq id]

/-- A declaration gives a parameter other extents. -/
theorem parameter_redeclared :
    ((Session.initial {} []).value? "pi").map (fun c => (c.owner, c.size)) =
        some (.parameter, 1) ∧
      (((Session.initial {} []).statement 60 "float pi(3)").2.value? "pi").map
        (fun c => (c.owner, c.size)) = some (.parameter, 3) := by
  decide +kernel

end Session

end ArrayCommand
