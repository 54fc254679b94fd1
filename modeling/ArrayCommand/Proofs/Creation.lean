/-
What compilation does to the names and the variables.

A statement creates variables while its lines are read: by assignments, by declarations and by
counted loops.  Nothing else of the workspace is touched, and what was created is remembered, the
last name first.  If the statement fails, the names are withdrawn in that order, which takes every
one of them back out of a table that is as it was right behind its creation.

* `Workspace.Grows` — the workspaces that creations lead to, and what is remembered of them;
* `Workspace.Alike` — the same names and the same variables under the same handles;
* `Workspace.Grows.rollback` — withdrawing what is remembered leads back;
* `Workspace.Additions`, `Workspace.Grows.additions` — what there is behind creations;
* `Compiler.Compiling`, `Compiler.moves_topLevel` — what holds across every creation and every line
  that is drawn holds across compilation;
* `Compiler.compiling_adds` — compilation only creates;
* `Compiler.compile_atomic` — a failed compilation leaves no trace, and a successful one only adds.
-/

import ArrayCommand.Proofs.ControlFlow
import ArrayCommand.Proofs.Frame
import ArrayCommand.Proofs.Storage

namespace ArrayCommand

open Program Memory Text

variable {w w₂ w' : Workspace} {fault : Fault} {failure : Failure}

/-! ### Creations -/

namespace Workspace

variable {w₁ : Workspace} {created : List (String × Handle)}

/-- The workspaces that creations of fresh variables lead to, with the folded names and the handles
of the variables, the last one first.  A name that is refused leaves a used slot in memory. -/
inductive Grows (w : Workspace) : List (String × Handle) → Workspace → Prop
  | nothing : Grows w [] w
  | create {created : List (String × Handle)} {w₁ w₂ : Workspace} {name : String}
      {type : ElementType} {shape : Shape} {handle : Handle} (before : Grows w created w₁)
      (h : create name (Cell.fresh type shape .declared) w₁ = .ok handle w₂) :
      Grows w ((Text.fold name, handle) :: created) w₂
  | refused {created : List (String × Handle)} {w₁ w₂ : Workspace} {name : String}
      {type : ElementType} {shape : Shape} {fault : Fault} (before : Grows w created w₁)
      (h : Workspace.create name (Cell.fresh type shape .declared) w₁ = .error fault w₂) :
      Grows w created w₂

theorem Grows.trans {created' : List (String × Handle)} (h : Grows w created w₁)
    (h' : Grows w₁ created' w₂) : Grows w (created' ++ created) w₂ := by
  induction h' with
  | nothing => exact h
  | create _ hcreate ih => exact .create ih hcreate
  | refused _ hcreate ih => exact .refused ih hcreate

/-- The same names, functions and modules, and the same variables under the same handles. -/
structure Alike (w w' : Workspace) : Prop where
  names : w'.names = w.names
  functions : w'.functions = w.functions
  modules : w'.modules = w.modules
  get? : ∀ h, w'.memory.get? h = w.memory.get? h

namespace Alike

theorem refl (w : Workspace) : Alike w w := ⟨rfl, rfl, rfl, fun _ => rfl⟩

theorem trans (h : Alike w w₁) (h' : Alike w₁ w₂) : Alike w w₂ :=
  ⟨h'.names.trans h.names, h'.functions.trans h.functions, h'.modules.trans h.modules,
    fun k => (h'.get? k).trans (h.get? k)⟩

theorem withdraw (h : Alike w w') (name : String) (handle : Handle) :
    Alike (w.withdraw name handle) (w'.withdraw name handle) where
  names := congrArg (NameTable.remove · name) h.names
  functions := h.functions
  modules := h.modules
  get? k := by
    change (w'.memory.remove handle).get? k = (w.memory.remove handle).get? k
    rw [get?_remove, get?_remove, h.get?]

theorem withdrawAll (h : Alike w w') (created : List (String × Handle)) :
    Alike (created.foldl (fun w (name, handle) => w.withdraw name handle) w)
      (created.foldl (fun w (name, handle) => w.withdraw name handle) w') := by
  induction created generalizing w w' with
  | nil => exact h
  | cons first rest ih => exact ih (h.withdraw first.1 first.2)

end Alike

/-! #### One creation -/

variable {name : String} {value : Cell} {handle : Handle}

theorem create_eq_ok (h : create name value w = .ok handle w') :
    ∃ old, w.names.insert (fold name) (.var handle) false = .ok (w'.names, old) ∧
      w'.memory = (w.memory.insert (fold name) value).1 ∧
      handle = (w.memory.insert (fold name) value).2 ∧
      w'.functions = w.functions ∧ w'.modules = w.modules := by
  unfold create at h
  dsimp only at h
  split at h
  case h_1 names old hinsert =>
    cases h
    exact ⟨old, hinsert, rfl, rfl, rfl, rfl⟩
  case h_2 => cases h

/-- A creation that is refused is not seen. -/
theorem alike_of_refused (hm : w.memory.Consistent) (h : create name value w = .error fault w') :
    Alike w w' ∧ w'.memory.Consistent := by
  unfold create at h
  dsimp only at h
  split at h
  case h_1 => cases h
  case h_2 =>
    cases h
    refine ⟨⟨rfl, rfl, rfl, fun k => ?_⟩, (hm.insert _ _).remove _⟩
    rw [get?_remove]
    split
    case isTrue hk => rw [hk, get?_insert_handle hm]
    case isFalse hk => rw [get?_insert hm, if_neg hk]

theorem get?_create (hm : w.memory.Consistent) (h : create name value w = .ok handle w')
    (k : Handle) :
    w'.memory.get? k = if k = handle then some ⟨fold name, value⟩ else w.memory.get? k := by
  obtain ⟨-, -, hmemory, hhandle, -⟩ := create_eq_ok h
  rw [hmemory, get?_insert hm, ← hhandle]

/-- A new variable is under a handle that stood for nothing. -/
theorem get?_created (hm : w.memory.Consistent) (h : create name value w = .ok handle w') :
    w.memory.get? handle = none := by
  obtain ⟨-, -, -, hhandle, -⟩ := create_eq_ok h
  rw [hhandle]
  exact get?_insert_handle hm _ _

theorem consistent_create (hm : w.memory.Consistent) (h : create name value w = .ok handle w') :
    w'.memory.Consistent := by
  obtain ⟨-, -, hmemory, -⟩ := create_eq_ok h
  rw [hmemory]
  exact hm.insert _ _

theorem alike_withdraw_create (hm : w.memory.Consistent)
    (h : create name value w = .ok handle w') : Alike w (w'.withdraw (fold name) handle) := by
  obtain ⟨old, hnames, -, -, hfunctions, hmodules⟩ := create_eq_ok h
  refine ⟨NameTable.remove_insert rfl hnames, hfunctions, hmodules, fun k => ?_⟩
  change (w'.memory.remove handle).get? k = _
  rw [get?_remove]
  split
  case isTrue hk => rw [hk, get?_created hm h]
  case isFalse hk => rw [get?_create hm h, if_neg hk]

/-! #### Many creations -/

theorem Grows.consistent (h : Grows w created w') (hm : w.memory.Consistent) :
    w'.memory.Consistent := by
  induction h with
  | nothing => exact hm
  | create _ hcreate ih => exact consistent_create ih hcreate
  | refused _ hcreate ih => exact (alike_of_refused ih hcreate).2

theorem Grows.rollback (h : Grows w created w') (hm : w.memory.Consistent) :
    Alike w (created.foldl (fun w (name, handle) => w.withdraw name handle) w') := by
  induction h with
  | nothing => exact .refl w
  | create before hcreate ih =>
    exact ih.trans ((alike_withdraw_create (before.consistent hm) hcreate).withdrawAll _)
  | refused before hcreate ih =>
    exact ih.trans ((alike_of_refused (before.consistent hm) hcreate).1.withdrawAll _)

/-- What there is behind creations: the variables and the entries of before, and beside them only
fresh variables of the user, each of which has an entry under its folded name. -/
structure Additions (w w' : Workspace) : Prop where
  functions : w'.functions = w.functions
  modules : w'.modules = w.modules
  kept : ∀ h v, w.memory.get? h = some v → w'.memory.get? h = some v
  entries : w.names.entries.Sublist w'.names.entries
  fresh : ∀ h v, w'.memory.get? h = some v → w.memory.get? h = none →
    (v.name, Entry.var h) ∈ w'.names.entries ∧ Text.fold v.name = v.name ∧
      ∃ type shape, v.value = Cell.fresh type shape .declared
  entered : ∀ entry ∈ w'.names.entries, entry ∉ w.names.entries →
    ∃ h v, entry = (v.name, .var h) ∧ w'.memory.get? h = some v ∧ w.memory.get? h = none

theorem Additions.refl (w : Workspace) : Additions w w where
  functions := rfl
  modules := rfl
  kept _ _ h := h
  entries := .refl _
  fresh h v hv hnone := by
    rw [hnone] at hv
    cases hv
  entered _ hmem hnot := absurd hmem hnot

theorem Additions.alike (h : Additions w w₁) (h' : Alike w₁ w') :
    Additions w w' where
  functions := h'.functions.trans h.functions
  modules := h'.modules.trans h.modules
  kept k v hv := (h'.get? k).trans (h.kept k v hv)
  entries := h'.names ▸ h.entries
  fresh k v hv hnone := h'.names ▸ h.fresh k v ((h'.get? k).symm.trans hv) hnone
  entered entry hmem hnot := by
    obtain ⟨k, v, heq, hv, hnone⟩ := h.entered entry (h'.names ▸ hmem) hnot
    exact ⟨k, v, heq, (h'.get? k).trans hv, hnone⟩

theorem Additions.create {type : ElementType} {shape : Shape} (h : Additions w w₁)
    (hm : w₁.memory.Consistent)
    (hcreate : create name (Cell.fresh type shape .declared) w₁ = .ok handle w') :
    Additions w w' := by
  obtain ⟨old, hnames, -, -, hfunctions, hmodules⟩ := create_eq_ok hcreate
  have hget := get?_create hm hcreate
  have hentries (entry : String × Entry) :
      entry ∈ w'.names.entries ↔ entry = (fold name, .var handle) ∨ entry ∈ w₁.names.entries := by
    rw [NameTable.mem_insert hnames, fold_fold]
  -- The handle is new: nothing of before can be under it.
  have hnone : w.memory.get? handle = none := by
    cases hv : w.memory.get? handle with
    | none => rfl
    | some v =>
      have hkept := h.kept handle v hv
      rw [get?_created hm hcreate] at hkept
      cases hkept
  refine ⟨hfunctions.trans h.functions, hmodules.trans h.modules, fun k v hv => ?_, ?_,
    fun k v hv hk => ?_, fun entry hmem hnot => ?_⟩
  · have hk : k ≠ handle := by
      rintro rfl
      rw [hnone] at hv
      cases hv
    rw [hget, if_neg hk]
    exact h.kept k v hv
  · obtain ⟨-, hnames'⟩ := NameTable.insert_ok hnames
    rw [hnames']
    exact h.entries.trans (NameTable.sublist_insertSorted _ _ _)
  · rw [hget] at hv
    split at hv
    case isTrue hhandle =>
      cases hv
      subst hhandle
      exact ⟨(hentries _).mpr (.inl rfl), fold_fold name, type, shape, rfl⟩
    case isFalse =>
      obtain ⟨hmem, hrest⟩ := h.fresh k v hv hk
      exact ⟨(hentries _).mpr (.inr hmem), hrest⟩
  · obtain rfl | hmem := (hentries entry).mp hmem
    · have hv : w'.memory.get? handle = some ⟨fold name, Cell.fresh type shape .declared⟩ := by
        rw [hget, if_pos rfl]
      exact ⟨handle, _, rfl, hv, hnone⟩
    · obtain ⟨k, v, heq, hv, hk⟩ := h.entered entry hmem hnot
      refine ⟨k, v, heq, ?_, hk⟩
      rw [hget, if_neg, hv]
      rintro rfl
      rw [get?_created hm hcreate] at hv
      cases hv

theorem Grows.additions (h : Grows w created w') (hm : w.memory.Consistent) : Additions w w' := by
  induction h with
  | nothing => exact .refl w
  | create before hcreate ih => exact ih.create (before.consistent hm) hcreate
  | refused before hcreate ih => exact ih.alike (alike_of_refused (before.consistent hm) hcreate).1

end Workspace

/-! ### Programs -/

namespace Program

def SameLimit (p p' : Program) : Prop := p'.limit = p.limit

instance : IsPreorder Program SameLimit where
  refl _ := rfl
  trans _ _ _ h h' := Eq.trans h' h

theorem moves_append (nodes : List Node) : Moves (.of SameLimit) (append nodes) := by
  refine .of_leftIn fun p => ?_
  rw [append]
  split <;> rfl

theorem moves_emit (node : Node) : Moves (.of SameLimit) (emit node) :=
  .bind .get fun _ => .bind (moves_append _) fun _ => .pure _

theorem moves_emitBranchTo (target : Nat) : Moves (.of SameLimit) (emitBranchTo target) :=
  .bind .get fun _ => moves_emit _

theorem moves_patch (address target : Nat) : Moves (.of SameLimit) (patch address target) := by
  refine .of_leftIn fun p => ?_
  rw [patch]
  split
  · rfl
  · split <;> rfl

theorem moves_patchHere (address : Nat) : Moves (.of SameLimit) (patchHere address) :=
  .bind .get fun _ => moves_patch _ _

theorem moves_patchNext (address target : Nat) :
    Moves (.of SameLimit) (patchNext address target) := by
  refine .of_leftIn fun p => ?_
  rw [patchNext]
  split <;> rfl

end Program

/-! ### The compiler -/

namespace Compiler

open Program (SameLimit)

variable {σ α : Type} {source : LineSource σ}
variable {c c' : Compiler σ}

/-- The workspace has grown by what is remembered in addition. -/
def Adds (c c' : Compiler σ) : Prop :=
  ∃ created, c'.created = created ++ c.created ∧ c.workspace.Grows created c'.workspace

instance : IsPreorder (Compiler σ) Adds where
  refl _ := ⟨[], rfl, .nothing⟩
  trans _ _ _ := fun ⟨created, hcreated, hgrows⟩ ⟨created', hcreated', hgrows'⟩ =>
    ⟨created' ++ created, by rw [hcreated', hcreated, List.append_assoc], hgrows.trans hgrows'⟩

theorem Adds.of_eq (hworkspace : c'.workspace = c.workspace) (hcreated : c'.created = c.created) :
    Adds c c' :=
  ⟨[], hcreated, hworkspace ▸ .nothing⟩

/-- A frame that compilation stays within: it holds across the creation of a variable and across a
line that is drawn from the source, and steps that concern neither do not matter, as long as they
admit as many nodes as before.  A source that has come to its end, or that fails, ends the
compilation. -/
structure Compiling (F : Frame (Compiler σ)) (source : LineSource σ) : Prop where
  still : ∀ {c c' : Compiler σ}, c'.workspace = c.workspace → c'.created = c.created →
    c'.source = c.source → c.program.SameLimit c'.program → F.ok c c'
  failed : ∀ {c c' : Compiler σ}, c'.workspace = c.workspace → c'.created = c.created →
    c'.source = c.source → c.program.SameLimit c'.program → F.error c c'
  create : ∀ name type shape, Moves F (create name (Cell.fresh type shape .declared))
  drawn : ∀ {c c' : Compiler σ} {line : String}, nextLine source c = .ok (some line) c' → F.ok c c'
  ended : ∀ {c c' : Compiler σ}, nextLine source c = .ok none c' → F.error c c'
  broken : ∀ {c c' : Compiler σ} {failure : Failure},
    nextLine source c = .error failure c' → F.error c c'

theorem moves_fail {F : Frame (Compiler σ)} (fault : Fault) : Moves F (fail fault : CompileM σ α) :=
  .throw _

section Compiling

variable {F : Frame (Compiler σ)} {source : LineSource σ}

theorem moves_here : Moves F (here : CompileM σ Nat) := by
  exact .bind .get fun _ => .pure _

theorem moves_lookup (name : String) : Moves F ( entry? name : CompileM σ (Option Entry)) := by
  exact .bind .get fun _ => .pure _

theorem moves_valueOf (var : Handle) : Moves F (valueOf var : CompileM σ Cell) := by
  refine .bind .get fun c => ?_
  cases c.workspace.memory.value var with
  | ok value => exact .pure _
  | error fault => exact moves_fail _

theorem moves_assignable (name : String) (column : Column) (var : Handle) (type : ElementType) :
    Moves F (assignable name column var type : CompileM σ Unit) := by
  refine .bind (moves_valueOf var) fun value => .optional (moves_fail _) fun _ => ?_
  exact .ite (moves_fail _) (.pure _)

variable (hF : Compiling F source)

include hF

theorem moves_reading (read : Workspace → Parse.Reader α) :
    Moves F (reading read : CompileM σ α) := by
  refine ⟨fun c => ?_⟩
  rw [reading]
  cases read c.workspace c.lexer with
  | ok a lexer => exact hF.still rfl rfl rfl rfl
  | error fault lexer => exact hF.failed rfl rfl rfl rfl

theorem moves_taking (read : Parse.Reader α) : Moves F (taking read : CompileM σ α) :=
  moves_reading hF _

theorem moves_emitting {step : EStateM Fault Program α} (hstep : Moves (.of SameLimit) step) :
    Moves F (emitting step : CompileM σ α) := by
  refine ⟨fun c => ?_⟩
  have hlimit := hstep.leftIn c.program
  rw [emitting]
  generalize step c.program = result at hlimit
  cases result with
  | ok a program => exact hF.still rfl rfl rfl hlimit
  | error fault program => exact hF.failed rfl rfl rfl hlimit

theorem moves_emit (node : Node) : Moves F (emit node : CompileM σ Nat) :=
  moves_emitting hF (Program.moves_emit node)

theorem moves_append (nodes : List Node) : Moves F (append nodes : CompileM σ Unit) :=
  moves_emitting hF (Program.moves_append nodes)

theorem moves_patchHere (address : Nat) :
    Moves F (emitting (Program.patchHere address) : CompileM σ Unit) :=
  moves_emitting hF (Program.moves_patchHere address)

theorem moves_branchTo (target : Nat) : Moves F (emitting (emitBranchTo target) : CompileM σ Nat) :=
  moves_emitting hF (moves_emitBranchTo target)

theorem moves_appendAll (groups : List (List Node)) :
    Moves F (appendAll groups : CompileM σ Unit) := by
  induction groups with
  | nil => exact .pure _
  | cons nodes rest ih => exact .bind (moves_append hF nodes) fun _ => ih

/-! #### Simple statements -/

theorem moves_assignment (name : String) (column : Column) :
    Moves F (assignment name column : CompileM σ Unit) := by
  refine .bind (moves_lookup name) fun entry => ?_
  obtain _ | handle | _ | _ := entry
  case some.func => exact .failing _ _
  case some.package => exact .failing _ _
  all_goals
    refine .bind (.pure _) fun var? => .bind (moves_reading hF _) fun subscripts => ?_
    refine .bind (moves_taking hF _) fun _ => .bind (moves_reading hF _) fun ⟨rhs, type⟩ => ?_
    cases var? with
    | some var =>
      refine .bind (moves_assignable name column var type) fun _ => .bind (.pure _) fun var => ?_
      exact .bind (moves_emit hF _) fun _ => .bind (moves_append hF _) fun _ => moves_appendAll hF _
    | none =>
      refine .bind (hF.create name type .scalar) fun var => ?_
      exact .bind (moves_emit hF _) fun _ => .bind (moves_append hF _) fun _ => moves_appendAll hF _

theorem moves_command (name : String) (column : Column) :
    Moves F (command name column : CompileM σ Unit) := by
  exact .bind (moves_reading hF _) fun _ => .bind (moves_emit hF _) fun _ => moves_appendAll hF _

theorem moves_declare (name : String) (type : ElementType) (rank : Nat) (column : Column) :
    Moves F (declare name type rank column : CompileM σ Handle) := by
  refine .bind (moves_lookup name) fun entry => ?_
  obtain _ | handle | _ | _ := entry
  case none =>
    dsimp only
    split
    · exact hF.create name type _
    · exact moves_fail _
  case some.var =>
    exact .bind (moves_valueOf handle) fun _ => .optional (moves_fail _) fun _ => .pure _
  case some.func => exact moves_fail _
  case some.package => exact moves_fail _

theorem moves_declarators (type : ElementType) (fuel : Nat) :
    Moves F (declarators type fuel : CompileM σ Unit) := by
  induction fuel with
  | zero => exact moves_fail _
  | succ fuel ih =>
    refine .bind (moves_reading hF _) fun ⟨name, column, dims⟩ => .optional (moves_fail _) fun _ => ?_
    refine .bind (moves_declare hF name type _ column) fun var => .bind (moves_emit hF _) fun _ => ?_
    refine .bind (moves_appendAll hF _) fun _ => .bind (moves_taking hF _) fun more => ?_
    exact .ite ih (.pure _)

theorem moves_declaration (type : ElementType) : Moves F (declaration type : CompileM σ Unit) := by
  exact .bind .get fun _ => .bind (moves_declarators hF type _) fun _ => moves_taking hF _

/-! #### Blocks -/

theorem moves_condition : Moves F (condition : CompileM σ Unit) := by
  refine .bind (moves_taking hF _) fun column => .bind (moves_reading hF _) fun t => ?_
  refine .optional (moves_fail _) fun _ => .bind (moves_append hF _) fun _ => ?_
  exact .bind (moves_taking hF _) fun _ => .pure _

theorem moves_patchAll (addresses : List Nat) : Moves F (patchAll addresses : CompileM σ Unit) := by
  induction addresses with
  | nil => exact .pure _
  | cons address rest ih => exact .bind (moves_patchHere hF _) fun _ => ih

theorem moves_inLoop (gate : Nat) {body : CompileM σ Keyword} (hbody : Moves F body) :
    Moves F (inLoop gate body) := by
  refine .bind (.modify fun _ => hF.still rfl rfl rfl rfl) fun _ => .bind hbody fun _ => ?_
  exact .modify fun _ => hF.still rfl rfl rfl rfl

theorem moves_leap (keyword : Keyword) (column : Column) :
    Moves F (leap keyword column : CompileM σ Unit) := by
  refine .bind .get fun c => ?_
  cases c.loops with
  | nil => exact moves_fail _
  | cons gate _ =>
    exact .bind moves_here fun _ => .bind (moves_emit hF _) fun _ => moves_taking hF _

theorem moves_loopVariable (name : String) (column : Column) (list : List Typed) :
    Moves F (loopVariable name column list : CompileM σ Handle) := by
  refine .bind (moves_lookup name) fun entry => ?_
  obtain _ | handle | _ | _ := entry
  case none => exact hF.create name _ .scalar
  case some.var =>
    refine .bind (moves_valueOf handle) fun value => .optional (moves_fail _) fun _ => ?_
    exact .optional (moves_fail _) fun _ => .pure _
  case some.func => exact moves_fail _
  case some.package => exact moves_fail _

section Nested

variable {block : Block σ} (hblock : ∀ opener closers, Moves F (block opener closers))

include hblock

theorem moves_arms (fuel : Nat) (keyword : Keyword) : Moves F (arms block fuel keyword) := by
  induction fuel generalizing keyword with
  | zero => exact .throw _
  | succ fuel ih =>
    have hcondition : Moves F (arms block (fuel + 1) .if) := by
      refine .bind (moves_condition hF) fun _ => .bind (moves_emit hF _) fun skip => ?_
      refine .bind (moves_taking hF _) fun _ => .bind (hblock _ _) fun closer => ?_
      refine .ite (.bind (moves_patchHere hF _) fun _ => .pure _) ?_
      refine .bind (moves_emit hF _) fun finish => .bind (moves_patchHere hF _) fun _ => ?_
      exact .bind (ih closer) fun _ => .pure _
    cases keyword with
    | «if» | elseIf => exact hcondition
    | «else» => exact .bind (hblock _ _) fun _ => .pure _
    | _ => exact .pure _

theorem moves_ifBlock (fuel : Nat) : Moves F (ifBlock block fuel) :=
  .bind (moves_arms hF hblock fuel .if) fun _ => moves_patchAll hF _

theorem moves_whileBlock : Moves F (whileBlock block) := by
  refine .bind (moves_emit hF _) fun gate => .bind (moves_condition hF) fun _ => ?_
  refine .bind (moves_emit hF _) fun test => .bind (moves_taking hF _) fun _ => ?_
  refine .bind (moves_inLoop hF gate (hblock _ _)) fun _ => .bind (moves_branchTo hF _) fun _ => ?_
  exact .bind (moves_patchHere hF _) fun _ => moves_patchHere hF _

theorem moves_repeatBlock : Moves F (repeatBlock block) := by
  refine .bind (moves_taking hF _) fun _ => .bind (moves_emit hF _) fun gate => ?_
  refine .bind (moves_inLoop hF gate (hblock _ _)) fun _ => .bind moves_here fun test => ?_
  refine .bind (moves_emitting hF (moves_patchNext _ _)) fun _ => ?_
  refine .bind (moves_condition hF) fun _ => ?_
  refine .bind (moves_taking hF _) fun _ => .bind (moves_emit hF _) fun back => ?_
  exact .bind (moves_emitting hF (moves_patch _ _)) fun _ => moves_patchHere hF _

theorem moves_doBlock : Moves F (doBlock block) := by
  refine .bind (moves_reading hF _) fun ⟨name, column, list⟩ => ?_
  refine .bind (moves_loopVariable hF name column list) fun var => ?_
  refine .bind (moves_appendAll hF _) fun _ => .bind (moves_emit hF _) fun init => ?_
  refine .bind (moves_emit hF _) fun gate => .bind (moves_emit hF _) fun counter => ?_
  refine .bind (moves_emitting hF (moves_patch _ _)) fun _ => ?_
  refine .bind (moves_inLoop hF gate (hblock _ _)) fun _ => .bind (moves_branchTo hF _) fun _ => ?_
  exact .bind (moves_patchHere hF _) fun _ => moves_patchHere hF _

theorem moves_keyword (fuel : Nat) (word : Keyword) (column : Column) :
    Moves F (keyword block fuel word column) := by
  cases word with
  | «if» => exact .bind (moves_ifBlock hF hblock fuel) fun _ => .pure _
  | «while» => exact .bind (moves_whileBlock hF hblock) fun _ => .pure _
  | «repeat» => exact .bind (moves_repeatBlock hF hblock) fun _ => .pure _
  | «do» => exact .bind (moves_doBlock hF hblock) fun _ => .pure _
  | «break» | «continue» => exact .bind (moves_leap hF _ _) fun _ => .pure _
  | stop => exact .bind (moves_emit hF _) fun _ => .bind (moves_taking hF _) fun _ => .pure _
  | integer | float | string | logical => exact .bind (moves_declaration hF _) fun _ => .pure _
  | «then» => exact .failing _ _
  | «else» => exact .bind (moves_taking hF _) fun _ => .ite (.pure _) (.pure _)
  | «end» => exact .bind (moves_taking hF _) fun _ => .pure _
  | _ => exact .pure _

theorem moves_statement (fuel : Nat) : Moves F (statement block fuel) := by
  refine .bind (moves_taking hF _) fun ⟨token, column⟩ => ?_
  cases token with
  | finish => exact .pure _
  | name text =>
    dsimp only
    split
    · exact moves_keyword hF hblock fuel _ column
    · refine .bind .get fun c => ?_
      refine .ite (.bind (moves_assignment hF text column) ?rest) (.bind (moves_command hF text column) ?rest)
      exact fun _ => .bind (moves_taking hF _) fun _ => .pure _
  | _ => exact moves_fail _

end Nested

theorem moves_nextLine {f : Option String → CompileM σ α} (hnone : f none = fail fault)
    (hsome : ∀ line, Moves F (f (some line))) : Moves F (nextLine source >>= f) := by
  refine ⟨fun c => ?_⟩
  rw [bind_apply]
  cases hline : nextLine source c with
  | error failure c' => exact hF.broken hline
  | ok line? c' =>
    cases line? with
    | none =>
      dsimp only
      rw [hnone]
      exact hF.ended hline
    | some line =>
      have hrest := (hsome line).run c'
      dsimp only
      generalize f (some line) c' = result at hrest
      cases result with
      | ok a c'' => exact F.trans_ok (hF.drawn hline) hrest
      | error failure c'' => exact F.trans_error (hF.drawn hline) hrest

theorem moves_block (maxName fuel : Nat) (opener : Keyword) (closers : List Keyword) :
    Moves F (block source maxName fuel opener closers) := by
  induction fuel generalizing opener closers with
  | zero => exact .throw _
  | succ fuel ih =>
    refine moves_nextLine hF rfl fun line => ?_
    refine .bind (.modify fun _ => hF.still rfl rfl rfl rfl) fun _ => ?_
    refine .bind (moves_statement hF ih fuel) fun closing? => ?_
    cases closing? with
    | none => exact ih opener closers
    | some closing =>
      refine .ite (.optional (moves_taking hF _) fun _ => .pure _) (moves_fail _)

theorem moves_topLevel (maxName fuel : Nat) : Moves F (topLevel source maxName fuel) := by
  refine .bind (moves_statement hF (moves_block hF maxName fuel) fuel) fun closing? => ?_
  cases closing? with
  | none => exact .pure _
  | some closing => exact moves_fail _

end Compiling

theorem nextLine_eq_ok {line? : Option String} (h : nextLine source c = .ok line? c') :
    source c.workspace.names.knows c.source = .ok line? c'.source ∧
      c' = { c with source := c'.source } := by
  rw [nextLine] at h
  split at h
  · cases h
    exact ⟨by assumption, rfl⟩
  · cases h

theorem nextLine_eq_error (h : nextLine source c = .error failure c') :
    (∃ fault, source c.workspace.names.knows c.source = .error fault c'.source) ∧
      c' = { c with source := c'.source } := by
  rw [nextLine] at h
  split at h
  · cases h
  · cases h
    exact ⟨⟨_, by assumption⟩, rfl⟩

/-- Compilation only adds to the workspace, and remembers what it adds. -/
theorem compiling_adds (source : LineSource σ) : Compiling (.of Adds) source where
  still hworkspace hcreated _ _ := .of_eq hworkspace hcreated
  failed hworkspace hcreated _ _ := .of_eq hworkspace hcreated
  create name type shape := by
    constructor
    intro c
    unfold create
    cases hcreate : Workspace.create name (Cell.fresh type shape .declared) c.workspace with
    | ok handle w => exact ⟨[(fold name, handle)], rfl, .create .nothing hcreate⟩
    | error fault w => exact ⟨[], rfl, .refused .nothing hcreate⟩
  drawn h := by
    rw [(nextLine_eq_ok h).2]
    exact .of_eq rfl rfl
  ended h := by
    rw [(nextLine_eq_ok h).2]
    exact .of_eq rfl rfl
  broken h := by
    rw [(nextLine_eq_error h).2]
    exact .of_eq rfl rfl

/-! ### Atomic compilation -/

section Compile

variable {source : LineSource σ} {maxName fuel : Nat} {line : String} {c c' : Compiler σ}

theorem compile_eq_ok (h : compile source maxName fuel line c = .ok () c') :
    topLevel source maxName fuel { c with lexer := .ofText line maxName } = .ok () c' := by
  rw [compile] at h
  split at h
  · cases h
    assumption
  · cases h

theorem compile_eq_error (h : compile source maxName fuel line c = .error failure c') :
    ∃ c₁, topLevel source maxName fuel { c with lexer := .ofText line maxName } =
      .error failure c₁ ∧ c' = c₁.rollback := by
  rw [compile] at h
  split at h
  · cases h
  · cases h
    exact ⟨_, by assumption, rfl⟩

theorem grows_of_compile (h : compile source maxName fuel line c = .ok () c') :
    ∃ created, c.workspace.Grows created c'.workspace := by
  obtain ⟨created, -, hgrows⟩ :=
    (moves_topLevel (compiling_adds source) maxName fuel).ok (compile_eq_ok h)
  exact ⟨created, hgrows⟩

theorem grows_of_compile_error (hfresh : c.created = [])
    (h : compile source maxName fuel line c = .error failure c') :
    ∃ created grown, c.workspace.Grows created grown ∧
      c'.workspace = created.foldl (fun w (name, handle) => w.withdraw name handle) grown := by
  obtain ⟨c₁, htop, rfl⟩ := compile_eq_error h
  obtain ⟨created, hcreated, hgrows⟩ :=
    (moves_topLevel (compiling_adds source) maxName fuel).error htop
  refine ⟨created, c₁.workspace, hgrows, ?_⟩
  rw [hfresh, List.append_nil] at hcreated
  rw [← hcreated]
  rfl

end Compile

/-- Compilation is all or nothing for the names and the variables.  If it fails, the names, the
functions and the modules are the same and every handle stands for what it stood for.  If it
succeeds, there are additions only: fresh variables of the user, each with an entry under its
folded name. -/
theorem compile_atomic (source : LineSource σ) (maxName fuel : Nat) (line : String)
    (c : Compiler σ) (hfresh : c.created = []) (hmemory : c.workspace.memory.Built) :
    (∀ c', compile source maxName fuel line c = .ok () c' →
        c.workspace.Additions c'.workspace) ∧
      ∀ failure c', compile source maxName fuel line c = .error failure c' →
        c.workspace.Alike c'.workspace := by
  have hm := hmemory.consistent
  constructor
  · intro c' h
    obtain ⟨created, hgrows⟩ := grows_of_compile h
    exact hgrows.additions hm
  · intro failure c' h
    obtain ⟨created, grown, hgrows, hworkspace⟩ := grows_of_compile_error hfresh h
    rw [hworkspace]
    exact hgrows.rollback hm

/-- A loop whose second line breaks off: its variable and the one of its first line are gone. -/
theorem compile_atomic_loop :
    ∃ failure c', compile .ofList 8 9 "do i = 1, 3" (.start ["x = i", "y ="]) =
        .error failure c' ∧
      Workspace.Alike (.bare 8) c'.workspace := by
  have hfails : (match compile .ofList 8 9 "do i = 1, 3" (.start ["x = i", "y ="]) with
      | .ok _ _ => false
      | .error _ _ => true) = true := by decide +kernel
  generalize hresult : compile .ofList 8 9 "do i = 1, 3" (.start ["x = i", "y ="]) = result
    at hfails
  cases result with
  | ok _ c' => cases hfails
  | error failure c' =>
    exact ⟨failure, c', rfl, (compile_atomic .ofList 8 9 _ _ rfl .empty).2 failure c' hresult⟩

end Compiler

end ArrayCommand
