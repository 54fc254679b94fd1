/-
What running a program does to the names and the variables.

Whatever the nodes are, a program changes the workspace by few kinds of single changes: it writes a
variable that may be written, it declares anew the variable of a declaration, it counts in the
variable of a counted loop, and it deletes a variable of the user together with its name.  No change
alters the name, the type or the owner of a variable, and no variable is created.

* `Workspace.Change` — one change, with the test that was made before it;
* `Control.Changes` — what a run leaves is reached by such changes;
* `Control.moves_run` — every run, whether it succeeds or fails, only makes such changes;
* `Session.Runs`, `Session.runs_statement` — what a statement leaves is what its compilation leaves
  or what these changes make of it.
-/

import Mathlib.Logic.Relation
import ArrayCommand.Proofs.PartialWrites

namespace ArrayCommand

open Control

/-- The workspace with another value in a variable. -/
def Workspace.withValue (w : Workspace) (var : Handle) (value : Cell) : Workspace :=
  { w with memory := w.memory.update var value }

/-- Another value of the same type and the same owner. -/
def Cell.Akin (old new : Cell) : Prop := new.type = old.type ∧ new.owner = old.owner

/-- One change that a program makes.  A declaration and the counter of a loop do not test whether
their variable may be written. -/
inductive Workspace.Change (code : Array Node) (w : Workspace) : Workspace → Prop
  | write {var : Handle} {v : Variable} {value : Cell} (hvar : w.memory.get? var = some v)
      (hwritable : v.value.owner.isWritable) (hakin : v.value.Akin value) :
      Change code w (w.withValue var value)
  | declare {pc dims : Nat} {var : Handle} {v : Variable} {shape : Shape} {value : Cell}
      (hnode : code[pc]? = some (.declare var dims)) (hvar : w.memory.get? var = some v)
      (hvalue : Control.redeclared v.value shape = .ok value) :
      Change code w (w.withValue var value)
  | count {pc : Nat} {var : Handle} {state : Option LoopState} {exit : Int} {v : Variable}
      {value : Cell} (hnode : code[pc]? = some (.loopCounter var state exit))
      (hvar : w.memory.get? var = some v) (hakin : v.value.Akin value) :
      Change code w (w.withValue var value)
  | delete {name : String} {var : Handle} {v : Variable}
      (hname : w.names.get? name = some (.var var)) (hvar : w.memory.get? var = some v)
      (hdeletable : v.value.owner.isDeletable) : Change code w (w.withdraw name var)

/-! ### Values of the same type and owner -/

namespace Cell

variable {c c' : Cell}

theorem akin_set {place : Nat} {value : Scalar} (h : c.set place value = .ok c') : c.Akin c' :=
  ⟨(set_frame h).1, (set_frame h).2.2⟩

theorem type_convertData {data data' : Data} {type : ElementType}
    (h : convertData data type = .ok data') : data'.type = type := by
  unfold convertData at h
  split at h
  · cases h
    rfl
  case h_2 v =>
    obtain ⟨integers, -, rfl⟩ := map_eq_ok.1 h
    rfl
  · split at h
    case isTrue htype =>
      cases h
      exact htype
    case isFalse => cases h

theorem akin_assign {source : Cell} (h : c.assign source = .ok c') : c.Akin c' := by
  obtain ⟨converted, hconvert, rfl⟩ := map_eq_ok.1 h
  obtain ⟨data, hdata, rfl⟩ := map_eq_ok.1 hconvert
  exact ⟨type_convertData hdata, rfl⟩

theorem akin_store {view : View} {rhs : Cell} {result : Except Fault Unit}
    (h : store view rhs c = (result, c')) : c.Akin c' :=
  ⟨(store_frame h).1, (store_frame h).2.2⟩

theorem akin_redeclared {shape : Shape} (h : redeclared c shape = .ok c') : c.Akin c' := by
  rw [redeclared] at h
  split at h
  · cases h
    exact ⟨rfl, rfl⟩
  · split at h
    · rw [resize] at h
      cases hroom : checkStorage c.type shape.size with
      | error fault => simp [hroom, bind, Except.bind] at h
      | ok _ =>
        rw [hroom] at h
        cases h
        exact ⟨Data.type_resize _ _, rfl⟩
    · rw [allocate] at h
      cases hroom : checkStorage c.type shape.size with
      | error fault => simp [hroom, bind, Except.bind] at h
      | ok _ =>
        rw [hroom] at h
        cases h
        exact ⟨Data.type_zeroed _ _, rfl⟩

end Cell

/-! ### Runs -/

namespace Control

open Machine

/-- What is left is reached by changes of a program. -/
def Changes (code : Array Node) (m m' : Machine) : Prop :=
  Relation.ReflTransGen (Workspace.Change code) m.workspace m'.workspace

instance (code : Array Node) : IsPreorder Machine (Changes code) where
  refl _ := .refl
  trans _ _ _ h h' := Relation.ReflTransGen.trans h h'

abbrev changing (code : Array Node) : Frame Machine := .of (Changes code)

variable {code : Array Node} {α : Type}
variable {m m₁ : Machine} {x : MachineM α} {var : Handle} {pc : Nat}

theorem Changes.of_eq {m' : Machine} (h : m'.workspace = m.workspace) : Changes code m m' := by
  rw [Changes, h]

theorem Changes.single {m' : Machine} (h : m.workspace.Change code m'.workspace) :
    Changes code m m' :=
  Relation.ReflTransGen.single h

/-- What only evaluates makes no change. -/
theorem moves_of_evaluation (h : Moves evaluation x) : Moves (changing code) x := by
  refine ⟨fun m => ?_⟩
  have hrun := h.run m
  generalize x m = result at hrun
  cases result with
  | ok a m' => exact .of_eq hrun.1
  | error failure m' => exact .of_eq hrun

/-- A step that only evaluates, before others. -/
theorem changes_bind {β : Type} {f : α → MachineM β} (hx : Moves evaluation x)
    (hm : m₁.workspace = m.workspace) (hf : ∀ a m₂, x m₁ = .ok a m₂ → m₂.workspace = m.workspace →
      Changes code m (leftIn (f a m₂))) : Changes code m (leftIn ((x >>= f) m₁)) := by
  refine leftIn_bind (fun failure m₂ h => .of_eq ((hx.error h).trans hm)) fun a m₂ h => ?_
  exact hf a m₂ h ((hx.ok h).1.trans hm)

theorem changes_valueOf {f : Cell → MachineM α} (hm : m₁.workspace = m.workspace)
    (hf : ∀ v, m.workspace.memory.get? var = some v → Changes code m (leftIn (f v.value m₁))) :
    Changes code m (leftIn ((valueOf var >>= f) m₁)) := by
  refine changes_bind (moves_valueOf var) hm fun c m₂ h _ => ?_
  obtain ⟨hc, rfl⟩ := valueOf_eq_ok.mp h
  obtain ⟨v, hv, rfl⟩ := Memory.value_eq_ok.mp (hm ▸ hc)
  exact hf v hv

theorem changes_check {β : Type} {result : Except Fault α} {f : α → MachineM β}
    (hm : m₁.workspace = m.workspace)
    (hf : ∀ a, result = .ok a → Changes code m (leftIn (f a m₁))) :
    Changes code m (leftIn ((check result >>= f) m₁)) := by
  refine changes_bind (moves_check result) hm fun a m₂ h _ => ?_
  obtain ⟨ha, rfl⟩ := check_eq_ok.mp h
  exact hf a ha

theorem changes_update {value : Cell} (hx : Moves (changing code) x)
    (hm : m₁.workspace = m.workspace)
    (hchange : m.workspace.Change code (m.workspace.withValue var value)) :
    Changes code m (leftIn ((update var value >>= fun _ => x) m₁)) := by
  refine leftIn_bind (fun _ _ h => by cases h) fun _ m₂ h => ?_
  cases h
  refine Relation.ReflTransGen.head ?_ (hx.leftIn _)
  change m.workspace.Change code (m₁.workspace.withValue var value)
  rwa [hm]

theorem moves_assign (fuel pc : Nat) (var : Handle) (axes : Option (List Axis)) (count : Nat) :
    Moves (changing code) (assign code fuel pc var axes count) := by
  refine .of_leftIn fun m => ?_
  refine changes_valueOf rfl fun v hv => ?_
  by_cases hwritable : v.value.owner.isWritable
  · rw [if_neg (by simp [hwritable])]
    cases axes with
    | none =>
      refine changes_bind (moves_rightSide code fuel count _ _ _) rfl fun ⟨rhs, pc⟩ m₁ _ hm₁ => ?_
      refine changes_valueOf hm₁ fun v' hv' => changes_check hm₁ fun value hvalue => ?_
      cases hv.symm.trans hv'
      exact changes_update (.pure _) hm₁ (.write hv hwritable (Cell.akin_assign hvalue))
    | some axes =>
      refine changes_bind (Evaluate.moves_sectionWith code fuel _ _ _) rfl
        fun ⟨view, pc⟩ m₁ _ hm₁ => ?_
      refine changes_bind (moves_rightSide code fuel count _ _ _) hm₁ fun ⟨rhs, pc⟩ m₂ _ hm₂ => ?_
      refine changes_valueOf hm₂ fun v' hv' => ?_
      cases hv.symm.trans hv'
      have hakin : v.value.Akin (store view rhs v.value).2 := Cell.akin_store rfl
      exact changes_update (.bind (moves_check _) fun _ => .pure _) hm₂ (.write hv hwritable hakin)
  · rw [if_pos (by simp [hwritable])]
    refine changes_bind .get rfl fun _ m₁ _ hm₁ => changes_check hm₁ fun _ _ => ?_
    exact .of_eq hm₁

theorem moves_declare {fuel dims : Nat} (hnode : code[pc]? = some (.declare var dims)) :
    Moves (changing code) (declare code fuel pc var dims) := by
  refine .of_leftIn fun m => ?_
  refine changes_bind (Evaluate.moves_extentsWith code fuel _ _) rfl fun ⟨extents, pc⟩ m₁ _ hm₁ => ?_
  refine changes_check hm₁ fun shape _ => changes_valueOf hm₁ fun v hv => ?_
  refine changes_check hm₁ fun value hvalue => ?_
  exact changes_update (.pure _) hm₁ (.declare hnode hv hvalue)

theorem moves_writeBack (f : Function) (base index : Nat) (refs : List (Option Handle)) :
    Moves (changing code) (writeBack f base index refs) := by
  induction refs generalizing index with
  | nil => exact .pure _
  | cons reference refs ih =>
    cases reference with
    | none => exact ih _
    | some var =>
      refine .of_leftIn fun m => ?_
      rw [writeBack, get_bind_apply]
      cases m.values.items[base + index]? with
      | none => exact .of_eq rfl
      | some new =>
        refine changes_valueOf rfl fun v hv => ?_
        split
        case isFalse => exact (ih _).leftIn m
        case isTrue =>
          by_cases hwritable : v.value.owner.isWritable
          · rw [if_neg (by simp [hwritable])]
            refine changes_check rfl fun value hvalue => ?_
            exact changes_update (ih _) rfl (.write hv hwritable (Cell.akin_assign hvalue))
          · rw [if_pos (by simp [hwritable])]
            exact .of_eq rfl

theorem moves_arguments (fuel : Nat) (f : Function) (count index pc : Nat) :
    Moves (changing code) (arguments code fuel f count index pc) := by
  refine ⟨fun m => ?_⟩
  have hrun := (leads_arguments code fuel f count index pc).run m
  generalize arguments code fuel f count index pc m = result at hrun
  cases result with
  | ok a m' => exact .of_eq hrun.1
  | error failure m' => exact .of_eq hrun

theorem moves_command (fuel pc func argc : Nat) :
    Moves (changing code) (command code fuel pc func argc) := by
  refine .bind (moves_functionOf func) fun f => .bind .get fun m => ?_
  refine .bind (moves_arguments fuel f argc 0 _) fun ⟨refs, pc⟩ => .bind .get fun m => ?_
  refine .bind (moves_check _) fun args => ?_
  refine .bind (moves_of_evaluation (moves_invoke f args _)) fun ⟨args, _, fault?⟩ => ?_
  refine .bind (.modify fun _ => .of_eq rfl) fun _ => ?_
  cases fault? with
  | some fault => exact moves_fail fault
  | none =>
    refine .bind (moves_writeBack f _ 0 refs) fun _ => ?_
    exact .bind (.modify fun _ => .of_eq rfl) fun _ => .pure _

/-! #### Requests -/

theorem moves_delete (name : String) : Moves (changing code) (delete name) := by
  refine .of_leftIn fun m => ?_
  unfold delete
  rw [get_bind_apply]
  rcases hname : m.workspace.names.get? name with _ | handle | _ | _
  case none => exact .of_eq rfl
  case some.func => exact .of_eq rfl
  case some.package => exact .of_eq rfl
  case some.var =>
    refine changes_valueOf rfl fun v hv => ?_
    by_cases hdeletable : v.value.owner.isDeletable
    · rw [if_neg (by simp [hdeletable])]
      exact .single (.delete hname hv hdeletable)
    · rw [if_pos (by simp [hdeletable])]
      exact .of_eq rfl

theorem moves_print (text : String) : Moves (changing code) (print text) :=
  .modify fun _ => .of_eq rfl

/-! #### Loops -/

theorem moves_setCounter (pc : Nat) (state : LoopState) :
    Moves (changing code) (setCounter pc state) :=
  .modify fun _ => .of_eq rfl

theorem moves_nextRound {state : Option LoopState} {exit : Int}
    (hnode : code[pc]? = some (.loopCounter var state exit)) :
    Moves (changing code) (nextRound pc var state) := by
  refine .of_leftIn fun m => ?_
  unfold nextRound
  rw [get_bind_apply]
  cases counterState m pc state with
  | none => exact .of_eq rfl
  | some state =>
    dsimp only
    cases state.remaining with
    | zero => exact .of_eq rfl
    | succ remaining =>
      refine changes_valueOf rfl fun v hv => ?_
      by_cases hscalar : v.value.size = 1
      · rw [if_neg (by simp [hscalar])]
        refine changes_check rfl fun value hvalue => ?_
        refine changes_update ?_ rfl (.count hnode hv (Cell.akin_set hvalue))
        refine .ite (.bind (.pure _) ?rest) (.bind (moves_check _) ?rest)
        exact fun _ => .bind (moves_setCounter _ _) fun _ => .pure _
      · rw [if_pos (by simp [hscalar])]
        exact .of_eq rfl

/-! #### Nodes -/

theorem moves_commandNode (fuel pc func argc : Nat) :
    Moves (changing code) (step code fuel pc (.command func argc)) := by
  refine .bind (moves_command fuel pc func argc) fun _ => .bind (.bind .get fun _ =>
    .bind (.modify fun _ => .of_eq rfl) fun _ =>
      sequential_moves.carryOut moves_delete moves_print _) fun flow? => ?_
  cases flow? with
  | some flow => exact .pure _
  | none => exact .pure _

theorem closed_changing : Closed code fun _ x => Moves (changing code) x where
  toSequential := sequential_moves
  exhausted := .throw _
  pop := moves_onValues (fun _ _ => Changes.of_eq rfl) (fun _ _ => Changes.of_eq rfl) _
  setCounter := moves_setCounter
  value fuel pc :=
    .bind (moves_of_evaluation (Evaluate.moves_expression code fuel pc none)) fun _ =>
      moves_onValues (fun _ _ => Changes.of_eq rfl) (fun _ _ => Changes.of_eq rfl) _
  assign := moves_assign
  declare hnode := moves_declare hnode
  command _ := moves_commandNode _ _ _ _
  nextRound hnode := moves_nextRound hnode

theorem moves_run (fuel : Nat) : Moves (changing code) (run code fuel) := closed_changing.runFrom fuel 0

end Control

/-! ### Statements -/

namespace Session

variable [Outside]

/-- The compiler at the beginning of a statement. -/
def compiler (line : String) (s : Session) : Compiler Input :=
  { workspace := s.workspace, program := s.program.clear
    lexer := .ofText line s.settings.limits.nameLength, source := s.input }

/-- The session when the compiler has come to its end. -/
def compiled (c : Compiler Input) (s : Session) : Session :=
  { (s.withWorkspace c.workspace) with program := c.program, input := c.source }

/-- What is told of a run: the exit that it asks for, or its failure, with the line. -/
def told (line : String) : Except Failure Flow → Except (Failure × String) (Option ExitMode)
  | .ok flow => .ok (exitOf flow)
  | .error failure => .error (failure, line)

/-- How a statement goes: the compiler refuses it, or its program is run. -/
inductive Goes (fuel : Nat) (line : String) (s : Session) :
    Except (Failure × String) (Option ExitMode) × Session → Prop
  | refused {c : Compiler Input} {failure : Failure}
      (hcompile : Compiler.compile (furtherLines s.settings.continuationPrompt)
        s.settings.limits.nameLength fuel line (s.compiler line) = .error failure c) :
      Goes fuel line s (.error (failure, c.line), s.compiled c)
  | ran {c : Compiler Input}
      (hcompile : Compiler.compile (furtherLines s.settings.continuationPrompt)
        s.settings.limits.nameLength fuel line (s.compiler line) = .ok () c) :
      Goes fuel line s
        (told line (execute fuel (s.compiled c)).1, (execute fuel (s.compiled c)).2)

/-- The session when the line of a statement has been shown. -/
def shown (line : String) (s : Session) : Session :=
  if s.verbose then s.print (Text.trim line ++ "\n") else s

theorem machine_shown (line : String) (s : Session) : (s.shown line).machine = s.machine := by
  rw [shown]
  split <;> rfl

theorem workspace_shown (line : String) (s : Session) : (s.shown line).workspace = s.workspace := by
  rw [workspace, machine_shown]
  rfl

theorem program_shown (line : String) (s : Session) : (s.shown line).program = s.program := by
  rw [shown]
  split <;> rfl

theorem goes_statement (fuel : Nat) (line : String) (s : Session) :
    Goes fuel line (s.shown line) (s.statement fuel line) := by
  unfold statement
  generalize hshown : (if s.verbose then s.print (Text.trim line ++ "\n") else s) = s₁
  rw [shown, hshown]
  dsimp only
  cases hcompile : Compiler.compile (furtherLines s₁.settings.continuationPrompt)
      s₁.settings.limits.nameLength fuel line (s₁.compiler line) with
  | error failure c =>
    have hcompiled : compile fuel line s₁ = (.error (failure, c.line), s₁.compiled c) := by
      rw [compile, ← compiler, hcompile]
      rfl
    rw [hcompiled]
    exact .refused hcompile
  | ok u c =>
    have hcompiled : compile fuel line s₁ = (.ok (), s₁.compiled c) := by
      rw [compile, ← compiler, hcompile]
      rfl
    have hran := Goes.ran hcompile
    rw [hcompiled]
    dsimp only
    generalize execute fuel (s₁.compiled c) = result at hran
    obtain ⟨outcome, s'⟩ := result
    cases outcome with
    | ok flow => exact hran
    | error failure => exact hran

theorem workspace_flushOutput (s : Session) : s.flushOutput.workspace = s.workspace := by
  rw [flushOutput]
  split <;> rfl

theorem changes_execute (fuel : Nat) (s : Session) :
    Relation.ReflTransGen (Workspace.Change s.program.nodes) s.workspace
      (s.execute fuel).2.workspace := by
  have hmoves : Moves (Control.changing s.program.nodes) (Control.run s.program.nodes fuel) :=
    Control.moves_run fuel
  have hleft := hmoves.leftIn { s.machine with counters := [] }
  rw [execute]
  generalize Control.run s.program.nodes fuel { s.machine with counters := [] } = result at hleft
  cases result with
  | ok flow machine =>
    rw [workspace_flushOutput]
    exact hleft
  | error failure machine =>
    rw [workspace_flushOutput]
    exact hleft

/-- What a statement does to a workspace: it is compiled, and its program is run if that
succeeds. -/
inductive Runs (w : Workspace) : Array Node → Workspace → Prop
  | refused {source : LineSource Input} {maxName fuel : Nat} {line : String} {c c' : Compiler Input}
      {failure : Failure} (hworkspace : c.workspace = w) (hcreated : c.created = [])
      (hcompile : Compiler.compile source maxName fuel line c = .error failure c') :
      Runs w c'.program.nodes c'.workspace
  | ran {source : LineSource Input} {maxName fuel : Nat} {line : String} {c c' : Compiler Input}
      {w' : Workspace} (hworkspace : c.workspace = w) (hempty : c.program.nodes = #[])
      (hloops : c.loops = []) (hcompile : Compiler.compile source maxName fuel line c = .ok () c')
      (hrun : Relation.ReflTransGen (Workspace.Change c'.program.nodes) c'.workspace w') :
      Runs w c'.program.nodes w'

theorem program_execute (fuel : Nat) (s : Session) : (s.execute fuel).2.program = s.program := by
  have hflush (s : Session) : s.flushOutput.program = s.program := by
    rw [flushOutput]
    split <;> rfl
  rw [execute]
  split <;> exact hflush _

theorem runs_statement (fuel : Nat) (line : String) (s : Session) :
    Runs s.workspace (s.statement fuel line).2.program.nodes
      (s.statement fuel line).2.workspace := by
  have hgoes := goes_statement fuel line s
  have hworkspace := s.workspace_shown line
  generalize s.shown line = s₁ at hgoes hworkspace
  generalize s.statement fuel line = result at hgoes
  rw [← hworkspace]
  cases hgoes with
  | refused hcompile => exact .refused rfl rfl hcompile
  | @ran c hcompile =>
    rw [program_execute]
    exact .ran rfl rfl rfl hcompile (changes_execute fuel (s₁.compiled c))

end Session

end ArrayCommand
