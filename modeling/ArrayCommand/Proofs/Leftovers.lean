/-
What a statement leaves behind.

While a statement runs, values wait on two stacks, and in the host wait the text that functions have
printed and what they have asked for.  The stacks and the text are cleared behind every program,
however it has ended.  The queue of requests is not: it is emptied behind a command that succeeds, and
by nothing else.  So what a function asks for in an expression, or before it fails, waits for a command
of a later statement.  If all functions are discreet, nothing is left waiting.

Main definitions:

* `Allowance.quiet` — where nothing is waiting, nothing is left waiting;
* `Session.Goes` — how a statement goes: it is refused, its program fails, or its program ends;
* `Session.Between` — the sessions between statements.

Main results:

* `Control.quiet_command` — a command with a discreet function fails with nothing waiting;
* `Control.quiet_run` — so does every program that has been compiled, and it ends with nothing waiting;
* `Session.Between.leaves_nothing` — **a statement leaves nothing behind**, if the functions are
  discreet;
* `Session.request_waits` — a function that is not discreet: what it asks for is carried out behind the
  next statement.
-/

import ArrayCommand.Proofs.Soundness

namespace ArrayCommand

open Evaluate List

variable {w : Workspace} {code : Array Node} {fuel pc : Nat} {m m' : Machine} {cell : Cell}
  {f : Function} {args : List Argument} {refs : List (Option Handle)}

/-! ### Arguments of commands -/

def Argument.access : Argument → Access
  | .value _ _ => .value
  | .reference var _ => .reference var
  | .name text => .name text

theorem Argument.code_eq (a : Argument) : ∃ header rest, a.code = .expr header :: rest ∧
    header.length = rest.length ∧ header.access = a.access := by
  cases a with
  | value e type => exact ⟨_, _, rfl, by simp, rfl⟩
  | reference var type => exact ⟨_, _, rfl, rfl, rfl⟩
  | name text => exact ⟨_, _, rfl, rfl, rfl⟩

namespace Control

open Machine

variable {pc' : Nat}

theorem nested_name {header : Header} {text : String} {fill : Option Shape}
    (hheader : code[pc]? = some (.expr header)) (haccess : header.access = .name text)
    (h : nested code fuel pc fill m = .ok (cell, pc') m') : cell = .scalar (.text text) := by
  rw [nested, nestedWith, bind_eq_ok] at h
  obtain ⟨length, m₁, -, h⟩ := h
  obtain ⟨value, m₂, hvalue, h⟩ := bind_eq_ok.mp h
  cases h
  cases fuel with
  | zero => cases hvalue
  | succ fuel =>
    simp only [expression, hheader, haccess] at hvalue
    cases hvalue
    rfl

theorem nested_argument {a : Argument} (hcode : code.size < wordSize)
    (hplaced : Placed code pc a.code)
    (h : nested code fuel pc none m = .ok (cell, pc') m') :
    pc' = pc + a.code.length ∧
      (∀ text, a.access = .name text → cell = .scalar (.text text)) ∧
      ∀ var, reference? code pc = some var → a.access = .reference var := by
  obtain ⟨header, rest, heq, hlength, haccess⟩ := a.code_eq
  rw [heq] at hplaced ⊢
  have hsize := hplaced.le_size (by simp)
  have hheader := hplaced.head
  obtain ⟨header', hheader', rfl, -⟩ := header_of_nested h
  cases hheader.symm.trans hheader'
  rw [length_cons] at hsize ⊢
  refine ⟨by rw [behind_eq (by omega), hlength]; omega, fun text htext => ?_, fun var hvar => ?_⟩
  · exact nested_name hheader (haccess.trans htext) h
  · rw [reference?, hheader] at hvar
    dsimp only at hvar
    split at hvar
    case h_1 haccess' =>
      cases hvar
      exact haccess.symm.trans haccess'
    case h_2 => cases hvar

/-- The cells that the arguments of a command leave on the stack are as its function wants them. -/
theorem handed_arguments {index : Nat} (hcode : code.size < wordSize)
    (hplaced : Placed code pc (Argument.codes args)) (hhanded : Argument.AllHanded w f index args)
    (h : arguments code fuel f args.length index pc m = .ok (refs, pc') m') :
    (∃ cells : List Cell, m'.values.items = m.values.items ++ cells.toArray ∧
      cells.length = args.length ∧
      ∀ i cell, cells[i]? = some cell → (f.decl (index + i)).mode = .name →
        (f.decl (index + i)).type ≠ .literal → ∃ name, cell = .scalar (.text name)) ∧
      ∀ var, some var ∈ refs → ∃ i, (f.decl i).mode = .reference := by
  induction args generalizing index pc refs m with
  | nil =>
    cases h
    exact ⟨⟨[], by simp, rfl, by simp⟩, by simp⟩
  | cons a args ih =>
    obtain _ | ⟨ha, hhanded⟩ := hhanded
    have hhead := ha.takes
    rw [length_cons, arguments, bind_eq_ok] at h
    obtain ⟨⟨cell, pc₁⟩, m₁, hcell, h⟩ := h
    obtain ⟨_, m₂, hrank, h⟩ := bind_eq_ok.mp h
    obtain ⟨_, m₃, hpush, h⟩ := bind_eq_ok.mp h
    obtain ⟨⟨rest, pc₂⟩, m₄, hrest, h⟩ := bind_eq_ok.mp h
    cases h
    obtain ⟨rfl, hname, href⟩ := nested_argument hcode hplaced.left hcell
    obtain ⟨⟨cells, hitems, hlength, hcells⟩, hrefs⟩ := ih hplaced.right hhanded hrest
    have hm₂ : m₂.values.items = m.values.items := by
      rw [((moves_check _).ok hrank : evaluation.ok _ _).2,
        ((moves_nested code fuel pc none).ok hcell).2]
    have hm₃ : m₃.values.items = m₂.values.items.push cell := by
      rw [onValues, Stack.push] at hpush
      split at hpush
      case h_1 hcheck =>
        split at hcheck
        · cases hcheck
          cases hpush
          rfl
        · cases hcheck
      case h_2 => cases hpush
    refine ⟨⟨cell :: cells, ?_, by simp [hlength], fun i c hc hmode htype => ?_⟩, fun var hmem => ?_⟩
    · rw [hitems, hm₃, hm₂]
      simp
    · cases i with
      | zero =>
        cases hc
        cases a with
        | value e type => exact absurd (hhead hmode) htype
        | reference var type => exact absurd (hmode.symm.trans hhead) (by simp)
        | name text => exact ⟨text, hname text rfl⟩
      | succ i => exact hcells i c hc (by rwa [Nat.add_right_comm]) (by rwa [Nat.add_right_comm])
    · rcases mem_cons.mp hmem with hvar | hmem
      · have haccess := href var hvar.symm
        cases a with
        | value e type => cases haccess
        | reference var type => exact ⟨index, hhead⟩
        | name text => cases haccess
      · exact hrefs var hmem

theorem writeBack_none (f : Function) (base index : Nat)
    (h : ∀ var, some var ∉ refs) : writeBack f base index refs m = .ok () m := by
  induction refs generalizing index with
  | nil => rfl
  | cons reference refs ih =>
    cases reference with
    | none => exact ih _ fun var hmem => h var (mem_cons_of_mem _ hmem)
    | some var => exact absurd mem_cons_self (h var)

end Control

/-! ### Programs -/

/-- Where nothing is waiting to be carried out, nothing is left waiting. -/
def Allowance.quiet (table : Array Function) : Allowance where
  table
  host h h' := h.requests = [] → h'.requests = []
  refl _ := id
  trans h h' := h' ∘ h
  print _ _ := id

namespace Control

open Machine Allowance

variable {table : Array Function}

theorem quiet_requests (hm : m.workspace.functions = table) :
    (leftIn (requests m)).workspace.functions = table ∧
      (leftIn (requests m)).host.requests = [] := by
  have hcarried := (within_carryOut (A := quiet table) m.host.requests).leftIn
    { m with host := { m.host with requests := [] } } hm
  exact ⟨hcarried.1, hcarried.2 rfl⟩

section Commands

variable {func : Nat}
  (hf : table[func]? = some f) (hdiscreet : f.Discreet) (htames : (quiet table).Tames code)
  (hcode : code.size < wordSize) (hplaced : Placed code (pc + 1) (Argument.codes args))
  (hargs : Argument.AllHanded w f 0 args)

include hf hdiscreet htames hcode hplaced hargs

/-- A command that fails has asked for nothing: it fails while its arguments are evaluated, in its
function, or while variables are handed back. -/
theorem quiet_command {failure : Failure} (hm : m.workspace.functions = table)
    (hquiet : m.host.requests = [])
    (h : command code fuel pc func args.length m = .error failure m') : m'.host.requests = [] := by
  have hlookup : functionOf func m = .ok f m := by
    rw [functionOf, get_bind_apply, hm, hf]
    rfl
  rw [command, bind_ok hlookup, get_bind_apply] at h
  have harguments := (within_arguments htames fuel f args.length 0 (pc + 1)).leftIn m hm
  rcases bind_eq_error.mp h with h | ⟨⟨refs, pc'⟩, m₁, hcells, h⟩
  · rw [h] at harguments
    exact harguments.2 hquiet
  rw [hcells] at harguments
  have hquiet₁ := harguments.2 hquiet
  obtain ⟨⟨cells, hitems, hlength, hnames⟩, hrefs⟩ := handed_arguments hcode hplaced hargs hcells
  have htail : m₁.values.tail args.length = .ok cells.toArray := by
    have hsize : m₁.values.size = m.values.items.size + args.length := by
      simp [Stack.size, hitems, hlength]
    rw [Stack.tail, if_neg (by omega), hsize, Nat.add_sub_cancel, hitems]
    simp
  have hhanded : f.Handed cells.toArray := by
    intro i cell hcell hmode htype
    rw [getElem?_toArray] at hcell
    exact hnames i cell hcell (by rwa [Nat.zero_add]) (by rwa [Nat.zero_add])
  dsimp only at h
  rw [get_bind_apply, bind_ok (check_eq_ok.mpr ⟨htail, rfl⟩)] at h
  have hinvoke := invoke_eq f cells.toArray (resultCell f) m₁
  cases hnative : f.native ⟨m₁.host, cells.toArray, resultCell f⟩ with
  | error fault c =>
    rw [hnative] at hinvoke
    rw [bind_ok hinvoke] at h
    cases h
    exact hdiscreet.failing hhanded hquiet₁ hnative
  | ok u c =>
    rw [hnative] at hinvoke
    rw [bind_ok hinvoke] at h
    rw [modify_bind_apply] at h
    -- Only if there are variables to hand back may this fail.
    rcases bind_eq_error.mp h with h | ⟨_, m₂, -, h⟩
    · have hback := (within_writeBack (A := quiet table) f m.values.size 0 refs).leftIn
        { m₁ with host := c.host, values := m₁.values.replaceTail c.args } harguments.1
      have hsome : ∃ var, some var ∈ refs := by
        by_contra hnone
        rw [writeBack_none f _ _ fun var hmem => hnone ⟨var, hmem⟩] at h
        cases h
      obtain ⟨var, hmem⟩ := hsome
      obtain ⟨i, hmode⟩ := hrefs var hmem
      rw [h] at hback
      exact hback.2 (hdiscreet.keeping hmode hquiet₁ hnative)
    · cases h

theorem quiet_step : (quiet table).Within (step code fuel pc (.command func args.length)) := by
  refine .of_leftIn fun m hm => ?_
  have hchanges : Changes code m (leftIn (command code fuel pc func args.length m)) :=
    (moves_command fuel pc func args.length).leftIn m
  have hfunctions := (Workspace.functions_of_changes hchanges).trans hm
  rw [step, bind_apply]
  cases hcommand : command code fuel pc func args.length m with
  | error failure m₁ =>
    rw [hcommand] at hfunctions
    exact ⟨hfunctions, fun hquiet => quiet_command hf hdiscreet htames hcode hplaced hargs hm hquiet
      hcommand⟩
  | ok pc₁ m₁ =>
    rw [hcommand] at hfunctions
    have hrequests : _ ∧ _ := quiet_requests (m := m₁) hfunctions
    dsimp only
    rw [bind_apply]
    generalize requests m₁ = r at hrequests
    cases r with
    | error failure m₂ => exact ⟨hrequests.1, fun _ => hrequests.2⟩
    | ok flow m₂ =>
      cases flow with
      | some flow => exact ⟨hrequests.1, fun _ => hrequests.2⟩
      | none => exact ⟨hrequests.1, fun _ => hrequests.2⟩

end Commands

/-- A program that has been compiled leaves nothing waiting. -/
theorem quiet_run {nodes : List Node} (h : Orderly w nodes) (hsize : nodes.length < wordSize)
    (hdiscreet : ∀ f ∈ w.functions, f.Discreet) (fuel : Nat) :
    (quiet w.functions).Within (run nodes.toArray fuel) := by
  have htames : (quiet w.functions).Tames nodes.toArray := by
    intro node hnode func f hcallee hf
    exact (hdiscreet f (Array.mem_of_getElem? hf)).answering
      (h.answers (List.mem_toArray.mp hnode) hcallee f hf)
  refine within_runFrom htames (fun fuel pc func argc hnode => ?_) fuel 0
  have hpc : pc < nodes.length := by
    rw [List.getElem?_toArray] at hnode
    exact (List.getElem?_eq_some_iff.mp hnode).1
  obtain ⟨f, args, hf, rfl, hargs, hplaced⟩ :=
    h.arguments (placed_toArray nodes) (Nat.zero_le pc) (by omega) hnode
  exact quiet_step hf (hdiscreet f (Array.mem_of_getElem? hf)) htames (by simpa using hsize) hplaced
    hargs

end Control

/-! ### Statements -/

namespace Session

variable [Outside] {s : Session}

/-! #### What is cleared -/

theorem flushOutput_machine (s : Session) :
    s.flushOutput.machine = { s.machine with host := { s.machine.host with output := "" } } := by
  unfold flushOutput
  dsimp only
  split <;> rfl

theorem execute_machine (fuel : Nat) (s : Session) :
    (s.execute fuel).2.machine =
      let m := leftIn (Control.run s.program.nodes fuel { s.machine with counters := [] })
      { m with values := m.values.clear, run := m.run.clear, host := { m.host with output := "" } } := by
  unfold execute
  cases Control.run s.program.nodes fuel { s.machine with counters := [] } with
  | ok flow m => exact flushOutput_machine _
  | error failure m => exact flushOutput_machine _

/-- Neither values nor text are left of a statement. -/
structure Settled (s : Session) : Prop where
  values : s.machine.values.items = #[]
  run : s.machine.run.items = #[]
  output : s.machine.host.output = ""

theorem settled_execute (fuel : Nat) (s : Session) : (s.execute fuel).2.Settled := by
  constructor <;> rw [execute_machine] <;> rfl

theorem settled_statement (hs : s.Settled) (fuel : Nat) (line : String) :
    (s.statement fuel line).2.Settled := by
  have hgoes := goes_statement fuel line s
  have hmachine := s.machine_shown line
  generalize s.statement fuel line = result at hgoes ⊢
  cases hgoes with
  | refused _ =>
    obtain ⟨hvalues, hrun, houtput⟩ := hs
    rw [← hmachine] at hvalues hrun houtput
    exact ⟨hvalues, hrun, houtput⟩
  | ran _ => exact settled_execute fuel _

/-! #### What is asked for -/

/-- The program of a statement leaves nothing waiting. -/
theorem quiet_execute {line : String} {c : Compiler Input}
    (hm : s.workspace.memory.Consistent) (hfits : s.program.limit < wordSize)
    (hdiscreet : ∀ f ∈ s.workspace.functions, f.Discreet)
    (hcompile : Compiler.compile (furtherLines s.settings.continuationPrompt)
      s.settings.limits.nameLength fuel line (s.compiler line) = .ok () c)
    (hquiet : s.machine.host.requests = []) :
    (execute fuel (s.compiled c)).2.machine.host.requests = [] := by
  obtain ⟨lines, tree, -, hwritten, -, hnodes, hsize⟩ := compile_ok rfl rfl hcompile
  have hfunctions : c.workspace.functions = s.workspace.functions :=
    (hwritten.lasting.precedes hm).functions
  have horderly := (hwritten.lasting.now hm).orderly
  have hlength : (tree.code 0 0).length < wordSize := by
    rw [Program.size, hnodes, size_toArray] at hsize
    exact Nat.lt_of_le_of_lt hsize hfits
  have hrun := (Control.quiet_run (horderly 0 0) hlength (hfunctions ▸ hdiscreet) fuel).leftIn
    { (s.compiled c).machine with counters := [] } rfl
  rw [execute_machine]
  change (leftIn (Control.run c.program.nodes fuel _)).host.requests = []
  rw [hnodes]
  exact hrun.2 hquiet

theorem quiet_statement (hm : s.workspace.memory.Consistent) (hfits : s.program.limit < wordSize)
    (hdiscreet : ∀ f ∈ s.workspace.functions, f.Discreet) (hquiet : s.machine.host.requests = [])
    (fuel : Nat) (line : String) : (s.statement fuel line).2.machine.host.requests = [] := by
  have hgoes := goes_statement fuel line s
  have hworkspace : (s.shown line).workspace = s.workspace := by rw [workspace, machine_shown]; rfl
  rw [← s.program_shown line] at hfits
  rw [← s.machine_shown line] at hquiet
  rw [← hworkspace] at hm hdiscreet
  generalize s.statement fuel line = result at hgoes ⊢
  cases hgoes with
  | refused _ => exact hquiet
  | ran hcompile => exact quiet_execute hm hfits hdiscreet hcompile hquiet

end Session

/-! ### How long programs may be -/

namespace Compiler

variable {σ : Type}

def AdmitsSame (c c' : Compiler σ) : Prop := c.program.SameLimit c'.program

instance : IsPreorder (Compiler σ) AdmitsSame where
  refl _ := rfl
  trans _ _ _ h h' := Eq.trans h' h

theorem compiling_admitsSame (source : LineSource σ) : Compiling (.of AdmitsSame) source where
  still _ _ _ hlimit := hlimit
  failed _ _ _ hlimit := hlimit
  create name type shape := by
    constructor
    intro c
    unfold create
    cases Workspace.create name (Cell.fresh type shape .declared) c.workspace with
    | ok handle w => exact Eq.refl c.program.limit
    | error fault w => exact Eq.refl c.program.limit
  drawn h := by
    rw [(nextLine_eq_ok h).2]
    rfl
  ended h := by
    rw [(nextLine_eq_ok h).2]
    rfl
  broken h := by
    rw [(nextLine_eq_error h).2]
    rfl

end Compiler

namespace Session

variable [Outside] {s : Session}

theorem limit_statement (fuel : Nat) (line : String) (s : Session) :
    (s.statement fuel line).2.program.limit = s.program.limit := by
  have hgoes := goes_statement fuel line s
  rw [← s.program_shown line]
  generalize s.shown line = s₁ at hgoes
  have hmoves := Compiler.moves_topLevel
    (Compiler.compiling_admitsSame (furtherLines s₁.settings.continuationPrompt))
    s₁.settings.limits.nameLength fuel
  generalize s.statement fuel line = result at hgoes ⊢
  cases hgoes with
  | refused hcompile =>
    obtain ⟨c₁, htop, rfl⟩ := Compiler.compile_eq_error hcompile
    exact hmoves.error htop
  | @ran c hcompile =>
    have hlimit : c.program.limit = s₁.program.limit := hmoves.ok (Compiler.compile_eq_ok hcompile)
    exact (congrArg Program.limit (program_execute fuel (s₁.compiled c))).trans hlimit

/-! ### Sessions -/

/-- The sessions between statements.  Modules of some kind are registered, input is given, and a
statement is interrupted. -/
inductive Between (settings : Settings) (allowed : Module → Prop) : Session → Prop
  | initial (world : Outside.World) : Between settings allowed (.initial settings world)
  | register {m : Module} {s s' : Session} (hs : Between settings allowed s) (hm : allowed m)
      (h : s.register m = (.ok (), s')) : Between settings allowed s'
  | statement (fuel : Nat) (line : String) {s : Session} (hs : Between settings allowed s) :
      Between settings allowed (s.statement fuel line).2
  | given (input : Input) {s : Session} (hs : Between settings allowed s) :
      Between settings allowed { s with input }
  | interrupted (flag : Bool) {s : Session} (hs : Between settings allowed s) :
      Between settings allowed (s.onHost fun host => { host with interrupted := flag })

namespace Between

variable {settings : Settings} {allowed : Module → Prop}

theorem reached (hs : Between settings allowed s) : Reached settings allowed s := by
  induction hs with
  | initial files => exact .initial files
  | register _ hm h ih => exact .register ih hm h
  | statement fuel line _ ih => exact .statement fuel line ih
  | given input _ ih => exact .aside ih rfl
  | interrupted flag _ ih => exact .aside ih rfl

theorem limit (hs : Between settings allowed s) :
    s.program.limit = settings.limits.compileStack := by
  induction hs with
  | initial files => rfl
  | register _ _ h ih =>
    rw [Session.register] at h
    split at h
    · cases h
      exact ih
    · cases h
  | statement fuel line _ ih => rw [limit_statement, ih]
  | given input _ ih => exact ih
  | interrupted flag _ ih => exact ih

theorem settled (hs : Between settings allowed s) : s.Settled := by
  induction hs with
  | initial files => exact ⟨rfl, rfl, rfl⟩
  | register _ _ h ih =>
    rw [Session.register] at h
    split at h
    · cases h
      exact ⟨ih.values, ih.run, ih.output⟩
    · cases h
  | statement fuel line _ ih => exact settled_statement ih fuel line
  | given input _ ih => exact ⟨ih.values, ih.run, ih.output⟩
  | interrupted flag _ ih => exact ⟨ih.values, ih.run, ih.output⟩

/-- With discreet functions, nothing is waiting between statements. -/
theorem quiet (hs : Between settings allowed s) (hfits : settings.limits.compileStack < wordSize)
    (hdiscreet : ∀ m, allowed m → ∀ f ∈ m.functions, f.Discreet) : s.machine.host.requests = [] := by
  induction hs with
  | initial files => rfl
  | register _ _ h ih =>
    rw [Session.register] at h
    split at h
    · cases h
      exact ih
    · cases h
  | statement fuel line hs ih =>
    exact quiet_statement hs.reached.matched.consistent (hs.limit ▸ hfits)
      (hs.reached.sort (fun _ => Core.discreet) hdiscreet) ih fuel line
  | given input _ ih => exact ih
  | interrupted flag _ ih => exact ih

/-- **A statement leaves nothing behind.**  Whether it succeeds or fails, both stacks and the text to
be printed are empty behind it, whatever the functions do.  What functions have asked for has been
carried out if those of all modules are discreet. -/
theorem leaves_nothing (hs : Between settings allowed s)
    (hfits : settings.limits.compileStack < wordSize) (fuel : Nat) (line : String) :
    (s.statement fuel line).2.machine.values.items = #[] ∧
      (s.statement fuel line).2.machine.run.items = #[] ∧
      (s.statement fuel line).2.machine.host.output = "" ∧
      ((∀ m, allowed m → ∀ f ∈ m.functions, f.Discreet) →
        (s.statement fuel line).2.machine.host.requests = []) := by
  have hs := hs.statement fuel line
  exact ⟨hs.settled.values, hs.settled.run, hs.settled.output, hs.quiet hfits⟩

end Between

end Session

namespace Session

open scoped Cabinet

/-- A command that fails while what it asked for is carried out: the second variable is not there. -/
theorem leaves_nothing_deletion :
    let s := Session.after 60 ["x = 1"]
    (s.statement 60 "delete x, y").1.isOk = false ∧
      (s.statement 60 "delete x, y").2.value? "x" = none ∧
      (s.statement 60 "delete x, y").2.machine.host.requests = [] := by
  have hbetween : Between {} (fun _ => False) (Session.after 60 ["x = 1"]) :=
    .statement 60 "x = 1" (.initial [])
  have hleft := hbetween.leaves_nothing (by decide) 60 "delete x, y"
  refine ⟨by decide +kernel, by decide +kernel, hleft.2.2.2 ?_⟩
  rintro m ⟨⟩

/-- A module whose functions ask to leave the session: one of them has a value, and the other one
fails. -/
def farewell : Module where
  name := "farewell"
  functions :=
    [.once "leaving" [] (.fixed .integer) do
      Call.request (.exit (.minimal 9))
      Call.returnScalar (.integer 1),
    .command "falter" [] do
      Call.request (.exit (.minimal 9))
      throw (.because .functionFailed "")]

/-- What a function asks for in an expression, or before it fails, waits for the next command.  The
first statement does not leave the session, and the second one, which only prints, does. -/
theorem request_waits :
    let s := ((Session.initial {} []).register farewell).2
    ∀ line ∈ ["x = leaving()", "falter"],
      (s.statement 60 line).1.toOption.join = none ∧
        (s.statement 60 line).2.machine.host.requests = [.exit (.minimal 9)] ∧
        ((s.statement 60 line).2.statement 60 "print 1").1.toOption = some (some (.minimal 9)) := by
  decide +kernel

end Session

end ArrayCommand
