/-
The machine runs simple statements.

A node of the machine does what the simple statement does whose code it begins: the variables and
the host come to be the same, the stacks are left as they were, and the machine goes on behind the
code of the statement.

* `Simulates` — the machine keeps pace with a part of a statement;
* `Reads.simulates` — evaluating is a part of a statement;
* `Simple.simulates_assign`, `Simple.simulates_declare`, `Simple.simulates_command` — the three
  kinds of simple statements;
* `Function.KeepsCount` — the cells handed to a function are as many when it comes back;
* `Simple.simulates` — one node and one simple statement.
-/

import ArrayCommand.Proofs.Evaluation
import ArrayCommand.Proofs.Layout

namespace ArrayCommand

open Machine Control Argument Tracks Direct Typed

open WorldM (evaluating)

variable {short : Prop} {m : Machine} {code : Array Node} {pc fuel : Nat} {var : Handle}
  {cells args : Array Cell} {host : Host}

/-! ### Keeping pace with a statement -/

def Machine.inWorld (m : Machine) (W : World) : Machine :=
  { m with workspace := W.workspace, host := W.host }

/-- A machine that runs a part of a statement keeps pace with it: it comes back with nothing changed
but the variables and the host. -/
abbrev Simulates {α β : Type} (short : Prop) (m : Machine) (same : β → α → Prop) :
    Machine.Result β → EStateM.Result Fault World α → Prop :=
  Tracks Machine.world (fun _ => True) short fun b a m' => same b a ∧ ∃ W, m' = m.inWorld W

theorem Tracks.evaluating {α β : Type} {post : β → α → Machine → Prop} {x : Workspace → HostM α}
    {r : Machine.Result β}
    (h : Tracks Machine.host (fun m' => m'.workspace = m.workspace) short post r
      (x m.workspace m.host)) (hpost : ∀ b a m', post b a m' → m'.workspace = m.workspace) :
    Tracks Machine.world (fun _ => True) short post r (WorldM.evaluating x m.world) := by
  unfold WorldM.evaluating Machine.world
  generalize x m.workspace m.host = y at h
  cases h with
  | value hp =>
    rw [← hpost _ _ _ hp]
    exact .value hp
  | fault hk =>
    rw [← hk]
    exact .fault trivial
  | disturbed hd => exact .disturbed hd
  | spent hs => exact .spent hs

namespace Simulates

variable {α β γ δ : Type} {same : β → α → Prop} {same' : γ → δ → Prop}

theorem bind {x : MachineM β} {next : β → MachineM γ} {y : WorldM α} {cont : α → WorldM δ}
    (h : Simulates short m same (x m) (y m.world))
    (hnext : ∀ b a W, same b a →
      Simulates short (m.inWorld W) same' (next b (m.inWorld W)) (cont a W)) :
    Simulates short m same' ((x >>= next) m) ((y >>= cont) m.world) := by
  refine Tracks.bind h ?_
  rintro b a _ ⟨hsame, W, rfl⟩
  refine (hnext b a W hsame).mono id ?_
  rintro c d _ ⟨hc, W', rfl⟩
  exact ⟨hc, W', rfl⟩

theorem pure {b : β} {a : α} (h : same b a) :
    Simulates short m same ((Pure.pure b : MachineM β) m) ((Pure.pure a : WorldM α) m.world) :=
  .value ⟨h, m.world, rfl⟩

theorem valueOf {post : γ → δ → Machine → Prop} {next : Cell → MachineM γ} {cont : Cell → WorldM δ}
    (hnext : ∀ cell, Tracks world (fun _ => True) short post (next cell m) (cont cell m.world)) :
    Tracks world (fun _ => True) short post ((valueOf var >>= next) m)
      ((WorldM.valueOf var >>= cont) m.world) :=
  .check (by trivial) fun cell _ => hnext cell

theorem update {next : Unit → MachineM γ} {cont : Unit → WorldM δ} {value : Cell}
    (hnext : ∀ W, Simulates short (m.inWorld W) same' (next () (m.inWorld W)) (cont () W)) :
    Simulates short m same' ((Machine.update var value >>= next) m)
      ((WorldM.update var value >>= cont) m.world) := by
  have hx : Simulates short m (fun (_ _ : Unit) => True) (Machine.update var value m)
      (WorldM.update var value m.world) :=
    .value ⟨trivial, ⟨{ m.workspace with memory := m.workspace.memory.update var value }, m.host⟩,
      rfl⟩
  exact bind hx fun _ _ W _ => hnext W

theorem evaluating {x : Workspace → HostM α} {r : Machine.Result β}
    (h : Follows short m same r (x m.workspace m.host)) :
    Simulates short m same r (WorldM.evaluating x m.world) := by
  refine (Tracks.evaluating h ?_).mono id ?_
  · rintro b a _ ⟨_, host, rfl⟩
    rfl
  · rintro b a _ ⟨hsame, host, rfl⟩
    exact ⟨hsame, ⟨m.workspace, host⟩, rfl⟩

end Simulates

theorem Reads.simulates {α β γ δ : Type} {nodes : List Node} {same : β → α → Prop}
    (read : CodeReader β) {x : Workspace → HostM α} {same' : γ → δ → Prop}
    {next : β × Nat → MachineM γ} {cont : α → WorldM δ} (h : ∀ w, Reads w nodes same read (x w))
    (hcode : code.size < wordSize) (hplaced : Placed code pc nodes)
    (hshort : fuel < nodes.length → short)
    (hnext : ∀ b a W, same b a → Simulates short (m.inWorld W) same'
      (next (b, pc + nodes.length) (m.inWorld W)) (cont a W)) :
    Simulates short m same' ((read code fuel pc >>= next) m)
      ((WorldM.evaluating x >>= cont) m.world) := by
  have hread := (h m.workspace code fuel pc m rfl hcode hplaced).mono hshort fun _ _ _ => id
  refine Simulates.bind (Simulates.evaluating hread) ?_
  rintro ⟨b, _⟩ a W ⟨rfl, hsame⟩
  exact hnext b a W hsame

/-! ### Assignments -/

variable {w : Workspace}

theorem Typed.reads_listItems (values : List Typed) : ∀ index list, Reads w (codes values) (· = ·)
      (fun code fuel pc => Control.listItems code fuel values.length index pc list)
      (listItems w values index list) := by
  induction values with
  | nil => exact fun _ _ => .pure rfl
  | cons v values ih =>
    intro index list
    have hrest : ∀ item : Cell, Reads w (codes values) (· = ·)
        (fun code fuel pc => do
          if item.size ≠ 1 then
            fail (.because .shapeMismatch "LIST ITEMS MUST BE SCALARS")
          let list ← check (list.set index (← check item.first))
          Control.listItems code fuel values.length (index + 1) pc list)
        (do
          check (if item.size ≠ 1 then
            .error (.because .shapeMismatch "LIST ITEMS MUST BE SCALARS") else .ok ())
          let list ← check (list.set index (← check item.first))
          listItems w values (index + 1) list) := by
      intro item
      by_cases hsize : item.size ≠ 1
      · simp only [if_pos hsize]
        exact .fail _
      · simp only [if_neg hsize]
        exact .checking _ fun s => .checking _ fun list => ih (index + 1) list
    exact ((v.expr.computes w).nested v.type none).andThen hrest

theorem Typed.reads_rightSide (values : List Typed) (type : ElementType) (fill : Shape) :
    Reads w (codes values) (· = ·)
      (fun code fuel pc => Control.rightSide code fuel values.length pc type fill)
      (rightSide values type fill w) := by
  match values with
  | [] => exact reads_listItems [] 0 _
  | [v] =>
    have h := (v.expr.computes w).nested v.type (some fill)
    rw [← List.append_nil (v.expr.code v.type)] at h
    exact h
  | v :: v' :: values =>
    exact reads_listItems (v :: v' :: values) 0 _

section Simple

theorem Simple.simulates_assign (var : Handle) (subscripts : Option (List Subscript))
    (values : List Typed) (hcode : code.size < wordSize)
    (hplaced : Placed code pc (Simple.assign var subscripts values).code) :
    Simulates (fuel < (Simple.assign var subscripts values).code.length) m
      (fun pc' _ => pc' = pc + (Simple.assign var subscripts values).code.length)
      (Control.assign code fuel pc var (subscripts.map fun list => list.map Subscript.axis)
        values.length m)
      (Simple.assigning var subscripts values m.world) := by
  have hlength : (Simple.assign var subscripts values).code.length =
      (Subscript.codes (subscripts.getD [])).length + (Typed.codes values).length + 1 := by
    simp [Simple.code]
  refine Simulates.valueOf fun target => ?_
  cases hwritable : target.owner.isWritable with
  | true =>
    simp only [Cell.checkWritable, hwritable, if_true, Bool.not_true]
    have hrhs := hplaced.tail.right
    cases subscripts with
    | none =>
      refine Reads.simulates _ (fun w => Typed.reads_rightSide values target.type target.shape)
        hcode hrhs (fun _ => by omega) ?_
      rintro rhs _ W rfl
      refine Simulates.valueOf fun value => check (by trivial) fun value' _ => ?_
      refine Simulates.update fun W' => .pure ?_
      rw [hlength]
      simp [Subscript.codes]
      omega
    | some subscripts =>
      have hview : ∀ w, Reads w (Subscript.codes subscripts) (· = ·)
          (fun code fuel pc => Evaluate.sectionWith (Evaluate.expression code fuel) code pc
            target.shape (subscripts.map Subscript.axis))
          (Subscript.view w target.shape subscripts) :=
        fun w => Expr.Computes.view (fun s _ e _ => e.computes w) target.shape
      refine Reads.simulates _ hview hcode hplaced.tail.left
        (fun _ => by rw [hlength, Option.getD_some]; omega) ?_
      rintro view _ W rfl
      refine Reads.simulates _ (fun w => Typed.reads_rightSide values target.type view.shape)
        hcode hrhs (fun _ => by omega) ?_
      rintro rhs _ W' rfl
      refine Simulates.valueOf fun value => ?_
      refine Simulates.update fun W'' => ?_
      rw [← bind_pure (Direct.check _)]
      refine check (by trivial) fun _ _ => Simulates.pure ?_
      rw [hlength, Option.getD_some]
      omega
  | false =>
    simp only [Cell.checkWritable, hwritable, Bool.not_false, if_true, get_bind_apply]
    change Simulates _ m _ _ ((Direct.check
      (((m.workspace.memory.get var).map Variable.name) >>= fun _ => _) >>= _) m.world)
    cases m.workspace.memory.get var with
    | ok _ => exact .fault trivial
    | error fault => exact .fault trivial

theorem Simple.simulates_declare (var : Handle) (extents : List Expr) (hcode : code.size < wordSize)
    (hplaced : Placed code pc (Simple.declare var extents).code) :
    Simulates (fuel < (Simple.declare var extents).code.length) m
      (fun pc' _ => pc' = pc + (Simple.declare var extents).code.length)
      (Control.declare code fuel pc var extents.length m)
      (Simple.declaring var extents m.world) := by
  have hextents : ∀ w, Reads w (Expr.codes extents) (· = ·)
      (fun code fuel pc => Evaluate.extentsWith (Evaluate.expression code fuel) code
        extents.length pc)
      (Expr.extents w extents) :=
    fun w => Expr.Computes.extents fun e _ => e.computes w
  refine Reads.simulates (fun code fuel pc =>
    Evaluate.extentsWith (Evaluate.expression code fuel) code extents.length pc) hextents hcode
    hplaced.tail (fun _ => by simp only [Simple.code, List.length_cons]; omega) ?_
  rintro dims _ W rfl
  refine check (by trivial) fun shape _ => Simulates.valueOf fun value =>
    check (by trivial) fun value' _ => ?_
  refine Simulates.update fun W' => .pure ?_
  simp only [Simple.code, List.length_cons]
  omega

end Simple

/-! ### Commands -/

theorem Argument.reference?_placed {a : Argument} (hplaced : Placed code pc a.code) :
    Control.reference? code pc = a.reference? := by
  cases a <;> rw [Control.reference?, hplaced.head] <;> rfl

theorem Argument.commandCells_track (f : Function) (args : List Argument) :
    ∀ (code : Array Node) (fuel index pc : Nat) (m : Machine), code.size < wordSize →
      Placed code pc (codes args) →
      Tracks Machine.host (fun m' => m'.workspace = m.workspace) (fuel < (codes args).length)
        (fun r cells m' => r = (args.map reference?, pc + (codes args).length) ∧
          cells.length = args.length ∧ ∃ host, m' = m.loaded host cells)
        (arguments code fuel f args.length index pc m)
        (commandCells f m.workspace index args m.host) := by
  induction args with
  | nil =>
    intro code fuel index pc m _ _
    exact .value ⟨rfl, rfl, m.host, Machine.loaded_nil.symm⟩
  | cons a args ih =>
    intro code fuel index pc m hcode hplaced
    have hlength : (codes (a :: args)).length = a.code.length +
      (codes args).length := List.length_append
    have hcell := reads (fun e _ => e.computes m.workspace) code fuel pc m rfl hcode hplaced.left
    have href := reference?_placed hplaced.left
    refine bind (hcell.mono (fun _ => by omega) fun _ _ _ => id) ?_
    rintro ⟨cell, _⟩ _ _ ⟨⟨rfl, rfl⟩, host, rfl⟩
    dsimp only
    cases Machine.checkRank f index cell with
    | error fault => exact .fault rfl
    | ok u =>
      rw [check_ok_bind]
      refine step rfl (pushCell ?_)
      have hrest := ih code fuel (index + 1) _ (m.loaded host [cell]) hcode hplaced.right
      refine bind (hrest.mono (fun _ => by omega) fun _ _ _ => id) ?_
      rintro _ cells _ ⟨rfl, hcount, host', rfl⟩
      refine .value ⟨?_, by simp [hcount], host', ?_⟩
      · rw [href, hlength, Nat.add_assoc]
        rfl
      · rw [Machine.loaded_loaded, List.singleton_append]

/-- A function is given a fixed number of argument cells and leaves as many. -/
def Function.KeepsCount (f : Function) : Prop :=
  ∀ c u c', f.native c = .ok u c' → c'.args.size = c.args.size

theorem Argument.simulates_writeBack (f : Function) {base : Nat} :
    ∀ (refs : List (Option Handle)) (index : Nat) (m : Machine) (short : Prop),
      (∀ i, m.values.items[base + i]? = cells[i]?) →
      Simulates short m (fun _ _ => True) (Control.writeBack f base index refs m)
        (writeBack f cells index refs m.world) := by
  intro refs
  induction refs with
  | nil => exact fun _ _ _ _ => .pure trivial
  | cons ref refs ih =>
    intro index m short hcells
    cases ref with
    | none => exact ih (index + 1) m short hcells
    | some var =>
      simp only [Control.writeBack, writeBack, get_bind_apply, hcells index]
      cases cells[index]? with
      | none => exact .fault trivial
      | some new =>
        refine Simulates.valueOf fun cell => ?_
        by_cases hsame : cell.same new
        · simp only [hsame, Bool.not_true, if_true]
          exact ih (index + 1) m short hcells
        · simp only [hsame, Bool.not_false, if_true]
          by_cases hwritable : cell.owner.isWritable
          · simp only [hwritable, Bool.not_true, if_true, check_ok_bind]
            refine check (by trivial) fun value _ => Simulates.update fun W => ?_
            exact ih (index + 1) (m.inWorld W) short hcells
          · simp only [hwritable, Bool.not_false, if_true]
            exact .fault trivial

theorem simulates_delete (name : String) :
    Simulates short m (fun _ _ => True) (delete name m) (WorldM.delete name m.world) := by
  have hnames : m.world.workspace = m.workspace := rfl
  rw [delete, get_bind_apply, WorldM.delete, get_bind_apply, hnames]
  cases m.workspace.names.get? name with
  | none => exact .fault trivial
  | some entry =>
    cases entry with
    | var handle =>
      refine Simulates.valueOf fun value => ?_
      by_cases hdeletable : value.owner.isDeletable
      · simp only [hdeletable, Bool.not_true, if_true, check_ok_bind]
        exact .value ⟨trivial, ⟨m.workspace.withdraw name handle, m.host⟩, rfl⟩
      · simp only [hdeletable, Bool.not_false, if_true]
        exact .fault trivial
    | func _ _ => exact .fault trivial
    | package _ => exact .fault trivial

theorem simulates_print (text : String) :
    Simulates short m (fun _ _ => True) (print text m) (WorldM.print text m.world) :=
  .value ⟨trivial, ⟨m.workspace, m.host.print text⟩, rfl⟩

theorem simulates_carryOut (list : List Request) :
    ∀ m : Machine, Simulates short m (· = ·) (carryOut list m) (WorldM.carryOut list m.world) := by
  induction list with
  | nil => exact fun _ => .pure rfl
  | cons request rest ih =>
    intro m
    cases request with
    | delete name => exact (simulates_delete name).bind fun _ _ W _ => ih (m.inWorld W)
    | list beginning =>
      rw [carryOut, get_bind_apply, WorldM.carryOut, get_bind_apply]
      exact check (by trivial) fun text _ =>
        (simulates_print text).bind fun _ _ W _ => ih (m.inWorld W)
    | help topic =>
      rw [carryOut, get_bind_apply, WorldM.carryOut, get_bind_apply]
      exact check (by trivial) fun text _ =>
        (simulates_print text).bind fun _ _ W _ => ih (m.inWorld W)
    | exit mode => exact .pure rfl

theorem simulates_requests (m : Machine) :
    Simulates short m (· = ·) (requests m) (WorldM.requests m.world) := by
  refine (simulates_carryOut m.host.requests
    (m.inWorld ⟨m.workspace, { m.host with requests := [] }⟩)).mono id ?_
  rintro _ _ _ ⟨hflow, W, rfl⟩
  exact ⟨hflow, W, rfl⟩

theorem Machine.replace_loaded {host' : Host} {cells : List Cell} (h : args.size = cells.length) :
    { m.loaded host cells with
      host := host', values := (m.loaded host cells).values.replaceTail args } =
      m.loaded host' args.toList := by
  simp [loaded, Stack.replaceTail, Stack.size, h]

theorem Machine.getElem?_loaded (i : Nat) :
    (m.loaded host cells.toList).values.items[m.values.size + i]? = cells[i]? := by
  simp [loaded, Stack.size, Array.getElem?_append_right]

theorem Tracks.invoking {γ δ : Type} {after : γ → δ → Machine → Prop} {f : Function}
    {out : Option Cell}
    {next : Array Cell × Option Cell × Option Fault → MachineM γ}
    {cont : Array Cell × Option Cell → WorldM δ}
    (hok : ∀ c : Call, f.native ⟨m.host, args, out⟩ = .ok () c →
      Tracks Machine.world (fun _ => True) short after
        (next (c.args, c.out, none) { m with host := c.host })
        (cont (c.args, c.out) ⟨m.workspace, c.host⟩))
    (herror : ∀ (f : Fault) (c : Call), Tracks Machine.world (fun _ => True) short after
      (next (c.args, c.out, some f) { m with host := c.host })
      (.error f ⟨m.workspace, c.host⟩)) :
    Tracks Machine.world (fun _ => True) short after ((Machine.invoke f args out >>= next) m)
      ((WorldM.evaluating (fun _ => Direct.invoke f args out) >>= cont) m.world) := by
  rw [bind_apply, Machine.invoke_eq, bind_apply, WorldM.evaluating, Direct.invoke]
  cases hrun : f.native ⟨m.host, args, out⟩ with
  | ok _ c =>
    simp only [Machine.world, hrun]
    exact hok c hrun
  | error f c =>
    simp only [Machine.world, hrun]
    exact herror f c

/-- Where the machine goes on after a simple statement whose code ends at an address. -/
def Simple.next (finish : Nat) : Option Flow → Next
  | some flow => .done flow
  | none => .at finish

theorem Simple.simulates_command (func : Nat) (args : List Argument) (hcode : code.size < wordSize)
    (hplaced : Placed code pc (Simple.command func args).code)
    (hkeeps : ∀ f ∈ m.workspace.functions, f.KeepsCount) :
    Simulates (fuel < (Simple.command func args).code.length) m
      (fun next flow? => next = Simple.next (pc + (Simple.command func args).code.length) flow?)
      ((do
        let pc ← Control.command code fuel pc func args.length
        match ← Control.requests with
        | some flow => return .done flow
        | none => return .at pc : MachineM Next) m)
      (Simple.commanding func args m.world) := by
  have hlength : (Simple.command func args).code.length = (Argument.codes args).length + 1 := rfl
  simp only [Control.command, Simple.commanding, bind_assoc]
  have hfunction : Tracks Machine.world (fun _ => True) (fuel < (Argument.codes args).length + 1)
      (fun f f' m' => f = f' ∧ m' = m ∧ f.KeepsCount) (Machine.functionOf func m)
      (evaluating (fun w => functionOf w func) m.world) := by
    refine (evaluating (functionOf (by rfl) func) ?_).mono id ?_
    · rintro _ _ m' ⟨_, hm, _⟩
      rw [hm]
    · rintro f _ m' ⟨rfl, hm, hf⟩
      exact ⟨rfl, hm, hkeeps f (Array.mem_of_getElem? hf)⟩
  refine bind hfunction ?_
  rintro f _ m' ⟨rfl, hm, hf⟩
  rw [hm, get_bind_apply]
  have hcells := Argument.commandCells_track f args code fuel 0 (pc + 1) m hcode hplaced.tail
  refine bind ((hcells.evaluating ?_).mono (fun _ => by omega) fun _ _ _ => id) ?_
  · rintro _ cells _ ⟨_, _, host, rfl⟩
    rfl
  rintro _ cells _ ⟨rfl, hcount, host, rfl⟩
  rw [get_bind_apply, Machine.tail_loaded hcount]
  refine step rfl (invoking ?_ ?_)
  · intro c hrun
    rw [modify_bind_apply]
    have hsize : c.args.size = cells.length := by
      rw [hf _ _ _ hrun, List.size_toArray]
    simp only [bind_assoc]
    rw [Machine.replace_loaded hsize]
    have hwrite := Argument.simulates_writeBack f (args.map Argument.reference?) 0
      (m.loaded c.host c.args.toList) (fuel < (Argument.codes args).length + 1)
      Machine.getElem?_loaded
    refine bind hwrite ?_
    rintro _ _ _ ⟨_, W, rfl⟩
    have hunload : { (m.loaded c.host c.args.toList).inWorld W with
        values := ((m.loaded c.host c.args.toList).inWorld W).values.truncate m.values.size } =
        m.inWorld W := by
      simp [Machine.loaded, Machine.inWorld, Stack.truncate, Stack.size]
    rw [modify_bind_apply, hunload, pure_bind, ← bind_pure WorldM.requests]
    refine bind (simulates_requests (m.inWorld W)) ?_
    rintro flow? _ _ ⟨rfl, W', rfl⟩
    cases flow? with
    | some flow => exact .value ⟨rfl, W', rfl⟩
    | none => exact .value ⟨by rw [Simple.next, Next.at.injEq]; omega, W', rfl⟩
  · intro fault c
    exact .fault trivial

/-! ### One node -/

theorem Simple.simulates {node : Node} {rest : List Node} (s : Simple)
    (hs : s.code = node :: rest) (hcode : code.size < wordSize) (hplaced : Placed code pc s.code)
    (hkeeps : ∀ f ∈ m.workspace.functions, f.KeepsCount) :
    Simulates (fuel < s.code.length) m
      (fun next flow? => next = Simple.next (pc + s.code.length) flow?)
      (step code fuel pc node m) (s.run m.world) := by
  cases s with
  | assign var subscripts values =>
    obtain ⟨rfl, -⟩ := List.cons.inj hs
    refine (simulates_assign var subscripts values hcode hplaced).bind ?_
    rintro _ _ W rfl
    exact .pure rfl
  | command func args =>
    obtain ⟨rfl, -⟩ := List.cons.inj hs
    exact simulates_command func args hcode hplaced hkeeps
  | declare var extents =>
    obtain ⟨rfl, -⟩ := List.cons.inj hs
    refine (simulates_declare var extents hcode hplaced).bind ?_
    rintro _ _ W rfl
    exact .pure rfl

end ArrayCommand
