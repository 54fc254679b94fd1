/-
What the compiler makes of the lines of a statement.

The compiler reads lines as the block language says, and takes exactly the lines of the statement
from the source.  The nodes it adds are those of the statement; a jump is pointed to its target once
the nodes up to the target are there.

* `Compiler.Grows` — lines were taken and nodes were added;
* `Emits` — a step of compilation reads what a step of reading reads, and adds nodes;
* `Compiler.Grows.patchHere` — a jump is pointed to the end of the nodes;
* `Compiles.whileBlock`, `Compiles.repeatBlock`, `Compiles.doBlock`, `Compiles.ifBlock` — loops and
  conditionals, given what the compiler makes of blocks;
* `Compiles.statement`, `compiles_block` — statements and blocks;
* `compile_ok` — a whole statement.
-/

import ArrayCommand.Proofs.Outline
import ArrayCommand.Proofs.Layout
import ArrayCommand.Proofs.Tracking

namespace ArrayCommand

open Compiler List Statement

open Program (distance)

variable {lines : List String} {nodes : List Node} {u : Unit} {groups : List (List Node)}
  {node : Node} {address pc : Nat} {name : String} {value : Cell} {w : Workspace} {var : Handle}
  {column : Column} {type : ElementType} {list : List Typed} {word : Keyword}
variable {σ α β γ δ : Type} {source : LineSource σ}

/-! ### What compilation adds -/

/-- What reading depends on while a statement is compiled. -/
def Compiler.toReading (c : Compiler σ) : Reading := ⟨c.workspace, c.lexer⟩

/-- From one state of compilation to another, lines were taken from the source and nodes were added
to the program. -/
structure Compiler.Grows (source : LineSource σ) (c : Compiler σ) (lines : List String)
    (nodes : List Node) (c' : Compiler σ) : Prop where
  draws : Draws source c.source lines c'.source
  nodes : c'.program.nodes.toList = c.program.nodes.toList ++ nodes
  limit : c'.program.limit = c.program.limit
  fits : c.program.size ≤ c.program.limit → c'.program.size ≤ c.program.limit
  loops : c'.loops = c.loops

namespace Compiler.Grows

variable {c c₁ c' : Compiler σ} {lines' : List String} {nodes' : List Node}

theorem refl (c : Compiler σ) : c.Grows source [] [] c :=
  ⟨.nil _, (append_nil _).symm, rfl, id, rfl⟩

theorem trans (h : c.Grows source lines nodes c₁) (h' : c₁.Grows source lines' nodes' c') :
    c.Grows source (lines ++ lines') (nodes ++ nodes') c' where
  draws := h.draws.append h'.draws
  nodes := by rw [h'.nodes, h.nodes, append_assoc]
  limit := h'.limit.trans h.limit
  fits hfits := by
    have := h'.fits (h.limit ▸ h.fits hfits)
    rwa [h.limit] at this
  loops := h'.loops.trans h.loops

theorem size (h : c.Grows source lines nodes c') :
    c'.program.size = c.program.size + nodes.length := by
  have := congrArg length h.nodes
  simpa [Program.size] using this

end Compiler.Grows

section Adding

variable {c c' : Compiler σ} (source : LineSource σ)

theorem Compiler.reading_ok {read : Workspace → Parse.Reader α} {a : α}
    (h : reading read c = .ok a c') :
    Outline.reading read c.toReading = .ok a c'.toReading ∧ c.Grows source [] [] c' := by
  rw [reading] at h
  cases hr : read c.workspace c.lexer with
  | error fault lexer => rw [hr] at h; cases h
  | ok b lexer =>
    rw [hr] at h
    cases h
    refine ⟨?_, .nil _, (append_nil _).symm, rfl, id, rfl⟩
    simp only [Outline.reading, toReading, hr]

theorem Compiler.append_ok (h : append nodes c = .ok u c') :
    c'.toReading = c.toReading ∧ c.Grows source [] nodes c' := by
  simp only [append, emitting, Program.append] at h
  split at h
  · next hp =>
      split at hp
      · next hfits =>
          cases hp
          cases h
          exact ⟨rfl, .nil _, by simp, rfl, fun _ => hfits, rfl⟩
      · cases hp
  · cases h

theorem Compiler.appendAll_ok (h : appendAll groups c = .ok u c') :
    c'.toReading = c.toReading ∧ c.Grows source [] groups.flatten c' := by
  induction groups generalizing c with
  | nil => cases h; exact ⟨rfl, .refl _⟩
  | cons nodes rest ih =>
    obtain ⟨_, c₁, happend, h⟩ := bind_eq_ok.1 h
    obtain ⟨hread, hgrows⟩ := append_ok source happend
    obtain ⟨hread', hgrows'⟩ := ih h
    exact ⟨hread'.trans hread, hgrows.trans hgrows'⟩

theorem Compiler.emit_ok (h : emit node c = .ok address c') :
    address = c.program.size ∧ c'.toReading = c.toReading ∧ c.Grows source [] [node] c' := by
  have happend : append [node] c = .ok () c' ∧ address = c.program.size := by
    have hemit : Program.emit node c.program =
        (Program.append [node] >>= fun _ => pure c.program.size) c.program := rfl
    simp only [emit, append, emitting, hemit, bind_apply] at h ⊢
    cases hp : Program.append [node] c.program with
    | error fault program => rw [hp] at h; cases h
    | ok _ program =>
      rw [hp] at h
      cases h
      exact ⟨rfl, rfl⟩
  obtain ⟨happend, rfl⟩ := happend
  exact ⟨rfl, append_ok source happend⟩

end Adding

theorem Outline.create_ok {r : Reading} {handle : Handle}
    (h : Workspace.create name value r.workspace = .ok handle w) :
    Outline.create name value r = .ok handle ⟨w, r.lexer⟩ := by
  unfold Outline.create
  generalize Workspace.create name value r.workspace = x at h
  subst h
  rfl

/-- A step of compilation does what a step of reading does, and adds nodes to the program. -/
def Emits (source : LineSource σ) (x : CompileM σ α) (y : ReadM β)
    (same : α → β → List Node → Prop) : Prop :=
  ∀ c a c', x c = .ok a c' → ∃ b nodes, y c.toReading = .ok b c'.toReading ∧ same a b nodes ∧
    c.Grows source [] nodes c'

namespace Emits

variable {same : α → β → List Node → Prop} {same' : γ → δ → List Node → Prop}
variable {y : ReadM δ}

theorem bind {x : CompileM σ α} {y : ReadM β} {next : α → CompileM σ γ} {cont : β → ReadM δ}
    (h : Emits source x y same)
    (hnext : ∀ a b nodes, same a b nodes →
      Emits source (next a) (cont b) fun a' b' nodes' => same' a' b' (nodes ++ nodes')) :
    Emits source (x >>= next) (y >>= cont) same' := by
  intro c a' c' hrun
  obtain ⟨a, c₁, hx, hrun⟩ := bind_eq_ok.1 hrun
  obtain ⟨b, nodes, hy, hsame, hgrows⟩ := h c a c₁ hx
  obtain ⟨b', nodes', hy', hsame', hgrows'⟩ := hnext a b nodes hsame c₁ a' c' hrun
  exact ⟨b', nodes ++ nodes', bind_eq_ok.2 ⟨b, _, hy, hy'⟩, hsame', hgrows.trans hgrows'⟩

theorem pure {a : α} {b : β} (h : same a b []) :
    Emits source (Pure.pure a : CompileM σ α) (Pure.pure b) same := by
  rintro c _ _ ⟨⟩
  exact ⟨b, [], rfl, h, .refl c⟩

theorem fail {fault : Fault} {y : ReadM β} : Emits source (fail fault : CompileM σ α) y same := by
  rintro c _ _ ⟨⟩

/-! ### Steps of reading -/

theorem read {read : Workspace → Parse.Reader α} {next : α → CompileM σ γ} {cont : α → ReadM δ}
    (hnext : ∀ a, Emits source (next a) (cont a) same') :
    Emits source (reading read >>= next) (Outline.reading read >>= cont) same' := by
  intro c b c' hrun
  obtain ⟨a, c₁, hread, hrun⟩ := bind_eq_ok.1 hrun
  obtain ⟨hread', hgrows⟩ := reading_ok source hread
  obtain ⟨b', nodes, hy, hsame, hgrows'⟩ := hnext a c₁ b c' hrun
  exact ⟨b', nodes, bind_eq_ok.2 ⟨a, _, hread', hy⟩, hsame, hgrows.trans hgrows'⟩

theorem take {read : Parse.Reader α} {next : α → CompileM σ γ} {cont : α → ReadM δ}
    (hnext : ∀ a, Emits source (next a) (cont a) same') :
    Emits source (taking read >>= next) (Outline.taking read >>= cont) same' :=
  Emits.read hnext

theorem lookup {next : Option Entry → CompileM σ γ}
    {cont : Option Entry → ReadM δ} (hnext : ∀ a, Emits source (next a) (cont a) same') :
    Emits source ( entry? name >>= next) (Outline.lookup name >>= cont) same' :=
  fun c => hnext (c.workspace.names.get? name) c

theorem valueOf {next : Cell → CompileM σ γ} {cont : Cell → ReadM δ}
    (hnext : ∀ a, Emits source (next a) (cont a) same') :
    Emits source (Compiler.valueOf var >>= next) (Outline.valueOf var >>= cont) same' := by
  intro c a c' hrun
  obtain ⟨value, c₁, hvalue, hrun⟩ := bind_eq_ok.1 hrun
  rw [Compiler.valueOf, get_bind_apply] at hvalue
  cases hv : c.workspace.memory.value var with
  | error fault => rw [hv] at hvalue; cases hvalue
  | ok _ =>
    rw [hv] at hvalue
    cases hvalue
    obtain ⟨b, nodes, hy, hrest⟩ := hnext value c a c' hrun
    refine ⟨b, nodes, bind_eq_ok.2 ⟨value, _, ?_, hy⟩, hrest⟩
    rw [Outline.valueOf, get_bind_apply, Compiler.toReading, hv]
    rfl

theorem create {next : Handle → CompileM σ γ}
    {cont : Handle → ReadM δ} (hnext : ∀ a, Emits source (next a) (cont a) same') :
    Emits source (Compiler.create name value >>= next) (Outline.create name value >>= cont)
      same' := by
  have hcreate : Emits source (Compiler.create name value) (Outline.create name value)
      fun a b nodes => a = b ∧ nodes = [] := by
    intro c a c' hrun
    unfold Compiler.create at hrun
    generalize hr : Workspace.create name value c.workspace = r at hrun
    cases r with
    | error fault workspace => cases hrun
    | ok handle workspace =>
      obtain ⟨rfl, rfl⟩ := EStateM.Result.ok.inj hrun
      refine ⟨handle, [], ?_, ⟨rfl, rfl⟩, .nil _, (append_nil _).symm, rfl, id, rfl⟩
      exact Outline.create_ok (r := c.toReading) hr
  refine bind hcreate ?_
  rintro a _ _ ⟨rfl, rfl⟩
  exact hnext a

/-! ### Steps that add nodes -/

theorem adds {x : CompileM σ α} {next : α → CompileM σ γ}
    (hx : ∀ {c a c'}, x c = .ok a c' → c'.toReading = c.toReading ∧ c.Grows source [] nodes c')
    (hnext : ∀ a, Emits source (next a) y fun a b nodes' => same' a b (nodes ++ nodes')) :
    Emits source (x >>= next) y same' := by
  intro c a' c' hrun
  obtain ⟨a, c₁, hadd, hrun⟩ := bind_eq_ok.1 hrun
  obtain ⟨b, nodes', hy, hsame, hgrows⟩ := hnext a c₁ a' c' hrun
  obtain ⟨hread, hgrows'⟩ := hx hadd
  rw [hread] at hy
  exact ⟨b, nodes ++ nodes', hy, hsame, hgrows'.trans hgrows⟩

theorem append {next : Unit → CompileM σ γ}
    (hnext : Emits source (next ()) y fun a b nodes' => same' a b (nodes ++ nodes')) :
    Emits source (append nodes >>= next) y same' :=
  .adds (append_ok source) fun _ => hnext

theorem emit {next : Nat → CompileM σ γ}
    (hnext : ∀ a, Emits source (next a) y fun a b nodes => same' a b (node :: nodes)) :
    Emits source (emit node >>= next) y same' :=
  .adds (fun h => (emit_ok source h).2) hnext

theorem appendAll {next : Unit → CompileM σ γ}
    (hnext : Emits source (next ()) y fun a b nodes => same' a b (groups.flatten ++ nodes)) :
    Emits source (appendAll groups >>= next) y same' :=
  .adds (appendAll_ok source) fun _ => hnext

end Emits

/-! ### Simple statements -/

theorem emits_assign (var : Handle) (subscripts : Option (List Subscript)) (rhs : List Typed) :
    Emits source (do
        let _ ← emit (.assign var (subscripts.map fun list => list.map Subscript.axis) rhs.length)
        append (Subscript.codes (subscripts.getD []))
        appendAll (rhs.map fun t => t.expr.code t.type) : CompileM σ Unit)
      (return Simple.assign var subscripts rhs) fun _ s nodes => nodes = s.code := by
  refine .emit fun _ => .append ?_
  rw [← bind_pure (appendAll _)]
  refine .appendAll (.pure ?_)
  rw [append_nil]
  rfl

theorem emits_assignable {next : Unit → CompileM σ γ} {y : ReadM δ}
    {same : γ → δ → List Node → Prop} (hnext : Emits source (next ()) y same) :
    Emits source (assignable name column var type >>= next)
      (do Direct.check (Outline.assignable name column type (← Outline.valueOf var)); y) same := by
  rw [assignable, bind_assoc]
  refine .valueOf fun value => ?_
  unfold Outline.assignable
  cases value.owner.isWritable with
  | false => exact .fail
  | true =>
    by_cases htype : (value.type != type && !(value.type.isNumeric && type.isNumeric)) = true
    · simp only [Bool.not_true, Bool.false_eq_true, if_false, if_pos htype]
      exact .fail
    · simp only [Bool.not_true, Bool.false_eq_true, if_false, if_neg htype]
      exact hnext

theorem emits_assignment (name : String) (column : Column) :
    Emits source (Compiler.assignment name column : CompileM σ Unit)
      (Outline.assignment name column) fun _ s nodes => nodes = s.code := by
  refine .lookup fun entry => ?_
  rcases entry with _ | ⟨handle | _ | _⟩
  · refine .read fun subscripts => .take fun _ => .read ?_
    rintro ⟨rhs, type⟩
    exact .create fun var => emits_assign var subscripts rhs
  · refine .read fun subscripts => .take fun _ => .read ?_
    rintro ⟨rhs, type⟩
    exact emits_assignable (emits_assign handle subscripts rhs)
  · exact .fail
  · exact .fail

theorem emits_command (name : String) (column : Column) :
    Emits source (command name column : CompileM σ Unit) (Outline.command name column)
      fun _ s nodes => nodes = s.code := by
  refine .read ?_
  rintro ⟨func, args⟩
  refine .emit fun _ => ?_
  rw [← bind_pure (appendAll _)]
  refine .appendAll (.pure ?_)
  rw [append_nil, Simple.code, Argument.codes_eq_flatten]

theorem emits_declare (name : String) (type : ElementType) (rank : Nat) (column : Column)
    {next : Handle → CompileM σ γ} {cont : Handle → ReadM δ} {same : γ → δ → List Node → Prop}
    (hnext : ∀ var, Emits source (next var) (cont var) same) :
    Emits source (Compiler.declare name type rank column >>= next)
      (Outline.declared name type rank column >>= cont) same := by
  unfold Compiler.declare Outline.declared
  rw [bind_assoc, bind_assoc]
  refine .lookup fun entry => ?_
  rcases entry with _ | ⟨handle | _ | _⟩
  · dsimp only
    cases Shape.ofDims (replicate rank 0) with
    | error fault => exact .fail
    | ok shape =>
      rw [bind_assoc, Direct.check_ok_bind]
      exact Emits.create hnext
  · simp only [bind_assoc]
    refine .valueOf fun value => ?_
    by_cases htype : (value.type != type) = true
    · simp only [if_pos htype]
      exact .fail
    · simp only [if_neg htype]
      exact hnext handle
  · exact .fail
  · exact .fail

theorem emits_declarators (type : ElementType) (fuel : Nat) :
    Emits source (declarators type fuel : CompileM σ Unit)
      (Outline.declarators type fuel) fun _ items nodes => nodes = Simple.codes items := by
  induction fuel with
  | zero => exact .fail
  | succ fuel ih =>
    refine .read ?_
    rintro ⟨name, column, dims⟩
    by_cases hrank : maxRank < dims.length
    · simp only [if_pos hrank]
      exact .fail
    simp only [if_neg hrank, Direct.check_ok_bind]
    refine emits_declare name type dims.length column fun var => ?_
    refine .emit fun _ => .appendAll (.take fun more => ?_)
    rw [← Expr.codes_eq_flatten]
    cases more with
    | false =>
      refine .pure ?_
      simp [Simple.codes, Simple.code]
    | true =>
      rw [← bind_pure (declarators type fuel)]
      refine .bind ih fun _ items nodes hnodes => .pure ?_
      simp [hnodes, Simple.codes, Simple.code]

theorem emits_declaration (type : ElementType) :
    Emits source (declaration type : CompileM σ Unit) (Outline.declaration type)
      fun _ items nodes => nodes = Simple.codes items := by
  intro c
  refine Emits.bind (emits_declarators type (Parse.budget c.lexer)) ?_ c
  intro _ items nodes hnodes
  rw [← bind_pure (taking _)]
  refine .take fun _ => .pure ?_
  rw [hnodes, append_nil]

/-! ### Heads of blocks -/

theorem emits_condition (source : LineSource σ) :
    Emits source (condition : CompileM σ Unit) Outline.condition
      fun _ test nodes => nodes = test.code .logical := by
  refine .take fun column => .read fun t => ?_
  by_cases htype : (t.type != .logical) = true
  · simp only [if_pos htype]
    exact .fail
  · simp only [if_neg htype, Direct.check_ok_bind]
    have htype' : t.type = .logical := by simpa using htype
    rw [htype']
    refine .append (.take fun _ => .pure ?_)
    rw [append_nil]

theorem emits_counting (source : LineSource σ) :
    Emits source (do
        let (name, column, list) ← Compiler.reading Compiler.loopHead
        let var ← Compiler.loopVariable name column list
        return (var, list) : CompileM σ (Handle × List Typed))
      Outline.counting fun a b nodes => a = b ∧ nodes = [] := by
  refine .read ?_
  rintro ⟨name, column, list⟩
  dsimp only
  unfold Compiler.loopVariable Outline.loopVariable
  rw [bind_assoc, bind_assoc]
  refine .lookup fun entry => ?_
  rcases entry with _ | ⟨handle | _ | _⟩
  · exact Emits.create fun var => .pure ⟨rfl, rfl⟩
  · simp only [bind_assoc]
    refine .valueOf fun value => ?_
    unfold Outline.countable
    cases value.type.isNumeric with
    | false => exact .fail
    | true =>
      cases value.owner.isWritable with
      | false => exact .fail
      | true => exact .pure ⟨rfl, rfl⟩
  · exact .fail
  · exact .fail

/-! ### Pointing jumps to their targets -/

section Patching

variable {c c₁ c' : Compiler σ} {front back : List Node} {node' : Node}
  {target : Nat}

theorem Compiler.Grows.getElem? (h : c.Grows source lines (front ++ node :: back) c₁)
    (haddress : address = c.program.size + front.length) :
    c₁.program.nodes[address]? = some node := by
  rw [← Array.getElem?_toList, h.nodes, haddress, Program.size, ← Array.length_toList,
    getElem?_append_right (Nat.le_add_right _ _)]
  simp

theorem Compiler.Grows.replace (h : c.Grows source lines (front ++ node :: back) c₁)
    (haddress : address = c.program.size + front.length) (node' : Node) :
    c.Grows source lines (front ++ node' :: back)
      { c₁ with program :=
        { c₁.program with nodes := c₁.program.nodes.setIfInBounds address node' } } where
  draws := h.draws
  nodes := by
    rw [Array.toList_setIfInBounds, h.nodes, haddress, Program.size, ← Array.length_toList,
      set_append_right _ _ (Nat.le_add_right _ _)]
    simp
  limit := h.limit
  fits hfits := by
    have := h.fits hfits
    simpa [Program.size] using this
  loops := h.loops

theorem Compiler.Grows.patch (front : List Node)
    (h : c.Grows source lines (front ++ node :: back) c₁)
    (haddress : address = c.program.size + front.length)
    (hnode : node.retarget? (distance address target) = some node')
    (hp : emitting (Program.patch address target) c₁ = .ok u c') :
    c'.toReading = c₁.toReading ∧ c.Grows source lines (front ++ node' :: back) c' := by
  simp only [emitting, Program.patch, h.getElem? haddress, hnode] at hp
  cases hp
  exact ⟨rfl, h.replace haddress node'⟩

theorem Compiler.Grows.patchHere (front : List Node) (finish : Nat)
    (h : c.Grows source lines (front ++ node :: back) c₁)
    (hp : emitting (Program.patchHere address) c₁ = .ok u c')
    (haddress : address = c.program.size + front.length)
    (hfinish : finish = address + 1 + back.length)
    (hnode : node.retarget? (distance address finish) = some node') :
    c'.toReading = c₁.toReading ∧ c.Grows source lines (front ++ node' :: back) c' := by
  have hsize : finish = c₁.program.size := by
    rw [h.size, hfinish, haddress, length_append, length_cons]
    omega
  rw [hsize] at hnode
  exact h.patch front haddress hnode hp

theorem Compiler.Grows.patchNext (front : List Node) {exit again : Int}
    (h : c.Grows source lines (front ++ .gate exit again :: back) c₁)
    (haddress : address = c.program.size + front.length)
    (hp : emitting (Program.patchNext address target) c₁ = .ok u c') :
    c'.toReading = c₁.toReading ∧
      c.Grows source lines (front ++ .gate exit (distance address target) :: back) c' := by
  simp only [emitting, Program.patchNext, h.getElem? haddress] at hp
  cases hp
  exact ⟨rfl, h.replace haddress _⟩

end Patching

/-! ### Blocks -/

/-- The compiler of the lines of a block takes the lines of a block and adds the nodes of its
statements. -/
def Compiles (source : LineSource σ) (maxName : Nat) (block : Compiler.Block σ) : Prop :=
  ∀ opener closers c word c', block opener closers c = .ok word c' →
    ∃ lines s, Block maxName closers c.toReading lines s word c'.toReading ∧
      c.Grows source lines (s.code (c.loops.headD 0) c.program.size) c' ∧
      (s.Leaps → c.loops ≠ [])

theorem Block.mem {maxName : Nat} {closers : List Keyword} {r r' : Reading} {lines : List String}
    {s : Statement} {word : Keyword} : Block maxName closers r lines s word r' → word ∈ closers
  | .close _ hmem _ => hmem
  | .next _ hrest => hrest.mem

section Constructs

variable {c c' : Compiler σ} {maxName : Nat} {block : Compiler.Block σ}
variable {fuel : Nat}

theorem Compiles.inLoop (hblock : Compiles source maxName block) {gate : Nat} {opener : Keyword}
    {closers : List Keyword} (h : Compiler.inLoop gate (block opener closers) c = .ok u c') :
    ∃ lines s word, Block maxName closers c.toReading lines s word c'.toReading ∧
      c.Grows source lines (s.code gate c.program.size) c' := by
  rw [Compiler.inLoop, modify_bind_apply] at h
  obtain ⟨word, c₁, hrun, h⟩ := bind_eq_ok.1 h
  obtain ⟨lines, s, hlines, hgrows, -⟩ := hblock _ _ _ _ _ hrun
  cases h
  refine ⟨lines, s, word, hlines, hgrows.draws, hgrows.nodes, hgrows.limit, hgrows.fits, ?_⟩
  exact congrArg tail hgrows.loops

theorem Compiles.whileBlock (hblock : Compiles source maxName block)
    (h : Compiler.whileBlock block c = .ok u c') :
    ∃ lines test body r r₁, Outline.condition c.toReading = .ok test r ∧
      Outline.endOfLine r = .ok () r₁ ∧
      Block maxName [.endWhile] r₁ lines body .endWhile c'.toReading ∧
      ∀ gate, c.Grows source lines ((Statement.while test body).code gate c.program.size) c' := by
  obtain ⟨gate, c₁, hgate, h⟩ := bind_eq_ok.1 h
  obtain ⟨_, c₂, hcond, h⟩ := bind_eq_ok.1 h
  obtain ⟨fork, c₃, hfork, h⟩ := bind_eq_ok.1 h
  obtain ⟨_, c₄, hend, h⟩ := bind_eq_ok.1 h
  obtain ⟨_, c₅, hbody, h⟩ := bind_eq_ok.1 h
  obtain ⟨_, c₆, hback, h⟩ := bind_eq_ok.1 h
  obtain ⟨_, c₇, hpatch, hpatch'⟩ := bind_eq_ok.1 h
  obtain ⟨rfl, hread₁, g₁⟩ := Compiler.emit_ok source hgate
  obtain ⟨test, _, htest, rfl, g₂⟩ := emits_condition source _ _ _ hcond
  obtain ⟨rfl, hread₃, g₃⟩ := Compiler.emit_ok source hfork
  obtain ⟨hend', g₄⟩ := Compiler.reading_ok source hend
  obtain ⟨lines, body, word, hlines, g₅⟩ := hblock.inLoop hbody
  obtain ⟨rfl, hread₆, g₆⟩ := Compiler.emit_ok source hback
  obtain rfl : word = .endWhile := by simpa using hlines.mem
  have hsize₂ : c₂.program.size = c.program.size + 1 + test.testSize := by
    rw [g₂.size, g₁.size]
    rfl
  have hsize₄ : c₄.program.size = c.program.size + 1 + test.testSize + 1 := by
    rw [g₄.size, g₃.size, hsize₂]
    rfl
  have hsize₅ : c₅.program.size = c.program.size + 1 + test.testSize + 1 + body.size := by
    rw [g₅.size, hsize₄, Statement.length_code]
  rw [hsize₄] at g₅
  rw [hsize₅] at g₆
  have hall := ((((g₁.trans g₂).trans g₃).trans g₄).trans g₅).trans g₆
  simp only [append_nil, nil_append, append_assoc] at hall
  rw [hsize₂] at hpatch
  obtain ⟨hread₇, g₇⟩ := hall.patchHere (_ :: test.code .logical)
    (c.program.size + 1 + test.testSize + 1 + body.size + 1) hpatch
    (by simp [Expr.length_test]; omega) (by simp; omega) rfl
  obtain ⟨hread₈, g₈⟩ := g₇.patchHere [] (c.program.size + 1 + test.testSize + 1 + body.size + 1)
    hpatch' rfl (by simp [Expr.length_test]; omega) rfl
  refine ⟨lines, test, body, c₂.toReading, c₄.toReading, ?_, ?_, ?_, fun gate => g₈⟩
  · rwa [hread₁] at htest
  · rwa [hread₃] at hend'
  · rwa [hread₈, hread₇, hread₆]

theorem Compiles.repeatBlock (hblock : Compiles source maxName block)
    (h : Compiler.repeatBlock block c = .ok u c') :
    ∃ lines test body r r₁ r₂, Outline.endOfLine c.toReading = .ok () r ∧
      Block maxName [.until] r lines body .until r₁ ∧ Outline.condition r₁ = .ok test r₂ ∧
      Outline.endOfLine r₂ = .ok () c'.toReading ∧
      ∀ gate, c.Grows source lines ((Statement.repeat body test).code gate c.program.size) c' := by
  obtain ⟨_, c₁, hend, h⟩ := bind_eq_ok.1 h
  obtain ⟨gate, c₂, hgate, h⟩ := bind_eq_ok.1 h
  obtain ⟨_, c₃, hbody, h⟩ := bind_eq_ok.1 h
  obtain ⟨foot, c₃', hfoot, h⟩ := bind_eq_ok.1 h
  obtain ⟨_, c₄, hnext, h⟩ := bind_eq_ok.1 h
  obtain ⟨_, c₅, hcond, h⟩ := bind_eq_ok.1 h
  obtain ⟨_, c₆, hend₂, h⟩ := bind_eq_ok.1 h
  obtain ⟨fork, c₇, hfork, h⟩ := bind_eq_ok.1 h
  obtain ⟨_, c₈, hpatch, hpatch'⟩ := bind_eq_ok.1 h
  cases hfoot
  obtain ⟨hend', g₁⟩ := Compiler.reading_ok source hend
  obtain ⟨rfl, hread₂, g₂⟩ := Compiler.emit_ok source hgate
  obtain ⟨lines, body, word, hlines, g₃⟩ := hblock.inLoop hbody
  obtain rfl : word = .until := by simpa using hlines.mem
  have hsize₁ : c₁.program.size = c.program.size := g₁.size
  have hsize₂ : c₂.program.size = c.program.size + 1 := by rw [g₂.size, hsize₁]; rfl
  have hsize₃ : c₃.program.size = c.program.size + 1 + body.size := by
    rw [g₃.size, hsize₂, Statement.length_code]
  rw [hsize₁] at g₃ hnext
  rw [hsize₂] at g₃
  rw [hsize₃] at hnext
  obtain ⟨hread₄, g₄⟩ := ((g₁.trans g₂).trans g₃).patchNext [] rfl hnext
  obtain ⟨test, _, htest, rfl, g₅⟩ := emits_condition source _ _ _ hcond
  obtain ⟨hend₂', g₆⟩ := Compiler.reading_ok source hend₂
  obtain ⟨rfl, hread₇, g₇⟩ := Compiler.emit_ok source hfork
  have hsize₄ : c₄.program.size = c.program.size + 1 + body.size := by
    rw [g₄.size]
    simp
    omega
  have hsize₆ : c₆.program.size = c.program.size + 1 + body.size + test.testSize := by
    rw [g₆.size, g₅.size, hsize₄]
    rfl
  have hall := ((g₄.trans g₅).trans g₆).trans g₇
  simp only [append_nil, nil_append, append_assoc, cons_append] at hall
  rw [hsize₁, hsize₆] at hpatch
  rw [hsize₁] at hpatch'
  rw [← append_assoc, ← cons_append] at hall
  obtain ⟨hread₈, g₈⟩ := hall.patch _ (by simp [Expr.length_test]; omega) rfl hpatch
  obtain ⟨hread₉, g₉⟩ := g₈.patchHere [] (c.program.size + 1 + body.size + test.testSize + 1)
    hpatch' rfl (by simp [Expr.length_test]; omega) rfl
  refine ⟨lines, test, body, c₁.toReading, c₃.toReading, c₅.toReading, hend', ?_, ?_, ?_,
    fun gate => ?_⟩
  · rwa [hread₂] at hlines
  · rwa [hread₄] at htest
  · rwa [hread₉, hread₈, hread₇]
  · simpa [Statement.code] using g₉

/-- A counted loop has at most as many bounds as there is room for. -/
theorem Compiler.length_bounds {room : Nat} {l l' : Lexer}
    (h : bounds w room l = .ok list l') : list.length ≤ room := by
  induction room generalizing l list with
  | zero => cases h; exact Nat.le_refl 0
  | succ room ih =>
    obtain ⟨_, _, _, h⟩ := bind_eq_ok.1 h
    obtain ⟨t, _, _, h⟩ := bind_eq_ok.1 h
    cases hnumeric : t.type.isNumeric with
    | false => rw [hnumeric] at h; cases h
    | true =>
      simp only [hnumeric, Bool.not_true, Bool.false_eq_true, if_false] at h
      by_cases hroom : room = 0
      · rw [if_pos hroom] at h
        cases h
        simp
      · rw [if_neg hroom] at h
        obtain ⟨more, _, _, h⟩ := bind_eq_ok.1 h
        cases more with
        | false => cases h; simp
        | true =>
          obtain ⟨rest, _, hrest, h⟩ := bind_eq_ok.1 h
          cases h
          simpa using ih hrest

/-- A counted loop has two bounds and perhaps a step. -/
theorem Compiler.loopHead_bounds (h : reading loopHead c = .ok (name, column, list) c') :
    ∃ first last step, list = first :: last :: Option.toList step := by
  have hhead : ∃ l, loopHead c.workspace c.lexer = .ok (name, column, list) l := by
    rw [reading] at h
    cases hr : loopHead c.workspace c.lexer with
    | error fault lexer => rw [hr] at h; cases h
    | ok a lexer => rw [hr] at h; cases h; exact ⟨lexer, rfl⟩
  obtain ⟨_, hhead⟩ := hhead
  obtain ⟨⟨text, column'⟩, _, _, hhead⟩ := bind_eq_ok.1 hhead
  obtain ⟨_, _, _, hhead⟩ := bind_eq_ok.1 hhead
  obtain ⟨list', _, hbounds, hhead⟩ := bind_eq_ok.1 hhead
  have hmost := length_bounds hbounds
  by_cases hleast : list'.length < 2
  · simp only [if_pos hleast] at hhead
    obtain ⟨_, _, _, hhead⟩ := bind_eq_ok.1 hhead
    cases hhead
  · simp only [if_neg hleast] at hhead
    obtain ⟨_, _, _, hhead⟩ := bind_eq_ok.1 hhead
    cases hhead
    match list, hleast, hmost with
    | [first, last], _, _ => exact ⟨first, last, none, rfl⟩
    | [first, last, step], _, _ => exact ⟨first, last, some step, rfl⟩
    | [], hleast, _ => exact absurd (by simp) hleast
    | [_], hleast, _ => exact absurd (by simp) hleast
    | _ :: _ :: _ :: _ :: _, _, hmost =>
      simp only [length_cons] at hmost
      omega

/-- A counted loop. -/
theorem Compiles.doBlock (hblock : Compiles source maxName block)
    (h : Compiler.doBlock block c = .ok u c') :
    ∃ lines var first last step body r,
      Outline.counting c.toReading = .ok (var, first :: last :: Option.toList step) r ∧
      Block maxName [.endDo] r lines body .endDo c'.toReading ∧
      ∀ gate, c.Grows source lines
        ((count var first last step body).code gate c.program.size) c' := by
  obtain ⟨⟨name, column, list⟩, c₀, hhead, h⟩ := bind_eq_ok.1 h
  obtain ⟨var, c₁, hvar, h⟩ := bind_eq_ok.1 h
  obtain ⟨_, c₂, hbounds, h⟩ := bind_eq_ok.1 h
  obtain ⟨init, c₃, hinit, h⟩ := bind_eq_ok.1 h
  obtain ⟨gate, c₄, hgate, h⟩ := bind_eq_ok.1 h
  obtain ⟨counter, c₅, hcounter, h⟩ := bind_eq_ok.1 h
  obtain ⟨_, c₆, hpatch, h⟩ := bind_eq_ok.1 h
  obtain ⟨_, c₇, hbody, h⟩ := bind_eq_ok.1 h
  obtain ⟨_, c₈, hback, h⟩ := bind_eq_ok.1 h
  obtain ⟨_, c₉, hpatch₂, hpatch₃⟩ := bind_eq_ok.1 h
  obtain ⟨first, last, step, rfl⟩ := Compiler.loopHead_bounds hhead
  have hstart : (do
      let (name, column, list) ← Compiler.reading Compiler.loopHead
      let var ← Compiler.loopVariable name column list
      return (var, list) : CompileM σ (Handle × List Typed)) c =
        .ok (var, first :: last :: step.toList) c₁ :=
    bind_eq_ok.2 ⟨_, _, hhead, bind_eq_ok.2 ⟨_, _, hvar, rfl⟩⟩
  obtain ⟨_, _, hcounting, ⟨rfl, rfl⟩, g₁⟩ := emits_counting source _ _ _ hstart
  obtain ⟨hread₂, g₂⟩ := Compiler.appendAll_ok source hbounds
  obtain ⟨rfl, hread₃, g₃⟩ := Compiler.emit_ok source hinit
  obtain ⟨rfl, hread₄, g₄⟩ := Compiler.emit_ok source hgate
  obtain ⟨rfl, hread₅, g₅⟩ := Compiler.emit_ok source hcounter
  have hstep : ((first :: last :: step.toList).length == 3) = step.isSome := by cases step <;> rfl
  rw [hstep] at g₃
  change c₁.Grows source [] (Typed.codes (loopBounds first last step)) c₂ at g₂
  generalize hcode : Typed.codes (loopBounds first last step) = bounds at g₂
  have hsize₂ : c₂.program.size = c.program.size + bounds.length := by
    rw [g₂.size, g₁.size]
    rfl
  have hsize₃ : c₃.program.size = c.program.size + bounds.length + 1 := by rw [g₃.size, hsize₂]; rfl
  have hsize₄ : c₄.program.size = c.program.size + bounds.length + 2 := by rw [g₄.size, hsize₃]; rfl
  rw [hsize₂, hsize₄] at hpatch
  rw [hsize₃] at hbody hpatch₃
  rw [hsize₄] at hback hpatch₂
  have hheads := (((g₁.trans g₂).trans g₃).trans g₄).trans g₅
  simp only [append_nil, nil_append, append_assoc, cons_append] at hheads
  obtain ⟨hread₆, g₆⟩ := hheads.patch bounds rfl rfl hpatch
  obtain ⟨lines, body, word, hlines, g₇⟩ := hblock.inLoop hbody
  obtain rfl : word = .endDo := by simpa using hlines.mem
  obtain ⟨rfl, hread₈, g₈⟩ := Compiler.emit_ok source hback
  have hsize₆ : c₆.program.size = c.program.size + bounds.length + 3 := by
    rw [g₆.size]
    simp
    omega
  have hsize₇ : c₇.program.size = c.program.size + bounds.length + 3 + body.size := by
    rw [g₇.size, hsize₆, length_code]
  rw [hsize₆] at g₇
  rw [hsize₇] at g₈
  have hall := (g₆.trans g₇).trans g₈
  simp only [append_nil, nil_append, append_assoc, cons_append] at hall
  -- the nodes before the counter, and then those before the gate
  rw [append_cons, append_cons] at hall
  obtain ⟨hread₉, g₉⟩ := hall.patchHere _ (c.program.size + bounds.length + 3 + body.size + 1)
    hpatch₂ (by simp; omega) (by simp; omega) rfl
  rw [← append_cons] at g₉
  obtain ⟨hread₁₀, g₁₀⟩ := g₉.patchHere _ (c.program.size + bounds.length + 3 + body.size + 1)
    hpatch₃ (by simp; omega) (by simp; omega) rfl
  rw [← append_cons] at g₁₀
  subst hcode
  refine ⟨lines, var, first, last, step, body, c₁.toReading, hcounting, ?_, fun gate => g₁₀⟩
  rwa [hread₆, hread₅, hread₄, hread₃, hread₂, ← hread₈, ← hread₉, ← hread₁₀] at hlines

/-! ### Conditionals -/

/-- The arms of a conditional behind the keyword that opened one. -/
def Arms (maxName : Nat) (word : Keyword) (r : Reading) (lines : List String) (s : Statement)
    (r' : Reading) : Prop :=
  if word = .else then Block maxName [.endIf] r lines s .endIf r' else Chain maxName r lines s r'

/-- Wherever the nodes `open'` stand at an address, they become those of a finished conditional when
its jumps are pointed to its end. -/
def Closes (source : LineSource σ) (jumps : List Nat) (pc : Nat) (open' closed : List Node) :
    Prop :=
  ∀ (c c₁ c₂ : Compiler σ) (lines : List String) (front : List Node),
    c.Grows source lines (front ++ open') c₁ → pc = c.program.size + front.length →
    Compiler.patchAll jumps c₁ = .ok () c₂ →
    c₂.toReading = c₁.toReading ∧ c.Grows source lines (front ++ closed) c₂

theorem Closes.nil (nodes : List Node) : Closes source [] pc nodes nodes := by
  rintro c c₁ _ lines front hgrows _ ⟨⟩
  exact ⟨rfl, hgrows⟩

theorem Closes.cons {jumps : List Nat} {finish : Nat} {arm open' closed : List Node}
    (hfinish : finish = pc + arm.length + 1 + closed.length)
    (hlength : open'.length = closed.length)
    (h : Closes source jumps (pc + arm.length + 1) open' closed) :
    Closes source ((pc + arm.length) :: jumps) pc (arm ++ .branch 0 :: open')
      (arm ++ .branch (distance (pc + arm.length) finish) :: closed) := by
  intro c c₁ c₂ lines front hgrows hpc hrun
  obtain ⟨_, c', hpatch, hrun⟩ := bind_eq_ok.1 hrun
  rw [← append_assoc] at hgrows
  obtain ⟨hread, hgrows'⟩ := hgrows.patchHere _ finish hpatch (by simp; omega) (by omega) rfl
  rw [append_cons] at hgrows'
  obtain ⟨hread', hgrows''⟩ := h c c' c₂ lines _ hgrows' (by simp; omega) hrun
  refine ⟨hread'.trans hread, ?_⟩
  simpa using hgrows''

/-- An arm with its condition, up to the keyword that closes it. -/
def Compiler.arm (block : Compiler.Block σ) : CompileM σ (Nat × Keyword) := do
  Compiler.condition
  let skip ← Compiler.emit (.branchIfFalse 0)
  Compiler.taking Parse.expectEnd
  let closer ← block .if [.elseIf, .else, .endIf]
  return (skip, closer)

theorem Compiler.arms_succ (h : word ∈ [Keyword.if, .elseIf]) :
    Compiler.arms block (fuel + 1) word = (do
      let (skip, closer) ← Compiler.arm block
      if closer = .endIf then
        Compiler.emitting (Program.patchHere skip)
        return []
      let finish ← Compiler.emit (.branch 0)
      Compiler.emitting (Program.patchHere skip)
      return finish :: (← Compiler.arms block fuel closer)) := by
  simp only [Compiler.arm, bind_assoc, pure_bind]
  simp only [mem_cons, not_mem_nil, or_false] at h
  obtain rfl | rfl := h <;> rfl

theorem Compiles.arm (hblock : Compiles source maxName block) {skip : Nat} {closer : Keyword}
    (h : Compiler.arm block c = .ok (skip, closer) c') :
    ∃ lines test yes r r₁, Outline.condition c.toReading = .ok test r ∧
      Outline.endOfLine r = .ok () r₁ ∧
      Block maxName [.elseIf, .else, .endIf] r₁ lines yes closer c'.toReading ∧
      skip = c.program.size + test.testSize ∧ (yes.Leaps → c.loops ≠ []) ∧
      c.Grows source lines (test.code .logical ++ .branchIfFalse 0 ::
        yes.code (c.loops.headD 0) (c.program.size + test.testSize + 1)) c' := by
  obtain ⟨_, c₁, hcond, h⟩ := bind_eq_ok.1 h
  obtain ⟨skip, c₂, hskip, h⟩ := bind_eq_ok.1 h
  obtain ⟨_, c₃, hend, h⟩ := bind_eq_ok.1 h
  obtain ⟨closer, c₄, hrun, h⟩ := bind_eq_ok.1 h
  cases h
  obtain ⟨test, _, htest, rfl, g₁⟩ := emits_condition source _ _ _ hcond
  obtain ⟨rfl, hread₂, g₂⟩ := Compiler.emit_ok source hskip
  obtain ⟨hend', g₃⟩ := Compiler.reading_ok source hend
  obtain ⟨lines, yes, hlines, g₄, hleaps⟩ := hblock _ _ _ _ _ hrun
  have hsize₁ : c₁.program.size = c.program.size + test.testSize := g₁.size
  have hsize₃ : c₃.program.size = c.program.size + test.testSize + 1 := by
    rw [g₃.size, g₂.size, hsize₁]
    rfl
  have hloops : c₃.loops = c.loops := by rw [g₃.loops, g₂.loops, g₁.loops]
  rw [hsize₃, hloops] at g₄
  rw [hloops] at hleaps
  rw [hread₂] at hend'
  refine ⟨lines, test, yes, _, _, htest, hend', hlines, hsize₁, hleaps, ?_⟩
  have hall := ((g₁.trans g₂).trans g₃).trans g₄
  simpa only [append_nil, nil_append, append_assoc, cons_append] using hall

theorem Compiles.arms (hblock : Compiles source maxName block) :
    ∀ {word : Keyword} {c c' : Compiler σ} {jumps : List Nat},
      word = .else ∨ word ∈ [Keyword.if, .elseIf] →
      Compiler.arms block fuel word c = .ok jumps c' →
      ∃ lines s open', Arms maxName word c.toReading lines s c'.toReading ∧
        c.Grows source lines open' c' ∧ open'.length = s.size ∧ (s.Leaps → c.loops ≠ []) ∧
        Closes source jumps c.program.size open' (s.code (c.loops.headD 0) c.program.size) := by
  induction fuel with
  | zero => intro word c c' jumps _ h; cases h
  | succ fuel ih =>
    intro word c c' jumps hword h
    obtain rfl | hword := hword
    · obtain ⟨closer, c₁, hrun, h⟩ := bind_eq_ok.1 h
      cases h
      obtain ⟨lines, s, hlines, hgrows, hleaps⟩ := hblock _ _ _ _ _ hrun
      obtain rfl : closer = .endIf := by simpa using hlines.mem
      exact ⟨lines, s, _, hlines, hgrows, s.length_code _ _, hleaps, .nil _⟩
    rw [Compiler.arms_succ hword] at h
    obtain ⟨⟨skip, closer⟩, c₁, harm, h⟩ := bind_eq_ok.1 h
    obtain ⟨lines, test, yes, r, r₁, htest, hend, hyes, rfl, hleaps, g₁⟩ := hblock.arm harm
    have helse : word ≠ .else := by rintro rfl; simp at hword
    simp only [Arms, if_neg helse]
    by_cases hlast : closer = .endIf
    · subst hlast
      obtain ⟨_, c₂, hpatch, h⟩ := bind_eq_ok.1 h
      cases h
      obtain ⟨hread₂, g₂⟩ := g₁.patchHere _ (c.program.size + test.testSize + 1 + yes.size)
        hpatch rfl (by simp) rfl
      refine ⟨lines, .ifThen test yes, _, ?_, g₂, ?_, hleaps, .nil _⟩
      · rw [hread₂]
        exact .last htest hend hyes
      · exact (ifThen test yes).length_code _ _
    · simp only [if_neg hlast] at h
      obtain ⟨finish, c₂, hfinish, h⟩ := bind_eq_ok.1 h
      obtain ⟨_, c₃, hpatch, h⟩ := bind_eq_ok.1 h
      obtain ⟨jumps', c₄, harms, h⟩ := bind_eq_ok.1 h
      cases h
      obtain ⟨rfl, hread₂, g₂⟩ := Compiler.emit_ok source hfinish
      have hall := g₁.trans g₂
      simp only [append_nil, append_assoc, cons_append] at hall
      obtain ⟨hread₃, g₃⟩ := hall.patchHere _
        (c.program.size + test.testSize + 1 + yes.size + 1) hpatch rfl (by simp; omega) rfl
      have hcloser : closer = .else ∨ closer = .elseIf := by
        have hmem := hyes.mem
        simp only [mem_cons, not_mem_nil, or_false] at hmem
        obtain h | h | h := hmem
        · exact .inr h
        · exact .inl h
        · exact absurd h hlast
      obtain ⟨lines', no, open', hno, g₄, hlength, hleaps', hcloses⟩ :=
        ih (hcloser.imp_right fun h => by simp [h]) harms
      have hsize₁ : c₁.program.size = c.program.size + test.testSize + 1 + yes.size := by
        rw [g₁.size]
        simp [Expr.length_test]
        omega
      have hsize₃ : c₃.program.size = c.program.size + test.testSize + 1 + yes.size + 1 := by
        rw [g₃.size]
        simp [Expr.length_test]
        omega
      rw [g₃.loops, hsize₃] at hcloses
      rw [g₃.loops] at hleaps'
      rw [hread₃, hread₂] at hno
      have hopen := g₃.trans g₄
      refine ⟨lines ++ lines', .ifElse test yes no, _, ?_, hopen, ?_, ?_, ?_⟩
      · obtain rfl | rfl := hcloser
        · exact .otherwise htest hend hyes hno
        · exact .again htest hend hyes hno
      · simp [hlength, size, Expr.length_test]
        omega
      · rintro (h | h)
        · exact hleaps h
        · exact hleaps' h
      · -- the arm as it stands before the jump to the end of the conditional
        have harm : c.program.size + (test.code .logical ++ .branchIfFalse
            (distance (c.program.size + test.testSize)
              (c.program.size + test.testSize + 1 + yes.size + 1)) ::
            yes.code (c.loops.headD 0) (c.program.size + test.testSize + 1)).length =
            c.program.size + test.testSize + 1 + yes.size := by
          simp [Expr.length_test]
          omega
        rw [hsize₁, ← harm]
        rw [← harm] at hcloses
        have hclosed := hcloses.cons rfl (by rw [hlength, length_code])
        simp only [append_assoc, cons_append, harm, length_code] at hclosed ⊢
        exact hclosed

theorem Compiles.ifBlock (hblock : Compiles source maxName block)
    (h : Compiler.ifBlock block fuel c = .ok u c') :
    ∃ lines s, Chain maxName c.toReading lines s c'.toReading ∧
      c.Grows source lines (s.code (c.loops.headD 0) c.program.size) c' ∧
      (s.Leaps → c.loops ≠ []) := by
  obtain ⟨jumps, c₁, harms, h⟩ := bind_eq_ok.1 h
  obtain ⟨lines, s, open', hchain, hgrows, -, hleaps, hcloses⟩ :=
    hblock.arms (.inr (by simp)) harms
  obtain ⟨hread, hgrows'⟩ := hcloses c c₁ c' lines [] hgrows rfl h
  exact ⟨lines, s, hread ▸ hchain, hgrows', hleaps⟩

/-! ### Statements -/

/-- A statement was compiled whose line is read from `r` on, or a closing keyword was found. -/
def Taken (source : LineSource σ) (maxName : Nat) (r : Reading) (c : Compiler σ)
    (result : Option (Keyword × Column)) (c' : Compiler σ) : Prop :=
  match result with
  | none => ∃ lines s, Written maxName r lines s c'.toReading ∧
      c.Grows source lines (s.code (c.loops.headD 0) c.program.size) c' ∧ (s.Leaps → c.loops ≠ [])
  | some (word, column) =>
    Outline.head r = .ok (.closes word column) c'.toReading ∧ c.Grows source [] [] c'

variable {r : Reading} {result : Option (Keyword × Column)}

theorem Compiles.leap (word : Keyword) (leave : Bool) (hleave : (word == .break) = leave)
    (hhead : Outline.head r =
      (do Outline.endOfLine; return .leap leave : ReadM Outline.Head) c.toReading)
    (h : Compiler.leap word column c = .ok u c') : Taken source maxName r c none c' := by
  rw [Compiler.leap, get_bind_apply] at h
  cases hloops : c.loops with
  | nil => rw [hloops] at h; cases h
  | cons gate rest =>
    simp only [hloops] at h
    obtain ⟨here, c₀, hhere, h⟩ := bind_eq_ok.1 h
    cases hhere
    obtain ⟨_, c₁, hemit, hend⟩ := bind_eq_ok.1 h
    obtain ⟨rfl, hread, g₁⟩ := Compiler.emit_ok source hemit
    obtain ⟨hend', g₂⟩ := Compiler.reading_ok source hend
    rw [hread] at hend'
    rw [hleave] at g₁
    refine ⟨[], .leap leave, .leap (hhead.trans (bind_ok hend' _)), ?_, fun _ => ?_⟩
    · rw [hloops]
      exact g₁.trans g₂
    · rw [hloops]
      exact cons_ne_nil gate rest

theorem Compiles.declaration (hhead : Outline.head r =
      (do return .simple (← Outline.declaration type) : ReadM Outline.Head) c.toReading)
    (h : declaration type c = .ok u c') : Taken source maxName r c none c' := by
  obtain ⟨items, _, hread, rfl, hgrows⟩ := emits_declaration type c _ c' h
  exact ⟨[], .line items, .simple (hhead.trans (bind_ok hread _)), hgrows, False.elim⟩

theorem Compiles.keyword (hblock : Compiles source maxName block)
    (hhead : Outline.head r = Outline.keyword word column c.toReading)
    (h : Compiler.keyword block fuel word column c = .ok result c') :
    Taken source maxName r c result c' := by
  cases word with
  | «if» =>
    obtain ⟨_, c₁, hif, h⟩ := bind_eq_ok.1 h
    cases h
    obtain ⟨lines, s, hchain, hgrows, hleaps⟩ := hblock.ifBlock hif
    exact ⟨lines, s, .conditional hhead hchain, hgrows, hleaps⟩
  | «while» =>
    obtain ⟨_, c₁, hwhile, h⟩ := bind_eq_ok.1 h
    cases h
    obtain ⟨lines, test, body, r₁, r₂, htest, hend, hbody, hgrows⟩ := hblock.whileBlock hwhile
    exact ⟨lines, _, .while hhead htest hend hbody, hgrows _, False.elim⟩
  | «repeat» =>
    obtain ⟨_, c₁, hrepeat, h⟩ := bind_eq_ok.1 h
    cases h
    obtain ⟨lines, test, body, r₁, r₂, r₃, hend, hbody, htest, hend', hgrows⟩ :=
      hblock.repeatBlock hrepeat
    exact ⟨lines, _, .repeat hhead hend hbody htest hend', hgrows _, False.elim⟩
  | «do» =>
    obtain ⟨_, c₁, hdo, h⟩ := bind_eq_ok.1 h
    cases h
    obtain ⟨lines, var, first, last, step, body, r₁, hcounting, hbody, hgrows⟩ :=
      hblock.doBlock hdo
    exact ⟨lines, _, .count hhead hcounting hbody, hgrows _, False.elim⟩
  | «break» =>
    obtain ⟨_, c₁, hleap, h⟩ := bind_eq_ok.1 h
    cases h
    exact Compiles.leap .break true rfl hhead hleap
  | «continue» =>
    obtain ⟨_, c₁, hleap, h⟩ := bind_eq_ok.1 h
    cases h
    exact Compiles.leap .continue false rfl hhead hleap
  | stop =>
    obtain ⟨_, c₁, hemit, h⟩ := bind_eq_ok.1 h
    obtain ⟨_, c₂, hend, h⟩ := bind_eq_ok.1 h
    cases h
    obtain ⟨rfl, hread, g₁⟩ := Compiler.emit_ok source hemit
    obtain ⟨hend', g₂⟩ := Compiler.reading_ok source hend
    rw [hread] at hend'
    exact ⟨[], .stop, .stop (hhead.trans (bind_ok hend' _)), g₁.trans g₂, False.elim⟩
  | integer | float | string | logical =>
    obtain ⟨_, c₁, hdeclare, h⟩ := bind_eq_ok.1 h
    cases h
    exact Compiles.declaration hhead hdeclare
  | «then» => cases h
  | «else» =>
    obtain ⟨another, c₁, hif, h⟩ := bind_eq_ok.1 h
    obtain ⟨hif', hgrows⟩ := Compiler.reading_ok source hif
    cases another <;> cases h <;> exact ⟨hhead.trans (bind_ok hif' _), hgrows⟩
  | «end» =>
    obtain ⟨closer, c₁, hcloser, h⟩ := bind_eq_ok.1 h
    obtain ⟨hcloser', hgrows⟩ := Compiler.reading_ok source hcloser
    cases h
    exact ⟨hhead.trans (bind_ok hcloser' _), hgrows⟩
  | elseIf | endIf | endWhile | endDo | «until» =>
    cases h
    exact ⟨hhead, .refl _⟩

theorem Compiles.named {text : String} (hhead : Outline.head r = (do
      let lexer := (← get).lexer
      let item ←
        if assignmentAhead (Parse.budget lexer) 0 lexer then Outline.assignment text column
        else Outline.command text column
      Outline.endOfLine
      return .simple [item] : ReadM Outline.Head) c.toReading)
    (h : (do
      let lexer := (← get).lexer
      if assignmentAhead (Parse.budget lexer) 0 lexer then assignment text column
      else command text column
      taking Parse.expectEnd
      return none : CompileM σ (Option (Keyword × Column))) c = .ok result c') :
    Taken source maxName r c result c' := by
  rw [get_bind_apply] at h hhead
  -- the two kinds of statements add their nodes and end with the line
  have hitem : ∀ (x : CompileM σ Unit) (y : ReadM Simple),
      (Emits source x y fun _ s nodes => nodes = s.code) →
      Outline.head r = (do
        let item ← y
        Outline.endOfLine
        return .simple [item] : ReadM Outline.Head) c.toReading →
      (do
        x
        taking Parse.expectEnd
        return none : CompileM σ (Option (Keyword × Column))) c = .ok result c' →
      Taken source maxName r c result c' := by
    intro x y hemits hhead h
    obtain ⟨_, c₁, hx, h⟩ := bind_eq_ok.1 h
    obtain ⟨_, c₂, hend, h⟩ := bind_eq_ok.1 h
    cases h
    obtain ⟨item, _, hread, rfl, g₁⟩ := hemits c _ c₁ hx
    obtain ⟨hend', g₂⟩ := reading_ok source hend
    refine ⟨[], .line [item], .simple ?_, ?_, False.elim⟩
    · rw [hhead, bind_ok hread]
      exact bind_ok hend' _
    · simpa [code, Simple.codes] using g₁.trans g₂
  have hlexer : c.toReading.lexer = c.lexer := rfl
  rw [hlexer] at hhead
  split at h
  · next hahead =>
      rw [if_pos hahead] at hhead
      exact hitem _ _ (emits_assignment text column) hhead h
  · next hahead =>
      rw [if_neg hahead] at hhead
      exact hitem _ _ (emits_command text column) hhead h

theorem Taken.of_grows {c₁ : Compiler σ} (g : c.Grows source [] [] c₁)
    (h : Taken source maxName r c₁ result c') : Taken source maxName r c result c' := by
  match result, h with
  | none, ⟨lines, s, hwritten, hgrows, hleaps⟩ =>
    have hsize : c₁.program.size = c.program.size := g.size
    rw [hsize, g.loops] at hgrows
    rw [g.loops] at hleaps
    exact ⟨lines, s, hwritten, g.trans hgrows, hleaps⟩
  | some (word, column), ⟨hhead, hgrows⟩ => exact ⟨hhead, g.trans hgrows⟩

theorem Compiles.statement (hblock : Compiles source maxName block)
    (h : Compiler.statement block fuel c = .ok result c') :
    Taken source maxName c.toReading c result c' := by
  obtain ⟨⟨token, column⟩, c₁, hnext, h⟩ := bind_eq_ok.1 h
  obtain ⟨hnext', g₁⟩ := Compiler.reading_ok source hnext
  have hhead : Outline.head c.toReading = _ := bind_ok hnext' _
  refine .of_grows g₁ ?_
  cases token with
  | finish =>
    cases h
    exact ⟨[], .nothing, .nothing hhead, .refl _, False.elim⟩
  | name text =>
    dsimp only at h hhead
    cases hword : Keyword.ofName? text with
    | some word =>
      rw [hword] at h hhead
      exact hblock.keyword hhead h
    | none =>
      rw [hword] at h hhead
      exact Compiles.named hhead h
  | _ => cases h

/-! ### Blocks and programs -/

theorem Compiler.nextLine_ok {line? : Option String} (h : nextLine source c = .ok line? c') :
    ∃ s, source c.workspace.names.knows c.source = .ok line? s ∧ c' = { c with source := s } := by
  rw [nextLine] at h
  cases hs : source c.workspace.names.knows c.source with
  | error fault s => rw [hs] at h; cases h
  | ok line s => rw [hs] at h; cases h; exact ⟨s, rfl, rfl⟩

theorem compiles_block (source : LineSource σ) (maxName fuel : Nat) :
    Compiles source maxName (Compiler.block source maxName fuel) := by
  induction fuel with
  | zero => rintro opener closers c word c' ⟨⟩
  | succ fuel ih =>
    intro opener closers c word c' h
    obtain ⟨line?, c₁, hnext, h⟩ := bind_eq_ok.1 h
    obtain ⟨s, hline, rfl⟩ := Compiler.nextLine_ok hnext
    cases line? with
    | none => cases h
    | some line =>
      dsimp only at h
      rw [modify_bind_apply] at h
      obtain ⟨result, c₂, hstatement, h⟩ := bind_eq_ok.1 h
      have htaken := ih.statement hstatement
      have hfirst : ∀ {lines nodes c'}, Compiler.Grows source
          { c with source := s, lexer := .ofText line maxName } lines nodes c' →
          c.Grows source (line :: lines) nodes c' := fun g =>
        ⟨.cons hline g.draws, g.nodes, g.limit, g.fits, g.loops⟩
      match result, htaken with
      | none, ⟨lines, first, hwritten, hgrows, hleaps⟩ =>
        obtain ⟨rest, body, hrest, hgrows', hleaps'⟩ := ih _ _ _ _ _ h
        have hsize : c₂.program.size = c.program.size + first.size := by
          rw [hgrows.size, length_code]
        rw [hsize, hgrows.loops] at hgrows'
        rw [hgrows.loops] at hleaps'
        refine ⟨line :: lines ++ rest, .both first body, .next hwritten hrest,
          (hfirst hgrows).trans hgrows', ?_⟩
        rintro (h | h)
        · exact hleaps h
        · exact hleaps' h
      | some (found, column), ⟨hhead, hgrows⟩ =>
        by_cases hmem : closers.contains found
        · simp only [if_pos hmem] at h
          have hclosing : ∃ c₃, Outline.closing found c₂.toReading = .ok () c₃.toReading ∧
              c₂.Grows source [] [] c₃ ∧ word = found ∧ c' = c₃ := by
            unfold Outline.closing
            split at h
            · next hend =>
                obtain ⟨_, c₃, hend', h⟩ := bind_eq_ok.1 h
                cases h
                obtain ⟨hread, hgrows'⟩ := Compiler.reading_ok source hend'
                rw [if_pos hend]
                exact ⟨_, hread, hgrows', rfl, rfl⟩
            · next hend =>
                cases h
                rw [if_neg hend]
                exact ⟨_, rfl, .refl _, rfl, rfl⟩
          obtain ⟨c₃, hread, hgrows', rfl, rfl⟩ := hclosing
          exact ⟨[line], .nothing, .close hhead (by simpa using hmem) hread,
            (hfirst hgrows).trans hgrows', False.elim⟩
        · simp only [if_neg hmem] at h
          cases h

/-- A statement that the compiler accepts is written on its line and on those taken from the source,
and the program holds its nodes. -/
theorem compile_ok {line : String} (hempty : c.program.nodes = #[]) (hloops : c.loops = [])
    (h : Compiler.compile source maxName fuel line c = .ok u c') :
    ∃ lines tree, Draws source c.source lines c'.source ∧
      Written maxName ⟨c.workspace, .ofText line maxName⟩ lines tree c'.toReading ∧
      ¬ tree.Leaps ∧ c'.program.nodes = (tree.code 0 0).toArray ∧
      c'.program.size ≤ c.program.limit := by
  unfold Compiler.compile at h
  generalize htop : Compiler.topLevel source maxName fuel
    { c with lexer := .ofText line maxName } = result at h
  have hsize : c.program.size = 0 := by rw [Program.size, hempty]; rfl
  cases result with
  | error failure c₁ => cases h
  | ok _ c₁ =>
    cases h
    obtain ⟨found, c₂, hstatement, htop⟩ := bind_eq_ok.1 htop
    have htaken := (compiles_block source maxName fuel).statement hstatement
    match found, htaken with
    | none, ⟨lines, tree, hwritten, hgrows, hleaps⟩ =>
      cases htop
      have hnodes := hgrows.nodes
      simp only [hempty, hloops, hsize, nil_append] at hnodes hleaps
      refine ⟨lines, tree, hgrows.draws, hwritten, fun hleap => hleaps hleap rfl, ?_,
        hgrows.fits (by simp only [hsize]; exact Nat.zero_le _)⟩
      exact Array.toList_inj.1 hnodes
    | some (word, column), _ => cases htop

end Constructs

end ArrayCommand
