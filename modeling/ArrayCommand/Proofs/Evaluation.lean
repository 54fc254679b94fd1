/-
The machine evaluates expressions as their trees are evaluated.

An expression in a program is a header, the nodes of its operands and its body.  Reading it keeps
pace with the evaluation of its tree: the same value comes back or the same fault, the host has seen
the same calls in the same order, and everything else in the machine is as it was.  Only a request
to stop, a full stack or too little fuel may cut it off; as much fuel as there are nodes is enough.

* `Follows` — keeping pace while only the host changes;
* `Reads` — a piece of code whose reader keeps pace with a computation, wherever it stands;
* `Expr.Resolves`, `Expr.Computes` — what that means for the operands of a tree, and for a complete
  expression;
* `Expr.computes` — every complete expression is evaluated as its tree is.
-/

import ArrayCommand.Proofs.Body

namespace ArrayCommand

open Evaluate Machine List Subscript

variable {nodes nodes' rest : List Node} {short : Prop} {m : Machine} {var : Handle} {w : Workspace}
  {n : Nat} {es : List Expr} {ss : List Subscript} {host : Host} {args : List Argument}
variable {α β : Type}

/-- Only the host may have changed. -/
def Machine.Steady (m m' : Machine) : Prop := ∃ host, m' = { m with host }

/-- A machine that works on an expression keeps pace with a computation: the variables stay, and it
comes back with nothing changed but the host. -/
abbrev Follows {α β : Type} (short : Prop) (m : Machine) (same : β → α → Prop) :
    Machine.Result β → EStateM.Result Fault Host α → Prop :=
  Tracks Machine.host (fun m' => m'.workspace = m.workspace) short
    fun b a m' => same b a ∧ m.Steady m'

namespace Follows

variable {α β γ δ : Type} {same : β → α → Prop} {same' : γ → δ → Prop}

theorem bind {x : MachineM β} {next : β → MachineM γ} {y : HostM α} {cont : α → HostM δ}
    (h : Follows short m same (x m) (y m.host))
    (hnext : ∀ b a host, same b a →
      Follows short { m with host } same' (next b { m with host }) (cont a host)) :
    Follows short m same' ((x >>= next) m) ((y >>= cont) m.host) := by
  refine Tracks.bind h ?_
  rintro b a _ ⟨hsame, host, rfl⟩
  refine (hnext b a host hsame).mono id ?_
  rintro c d _ ⟨hc, host', rfl⟩
  exact ⟨hc, host', rfl⟩

theorem pure {b : β} {a : α} (h : same b a) :
    Follows short m same ((Pure.pure b : MachineM β) m) ((Pure.pure a : HostM α) m.host) :=
  .value ⟨h, m.host, rfl⟩

theorem valueOf {next : Cell → MachineM γ} {cont : Cell → HostM δ}
    (hnext : ∀ cell, m.workspace.memory.value var = .ok cell →
      Follows short m same' (next cell m) (cont cell m.host)) :
    Follows short m same' ((valueOf var >>= next) m)
      ((Direct.check (m.workspace.memory.value var) >>= cont) m.host) :=
  .check (by trivial) hnext

end Follows

/-! ### Elements -/

section Elements

variable {operands : List Operand} {shapes : List Shape}
  {value : Element → HostM Scalar} {code : Array Node} {start stop fuel : Nat}

theorem elementValue_follows (h : Realizes m.workspace nodes 0 operands shapes (fun s => [s]) value)
    (hplaced : Placed code start nodes) (hstop : stop = start + nodes.length) (element : Element) :
    Follows (fuel ≤ nodes.length) m (· = ·)
      (elementValue code start stop operands.toArray fuel element m)
      (value element m.host) := by
  let p : Pass := ⟨code, stop, operands.toArray, element, m, fuel ≤ nodes.length⟩
  have hbody : p.Ends (p.go fuel start m.host m.run.items) ((value element >>= pure) m.host) := by
    refine h.computes p start rfl hplaced (Nat.le_of_eq hstop.symm) (placed_toArray operands) m.host
      m.run.items fuel pure (Nat.le_refl _) id ?_
    intro s host fuel' hfuel
    cases fuel' with
    | zero => exact .spent (by omega : fuel ≤ nodes.length)
    | succ fuel' =>
      rw [Pass.go, body_stop (Nat.le_of_eq hstop)]
      exact .value ⟨host, by simp [p]⟩
  rw [bind_pure] at hbody
  rw [elementValue, get_bind_apply, ← bind_pure (value element)]
  refine Tracks.bind hbody ?_
  rintro _ s _ ⟨host, rfl⟩
  refine Tracks.step pop_holding ?_
  rw [get_bind_apply, if_neg (by simp [holding, p])]
  exact .value ⟨rfl, host, rfl⟩

theorem elements_follows {run : Element → MachineM Scalar}
    (h : ∀ element host, Follows short { m with host } (· = ·)
      (run element { m with host }) (value element host)) (indices : List Index) :
    ∀ number out, Follows short m (· = ·) (elements run indices number out m)
      (Meaning.fillFrom value indices number out m.host) := by
  induction indices generalizing m with
  | nil => exact fun number out => .pure rfl
  | cons index rest ih =>
    intro number out
    rw [elements, Meaning.fillFrom]
    by_cases hstop : m.host.interrupted
    · have hcheck : checkInterrupt m = .error (.fault (.because .interrupted "")) m := by
        rw [checkInterrupt, get_bind_apply, if_pos hstop]
        rfl
      rw [bind_error hcheck]
      exact .disturbed (.interrupted hstop)
    · have hcheck : checkInterrupt m = .ok () m := by
        rw [checkInterrupt, get_bind_apply, if_neg hstop]
        rfl
      rw [bind_ok hcheck]
      refine Follows.bind (h ⟨index, number⟩ m.host) ?_
      rintro s _ host rfl
      refine Tracks.check (by trivial) fun out _ => ?_
      exact ih (m := { m with host }) h (number + 1) out

end Elements

/-! ### Reading pieces of code -/

/-- The reader of a piece of a program at an address, which tells the address behind the piece. -/
abbrev CodeReader (β : Type) := (code : Array Node) → (fuel pc : Nat) → MachineM (β × Nat)

/-- Reading some nodes, wherever they stand in a program, keeps pace with a computation. -/
def Reads {α β : Type} (w : Workspace) (nodes : List Node) (same : β → α → Prop)
    (read : CodeReader β) (x : HostM α) : Prop :=
  ∀ (code : Array Node) (fuel pc : Nat) (m : Machine), m.workspace = w → code.size < wordSize →
    Placed code pc nodes →
    Follows (fuel < nodes.length) m (fun r a => r.2 = pc + nodes.length ∧ same r.1 a)
      (read code fuel pc m) (x m.host)

namespace Reads

variable {α β γ δ : Type} {same : β → α → Prop}
  {same' : γ → δ → Prop} {read : CodeReader β} {x : HostM α}

theorem bind {next : β → CodeReader γ} {cont : α → HostM δ} (h : Reads w nodes same read x)
    (hnext : ∀ b a, same b a → Reads w nodes' same' (next b) (cont a)) :
    Reads w (nodes ++ nodes') same'
      (fun code fuel pc => do
        let (b, pc) ← read code fuel pc
        next b code fuel pc)
      (x >>= cont) := by
  intro code fuel pc m hw hcode hplaced
  have hshort : fuel < nodes.length ∨ fuel < nodes'.length → fuel < (nodes ++ nodes').length := by
    rw [length_append]
    omega
  refine Follows.bind ((h code fuel pc m hw hcode hplaced.left).mono (hshort ∘ .inl) fun _ _ _ => id)
    ?_
  rintro ⟨b, _⟩ a host ⟨rfl, hsame⟩
  have h' := hnext b a hsame code fuel _ { m with host } hw hcode hplaced.right
  refine h'.mono (hshort ∘ .inr) ?_
  rintro r d m' ⟨⟨hpc, hd⟩, hm'⟩
  exact ⟨⟨by rw [hpc, length_append, Nat.add_assoc], hd⟩, hm'⟩

theorem andThen {x : HostM β} {next : β → CodeReader γ} {cont : β → HostM δ}
    (h : Reads w nodes (· = ·) read x) (hnext : ∀ b, Reads w nodes' same' (next b) (cont b)) :
    Reads w (nodes ++ nodes') same'
      (fun code fuel pc => do
        let (b, pc) ← read code fuel pc
        next b code fuel pc)
      (x >>= cont) := by
  refine h.bind ?_
  rintro b _ rfl
  exact hnext b

theorem pure {b : β} {a : α} (h : same b a) :
    Reads w [] same (fun _ _ pc => Pure.pure (b, pc)) (Pure.pure a) :=
  fun _ _ _ _ _ _ _ => .pure ⟨rfl, h⟩

theorem map' (g : β → γ) (f : α → δ) (h : Reads w nodes same read x)
    (hsame : ∀ b a, same b a → same' (g b) (f a)) :
    Reads w nodes same'
      (fun code fuel pc => do
        let (b, pc) ← read code fuel pc
        return (g b, pc))
      (do return f (← x)) := by
  have hnext : ∀ b a, same b a →
      Reads w [] same' (fun _ _ pc => Pure.pure (g b, pc)) (Pure.pure (f a)) :=
    fun b a hba => .pure (hsame b a hba)
  have h' := h.bind hnext
  rwa [append_nil] at h'

theorem map {same' : β → δ → Prop} (f : α → δ) (h : Reads w nodes same read x)
    (hsame : ∀ b a, same b a → same' b (f a)) : Reads w nodes same' read (do return f (← x)) := by
  simpa using h.map' id f hsame

theorem fail (fault : Fault) : Reads w nodes same (fun _ _ _ => fail fault) (throw fault) :=
  fun _ _ _ _ _ _ _ => .fault rfl

theorem checking (result : Except Fault γ) {next : γ → CodeReader β} {cont : γ → HostM α}
    (h : ∀ c, Reads w nodes same (next c) (cont c)) :
    Reads w nodes same
      (fun code fuel pc => do
        let c ← check result
        next c code fuel pc)
      (do
        let c ← Direct.check result
        cont c) := by
  cases result with
  | ok c => exact h c
  | error fault => exact .fail fault

theorem checked (result : Except Fault β) :
    Reads w [] (· = ·) (fun _ _ pc => do return (← check result, pc)) (Direct.check result) := by
  intro code fuel pc m _ _ _
  cases result with
  | ok c => exact .value ⟨⟨rfl, rfl⟩, m.host, rfl⟩
  | error fault => exact .fault rfl

theorem check {x : HostM β} (f : β → Except Fault γ) (h : Reads w nodes (· = ·) read x) :
    Reads w nodes (· = ·)
      (fun code fuel pc => do
        let (b, pc) ← read code fuel pc
        return (← check (f b), pc))
      (do Direct.check (f (← x))) := by
  have h' := h.andThen fun b => checked (f b)
  rwa [append_nil] at h'

theorem nested {header : Header} {fill : Option Shape} {x : HostM Cell}
    (hlength : header.length = rest.length)
    (h : ∀ (code : Array Node) (fuel pc : Nat) (m : Machine), m.workspace = w →
      code.size < wordSize → Placed code pc (.expr header :: rest) →
      Follows (fuel < rest.length + 1) m (· = ·) (expression code fuel pc fill m)
        (x m.host)) :
    Reads w (.expr header :: rest) (· = ·)
      (fun code fuel pc => nestedWith (expression code fuel) code pc fill) x := by
  intro code fuel pc m hw hcode hplaced
  have hsize := hplaced.le_size (by simp)
  have hat : lengthAt code pc m = .ok header.length m := by
    rw [lengthAt, hplaced.head]
    rfl
  change Follows _ m _ (nestedWith _ code pc fill m) _
  rw [nestedWith, bind_ok hat, ← bind_pure x]
  refine Follows.bind (h code fuel pc m hw hcode hplaced) ?_
  rintro cell _ host rfl
  refine .pure ⟨?_, rfl⟩
  rw [length_cons] at hsize ⊢
  rw [behind_eq (by omega), hlength]
  omega

end Reads

/-! ### Trees

The statements about a tree are put together from those about its parts: the reader of the operands
of a tree keeps pace with its meaning, and the reader of a complete expression with its value. -/

/-- The operands that a tree was resolved to, and its meaning. -/
structure Expr.Resolved (w : Workspace) (e : Expr) (slot : Nat) (operands : List Operand)
    (m : Meaning) : Prop where
  length : operands.length = e.slots
  body : Realizes w (e.body slot) slot operands m.shapes (fun s => [s]) m.value

def operandsReader (count : Nat) : CodeReader (List Operand) :=
  fun code fuel pc => Evaluate.operandsWith (expression code fuel) code count pc

def operandAt : CodeReader Operand := fun code fuel pc =>
  match code[pc]? with
  | some (.array _ var cast) => Evaluate.arrayWith (expression code fuel) code (pc + 1) var cast
  | some (.index _ var axes) => do
    let shape := (← Machine.valueOf var).shape
    let (view, pc) ← Evaluate.sectionWith (expression code fuel) code (pc + 1) shape axes
    pure (⟨.var var, view⟩, pc)
  | some (.once _ func argc type) => Evaluate.onceWith (expression code fuel) code (pc + 1) func argc type
  | some node => Machine.malformed (node.text ++ " IN PROLOGUE")
  | none => Machine.malformed "EXPRESSION EXPECTED"

theorem operandsReader_succ (n : Nat) :
    operandsReader (n + 1) = fun code fuel pc => do
      let (operand, pc) ← operandAt code fuel pc
      let (rest, pc) ← operandsReader n code fuel pc
      return (operand :: rest, pc) := by
  funext code fuel pc
  simp only [operandsReader, operandsWith, operandAt]
  cases code[pc]? with
  | none => rfl
  | some node =>
    cases node with
    | index slot var axes => simp only [bind_assoc, pure_bind]
    | _ => rfl

theorem operandsReader_add (n k : Nat) :
    operandsReader (n + k) = fun code fuel pc => do
      let (before, pc) ← operandsReader n code fuel pc
      let (after, pc) ← operandsReader k code fuel pc
      return (before ++ after, pc) := by
  induction n with
  | zero =>
    funext code fuel pc
    simp [operandsReader, operandsWith]
  | succ n ih =>
    rw [Nat.add_right_comm, operandsReader_succ, operandsReader_succ, ih]
    simp only [bind_assoc, pure_bind, cons_append]

theorem Reads.operands {γ : Type} {k : Nat}
    {same : List Operand → α → Prop} {same' : List Operand → β → Prop}
    {both : List Operand → γ → Prop} {x : HostM α} {y : HostM β} (f : α → β → γ)
    (hx : Reads w nodes same (operandsReader n) x) (hy : Reads w nodes' same' (operandsReader k) y)
    (hboth : ∀ before after a b, same before a → same' after b → both (before ++ after) (f a b)) :
    Reads w (nodes ++ nodes') both (operandsReader (n + k)) (do
      let a ← x
      let b ← y
      return f a b) := by
  rw [operandsReader_add]
  have hafter : ∀ before a, same before a → Reads w nodes' both
      (fun code fuel pc => do
        let (after, pc) ← operandsReader k code fuel pc
        return (before ++ after, pc))
      (do return f a (← y)) :=
    fun before a ha => hy.map' (fun after => before ++ after) (f a) fun after b hb =>
      hboth before after a b ha hb
  exact hx.bind hafter

theorem Reads.operand {x : HostM Operand} (h : Reads w nodes (· = ·) operandAt x) :
    Reads w nodes (fun operands operand => operands = [operand]) (operandsReader 1) x := by
  rw [operandsReader_succ, ← bind_pure x]
  refine h.map' (fun operand => [operand]) id fun _ _ hb => ?_
  rw [hb, id]

/-- The machine resolves the operands of a tree as its meaning does. -/
def Expr.Resolves (w : Workspace) (e : Expr) : Prop :=
  ∀ slot, Reads w (e.prologue slot) (e.Resolved w slot) (operandsReader e.slots) (e.meaning w)

/-- The machine evaluates a complete expression as its tree is evaluated. -/
def Expr.Computes (w : Workspace) (e : Expr) : Prop :=
  ∀ (type : ElementType) (fill : Option Shape) (code : Array Node) (fuel pc : Nat) (m : Machine),
    m.workspace = w → code.size < wordSize → Placed code pc (e.code type) →
    Follows (fuel < (e.code type).length) m (· = ·) (expression code fuel pc fill m)
      (e.evaluate w type fill m.host)

variable {e : Expr}

theorem Expr.Resolves.computes (h : e.Resolves w) : e.Computes w := by
  intro type fill code fuel pc m hw hcode hplaced
  have hsize := hplaced.le_size (by simp [Expr.code, headed])
  simp only [Expr.code, headed, length_cons, length_append] at hplaced hsize ⊢
  cases fuel with
  | zero => exact .spent (by omega)
  | succ fuel =>
    rw [expression, hplaced.head]
    have hprologue := h 0 code fuel (pc + 1) m hw hcode hplaced.tail.left
    refine Follows.bind (hprologue.mono (fun _ => by omega) fun _ _ _ => id) ?_
    rintro ⟨operands, _⟩ meaning host ⟨rfl, hresolved⟩
    dsimp only
    rw [Meaning.cell, ← hresolved.body.shapes_eq]
    refine Tracks.check (by trivial) fun shape _ => Tracks.check (by trivial) fun out _ => ?_
    refine elements_follows ?_ _ 0 out
    intro element host'
    have hstop : behind pc ((e.prologue 0).length + (e.body 0).length) =
        pc + 1 + (e.prologue 0).length + (e.body 0).length := by
      rw [behind_eq (by omega)]
      omega
    rw [← hw] at hresolved
    exact (elementValue_follows (m := { m with host := host' }) hresolved.body hplaced.tail.right
      hstop element).mono (fun _ => by omega) fun _ _ _ => id

/-! ### Trees without operands of their own -/

namespace Expr

variable {l r : Expr}
variable {type : ElementType}

theorem Resolved.next {slot : Nat} {before after : List Operand} {a b : Meaning}
    (ha : l.Resolved w slot before a) (hb : r.Resolved w (slot + l.slots) after b) :
    Realizes w (r.body (slot + l.slots)) (slot + before.length) after b.shapes (fun s => [s])
      b.value := by
  rw [ha.length]
  exact hb.body

theorem resolves_const (value : Scalar) : (Expr.const value).Resolves w :=
  fun _ => .pure ⟨rfl, .const value⟩

theorem resolves_placeholder : Expr.placeholder.Resolves w :=
  fun _ => .pure ⟨rfl, .placeholder⟩

theorem Resolves.coerce {want : ElementType} (h : e.Resolves w) : (Expr.coerce want e).Resolves w :=
  fun slot => (h slot).map _ fun _ _ hr => ⟨hr.length, hr.body.coerce⟩

theorem Resolves.neg (h : e.Resolves w) : (Expr.neg type e).Resolves w :=
  fun slot => (h slot).map _ fun _ _ hr => ⟨hr.length, hr.body.neg⟩

theorem Resolves.not (h : e.Resolves w) : (Expr.not e).Resolves w :=
  fun slot => (h slot).map _ fun _ _ hr => ⟨hr.length, hr.body.not⟩

theorem Resolves.binary {op : BinaryOp} {coerceLeft coerceRight : Bool} (hl : l.Resolves w)
    (hr : r.Resolves w) : (Expr.binary op type coerceLeft coerceRight l r).Resolves w := by
  intro slot
  refine (hl slot).operands _ (hr (slot + l.slots)) ?_
  intro before after a b ha hb
  exact ⟨by simp [ha.length, hb.length, Expr.slots], ha.body.binary (ha.next hb)⟩

theorem Resolves.and (hl : l.Resolves w) (hr : r.Resolves w) : (Expr.and l r).Resolves w := by
  intro slot
  refine (hl slot).operands _ (hr (slot + l.slots)) ?_
  intro before after a b ha hb
  exact ⟨by simp [ha.length, hb.length, Expr.slots], ha.body.guarded false (ha.next hb)⟩

theorem Resolves.or (hl : l.Resolves w) (hr : r.Resolves w) : (Expr.or l r).Resolves w := by
  intro slot
  refine (hl slot).operands _ (hr (slot + l.slots)) ?_
  intro before after a b ha hb
  exact ⟨by simp [ha.length, hb.length, Expr.slots], ha.body.guarded true (ha.next hb)⟩

/-- The operands that two trees were resolved to one after the other, and their meanings. -/
def ResolvedTwo (w : Workspace) (l r : Expr) (slot : Nat) (operands : List Operand)
    (ms : Meaning × Meaning) : Prop :=
  ∃ before after, operands = before ++ after ∧ l.Resolved w slot before ms.1 ∧
    r.Resolved w (slot + l.slots) after ms.2

theorem resolves_two (hl : l.Resolves w) (hr : r.Resolves w) (slot : Nat) :
    Reads w (l.prologue slot ++ r.prologue (slot + l.slots)) (ResolvedTwo w l r slot)
      (operandsReader (l.slots + r.slots)) (do return (← l.meaning w, ← r.meaning w)) :=
  (hl slot).operands Prod.mk (hr (slot + l.slots)) fun before after _ _ ha hb =>
    ⟨before, after, rfl, ha, hb⟩

theorem Resolves.substring {text first : Expr} {last : Option Expr} (ht : text.Resolves w)
    (hf : first.Resolves w) (hl : ∀ e ∈ last, e.Resolves w) :
    (Expr.substring text first last).Resolves w := by
  intro slot
  cases last with
  | none =>
    simp only [Expr.slots, Expr.slotsOption, Expr.prologue, Expr.prologueOption, Expr.meaning,
      Expr.meaningOption, append_nil, Nat.add_zero, pure_bind]
    refine (ht slot).operands _ (hf (slot + text.slots)) ?_
    intro before after a b ha hb
    refine ⟨by simp [ha.length, hb.length, Expr.slots, Expr.slotsOption], ?_⟩
    simpa [Expr.body, Expr.bodyOption] using ha.body.substringOne (ha.next hb)
  | some last =>
    have hboth : ∀ operands behind ab c, ResolvedTwo w text first slot operands ab →
        last.Resolved w (slot + text.slots + first.slots) behind c →
        (Expr.substring text first (some last)).Resolved w slot (operands ++ behind)
          (.part ab.1 ab.2 (some c)) := by
      rintro _ behind ab c ⟨before, after, rfl, ha, hb⟩ hc
      have hslot : slot + (before ++ after).length = slot + text.slots + first.slots := by
        rw [length_append, ha.length, hb.length, Nat.add_assoc]
      have hthird := hc.body
      rw [← hslot] at hthird
      refine ⟨by simp [ha.length, hb.length, hc.length, Expr.slots, Expr.slotsOption,
        Nat.add_assoc], ?_⟩
      rw [Expr.body, Expr.bodyOption, ← hslot]
      exact ha.body.substringTwo (ha.next hb) hthird
    have h := (resolves_two ht hf slot).operands _ (hl last rfl _) hboth
    simpa only [Expr.slots, Expr.slotsOption, Expr.prologue, Expr.prologueOption, Expr.meaning,
      Expr.meaningOption, bind_assoc, pure_bind] using h

/-- The operands that several trees were resolved to, and their meanings. -/
structure ResolvedAll (w : Workspace) (es : List Expr) (slot : Nat) (operands : List Operand)
    (ms : List Meaning) : Prop where
  length : operands.length = Expr.slotsAll es
  count : ms.length = es.length
  body : Realizes w (Expr.bodies slot es) slot operands (ms.map Meaning.shapes).flatten
    Subtype.val (fun element => Meaning.values element ms)

theorem resolves_all (h : ∀ e ∈ es, e.Resolves w) :
    ∀ slot, Reads w (Expr.prologues slot es) (ResolvedAll w es slot)
      (operandsReader (Expr.slotsAll es)) (Expr.meanings w es) := by
  induction es with
  | nil => exact fun _ => .pure ⟨rfl, rfl, .nil⟩
  | cons e es ih =>
    intro slot
    obtain ⟨he, hes⟩ := forall_mem_cons.1 h
    refine (he slot).operands _ (ih hes (slot + e.slots)) ?_
    intro before after m ms hm hms
    have hbody := hms.body
    rw [← hm.length] at hbody
    refine ⟨by simp [hm.length, hms.length, Expr.slotsAll], by simp [hms.count], ?_⟩
    rw [Expr.bodies, ← hm.length]
    exact hm.body.cons hbody

theorem Resolves.call {func : Nat} {args : List Expr} (h : ∀ e ∈ args, e.Resolves w) :
    (Expr.call func args type).Resolves w :=
  fun slot => (resolves_all h slot).map _ fun _ _ hr => ⟨hr.length, hr.body.call hr.count⟩

end Expr

/-! ### Nested expressions -/

namespace Expr.Computes

theorem nested (h : e.Computes w) (type : ElementType) (fill : Option Shape) :
    Reads w (e.code type) (· = ·) (fun code fuel pc => nestedWith (expression code fuel) code pc fill)
      (e.evaluate w type fill) :=
  .nested (by simp) (h type fill)

theorem integer (h : e.Computes w) :
    Reads w (e.code .integer) (· = ·)
      (fun code fuel pc => integerWith (expression code fuel) code pc) (do (← e.meaning w).integer) := by
  have h' := (h.nested .integer none).check Cell.integer
  rwa [Expr.evaluate, bind_assoc] at h'

theorem bound {o : Option Expr} (h : ∀ e ∈ o, e.Computes w) :
    Reads w (Expr.codeOption o) (· = ·)
      (fun code fuel pc => optionWith (expression code fuel) code pc o.isSome) (Expr.bound w o) := by
  cases o with
  | none => exact .pure rfl
  | some e =>
    have h' := (h e rfl).integer.map' some some fun _ _ => congrArg some
    rw [bind_assoc] at h'
    exact h'

theorem extentBefore {x : HostM (List Nat)} (n : Int) (h : Reads w (Expr.codes es) (· = ·)
      (fun code fuel pc => extentsWith (expression code fuel) code es.length pc) x) :
    Reads w (Expr.codes es) (· = ·)
      (fun code fuel pc => do
        if n < 0 then fail (.because .domainError "NEGATIVE EXTENT")
        let (rest, pc) ← extentsWith (expression code fuel) code es.length pc
        return (n.toNat :: rest, pc))
      (do
        let extent ← Direct.check (extentOf n)
        return extent :: (← x)) := by
  by_cases hn : n < 0
  · simp only [if_pos hn, extentOf]
    exact .fail _
  · simp only [if_neg hn, extentOf]
    exact h.map' (n.toNat :: ·) (n.toNat :: ·) fun _ _ => congrArg _

theorem extents (h : ∀ e ∈ es, e.Computes w) :
    Reads w (Expr.codes es) (· = ·)
      (fun code fuel pc => extentsWith (expression code fuel) code es.length pc)
      (Expr.extents w es) := by
  induction es with
  | nil => exact .pure rfl
  | cons e es ih =>
    obtain ⟨he, hes⟩ := forall_mem_cons.1 h
    have h' := he.integer.andThen fun n => extentBefore n (ih hes)
    rw [bind_assoc] at h'
    exact h'

theorem axisBetween (axis extent : Nat) (first last step : Option Int) :
    Reads w [] (· = ·)
      (fun _ _ pc => do
        let step := step.getD 1
        if step = 0 then fail (.because .domainError "ZERO STEP")
        let (low, high) := if 0 < step then (1, (extent : Int)) else ((extent : Int), 1)
        return (← check (Evaluate.axisRange axis extent (first.getD low)
          (last.getD high) step), pc))
      (Direct.check (Evaluate.axisBetween axis extent first last step)) := by
  by_cases hzero : step.getD 1 = 0
  · simp only [hzero, if_true, Evaluate.axisBetween]
    exact .fail _
  · simp only [hzero, if_false, Evaluate.axisBetween]
    exact .checked _

theorem span {s : Subscript} (h : ∀ e ∈ s.parts, e.Computes w) (axis extent : Nat) :
    Reads w s.code (· = ·)
      (fun code fuel pc => axisWith (expression code fuel) code pc axis extent s.axis)
      (s.span w axis extent) := by
  cases s with
  | all => exact .checked (axisRange axis extent 1 extent 1)
  | «at» e =>
    have he : e.Computes w := h e (mem_singleton.2 rfl)
    have h' := he.integer.check fun i => axisRange axis extent i i 1
    rw [bind_assoc] at h'
    exact h'
  | range first last step =>
    simp only [parts, mem_append, Option.mem_toList] at h
    have hfirst := bound fun e he => h e (.inl (.inl he))
    have hlast := bound fun e he => h e (.inl (.inr he))
    have hstep := bound fun e he => h e (.inr he)
    have hbind := hfirst.andThen fun first => hlast.andThen fun last =>
      hstep.andThen fun step => axisBetween axis extent first last step
    rw [append_nil, ← append_assoc] at hbind
    exact hbind

theorem spans (h : ∀ s ∈ ss, ∀ e ∈ s.parts, e.Computes w) (shape : Shape) :
    ∀ axis base, Reads w (Subscript.codes ss) (· = ·)
      (fun code fuel pc =>
        axesWith (expression code fuel) code shape pc axis base (ss.map Subscript.axis))
      (Subscript.spans w shape axis base ss) := by
  induction ss with
  | nil => exact fun _ _ => .pure rfl
  | cons s ss ih =>
    intro axis base
    obtain ⟨hs, hss⟩ := forall_mem_cons.1 h
    exact (span hs axis (shape.extent axis)).andThen fun range =>
      .checking (placed s.axis range (signedStride shape axis) base) fun base =>
        (ih hss (axis + 1) base).map' (range :: ·) (range :: ·) fun _ _ => congrArg _

theorem view (h : ∀ s ∈ ss, ∀ e ∈ s.parts, e.Computes w) (shape : Shape) :
    Reads w (Subscript.codes ss) (· = ·)
      (fun code fuel pc => sectionWith (expression code fuel) code pc shape (ss.map Subscript.axis))
      (Subscript.view w shape ss) := by
  unfold sectionWith Subscript.view checkAxes
  rw [length_map]
  by_cases hrank : ss.length ≠ shape.rank
  · simp only [if_pos hrank]
    exact .fail _
  · simp only [if_neg hrank]
    exact (spans h shape 0 0).check (viewOf shape (ss.map Subscript.axis))

end Expr.Computes

/-! ### Trees with operands of their own -/

theorem Reads.node {node : Node} {same : β → α → Prop} {read : CodeReader β}
    {x : HostM α} (read' : CodeReader β)
    (hread : ∀ code fuel pc, code[pc]? = some node → read code fuel pc = read' code fuel (pc + 1))
    (h : Reads w rest same read' x) : Reads w (node :: rest) same read x := by
  intro code fuel pc m hw hcode hplaced
  rw [hread code fuel pc hplaced.head]
  refine (h code fuel (pc + 1) m hw hcode hplaced.tail).mono ?_ ?_
  · intro hfuel
    rw [length_cons]
    omega
  · rintro r a m' ⟨⟨hpc, ha⟩, hm'⟩
    exact ⟨⟨by rw [hpc, length_cons]; omega, ha⟩, hm'⟩

theorem Reads.valueOf {same : β → α → Prop} {next : Cell → CodeReader β}
    {cont : Cell → HostM α} (h : ∀ cell, Reads w nodes same (next cell) (cont cell)) :
    Reads w nodes same
      (fun code fuel pc => do
        let cell ← valueOf var
        next cell code fuel pc)
      (do
        let cell ← Direct.check (w.memory.value var)
        cont cell) := by
  intro code fuel pc m hw hcode hplaced
  subst hw
  exact Follows.valueOf fun cell _ => h cell code fuel pc m rfl hcode hplaced

namespace Expr

theorem resolves_of_operand (x : HostM Operand) (hslots : e.slots = 1)
    (hbody : ∀ slot, e.body slot = [.operand slot])
    (hmeaning : e.meaning w = do return .operand w (← x))
    (h : ∀ slot, Reads w (e.prologue slot) (· = ·) operandAt x) : e.Resolves w := by
  intro slot
  rw [hslots, hmeaning]
  refine (h slot).operand.map (Meaning.operand w) ?_
  rintro _ operand rfl
  refine ⟨hslots.symm, ?_⟩
  rw [hbody]
  exact .operand operand

theorem reads_whole (slot : Nat) (var : Handle) :
    Reads w [.array slot var 0] (· = ·) operandAt (do
      let value ← Direct.check (w.memory.value var)
      return ⟨.var var, .whole value.shape⟩) := by
  refine Reads.node (fun code fuel pc => arrayWith (expression code fuel) code pc var 0) ?_ ?_
  · intro code fuel pc hnode
    simp only [operandAt, hnode]
  · exact Reads.valueOf fun cell => .pure rfl

theorem resolves_whole (var : Handle) : (Expr.whole var).Resolves w := by
  refine resolves_of_operand _ rfl (fun _ => rfl) ?_ fun slot => reads_whole slot var
  simp only [Expr.meaning, bind_assoc, pure_bind]

theorem resolves_cast (var : Handle) {extents : List Expr} (h : ∀ e ∈ extents, e.Computes w) :
    (Expr.cast var extents).Resolves w := by
  cases extents with
  | nil =>
    refine resolves_of_operand _ rfl (fun _ => rfl) ?_ fun slot => reads_whole slot var
    simp only [Expr.meaning, bind_assoc, pure_bind]
  | cons e es =>
    refine resolves_of_operand (do
      let value ← Direct.check (w.memory.value var)
      let dims ← Expr.extents w (e :: es)
      let shape ← Direct.check (value.shape.cast dims)
      return ⟨.var var, .whole shape⟩) rfl (fun _ => rfl) ?_ ?_
    · simp only [Expr.meaning, bind_assoc, pure_bind]
    intro slot
    refine Reads.node (fun code fuel pc => arrayWith (expression code fuel) code pc var (es.length + 1))
      ?_ ?_
    · intro code fuel pc hnode
      simp only [operandAt, hnode, length_cons]
    refine Reads.valueOf fun cell => ?_
    have hshape : ∀ dims, Reads w [] (· = ·)
        (fun _ _ pc => do
          let reshaped ← check (Shape.ofDims dims)
          if reshaped.size ≠ cell.shape.size then
            fail (.because .shapeMismatch
              ("CANNOT CAST " ++ cell.shape.text ++ " TO " ++ reshaped.text))
          return (⟨.var var, .whole reshaped⟩, pc))
        (do
          let shape ← Direct.check (cell.shape.cast dims)
          return (⟨.var var, .whole shape⟩ : Operand)) := by
      intro dims
      cases hdims : Shape.ofDims dims with
      | error fault =>
        rw [Shape.cast, hdims]
        exact .fail fault
      | ok shape =>
        have hcast : cell.shape.cast dims =
            if shape.size ≠ cell.shape.size then
              .error (.because .shapeMismatch
                ("CANNOT CAST " ++ cell.shape.text ++ " TO " ++ shape.text))
            else .ok shape := by
          rw [Shape.cast, hdims]
          rfl
        rw [hcast]
        by_cases hsize : shape.size ≠ cell.shape.size
        · simp only [check, pure_bind, if_pos hsize]
          exact .fail _
        · simp only [check, pure_bind, if_neg hsize]
          exact .pure rfl
    have h' := (Computes.extents h).andThen hshape
    rw [append_nil] at h'
    exact h'

theorem resolves_slice (var : Handle) {subscripts : List Subscript}
    (h : ∀ s ∈ subscripts, ∀ e ∈ s.parts, e.Computes w) :
    (Expr.slice var subscripts).Resolves w := by
  refine resolves_of_operand (do
    let value ← Direct.check (w.memory.value var)
    let view ← view w value.shape subscripts
    return ⟨.var var, view⟩) rfl (fun _ => rfl) ?_ ?_
  · simp only [Expr.meaning, view, bind_assoc, pure_bind]
  intro slot
  refine Reads.node (fun code fuel pc => do
    let cell ← valueOf var
    let (view, pc) ← sectionWith (expression code fuel) code pc cell.shape (subscripts.map axis)
    pure (⟨.var var, view⟩, pc)) ?_ ?_
  · intro code fuel pc hnode
    simp only [operandAt, hnode]
  exact Reads.valueOf fun cell => (Computes.view h cell.shape).map'
    (Operand.mk (.var var)) (Operand.mk (.var var)) fun _ _ => congrArg _

end Expr

/-! ### Calls made once -/

namespace Machine

/-- The machine with another host and with cells on top of its stack of cells. -/
def loaded (m : Machine) (host : Host) (cells : List Cell) : Machine :=
  { m with host, values := { m.values with items := m.values.items ++ cells.toArray } }

variable {host' : Host} {cells cells' : List Cell}

theorem loaded_loaded :
    (m.loaded host cells).loaded host' cells' = m.loaded host' (cells ++ cells') := by
  simp [loaded]

theorem loaded_nil : m.loaded host [] = { m with host } := by
  simp [loaded]

theorem tail_loaded (h : cells.length = n) :
    (m.loaded host cells).values.tail n = .ok cells.toArray := by
  subst h
  have hsize : ¬ m.values.items.size + cells.length < cells.length := by omega
  simp [loaded, Stack.tail, Stack.size, hsize]

theorem unload :
    { m.loaded host cells with
      host := host', values := (m.loaded host cells).values.truncate m.values.size } =
      { m with host := host' } := by
  simp [loaded, Stack.truncate, Stack.size]

end Machine

theorem Tracks.pushCell {γ δ : Type} {kept : Machine → Prop} {post : γ → δ → Machine → Prop}
    {cell : Cell} {next : Unit → MachineM γ} {y : EStateM.Result Fault Host δ}
    (hnext : Tracks Machine.host kept short post (next () (m.loaded host [cell])) y) :
    Tracks Machine.host kept short post
      ((Machine.onValues (Stack.push cell) >>= next) { m with host }) y := by
  by_cases hroom : m.values.items.size + 1 ≤ m.values.limit
  · have hpush : Machine.onValues (Stack.push cell) { m with host } =
        .ok () (m.loaded host [cell]) := by
      simp [Machine.onValues, Stack.push, Stack.check, Stack.size, Machine.loaded, hroom]
    exact Tracks.step hpush hnext
  · have hpush : Machine.onValues (Stack.push cell) { m with host } =
        .error (.fault (.because .stackOverflow m.values.title)) (m.loaded host [cell]) := by
      simp [Machine.onValues, Stack.push, Stack.check, Stack.size, Machine.loaded, hroom]
    rw [bind_error hpush]
    refine .disturbed (.cells (m := m.loaded host [cell]) ?_)
    simp only [Machine.loaded, Stack.size, Array.size_append, size_toArray, length_singleton]
    omega

theorem Argument.reads {a : Argument} (h : ∀ e ∈ a.parts, e.Computes w) :
    Reads w a.code (· = ·) (fun code fuel pc => nestedWith (expression code fuel) code pc none)
      (a.cell w) := by
  cases a with
  | value e type => exact (h e (mem_singleton.2 rfl)).nested type none
  | reference var type =>
    refine .nested rfl ?_
    intro code fuel pc m hw _ hplaced
    subst hw
    cases fuel with
    | zero => exact .spent (by simp)
    | succ fuel =>
      rw [expression, hplaced.head]
      exact Follows.valueOf fun cell _ => .pure rfl
  | name text =>
    refine .nested rfl ?_
    intro code fuel pc m _ _ hplaced
    cases fuel with
    | zero => exact .spent (by simp)
    | succ fuel =>
      rw [expression, hplaced.head]
      exact .pure rfl

theorem Argument.onceCells_track (f : Function) (h : ∀ a ∈ args, ∀ e ∈ a.parts, e.Computes w) :
    ∀ (code : Array Node) (fuel index pc : Nat) (m : Machine), m.workspace = w →
      code.size < wordSize → Placed code pc (Argument.codes args) →
      Tracks Machine.host (fun m' => m'.workspace = m.workspace)
        (fuel < (Argument.codes args).length)
        (fun pc' cells m' => pc' = pc + (Argument.codes args).length ∧
          cells.length = args.length ∧ ∃ host, m' = m.loaded host cells)
        (argumentsWith (expression code fuel) code f args.length index pc m)
        (Argument.onceCells w f index args m.host) := by
  induction args with
  | nil =>
    intro code fuel index pc m _ _ _
    exact .value ⟨rfl, rfl, m.host, Machine.loaded_nil.symm⟩
  | cons a args ih =>
    intro code fuel index pc m hw hcode hplaced
    obtain ⟨ha, hargs⟩ := forall_mem_cons.1 h
    have hlength : (Argument.codes (a :: args)).length = a.code.length +
      (Argument.codes args).length := length_append
    have hcell := Argument.reads ha code fuel pc m hw hcode hplaced.left
    refine Tracks.bind (hcell.mono (fun _ => by omega) fun _ _ _ => id) ?_
    rintro ⟨cell, _⟩ _ _ ⟨⟨rfl, rfl⟩, host, rfl⟩
    unfold Function.onceCell
    dsimp only
    cases Machine.checkRank f index cell with
    | error fault => exact .fault rfl
    | ok u =>
      refine Tracks.step rfl ?_
      generalize (if (f.decl index).mode = .reference then cell.owned .functionReference
        else cell) = given
      refine Tracks.pushCell ?_
      have hrest := ih hargs code fuel (index + 1) _ (m.loaded host [given]) hw hcode
        hplaced.right
      refine (hrest.mono (fun _ => by omega) fun _ _ _ => id).map (given :: ·) ?_
      rintro _ cells _ ⟨rfl, hcount, host', rfl⟩
      refine ⟨by omega, by simp [hcount], host', ?_⟩
      rw [Machine.loaded_loaded, singleton_append]

namespace Expr

theorem resolves_once (func : Nat) (type : ElementType)
    (h : ∀ a ∈ args, ∀ e ∈ a.parts, e.Computes w) : (Expr.once func args type).Resolves w := by
  refine resolves_of_operand (do
    let f ← Direct.functionOf w func
    let cells ← Argument.onceCells w f 0 args
    Direct.callOnce f type cells) rfl (fun _ => rfl) ?_ ?_
  · simp only [Expr.meaning, bind_assoc]
  intro slot
  refine Reads.node (fun code fuel pc => onceWith (expression code fuel) code pc func args.length type) ?_ ?_
  · intro code fuel pc hnode
    simp only [operandAt, hnode]
  intro code fuel pc m hw hcode hplaced
  subst hw
  refine Tracks.bind (Tracks.functionOf (by rfl) func) ?_
  rintro f _ m' ⟨rfl, hm, _⟩
  rw [hm, get_bind_apply]
  refine Tracks.bind (Argument.onceCells_track f h code fuel 0 pc m rfl hcode hplaced) ?_
  rintro _ cells _ ⟨rfl, hcount, host, rfl⟩
  rw [get_bind_apply, Machine.tail_loaded hcount]
  refine Tracks.step rfl (Tracks.invoke ?_ ?_)
  · intro c
    dsimp only
    rw [modify_bind_apply]
    generalize c.out.getD (Cell.fresh type .scalar .functionValue) = out
    by_cases htype : out.type = type
    · simp only [Cell.inType, if_pos htype]
      exact .value ⟨⟨rfl, rfl⟩, c.host, Machine.unload⟩
    · simp only [Cell.inType, if_neg htype]
      cases out.convert type with
      | error fault => exact .fault rfl
      | ok out => exact .value ⟨⟨rfl, rfl⟩, c.host, Machine.unload⟩
  · intro fault c
    exact .fault rfl

theorem resolves (w : Workspace) (e : Expr) : e.Resolves w :=
  Expr.Hereditary.holds
    { const := resolves_const
      placeholder := resolves_placeholder
      whole := resolves_whole
      cast := fun var _ h => resolves_cast var fun e he => (h e he).computes
      slice := fun var _ h => resolves_slice var fun s hs e he => (h s hs e he).computes
      once := fun func _ type h => resolves_once func type fun a ha e he => (h a ha e he).computes
      call := fun _ _ _ h => .call h
      substring := fun _ _ _ ht hf hl => .substring ht hf hl
      coerce := fun _ _ h => h.coerce
      neg := fun _ _ h => h.neg
      not := fun _ h => h.not
      binary := fun _ _ _ _ _ _ hl hr => hl.binary hr
      and := fun _ _ hl hr => hl.and hr
      or := fun _ _ hl hr => hl.or hr } e

/-- **The machine evaluates every complete expression as its tree is evaluated**, wherever its nodes
stand in a program. -/
theorem computes (w : Workspace) (e : Expr) : e.Computes w := (e.resolves w).computes

end Expr

end ArrayCommand
