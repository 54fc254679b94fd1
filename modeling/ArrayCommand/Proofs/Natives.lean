/-
The core functions keep their promises.

A function that is handed arguments as it declares them, and a place for its result unless it returns
nothing, comes back with a value of the type it declares, or with a fault that blames neither the types
nor the machine.  All core functions do so, but for the one that exchanges two variables: it declares
variables of any type, finds out itself whether their types are equal, and says so if they are not.

Main definitions:

* `Call.Acts` — what the body of a function does with given arguments and a given place;
* `Function.Behaves` — a function that keeps its promise.

Main results:

* `Core.behaves` — all core functions but one behave;
* `Core.honest`, `Core.keepsCount`, `Core.plain` — what expressions, commands and their readers rely
  on holds of all core functions;
* `Core.types_swap`, `Core.cause_swap` — an exchange that succeeds leaves cells of the types it was
  handed, and one that fails blames the arguments.
-/

import ArrayCommand.Proofs.Lifetime
import ArrayCommand.Proofs.Typing

namespace ArrayCommand

open Fault Cell

variable {allowed : Fault → Prop} {f : Function} {args : Array Cell} {i : Nat} {cell : Cell}
  {out : Option Cell} {type : ElementType} {call call' : Call}

/-! ### Single values of arguments -/

theorem Fault.proper : ∀ f : Fault, f.IsProper → f.IsProper := fun _ h => h

theorem Scalar.sound_toFloat {s : Scalar} (h : s.type.isNumeric) : Faults allowed s.toFloat := by
  cases s with
  | integer n => exact trivial
  | float x => exact trivial
  | text t => cases h
  | logical b => cases h

namespace Cell

variable {c : Cell}

theorem sound_float (h : c.type.isNumeric) : Faults IsProper c.float :=
  (sound_only proper c).bind fun _ hs => Scalar.sound_toFloat (hs ▸ h)

theorem sound_text (h : c.type = .text) (hsize : c.size = 1) : Faults allowed c.text := by
  obtain ⟨data, shape, owner⟩ := c
  cases data with
  | text values =>
    obtain ⟨s, hs⟩ := List.length_eq_one_iff.mp hsize
    rw [text]
    simp only [hs]
    exact trivial
  | _ => cases h

end Cell

/-! ### The arguments of a call -/

namespace Function

theorem Gets.admits (h : f.Gets args) (hi : args[i]? = some cell) : (f.decl i).Admits cell.type := by
  refine h.accepted.types i cell.type ?_
  rw [List.getElem?_map, Array.getElem?_toList, hi]
  rfl

theorem Gets.first (h : f.Gets args) (hmin : 0 < f.minArgs) :
    ∃ cell, args[0]? = some cell ∧ (f.decl 0).Admits cell.type := by
  have henough := h.accepted.enough
  rw [List.length_map, Array.length_toList] at henough
  have hi : args[0]? = some args[0] := Array.getElem?_eq_getElem (by omega)
  exact ⟨_, hi, h.admits hi⟩

theorem Gets.size_eq_one (h : f.Gets args) (hi : args[i]? = some cell)
    (hrank : (f.decl i).rank = .scalar) (hmode : (f.decl i).mode ≠ .reference) : cell.size = 1 := by
  have hformed : cell.data.size = cell.shape.size := h.formed i cell hi hmode
  cases hkind : f.kind with
  | elemental =>
    have hshape := h.single hkind cell (Array.mem_of_getElem? hi)
    rw [hshape] at hformed
    exact hformed
  | once =>
    have haccepts := h.ranks hkind i cell hi
    simp only [hrank, ArgRank.accepts, Bool.or_eq_true, beq_iff_eq] at haccepts
    obtain hzero | hone := haccepts
    · have hdims : cell.shape.dims = [] := List.length_eq_zero_iff.mp hzero
      rw [Shape.size, hdims] at hformed
      exact hformed
    · exact hone

end Function

/-! ### Bodies of functions -/

/-- What a body does with given arguments and a given place for the result: it leaves the arguments
alone, and its result is as promised or its fault is proper. -/
def Call.Acts {α : Type} (args : Array Cell) (out : Option Cell) (post : α → Option Cell → Prop)
    (x : EStateM Fault Call α) : Prop :=
  ∀ host, match x ⟨host, args, out⟩ with
    | .ok a c => c.args = args ∧ post a c.out
    | .error f _ => f.IsProper

/-- A step before the result is put into its place. -/
abbrev Call.Looks {α : Type} (args : Array Cell) (out : Option Cell) (post : α → Prop)
    (x : EStateM Fault Call α) : Prop :=
  Acts args out (fun a o => o = out ∧ post a) x

/-- A value of a type is in the place for the result. -/
def Call.Returned (type : ElementType) (_ : Unit) (out : Option Cell) : Prop :=
  ∃ c, out = some c ∧ c.type = type

namespace Call.Acts

variable {α β : Type} {post : β → Option Cell → Prop}
  {p : α → Prop}

theorem bind {x : EStateM Fault Call α} {next : α → EStateM Fault Call β} (hx : Looks args out p x)
    (hnext : ∀ a, p a → Acts args out post (next a)) : Acts args out post (x >>= next) := by
  intro host
  have hx := hx host
  rw [bind_apply]
  cases hrun : x ⟨host, args, out⟩ with
  | error f c =>
    rw [hrun] at hx
    exact hx
  | ok a c =>
    rw [hrun] at hx
    obtain ⟨host', args', out'⟩ := c
    obtain ⟨rfl, rfl, ha⟩ := hx
    exact hnext a ha host'

theorem mono {x : EStateM Fault Call β} {post' : β → Option Cell → Prop} (h : Acts args out post x)
    (hp : ∀ b o, post b o → post' b o) : Acts args out post' x := by
  intro host
  have h := h host
  cases hx : x ⟨host, args, out⟩ with
  | error f c =>
    rw [hx] at h
    exact h
  | ok b c =>
    rw [hx] at h
    exact ⟨h.1, hp b c.out h.2⟩

theorem pure {b : β} (h : post b out) : Acts args out post (pure b) := fun _ => ⟨rfl, h⟩

theorem throw {f : Fault} (h : f.IsProper) : Acts args out post (throw f) := fun _ => h

theorem lift {r : Except Fault α} (h : Sound IsProper p r) : Looks args out p (Call.lift r) := by
  intro host
  cases r with
  | ok a => exact ⟨rfl, rfl, h⟩
  | error f => exact h

theorem get : Looks args out (fun c : Call => c.args = args) MonadState.get :=
  fun _ => ⟨rfl, rfl, rfl⟩

theorem arg (h : args[i]? = some cell) : Looks args out (· = cell) (Call.arg i) := by
  refine bind get fun c hc => ?_
  rw [hc, h]
  exact pure ⟨rfl, rfl⟩

theorem request (r : Request) : Looks args out (fun _ => True) (Call.request r) :=
  fun _ => ⟨rfl, rfl, trivial⟩

theorem print (text : String) : Looks args out (fun _ => True) (Call.print text) :=
  fun _ => ⟨rfl, rfl, trivial⟩

theorem return' (hout : out.isSome) (cell : Cell) :
    Acts args out (Returned cell.type) (Call.return' cell) := by
  obtain ⟨c, rfl⟩ := Option.isSome_iff_exists.mp hout
  exact fun _ => ⟨rfl, cell.owned .functionValue, rfl, rfl⟩

theorem returnScalar (hout : out.isSome) {value : Scalar}
    (h : value.type = type) : Acts args out (Returned type) (Call.returnScalar value) :=
  h ▸ type_scalar value ▸ return' hout (.scalar value)

end Call.Acts

/-- A function that keeps its promise: handed arguments as it declares them, and a place for its
result unless it returns nothing, it puts a value of the type it declares there or fails
properly. -/
def Function.Behaves (f : Function) : Prop :=
  ∀ (args : Array Cell) (out : Option Cell), f.Gets args → (f.returns ≠ .nothing → out.isSome) →
    Call.Acts args out
      (fun _ o => ∀ column type, Parse.resultType f (args.toList.map Cell.type) column = .ok type →
        Call.Returned type () o) f.native

namespace Function.Behaves

theorem of_nothing (hf : f.returns = .nothing)
    (h : ∀ args out, f.Gets args → Call.Looks args out (fun _ => True) f.native) : f.Behaves := by
  intro args out hargs _
  refine (h args out hargs).mono fun _ _ _ column type hresult => ?_
  rw [Parse.resultType, hf] at hresult
  cases hresult

theorem of_fixed (hf : f.returns = .fixed type) (h : ∀ args out, f.Gets args → out.isSome →
      Call.Acts args out (Call.Returned type) f.native) : f.Behaves := by
  intro args out hargs hout
  have hreturns : f.returns ≠ .nothing := by simp [hf]
  refine (h args out hargs (hout hreturns)).mono fun _ _ ho column type' hresult => ?_
  rw [Parse.resultType, hf] at hresult
  cases hresult
  exact ho

theorem of_sameAs (hf : f.returns = .sameAs 0) (hmin : 0 < f.minArgs)
    (h : ∀ args out cell, f.Gets args → out.isSome → args[0]? = some cell →
      Call.Acts args out (Call.Returned cell.type) f.native) : f.Behaves := by
  intro args out hargs hout
  have hreturns : f.returns ≠ .nothing := by simp [hf]
  obtain ⟨cell, hcell, -⟩ := hargs.first hmin
  refine (h args out cell hargs (hout hreturns) hcell).mono fun _ _ ho column type' hresult => ?_
  have htype : (args.toList.map type)[0]? = some cell.type := by
    rw [List.getElem?_map, Array.getElem?_toList, hcell]
    rfl
  simp only [Parse.resultType, hf, htype] at hresult
  cases hresult
  exact ho

theorem honest (h : f.Behaves) : f.Honest IsProper := by
  intro host args out column hargs hresult
  have hrun := h args (some out) hargs (fun _ => rfl) host
  cases hx : f.native ⟨host, args, some out⟩ with
  | error fault c =>
    rw [hx] at hrun
    exact hrun
  | ok a c =>
    rw [hx] at hrun
    exact hrun.2 column out.type hresult

end Function.Behaves

/-! ### The core functions -/

namespace Core

open Call

/-- The declaration of an argument that is a single value. -/
structure IsSingle (decl : ArgDecl) : Prop where
  rank : decl.rank = .scalar
  mode : decl.mode = .value

theorem IsSingle.gets (hdecl : IsSingle (f.decl i)) (h : f.Gets args)
    (hcell : args[i]? = some cell) : (f.decl i).type.accepts cell.type ∧ cell.size = 1 := by
  have hadmits := h.admits hcell
  rw [ArgDecl.Admits, if_neg (by simp [hdecl.mode])] at hadmits
  exact ⟨hadmits, h.size_eq_one hcell hdecl.rank (by simp [hdecl.mode])⟩

theorem behaves_single (hf : f.returns = .fixed type)
    (hdecl : IsSingle (f.decl 0)) (hmin : 0 < f.minArgs)
    (h : ∀ args out cell, args[0]? = some cell → (f.decl 0).type.accepts cell.type → cell.size = 1 →
      out.isSome → Acts args out (Returned type) f.native) : f.Behaves := by
  refine .of_fixed hf fun args out hargs hout => ?_
  obtain ⟨cell, hcell, -⟩ := hargs.first hmin
  obtain ⟨htype, hsize⟩ := hdecl.gets hargs hcell
  exact h args out cell hcell htype hsize hout

section Bodies

theorem acts_print : Looks args out (fun _ => True) print :=
  .bind .get fun _ _ => .bind (.print _) fun _ _ => .print _

theorem acts_topic (h : ∀ cell, args[0]? = some cell → cell.type = .text ∧ cell.size = 1) :
    Looks args out (fun _ => True) topic := by
  refine .bind .get fun c hc => ?_
  rw [hc]
  cases hlist : args.toList with
  | nil => exact .pure ⟨rfl, trivial⟩
  | cons cell rest =>
    have hcell : args[0]? = some cell := by rw [← Array.getElem?_toList, hlist]; rfl
    obtain ⟨htype, hsize⟩ := h cell hcell
    exact .lift (sound_text htype hsize)

theorem acts_deleteAll {cells : List Cell} (h : ∀ c ∈ cells, c.type = .text ∧ c.size = 1) :
    Looks args out (fun _ => True) (deleteAll cells) := by
  induction cells with
  | nil => exact .pure ⟨rfl, trivial⟩
  | cons cell rest ih =>
    obtain ⟨⟨htype, hsize⟩, hrest⟩ := List.forall_mem_cons.mp h
    refine .bind (.lift (sound_text htype hsize)) fun _ _ => ?_
    exact .bind (.request _) fun _ _ => ih hrest

theorem acts_exitCode (h : ∀ cell, args[0]? = some cell → cell.type.isNumeric) :
    Looks args out (fun _ => True) exitCode := by
  refine .bind .get fun c hc => ?_
  rw [hc]
  cases hlist : args.toList with
  | nil => exact .pure ⟨rfl, trivial⟩
  | cons cell rest =>
    have hcell : args[0]? = some cell := by rw [← Array.getElem?_toList, hlist]; rfl
    refine .bind (.lift (sound_integer proper (h cell hcell))) fun code _ => ?_
    split
    · exact .pure ⟨rfl, trivial⟩
    · exact .throw (by simp)

variable (hcell : args[0]? = some cell) (hout : out.isSome)

include hcell hout

theorem acts_floating (hn : cell.type.isNumeric) {f : Float → Except Fault Float}
    (hf : ∀ x, Faults IsProper (f x)) :
    Acts args out (Returned .float) (floating f) := by
  refine .bind (.arg hcell) fun c hc => .bind (.lift (sound_float (hc ▸ hn))) fun x _ => ?_
  refine .bind (.lift (hf x)) fun y _ => ?_
  split
  · exact .returnScalar hout rfl
  · exact .throw (by decide)

theorem acts_abs (hn : cell.type.isNumeric) : Acts args out (Returned cell.type) abs := by
  refine .bind (.arg hcell) fun c hc => ?_
  subst hc
  refine .bind (.lift (sound_get proper c 0)) fun s hs => ?_
  rw [← hs] at hn ⊢
  cases s with
  | integer n =>
    dsimp only
    generalize (n.natAbs : Int) = magnitude
    exact .bind (.lift (Integer.sound_fit proper _)) fun _ _ => .returnScalar hout rfl
  | float x => exact .returnScalar hout rfl
  | text t => cases hn
  | logical b => cases hn

theorem acts_int (hn : cell.type.isNumeric) : Acts args out (Returned .integer) int := by
  refine .bind (.arg hcell) fun c hc => ?_
  exact .bind (.lift (sound_integer proper (hc ▸ hn))) fun _ _ => .returnScalar hout rfl

theorem acts_nint (hn : cell.type.isNumeric) : Acts args out (Returned .integer) nint := by
  refine .bind (.arg hcell) fun c hc => ?_
  subst hc
  refine .bind (.lift (sound_get proper c 0)) fun s hs => ?_
  rw [← hs] at hn
  split
  · exact .returnScalar hout rfl
  · refine .bind (.lift (Scalar.sound_toFloat hn)) fun x _ => ?_
    exact .bind (.lift (sound_integerOfFloat proper _)) fun _ _ => .returnScalar hout rfl

theorem acts_float (hn : cell.type.isNumeric) : Acts args out (Returned .float) float := by
  refine .bind (.arg hcell) fun c hc => ?_
  exact .bind (.lift (sound_float (hc ▸ hn))) fun _ _ => .returnScalar hout rfl

theorem acts_len (ht : cell.type = .text) (hsize : cell.size = 1) :
    Acts args out (Returned .integer) len := by
  refine .bind (.arg hcell) fun c hc => ?_
  subst hc
  exact .bind (.lift (sound_text ht hsize)) fun _ _ => .returnScalar hout rfl

theorem acts_size (h : ∀ axis, args[1]? = some axis → axis.type.isNumeric) :
    Acts args out (Returned .integer) size := by
  refine .bind (.arg hcell) fun c _ => .bind .get fun call hcall => ?_
  rw [hcall]
  cases haxis : args[1]? with
  | none => exact .returnScalar hout rfl
  | some axis =>
    refine .bind (.lift (sound_integer proper (h axis haxis))) fun n _ => ?_
    split
    · exact .returnScalar hout rfl
    · exact .throw (by simp)

theorem acts_sum (hn : cell.type.isNumeric) : Acts args out (Returned cell.type) sum := by
  have hsum (list : List Int) (total : Int) : Faults IsProper (sumIntegers list total) := by
    induction list generalizing total with
    | nil => exact trivial
    | cons n rest ih => exact (Integer.sound_fit proper _).bind fun _ _ => ih _
  refine .bind (.arg hcell) fun c hc => ?_
  subst hc
  obtain ⟨data, shape, owner⟩ := c
  cases data with
  | integer v => exact .bind (.lift (hsum _ _)) fun _ _ => .returnScalar hout rfl
  | float v => exact .returnScalar hout rfl
  | text v | logical v => cases hn

theorem acts_extreme (hn : cell.type.isNumeric) (integers : Int → Int → Bool)
    (floats : Float → Float → Bool) :
    Acts args out (Returned cell.type) (extreme integers floats) := by
  have hempty : IsProper (.because .domainError "EMPTY ARRAY") := by decide
  refine .bind (.arg hcell) fun c hc => ?_
  subst hc
  split
  · exact .throw hempty
  obtain ⟨data, shape, owner⟩ := c
  cases data with
  | integer v | float v =>
    dsimp only
    split
    · exact .throw hempty
    · exact .returnScalar hout rfl
  | text v | logical v => cases hn

theorem acts_ramp (hn : cell.type.isNumeric) : Acts args out (Returned .integer) ramp := by
  refine .bind (.arg hcell) fun c hc => ?_
  refine .bind (.lift (sound_integer proper (hc ▸ hn))) fun n _ => ?_
  split
  · exact .throw (by simp)
  · exact .return' hout (.integers _)

omit hcell in
theorem acts_rand : Acts args out (Returned .float) rand := by
  intro host
  rw [rand, get_bind_apply]
  generalize host.generator.draw = drawn
  obtain ⟨x, generator⟩ := drawn
  have hreturn : Acts args out (Returned .float) (returnScalar (.float x)) := .returnScalar hout rfl
  exact hreturn { host with generator }

omit hcell in
theorem acts_date : Acts args out (Returned .text) date :=
  .bind .get fun _ _ => .returnScalar hout rfl

end Bodies

/-! ### Kinds of functions -/

section Kinds

variable {native : Native}

theorem behaves_print (h : f.native = print) (hf : f.returns = .nothing) : f.Behaves :=
  .of_nothing hf fun _ _ _ => h ▸ acts_print

theorem behaves_topic (r : String → Request) (hf : f.returns = .nothing)
    (hdecl : f.decl 0 = literal) (hnative : f.native = topic >>= fun t => request (r t)) :
    f.Behaves := by
  refine .of_nothing hf fun args out hargs => ?_
  rw [hnative]
  refine .bind (acts_topic fun cell hcell => ?_) fun _ _ => .request _
  have hsingle : IsSingle (f.decl 0) := by rw [hdecl]; exact ⟨rfl, rfl⟩
  obtain ⟨htype, hsize⟩ := hsingle.gets hargs hcell
  rw [hdecl] at htype
  exact ⟨beq_iff_eq.mp htype, hsize⟩

theorem behaves_exitCode (r : Int → Request) (hf : f.returns = .nothing)
    (hdecl : f.decl 0 = integer) (hnative : f.native = exitCode >>= fun n => request (r n)) :
    f.Behaves := by
  refine .of_nothing hf fun args out hargs => ?_
  rw [hnative]
  refine .bind (acts_exitCode fun cell hcell => ?_) fun _ _ => .request _
  have hsingle : IsSingle (f.decl 0) := by rw [hdecl]; exact ⟨rfl, rfl⟩
  have htype := (hsingle.gets hargs hcell).1
  rw [hdecl] at htype
  rw [beq_iff_eq.mp htype]
  rfl

theorem behaves_delete (hf : f.returns = .nothing) (hdecl : ∀ i, f.decl i = ⟨.text, .scalar, .name⟩)
    (hnative : f.native = delete) : f.Behaves := by
  refine .of_nothing hf fun args out hargs => ?_
  rw [hnative]
  refine .bind .get fun c hc => acts_deleteAll fun cell hmem => ?_
  rw [hc] at hmem
  obtain ⟨i, hi⟩ := List.mem_iff_getElem?.mp hmem
  rw [Array.getElem?_toList] at hi
  have htype := hargs.admits hi
  rw [hdecl i] at htype
  refine ⟨htype, hargs.size_eq_one hi ?_ ?_⟩
  · rw [hdecl i]
  · simp [hdecl i]

theorem behaves_floating (name : String) {f : Float → Except Fault Float}
    (hf : ∀ x, Faults IsProper (f x)) :
    (realFunction name (floating f)).Behaves := by
  refine behaves_single rfl ⟨rfl, rfl⟩ Nat.one_pos fun args out cell hcell htype _ hout => ?_
  refine acts_floating hcell hout ?_ hf
  rw [beq_iff_eq.mp htype]
  rfl

theorem behaves_number (name : String)
    (h : ∀ args out cell, args[0]? = some cell → out.isSome → cell.type.isNumeric →
      Acts args out (Returned type) native) :
    (Function.elemental name [numeric] (.fixed type) native).Behaves :=
  behaves_single rfl ⟨rfl, rfl⟩ Nat.one_pos fun args out cell hcell htype _ hout =>
    h args out cell hcell hout htype

theorem behaves_same (hf : f.returns = .sameAs 0) (hmin : 0 < f.minArgs)
    (htype : (f.decl 0).type = .numeric) (hmode : (f.decl 0).mode ≠ .name)
    (h : ∀ args out cell, args[0]? = some cell → out.isSome → cell.type.isNumeric →
      Acts args out (Returned cell.type) f.native) : f.Behaves := by
  refine .of_sameAs hf hmin fun args out cell hargs hout hcell => h args out cell hcell hout ?_
  have hadmits := hargs.admits hcell
  rw [ArgDecl.Admits, if_neg hmode, htype] at hadmits
  exact hadmits

theorem behaves_size (hf : f.returns = .fixed .integer) (hmin : 0 < f.minArgs)
    (hdecl : f.decl 1 = integer) (hnative : f.native = size) : f.Behaves := by
  refine .of_fixed hf fun args out hargs hout => ?_
  obtain ⟨cell, hcell, -⟩ := hargs.first hmin
  rw [hnative]
  refine acts_size hcell hout fun axis haxis => ?_
  have htype := hargs.admits haxis
  rw [hdecl] at htype
  rw [beq_iff_eq.mp htype]
  rfl

theorem behaves_ramp (hf : f.returns = .fixed .integer) (hmin : 0 < f.minArgs)
    (hdecl : f.decl 0 = integer) (hnative : f.native = ramp) : f.Behaves := by
  refine .of_fixed hf fun args out hargs hout => ?_
  obtain ⟨cell, hcell, htype⟩ := hargs.first hmin
  rw [hnative]
  refine acts_ramp hcell hout ?_
  rw [hdecl] at htype
  rw [beq_iff_eq.mp htype]
  rfl

end Kinds

/-! ### All core functions -/

theorem sound_guarded {p : Prop} [Decidable p] (detail : String) (y : Float) : Faults IsProper
      (if p then .error (.because .domainError detail) else .ok y) := by
  split
  · exact isProper_because.2 (by decide)
  · exact trivial

/-- All core functions keep their promises, but for the one that exchanges two variables. -/
theorem behaves : ∀ f ∈ functions, f.Behaves ∨ f.native = swap ∧ f.returns = .nothing := by
  have hnames (i : Nat) (f : Function) (h : f.args = [⟨.text, .scalar, .name⟩]) :
      f.decl i = ⟨.text, .scalar, .name⟩ := by
    rw [Function.decl, h]
    cases i <;> rfl
  have hlen : (Function.elemental "len" [⟨.text, .scalar, .value⟩] (.fixed .integer) len).Behaves :=
    behaves_single rfl ⟨rfl, rfl⟩ Nat.one_pos fun args out cell hcell htype hsize hout =>
      acts_len hcell hout (beq_iff_eq.mp htype) hsize
  rw [functions]
  simp only [List.forall_mem_cons]
  refine ⟨.inl (behaves_print rfl rfl), .inl (behaves_topic _ rfl rfl rfl),
    .inl (behaves_delete rfl (fun i => hnames i _ rfl) rfl), .inr ⟨rfl, rfl⟩,
    .inl (behaves_exitCode _ rfl rfl rfl), .inl (behaves_exitCode _ rfl rfl rfl),
    .inl (behaves_topic _ rfl rfl rfl),
    .inl (behaves_same rfl Nat.one_pos rfl (by decide) fun _ _ _ => acts_abs),
    .inl (behaves_floating _ fun _ => sound_guarded _ _), .inl (behaves_floating _ fun _ => trivial),
    .inl (behaves_floating _ fun _ => trivial), .inl (behaves_floating _ fun _ => trivial),
    .inl (behaves_floating _ fun _ => trivial),
    .inl (behaves_floating _ fun _ => sound_guarded _ _),
    .inl (behaves_floating _ fun _ => sound_guarded _ _),
    .inl (behaves_number _ fun _ _ _ => acts_int), .inl (behaves_number _ fun _ _ _ => acts_nint),
    .inl (behaves_number _ fun _ _ _ => acts_float), .inl hlen,
    .inl (.of_fixed rfl fun _ _ _ => acts_rand), .inl (behaves_size rfl Nat.one_pos rfl rfl),
    .inl (behaves_same rfl Nat.one_pos rfl (by decide) fun _ _ _ => acts_sum),
    .inl (behaves_same rfl Nat.one_pos rfl (by decide) fun _ _ _ hcell hout hn =>
      acts_extreme hcell hout hn _ _),
    .inl (behaves_same rfl Nat.one_pos rfl (by decide) fun _ _ _ hcell hout hn =>
      acts_extreme hcell hout hn _ _),
    .inl (behaves_ramp rfl Nat.one_pos rfl rfl), .inl (.of_fixed rfl fun _ _ _ => acts_date),
    fun f hf => by cases hf⟩

/-- All core functions return what they declare; the one that exchanges two variables declares
nothing. -/
theorem honest (hf : f ∈ functions) : f.Honest IsProper := by
  rcases behaves f hf with h | ⟨-, h⟩
  · exact h.honest
  · intro host args out column _ hresult
    rw [Parse.resultType, h] at hresult
    cases hresult

theorem types_swap (h : swap call = .ok () call') :
    call'.args.toList.map Cell.type = call.args.toList.map Cell.type := by
  rw [swap, get_bind_apply] at h
  generalize hlist : call.args.toList = list at h
  rcases list with _ | ⟨a, _ | ⟨b, _ | ⟨d, rest⟩⟩⟩
  · cases h
  · cases h
  · dsimp only at h
    split at h
    case isTrue htype =>
      cases h
      simp [htype]
    case isFalse => cases h
  · cases h

theorem cause_swap {f : Fault} (h : swap call = .error f call') :
    f.cause = .typeMismatch ∨ f.cause = .wrongArgumentCount := by
  rw [swap, get_bind_apply] at h
  generalize call.args.toList = list at h
  rcases list with _ | ⟨a, _ | ⟨b, _ | ⟨d, rest⟩⟩⟩
  · cases h
    exact .inr rfl
  · cases h
    exact .inr rfl
  · dsimp only at h
    split at h
    · cases h
    · cases h
      exact .inl rfl
  · cases h
    exact .inr rfl

theorem keepsCount (hf : f ∈ functions) : f.KeepsCount := by
  intro c u c' hrun
  rcases leaves hf with h | h
  · have hsame := h c
    rw [hrun] at hsame
    exact congrArg Array.size hsame
  · rw [h] at hrun
    have htypes := congrArg List.length (types_swap hrun)
    simpa using htypes

theorem plain (hf : f ∈ functions) : f.Plain := by
  have hall : ∀ f ∈ functions, ∀ d ∈ f.args, d.type = .literal → d.mode = .value := by decide
  intro index htype
  rcases f.decl_mem index with h | h
  · exact hall f hf _ h htype
  · rw [h] at htype
    cases htype

end Core

end ArrayCommand
