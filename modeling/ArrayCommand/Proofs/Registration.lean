/-
Registering modules.

A module brings a bundle of names: its own one first, then those of its functions, then those of its
variables.  They are entered one after another, and the first name that is refused ends the
registration.  Nothing is taken back: the names before it stay, the functions and variables they
stand for stay, and a variable is in memory even if its own name is the refused one.  Only the list
of modules is left alone, so the name of such a module has a number that the next module is given.

Main definitions:

* `Module.upTo` — a module with the first of its functions and variables only;
* `Workspace.Broken` — what a registration leaves that a name of the bundle ends;
* `Workspace.Registers` — modules that are registered one after another, and the names of those whose
  registration was ended by a name other than their own.

Main results:

* `Workspace.register_error` — what is left by a registration that fails;
* `Workspace.register_breaks_off` — **a refused module leaves all names before the refused one**, and
  every number of a module leads to the module of that name, except for the modules left so.
-/

import ArrayCommand.Native.Sample
import ArrayCommand.Proofs.Correspondence

namespace ArrayCommand

variable {name : String} {entry : Entry} {strays : List String}

/-- A module with the first of its functions and variables only. -/
def Module.upTo (m : Module) (functions vars : Nat) : Module :=
  { m with functions := m.functions.take functions, vars := m.vars.take vars }

namespace Workspace

variable {w w₁ w' : Workspace} {m : Module} {fault : Fault}

/-! ### Entering names -/

/-- Names were entered that are not names of modules. -/
structure Enters (w w' : Workspace) : Prop where
  modules : w'.modules = w.modules
  kept : ∀ entry ∈ w.names.entries, entry ∈ w'.names.entries
  packages : ∀ name index, (name, Entry.package index) ∈ w'.names.entries →
    (name, Entry.package index) ∈ w.names.entries

instance : IsPreorder Workspace Enters where
  refl _ := ⟨rfl, fun _ => id, fun _ _ => id⟩
  trans _ _ _ h h' :=
    ⟨h'.modules.trans h.modules, fun entry hentry => h'.kept entry (h.kept entry hentry),
      fun name index hentry => h.packages name index (h'.packages name index hentry)⟩

theorem enters_enter (hentry : ∀ index, entry ≠ .package index) :
    Moves (.of Enters) (enter name entry) := by
  refine .of_leftIn fun w => ?_
  cases henter : enter name entry w with
  | error fault w' =>
    rw [enter_eq_error henter]
    exact refl_of Enters w
  | ok _ w' =>
    obtain ⟨names, old, hnames, rfl⟩ := enter_eq_ok henter
    have hmem := NameTable.mem_insert hnames
    refine ⟨rfl, fun e he => (hmem e).mpr (.inr he), ?_⟩
    intro title index htitle
    rcases (hmem _).mp htitle with heq | hold
    · injection heq with _ hpackage
      exact absurd hpackage.symm (hentry index)
    · exact hold

theorem enters_enterFunctions (functions : List Function) :
    Moves (.of Enters) (enterFunctions functions) :=
  moves_enterFunctions (fun _ _ _ => enters_enter (by simp)) fun _ _ _ =>
    ⟨rfl, fun _ => id, fun _ _ => id⟩

theorem enters_enterVariables (vars : List (String × Cell)) :
    Moves (.of Enters) (enterVariables vars) :=
  moves_enterVariables (fun _ _ => enters_enter (by simp)) fun _ _ _ =>
    ⟨rfl, fun _ => id, fun _ _ => id⟩

/-! ### The refused name -/

/-- Functions are entered up to the first one whose name is refused. -/
theorem enterFunctions_error {functions : List Function}
    (h : enterFunctions functions w = .error fault w') :
    ∃ i f ids, functions[i]? = some f ∧ enterFunctions (functions.take i) w = .ok ids w' ∧
      w'.names.insert f.name (.func w'.functions.size f.preferred) false = .error fault := by
  induction functions generalizing w with
  | nil => cases h
  | cons f rest ih =>
    rw [enterFunctions, get_bind_apply] at h
    rcases bind_eq_error.mp h with henter | ⟨_, w₁, henter, h⟩
    · obtain rfl := enter_eq_error henter
      refine ⟨0, f, [], rfl, rfl, ?_⟩
      rw [enter] at henter
      split at henter
      · cases henter
      · cases henter
        assumption
    · rw [modify_bind_apply] at h
      rcases bind_eq_error.mp h with hrest | ⟨_, _, _, hpure⟩
      · obtain ⟨i, g, ids, hg, hbefore, hrefused⟩ := ih hrest
        refine ⟨i + 1, g, w.functions.size :: ids, by simpa using hg, ?_, hrefused⟩
        rw [List.take_succ_cons, enterFunctions, get_bind_apply, bind_apply, henter]
        dsimp only
        rw [modify_bind_apply, bind_apply, hbefore]
        rfl
      · cases hpure

/-- Variables are entered up to the first one whose name is refused, which is in memory all the
same. -/
theorem enterVariables_error {vars : List (String × Cell)}
    (h : enterVariables vars w = .error fault w') :
    ∃ j name value w₁, vars[j]? = some (name, value) ∧
      enterVariables (vars.take j) w = .ok () w₁ ∧
      w₁.names.insert name (.var (w₁.memory.insert name value).2) false = .error fault ∧
      w' = { w₁ with memory := (w₁.memory.insert name value).1 } := by
  induction vars generalizing w with
  | nil => cases h
  | cons var rest ih =>
    obtain ⟨name, value⟩ := var
    cases hinsert : w.names.insert name (.var (w.memory.insert name value).2) false with
    | error refusal =>
      rw [enterVariables_refused hinsert] at h
      cases h
      exact ⟨0, name, value, w, rfl, rfl, hinsert, rfl⟩
    | ok result =>
      rw [enterVariables_cons hinsert] at h
      obtain ⟨j, other, cell, w₁, hother, hbefore, hrefused, hleft⟩ := ih h
      refine ⟨j + 1, other, cell, w₁, by simpa using hother, ?_, hrefused, hleft⟩
      rw [List.take_succ_cons, enterVariables_cons hinsert]
      exact hbefore

/-! ### A bundle -/

theorem register_eq_ok :
    register m w = .ok () w' ↔
      ∃ w₁ ids w₂ w₃, enter m.name (.package w.modules.size) w = .ok () w₁ ∧
        enterFunctions m.functions w₁ = .ok ids w₂ ∧ enterVariables m.vars w₂ = .ok () w₃ ∧
        w' = { w₃ with modules := w₃.modules.push ⟨m.name, m.helpDirectory, ids, m.teardown⟩ } := by
  rw [register, get_bind_apply]
  constructor
  · intro h
    obtain ⟨_, w₁, henter, h⟩ := bind_eq_ok.mp h
    obtain ⟨ids, w₂, hfunctions, h⟩ := bind_eq_ok.mp h
    obtain ⟨_, w₃, hvars, h⟩ := bind_eq_ok.mp h
    cases h
    exact ⟨w₁, ids, w₂, w₃, henter, hfunctions, hvars, rfl⟩
  · rintro ⟨w₁, ids, w₂, w₃, henter, hfunctions, hvars, rfl⟩
    rw [bind_apply, henter]
    dsimp only
    rw [bind_apply, hfunctions]
    dsimp only
    rw [bind_apply, hvars]
    rfl

/-- What a registration leaves that a name of the bundle ends: all that the bundle before that name
brings, but not the module itself. -/
inductive Broken (m : Module) (w : Workspace) (fault : Fault) : Workspace → Prop
  | atFunction {i : Nat} {f : Function} {w₁ : Workspace} (hf : m.functions[i]? = some f)
      (hbefore : register (m.upTo i 0) w = .ok () w₁)
      (hrefused : w₁.names.insert f.name (.func w₁.functions.size f.preferred) false =
        .error fault) :
      Broken m w fault { w₁ with modules := w.modules }
  | atVariable {j : Nat} {name : String} {value : Cell} {w₁ : Workspace}
      (hvar : m.vars[j]? = some (name, value))
      (hbefore : register (m.upTo m.functions.length j) w = .ok () w₁)
      (hrefused : w₁.names.insert name (.var (w₁.memory.insert name value).2) false =
        .error fault) :
      Broken m w fault
        { w₁ with modules := w.modules, memory := (w₁.memory.insert name value).1 }

theorem modules_enter {u : Unit} (h : enter name entry w = .ok u w') : w'.modules = w.modules := by
  obtain ⟨names, old, -, rfl⟩ := enter_eq_ok h
  rfl

/-- A registration fails because of the name of the module, and then nothing has changed, or because
of another name of the bundle. -/
theorem register_error (h : register m w = .error fault w') :
    w.names.insert m.name (.package w.modules.size) false = .error fault ∧ w' = w ∨
      (∃ names old, w.names.insert m.name (.package w.modules.size) false = .ok (names, old)) ∧
        Broken m w fault w' := by
  rw [register, get_bind_apply] at h
  rcases bind_eq_error.mp h with henter | ⟨_, w₁, henter, h⟩
  · left
    refine ⟨?_, enter_eq_error henter⟩
    rw [enter] at henter
    split at henter
    · cases henter
    · cases henter
      assumption
  right
  have haccepted : ∃ names old,
      w.names.insert m.name (.package w.modules.size) false = .ok (names, old) := by
    obtain ⟨names, old, hnames, -⟩ := enter_eq_ok henter
    exact ⟨names, old, hnames⟩
  refine ⟨haccepted, ?_⟩
  have hmodules₁ := modules_enter henter
  rcases bind_eq_error.mp h with hfunctions | ⟨ids, w₂, hfunctions, h⟩
  · -- the name of a function is refused
    obtain ⟨i, f, ids, hf, hbefore, hrefused⟩ := enterFunctions_error hfunctions
    have hregister : register (m.upTo i 0) w = .ok () _ :=
      register_eq_ok.mpr ⟨w₁, ids, w', w', henter, hbefore, rfl, rfl⟩
    have hmodules : w'.modules = w.modules :=
      ((enters_enterFunctions _).ok hbefore).modules.trans hmodules₁
    have hbroken := Broken.atFunction hf hregister hrefused
    rwa [← hmodules] at hbroken
  rcases bind_eq_error.mp h with hvars | ⟨_, _, _, hmodify⟩
  · -- the name of a variable is refused
    obtain ⟨j, name, value, w₃, hvar, hbefore, hrefused, rfl⟩ := enterVariables_error hvars
    have hall : enterFunctions (m.upTo m.functions.length j).functions w₁ = .ok ids w₂ := by
      rw [Module.upTo, List.take_length]
      exact hfunctions
    have hregister : register (m.upTo m.functions.length j) w = .ok () _ :=
      register_eq_ok.mpr ⟨w₁, ids, w₂, w₃, henter, hall, hbefore, rfl⟩
    have hmodules : w₃.modules = w.modules :=
      ((enters_enterVariables _).ok hbefore).modules.trans
        (((enters_enterFunctions _).ok hfunctions).modules.trans hmodules₁)
    have hbroken := Broken.atVariable hvar hregister hrefused
    rwa [← hmodules] at hbroken
  · cases hmodify

/-- The name of a module that is registered stands for its number, and no other name of a module is
entered with it. -/
theorem mem_register (h : register m w = .ok () w') :
    (∀ entry ∈ w.names.entries, entry ∈ w'.names.entries) ∧
      (Text.fold m.name, Entry.package w.modules.size) ∈ w'.names.entries ∧
      (∀ name index, (name, Entry.package index) ∈ w'.names.entries →
        (name, Entry.package index) ∈ w.names.entries ∨
          name = Text.fold m.name ∧ index = w.modules.size) ∧
      ∃ r : Registered, r.name = m.name ∧ w'.modules = w.modules.push r := by
  obtain ⟨w₁, ids, w₂, w₃, henter, hfunctions, hvars, rfl⟩ := register_eq_ok.mp h
  have hrest := trans_of Enters ((enters_enterFunctions _).ok hfunctions)
    ((enters_enterVariables _).ok hvars)
  have hmodules := hrest.modules.trans (modules_enter henter)
  obtain ⟨names, old, hnames, rfl⟩ := enter_eq_ok henter
  have hmem := NameTable.mem_insert hnames
  refine ⟨?_, ?_, ?_, ⟨m.name, m.helpDirectory, ids, m.teardown⟩, rfl, ?_⟩
  · intro entry hentry
    exact hrest.kept entry ((hmem entry).mpr (.inr hentry))
  · exact hrest.kept _ ((hmem _).mpr (.inl rfl))
  · intro name index hentry
    rcases (hmem _).mp (hrest.packages name index hentry) with heq | hold
    · cases heq
      exact .inr ⟨rfl, rfl⟩
    · exact .inl hold
  · change w₃.modules.push _ = _
    rw [hmodules]

/-- The names that a broken registration leaves are those of a registration of the beginning of its
bundle. -/
theorem Broken.names (h : Broken m w fault w') :
    w'.modules = w.modules ∧ ∃ part w₁, Module.name part = m.name ∧
      register part w = .ok () w₁ ∧ w'.names = w₁.names := by
  cases h with
  | atFunction hf hbefore hrefused => exact ⟨rfl, m.upTo _ _, _, rfl, hbefore, rfl⟩
  | atVariable hvar hbefore hrefused => exact ⟨rfl, m.upTo _ _, _, rfl, hbefore, rfl⟩

/-! ### One module after another -/

/-- Modules are registered one after another, some of them without success.  The list holds the names
of the modules whose own name was accepted and whose registration failed all the same. -/
inductive Registers (w : Workspace) : List String → Workspace → Prop
  | none : Registers w [] w
  | registered {strays : List String} {w₁ w₂ : Workspace} {m : Module}
      (hbefore : Registers w strays w₁) (h : register m w₁ = .ok () w₂) : Registers w strays w₂
  | refused {strays : List String} {w₁ w₂ : Workspace} {m : Module} {fault : Fault}
      (hbefore : Registers w strays w₁) (h : register m w₁ = .error fault w₂)
      (hname : w₁.names.insert m.name (.package w₁.modules.size) false = .error fault) :
      Registers w strays w₂
  | broken {strays : List String} {w₁ w₂ : Workspace} {m : Module} {fault : Fault}
      {names : NameTable Entry} {old : Option Entry}
      (hbefore : Registers w strays w₁) (h : register m w₁ = .error fault w₂)
      (hname : w₁.names.insert m.name (.package w₁.modules.size) false = .ok (names, old)) :
      Registers w (Text.fold m.name :: strays) w₂

/-- The number of a module leads to the module of that name, unless the name is a stray one. -/
def Indexed (strays : List String) (w : Workspace) : Prop :=
  ∀ name index, (name, Entry.package index) ∈ w.names.entries → name ∉ strays →
    ∃ r, w.modules[index]? = some r ∧ Text.fold r.name = name

theorem Indexed.register (hw : Indexed strays w)
    (h : register m w = .ok () w') : Indexed strays w' := by
  obtain ⟨-, -, hpackages, r, hr, hmodules⟩ := mem_register h
  intro name index hentry hstray
  rw [hmodules]
  rcases hpackages name index hentry with hold | ⟨rfl, rfl⟩
  · obtain ⟨r', hr', hname⟩ := hw name index hold hstray
    have hlt : index < w.modules.size := (Array.getElem?_eq_some_iff.mp hr').1
    refine ⟨r', ?_, hname⟩
    rw [Array.getElem?_push_lt hlt, ← hr', Array.getElem?_eq_getElem hlt]
  · exact ⟨r, Array.getElem?_push_size, by rw [hr]⟩

theorem Indexed.registers (hw : Indexed [] w) (h : Registers w strays w') : Indexed strays w' := by
  induction h with
  | none => exact hw
  | registered _ h ih => exact ih.register h
  | refused _ h hname ih =>
    -- nothing has changed, since only the name of the module can have been refused
    rcases register_error h with ⟨-, rfl⟩ | ⟨⟨names, old, hok⟩, -⟩
    · exact ih
    · rw [hname] at hok
      cases hok
  | broken _ h hname ih =>
    rcases register_error h with ⟨hrefused, -⟩ | ⟨-, hbroken⟩
    · rw [hname] at hrefused
      cases hrefused
    · obtain ⟨hmodules, part, w₁, htitle, hpart, hnames⟩ := hbroken.names
      obtain ⟨-, -, hpackages, -⟩ := mem_register hpart
      intro name index hentry hstray
      rw [hnames] at hentry
      rw [hmodules]
      rw [List.mem_cons, not_or] at hstray
      rcases hpackages name index hentry with hold | ⟨rfl, -⟩
      · exact ih name index hold hstray.2
      · exact absurd (congrArg Text.fold htitle) hstray.1

/-- A module that is refused leaves all names of its bundle before the refused one, with the
functions and variables they stand for, and a variable whose name is refused.  The workspace is as it
was exactly if the refused name is the name of the module itself; the list of modules always is.
When modules have been registered one after another, the number under the name of a module leads to
the module of that name, unless its registration was broken off behind that name. -/
theorem register_breaks_off (m : Module) (w : Workspace) :
    (∀ fault w', register m w = .error fault w' →
      w'.modules = w.modules ∧ (∀ entry ∈ w.names.entries, entry ∈ w'.names.entries) ∧
        (w' = w ↔ w.names.insert m.name (.package w.modules.size) false = .error fault) ∧
        (w' ≠ w → Broken m w fault w' ∧
          (Text.fold m.name, Entry.package w.modules.size) ∈ w'.names.entries)) ∧
      ∀ strays w', Indexed [] w → Registers w strays w' →
        ∀ name index, (name, Entry.package index) ∈ w'.names.entries → name ∉ strays →
          ∃ r, w'.modules[index]? = some r ∧ Text.fold r.name = name := by
  refine ⟨fun fault w' h => ?_, fun strays w' hw hregisters => hw.registers hregisters⟩
  rcases register_error h with ⟨hrefused, rfl⟩ | ⟨⟨names, old, hname⟩, hbroken⟩
  · exact ⟨rfl, fun _ => id, iff_of_true rfl hrefused, fun hne => absurd rfl hne⟩
  obtain ⟨hmodules, part, w₁, htitle, hpart, hnames⟩ := hbroken.names
  obtain ⟨hkept, hentered, -⟩ := mem_register hpart
  rw [← hnames] at hkept hentered
  rw [htitle] at hentered
  have hchanged : w' ≠ w := by
    rintro rfl
    -- the name was new, or it would have been refused
    have hnew := NameTable.find?_eq_none.mp (NameTable.insert_ok hname).1
    exact hnew _ hentered rfl
  refine ⟨hmodules, hkept, iff_of_false hchanged ?_, fun _ => ⟨hbroken, hentered⟩⟩
  rw [hname]
  intro heq
  cases heq

/-- A module whose second function has the name of a core function, behind the core module. -/
theorem register_breaks_off_duplicate :
    ∃ w₁ fault w₂, register Core.module (bare 32) = .ok () w₁ ∧
      register Sample.duplicateFunction w₁ = .error fault w₂ ∧
      w₂.modules = w₁.modules ∧ Broken Sample.duplicateFunction w₁ fault w₂ ∧
      Registers (bare 32) ["dup_fn"] w₂ ∧
      ∃ r, w₂.modules[0]? = some r ∧ Text.fold r.name = "core" := by
  have hruns : (match register Core.module (bare 32) with
      | .ok _ w₁ =>
        match register Sample.duplicateFunction w₁ with
        | .ok _ _ => false
        | .error _ w₂ => w₂.names.entries.contains ("core", .package 0) &&
            (w₁.names.insert "dup_fn" (.package w₁.modules.size) false).isOk
      | .error _ _ => false) = true := by decide +kernel
  generalize hcore : register Core.module (bare 32) = result at hruns
  cases result with
  | error fault w₁ => cases hruns
  | ok _ w₁ =>
    dsimp only at hruns
    generalize hduplicate : register Sample.duplicateFunction w₁ = result at hruns
    cases result with
    | ok _ w₂ => cases hruns
    | error fault w₂ =>
      rw [Bool.and_eq_true] at hruns
      obtain ⟨hentry, hname⟩ := hruns
      have hentry : ("core", Entry.package 0) ∈ w₂.names.entries := by simpa using hentry
      cases hinsert : w₁.names.insert "dup_fn" (.package w₁.modules.size) false with
      | error refusal =>
        rw [hinsert] at hname
        cases hname
      | ok accepted =>
        obtain ⟨names, old⟩ := accepted
        have hregisters : Registers (bare 32) ["dup_fn"] w₂ :=
          .broken (.registered .none hcore) hduplicate hinsert
        obtain ⟨hmodules, -, hsame, hbroken⟩ :=
          (register_breaks_off Sample.duplicateFunction w₁).1 fault w₂ hduplicate
        have hchanged : w₂ ≠ w₁ := by
          intro heq
          have hrefused := hsame.mp heq
          cases hinsert.symm.trans hrefused
        refine ⟨w₁, fault, w₂, rfl, hduplicate, hmodules, (hbroken hchanged).1, hregisters, ?_⟩
        exact (register_breaks_off Sample.duplicateFunction (bare 32)).2 ["dup_fn"] w₂ nofun
          hregisters "core" 0 hentry (by decide)

/-- The second function of a module has the name of a core function: the module is refused, and its
name has the number of the module that is registered next. -/
theorem refused_module_leaves_name :
    (match register Sample.duplicateFunction (initial 32) with
      | .ok _ _ => false
      | .error _ _ => true) = true ∧
      (after (register Sample.duplicateFunction) (initial 32)).functions.size =
        (initial 32).functions.size + 1 ∧
      (after (register Sample.beta)
        (after (register Sample.duplicateFunction) (initial 32))).names.get? "dup_fn" =
          some (.package 1) ∧
      ((after (register Sample.beta)
        (after (register Sample.duplicateFunction) (initial 32))).modules[1]?).map
          Registered.name = some "beta_mod" := by
  decide +kernel

end Workspace

end ArrayCommand
