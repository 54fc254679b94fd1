/-
Names and variables in step.

The names and the variables are kept in two places, which are changed by separate steps: a variable
is created, withdrawn, deleted, registered or released in memory first or in the table first.  In
every session that can be reached the two agree: an entry of a variable leads to a variable of that
name, and a variable is under one entry only.  There is one exception.  A module that is registered
puts a variable in memory before its name is refused, and the core module is registered with
whatever length of names the settings admit: if that is six, `verbose` stays in memory without a
name.

* `Workspace.Matched` — the names and the variables agree, some handles excepted;
* `Workspace.Matched.grows`, `Workspace.Matched.change` — kept by compilation and by runs;
* `Workspace.matched_initial` — the core module, for every length of names;
* `Session.Reached` — the sessions that statements, modules and shutdowns lead to;
* `Session.Reached.sort` — functions that no module has registered are not in them;
* `Session.moves_enter`, `Session.moves_runFile`, `Session.moves_runFrom` — what holds across statements
  holds across running a text, a file or the console;
* `Session.Reached.corresponds` — names and variables correspond in all of them.
-/

import Mathlib.Data.List.Nodup
import ArrayCommand.Proofs.Changes
import ArrayCommand.Proofs.Creation

namespace ArrayCommand

open List NameTable Text Workspace Entry

variable {name : String} {w w' : Workspace} {plain : Prop} {fault : Fault} {value : Cell}
  {names : NameTable Entry} {old : Option Entry} {spared : Handle → Prop}
  {created : List (String × Handle)} {vars : List (String × Cell)} {titles : List String}
  {m : Module} {n : Nat}
variable {code : Array Node} {settings : Settings} {allowed : Module → Prop}

namespace NameTable

variable {α : Type} {t : NameTable α} {t' : NameTable α} {old : Option α}
variable {payload : α}

theorem mem_of_find? {entries : List (String × α)} {folded : String}
    (h : find? entries folded = some payload) : (folded, payload) ∈ entries := by
  rw [find?, Option.map_eq_some_iff] at h
  obtain ⟨⟨name, entry⟩, hfind, rfl⟩ := h
  have hname : name = folded := by simpa using find?_some hfind
  exact hname ▸ mem_of_find?_eq_some hfind

/-- A name stands for one thing only. -/
theorem Distinct.eq {a b : α} (ht : t.Distinct) (ha : (name, a) ∈ t.entries)
    (hb : (name, b) ∈ t.entries) : a = b := by
  have hpair := inj_on_of_nodup_map ht ha hb rfl
  exact (Prod.ext_iff.mp hpair).2

theorem insert_eq (t : NameTable α) (name : String) (payload : α) (hlegal : isLegal (fold name) = true)
    (hlength : (fold name).length ≤ t.maxLength)
    (hnew : find? t.entries (fold name) = none) :
    t.insert name payload false =
      .ok ({ t with entries := insertSorted (fold name) payload t.entries }, none) := by
  have haccept : t.accept name = .ok (fold name) := by
    rw [accept, if_neg (by simp [hlegal]), if_neg (by omega)]
  rw [insert, haccept]
  dsimp only
  rw [hnew]

theorem maxLength_insert
    (h : t.insert name payload false = .ok (t', old)) : t'.maxLength = t.maxLength := by
  rw [(insert_ok h).2]

theorem fits_of_insert
    (h : t.insert name payload false = .ok (t', old)) : (fold name).length ≤ t.maxLength := by
  by_contra hlong
  rw [insert, accept, if_pos (by omega : t.maxLength < (fold name).length)] at h
  split at h
  case h_1 => cases h
  case h_2 haccept =>
    split at haccept
    · cases haccept
    · cases haccept

end NameTable

namespace Workspace

variable {entry : Entry}

theorem enter_eq_ok {u : Unit} (h : enter name entry w = .ok u w') :
    ∃ names old, w.names.insert name entry false = .ok (names, old) ∧ w' = { w with names } := by
  rw [enter] at h
  split at h
  case h_1 names old hnames =>
    cases h
    exact ⟨names, old, hnames, rfl⟩
  case h_2 => cases h

theorem enter_eq_error (h : enter name entry w = .error fault w') : w' = w := by
  rw [enter] at h
  split at h
  case h_1 => cases h
  case h_2 =>
    cases h
    rfl

section Variables

variable {rest : List (String × Cell)}

theorem enterVariables_cons
    (h : w.names.insert name (.var (w.memory.insert name value).2) false = .ok (names, old)) :
    enterVariables ((name, value) :: rest) w =
      enterVariables rest { w with names, memory := (w.memory.insert name value).1 } := by
  rw [enterVariables, get_bind_apply]
  dsimp only
  rw [set_bind_apply, bind_apply, enter]
  rw [h]

/-- A variable whose name is refused stays in memory. -/
theorem enterVariables_refused
    (h : w.names.insert name (.var (w.memory.insert name value).2) false = .error fault) :
    enterVariables ((name, value) :: rest) w =
      .error fault { w with memory := (w.memory.insert name value).1 } := by
  rw [enterVariables, get_bind_apply]
  dsimp only
  rw [set_bind_apply, bind_apply, enter]
  rw [h]

end Variables

theorem declared_sublist (w : Workspace) :
    (w.declared.map fun pair => (pair.1, var pair.2)).Sublist w.names.entries := by
  rw [declared]
  generalize w.names.entries = entries
  induction entries with
  | nil => exact .slnil
  | cons first rest ih =>
    rw [filterMap_cons]
    split
    case h_1 => exact ih.cons first
    case h_2 pair hpair =>
      have hfirst : (pair.1, var pair.2) = first := by
        obtain ⟨name, entry⟩ := first
        cases entry with
        | var handle =>
          dsimp only at hpair
          split at hpair
          case h_1 =>
            split at hpair
            · cases hpair
              rfl
            · cases hpair
          case h_2 => cases hpair
        | _ => cases hpair
      rw [map_cons, hfirst]
      exact ih.cons_cons first

/-- The names and the variables agree, but for the variables under some handles, which may be
without a name.  The stored names are as they were given; if these were `plain`, they are the folded
names of the table. -/
structure Matched (spared : Handle → Prop) (plain : Prop) (w : Workspace) : Prop where
  consistent : w.memory.Consistent
  distinct : w.names.Distinct
  folded : ∀ entry ∈ w.names.entries, Text.fold entry.1 = entry.1
  resolves : ∀ name h, (name, Entry.var h) ∈ w.names.entries →
    ∃ v, w.memory.get? h = some v ∧ Text.fold v.name = name ∧ (plain → v.name = name)
  entered : ∀ h v, w.memory.get? h = some v →
    (∃ name, (name, Entry.var h) ∈ w.names.entries) ∨ spared h

namespace Matched

/-- Agreement does not depend on anything but the names and what the handles stand for. -/
theorem of_eq (hw : Matched spared plain w) (hnames : w'.names = w.names)
    (hget : ∀ k, w'.memory.get? k = w.memory.get? k) (hm : w'.memory.Consistent) :
    Matched spared plain w' where
  consistent := hm
  distinct := hnames ▸ hw.distinct
  folded := hnames ▸ hw.folded
  resolves name k hk := by
    rw [hget]
    exact hw.resolves name k (hnames ▸ hk)
  entered k v hv := by
    rw [hget] at hv
    rw [hnames]
    exact hw.entered k v hv

theorem add (hw : Matched spared plain w) (hplain : plain → fold name = name)
    (hnames : w.names.insert name (.var (w.memory.insert name value).2) false =
      .ok (names, old)) :
    Matched spared plain { w with names, memory := (w.memory.insert name value).1 } := by
  have hget := Memory.get?_insert hw.consistent name value
  have hkept {k v} := @Memory.get?_insert_of_some _ hw.consistent name value k v
  have hmem := mem_insert hnames
  refine ⟨hw.consistent.insert _ _, hw.distinct.insert hnames, fun entry hentry => ?_,
    fun n k hk => ?_, fun k v hv => ?_⟩
  · obtain rfl | hentry := (hmem entry).mp hentry
    · exact fold_fold name
    · exact hw.folded entry hentry
  · obtain heq | hk := (hmem _).mp hk
    · cases heq
      exact ⟨⟨name, value⟩, by rw [hget, if_pos rfl], rfl, fun h => (hplain h).symm⟩
    · obtain ⟨v, hv, hname⟩ := hw.resolves n k hk
      exact ⟨v, hkept hv, hname⟩
  · dsimp only at hv
    rw [hget] at hv
    split at hv
    case isTrue hhandle => exact .inl ⟨fold name, (hmem _).mpr (.inl (by rw [hhandle]))⟩
    case isFalse =>
      refine (hw.entered k v hv).imp_left fun ⟨n, hn⟩ => ⟨n, (hmem _).mpr (.inr hn)⟩

theorem withdraw {handle : Handle} (hw : Matched spared plain w)
    (hentry : (fold name, var handle) ∈ w.names.entries) :
    Matched spared plain (w.withdraw name handle) := by
  have hget := Memory.get?_remove w.memory handle
  obtain ⟨v₀, hv₀, hname₀, -⟩ := hw.resolves _ _ hentry
  refine ⟨hw.consistent.remove _, hw.distinct.remove name, fun entry h => ?_, fun n k hk => ?_,
    fun k v hv => ?_⟩
  · exact hw.folded entry (mem_remove entry |>.mp h).1
  · obtain ⟨hk, hne⟩ := (mem_remove _).mp hk
    obtain ⟨v, hv, hname, hplain⟩ := hw.resolves n k hk
    refine ⟨v, ?_, hname, hplain⟩
    change (w.memory.remove handle).get? k = some v
    rw [hget, if_neg, hv]
    -- Two entries of one variable would have the same name.
    rintro rfl
    cases hv.symm.trans hv₀
    exact hne (hname.symm.trans hname₀)
  · change (w.memory.remove handle).get? k = some v at hv
    rw [hget] at hv
    split at hv
    case isTrue => cases hv
    case isFalse hk =>
      refine (hw.entered k v hv).imp_left fun ⟨n, hn⟩ => ⟨n, (mem_remove _).mpr ⟨hn, ?_⟩⟩
      rintro rfl
      exact hk (var.inj (hw.distinct.eq hn hentry))

theorem withValue (hw : Matched spared plain w) (var : Handle) (value : Cell) :
    Matched spared plain (w.withValue var value) := by
  have hget (k : Handle) : ∀ v, (w.withValue var value).memory.get? k = some v →
      ∃ v₀, w.memory.get? k = some v₀ := by
    intro v hv
    rw [Workspace.withValue, Memory.get?_update] at hv
    split at hv
    case isTrue hk =>
      obtain ⟨v₀, hv₀, -⟩ := Option.map_eq_some_iff.mp hv
      exact ⟨v₀, hk ▸ hv₀⟩
    case isFalse => exact ⟨v, hv⟩
  refine ⟨hw.consistent.update _ _, hw.distinct, hw.folded, fun n k hk => ?_, fun k v hv => ?_⟩
  · obtain ⟨v, hv, hname⟩ := hw.resolves n k hk
    change ∃ v, (w.memory.update var value).get? k = some v ∧ _
    rw [Memory.get?_update]
    split
    case isTrue heq =>
      subst heq
      exact ⟨{ v with value }, by rw [hv]; rfl, hname⟩
    case isFalse => exact ⟨v, hv, hname⟩
  · obtain ⟨v₀, hv₀⟩ := hget k v hv
    exact hw.entered k v₀ hv₀

theorem change (hw : Matched spared plain w) (h : w.Change code w') : Matched spared plain w' := by
  cases h with
  | write | declare | count => exact hw.withValue _ _
  | delete hname => exact hw.withdraw (mem_of_find? hname)

theorem grows (hw : Matched spared plain w) (h : Grows w created w') : Matched spared plain w' := by
  induction h with
  | nothing => exact hw
  | create _ hcreate ih =>
    obtain ⟨old, hnames, hmemory, hhandle, -⟩ := create_eq_ok hcreate
    rw [hhandle] at hnames
    have hadded := ih.add (fun _ => fold_fold _) hnames
    exact hadded.of_eq rfl (fun k => by rw [hmemory]) (hmemory ▸ hadded.consistent)
  | refused _ hcreate ih =>
    obtain ⟨halike, hm⟩ := alike_of_refused ih.consistent hcreate
    exact ih.of_eq halike.names halike.get? hm

theorem rollback (hw : Matched spared plain w) (h : Grows w created w') :
    Matched spared plain
      (created.foldl (fun w (name, handle) => w.withdraw name handle) w') := by
  have hm (w₁ : Workspace) (hm : w₁.memory.Consistent) :
      (created.foldl (fun w (name, handle) => w.withdraw name handle) w₁).memory.Consistent := by
    clear h
    induction created generalizing w₁ with
    | nil => exact hm
    | cons first rest ih => exact ih _ (hm.remove first.2)
  have halike := h.rollback hw.consistent
  exact hw.of_eq halike.names halike.get? (hm w' (h.consistent hw.consistent))

/-! #### Registering -/

theorem enter (hw : Matched spared plain w) (hentry : ∀ h, entry ≠ .var h)
    (h : enter name entry w = .ok () w') : Matched spared plain w' := by
  obtain ⟨names, old, hnames, rfl⟩ := enter_eq_ok h
  have hmem := mem_insert hnames
  have hvar (n : String) (k : Handle) :
      (n, var k) ∈ names.entries ↔ (n, var k) ∈ w.names.entries := by
    rw [hmem]
    refine or_iff_right fun heq => hentry k ?_
    cases heq
    rfl
  refine ⟨hw.consistent, hw.distinct.insert hnames, fun e he => ?_, fun n k hk => ?_,
    fun k v hv => ?_⟩
  · obtain rfl | he := (hmem e).mp he
    · exact fold_fold name
    · exact hw.folded e he
  · exact hw.resolves n k ((hvar n k).mp hk)
  · exact (hw.entered k v hv).imp_left fun ⟨n, hn⟩ => ⟨n, (hvar n k).mpr hn⟩

theorem enterVariables (hw : Matched spared plain w)
    (hplain : plain → ∀ var ∈ vars, fold var.1 = var.1)
    (h : enterVariables vars w = .ok () w') : Matched spared plain w' := by
  induction vars generalizing w with
  | nil =>
    cases h
    exact hw
  | cons var rest ih =>
    obtain ⟨name, value⟩ := var
    cases hinsert : w.names.insert name (.var (w.memory.insert name value).2) false with
    | error fault =>
      rw [enterVariables_refused hinsert] at h
      cases h
    | ok result =>
      rw [enterVariables_cons hinsert] at h
      exact ih (hw.add (fun hp => hplain hp _ mem_cons_self) hinsert)
        (fun hp var hvar => hplain hp var (mem_cons_of_mem _ hvar)) h

/-! #### Releasing -/

/-- Entries of variables that are taken out one after another, all under different names. -/
theorem withdrawAll {pairs : List (String × Handle)} (hw : Matched spared plain w)
    (hdistinct : (pairs.map Prod.fst).Nodup)
    (hpairs : ∀ pair ∈ pairs, (pair.1, var pair.2) ∈ w.names.entries) :
    Matched spared plain
      (pairs.foldl (fun w (name, handle) => w.withdraw name handle) w) := by
  induction pairs generalizing w with
  | nil => exact hw
  | cons first rest ih =>
    obtain ⟨name, handle⟩ := first
    rw [map_cons, nodup_cons] at hdistinct
    have hfirst := hpairs _ mem_cons_self
    have hfold : fold name = name := hw.folded _ hfirst
    refine ih (hw.withdraw (by rwa [hfold])) hdistinct.2 fun pair hpair => ?_
    refine (mem_remove _).mpr ⟨hpairs pair (mem_cons_of_mem _ hpair), ?_⟩
    rw [hfold]
    intro heq
    have hmem : pair.1 ∈ rest.map Prod.fst := mem_map_of_mem hpair
    exact hdistinct.1 (heq ▸ hmem)

/-- A variable that is entered is under one entry only: another one would have the same name. -/
theorem count_eq_one {h : Handle} (hw : Matched spared plain w)
    (hentry : (name, var h) ∈ w.names.entries) :
    (w.names.entries.map Prod.snd).count (.var h) = 1 := by
  rw [count_eq_countP, countP_map, countP_eq_length_filter]
  have hnodup := (Nodup.of_map _ hw.distinct).filter ((· == var h) ∘ Prod.snd)
  have hmem : (name, var h) ∈ w.names.entries.filter ((· == var h) ∘ Prod.snd) :=
    mem_filter.mpr ⟨hentry, by simp⟩
  have hall : ∀ entry ∈ w.names.entries.filter ((· == var h) ∘ Prod.snd),
      entry = (name, var h) := by
    rintro ⟨other, target⟩ hother
    obtain ⟨hother, htarget⟩ := mem_filter.mp hother
    obtain rfl : target = .var h := by simpa using htarget
    obtain ⟨v, hv, hname, -⟩ := hw.resolves name h hentry
    obtain ⟨v', hv', hname', -⟩ := hw.resolves other h hother
    cases hv.symm.trans hv'
    rw [← hname, ← hname']
  rw [eq_replicate_of_mem hall, nodup_replicate] at hnodup
  have hpos := length_pos_of_mem hmem
  omega

theorem dropDeclared (hw : Matched spared plain w) : Matched spared plain w.dropDeclared := by
  have hsublist := declared_sublist w
  refine hw.withdrawAll ?_ fun pair hpair => hsublist.subset (mem_map_of_mem hpair)
  have hnames := (hsublist.map Prod.fst).nodup hw.distinct
  rwa [map_map] at hnames

end Matched

/-! #### Modules -/

section Entering

variable {R : Workspace → Workspace → Prop} [IsPreorder Workspace R]

/-- Functions are entered within every relation that their names and their places keep to. -/
theorem moves_enterFunctions {functions : List Function}
    (henter : ∀ f ∈ functions, ∀ id, Moves (.of R) (enter f.name (.func id f.preferred)))
    (hpush : ∀ f ∈ functions, ∀ w : Workspace, R w { w with functions := w.functions.push f }) :
    Moves (.of R) (enterFunctions functions) := by
  induction functions with
  | nil => exact .pure _
  | cons f rest ih =>
    rw [forall_mem_cons] at henter hpush
    exact .bind .get fun _ => .bind (henter.1 _) fun _ => .bind (.modify hpush.1) fun _ =>
      .bind (ih henter.2 hpush.2) fun _ => .pure _

/-- Variables are entered within every relation that their cells and their names keep to.  A variable
is in memory before its name is entered. -/
theorem moves_enterVariables (henter : ∀ name handle, Moves (.of R) (enter name (.var handle)))
    (hinsert : ∀ var ∈ vars, ∀ w : Workspace,
      R w { w with memory := (w.memory.insert var.1 var.2).1 }) :
    Moves (.of R) (enterVariables vars) := by
  induction vars with
  | nil => exact .pure _
  | cons var rest ih =>
    rw [forall_mem_cons] at hinsert
    refine .of_leftIn fun w => ?_
    rw [enterVariables, get_bind_apply]
    dsimp only
    rw [set_bind_apply]
    refine trans_of R (hinsert.1 w) (Moves.leftIn (R := R) ?_ _)
    exact .bind (henter _ _) fun _ => ih hinsert.2

end Entering

/-- Names of a list have been entered, none of them for a variable. -/
structure Titles (titles : List String) (w w' : Workspace) : Prop where
  memory : w'.memory = w.memory
  maxLength : w'.names.maxLength = w.names.maxLength
  titled : ∀ entry ∈ w'.names.entries, entry ∈ w.names.entries ∨ entry.1 ∈ titles
  matched : ∀ {spared plain}, Matched spared plain w → Matched spared plain w'

instance (titles : List String) : IsPreorder Workspace (Titles titles) where
  refl _ := ⟨rfl, rfl, fun _ h => .inl h, id⟩
  trans _ _ _ h h' :=
    ⟨h'.memory.trans h.memory, h'.maxLength.trans h.maxLength,
      fun entry hentry => (h'.titled entry hentry).elim (h.titled entry) .inr,
      fun hw => h'.matched (h.matched hw)⟩

theorem moves_enter (hname : fold name ∈ titles)
    (hentry : ∀ h, entry ≠ .var h) : Moves (.of (Titles titles)) (enter name entry) := by
  refine .of_leftIn fun w => ?_
  cases henter : enter name entry w with
  | ok _ w' =>
    have hmatched := fun {spared plain} (hw : Matched spared plain w) => hw.enter hentry henter
    obtain ⟨names, old, hnames, rfl⟩ := enter_eq_ok henter
    refine ⟨rfl, maxLength_insert hnames, fun e he => ?_, hmatched⟩
    obtain rfl | he := (mem_insert hnames e).mp he
    · exact .inr hname
    · exact .inl he
  | error fault w' =>
    rw [enter_eq_error henter]
    exact refl_of (Titles titles) w

theorem titles_enterFunctions {functions : List Function}
    (hnames : ∀ f ∈ functions, fold f.name ∈ titles) :
    Moves (.of (Titles titles)) (enterFunctions functions) :=
  moves_enterFunctions (fun f hf _ => moves_enter (hnames f hf) (by simp)) fun _ _ _ =>
    ⟨rfl, rfl, fun _ h => .inl h, fun hw => hw.of_eq rfl (fun _ => rfl) hw.consistent⟩

/-- Functions are entered only if their names are short enough. -/
theorem fits_of_enterFunctions {functions : List Function} {ids : List Nat}
    (h : enterFunctions functions w = .ok ids w') :
    ∀ f ∈ functions, (fold f.name).length ≤ w.names.maxLength := by
  induction functions generalizing w ids w' with
  | nil => nofun
  | cons f rest ih =>
    rw [enterFunctions, get_bind_apply, bind_eq_ok] at h
    obtain ⟨_, w₁, henter, h⟩ := h
    rw [modify_bind_apply, bind_eq_ok] at h
    obtain ⟨ids, w₂, hrest, -⟩ := h
    obtain ⟨names, old, hnames, rfl⟩ := enter_eq_ok henter
    intro g hg
    obtain rfl | hg := mem_cons.mp hg
    · exact fits_of_insert hnames
    · rw [← maxLength_insert hnames]
      exact ih hrest g hg

theorem Matched.register (hw : Matched spared plain w)
    (hplain : plain → ∀ var ∈ m.vars, fold var.1 = var.1)
    (h : Workspace.register m w = .ok () w') : Matched spared plain w' := by
  rw [Workspace.register, get_bind_apply] at h
  obtain ⟨_, w₁, henter, h⟩ := bind_eq_ok.mp h
  obtain ⟨ids, w₂, hfunctions, h⟩ := bind_eq_ok.mp h
  obtain ⟨_, w₃, hvars, h⟩ := bind_eq_ok.mp h
  cases h
  have hnames : ∀ f ∈ m.functions, fold f.name ∈ m.functions.map (fold ·.name) :=
    fun _ => mem_map_of_mem
  have htitles := (titles_enterFunctions hnames).ok hfunctions
  have hw₃ := (htitles.matched (hw.enter (by simp) henter)).enterVariables hplain hvars
  exact hw₃.of_eq rfl (fun _ => rfl) hw₃.consistent

/-! #### The core module -/

theorem matched_bare (spared : Handle → Prop) (plain : Prop) (nameLength : Nat) :
    Matched spared plain (bare nameLength) where
  consistent := .empty
  distinct := .nil
  folded := nofun
  resolves := nofun
  entered := nofun

/-- A variable whose name is refused stays in memory. -/
theorem Matched.leave (hw : Matched spared plain w)
    (hspared : spared (w.memory.insert name value).2) :
    Matched spared plain { w with memory := (w.memory.insert name value).1 } := by
  have hget := Memory.get?_insert hw.consistent name value
  refine ⟨hw.consistent.insert _ _, hw.distinct, hw.folded, fun n k hk => ?_, fun k v hv => ?_⟩
  · obtain ⟨v, hv, hname⟩ := hw.resolves n k hk
    exact ⟨v, Memory.get?_insert_of_some hw.consistent name value hv, hname⟩
  · dsimp only at hv
    rw [hget] at hv
    split at hv
    case isTrue hhandle => exact .inr (hhandle ▸ hspared)
    case isFalse => exact hw.entered k v hv

/-- The names of the core module that are entered before its variables. -/
def coreTitles : List String := "core" :: Core.functions.map (Text.fold ·.name)

/-- The last variable of the core module is entered if more than six characters are admitted;
otherwise it is left in memory. -/
theorem matched_verbose
    (hw : Matched (fun h => n = 6 ∧ h = ⟨1, 0⟩) plain w) (hlength : w.names.maxLength = n)
    (hn : 6 ≤ n) (hhandle : (w.memory.insert "verbose" value).2 = ⟨1, 0⟩)
    (hnew : ∀ entry ∈ w.names.entries, entry.1 ≠ "verbose") :
    Matched (fun h => n = 6 ∧ h = ⟨1, 0⟩) plain
      (leftIn (enterVariables [("verbose", value)] w)) := by
  by_cases hfits : 7 ≤ n
  · have hinsert := w.names.insert_eq "verbose" (.var (w.memory.insert "verbose" value).2)
      (by decide) (hlength ▸ hfits) (find?_eq_none.mpr hnew)
    rw [enterVariables_cons hinsert]
    exact hw.add (fun _ => by decide) hinsert
  · cases hinsert : w.names.insert "verbose" (.var (w.memory.insert "verbose" value).2) false with
    | ok result =>
      have hlong : 7 ≤ w.names.maxLength := fits_of_insert hinsert
      omega
    | error fault =>
      rw [enterVariables_refused hinsert]
      exact hw.leave ⟨by omega, hhandle⟩

theorem matched_coreVars (hw : Titles coreTitles (bare n) w) (hn : 6 ≤ n) :
    Matched (fun h => n = 6 ∧ h = ⟨1, 0⟩) plain
      (leftIn (enterVariables Core.module.vars w)) := by
  have hmatched := hw.matched (matched_bare (fun h => n = 6 ∧ h = ⟨1, 0⟩) plain n)
  have hmemory : w.memory = {} := hw.memory
  have hlength : w.names.maxLength = n := hw.maxLength
  have hnew {name : String} (hname : name ∉ coreTitles) :
      ∀ entry ∈ w.names.entries, entry.1 ≠ name := by
    rintro entry hentry rfl
    exact (hw.titled entry hentry).elim nofun hname
  change Matched _ _ (leftIn (enterVariables [("pi", _), ("verbose", _)] w))
  generalize (Cell.scalar (.float Core.pi)).owned .parameter = piCell
  have hinsert := w.names.insert_eq "pi" (.var (w.memory.insert "pi" piCell).2) (by decide)
    (by rw [hlength]; exact Nat.le_trans (by decide) hn)
    (find?_eq_none.mpr (hnew (by decide)))
  rw [enterVariables_cons hinsert]
  refine matched_verbose (hmatched.add (fun _ => by decide) hinsert) hlength hn ?_ ?_
  · rw [hmemory]
    rfl
  · intro entry hentry
    obtain rfl | hentry := mem_insertSorted.mp hentry
    · show fold "pi" ≠ "verbose"
      decide
    · exact hnew (by decide) entry hentry

theorem after_eq_leftIn {α : Type} (action : EStateM Fault Workspace α) (w : Workspace) :
    after action w = leftIn (action w) := by
  rw [after]
  cases action w <;> rfl

/-- The core module is registered whatever names are admitted.  Its function `delete` has six
characters, and only `verbose` is longer than all its functions. -/
theorem matched_initial (plain : Prop) (n : Nat) :
    Matched (fun h => n = 6 ∧ h = ⟨1, 0⟩) plain (initial n) := by
  have hbare := matched_bare (fun h => n = 6 ∧ h = ⟨1, 0⟩) plain n
  have hcore : Moves (.of (Titles coreTitles)) (enter Core.module.name (.package 0)) :=
    moves_enter (by decide) (by simp)
  have hfunctions : Moves (.of (Titles coreTitles)) (enterFunctions Core.module.functions) :=
    titles_enterFunctions fun f hf => mem_cons_of_mem _ (mem_map_of_mem hf)
  rw [initial, after_eq_leftIn, register, get_bind_apply]
  refine leftIn_bind (fun _ w h => (hcore.error h).matched hbare) fun _ w₁ h₁ => ?_
  have hw₁ := hcore.ok h₁
  refine leftIn_bind (fun _ w h => (hfunctions.error h).matched (hw₁.matched hbare))
    fun ids w₂ h₂ => ?_
  have hw₂ := trans_of (Titles coreTitles) hw₁ (hfunctions.ok h₂)
  have hn : 6 ≤ n := by
    have hlong : ∃ f ∈ Core.functions, 6 ≤ (fold f.name).length := by decide
    obtain ⟨f, hf, hlong⟩ := hlong
    have hlength : w₁.names.maxLength = n := hw₁.maxLength
    exact Nat.le_trans hlong (hlength ▸ fits_of_enterFunctions h₂ f hf)
  have hw₃ : Matched _ plain _ := matched_coreVars hw₂ hn
  refine leftIn_bind (fun _ w h => by rwa [h] at hw₃) fun _ w h => ?_
  rw [h] at hw₃
  exact Matched.of_eq hw₃ rfl (fun _ => rfl) hw₃.consistent

end Workspace

/-! ### Sessions -/

namespace Session

variable [Outside] {s : Session}

/-- The sessions that are reached from the start when modules of some kind are registered.  Besides
statements, modules and shutdowns there are steps that leave the workspace alone: input is given, a
macro is defined, the running statement is interrupted. -/
inductive Reached (settings : Settings) (allowed : Module → Prop) : Session → Prop
  | initial (world : Outside.World) : Reached settings allowed (.initial settings world)
  | register {m : Module} {s s' : Session} (hs : Reached settings allowed s) (hm : allowed m)
      (h : s.register m = (.ok (), s')) : Reached settings allowed s'
  | statement (fuel : Nat) (line : String) {s : Session} (hs : Reached settings allowed s) :
      Reached settings allowed (s.statement fuel line).2
  | shutdown (mode : ExitMode) {s : Session} (hs : Reached settings allowed s) :
      Reached settings allowed (s.shutdown mode)
  | aside {s s' : Session} (hs : Reached settings allowed s) (h : s'.workspace = s.workspace) :
      Reached settings allowed s'

/-- The modules have only the host to do something with. -/
theorem teardown_eq (mode : ExitMode) (s : Session) :
    ∃ host, s.teardown mode = { s with machine := { s.machine with host } } := by
  rw [teardown]
  generalize s.workspace.modules.toList.reverse = modules
  induction modules generalizing s with
  | nil => exact ⟨s.machine.host, rfl⟩
  | cons m rest ih =>
    rw [foldl_cons]
    cases m.teardown with
    | none => exact ih s
    | some finish => exact ih (s.onHost (finish mode))

theorem workspace_teardown (mode : ExitMode) (s : Session) :
    (s.teardown mode).workspace = s.workspace := by
  obtain ⟨host, hhost⟩ := teardown_eq mode s
  rw [hhost]
  rfl

/-- Compilation adds variables or takes back all it added; the program then changes them. -/
theorem grows_statement (fuel : Nat) (line : String) (s : Session) :
    ∃ created grown, s.workspace.Grows created grown ∧
      ((s.statement fuel line).2.workspace =
          created.foldl (fun w (name, handle) => w.withdraw name handle) grown ∨
        Relation.ReflTransGen (Change (s.statement fuel line).2.program.nodes) grown
          (s.statement fuel line).2.workspace) := by
  have hruns := runs_statement fuel line s
  generalize (s.statement fuel line).2.program.nodes = code at hruns ⊢
  generalize (s.statement fuel line).2.workspace = w at hruns ⊢
  cases hruns with
  | refused hworkspace hcreated hcompile =>
    obtain ⟨created, grown, hgrows, hw⟩ := Compiler.grows_of_compile_error hcreated hcompile
    exact ⟨created, grown, hworkspace ▸ hgrows, .inl hw⟩
  | ran hworkspace _ _ hcompile hrun =>
    obtain ⟨created, hgrows⟩ := Compiler.grows_of_compile hcompile
    exact ⟨created, _, hworkspace ▸ hgrows, .inr hrun⟩

section Workspaces

variable (hs : s.workspace.Matched spared plain)

include hs

theorem matched_statement (fuel : Nat) (line : String) :
    (s.statement fuel line).2.workspace.Matched spared plain := by
  obtain ⟨created, grown, hgrows, hrolled | hrun⟩ := grows_statement fuel line s
  · rw [hrolled]
    exact hs.rollback hgrows
  · have hgrown := hs.grows hgrows
    generalize (s.statement fuel line).2.workspace = w at hrun ⊢
    induction hrun with
    | refl => exact hgrown
    | tail _ hchange ih => exact ih.change hchange

theorem matched_shutdown (mode : ExitMode) : (s.shutdown mode).workspace.Matched spared plain := by
  rw [← workspace_teardown mode] at hs
  unfold shutdown
  rw [workspace_flushOutput]
  cases mode with
  | minimal status => exact hs
  | full status => exact hs.dropDeclared

end Workspaces

theorem Reached.matched (hs : Reached settings allowed s) :
    s.workspace.Matched (fun h => settings.limits.nameLength = 6 ∧ h = ⟨1, 0⟩)
      (∀ m, allowed m → ∀ var ∈ m.vars, fold var.1 = var.1) := by
  induction hs with
  | initial world => exact matched_initial _ _
  | @register m s s' _ hm h ih =>
    rw [Session.register] at h
    split at h
    case h_1 w hregister =>
      cases h
      exact ih.register (fun hplain => hplain m hm) hregister
    case h_2 => cases h
  | statement fuel line _ ih => exact matched_statement ih fuel line
  | shutdown mode _ ih => exact matched_shutdown ih mode
  | aside _ h ih => exact h ▸ ih

/-! #### Functions -/

end Session

namespace Workspace

variable {sort : Function → Prop}

/-- From a workspace whose functions are all of one sort to another such workspace. -/
def KeepsSort (sort : Function → Prop) (w w' : Workspace) : Prop :=
  (∀ f ∈ w.functions, sort f) → ∀ f ∈ w'.functions, sort f

instance : IsPreorder Workspace (KeepsSort sort) where
  refl _ := id
  trans _ _ _ h h' := h' ∘ h

theorem keepsSort_of_eq (h : w'.functions = w.functions) : KeepsSort sort w w' :=
  fun hw f hf => hw f (h ▸ hf)

theorem keepsSort_enter (name : String) (entry : Entry) :
    Moves (.of (KeepsSort sort)) (enter name entry) := by
  refine .of_leftIn fun w => keepsSort_of_eq ?_
  rw [enter]
  split
  · rfl
  · rfl

theorem keepsSort_register (h : ∀ f ∈ m.functions, sort f) :
    Moves (.of (KeepsSort sort)) (register m) := by
  have hfunctions : Moves (.of (KeepsSort sort)) (enterFunctions m.functions) := by
    refine moves_enterFunctions (fun _ _ _ => keepsSort_enter _ _) fun f hf w hw g hg => ?_
    rcases Array.mem_push.mp hg with hg | rfl
    · exact hw g hg
    · exact h g hf
  have hvars : Moves (.of (KeepsSort sort)) (enterVariables m.vars) :=
    moves_enterVariables (fun _ _ => keepsSort_enter _ _) fun _ _ _ => keepsSort_of_eq rfl
  exact .bind .get fun _ => .bind (keepsSort_enter _ _) fun _ => .bind hfunctions fun _ =>
    .bind hvars fun _ => .modify fun _ => keepsSort_of_eq rfl

theorem sort_initial (h : ∀ f ∈ Core.functions, sort f) (nameLength : Nat) :
    ∀ f ∈ (initial nameLength).functions, sort f := by
  rw [initial, after_eq_leftIn]
  exact (keepsSort_register h).leftIn (bare nameLength) fun f hf => by simp [bare] at hf

theorem Change.functions (h : w.Change code w') : w'.functions = w.functions := by
  cases h <;> rfl

theorem functions_of_changes (h : Relation.ReflTransGen (Change code) w w') :
    w'.functions = w.functions := by
  induction h with
  | refl => rfl
  | tail _ hchange ih => exact hchange.functions.trans ih

theorem functions_withdrawAll (pairs : List (String × Handle)) :
    (pairs.foldl (fun w (name, handle) => w.withdraw name handle) w).functions = w.functions := by
  induction pairs generalizing w with
  | nil => rfl
  | cons pair rest ih => exact ih

end Workspace

namespace Session

variable [Outside] {s : Session}

theorem functions_statement (hm : s.workspace.memory.Consistent) (fuel : Nat) (line : String) :
    (s.statement fuel line).2.workspace.functions = s.workspace.functions := by
  obtain ⟨created, grown, hgrows, hrolled | hrun⟩ := grows_statement fuel line s
  · rw [hrolled]
    exact (hgrows.rollback hm).functions
  · exact (functions_of_changes hrun).trans (hgrows.additions hm).functions

theorem functions_shutdown (mode : ExitMode) (s : Session) :
    (s.shutdown mode).workspace.functions = s.workspace.functions := by
  rw [← workspace_teardown mode s]
  unfold shutdown
  rw [workspace_flushOutput]
  cases mode with
  | minimal status => rfl
  | full status => exact functions_withdrawAll _

/-- If the functions of the core and of all modules are of one sort, then so are those of a
session. -/
theorem Reached.sort {sort : Function → Prop} (hs : Reached settings allowed s)
    (hcore : ∀ f ∈ Core.functions, sort f) (hmodules : ∀ m, allowed m → ∀ f ∈ m.functions, sort f) :
    ∀ f ∈ s.workspace.functions, sort f := by
  induction hs with
  | initial world => exact sort_initial hcore _
  | @register m s s' _ hm h ih =>
    rw [Session.register] at h
    split at h
    case h_1 w hregister =>
      cases h
      exact (keepsSort_register (hmodules m hm)).ok hregister ih
    case h_2 => cases h
  | statement fuel line hs ih =>
    rwa [functions_statement hs.matched.consistent fuel line]
  | shutdown mode _ ih => rwa [functions_shutdown mode]
  | aside _ h ih => rwa [h]

/-! #### Entry points -/

/-- A relation that holds across whatever running a text, a file or the console consists of: drawing
a line, running its statement, reporting a fault, opening a level and closing all of them. -/
structure Passes (R : Session → Session → Prop) : Prop where
  drawn : ∀ s : Session, R s { s with
    input := leftIn (Input.nextLine s.workspace.names.knows s.settings.prompt s.input) }
  broken : ∀ {s fault input}, Input.nextLine s.workspace.names.knows s.settings.prompt s.input =
    .error (.fault fault) input → R s (report fault "" { s with input })
  statement : ∀ fuel line s, R s (s.statement fuel line).2
  failed : ∀ {fuel line s fault text s'},
    s.statement fuel line = (.error (.fault fault, text), s') → R s (report fault text s')
  refused : ∀ {s text fault}, s.input.pushText "" text [] true = .error fault →
    R s (report fault text s)
  opened : ∀ {s level input}, level.terminal = true → s.input.push level = .ok input →
    R s { s with input }
  reset : ∀ s : Session, R s { s with input := s.input.reset }

/-- A failure that is not reported leaves the session alone. -/
theorem leftIn_recover (failure : Failure) (text : String) (s : Session) :
    leftIn (recover failure text s) = s ∨
      ∃ fault, failure = .fault fault ∧ recover failure text s = .ok .ran (report fault text s) := by
  unfold recover
  split
  · split
    · exact .inl rfl
    · exact .inr ⟨_, rfl, rfl⟩
  · exact .inl rfl

section EntryPoints

variable {R : Session → Session → Prop} [IsPreorder Session R]

variable (hR : Passes R)

include hR

theorem moves_step (fuel : Nat) : Moves (.of R) (step fuel) := by
  refine .of_leftIn fun s => ?_
  have hdrawn := hR.drawn s
  rw [step]
  split
  case h_1 fault input heq => exact hR.broken heq
  case h_2 input heq =>
    rw [heq] at hdrawn
    exact hdrawn
  case h_3 input heq =>
    rw [heq] at hdrawn
    exact hdrawn
  case h_4 line input heq =>
    rw [heq] at hdrawn
    have hran := hR.statement fuel line.text { s with input }
    cases hrun : statement fuel line.text { s with input } with
    | mk outcome s₁ =>
      rw [hrun] at hran
      cases outcome with
      | ok exit => cases exit <;> exact trans_of R hdrawn hran
      | error failure =>
        obtain ⟨failure, text⟩ := failure
        dsimp only
        obtain hleft | ⟨fault, rfl, hreport⟩ := leftIn_recover failure text s₁
        · rw [hleft]
          exact trans_of R hdrawn hran
        · rw [hreport]
          exact trans_of R hdrawn (hR.failed hrun)

theorem moves_drain (depth fuel : Nat) : Moves (.of R) (drain depth fuel) := by
  induction fuel with
  | zero => exact .throw _
  | succ fuel ih =>
    refine .bind .get fun s => .ite (.pure _) (.bind (moves_step hR fuel) fun outcome => ?_)
    cases outcome with
    | ran => exact ih
    | ended => exact .pure _
    | exit mode => exact .bind (.modify hR.reset) fun _ => .pure _

theorem moves_enter (fuel : Nat) (text : String) : Moves (.of R) (enter fuel text) := by
  refine .of_leftIn fun s => ?_
  rw [enter, get_bind_apply]
  cases hpush : s.input.pushText "" text [] true with
  | error fault => exact hR.refused hpush
  | ok input =>
    exact trans_of R (hR.opened rfl hpush) ((moves_drain hR input.depth fuel).leftIn _)

theorem moves_runFile (fuel : Nat) (path : String) (args : List String) :
    Moves (.of R) (runFile fuel path args) := by
  refine .of_leftIn fun s => ?_
  rw [runFile, get_bind_apply]
  cases hpush : s.input.pushFile path args true with
  | error fault => exact refl_of R s
  | ok input =>
    dsimp only
    rw [set_bind_apply]
    have hopened : R s { s with input } := by
      unfold Input.pushFile at hpush
      split at hpush
      · exact hR.opened rfl hpush
      · cases hpush
    refine trans_of R hopened (Moves.leftIn (R := R) ?_ { s with input })
    exact .bind (moves_drain hR input.depth fuel) fun _ => .pure _

theorem moves_runFrom (fuel ends : Nat) : Moves (.of R) (runFrom fuel ends) := by
  induction fuel generalizing ends with
  | zero => exact .throw _
  | succ fuel ih =>
    refine .bind (moves_step hR fuel) fun outcome => ?_
    cases outcome with
    | ran => exact ih 0
    | ended => exact .bind .get fun s => .ite (.pure _) (ih (ends + 1))
    | exit mode => exact .pure _

end EntryPoints

/-- Names and variables correspond in every session that can be reached: an entry leads to a variable
of its name, up to the case of letters if a module gave the name, and every variable is under exactly
one entry.  Only if names of six characters and no longer ones are admitted, the second variable of
the core module is under none. -/
theorem Reached.corresponds {settings : Settings} {allowed : Module → Prop} {s : Session}
    (hs : Reached settings allowed s) :
    (∀ name h, (name, Entry.var h) ∈ s.workspace.names.entries →
      ∃ v, s.workspace.memory.get? h = some v ∧ Text.fold v.name = name ∧
        ((∀ m, allowed m → ∀ var ∈ m.vars, Text.fold var.1 = var.1) → v.name = name)) ∧
      ∀ h v, s.workspace.memory.get? h = some v →
        (s.workspace.names.entries.map Prod.snd).count (.var h) = 1 ∨
          settings.limits.nameLength = 6 ∧ h = ⟨1, 0⟩ := by
  have hw := hs.matched
  refine ⟨hw.resolves, fun h v hv => ?_⟩
  obtain ⟨name, hname⟩ | hspared := hw.entered h v hv
  · exact .inl (hw.count_eq_one hname)
  · exact .inr hspared

end Session

namespace Session

open scoped Cabinet

/-- A variable that a statement has made. -/
theorem corresponds_assignment :
    ∃ v, ((Session.initial {} []).statement 60 "x = 1").2.workspace.memory.get? ⟨2, 0⟩ = some v ∧
      v.name = "x" ∧
      (((Session.initial {} []).statement 60 "x = 1").2.workspace.names.entries.map
        Prod.snd).count (.var ⟨2, 0⟩) = 1 := by
  have hreached : Reached {} (fun _ => False) ((Session.initial {} []).statement 60 "x = 1").2 :=
    .statement 60 "x = 1" (.initial [])
  have hentry : ("x", Entry.var ⟨2, 0⟩) ∈
      ((Session.initial {} []).statement 60 "x = 1").2.workspace.names.entries := by
    decide +kernel
  obtain ⟨hresolves, hentered⟩ := hreached.corresponds
  obtain ⟨v, hv, -, hname⟩ := hresolves "x" ⟨2, 0⟩ hentry
  refine ⟨v, hv, hname nofun, (hentered ⟨2, 0⟩ v hv).resolve_right ?_⟩
  rintro ⟨h, -⟩
  cases h

/-- With names of at most six characters `verbose` is a variable that no name leads to. -/
theorem verbose_not_entered :
    ∃ s, Reached { limits := { nameLength := 6 } } (fun _ => False) s ∧
      (s.workspace.memory.get? ⟨1, 0⟩).map Variable.name = some "verbose" ∧
      (s.workspace.names.entries.map Prod.snd).count (.var ⟨1, 0⟩) = 0 :=
  ⟨.initial _ [], .initial [], by decide +kernel⟩

end Session

end ArrayCommand
