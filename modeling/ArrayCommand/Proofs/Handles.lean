/-
Handles over the life of a memory.

An action enters a variable, exchanges the value of one, or takes one out.  A slot starts a new
generation whenever its variable is taken out, and each time a variable had to be entered first, so
the generation of a slot never passes the number of variables entered.  As long as that number fits
the generation, no handle is given out twice, and what a handle stands for is told by the actions
alone: its variable from the action that returned it until the action that takes it out.

* `Memory.Action`, `Memory.run`, `Memory.issued` — actions, the memory behind them and the handles
  they return;
* `Memory.Action.outcome` — what an action makes of the variable of a handle;
* `Memory.Tracked` — the invariant: how the slots are related to the handles given out so far;
* `Memory.run_accounts` — handles, free slots and the number of variables behind any actions.
-/

import Mathlib.Algebra.Group.Nat.Defs
import Mathlib.Data.List.Induction
import ArrayCommand.Proofs.Storage

namespace ArrayCommand.Memory

open List

variable {m : Memory} {handles : List Handle} {index : Nat} {h : Handle}

/-! ### Calls -/

inductive Action where
  | insert (name : String) (value : Cell)
  | update (h : Handle) (value : Cell)
  | take (h : Handle)

namespace Action

def isInsert : Action → Bool
  | insert .. => true
  | _ => false

def apply (m : Memory) : Action → Memory
  | insert name value => (m.insert name value).1
  | update h value => m.update h value
  | take h => (m.take h).1

def issues (m : Memory) : Action → List Handle
  | insert name value => [(m.insert name value).2]
  | _ => []

/-- What an action makes of the variable of a handle. -/
def outcome (h : Handle) (v : Option Variable) : Action → Option Variable
  | insert .. => v
  | update k value => if k = h then v.map fun v => { v with value } else v
  | take k => if k = h then none else v

end Action

def run (actions : List Action) : Memory := actions.foldl Action.apply empty

/-- The handles that actions return, the first one first. -/
def issuedFrom : Memory → List Action → List Handle
  | _, [] => []
  | m, a :: actions => a.issues m ++ issuedFrom (a.apply m) actions

def issued (actions : List Action) : List Handle := issuedFrom empty actions

theorem run_concat (actions : List Action) (a : Action) :
    run (actions ++ [a]) = a.apply (run actions) := by
  rw [run, foldl_append]
  rfl

theorem issuedFrom_append (m : Memory) (actions later : List Action) :
    issuedFrom m (actions ++ later) =
      issuedFrom m actions ++ issuedFrom (actions.foldl Action.apply m) later := by
  induction actions generalizing m with
  | nil => rfl
  | cons a actions ih => rw [cons_append, issuedFrom, ih, issuedFrom, append_assoc]; rfl

theorem issued_concat (actions : List Action) (a : Action) :
    issued (actions ++ [a]) = issued actions ++ a.issues (run actions) := by
  rw [issued, issuedFrom_append, issuedFrom, issuedFrom, append_nil]
  rfl

theorem length_issuedFrom (m : Memory) (actions : List Action) :
    (issuedFrom m actions).length = actions.countP Action.isInsert := by
  induction actions generalizing m with
  | nil => rfl
  | cons a actions ih =>
    rw [issuedFrom, length_append, ih, countP_cons, Nat.add_comm]
    cases a <;> rfl

/-! ### The invariant -/

/-- A slot against the free slots and the handles given out so far.  Every generation that it went
through had a variable entered, and it has gone past the handles that it gave out, but for the one
whose variable it holds. -/
structure Keeps (free : List Nat) (handles : List Handle) (index : Nat) (s : Slot) : Prop where
  vacant : s.content = none → index ∈ free
  bounded : s.generation.toNat + s.content.isSome.toNat ≤ handles.length
  past : ∀ h ∈ handles, h.index = index →
    h.generation.toNat < s.generation.toNat ∨ h.generation = s.generation ∧ s.content.isSome

/-- A memory against the handles given out so far. -/
structure Tracked (m : Memory) (handles : List Handle) : Prop where
  consistent : m.Consistent
  slots : ∀ (index : Nat) (s : Slot), m.slots[index]? = some s → Keeps m.free handles index s
  inside : ∀ h ∈ handles, h.index < m.slots.size
  known : ∀ h v, m.get? h = some v → h ∈ handles
  fresh : handles.Nodup
  size : m.slots.size = m.free.length + handles.countP fun h => (m.get? h).isSome

section Slots

variable {slots : Array Slot} {new : Slot} {p : Nat → Slot → Prop}

theorem forall_push (hnew : p slots.size new)
    (hold : ∀ (i : Nat) (s : Slot), i ≠ slots.size → slots[i]? = some s → p i s) :
    ∀ (i : Nat) (s : Slot), (slots.push new)[i]? = some s → p i s := by
  intro i s hs
  rw [Array.getElem?_push] at hs
  split at hs
  case isTrue hi =>
    cases hs
    exact hi ▸ hnew
  case isFalse hi => exact hold i s hi hs

theorem forall_set (hnew : p index new)
    (hold : ∀ (i : Nat) (s : Slot), i ≠ index → slots[i]? = some s → p i s) :
    ∀ (i : Nat) (s : Slot), (slots.setIfInBounds index new)[i]? = some s → p i s := by
  intro i s hs
  rw [Array.getElem?_setIfInBounds] at hs
  split at hs
  case isTrue hi =>
    split at hs <;> cases hs
    exact hi ▸ hnew
  case isFalse hi => exact hold i s (Ne.symm hi) hs

end Slots

section Steps

variable {free free' : List Nat} {s : Slot}
variable {generation : UInt32}

theorem Keeps.issue (hs : Keeps free handles index s) (hne : index ≠ h.index)
    (hfree : index ∈ free → index ∈ free') : Keeps free' (handles ++ [h]) index s where
  vacant hnone := hfree (hs.vacant hnone)
  bounded := by
    rw [length_append]
    exact Nat.le_succ_of_le hs.bounded
  past k hk hindex := by
    obtain hk | hk := mem_append.1 hk
    · exact hs.past k hk hindex
    · cases mem_singleton.1 hk
      exact absurd hindex.symm hne

theorem Keeps.fill (hs : Keeps free handles index ⟨generation, none⟩) (v : Variable) :
    Keeps free' (handles ++ [⟨index, generation⟩]) index ⟨generation, some v⟩ where
  vacant := nofun
  bounded := by
    rw [length_append]
    exact Nat.succ_le_succ hs.bounded
  past k hk hindex := by
    obtain hk | hk := mem_append.1 hk
    · exact .inl ((hs.past k hk hindex).resolve_right (by simp))
    · cases mem_singleton.1 hk
      exact .inr ⟨rfl, rfl⟩

/-- A slot whose variable is taken out goes past the handle of the variable.  The generation has a
successor as long as fewer handles are given out than there are generations. -/
theorem Keeps.vacate {v : Variable} (hfew : handles.length < 2 ^ 32)
    (hs : Keeps free handles index ⟨generation, some v⟩) :
    Keeps (index :: free) handles index ⟨generation + 1, none⟩ := by
  have hbounded : generation.toNat + 1 ≤ handles.length := hs.bounded
  have hnext : (generation + 1).toNat = generation.toNat + 1 := by
    rw [UInt32.toNat_add, UInt32.toNat_one, Nat.mod_eq_of_lt (by omega)]
  refine ⟨fun _ => mem_cons_self, ?_, fun k hk hindex => .inl ?_⟩
  · show (generation + 1).toNat ≤ _
    omega
  · obtain hlt | ⟨heq, -⟩ := hs.past k hk hindex
    · exact hnext ▸ Nat.lt_succ_of_lt hlt
    · simp only [heq, hnext]
      omega

theorem size_insert (m : Memory) (name : String) (value : Cell) :
    m.slots.size ≤ (m.insert name value).1.slots.size ∧
      (m.insert name value).1.slots.size + m.free.length =
        m.slots.size + (m.insert name value).1.free.length + 1 := by
  obtain ⟨hfree, hinsert⟩ | ⟨index, free, hfree, hinsert⟩ := m.insert_cases name value
  · simp [hinsert, hfree]
  · simp [hinsert, hfree]
    omega

theorem remove_stale (hh : m.get? h = none) : m.remove h = m := by
  rw [remove, hh]

namespace Tracked

theorem empty : Memory.empty.Tracked [] where
  consistent := .empty
  slots := by simp [Memory.empty]
  inside := by simp
  known := by simp [Memory.empty, get?]
  fresh := .nil
  size := rfl

/-- The handle of a new variable was not given out before: there was no slot, or the slot has gone
past all of its handles. -/
theorem insert_fresh (hm : m.Tracked handles) (name : String) (value : Cell) :
    (m.insert name value).2 ∉ handles := by
  intro hmem
  obtain ⟨-, hinsert⟩ | ⟨index, free, hfree, hinsert⟩ := m.insert_cases name value
  · have := hm.inside _ hmem
    simp [hinsert] at this
  · obtain ⟨generation, hslot⟩ := hm.consistent.vacant index (by simp [hfree])
    have := (hm.slots index _ hslot).past _ hmem (by rw [hinsert])
    simp [hinsert, hslot] at this

theorem insert_slots (hm : m.Tracked handles) (name : String) (value : Cell) (index : Nat)
    (s : Slot) (hs : (m.insert name value).1.slots[index]? = some s) :
    Keeps (m.insert name value).1.free (handles ++ [(m.insert name value).2]) index s := by
  revert index s
  obtain ⟨-, hinsert⟩ | ⟨index, free, hfree, hinsert⟩ := m.insert_cases name value
  · rw [hinsert]
    -- The slot behind all slots is like a free one that has given out no handle.
    have hbehind : Keeps [m.slots.size] handles m.slots.size ⟨0, none⟩ :=
      ⟨by simp, Nat.zero_le _, fun h hmem hindex =>
        absurd hindex (Nat.ne_of_lt (hm.inside h hmem))⟩
    exact forall_push (hbehind.fill _) fun i s hi hs => (hm.slots i s hs).issue hi id
  · obtain ⟨generation, hslot⟩ := hm.consistent.vacant index (by simp [hfree])
    simp only [hslot, Option.map_some, Option.getD_some] at hinsert
    rw [hinsert]
    refine forall_set ((hm.slots index _ hslot).fill _) fun i s hi hs =>
      (hm.slots i s hs).issue hi fun hmem => ?_
    rw [hfree] at hmem
    exact (mem_cons.1 hmem).resolve_left hi

theorem insert (hm : m.Tracked handles) (name : String) (value : Cell) :
    (m.insert name value).1.Tracked (handles ++ [(m.insert name value).2]) := by
  have hfresh := hm.insert_fresh name value
  have hget := get?_insert hm.consistent name value
  obtain ⟨hle, hsize⟩ := m.size_insert name value
  refine ⟨hm.consistent.insert name value, hm.insert_slots name value, ?_, ?_, ?_, ?_⟩
  · intro h hmem
    obtain hmem | hmem := mem_append.1 hmem
    · exact Nat.lt_of_lt_of_le (hm.inside h hmem) hle
    · cases mem_singleton.1 hmem
      exact (Array.getElem?_eq_some_iff.1 (get?_eq_some.1 ((hget _).trans (if_pos rfl)))).1
  · intro h v hv
    rw [hget] at hv
    split at hv
    case isTrue heq => simp [heq]
    case isFalse => exact mem_append_left _ (hm.known h v hv)
  · refine nodup_append.2 ⟨hm.fresh, by simp, ?_⟩
    rintro a ha b hb rfl
    exact hfresh (mem_singleton.1 hb ▸ ha)
  · have hcount : (handles ++ [(m.insert name value).2]).countP
        (fun h => ((m.insert name value).1.get? h).isSome) =
        handles.countP (fun h => (m.get? h).isSome) + 1 := by
      rw [countP_append, countP_congr (q := fun h => (m.get? h).isSome)]
      · simp [hget]
      · intro k hk
        rw [hget, if_neg (by rintro rfl; exact hfresh hk)]
    have := hm.size
    omega

theorem update (hm : m.Tracked handles) (h : Handle) (value : Cell) :
    (m.update h value).Tracked handles := by
  cases hh : m.get? h with
  | none => rwa [Memory.update, hh]
  | some v =>
    have hupdate : m.update h value =
        ⟨m.slots.setIfInBounds h.index ⟨h.generation, some { v with value }⟩, m.free⟩ := by
      rw [Memory.update, hh]
    have hlive : ∀ k, ((m.update h value).get? k).isSome = (m.get? k).isSome := by
      intro k
      rw [m.get?_update]
      split
      case isTrue heq => rw [heq, Option.isSome_map]
      case isFalse => rfl
    refine ⟨hm.consistent.update h value, ?_, ?_, ?_, hm.fresh, ?_⟩
    · rw [hupdate]
      obtain ⟨-, hbounded, hpast⟩ := hm.slots h.index _ (get?_eq_some.1 hh)
      exact forall_set ⟨by simp, hbounded, hpast⟩ fun i s _ hs => hm.slots i s hs
    · simpa [hupdate] using hm.inside
    · intro k u hu
      obtain ⟨w, hw⟩ := Option.isSome_iff_exists.1 ((hlive k).symm.trans (by rw [hu]; rfl))
      exact hm.known k w hw
    · simp only [hlive]
      simpa [hupdate] using hm.size

theorem remove (hm : m.Tracked handles) (hfew : handles.length < 2 ^ 32) (h : Handle) :
    (m.remove h).Tracked handles := by
  cases hh : m.get? h with
  | none => rwa [remove_stale hh]
  | some v =>
    have hremove : m.remove h =
        ⟨m.slots.setIfInBounds h.index ⟨h.generation + 1, none⟩, h.index :: m.free⟩ := by
      rw [Memory.remove, hh]
    have hget := m.get?_remove h
    refine ⟨hm.consistent.remove h, ?_, ?_, ?_, hm.fresh, ?_⟩
    · rw [hremove]
      refine forall_set ((hm.slots h.index _ (get?_eq_some.1 hh)).vacate hfew) fun i s _ hs => ?_
      obtain ⟨hvacant, hbounded, hpast⟩ := hm.slots i s hs
      exact ⟨fun hnone => mem_cons_of_mem _ (hvacant hnone), hbounded, hpast⟩
    · simpa [hremove] using hm.inside
    · intro k u hu
      rw [hget] at hu
      split at hu
      case isTrue => cases hu
      case isFalse => exact hm.known k u hu
    · -- The handle is one of those given out, and only it stops to stand for a variable.
      have hperm := perm_cons_erase (hm.known h v hh)
      have hnot : h ∉ handles.erase h := hm.fresh.not_mem_erase
      have hcount : (handles.erase h).countP (fun k => ((m.remove h).get? k).isSome) =
          (handles.erase h).countP (fun k => (m.get? k).isSome) := by
        refine countP_congr fun k hk => ?_
        rw [hget, if_neg (by rintro rfl; exact hnot hk)]
      have hsize := hm.size
      rw [hperm.countP_eq, countP_cons, hh] at hsize
      rw [hperm.countP_eq, countP_cons, hcount, hget, if_pos rfl, hremove]
      simp at hsize ⊢
      omega

end Tracked

end Steps

/-! ### Sequences of actions -/

theorem Tracked.apply (hm : m.Tracked handles) (hfew : handles.length < 2 ^ 32) (a : Action) :
    (a.apply m).Tracked (handles ++ a.issues m) := by
  cases a with
  | insert name value => exact hm.insert name value
  | update h value => exact (append_nil handles).symm ▸ hm.update h value
  | take h => exact (append_nil handles).symm ▸ hm.remove hfew h

theorem tracked_run (actions : List Action) (hfew : actions.countP Action.isInsert < 2 ^ 32) :
    (run actions).Tracked (issued actions) := by
  induction actions using reverseRecOn with
  | nil => exact .empty
  | append_singleton actions a ih =>
    have hbefore : actions.countP Action.isInsert < 2 ^ 32 :=
      Nat.lt_of_le_of_lt (Sublist.countP_le (sublist_append_left actions [a])) hfew
    rw [run_concat, issued_concat]
    refine (ih hbefore).apply ?_ a
    rwa [issued, length_issuedFrom]

theorem get?_foldl (hm : m.Tracked handles) (hmem : h ∈ handles)
    (actions : List Action) (hfew : handles.length + actions.countP Action.isInsert < 2 ^ 32) :
    (actions.foldl Action.apply m).get? h = actions.foldl (Action.outcome h) (m.get? h) := by
  induction actions generalizing m handles with
  | nil => rfl
  | cons a actions ih =>
    have hstep : (a.apply m).get? h = a.outcome h (m.get? h) := by
      cases a with
      | insert name value =>
        refine (get?_insert hm.consistent name value h).trans (if_neg ?_)
        rintro rfl
        exact hm.insert_fresh name value hmem
      | update k value =>
        refine (m.get?_update k value h).trans ?_
        simp only [Action.outcome, eq_comm (a := h)]
        split <;> simp_all
      | take k =>
        refine (m.get?_remove k h).trans ?_
        simp only [Action.outcome, eq_comm (a := h)]
    rw [countP_cons] at hfew
    rw [foldl_cons, foldl_cons, ← hstep]
    refine ih (hm.apply (by omega) a) (mem_append_left _ hmem) ?_
    have : (a.issues m).length = if a.isInsert then 1 else 0 := by cases a <;> rfl
    rw [length_append]
    omega

/-! ### What handles stand for -/

/-- Every access by the handle reaches the variable. -/
structure Resolves (m : Memory) (h : Handle) (v : Variable) : Prop where
  get : m.get h = .ok v
  value : m.value h = .ok v.value
  update : ∀ value, (m.update h value).get h = .ok { v with value }
  take : (m.take h).2 = some v

/-- Every access by the handle is refused and changes nothing. -/
structure Refuses (m : Memory) (h : Handle) : Prop where
  get : m.get h = .error (stale h)
  value : m.value h = .error (stale h)
  update : ∀ value, m.update h value = m
  take : m.take h = (m, none)

def Stands (m : Memory) (h : Handle) : Option Variable → Prop
  | some v => m.Resolves h v
  | none => m.Refuses h

theorem stands_get? (m : Memory) (h : Handle) : m.Stands h (m.get? h) := by
  cases hh : m.get? h with
  | some v =>
    refine ⟨by rw [get, hh], value_eq_ok.2 ⟨v, hh, rfl⟩, fun value => ?_, hh⟩
    rw [get, get?_update, if_pos rfl, hh]
    rfl
  | none =>
    have hget : m.get h = .error (stale h) := by rw [get, hh]
    refine ⟨hget, by rw [value, hget]; rfl, fun value => by rw [update, hh], ?_⟩
    rw [take, remove_stale hh, hh]

/-- The memory behind actions tells for every handle what the actions have made of it. -/
structure Accounts (actions : List Action) : Prop where
  fresh : (issued actions).Nodup
  /-- A handle stands for its variable from the action that returned it until it is taken out. -/
  stands : ∀ before name value after, actions = before ++ .insert name value :: after →
    (run actions).Stands ((run before).insert name value).2
      (after.foldl (Action.outcome ((run before).insert name value).2) (some ⟨name, value⟩))
  unknown : ∀ h, h ∉ issued actions → (run actions).Refuses h
  free_nodup : (run actions).free.Nodup
  mem_free : ∀ index, index ∈ (run actions).free ↔
    ∃ generation, (run actions).slots[index]? = some ⟨generation, none⟩
  size : (run actions).size = (issued actions).countP fun h => ((run actions).get? h).isSome

/-- No handle is given out twice and none outlives its variable, whatever is entered, exchanged and
taken out, as long as fewer variables are entered than a slot has generations. -/
theorem run_accounts (actions : List Action) (hfew : actions.countP Action.isInsert < 2 ^ 32) :
    Accounts actions := by
  have hm := tracked_run actions hfew
  refine ⟨hm.fresh, ?_, ?_, hm.consistent.nodup, ?_, ?_⟩
  · rintro before name value after rfl
    rw [List.countP_append, List.countP_cons] at hfew
    have hbefore := tracked_run before (by omega)
    have hinsert := hbefore.insert name value
    have hlength : (issued before ++ [((run before).insert name value).2]).length =
        before.countP Action.isInsert + 1 := by
      rw [List.length_append, issued, length_issuedFrom]
      rfl
    have hget := get?_foldl hinsert List.mem_concat_self after (by
      rw [hlength]
      simp only [Action.isInsert, if_true] at hfew
      omega)
    rw [get?_insert hbefore.consistent, if_pos rfl] at hget
    rw [← hget, run, List.foldl_append]
    exact stands_get? _ _
  · intro h hnot
    have hnone : (run actions).get? h = none :=
      Option.eq_none_iff_forall_ne_some.2 fun v hv => hnot (hm.known h v hv)
    have hstands := stands_get? (run actions) h
    rwa [hnone] at hstands
  · exact fun index => ⟨hm.consistent.vacant index,
      fun ⟨_, hslot⟩ => (hm.slots index _ hslot).vacant rfl⟩
  · rw [size, hm.size, Nat.add_sub_cancel_left]

/-- A slot that is used again: the handle of its first variable stays refused. -/
theorem run_accounts_reuse :
    let actions : List Action := [.insert "a" (.scalar (.integer 1)), .take ⟨0, 0⟩,
      .insert "b" (.scalar (.integer 2))]
    actions.countP Action.isInsert < 2 ^ 32 ∧ issued actions = [⟨0, 0⟩, ⟨0, 1⟩] ∧
      (run actions).Refuses ⟨0, 0⟩ ∧ (run actions).Resolves ⟨0, 1⟩ ⟨"b", .scalar (.integer 2)⟩ := by
  intro actions
  have hfew : actions.countP Action.isInsert < 2 ^ 32 := by decide
  have haccounts := run_accounts actions hfew
  refine ⟨hfew, rfl, ?_, ?_⟩
  · exact haccounts.stands [] "a" _ _ rfl
  · exact haccounts.stands [.insert "a" _, .take ⟨0, 0⟩] "b" _ [] rfl

end ArrayCommand.Memory
