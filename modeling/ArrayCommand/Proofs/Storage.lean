/-
Variable memory and name tables as finite maps.

A handle stands for at most one variable.  Entering a variable gives it a handle that stood for
nothing before, and no operation touches what other handles stand for: slots that are used again
have another generation, or their old variable is gone.  A name table holds a folded name at most
once; taking a name out that has just been entered gives the table back, entry for entry.

* `Memory.Built`, `Memory.Consistent` — the memories that the operations make, and what their free slots
  are like;
* `Memory.get?_insert`, `Memory.get?_remove`, `Memory.get?_update` — what handles stand for after
  each operation;
* `NameTable.remove_insert` — a name that is entered and taken out again leaves no trace;
* `NameTable.mem_insert`, `NameTable.mem_remove` — the entries after each operation.
-/

import ArrayCommand.Workspace

namespace ArrayCommand

open List

/-! ### Variable memory -/

namespace Memory

variable {m : Memory} {h k : Handle} {v : Variable}

/-- The memories that are made by entering, exchanging and removing variables. -/
inductive Built : Memory → Prop
  | empty : Built {}
  | insert {m : Memory} (name : String) (value : Cell) : Built m → Built (m.insert name value).1
  | update {m : Memory} (h : Handle) (value : Cell) : Built m → Built (m.update h value)
  | remove {m : Memory} (h : Handle) : Built m → Built (m.remove h)

/-- The free slots are there, they are different ones, and none of them holds a variable. -/
structure Consistent (m : Memory) : Prop where
  nodup : m.free.Nodup
  vacant : ∀ index ∈ m.free, ∃ generation, m.slots[index]? = some ⟨generation, none⟩

theorem get?_eq_some :
    m.get? h = some v ↔ m.slots[h.index]? = some ⟨h.generation, some v⟩ := by
  rw [get?]
  constructor
  · intro hget
    split at hget
    case h_1 slot hslot =>
      split at hget
      case isTrue hgeneration => rw [hslot, ← hgeneration, ← hget]
      case isFalse => cases hget
    case h_2 => cases hget
  · intro hslot
    rw [hslot]
    exact if_pos rfl

theorem handle_eq {u : Variable} (hh : m.get? h = some v) (hk : m.get? k = some u)
    (hindex : k.index = h.index) : k = h := by
  rw [get?_eq_some] at hh hk
  rw [hindex, hh] at hk
  cases h
  cases k
  cases hk
  cases hindex
  rfl

/-- A handle of a slot without a variable stands for nothing. -/
theorem get?_vacant {generation : UInt32} (hslot : m.slots[k.index]? = some ⟨generation, none⟩) :
    m.get? k = none := by
  rw [get?, hslot]
  exact ite_self none

/-- A handle of a slot that is not there stands for nothing. -/
theorem get?_of_size_le (hslot : m.slots.size ≤ k.index) : m.get? k = none := by
  rw [get?, Array.getElem?_eq_none hslot]

/-- After a slot has been filled for a handle, that handle stands for the content, the other handles
of the slot stand for nothing, and the handles of other slots for what they did. -/
theorem get?_setSlot (hbound : h.index < m.slots.size) (content : Option Variable)
    (free : List Nat) (k : Handle) :
    get? { slots := m.slots.setIfInBounds h.index ⟨h.generation, content⟩, free } k =
      if k = h then content else if k.index = h.index then none else m.get? k := by
  rw [get?]
  by_cases hindex : k.index = h.index
  · rw [hindex, Array.getElem?_setIfInBounds_self_of_lt hbound, if_pos rfl]
    obtain ⟨index, generation⟩ := k
    cases hindex
    by_cases hgeneration : h.generation = generation
    · rw [if_pos (by rw [← hgeneration])]
      exact if_pos hgeneration
    · rw [if_neg fun hk => hgeneration (by rw [← hk])]
      exact if_neg hgeneration
  · rw [Array.getElem?_setIfInBounds_ne (Ne.symm hindex), if_neg fun hk => hindex (by rw [hk]),
      if_neg hindex, get?]

/-- Of the handles of a slot only the one that stands for its variable stands for anything. -/
theorem get?_eq_none_of_ne (hh : m.get? h = some v) (hindex : k.index = h.index) (hne : k ≠ h) :
    m.get? k = none := by
  cases hk : m.get? k with
  | none => rfl
  | some u => exact absurd (handle_eq hh hk hindex) hne

/-! #### Entering -/

/-- A new variable comes to stand in a slot of the memory or in the next one behind them. -/
theorem insert_cases (m : Memory) (name : String) (value : Cell) :
    (m.free = [] ∧ m.insert name value =
      ({ m with slots := m.slots.push ⟨0, some ⟨name, value⟩⟩ }, ⟨m.slots.size, 0⟩)) ∨
    ∃ index free, m.free = index :: free ∧ m.insert name value =
      ({ slots := m.slots.setIfInBounds index
          ⟨(m.slots[index]?.map Slot.generation).getD 0, some ⟨name, value⟩⟩, free },
        ⟨index, (m.slots[index]?.map Slot.generation).getD 0⟩) := by
  rw [insert]
  cases hfree : m.free with
  | nil => exact .inl ⟨rfl, rfl⟩
  | cons index free => exact .inr ⟨index, free, rfl, rfl⟩

/-- The handle of a new variable stood for nothing before. -/
theorem get?_insert_handle (hm : m.Consistent) (name : String) (value : Cell) :
    m.get? (m.insert name value).2 = none := by
  obtain ⟨-, hinsert⟩ | ⟨index, free, hfree, hinsert⟩ := m.insert_cases name value
  · rw [hinsert]
    exact get?_of_size_le (Nat.le_refl _)
  · obtain ⟨generation, hslot⟩ := hm.vacant index (by rw [hfree]; exact mem_cons_self)
    rw [hinsert]
    exact get?_vacant hslot

/-- Entering a variable: its handle stands for it, and all other handles stand for what they did. -/
theorem get?_insert (hm : m.Consistent) (name : String) (value : Cell) (k : Handle) :
    (m.insert name value).1.get? k =
      if k = (m.insert name value).2 then some ⟨name, value⟩ else m.get? k := by
  obtain ⟨hfree, hinsert⟩ | ⟨index, free, hfree, hinsert⟩ := m.insert_cases name value
  · rw [hinsert]
    rw [get?, Array.getElem?_push]
    obtain ⟨index, generation⟩ := k
    by_cases hindex : index = m.slots.size
    · subst hindex
      rw [if_pos rfl, get?_of_size_le (k := ⟨m.slots.size, generation⟩) (Nat.le_refl _)]
      by_cases hgeneration : 0 = generation
      · rw [if_pos (by rw [hgeneration])]
        exact if_pos hgeneration
      · rw [if_neg fun hk => hgeneration (Handle.mk.inj hk).2.symm]
        exact if_neg hgeneration
    · rw [if_neg hindex, if_neg fun hk => hindex (Handle.mk.inj hk).1, get?]
  · obtain ⟨generation, hslot⟩ := hm.vacant index (by rw [hfree]; exact mem_cons_self)
    have hbound : index < m.slots.size := (Array.getElem?_eq_some_iff.1 hslot).1
    rw [hinsert]
    rw [get?_setSlot (h := ⟨index, _⟩) hbound]
    split
    case isTrue => rfl
    case isFalse =>
      split
      case isTrue hindex => exact (get?_vacant (k := k) (by rw [hindex]; exact hslot)).symm
      case isFalse => rfl

theorem get?_insert_of_some (hm : m.Consistent) (name : String) (value : Cell) {k : Handle}
    {v : Variable} (hv : m.get? k = some v) : (m.insert name value).1.get? k = some v := by
  rw [get?_insert hm, if_neg, hv]
  rintro rfl
  rw [get?_insert_handle hm] at hv
  cases hv

theorem Consistent.insert (hm : m.Consistent) (name : String) (value : Cell) :
    (m.insert name value).1.Consistent := by
  obtain ⟨hfree, hinsert⟩ | ⟨index, free, hfree, hinsert⟩ := m.insert_cases name value
  · rw [hinsert]
    exact ⟨hm.nodup, fun index hindex => by rw [hfree] at hindex; cases hindex⟩
  · have hnodup := hm.nodup
    rw [hfree, nodup_cons] at hnodup
    rw [hinsert]
    refine ⟨hnodup.2, fun other hother => ?_⟩
    obtain ⟨generation, hslot⟩ := hm.vacant other (by rw [hfree]; exact mem_cons_of_mem _ hother)
    refine ⟨generation, ?_⟩
    rw [Array.getElem?_setIfInBounds_ne, hslot]
    rintro rfl
    exact hnodup.1 hother

/-! #### Exchanging a value -/

theorem get?_update (m : Memory) (h : Handle) (value : Cell) (k : Handle) :
    (m.update h value).get? k =
      if k = h then (m.get? h).map fun v => { v with value } else m.get? k := by
  rw [update]
  cases hget : m.get? h with
  | none =>
    by_cases hk : k = h
    · rw [if_pos hk, hk]
      exact hget
    · rw [if_neg hk]
  | some v =>
    have hbound := (Array.getElem?_eq_some_iff.1 (get?_eq_some.1 hget)).1
    rw [get?_setSlot hbound]
    split
    case isTrue => rfl
    case isFalse hk =>
      split
      case isTrue hindex => exact (get?_eq_none_of_ne hget hindex hk).symm
      case isFalse => rfl

theorem Consistent.update (hm : m.Consistent) (h : Handle) (value : Cell) : (m.update h value).Consistent := by
  rw [Memory.update]
  cases hget : m.get? h with
  | none => exact hm
  | some v =>
    refine ⟨hm.nodup, fun index hindex => ?_⟩
    obtain ⟨generation, hslot⟩ := hm.vacant index hindex
    refine ⟨generation, ?_⟩
    rw [Array.getElem?_setIfInBounds_ne, hslot]
    rintro rfl
    rw [get?_eq_some, hslot] at hget
    cases hget

/-! #### Removing -/

/-- Removing a variable: its handle stands for nothing, and no other handle for anything else. -/
theorem get?_remove (m : Memory) (h k : Handle) :
    (m.remove h).get? k = if k = h then none else m.get? k := by
  rw [remove]
  cases hget : m.get? h with
  | none =>
    by_cases hk : k = h
    · rw [if_pos hk, hk]
      exact hget
    · rw [if_neg hk]
  | some v =>
    have hbound := (Array.getElem?_eq_some_iff.1 (get?_eq_some.1 hget)).1
    rw [get?_setSlot (h := ⟨h.index, h.generation + 1⟩) hbound]
    by_cases hindex : k.index = h.index
    · rw [if_pos hindex, ite_self]
      split
      case isTrue => rfl
      case isFalse hk => exact (get?_eq_none_of_ne hget hindex hk).symm
    · rw [if_neg hindex, if_neg fun hk => hindex (by rw [hk]), if_neg fun hk => hindex (by rw [hk])]

theorem Consistent.remove (hm : m.Consistent) (h : Handle) : (m.remove h).Consistent := by
  rw [Memory.remove]
  cases hget : m.get? h with
  | none => exact hm
  | some v =>
    have hslot := get?_eq_some.1 hget
    have hbound := (Array.getElem?_eq_some_iff.1 hslot).1
    have hfree : h.index ∉ m.free := by
      intro hmem
      obtain ⟨generation, hvacant⟩ := hm.vacant _ hmem
      rw [hslot] at hvacant
      cases hvacant
    refine ⟨nodup_cons.2 ⟨hfree, hm.nodup⟩, fun index hindex => ?_⟩
    cases hindex with
    | head => exact ⟨h.generation + 1, Array.getElem?_setIfInBounds_self_of_lt hbound⟩
    | tail _ hindex =>
      obtain ⟨generation, hvacant⟩ := hm.vacant index hindex
      refine ⟨generation, ?_⟩
      rw [Array.getElem?_setIfInBounds_ne, hvacant]
      rintro rfl
      exact hfree hindex

theorem Consistent.empty : ({} : Memory).Consistent := ⟨.nil, nofun⟩

theorem Built.consistent (hm : m.Built) : m.Consistent := by
  induction hm with
  | empty => exact .empty
  | insert name value _ ih => exact ih.insert name value
  | update h value _ ih => exact ih.update h value
  | remove h _ ih => exact ih.remove h

theorem value_eq_ok {c : Cell} : m.value h = .ok c ↔ ∃ v, m.get? h = some v ∧ v.value = c := by
  rw [value, get]
  cases m.get? h with
  | none => simp [Except.map]
  | some v => simp [Except.map]

/-- Giving a variable the value that it has changes nothing. -/
theorem update_value {c : Cell} (hc : m.value h = .ok c) : m.update h c = m := by
  obtain ⟨v, hget, rfl⟩ := value_eq_ok.mp hc
  have hslot := get?_eq_some.mp hget
  obtain ⟨hbound, hslot⟩ := Array.getElem?_eq_some_iff.mp hslot
  rw [update, hget]
  change { m with slots := m.slots.setIfInBounds h.index ⟨h.generation, some v⟩ } = m
  rw [← hslot, Array.setIfInBounds_def, dif_pos hbound, Array.set_getElem_self]

end Memory

/-! ### Folded names -/

namespace Text

theorem toLower_toLower (c : Char) : c.toLower.toLower = c.toLower := by
  have hfix (d : Char) (h : ¬ ('A'.val ≤ d.val ∧ d.val ≤ 'Z'.val)) : d.toLower = d := dif_neg h
  by_cases h : 'A'.val ≤ c.val ∧ c.val ≤ 'Z'.val
  · have hlow : 65 ≤ c.val.toNat := h.1
    have hhigh : c.val.toNat ≤ 90 := h.2
    have hval : c.toLower.val.toNat = c.val.toNat + 32 := by
      have hlower : c.toLower = ⟨c.val + 32, _⟩ := dif_pos h
      rw [hlower]
      change (c.val.toNat + 32) % 4294967296 = c.val.toNat + 32
      omega
    refine hfix _ fun hlower => ?_
    have hhigh' : c.toLower.val.toNat ≤ 90 := hlower.2
    omega
  · rw [hfix c h, hfix c h]

/-- Folding a folded text changes nothing. -/
@[simp] theorem fold_fold (s : String) : fold (fold s) = fold s := by
  simp only [fold, String.toList_ofList, map_map, Function.comp_def, toLower_toLower]

end Text

/-! ### Name tables -/

namespace NameTable

variable {α : Type} {t t' : NameTable α} {name folded : String} {payload : α}
  {entries : List (String × α)}
variable {old : Option α}

theorem find?_eq_none : find? entries folded = none ↔ ∀ entry ∈ entries, entry.1 ≠ folded := by
  simp [find?]

theorem mem_insertSorted {entry : String × α} :
    entry ∈ insertSorted folded payload entries ↔ entry = (folded, payload) ∨ entry ∈ entries := by
  induction entries with
  | nil => simp [insertSorted]
  | cons first rest ih =>
    rw [insertSorted]
    split
    · rw [mem_cons]
    · rw [mem_cons, ih, mem_cons]
      exact or_left_comm

/-- A new entry pushes the others apart, and nothing else. -/
theorem sublist_insertSorted (folded : String) (payload : α) (entries : List (String × α)) :
    entries.Sublist (insertSorted folded payload entries) := by
  induction entries with
  | nil => exact nil_sublist _
  | cons first rest ih =>
    rw [insertSorted]
    split
    · exact sublist_cons_self _ _
    · exact ih.cons_cons first

theorem filter_insertSorted (payload : α) (hnew : find? entries folded = none) :
    ((insertSorted folded payload entries).filter fun entry => entry.1 != folded) = entries := by
  rw [find?_eq_none] at hnew
  have hkept : (entries.filter fun entry => entry.1 != folded) = entries :=
    filter_eq_self.2 fun entry hentry => by simpa using hnew entry hentry
  induction entries with
  | nil => simp [insertSorted]
  | cons first rest ih =>
    have hfirst : (first.1 != folded) = true := by simpa using hnew first mem_cons_self
    rw [insertSorted]
    split
    · rw [filter_cons_of_neg (by simp), hkept]
    · rw [filter_cons, if_pos hfirst] at hkept ⊢
      rw [ih (fun entry hentry => hnew entry (mem_cons_of_mem _ hentry)) (cons.inj hkept).2]

theorem insert_ok (h : t.insert name payload false = .ok (t', old)) :
    find? t.entries (Text.fold name) = none ∧
      t' = { t with entries := insertSorted (Text.fold name) payload t.entries } := by
  rw [insert, accept] at h
  split at h
  case h_1 => cases h
  case h_2 folded haccept =>
    have hfolded : folded = Text.fold name := by
      split at haccept
      · cases haccept
      · split at haccept
        · cases haccept
        · exact (Except.ok.inj haccept).symm
    subst hfolded
    split at h
    case h_1 hnone =>
      cases h
      exact ⟨hnone, rfl⟩
    case h_2 => cases h

theorem remove_insert {name' : String} (hname : Text.fold name' = Text.fold name)
    (h : t.insert name payload false = .ok (t', old)) : t'.remove name' = t := by
  obtain ⟨hnew, rfl⟩ := insert_ok h
  rw [remove, hname]
  rw [filter_insertSorted payload hnew]

theorem mem_insert (h : t.insert name payload false = .ok (t', old)) (entry : String × α) :
    entry ∈ t'.entries ↔ entry = (Text.fold name, payload) ∨ entry ∈ t.entries := by
  obtain ⟨-, rfl⟩ := insert_ok h
  exact mem_insertSorted

theorem mem_remove (entry : String × α) :
    entry ∈ (t.remove name).entries ↔ entry ∈ t.entries ∧ entry.1 ≠ Text.fold name := by
  simp [remove]

def Distinct (t : NameTable α) : Prop := (t.entries.map Prod.fst).Nodup

theorem Distinct.insert (ht : t.Distinct) (h : t.insert name payload false = .ok (t', old)) :
    t'.Distinct := by
  obtain ⟨hnew, rfl⟩ := insert_ok h
  rw [find?_eq_none] at hnew
  rw [Distinct] at ht ⊢
  generalize t.entries = entries at ht hnew
  induction entries with
  | nil => simp [insertSorted]
  | cons first rest ih =>
    rw [insertSorted]
    rw [map_cons, nodup_cons] at ht
    split
    · rw [map_cons, nodup_cons]
      refine ⟨fun hmem => ?_, by rw [map_cons, nodup_cons]; exact ht⟩
      obtain ⟨entry, hentry, heq⟩ := mem_map.1 hmem
      exact hnew entry hentry heq
    · rw [map_cons, nodup_cons]
      refine ⟨fun hmem => ?_, ih ht.2 fun entry hentry => hnew entry (mem_cons_of_mem _ hentry)⟩
      obtain ⟨entry, hentry, heq⟩ := mem_map.1 hmem
      obtain rfl | hentry := mem_insertSorted.1 hentry
      · exact hnew first mem_cons_self heq.symm
      · exact ht.1 (mem_map.2 ⟨entry, hentry, heq⟩)

theorem Distinct.remove (ht : t.Distinct) (name : String) : (t.remove name).Distinct :=
  Sublist.nodup (Sublist.map Prod.fst filter_sublist) ht

end NameTable

end ArrayCommand
