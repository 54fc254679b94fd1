/-
Minimum match against what it stands for.

A table is searched from the place where the query itself would stand, and on from there as long as
the query begins the names.  That finds all names the query begins, because they stand next to each
other in a sorted table, and it finds the query first if it is a name.  So every table that operations
have made answers as the finite map they define.

* `NameTable.window_eq_filter` — the names a query begins are next to each other;
* `NameTable.Means` — a sorted table that holds a finite map, which every operation keeps up;
* `NameTable.lookup_answers` — **what a query stands for after any operations**.
-/

import ArrayCommand.Proofs.Storage
import Mathlib.Data.String.Basic

namespace ArrayCommand

open List

namespace NameTable

variable {α : Type} {t : NameTable α} {entries : List (String × α)} {query name : String}
  {payload : α} {first : String × α} {rest : List (String × α)}

/-! ### The names a query begins -/

theorem not_lt_of_begins (h : begins query name) : ¬name < query := by
  rw [begins, isPrefixOf_iff_prefix] at h
  rw [String.lt_iff_toList_lt]
  obtain ⟨rest, hrest⟩ := h
  rw [← hrest]
  generalize query.toList = q
  induction q with
  | nil => exact not_lt_nil _
  | cons c q ih => simpa [cons_lt_cons_iff] using ih

theorem begins_of_between {between : String} (hquery : ¬between < query) (hname : between < name)
    (h : begins query name) : begins query between := by
  rw [begins, isPrefixOf_iff_prefix] at h ⊢
  rw [String.lt_iff_toList_lt] at hquery hname
  revert h hname hquery
  generalize query.toList = q
  generalize between.toList = b
  generalize name.toList = n
  induction q generalizing b n with
  | nil => exact fun _ _ _ => nil_prefix
  | cons c q ih =>
    rintro hquery hname ⟨rest, rfl⟩
    cases b with
    | nil => exact absurd (nil_lt_cons c q) hquery
    | cons d b =>
      rw [cons_lt_cons_iff, not_or, not_and] at hquery
      rw [cons_append, cons_lt_cons_iff] at hname
      -- the first characters are the same one, as neither stands before the other
      obtain hlt | ⟨rfl, hlt⟩ := hname
      · exact absurd hlt hquery.1
      · exact cons_prefix_cons.2 ⟨rfl, ih b _ (hquery.2 rfl) hlt ⟨rest, rfl⟩⟩

def Sorted (entries : List (String × α)) : Prop := entries.Pairwise fun a b => a.1 < b.1

theorem takeWhile_begins (hsorted : Sorted entries) (hfrom : ∀ entry ∈ entries, ¬entry.1 < query) :
    (entries.takeWhile fun entry => begins query entry.1) =
      entries.filter fun entry => begins query entry.1 := by
  induction entries with
  | nil => rfl
  | cons entry rest ih =>
    obtain ⟨hfirst, hrest⟩ := pairwise_cons.1 hsorted
    by_cases h : begins query entry.1
    · rw [takeWhile_cons, if_pos h, filter_cons, if_pos h,
        ih hrest fun e he => hfrom e (mem_cons_of_mem _ he)]
    · rw [takeWhile_cons, if_neg h, filter_cons, if_neg h, eq_comm, filter_eq_nil_iff]
      exact fun e he hbegins =>
        h (begins_of_between (hfrom entry mem_cons_self) (hfirst e he) hbegins)

theorem window_eq_filter (hsorted : Sorted t.entries) (query : String) :
    t.window query = t.entries.filter fun entry => begins query entry.1 := by
  rw [window, before]
  generalize t.entries = entries at hsorted
  induction entries with
  | nil => rfl
  | cons entry rest ih =>
    obtain ⟨hfirst, hrest⟩ := pairwise_cons.1 hsorted
    by_cases h : entry.1 < query
    · have hnot : ¬begins query entry.1 := fun hbegins => not_lt_of_begins hbegins h
      rw [takeWhile_cons_of_pos (by simpa using h), length_cons, drop_succ_cons,
        ih hrest, filter_cons, if_neg hnot]
    · rw [takeWhile_cons_of_neg (by simpa using h), length_nil, drop_zero]
      refine takeWhile_begins hsorted fun e he hlt => ?_
      obtain rfl | he := mem_cons.1 he
      · exact h hlt
      · exact h ((hfirst e he).trans hlt)

/-- The window starts at the place that its entries are counted from. -/
theorem getElem?_before
    (h : t.window query = first :: rest) : t.entries[t.before query]? = some first := by
  rw [window] at h
  have hdrop : (t.entries.drop (t.before query)).head? = some first := by
    cases hlist : t.entries.drop (t.before query) with
    | nil => simp [hlist] at h
    | cons entry others =>
      rw [hlist, takeWhile_cons] at h
      split at h
      · exact congrArg some (cons.inj h).1
      · cases h
  rwa [head?_drop] at hdrop

/-! ### Tables as finite maps -/

/-- A sorted table of legal names that holds a map. -/
structure Means (t : NameTable α) (map : String → Option α) : Prop where
  sorted : Sorted t.entries
  mem_iff : ∀ name payload, (name, payload) ∈ t.entries ↔ map name = some payload
  legal : ∀ entry ∈ t.entries, isLegal entry.1

variable {map : String → Option α}

theorem Means.find?_eq (h : t.Means map) (name : String) : find? t.entries name = map name := by
  rw [find?]
  cases hfind : t.entries.find? fun entry => entry.1 == name with
  | none =>
    rw [List.find?_eq_none] at hfind
    cases hmap : map name with
    | none => rfl
    | some payload => exact absurd (beq_self_eq_true name) (hfind _ ((h.mem_iff name payload).2 hmap))
  | some entry =>
    have hname : entry.1 = name := by simpa using List.find?_some hfind
    exact ((h.mem_iff name entry.2).1 (hname ▸ List.mem_of_find?_eq_some hfind)).symm

theorem sorted_insertSorted (hsorted : Sorted entries) (hnew : find? entries name = none) :
    Sorted (insertSorted name payload entries) := by
  rw [find?_eq_none] at hnew
  induction entries with
  | nil => exact pairwise_singleton _ _
  | cons entry rest ih =>
    obtain ⟨hfirst, hrest⟩ := pairwise_cons.1 hsorted
    rw [insertSorted]
    split
    case isTrue h =>
      refine pairwise_cons.2 ⟨fun e he => ?_, hsorted⟩
      obtain rfl | he := mem_cons.1 he
      · exact h
      · exact h.trans (hfirst e he)
    case isFalse h =>
      refine pairwise_cons.2 ⟨fun e he => ?_, ih hrest fun e he => hnew e (.tail _ he)⟩
      obtain rfl | he := mem_insertSorted.1 he
      · exact lt_of_le_of_ne (not_lt.1 h) (hnew entry mem_cons_self)
      · exact hfirst e he

theorem sorted_replace (hsorted : Sorted entries) : Sorted (replace name payload entries) := by
  refine pairwise_map.2 (hsorted.imp fun {a b} hlt => ?_)
  have hfst (entry : String × α) : (if entry.1 == name then (name, payload) else entry).1 = entry.1 := by
    split
    case isTrue h => exact (beq_iff_eq.1 h).symm
    case isFalse => rfl
  rwa [hfst, hfst]

/-- The operations that change a table. -/
inductive Op (α : Type) where
  | insert (name : String) (payload : α) (replacing : Bool)
  | remove (name : String)
  | clear

/-- The table after an operation.  One that is refused changes nothing. -/
def Op.apply (t : NameTable α) : Op α → NameTable α
  | insert name payload replacing =>
    match t.insert name payload replacing with
    | .ok (t', _) => t'
    | .error _ => t
  | remove name => t.remove name
  | clear => t.clear

/-- The finite map after an operation: a name is taken in if it is legal and not too long, and if
there is none like it or that one is replaced. -/
def Op.define (maxLength : Nat) (map : String → Option α) : Op α → String → Option α
  | insert name payload replacing =>
    let folded := Text.fold name
    if isLegal folded && folded.length ≤ maxLength && (replacing || (map folded).isNone) then
      Function.update map folded (some payload)
    else map
  | remove name => Function.update map (Text.fold name) none
  | clear => fun _ => none

theorem Means.insertSorted (h : t.Means map) (hlegal : isLegal name) (hnew : map name = none) :
    Means { t with entries := insertSorted name payload t.entries }
      (Function.update map name (some payload)) := by
  refine ⟨sorted_insertSorted h.sorted ((h.find?_eq name).trans hnew), fun n p => ?_, fun e he => ?_⟩
  · rw [mem_insertSorted, h.mem_iff, Function.update_apply]
    split
    case isTrue heq => simp [heq, hnew, eq_comm]
    case isFalse hne => simp [hne]
  · obtain rfl | he := mem_insertSorted.1 he
    · exact hlegal
    · exact h.legal e he

theorem Means.replace {old : α} (h : t.Means map) (hlegal : isLegal name) (hold : map name = some old) :
    Means { t with entries := replace name payload t.entries }
      (Function.update map name (some payload)) := by
  refine ⟨sorted_replace h.sorted, fun n p => ?_, fun e he => ?_⟩
  · rw [Function.update_apply, NameTable.replace, mem_map]
    split
    case isTrue heq =>
      subst heq
      refine ⟨?_, fun hp => ⟨(n, old), (h.mem_iff n old).2 hold, by simpa using hp⟩⟩
      rintro ⟨e, -, heq⟩
      split at heq
      case isTrue => simpa using heq
      case isFalse hne => exact absurd (by simp [heq]) hne
    case isFalse hne =>
      refine ⟨?_, fun hp => ⟨(n, p), (h.mem_iff n p).2 hp, if_neg (by simpa using hne)⟩⟩
      rintro ⟨e, he, heq⟩
      split at heq
      case isTrue => exact absurd (congrArg Prod.fst heq).symm hne
      case isFalse => exact (h.mem_iff n p).1 (heq ▸ he)
  · obtain ⟨first, hfirst, rfl⟩ := mem_map.1 he
    split
    · exact hlegal
    · exact h.legal first hfirst

/-- A name is taken in where the map takes it in, and refused where that does not change. -/
theorem Means.insert (h : t.Means map) (name : String) (payload : α) (replacing : Bool) :
    ((Op.insert name payload replacing).apply t).Means
      ((Op.insert name payload replacing).define t.maxLength map) := by
  unfold Op.apply Op.define
  dsimp only
  rw [NameTable.insert, accept]
  generalize Text.fold name = folded
  by_cases hlegal : isLegal folded
  case neg => simpa [hlegal] using h
  by_cases hlong : t.maxLength < folded.length
  case pos => simpa [hlegal, hlong, Nat.not_le_of_lt hlong] using h
  have hlength : folded.length ≤ t.maxLength := Nat.le_of_not_lt hlong
  cases hmap : map folded with
  | none => simpa [hlegal, hlong, hlength, h.find?_eq, hmap] using h.insertSorted hlegal hmap
  | some old =>
    cases replacing with
    | false => simpa [hlegal, hlong, h.find?_eq, hmap] using h
    | true => simpa [hlegal, hlong, hlength, h.find?_eq, hmap] using h.replace hlegal hmap

theorem Means.apply (h : t.Means map) (op : Op α) :
    (op.apply t).Means (op.define t.maxLength map) := by
  cases op with
  | insert name payload replacing => exact h.insert name payload replacing
  | remove name =>
    refine ⟨h.sorted.sublist filter_sublist, fun n p => ?_, fun e he => ?_⟩
    · change _ ∈ (t.remove name).entries ↔ Function.update map (Text.fold name) none n = some p
      rw [mem_remove, h.mem_iff, Function.update_apply]
      split
      case isTrue heq => simp [heq]
      case isFalse hne => simp [hne]
    · exact h.legal e (mem_of_mem_filter he)
  | clear =>
    refine ⟨Pairwise.nil, fun n p => iff_of_false not_mem_nil ?_, fun e he => ?_⟩
    · rintro ⟨⟩
    · exact absurd he not_mem_nil

theorem Op.apply_fixed (t : NameTable α) (op : Op α) :
    (op.apply t).maxLength = t.maxLength ∧ (op.apply t).resolver = t.resolver := by
  cases op with
  | insert name payload replacing =>
    unfold Op.apply
    dsimp only
    rw [NameTable.insert]
    split
    case h_1 t' old h =>
      split at h
      · cases h
      · split at h
        · cases h
          exact ⟨rfl, rfl⟩
        · split at h <;> cases h
          exact ⟨rfl, rfl⟩
    case h_2 => exact ⟨rfl, rfl⟩
  | remove | clear => exact ⟨rfl, rfl⟩

theorem resolver_foldl (ops : List (Op α)) (t : NameTable α) :
    (ops.foldl Op.apply t).resolver = t.resolver := by
  induction ops generalizing t with
  | nil => rfl
  | cons op ops ih => exact (ih _).trans (op.apply_fixed t).2

theorem Means.foldl (ops : List (Op α)) (h : t.Means map) :
    (ops.foldl Op.apply t).Means (ops.foldl (Op.define t.maxLength) map) := by
  induction ops generalizing t map with
  | nil => exact h
  | cons op ops ih =>
    rw [foldl_cons, foldl_cons, ← (op.apply_fixed t).1]
    exact ih ((op.apply_fixed t).1 ▸ h.apply op)

/-! ### What a query stands for -/

/-- The answer to a query: the name it spells out, else the only name that it begins, else the one
that is picked from several. -/
def answer (query : String) (exact : Option α) (begun : List (String × α))
    (picked : Option (String × α)) : Except Cause (String × α) :=
  if !isLegal query then .error .illegalCharacter
  else match exact, begun with
    | some payload, _ => .ok (query, payload)
    | none, [] => .error .undefinedName
    | none, [entry] => .ok entry
    | none, _ :: _ :: _ => picked.elim (.error .ambiguousName) .ok

theorem Means.first_eq (h : t.Means map) (hwindow : t.window query = first :: rest)
    (hmap : map query = some payload) : first = (query, payload) := by
  rw [window_eq_filter h.sorted] at hwindow
  have hsorted : Sorted (first :: rest) := hwindow ▸ h.sorted.sublist filter_sublist
  have hfirst : first ∈ t.entries.filter fun entry => begins query entry.1 := by simp [hwindow]
  have hmem : (query, payload) ∈ first :: rest := by
    rw [← hwindow, mem_filter]
    exact ⟨(h.mem_iff query payload).2 hmap, by simp [begins]⟩
  obtain heq | hrest := mem_cons.1 hmem
  · exact heq.symm
  · exact absurd ((pairwise_cons.1 hsorted).1 _ hrest) (not_lt_of_begins (mem_filter.1 hfirst).2)

theorem Means.lookup_eq (h : t.Means map) (name : String) :
    (t.lookup name).mapError Fault.cause =
      answer (Text.fold name) (map (Text.fold name)) (t.window (Text.fold name))
        (t.pick? name (t.window (Text.fold name))) := by
  rw [lookup, classify, answer.eq_def]
  by_cases hlegal : isLegal (Text.fold name)
  case neg => simp [hlegal, Except.mapError, Fault.because]
  rw [if_neg (by simp [hlegal]), if_neg (by simp [hlegal])]
  cases hwindow : t.window (Text.fold name) with
  | nil =>
    cases hmap : map (Text.fold name) with
    | none => rfl
    | some payload =>
      rw [window_eq_filter h.sorted, filter_eq_nil_iff] at hwindow
      exact absurd (by simp [begins]) (hwindow _ ((h.mem_iff _ _).2 hmap))
  | cons first rest =>
    have hentry := getElem?_before hwindow
    cases hmap : map (Text.fold name) with
    | some payload =>
      have hfirst := h.first_eq hwindow hmap
      simp [hentry, hfirst, Except.mapError]
    | none =>
      have hne : first.1 ≠ Text.fold name := by
        intro heq
        have hmem : first ∈ t.entries := mem_of_getElem? hentry
        have := (h.mem_iff first.1 first.2).1 hmem
        rw [heq, hmap] at this
        cases this
      cases rest with
      | nil => simp [hentry, Except.mapError]
      | cons second others =>
        dsimp only
        rw [if_neg (by simp [hne])]
        cases t.pick? name (first :: second :: others) <;> rfl

/-! ### Preferred functions -/

theorem getElem?_filter_range {β : Type} (p : β → Bool) (list : List β) :
    (((range list.length).filter fun index => (list[index]?).any p).map fun index =>
      list[index]?) = (list.filter p).map some := by
  induction list with
  | nil => rfl
  | cons b list ih =>
    rw [length_cons, range_succ_eq_map, filter_cons, filter_map, filter_cons]
    cases h : p b <;> simpa [h, Function.comp_def] using ih

theorem preferFunction_eq_some {window : List (String × Entry)} {index : Nat} :
    preferFunction name window = some index ↔ ((range window.length).filter fun index =>
      (window[index]?).any fun entry => entry.2.isPreferred) = [index] := by
  rw [preferFunction]
  split
  case h_1 only honly =>
    rw [(filter_congr fun i _ => by cases window[i]? <;> rfl).trans honly]
    simp
  case h_2 hnot =>
    refine ⟨by simp, fun h => ?_⟩
    exact (hnot index ((filter_congr fun i _ => by cases window[i]? <;> rfl).trans h)).elim

/-- Of several entries the only preferred function is picked. -/
theorem pick?_prefer {t : NameTable Entry} (h : t.resolver = some preferFunction) (name : String)
    (window : List (String × Entry)) (entry : String × Entry) :
    t.pick? name window = some entry ↔
      (window.filter fun entry => entry.2.isPreferred) = [entry] := by
  have hpicks := getElem?_filter_range (fun entry : String × Entry => entry.2.isPreferred) window
  have hpick : t.pick? name window = some entry ↔
      ∃ index, preferFunction name window = some index ∧ window[index]? = some entry := by
    simp [pick?, h, Option.bind_eq_some_iff]
  rw [hpick]
  constructor
  · rintro ⟨index, hindex, hentry⟩
    rw [preferFunction_eq_some.1 hindex, map_singleton, hentry] at hpicks
    obtain ⟨e, honly, he⟩ := map_eq_singleton_iff.1 hpicks.symm
    rw [honly, Option.some.inj he]
  · intro honly
    rw [honly, map_singleton] at hpicks
    obtain ⟨index, hindex, hentry⟩ := map_eq_singleton_iff.1 hpicks
    exact ⟨index, preferFunction_eq_some.2 hindex, hentry⟩

/-- After any operations the names stand in strictly increasing order, the table is the map that the
operations define, a text is answered with exactly the entries it begins, and a query stands for the
name it spells out, else for the only name it begins, else for the one that the resolver picks: none
without a resolver, and in a table that prefers functions the only preferred function. -/
theorem lookup_answers (maxLength : Nat)
    (resolver : Option (String → List (String × α) → Option Nat)) (ops : List (Op α)) :
    let t : NameTable α := ops.foldl Op.apply { maxLength, resolver }
    let map := ops.foldl (Op.define maxLength) fun _ => none
    let begun (text : String) := t.entries.filter fun entry => begins (Text.fold text) entry.1
    (t.entries.Pairwise fun a b => a.1 < b.1) ∧ (∀ entry ∈ t.entries, isLegal entry.1) ∧
    (∀ name payload, (name, payload) ∈ t.entries ↔ map name = some payload) ∧
    (∀ name, t.get? name = map (Text.fold name)) ∧
    (∀ text, t.beginning text = begun text) ∧
    (∀ name, (t.lookup name).mapError Fault.cause =
      answer (Text.fold name) (map (Text.fold name)) (begun name) (t.pick? name (begun name))) ∧
    t.resolver = resolver ∧
    (∀ name window, resolver = none → t.pick? name window = none) ∧
    ∀ (defined : List (Op Entry)) (name : String) (window : List (String × Entry))
      (entry : String × Entry),
      let names : NameTable Entry :=
        defined.foldl Op.apply { maxLength, resolver := some preferFunction }
      names.pick? name window = some entry ↔
        (window.filter fun entry => entry.2.isPreferred) = [entry] := by
  intro t map begun
  have hmeans : t.Means map := by
    refine Means.foldl (t := { maxLength, resolver }) ops ⟨List.Pairwise.nil, ?_, ?_⟩ <;> simp
  have hresolver : t.resolver = resolver := resolver_foldl ops _
  refine ⟨hmeans.sorted, hmeans.legal, hmeans.mem_iff, fun name => hmeans.find?_eq _,
    fun text => window_eq_filter hmeans.sorted _, fun name => ?_, hresolver,
    fun name window hnone => ?_,
    fun defined name window entry => pick?_prefer (resolver_foldl defined _) name window entry⟩
  · rw [hmeans.lookup_eq, window_eq_filter hmeans.sorted]
  · rw [pick?, hresolver, hnone]
    rfl

/-- Of the three names that `p` begins, the only preferred function is meant. -/
theorem lookup_answers_preferred :
    let ops : List (Op Entry) := [.insert "Print" (.func 0 true) false,
      .insert "plot" (.func 1 false) false, .insert "pi" (.var ⟨0, 0⟩) false,
      .insert "print" (.func 2 true) false]
    let names : NameTable Entry := ops.foldl Op.apply { maxLength := 6, resolver := some preferFunction }
    let window : List (String × Entry) :=
      [("pi", .var ⟨0, 0⟩), ("plot", .func 1 false), ("print", .func 0 true)]
    names.beginning "P" = window ∧
      (names.lookup "P").mapError Fault.cause = .ok ("print", .func 0 true) := by
  intro ops names window
  obtain ⟨_, _, _, _, hbeginning, hlookup, _, _, hprefer⟩ :=
    lookup_answers 6 (some preferFunction) ops
  have hbegun : (names.entries.filter fun entry => begins (Text.fold "P") entry.1) = window := by
    decide +kernel
  have hpick : names.pick? "P" window = some ("print", .func 0 true) :=
    (hprefer ops "P" window _).2 rfl
  have hexact : ops.foldl (Op.define 6) (fun _ => none) (Text.fold "P") = none := by decide +kernel
  refine ⟨(hbeginning "P").trans hbegun, (hlookup "P").trans ?_⟩
  dsimp only
  rw [hbegun, hpick, hexact]
  decide +kernel

end NameTable

end ArrayCommand
