/-
What a statement that fails has written.

An assignment checks its target, its subscripts, its right side and the number of values before it
writes anything, and a whole variable is exchanged in one step.  A section is written element by
element: an element that cannot be converted ends the assignment, and the elements before it stay.
A command hands back its variables one after another in the same way.

* `Cell.BrokenOff` — elements written up to one that was refused;
* `Control.assign_error` — what an assignment that fails leaves;
* `Control.HandedBack` — the variables of the first arguments are handed back, and no others;
* `Control.command_hands_back` — what a command leaves, whether it succeeds or fails.
-/

import ArrayCommand.Proofs.Frame
import ArrayCommand.Proofs.Storage
import ArrayCommand.Proofs.Simulation
import ArrayCommand.Session

namespace ArrayCommand

open List Evaluate
open scoped Cabinet

variable {c target new rhs stored : Cell} {fault : Fault} {place base index pc' : Nat}
  {value : Scalar} {result : Except Fault Unit} {var : Handle} {m : Machine} {v : Variable}
  {view : View} {w w' : Memory} {cells : List Cell}

/-- A session in which some statements were made. -/
def Session.after (fuel : Nat) (lines : List String) : Session :=
  lines.foldl (fun s line => (Session.statement fuel line s).2) (.initial {} [])

/-! ### Elements one after another -/

namespace Cell

variable {writes : List (Nat × Scalar)} {c' : Cell}

/-- Elements of a cell were exchanged one after another up to one that was refused. -/
def BrokenOff (c : Cell) (writes : List (Nat × Scalar)) (fault : Fault) (c' : Cell) : Prop :=
  ∃ done place value rest, writes = done ++ (place, value) :: rest ∧
    c.setAll done = (.ok (), c') ∧ c'.set place value = .error fault

theorem setAll_error (h : c.setAll writes = (.error fault, c')) : c.BrokenOff writes fault c' := by
  induction writes generalizing c with
  | nil => cases h
  | cons write writes ih =>
    obtain ⟨place, value⟩ := write
    rw [setAll] at h
    split at h
    · rename_i c₁ hset
      obtain ⟨done, place', value', rest, rfl, hdone, hrefused⟩ := ih h
      refine ⟨(place, value) :: done, place', value', rest, rfl, ?_, hrefused⟩
      rw [setAll, hset]
      exact hdone
    · rename_i hset
      cases h
      exact ⟨[], place, value, writes, rfl, rfl, hset⟩

theorem set_ok (h : c.set place value = .ok c') : place < c.size ∧
    ∃ s, value.convert c.type = .ok s ∧ c' = { c with data := c.data.put place s } := by
  rw [set] at h
  split at h
  case isFalse => cases h
  case isTrue hplace =>
    obtain ⟨s, hs, rfl⟩ := map_eq_ok.1 h
    exact ⟨hplace, s, hs, rfl⟩

theorem set_frame (h : c.set place value = .ok c') :
    c'.type = c.type ∧ c'.shape = c.shape ∧ c'.owner = c.owner := by
  obtain ⟨-, s, -, rfl⟩ := set_ok h
  exact ⟨Data.type_put _ _ _, rfl, rfl⟩

theorem setAll_frame (h : c.setAll writes = (result, c')) :
    c'.type = c.type ∧ c'.shape = c.shape ∧ c'.owner = c.owner := by
  induction writes generalizing c with
  | nil => cases h; exact ⟨rfl, rfl, rfl⟩
  | cons write writes ih =>
    rw [setAll] at h
    split at h
    · rename_i c₁ hset
      obtain ⟨htype, hshape, howner⟩ := set_frame hset
      obtain ⟨htype', hshape', howner'⟩ := ih h
      exact ⟨htype'.trans htype, hshape'.trans hshape, howner'.trans howner⟩
    · cases h
      exact ⟨rfl, rfl, rfl⟩

theorem BrokenOff.frame (h : c.BrokenOff writes fault c') :
    c'.type = c.type ∧ c'.shape = c.shape ∧ c'.owner = c.owner := by
  obtain ⟨_, _, _, _, -, hdone, -⟩ := h
  exact setAll_frame hdone

end Cell

namespace Control

open Machine

variable {code : Array Node} {fuel pc count : Nat}
  {failure : Failure} {m' : Machine} {pairs : List (Handle × Cell)}
  {refs : List (Option Handle)}

/-! ### Assignments -/

theorem moves_rightSide (code : Array Node) (fuel count pc : Nat) (type : ElementType)
    (fill : Shape) : Moves evaluation (rightSide code fuel count pc type fill) :=
  (compatible_evaluation code).rightSide (.inl rfl) count pc type fill

/-- The elements that an assignment to a section writes, in the order in which it does. -/
def sectionWrites (view : View) (rhs : Cell) : List (Nat × Scalar) :=
  (view.shape.indices.map view.offset).zip
    (if rhs.size = 1 then List.replicate view.shape.size (rhs.data.toList.headD (.integer 0))
      else rhs.data.toList)

theorem store_frame (h : store view rhs target = (result, stored)) :
    stored.type = target.type ∧ stored.shape = target.shape ∧ stored.owner = target.owner := by
  rw [store] at h
  split at h
  · cases h
    exact ⟨rfl, rfl, rfl⟩
  · exact Cell.setAll_frame h

theorem store_error (h : store view rhs target = (.error fault, stored)) :
    stored = target ∨ target.BrokenOff (sectionWrites view rhs) fault stored := by
  rw [store] at h
  split at h
  · cases h
    exact .inl rfl
  · exact .inr (Cell.setAll_error h)

/-- An assignment to a section broke off at an element that was refused.  The elements before it
are written, and so the workspace has changed. -/
inductive BreaksOff (code : Array Node) (fuel pc : Nat) (var : Handle) (count : Nat) (m : Machine) :
    Option (List Axis) → Failure → Workspace → Prop
  | intro {axes : List Axis} {target rhs stored : Cell} {view : View} {fault : Fault}
      {pc₁ pc₂ : Nat} {m₁ m₂ : Machine}
      (target_eq : m.workspace.memory.value var = .ok target)
      (writable : target.owner.isWritable)
      (section_eq : Evaluate.sectionWith (Evaluate.expression code fuel) code (pc + 1)
        target.shape axes m = .ok (view, pc₁) m₁)
      (right_eq : rightSide code fuel count pc₁ target.type view.shape m₁ = .ok (rhs, pc₂) m₂)
      (broken : target.BrokenOff (sectionWrites view rhs) fault stored)
      (frame : stored.type = target.type ∧ stored.shape = target.shape ∧
        stored.owner = target.owner) :
      BreaksOff code fuel pc var count m (some axes) (.fault fault)
        { m.workspace with memory := m.workspace.memory.update var stored }

/-- An assignment to a whole variable exchanges it in one step, after everything that can fail. -/
theorem whole_error (h : (do
      let (rhs, pc) ← rightSide code fuel count (pc + 1) target.type target.shape
      update var (← check ((← valueOf var).assign rhs))
      return pc : MachineM Nat) m = .error failure m') : m'.workspace = m.workspace := by
  rw [bind_eq_error] at h
  obtain h | ⟨⟨rhs, pc⟩, m₁, hright, h⟩ := h
  · exact (moves_rightSide code fuel count _ _ _).error h
  have hm₁ : m₁.workspace = m.workspace := ((moves_rightSide code fuel count _ _ _).ok hright).1
  rw [bind_eq_error] at h
  obtain h | ⟨cell, m₂, hcell, h⟩ := h
  · exact ((moves_valueOf var).error h : evaluation.error _ _).trans hm₁
  obtain ⟨-, rfl⟩ := valueOf_eq_ok.mp hcell
  rw [bind_eq_error] at h
  obtain h | ⟨value, m₃, -, h⟩ := h
  · exact ((moves_check _).error h : evaluation.error _ _).trans hm₁
  · cases h

theorem section_error {axes : List Axis} (htarget : m.workspace.memory.value var = .ok target)
    (hwritable : target.owner.isWritable) (h : (do
      let (view, pc) ←
        sectionWith (expression code fuel) code (pc + 1) target.shape axes
      let (rhs, pc) ← rightSide code fuel count pc target.type view.shape
      let (result, value) := store view rhs (← valueOf var)
      update var value
      check result
      return pc : MachineM Nat) m = .error failure m') :
    m'.workspace = m.workspace ∨
      BreaksOff code fuel pc var count m (some axes) failure m'.workspace := by
  rw [bind_eq_error] at h
  obtain h | ⟨⟨view, pc₁⟩, m₁, hsection, h⟩ := h
  · exact .inl ((moves_sectionWith code fuel _ _ _).error h)
  obtain ⟨hm₁, -⟩ := (moves_sectionWith code fuel _ _ _).ok hsection
  rw [bind_eq_error] at h
  obtain h | ⟨⟨rhs, pc₂⟩, m₂, hright, h⟩ := h
  · exact .inl (((moves_rightSide code fuel count _ _ _).error h).trans hm₁)
  have hm₂ : m₂.workspace = m.workspace :=
    ((moves_rightSide code fuel count _ _ _).ok hright).1.trans hm₁
  -- Evaluation has not touched the target.
  have hvalue : valueOf var m₂ = .ok target m₂ := valueOf_eq_ok.mpr ⟨hm₂ ▸ htarget, rfl⟩
  dsimp only at h
  rw [bind_ok hvalue] at h
  rcases hstore : store view rhs target with ⟨result, stored⟩
  rw [hstore] at h
  rw [update, modify_bind_apply, bind_eq_error] at h
  obtain h | ⟨_, _, -, h⟩ := h
  · obtain ⟨fault, rfl, rfl, rfl⟩ := check_eq_error.mp h
    rw [hm₂]
    obtain rfl | hbroken := store_error hstore
    · rw [Memory.update_value htarget]
      exact .inl rfl
    · exact .inr (.intro htarget hwritable hsection hright hbroken hbroken.frame)
  · cases h

/-- What an assignment that fails leaves.  As a rule every variable is as it was before; but an
assignment to a section with an element that cannot be stored has written the elements before that
one, and nothing else. -/
theorem assign_error {code : Array Node} {fuel pc : Nat} {var : Handle}
    {axes : Option (List Axis)} {count : Nat} {failure : Failure} {m m' : Machine}
    (h : assign code fuel pc var axes count m = .error failure m') :
    m'.workspace = m.workspace ∨ BreaksOff code fuel pc var count m axes failure m'.workspace := by
  rw [assign, bind_eq_error] at h
  obtain h | ⟨target, m₁, htarget, h⟩ := h
  · exact .inl ((moves_valueOf (F := evaluation) var).error h)
  obtain ⟨htarget, rfl⟩ := valueOf_eq_ok.mp htarget
  by_cases hwritable : target.owner.isWritable
  · rw [if_neg (by simp [hwritable])] at h
    cases axes with
    | none => exact .inl (whole_error h)
    | some axes => exact section_error htarget hwritable h
  · rw [if_pos (by simp [hwritable]), get_bind_apply] at h
    rw [bind_eq_error] at h
    obtain h | ⟨v, m₁, hv, h⟩ := h
    · exact .inl ((moves_check (F := evaluation) _).error h)
    · cases h
      exact .inl ((moves_check (F := evaluation) _).ok hv).1

/-- A machine with two integers `v` and two floats `f`, the second of which is no integer. -/
def beforeCopy : Machine :=
  let memory := (Memory.empty.insert "v" (.fresh .integer (.vector 2) .declared)).1
  let memory := (memory.insert "f" ⟨.float #[1, 1e30], .vector 2, .declared⟩).1
  { workspace := { Workspace.bare 8 with memory }
    values := { title := "VALUE STACK", limit := 8 }
    run := { title := "RUN STACK", limit := 8 } }

/-- The nodes of `v(:) = f`. -/
def copyNodes : Array Node :=
  #[.assign ⟨0, 0⟩ (some [.all]) 1, .expr ⟨2, 1, .float, .value⟩, .array 0 ⟨1, 0⟩ 0, .operand 0]

set_option maxRecDepth 20000 in
theorem assign_error_copy :
    ∃ failure m', assign copyNodes 9 0 ⟨0, 0⟩ (some [.all]) 1 beforeCopy = .error failure m' ∧
      BreaksOff copyNodes 9 0 ⟨0, 0⟩ 1 beforeCopy (some [.all]) failure m'.workspace := by
  have hchanged : (match assign copyNodes 9 0 ⟨0, 0⟩ (some [.all]) 1 beforeCopy with
      | .ok _ _ => false
      | .error _ m' => ((m'.workspace.memory.get? ⟨0, 0⟩).map fun v => v.value.print) !=
          ((beforeCopy.workspace.memory.get? ⟨0, 0⟩).map fun v => v.value.print)) = true := by
    decide
  generalize hresult : assign copyNodes 9 0 ⟨0, 0⟩ (some [.all]) 1 beforeCopy = result at hchanged
  cases result with
  | ok pc m' => cases hchanged
  | error failure m' =>
    refine ⟨failure, m', rfl, (assign_error hresult).resolve_left fun heq => ?_⟩
    simp [heq] at hchanged

/-- The elements before the one that is no integer are written. -/
theorem copy_breaks_off :
    let s := Session.after 60 ["integer v(3)", "float f(3)", "f = 1, 2, 1e30"]
    (s.value? "v").map Cell.print = some "0 0 0" ∧
      (Session.statement 60 "v(:) = f" s).1.isOk = false ∧
      ((Session.statement 60 "v(:) = f" s).2.value? "v").map Cell.print = some "1 2 0" := by
  decide +kernel

/-! ### Commands -/

/-- The variables that expressions pass by reference, from an address on. -/
def references (code : Array Node) : (count pc : Nat) → List (Option Handle)
  | 0, _ => []
  | count + 1, pc =>
    reference? code pc ::
      match code[pc]? with
      | some (.expr header) => references code count (behind pc header.length)
      | _ => []

/-- The variables among the arguments, with the cells that a function left for them. -/
def passed : List (Option Handle) → List Cell → List (Handle × Cell)
  | some var :: references, cell :: cells => (var, cell) :: passed references cells
  | none :: references, _ :: cells => passed references cells
  | _, _ => []

/-- The cell of a variable that is handed back another one: the same unless the two differ, and
otherwise the elements of the other one in the type of the variable.  The owner stays. -/
def Takes (old new c : Cell) : Prop :=
  if old.same new then c = old
  else
    old.owner.isWritable ∧ ∃ converted, new.convert old.type = .ok converted ∧
      c = ⟨converted.data, converted.shape, old.owner⟩

/-- A variable cannot be handed back a cell: it may not be written, or an element does not fit. -/
def Refuses (old new : Cell) (failure : Failure) : Prop :=
  old.same new = false ∧
    ((old.owner.isWritable = false ∧ ∃ detail, failure = .fault (.because .readOnly detail)) ∨
      (old.owner.isWritable ∧ ∃ fault, new.convert old.type = .error fault ∧
        failure = .fault fault))

/-- Some variables are handed back cells, and no other variable has changed. -/
structure HandedBack (pairs : List (Handle × Cell)) (w w' : Memory) : Prop where
  held : ∀ var new, (var, new) ∈ pairs →
    ∃ v c, w.get? var = some v ∧ Takes v.value new c ∧ w'.get? var = some { v with value := c }
  others : ∀ var, var ∉ pairs.map Prod.fst → w'.get? var = w.get? var

namespace HandedBack

theorem nil (w : Memory) : HandedBack [] w w := ⟨by simp, fun _ _ => rfl⟩

theorem cons (hvar : w.get? var = some v) (htakes : Takes v.value new c)
    (hnew : var ∉ pairs.map Prod.fst) (h : HandedBack pairs (w.update var c) w') :
    HandedBack ((var, new) :: pairs) w w' where
  held := by
    intro var' new' hmem
    rw [mem_cons] at hmem
    obtain hmem | hmem := hmem
    · cases hmem
      refine ⟨v, c, hvar, htakes, ?_⟩
      rw [h.others var hnew, Memory.get?_update, if_pos rfl, hvar]
      rfl
    · have hne : var' ≠ var := by
        rintro rfl
        exact hnew (mem_map_of_mem (f := Prod.fst) hmem)
      obtain ⟨v', c', hget, htakes', hheld⟩ := h.held var' new' hmem
      rw [Memory.get?_update, if_neg hne] at hget
      exact ⟨v', c', hget, htakes', hheld⟩
  others := by
    intro var' hout
    rw [map_cons, mem_cons, not_or] at hout
    rw [h.others var' hout.2, Memory.get?_update, if_neg hout.1]

end HandedBack

/-- Handing back went up to a variable that refused its cell. -/
def StopsAt (pairs : List (Handle × Cell)) (w w' : Memory) (failure : Failure) : Prop :=
  ∃ done var new rest v, pairs = done ++ (var, new) :: rest ∧ HandedBack done w w' ∧
    w.get? var = some v ∧ Refuses v.value new failure

theorem StopsAt.cons (hvar : w.get? var = some v) (htakes : Takes v.value new c)
    (hnew : var ∉ pairs.map Prod.fst) (h : StopsAt pairs (w.update var c) w' failure) :
    StopsAt ((var, new) :: pairs) w w' failure := by
  obtain ⟨done, var', new', rest, v', rfl, hdone, hget, hrefuses⟩ := h
  rw [map_append, mem_append, map_cons, mem_cons] at hnew
  obtain ⟨hdone', hne, -⟩ := (not_or.mp hnew).imp_right not_or.mp
  rw [Memory.get?_update, if_neg (Ne.symm hne)] at hget
  exact ⟨(var, new) :: done, var', new', rest, v', rfl, hdone.cons hvar htakes hdone', hget,
    hrefuses⟩

/-- What handing back leaves, whether it succeeds or fails. -/
def HandsBack (pairs : List (Handle × Cell)) (w : Workspace) :
    Machine.Result Unit → Prop
  | .ok _ m' => m'.workspace = { w with memory := m'.workspace.memory } ∧
      HandedBack pairs w.memory m'.workspace.memory
  | .error failure m' => m'.workspace = { w with memory := m'.workspace.memory } ∧
      StopsAt pairs w.memory m'.workspace.memory failure

theorem HandsBack.cons {w : Workspace} {r : Machine.Result Unit} (hvar : w.memory.get? var = some v)
    (htakes : Takes v.value new c) (hnew : var ∉ pairs.map Prod.fst)
    (h : HandsBack pairs { w with memory := w.memory.update var c } r) :
    HandsBack ((var, new) :: pairs) w r := by
  cases r with
  | ok _ m' => exact ⟨h.1, h.2.cons hvar htakes hnew⟩
  | error failure m' => exact ⟨h.1, h.2.cons hvar htakes hnew⟩

theorem HandsBack.refused (hvar : m.workspace.memory.get? var = some v)
    (hrefuses : Refuses v.value new failure) :
    HandsBack ((var, new) :: pairs) m.workspace (.error failure m) :=
  ⟨rfl, [], var, new, pairs, v, rfl, .nil _, hvar, hrefuses⟩

theorem writeBack_some (f : Function)
    (refs : List (Option Handle)) (hnew : m.values.items[base + index]? = some new)
    (hvar : m.workspace.memory.get? var = some v) :
    writeBack f base index (some var :: refs) m =
      if v.value.same new then writeBack f base (index + 1) refs m
      else if v.value.owner.isWritable then
        match v.value.assign new with
        | .ok c => writeBack f base (index + 1) refs
            { m with workspace := { m.workspace with memory := m.workspace.memory.update var c } }
        | .error fault => .error (.fault fault) m
      else
        .error (.fault (.because .readOnly
          (Text.upper ("ARGUMENT " ++ toString (index + 1) ++ " OF " ++ f.name)))) m := by
  have hvalue : valueOf var m = .ok v.value m :=
    valueOf_eq_ok.mpr ⟨Memory.value_eq_ok.mpr ⟨v, hvar, rfl⟩, rfl⟩
  rw [writeBack, get_bind_apply, hnew]
  dsimp only
  rw [bind_ok hvalue]
  by_cases hsame : v.value.same new
  · rw [if_neg (by simp [hsame]), if_pos hsame]
  rw [if_pos (by simp [hsame]), if_neg hsame]
  by_cases hwritable : v.value.owner.isWritable
  · rw [if_neg (by simp [hwritable]), if_pos hwritable]
    cases hassign : v.value.assign new with
    | ok c => rfl
    | error fault => rfl
  · rw [if_pos (by simp [hwritable]), if_neg hwritable]
    rfl

theorem mem_of_mem_passed (h : var ∈ (passed refs cells).map Prod.fst) : some var ∈ refs := by
  induction refs generalizing cells with
  | nil => simp [passed] at h
  | cons reference refs ih =>
    cases cells with
    | nil => simp [passed] at h
    | cons cell cells =>
      cases reference with
      | none => exact mem_cons_of_mem _ (ih h)
      | some var' =>
        rw [passed, map_cons, mem_cons] at h
        obtain rfl | h := h
        · exact mem_cons_self
        · exact mem_cons_of_mem _ (ih h)

/-- The cells are handed back one after another, up to one that is refused.  The induction is on the
arguments; the cells are on the stack, which handing back does not touch. -/
theorem handsBack_writeBack (f : Function) (hlength : refs.length = cells.length)
    (hcells : ∀ i, m.values.items[base + (index + i)]? = cells[i]?)
    (hlive : ∀ var, some var ∈ refs → ∃ v, m.workspace.memory.get? var = some v)
    (hdistinct : (refs.filterMap id).Nodup) :
    HandsBack (passed refs cells) m.workspace (writeBack f base index refs m) := by
  induction refs generalizing index cells m with
  | nil => exact ⟨rfl, .nil _⟩
  | cons reference refs ih =>
    obtain _ | ⟨new, cells⟩ := cells
    · cases hlength
    have hlength' : refs.length = cells.length := Nat.succ.inj hlength
    have hrest : ∀ i, m.values.items[base + (index + 1 + i)]? = cells[i]? := by
      intro i
      rw [Nat.add_assoc index, Nat.add_comm 1 i, hcells, getElem?_cons_succ]
    have hlive' : ∀ var, some var ∈ refs → ∃ v, m.workspace.memory.get? var = some v :=
      fun var h => hlive var (mem_cons_of_mem _ h)
    cases reference with
    | none =>
      exact ih hlength' hrest hlive' hdistinct
    | some var =>
      obtain ⟨v, hvar⟩ := hlive var mem_cons_self
      rw [filterMap_cons_some (by rfl), nodup_cons] at hdistinct
      have hnew : var ∉ (passed refs cells).map Prod.fst := fun h =>
        hdistinct.1 (mem_filterMap.mpr ⟨some var, mem_of_mem_passed h, rfl⟩)
      rw [writeBack_some f refs (by simpa using hcells 0) hvar, passed]
      split
      case isTrue hsame =>
        have htakes : Takes v.value new v.value := by rw [Takes, if_pos hsame]
        refine .cons hvar htakes hnew ?_
        rw [Memory.update_value (Memory.value_eq_ok.mpr ⟨v, hvar, rfl⟩)]
        exact ih hlength' hrest hlive' hdistinct.2
      case isFalse hsame =>
        split
        case isTrue hwritable =>
          rw [Cell.assign]
          cases hconvert : new.convert v.value.type with
          | error fault =>
            exact .refused hvar ⟨by simpa using hsame, .inr ⟨hwritable, fault, hconvert, rfl⟩⟩
          | ok converted =>
            refine .cons hvar ?_ hnew (ih hlength' hrest ?_ hdistinct.2)
            · rw [Takes, if_neg hsame]
              exact ⟨hwritable, converted, hconvert, rfl⟩
            · intro var' hmem
              obtain ⟨v', hget⟩ := hlive' var' hmem
              rw [Memory.get?_update, hget]
              split
              · rw [hvar]
                exact ⟨_, rfl⟩
              · exact ⟨_, rfl⟩
        case isFalse hwritable =>
          exact .refused hvar ⟨by simpa using hsame, .inl ⟨by simpa using hwritable, _, rfl⟩⟩

theorem leads_arguments (code : Array Node) (fuel : Nat) (f : Function) (count index pc : Nat) :
    Leads (Pushed count) evaluation.error (arguments code fuel f count index pc) := by
  induction count generalizing index pc with
  | zero => exact ⟨fun m => .zero m⟩
  | succ count ih =>
    refine .bind (moves_nested code fuel pc none) (fun first => ?_) Pushed.after
      evaluation.trans_error
    refine .bind (moves_check _) (fun _ => ?_) Pushed.after evaluation.trans_error
    refine .bind (leads_push _) (fun _ => ?_) (fun h h' => Nat.add_comm count 1 ▸ h.trans h')
      Pushed.trans_error
    exact .bind (ih _ _) (fun _ => (.pure _ : Moves evaluation _)) Pushed.before Pushed.trans_error

theorem header_of_nested {fill : Option Shape} {cell : Cell}
    (h : nested code fuel pc fill m = .ok (cell, pc') m') :
    ∃ header, code[pc]? = some (.expr header) ∧ pc' = behind pc header.length ∧
      ∀ var, header.access = .reference var → ∃ v, m.workspace.memory.get? var = some v := by
  rw [nested, nestedWith, bind_eq_ok] at h
  obtain ⟨length, m₁, hlength, h⟩ := h
  obtain ⟨value, m₂, hvalue, h⟩ := bind_eq_ok.mp h
  cases h
  obtain ⟨header, hheader, rfl, rfl⟩ := lengthAt_eq_ok hlength
  refine ⟨header, hheader, rfl, fun var haccess => ?_⟩
  cases fuel with
  | zero => cases hvalue
  | succ fuel =>
    simp only [expression, hheader, haccess] at hvalue
    obtain ⟨c, _, hc, -⟩ := bind_eq_ok.mp hvalue
    obtain ⟨v, hget, -⟩ := Memory.value_eq_ok.mp (valueOf_eq_ok.mp hc).1
    exact ⟨v, hget⟩

/-- The variables that the arguments of a command pass by reference can be read off the nodes, and
they are there. -/
theorem references_of_arguments {f : Function}
    (h : arguments code fuel f count index pc m = .ok (refs, pc') m') :
    refs = references code count pc ∧ refs.length = count ∧
      ∀ var, some var ∈ refs → ∃ v, m.workspace.memory.get? var = some v := by
  induction count generalizing index pc refs pc' m with
  | zero =>
    cases h
    exact ⟨rfl, rfl, by simp⟩
  | succ count ih =>
    rw [arguments, bind_eq_ok] at h
    obtain ⟨⟨cell, pc₁⟩, m₁, hcell, h⟩ := h
    obtain ⟨_, m₂, hrank, h⟩ := bind_eq_ok.mp h
    obtain ⟨_, m₃, hpush, h⟩ := bind_eq_ok.mp h
    obtain ⟨⟨rest, pc₂⟩, m₄, hrest, h⟩ := bind_eq_ok.mp h
    cases h
    obtain ⟨header, hheader, rfl, hlive⟩ := header_of_nested hcell
    obtain ⟨hrefs, hcount, hlive'⟩ := ih hrest
    have hm₃ : m₃.workspace = m.workspace :=
      ((leads_push cell).ok hpush).1.trans (((moves_check _).ok hrank : evaluation.ok _ _).1.trans
        ((moves_nested code fuel pc none).ok hcell).1)
    refine ⟨?_, by rw [length_cons, hcount], fun var hmem => ?_⟩
    · rw [references, hheader, hrefs]
    · rw [mem_cons] at hmem
      obtain hvar | hmem := hmem
      · rw [reference?, hheader] at hvar
        dsimp only at hvar
        split at hvar
        case h_1 haccess =>
          cases hvar
          exact hlive var haccess
        case h_2 => cases hvar
      · exact hm₃ ▸ hlive' var hmem

/-- The function of the command at a node comes back with these cells.  It was called with the cells
that the arguments of the command evaluate to, and with the host that their evaluation leaves. -/
def ComesBack (code : Array Node) (fuel pc func argc : Nat) (m : Machine) (cells : List Cell) :
    Prop :=
  ∃ f refs pc' m₁ args c, m.workspace.functions[func]? = some f ∧
    arguments code fuel f argc 0 (pc + 1) m = .ok (refs, pc') m₁ ∧
    m₁.values.tail argc = .ok args ∧ f.native ⟨m₁.host, args, resultCell f⟩ = .ok () c ∧
    cells = c.args.toList

/-- Handing back behind a call: the stack then holds the final cells where the arguments were. -/
theorem handsBack_final (f : Function) (host : Host) {cells : Array Cell}
    (hpushed : Pushed count m m') (hcells : cells.size = count) (hcount : refs.length = count)
    (hlive : ∀ var, some var ∈ refs → ∃ v, m.workspace.memory.get? var = some v)
    (hdistinct : (refs.filterMap id).Nodup) :
    HandsBack (passed refs cells.toList) m.workspace
      (writeBack f m.values.size 0 refs
        { m' with host, values := m'.values.replaceTail cells }) := by
  have hitems := hpushed.replaceTail hcells
  rw [← hpushed.1]
  refine handsBack_writeBack f ?_ ?_ (hpushed.1 ▸ hlive) hdistinct
  · rw [hcount, Array.length_toList, hcells]
  · intro i
    rw [hitems, Stack.size, Nat.zero_add, Array.getElem?_append_right (Nat.le_add_right _ _),
      Nat.add_sub_cancel_left, Array.getElem?_toList]

/-- What a command leaves whose arguments by reference are different variables.  If it succeeds,
these variables hold the final cells of the function, and no other variable has changed.  If it
fails, no variable has changed, unless the function had come back: the variables are then handed
back in the order of the arguments up to the one that refuses its cell. -/
theorem command_hands_back {code : Array Node} {fuel pc func argc : Nat} {m : Machine}
    (hkeeps : ∀ f, m.workspace.functions[func]? = some f → f.KeepsCount)
    (hdistinct : ((references code argc (pc + 1)).filterMap id).Nodup) :
    match command code fuel pc func argc m with
    | .ok _ m' => m'.workspace = { m.workspace with memory := m'.workspace.memory } ∧
        ∃ cells, ComesBack code fuel pc func argc m cells ∧
          HandedBack (passed (references code argc (pc + 1)) cells) m.workspace.memory
            m'.workspace.memory
    | .error failure m' => m'.workspace = { m.workspace with memory := m'.workspace.memory } ∧
        (m'.workspace = m.workspace ∨ ∃ cells, ComesBack code fuel pc func argc m cells ∧
          StopsAt (passed (references code argc (pc + 1)) cells) m.workspace.memory
            m'.workspace.memory failure) := by
  have unchanged : ∀ {m' : Machine}, m'.workspace = m.workspace →
      m'.workspace = { m.workspace with memory := m'.workspace.memory } := fun h => by rw [h]
  rw [command]
  rcases hf : functionOf func m with ⟨f, m₁⟩ | ⟨failure, m₁⟩
  case error =>
    have hm₁ : evaluation.error m m₁ := (moves_functionOf func).error hf
    rw [bind_error hf]
    exact ⟨unchanged hm₁, .inl hm₁⟩
  rw [bind_ok hf, get_bind_apply]
  obtain ⟨hf, rfl⟩ := functionOf_eq_ok hf
  rcases hargs : arguments code fuel f argc 0 (pc + 1) m₁ with ⟨⟨refs, pc'⟩, m₂⟩ | ⟨failure, m₂⟩
  case error =>
    have hm₂ : evaluation.error m₁ m₂ := (leads_arguments code fuel f argc 0 _).error hargs
    rw [bind_error hargs]
    exact ⟨unchanged hm₂, .inl hm₂⟩
  have hpushed : Pushed argc m₁ m₂ := (leads_arguments code fuel f argc 0 _).ok hargs
  obtain ⟨args, hsize, htail⟩ := hpushed.tail
  obtain ⟨hrefs, hcount, hlive⟩ := references_of_arguments hargs
  have hinvoke := invoke_eq f args (resultCell f) m₂
  rw [bind_ok hargs]
  dsimp only
  rw [get_bind_apply, bind_ok (check_eq_ok.mpr ⟨htail, rfl⟩)]
  cases hnative : f.native ⟨m₂.host, args, resultCell f⟩ with
  | error fault c =>
    rw [hnative] at hinvoke
    rw [bind_ok hinvoke]
    exact ⟨unchanged hpushed.1, .inl hpushed.1⟩
  | ok u c =>
    rw [hnative] at hinvoke
    rw [bind_ok hinvoke]
    dsimp only
    rw [modify_bind_apply]
    have hkept : c.args.size = argc :=
      (hkeeps f hf _ _ _ hnative).trans hsize
    have hback := handsBack_final f c.host hpushed hkept hcount hlive (hrefs ▸ hdistinct)
    rcases hwrite : writeBack f m₁.values.size 0 refs
        { m₂ with host := c.host, values := m₂.values.replaceTail c.args } with ⟨u, m₃⟩ | ⟨failure, m₃⟩
    · rw [hwrite] at hback
      rw [bind_ok hwrite]
      exact ⟨hback.1, _, ⟨f, refs, pc', m₂, args, c, hf, hargs, htail, hnative, rfl⟩, hrefs ▸ hback.2⟩
    · rw [hwrite] at hback
      rw [bind_error hwrite]
      exact ⟨hback.1, .inr ⟨_, ⟨f, refs, pc', m₂, args, c, hf, hargs, htail, hnative, rfl⟩,
        hrefs ▸ hback.2⟩⟩

theorem keepsCount_swap (name : String) (args : List ArgDecl) :
    (Function.command name args Core.swap).KeepsCount := by
  intro c u c' h
  change Core.swap c = .ok u c' at h
  rw [Core.swap, get_bind_apply] at h
  match hargs : c.args.toList, h with
  | [a, b], h =>
    have hsize : c.args.size = 2 := by rw [← Array.length_toList, hargs]; rfl
    dsimp only at h
    split at h
    · cases h
      exact hsize.symm
    · cases h

/-- A machine with a variable, a constant and the function that exchanges two cells. -/
def beforeSwap : Machine :=
  let memory := (Memory.empty.insert "e" (.scalar (.integer 2))).1
  let memory := (memory.insert "k" ((Cell.scalar (.integer 3)).owned .parameter)).1
  let swap := Function.command "swap" [Core.anyVariable, Core.anyVariable] Core.swap
  { workspace := { Workspace.bare 8 with memory, functions := #[swap] }
    values := { title := "VALUE STACK", limit := 8 }
    run := { title := "RUN STACK", limit := 8 } }

/-- The nodes of `swap e, k`. -/
def swapNodes : Array Node :=
  #[.command 0 2, .expr ⟨0, 0, .integer, .reference ⟨0, 0⟩⟩,
    .expr ⟨0, 0, .integer, .reference ⟨1, 0⟩⟩]

theorem command_hands_back_swap :
    ∃ failure m', command swapNodes 9 0 0 2 beforeSwap = .error failure m' ∧
      ∃ cells, ComesBack swapNodes 9 0 0 2 beforeSwap cells ∧
        StopsAt (passed (references swapNodes 2 1) cells) beforeSwap.workspace.memory
          m'.workspace.memory failure := by
  have hkeeps : ∀ f, beforeSwap.workspace.functions[0]? = some f → f.KeepsCount := by
    rintro f ⟨⟩
    exact keepsCount_swap _ _
  have hback := @command_hands_back swapNodes 9 0 0 2 beforeSwap hkeeps (by decide)
  have hchanged : (match command swapNodes 9 0 0 2 beforeSwap with
      | .ok _ _ => false
      | .error _ m' => ((m'.workspace.memory.get? ⟨0, 0⟩).map fun v => v.value.print) !=
          ((beforeSwap.workspace.memory.get? ⟨0, 0⟩).map fun v => v.value.print)) = true := by
    decide
  generalize command swapNodes 9 0 0 2 beforeSwap = result at hback hchanged
  cases result with
  | ok pc m' => cases hchanged
  | error failure m' =>
    refine ⟨failure, m', rfl, hback.2.resolve_left fun heq => ?_⟩
    simp [heq] at hchanged

/-- The first variable has the value of the second one, which cannot be written. -/
theorem swap_stops_halfway :
    let s := Session.after 60 ["e = 2.0"]
    (s.value? "e").map Cell.print = some "2" ∧
      (Session.statement 60 "swap e, pi" s).1.isOk = false ∧
      ((Session.statement 60 "swap e, pi" s).2.value? "e").map Cell.print =
        (s.value? "pi").map Cell.print ∧
      (s.value? "pi").map Cell.print ≠ some "2" := by
  decide +kernel

end Control

end ArrayCommand
