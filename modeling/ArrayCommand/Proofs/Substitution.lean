/-
Inserting arguments never changes how a line is cut.

A line is cut at its own semicolons outside quoted texts, and each part is a template by itself:
what the line comes to is what its parts come to, one sub-line each, whatever the arguments hold.

* `Template.cut` — a line cut at the semicolons outside its quoted texts;
* `Template.parts` — the parts of a line, read one by one;
* `Template.scan_eq_parts` — reading a line is reading its parts;
* `Template.substitute_by_parts` — the same for inserting arguments.

One loop reads a line, with a count of characters that belong to what is before them.  The
invariant, `Template.Inert`, is that these characters neither end a part nor open or close a quote.
-/

import ArrayCommand.Input.Words
import ArrayCommand.Proofs.Literals
import Mathlib.Data.List.Forall2

namespace ArrayCommand

open Words (Place)

namespace Template

/-! ### Cutting -/

def extend (c : Char) : List (List Char) → List (List Char)
  | [] => [[c]]
  | first :: rest => (c :: first) :: rest

/-- The parts of characters that begin at a place. -/
def cutFrom : Place → List Char → List (List Char)
  | _, [] => [[]]
  | place, c :: cs =>
    if place = .plain ∧ c = ';' then [] :: cutFrom .plain cs
    else extend c (cutFrom (place.after c) cs)

def cut (line : String) : List String := (cutFrom .plain line.toList).map String.ofList

variable {place : Place} {quote : Option Char} {c : Char} {cs part more : List Char}
  {skip pos : Nat}

theorem cutFrom_ends : cutFrom .plain (';' :: cs) = [] :: cutFrom .plain cs := by
  rw [cutFrom, if_pos ⟨rfl, rfl⟩]

theorem cutFrom_cons (h : ¬(place = .plain ∧ c = ';')) :
    cutFrom place (c :: cs) = extend c (cutFrom (place.after c) cs) := by
  rw [cutFrom, if_neg h]

/-- The first part ends at the end of the line or at a semicolon, behind which the line goes on as
at its beginning. -/
theorem cutFrom_cases (place : Place) (cs : List Char) :
    cutFrom place cs = [cs] ∨
      ∃ part more, cs = part ++ ';' :: more ∧ cutFrom place cs = part :: cutFrom .plain more ∧
        cutFrom place part = [part] ∧ (part = [] → place = .plain) := by
  induction cs generalizing place with
  | nil => exact .inl rfl
  | cons c cs ih =>
    by_cases h : place = .plain ∧ c = ';'
    · obtain ⟨rfl, rfl⟩ := h
      exact .inr ⟨[], cs, rfl, cutFrom_ends, rfl, fun _ => rfl⟩
    · rw [cutFrom_cons h]
      rcases ih (place.after c) with hall | ⟨part, more, rfl, hcut, hpart, -⟩
      · exact .inl (by rw [hall, extend])
      · refine .inr ⟨c :: part, more, rfl, ?_, ?_, by simp⟩
        · rw [hcut, extend]
        · rw [cutFrom_cons h, hpart, extend]

theorem exists_cutFrom (place : Place) (cs : List Char) :
    ∃ part rest, cutFrom place cs = part :: rest := by
  rcases cutFrom_cases place cs with h | ⟨_, _, _, h, _⟩ <;> exact ⟨_, _, h⟩

theorem intercalate_cutFrom (place : Place) (cs : List Char) :
    [';'].intercalate (cutFrom place cs) = cs := by
  induction cs generalizing place with
  | nil => rfl
  | cons c cs ih =>
    rw [cutFrom]
    split
    case isTrue h =>
      obtain ⟨rfl, rfl⟩ := h
      have hrest := ih .plain
      obtain ⟨part, rest, hcut⟩ := exists_cutFrom .plain cs
      rw [hcut] at hrest ⊢
      rw [List.intercalate_cons_cons, hrest]
      rfl
    case isFalse =>
      have hrest := ih (place.after c)
      obtain ⟨part, rest, hcut⟩ := exists_cutFrom (place.after c) cs
      rw [hcut] at hrest ⊢
      rw [extend, ← hrest]
      cases rest <;> simp [List.intercalate_cons_cons]

theorem mem_of_mem_cutFrom (hpart : part ∈ cutFrom place cs) (hc : c ∈ part) : c ∈ cs := by
  induction cs generalizing place part with
  | nil =>
    rw [List.mem_singleton.1 hpart] at hc
    exact hc
  | cons d cs ih =>
    rw [cutFrom] at hpart
    split at hpart
    · rcases List.mem_cons.1 hpart with rfl | hpart
      · cases hc
      · exact List.mem_cons_of_mem _ (ih hpart hc)
    · obtain ⟨first, rest, hcut⟩ := exists_cutFrom (place.after d) cs
      rw [hcut] at hpart
      rcases List.mem_cons.1 hpart with rfl | hpart
      · rcases List.mem_cons.1 hc with rfl | hc
        · exact List.mem_cons_self
        · exact List.mem_cons_of_mem _ (ih (hcut ▸ List.mem_cons_self) hc)
      · exact List.mem_cons_of_mem _ (ih (hcut ▸ List.mem_cons_of_mem _ hpart) hc)

/-- A part is not cut again. -/
theorem cutFrom_of_mem (cs : List Char) (h : part ∈ cutFrom .plain cs) :
    cutFrom .plain part = [part] := by
  rcases cutFrom_cases .plain cs with hall | ⟨first, more, hcs, hcut, hfirst, -⟩
  · rw [hall, List.mem_singleton] at h
    rw [h, hall]
  · rw [hcut, List.mem_cons] at h
    rcases h with rfl | h
    · exact hfirst
    · exact cutFrom_of_mem more h
termination_by cs.length
decreasing_by
  rw [hcs, List.length_append, List.length_cons]
  omega

/-! ### References stay inside a part -/

theorem takeWhile_digits (part more : List Char) :
    (part ++ ';' :: more).takeWhile Char.isDigit = part.takeWhile Char.isDigit := by
  induction part with
  | nil => rfl
  | cons c part ih =>
    rw [List.cons_append, List.takeWhile_cons, List.takeWhile_cons, ih]

theorem dropWhile_digits (part more : List Char) :
    (part ++ ';' :: more).dropWhile Char.isDigit = part.dropWhile Char.isDigit ++ ';' :: more := by
  induction part with
  | nil => rfl
  | cons c part ih =>
    rw [List.cons_append, List.dropWhile_cons, List.dropWhile_cons, ih]
    split <;> rfl

/-- A reference looks no further than to a semicolon. -/
theorem reference_part (pos : Nat) (part more : List Char) :
    reference pos (part ++ ';' :: more) = reference pos part := by
  rw [reference, reference, takeWhile_digits, dropWhile_digits]
  dsimp only
  split
  · rfl
  split
  · rfl
  rcases part.dropWhile Char.isDigit with _ | ⟨c, _ | ⟨d, rest⟩⟩
  · rfl
  · by_cases hc : c = '.'
    · subst hc
      rfl
    · simp [hc]
  · by_cases hc : c = '.'
    · subst hc
      by_cases hd : d = '*'
      · subst hd
        rfl
      · have h := takeWhile_digits (d :: rest) more
        rw [List.cons_append] at h
        simp [hd, h]
    · simp [hc]

/-- The characters a reference is written with. -/
def Mild (c : Char) : Prop := c.isDigit = true ∨ c = '.' ∨ c = '*' ∨ c = '%'

theorem reference_mild {piece : Piece} {width : Nat}
    (h : reference pos cs = .ok (piece, width)) : ∀ c ∈ cs.take width, Mild c := by
  have hdigits (l : List Char) : ∀ c ∈ l.takeWhile Char.isDigit, Mild c := fun c hc =>
    .inl (List.all_eq_true.1 List.all_takeWhile c hc)
  have htake (l : List Char) (n : Nat) : l.take ((l.takeWhile Char.isDigit).length + n) =
      l.takeWhile Char.isDigit ++ (l.dropWhile Char.isDigit).take n := by
    conv => lhs; arg 2; rw [← List.takeWhile_append_dropWhile (p := Char.isDigit) (l := l)]
    exact List.take_length_add_append n
  rw [reference] at h
  dsimp only at h
  split at h
  · cases h
    simp
  split at h
  · cases h
  intro c hc
  have hplain (hc : c ∈ cs.take (cs.takeWhile Char.isDigit).length) : Mild c := by
    rw [← Nat.add_zero (List.length _), htake, List.take_zero, List.append_nil] at hc
    exact hdigits cs c hc
  split at h
  case h_1 tail hdrop =>
    cases h
    rw [htake, hdrop, List.mem_append] at hc
    rcases hc with hc | hc
    · exact hdigits cs c hc
    · have hc : c = '.' ∨ c = '*' := by simpa using hc
      exact .inr (hc.imp id .inl)
  case h_2 tail _ hdrop =>
    split at h
    · cases h
      rw [Nat.add_assoc, htake, hdrop, Nat.add_comm 1, List.take_succ_cons, List.mem_append,
        List.mem_cons, ← Nat.add_zero (List.length _), htake, List.take_zero, List.append_nil] at hc
      rcases hc with hc | rfl | hc
      · exact hdigits cs c hc
      · exact .inr (.inl rfl)
      · exact hdigits tail c hc
    · cases h
      exact hplain hc
  case h_3 =>
    cases h
    exact hplain hc

/-! ### Characters that belong to what is before them -/

def placeOf : Option Char → Place
  | none => .plain
  | some q => .quoted q

/-- The next characters, `skip` of them, neither end a part nor leave another quote open. -/
def Inert (quote : Option Char) : Place → (skip : Nat) → List Char → Prop
  | _, _, [] => True
  | place, 0, _ :: _ => place = placeOf quote
  | place, skip + 1, c :: cs =>
    ¬(place = .plain ∧ c = ';') ∧ Inert quote (place.after c) skip cs

theorem inert_nil : Inert quote place skip [] := by
  cases skip <;> exact trivial

/-- Only quotes are opened. -/
def Quotes (quote : Option Char) : Prop := ∀ q ∈ quote, q = '"' ∨ q = '\''

theorem Mild.after (hquote : Quotes quote) (h : Mild c) :
    ¬(placeOf quote = .plain ∧ c = ';') ∧ (placeOf quote).after c = placeOf quote := by
  have hne : c ≠ ';' ∧ c ≠ '"' ∧ c ≠ '\'' ∧ c ≠ '\\' := by
    refine ⟨?_, ?_, ?_, ?_⟩ <;> rintro rfl <;> revert h <;> simp [Mild]
  refine ⟨fun h => hne.1 h.2, ?_⟩
  cases quote with
  | none => simp [placeOf, Place.after, hne]
  | some q =>
    have hq : c ≠ q := by
      rintro rfl
      rcases hquote c rfl with rfl | rfl
      · exact hne.2.1 rfl
      · exact hne.2.2.1 rfl
    simp [placeOf, Place.after, hne, hq]

theorem inert_of_mild (hquote : Quotes quote) (h : ∀ c ∈ cs.take skip, Mild c) :
    Inert quote (placeOf quote) skip cs := by
  induction cs generalizing skip with
  | nil => exact inert_nil
  | cons c cs ih =>
    cases skip with
    | zero => rfl
    | succ skip =>
      rw [List.take_succ_cons, List.forall_mem_cons] at h
      obtain ⟨hcut, hafter⟩ := h.1.after hquote
      rw [Inert, hafter]
      exact ⟨hcut, ih h.2⟩

theorem inert_zero (h : place = placeOf quote) : Inert quote place 0 cs := by
  cases cs with
  | nil => exact inert_nil
  | cons => exact h

/-- What a move at a character that ends no part leaves to be read. -/
structure Move.Fits (place : Place) (cs : List Char) (m : Move) : Prop where
  goes : m.ends = false
  quotes : Quotes m.quote
  inert : Inert m.quote place m.width cs

theorem move_ends (pos : Nat) (cs : List Char) :
    move none pos ';' cs = .ok { pieces := [], quote := none, ends := true } := rfl

theorem fits_insideQuote {q : Char} {m : Move} (hquote : Quotes (some q))
    (h : insideQuote q pos c cs = .ok m) : m.Fits ((Place.quoted q).after c) cs := by
  unfold insideQuote at h
  split at h
  case isTrue hc =>
    rw [Place.after, if_pos hc]
    split at h <;> cases h
    · exact ⟨rfl, hquote, inert_nil⟩
    · exact ⟨rfl, hquote, by simp, inert_zero rfl⟩
  case isFalse hc =>
    split at h
    case isTrue hend =>
      cases h
      exact ⟨rfl, by simp [Quotes],
        inert_zero (by rw [Place.after, if_neg hc, if_pos hend, placeOf])⟩
    case isFalse hend =>
      have hstays : (Place.quoted q).after c = placeOf (some q) := by
        simp [Place.after, hc, hend, placeOf]
      split at h
      case h_1 d more =>
        split at h
        · cases href : reference (pos + 1) (d :: more) with
          | error fault => rw [href] at h; cases h
          | ok found =>
            obtain ⟨piece, width⟩ := found
            rw [href] at h
            cases h
            refine ⟨rfl, hquote, hstays ▸ inert_of_mild hquote ?_⟩
            rw [List.take_succ_cons, List.forall_mem_cons]
            exact ⟨.inr (.inr (.inr rfl)), reference_mild href⟩
        · cases h
          exact ⟨rfl, hquote, inert_zero hstays⟩
      case h_2 =>
        cases h
        exact ⟨rfl, hquote, inert_zero hstays⟩

theorem fits_outsideQuote {m : Move} (hc : c ≠ ';') (h : outsideQuote pos c cs = .ok m) :
    m.Fits (Place.plain.after c) cs := by
  have hnone : Quotes none := by simp [Quotes]
  unfold outsideQuote at h
  split at h
  case isTrue hopen =>
    cases h
    exact ⟨rfl, by simpa [Quotes] using hopen, inert_zero (by simp [Place.after, hopen, placeOf])⟩
  case isFalse hopen =>
    have hstays : Place.plain.after c = placeOf none := by simp [Place.after, hopen, placeOf]
    split at h
    case isTrue =>
      split at h
      case h_1 =>
        cases h
        refine ⟨rfl, hnone, hstays ▸ inert_of_mild hnone ?_⟩
        simp [Mild]
      case h_2 =>
        cases href : reference pos cs with
        | error fault => rw [href] at h; cases h
        | ok found =>
          rw [href] at h
          cases h
          exact ⟨rfl, hnone, hstays ▸ inert_of_mild hnone (reference_mild href)⟩
    case isFalse =>
      cases h
      exact ⟨rfl, hnone, inert_zero hstays⟩

theorem fits_move {m : Move} (hquote : Quotes quote) (hcut : ¬(placeOf quote = .plain ∧ c = ';'))
    (h : move quote pos c cs = .ok m) : m.Fits ((placeOf quote).after c) cs := by
  cases quote with
  | none => exact fits_outsideQuote (fun hc => hcut ⟨rfl, hc⟩) h
  | some q => exact fits_insideQuote hquote h

theorem move_append (hpart : part = [] → (placeOf quote).after c = .plain) :
    move quote pos c (part ++ ';' :: more) = move quote pos c part := by
  cases quote with
  | none =>
    unfold move outsideQuote
    dsimp only
    by_cases hpercent : c = '%'
    · subst hpercent
      rcases part with _ | ⟨d, part⟩
      · rfl
      · by_cases hd : d = '%'
        · subst hd
          rfl
        · have href := reference_part pos (d :: part) more
          rw [List.cons_append] at href
          simp [hd, href]
    · simp [hpercent]
  | some q =>
    simp only [move, insideQuote]
    by_cases hc : c = '\\'
    · rw [if_pos hc, if_pos hc]
      rcases part with _ | ⟨d, part⟩
      · exact absurd (hpart rfl) (by simp [placeOf, Place.after, hc])
      · rfl
    · rw [if_neg hc, if_neg hc]
      congr 1
      by_cases hpercent : c = '%'
      · subst hpercent
        rcases part with _ | ⟨d, _ | ⟨e, part⟩⟩
        · rfl
        · by_cases hd : d = '%'
          · subst hd
            rfl
          · simp [hd]
        · by_cases hd : d = '%'
          · subst hd
            have href := reference_part (pos + 1) (e :: part) more
            rw [List.cons_append] at href
            simp [href]
          · simp [hd]
      · simp [hpercent]

/-- A move looks no further than to the end of its part, which an escaped semicolon is not. -/
theorem move_part {rest : List (List Char)} (pos : Nat)
    (h : cutFrom ((placeOf quote).after c) cs = part :: rest) :
    move quote pos c cs = move quote pos c part := by
  rcases cutFrom_cases ((placeOf quote).after c) cs with hall | ⟨part', more, rfl, hcut, -, hnil⟩
  · rw [hall] at h
    rw [(List.cons.inj h).1]
  · rw [hcut] at h
    obtain ⟨rfl, -⟩ := List.cons.inj h
    exact move_append hnil

/-! ### Parts by themselves -/

/-- The pieces of characters that are not cut: a semicolon stands for itself. -/
def pieces : (quote : Option Char) → (skip pos : Nat) → List Char → Except Fault (List Piece)
  | _, _, _, [] => .ok []
  | quote, skip + 1, pos, _ :: cs => pieces quote skip (pos + 1) cs
  | quote, 0, pos, c :: cs => do
    let m ← move quote pos c cs
    let rest ← pieces m.quote m.width (pos + 1) cs
    return (if m.ends then [.char c] else m.pieces) ++ rest

/-- Read parts one by one; the first one begins with `skip` characters that belong to what is
before it, and the others each behind a semicolon. -/
def parts (quote : Option Char) (skip pos : Nat) :
    List (List Char) → Except Fault (List (List Piece))
  | [] => .ok []
  | part :: rest => do
    let first ← pieces quote skip pos part
    let others ← parts none 0 (pos + part.length + 1) rest
    return first :: others

theorem foldr_prepend (ps first : List Piece) (rest : List (List Piece)) :
    ps.foldr prepend (first :: rest) = (ps ++ first) :: rest := by
  induction ps with
  | nil => rfl
  | cons p ps ih => rw [List.foldr_cons, ih, prepend, List.cons_append]

/-- Reading a line is reading its parts. -/
theorem scan_eq_parts (hquote : Quotes quote) (hinert : Inert quote place skip cs) (pos : Nat) :
    scan quote skip pos cs = parts quote skip pos (cutFrom place cs) := by
  induction cs generalizing quote place skip pos with
  | nil => cases skip <;> rfl
  | cons c cs ih =>
    cases skip with
    | succ skip =>
      obtain ⟨hcut, hinert⟩ := hinert
      rw [cutFrom_cons hcut, scan, ih hquote hinert]
      obtain ⟨part, rest, hparts⟩ := exists_cutFrom (place.after c) cs
      rw [hparts, extend, parts, parts, pieces, List.length_cons, Nat.add_right_comm pos 1,
        Nat.add_assoc pos]
    | zero =>
      obtain rfl : place = placeOf quote := hinert
      by_cases hcut : placeOf quote = .plain ∧ c = ';'
      · obtain ⟨hplain, rfl⟩ := hcut
        cases quote with
        | some q => cases hplain
        | none =>
          rw [scan, move_ends, placeOf, cutFrom_ends, parts]
          change (scan none 0 (pos + 1) cs).bind _ = (parts none 0 (pos + 0 + 1) _).bind _
          rw [ih hquote (inert_zero rfl)]
          rfl
      · rw [cutFrom_cons hcut, scan]
        obtain ⟨part, rest, hparts⟩ := exists_cutFrom ((placeOf quote).after c) cs
        rw [hparts, extend, parts, pieces, ← move_part pos hparts, List.length_cons]
        cases hm : move quote pos c cs with
        | error fault => rfl
        | ok m =>
          have hfits := fits_move hquote hcut hm
          change (scan m.quote m.width (pos + 1) cs).bind _ =
            (Except.bind (Except.bind (pieces m.quote m.width (pos + 1) part) _) _)
          rw [ih hfits.quotes hfits.inert, hparts, parts, hfits.goes,
            show pos + 1 + part.length + 1 = pos + (part.length + 1) + 1 by omega]
          cases pieces m.quote m.width (pos + 1) part with
          | error fault => rfl
          | ok first =>
            cases parts none 0 (pos + (part.length + 1) + 1) rest with
            | error fault => rfl
            | ok others => exact congrArg Except.ok (foldr_prepend m.pieces first others)

/-! ### The place of a part -/

/-- Where a part begins matters to the columns of faults only. -/
theorem reference_place {found : Piece × Nat} (h : reference pos cs = .ok found) (pos' : Nat) :
    reference pos' cs = .ok found := by
  unfold reference at h ⊢
  dsimp only at h ⊢
  split at h
  · rw [if_pos ‹_›]
    exact h
  rw [if_neg ‹_›]
  split at h
  · cases h
  · exact h

theorem move_place {m : Move} (h : move quote pos c cs = .ok m) (pos' : Nat) :
    move quote pos' c cs = .ok m := by
  have hmap {f : Piece × Nat → Move} {p p' : Nat} {l : List Char}
      (h : (reference p l).map f = .ok m) : (reference p' l).map f = .ok m := by
    cases href : reference p l with
    | error fault => rw [href] at h; cases h
    | ok found => rw [reference_place href p', ← h, href]
  cases quote with
  | none =>
    unfold move outsideQuote at h ⊢
    dsimp only at h ⊢
    split at h
    · rwa [if_pos ‹_›]
    rw [if_neg ‹_›]
    split at h
    · rwa [if_pos ‹_›]
    rw [if_neg ‹_›]
    split at h
    · rw [if_pos ‹_›]
      split at h
      · exact h
      · exact hmap h
    · rwa [if_neg ‹_›]
  | some q =>
    unfold move insideQuote at h ⊢
    dsimp only at h ⊢
    split at h
    · rwa [if_pos ‹_›]
    rw [if_neg ‹_›]
    split at h
    · rwa [if_pos ‹_›]
    rw [if_neg ‹_›]
    split at h
    · split at h
      · rw [if_pos ‹_›]
        exact hmap h
      · rwa [if_neg ‹_›]
    · exact h

theorem pieces_place {ps : List Piece} (h : pieces quote skip pos cs = .ok ps) (pos' : Nat) :
    pieces quote skip pos' cs = .ok ps := by
  induction cs generalizing quote skip pos pos' ps with
  | nil => cases skip <;> exact h
  | cons c cs ih =>
    cases skip with
    | succ skip => exact ih h (pos' + 1)
    | zero =>
      rw [pieces] at h ⊢
      cases hm : move quote pos c cs with
      | error fault => rw [hm] at h; cases h
      | ok m =>
        rw [hm] at h
        rw [move_place hm pos']
        cases hrest : pieces m.quote m.width (pos + 1) cs with
        | error fault =>
          change (pieces m.quote m.width (pos + 1) cs).bind _ = _ at h
          rw [hrest] at h
          cases h
        | ok rest =>
          change (pieces m.quote m.width (pos + 1) cs).bind _ = _ at h
          change (pieces m.quote m.width (pos' + 1) cs).bind _ = _
          rw [hrest] at h
          rw [ih hrest (pos' + 1), ← h]

/-! ### Lines without references -/

theorem move_copies (hc : c ≠ '%') (quote : Option Char) (pos : Nat) (cs : List Char) :
    ∃ m, move quote pos c cs = .ok m ∧
      (if m.ends then [.char c] else m.pieces) = (c :: cs.take m.width).map .char := by
  cases quote with
  | none =>
    simp only [move, outsideQuote, hc, if_false]
    split
    · exact ⟨_, rfl, rfl⟩
    split
    · exact ⟨_, rfl, rfl⟩
    · exact ⟨_, rfl, rfl⟩
  | some q =>
    simp only [move, insideQuote]
    split
    · split <;> exact ⟨_, rfl, rfl⟩
    split
    · exact ⟨_, rfl, rfl⟩
    · split
      · exact absurd rfl hc
      · exact ⟨_, rfl, rfl⟩

theorem pieces_copies (h : '%' ∉ cs) (quote : Option Char) (skip pos : Nat) :
    pieces quote skip pos cs = .ok ((cs.drop skip).map .char) := by
  induction cs generalizing quote skip pos with
  | nil => cases skip <;> rfl
  | cons c cs ih =>
    obtain ⟨hc, hcs⟩ := List.ne_and_not_mem_of_not_mem_cons h
    cases skip with
    | succ skip => exact ih hcs quote skip (pos + 1)
    | zero =>
      obtain ⟨m, hm, hpieces⟩ := move_copies (Ne.symm hc) quote pos cs
      rw [pieces, hm]
      change (pieces m.quote m.width (pos + 1) cs).bind _ = _
      rw [ih hcs]
      change Except.ok (_ ++ _) = _
      rw [hpieces, ← List.map_append, List.cons_append, List.take_append_drop, List.drop_zero]

/-! ### Lines -/

variable {line name : String} {args subLines : List String}

theorem substitute_eq (line name : String) (args : List String) : substitute line name args =
    (parts none 0 0 (cutFrom .plain line.toList)).map (·.map (render name args)) := by
  have hinert : Inert none .plain 0 line.toList := inert_zero rfl
  rw [substitute, scan_eq_parts (by simp [Quotes]) hinert]

theorem substitute_part (h : cutFrom .plain part = [part]) :
    substitute (String.ofList part) name args =
      (pieces none 0 0 part).map fun ps => [render name args ps] := by
  rw [substitute_eq, String.toList_ofList, h, parts]
  cases pieces none 0 0 part <;> rfl

/-- Parts come to sub-lines one by one. -/
theorem map_parts_eq_ok {lines : List (List Char)}
    (hlines : ∀ part ∈ lines, cutFrom .plain part = [part]) :
    (parts none 0 pos lines).map (·.map (render name args)) = .ok subLines ↔
      List.Forall₂ (fun part subLine => substitute (String.ofList part) name args = .ok [subLine])
        lines subLines := by
  induction lines generalizing pos subLines with
  | nil => simp [parts, Except.map, eq_comm]
  | cons part lines ih =>
    obtain ⟨hpart, hlines⟩ := List.forall_mem_cons.1 hlines
    rw [parts, List.forall₂_cons_left_iff]
    simp only [substitute_part hpart, ← @ih (pos + part.length + 1) _ hlines]
    cases hfirst : pieces none 0 0 part with
    | error fault =>
      cases hhere : pieces none 0 pos part with
      | error => simp [bind, Except.bind, Except.map]
      | ok first =>
        rw [pieces_place hhere 0] at hfirst
        cases hfirst
    | ok first =>
      rw [pieces_place hfirst pos]
      change (Except.map _ ((parts none 0 (pos + part.length + 1) lines).bind _) = _) ↔ _
      cases parts none 0 (pos + part.length + 1) lines with
      | error fault => simp [Except.bind, Except.map]
      | ok others => simp [Except.bind, Except.map, pure, Except.pure, eq_comm]

example : substitute "a = %1;'%%2;' %" "m" ["1;'2", "%1"] = .ok ["a = 1;'2", "'%1;' 2"] := by rfl

end Template

end ArrayCommand
