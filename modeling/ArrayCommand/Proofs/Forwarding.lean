/-
Forwarding the arguments of a macro.

The words of an argument text, joined by single blanks, are the words of the text that comes out: a
word is never empty, holds no gap outside its quotes, and all but the last close the quotes that
they open.  So a macro hands on exactly the arguments it has been given when its body passes
`%1.*` to another macro.

* `Words.Separate` — words that can be joined and split again;
* `Words.separate_split` — the words of every text are of this kind;
* `Input.forwards_arguments` — forwarding, down to the call that the sub-line makes.

The call looks at the beginning of what it is given: white space before the first argument is
dropped, and a sub-line that goes on with a single equals sign is an assignment.  A first argument
that begins with one of these is not handed on (`Input.forwarding_changes`).
-/

import ArrayCommand.Input
import ArrayCommand.Proofs.Substitution

namespace ArrayCommand

namespace Words

variable {place : Place} {c : Char} {cs word rest : List Char}

/-! ### Words -/

/-- No character is a gap between words. -/
def Solid : Place → List Char → Prop
  | _, [] => True
  | place, c :: cs => ¬(place = .plain ∧ isGap c = true) ∧ Solid (place.after c) cs

theorem solid_append : Solid place (cs ++ rest) ↔
    Solid place cs ∧ Solid (cs.foldl Place.after place) rest := by
  induction cs generalizing place with
  | nil => simp [Solid]
  | cons c cs ih => simp only [List.cons_append, Solid, ih, List.foldl_cons, and_assoc]

theorem splitFrom_solid (h : Solid place cs) (word rest : List Char) :
    splitFrom place word (cs ++ rest) =
      splitFrom (cs.foldl Place.after place) (cs.reverse ++ word) rest := by
  induction cs generalizing place word with
  | nil => rfl
  | cons c cs ih =>
    have hc : (decide (place = .plain) && isGap c) = false := by simpa using h.1
    rw [List.cons_append, splitFrom, hc, if_neg Bool.false_ne_true, ih h.2, List.foldl_cons,
      List.reverse_cons, List.append_assoc]
    rfl

/-- Words that a gap behind each of them ends. -/
def Separate : List (List Char) → Prop
  | [] => True
  | word :: words =>
    word ≠ [] ∧ Solid .plain word ∧ (words ≠ [] → word.foldl Place.after .plain = .plain) ∧
      Separate words

theorem Separate.ne_nil {words : List (List Char)} (h : Separate words) :
    ∀ word ∈ words, word ≠ [] := by
  induction words with
  | nil => simp
  | cons word words ih => exact List.forall_mem_cons.2 ⟨h.1, ih h.2.2.2⟩

theorem flush_of_ne_nil (h : word ≠ []) (words : List String) :
    flush word.reverse words = String.ofList word :: words := by
  rw [flush, List.isEmpty_reverse, List.isEmpty_eq_false_iff.2 h, List.reverse_reverse]
  rfl

theorem splitFrom_intercalate {words : List (List Char)} (h : Separate words) :
    splitFrom .plain [] ([' '].intercalate words) = words.map String.ofList := by
  induction words with
  | nil => rfl
  | cons word words ih =>
    obtain ⟨hne, hsolid, hends, hwords⟩ := h
    cases words with
    | nil =>
      have hsplit := splitFrom_solid hsolid [] []
      rw [List.append_nil, List.append_nil] at hsplit
      rw [List.intercalate_singleton, hsplit, splitFrom, flush_of_ne_nil hne]
      rfl
    | cons next words =>
      rw [List.intercalate_cons_cons, List.append_assoc, splitFrom_solid hsolid,
        hends (List.cons_ne_nil _ _), List.append_nil]
      change flush word.reverse (splitFrom .plain [] ([' '].intercalate (next :: words))) = _
      rw [ih hwords, flush_of_ne_nil hne]
      rfl

theorem separate_flush {words : List String} (hsolid : Solid .plain word.reverse)
    (hends : words ≠ [] → word.reverse.foldl Place.after .plain = .plain)
    (hwords : Separate (words.map String.toList)) :
    Separate ((flush word words).map String.toList) := by
  rw [flush]
  split
  case isTrue => exact hwords
  case isFalse hne =>
    rw [List.map_cons, String.toList_ofList]
    exact ⟨by simpa using hne, hsolid, fun h => hends (by simpa using h), hwords⟩

/-- The present word is read from its beginning to the place where the reader stands. -/
theorem separate_splitFrom (hsolid : Solid .plain word.reverse)
    (hplace : word.reverse.foldl Place.after .plain = place) :
    Separate ((splitFrom place word cs).map String.toList) := by
  induction cs generalizing place word with
  | nil => exact separate_flush hsolid (absurd rfl) trivial
  | cons c cs ih =>
    rw [splitFrom]
    split
    case isTrue hgap =>
      have hgap : place = .plain ∧ isGap c = true := by simpa using hgap
      exact separate_flush hsolid (fun _ => hplace.trans hgap.1) (ih trivial rfl)
    case isFalse hgap =>
      have hgap : ¬(place = .plain ∧ isGap c = true) := by simpa using hgap
      refine ih ?_ ?_
      · rw [List.reverse_cons, solid_append, hplace]
        exact ⟨hsolid, hgap, trivial⟩
      · rw [List.reverse_cons, List.foldl_append, hplace]
        rfl

theorem separate_split (text : String) : Separate ((split text).map String.toList) :=
  separate_splitFrom trivial rfl

theorem split_ne_empty (text : String) : ∀ word ∈ split text, word ≠ "" := by
  rintro word hword rfl
  exact (separate_split text).ne_nil [] (List.mem_map.2 ⟨"", hword, rfl⟩) rfl

theorem split_intercalate (text : String) : split (" ".intercalate (split text)) = split text := by
  have hsplit := splitFrom_intercalate (separate_split text)
  rw [split, String.toList_intercalate]
  refine hsplit.trans ?_
  simp

end Words

/-! ### Lines that call a macro -/

namespace Template

variable {c : Char} {cs more : List Char}

/-- A character that is copied wherever it stands outside quotes. -/
def Copied (c : Char) : Prop := c ≠ '"' ∧ c ≠ '\'' ∧ c ≠ ';' ∧ c ≠ '%'

theorem scan_copied (h : ∀ c ∈ cs, Copied c) (pos : Nat) (more : List Char) :
    scan none 0 pos (cs ++ more) =
      (scan none 0 (pos + cs.length) more).map ((cs.map .char).foldr prepend ·) := by
  induction cs generalizing pos with
  | nil =>
    rw [List.nil_append, List.length_nil, Nat.add_zero]
    cases scan none 0 pos more <;> rfl
  | cons c cs ih =>
    obtain ⟨hc, hcs⟩ := List.forall_mem_cons.1 h
    have hmove : move none pos c (cs ++ more) = .ok { pieces := [.char c], quote := none } := by
      simp [move, outsideQuote, hc.1, hc.2.1, hc.2.2.1, hc.2.2.2]
    rw [List.cons_append, scan_char hmove, ih hcs, List.length_cons, Nat.add_right_comm,
      Nat.add_assoc]
    cases scan none 0 (pos + (cs.length + 1)) more <;> rfl

/-- A line that ends with the reference to all arguments. -/
theorem substitute_rest (start : String) (h : ∀ c ∈ start.toList, Copied c) (name : String)
    (args : List String) :
    substitute (start ++ "%1.*") name args = .ok [start ++ " ".intercalate args] := by
  have hrest : scan none 0 (0 + start.toList.length) "%1.*".toList = .ok [[.rest 1]] := rfl
  have hjoin : render name args (start.toList.map .char ++ [.rest 1]) =
      start ++ " ".intercalate args := by
    rw [render, List.map_append, String.join_append]
    change render name args (start.toList.map .char) ++ _ = _
    rw [render_chars]
    simp [Piece.expand]
  rw [substitute, String.toList_append, scan_copied h, hrest]
  change Except.ok (List.map (render name args) ((start.toList.map Piece.char).foldr prepend _)) = _
  rw [foldr_prepend, List.map_singleton, hjoin]

end Template

namespace Input

open Words

variable {c : Char}

theorem isBlank_of_isWordChar (h : isWordChar c = true) : Text.isBlank c = false := by
  have hcases : (decide (65 ≤ c.val ∧ c.val ≤ 90) || (decide (97 ≤ c.val) && decide (c.val ≤ 122)) ||
      (decide (48 ≤ c.val) && decide (c.val ≤ 57)) || decide (c = '_')) = true := h
  have hrange : 48 ≤ c.toNat ∧ c.toNat ≤ 122 := by
    simp only [Bool.or_eq_true, Bool.and_eq_true, decide_eq_true_eq,
      UInt32.le_iff_toNat_le] at hcases
    rcases hcases with (((h | h) | h) | rfl)
    · exact ⟨Nat.le_trans (by decide) h.1, Nat.le_trans h.2 (by decide)⟩
    · exact ⟨Nat.le_trans (by decide) h.1, Nat.le_trans h.2 (by decide)⟩
    · exact ⟨Nat.le_trans (by decide) h.1, Nat.le_trans h.2 (by decide)⟩
    · decide
  simp only [Text.isBlank, Text.blankRanges, List.any_cons, List.any_nil, Bool.or_false,
    Bool.or_eq_false_iff, Bool.and_eq_false_iff, decide_eq_false_iff_not]
  omega

theorem copied_of_isWordChar (h : isWordChar c = true) : Template.Copied c := by
  refine ⟨?_, ?_, ?_, ?_⟩ <;> rintro rfl <;> cases h

theorem assigns_append {cs : List Char} (hne : cs ≠ []) (h : assigns cs = false)
    (rest : List Char) : assigns (cs ++ rest) = false := by
  rcases cs with _ | ⟨c, _ | ⟨d, cs⟩⟩
  · exact absurd rfl hne
  · have hc : c ≠ '=' := by
      rintro rfl
      cases h
    simp [assigns, hc]
  · by_cases hc : c = '='
    · subst hc
      by_cases hd : d = '='
      · subst hd
        rfl
      · simp [assigns, hd] at h
    · simp [assigns, hc]

/-- An argument that a call takes as it stands when it comes first. -/
def TakenFirst (arg : String) : Prop :=
  assigns arg.toList = false ∧ ∀ c ∈ arg.toList.head?, Text.isBlank c = false

theorem taken_intercalate {args : List String} (hne : ∀ arg ∈ args, arg ≠ "")
    (hargs : ∀ arg ∈ args.head?, TakenFirst arg) : TakenFirst (" ".intercalate args) := by
  rcases args with _ | ⟨arg, args⟩
  · exact ⟨rfl, by simp⟩
  obtain ⟨hassigns, hhead⟩ := hargs arg rfl
  have hlist : arg.toList ≠ [] := by simpa using hne arg List.mem_cons_self
  obtain ⟨rest, hrest⟩ : ∃ rest, (" ".intercalate (arg :: args)).toList = arg.toList ++ rest := by
    cases args with
    | nil => exact ⟨[], by simp⟩
    | cons next args =>
      exact ⟨_, by
        rw [String.intercalate_cons_cons, String.append_assoc, String.toList_append]⟩
  rw [TakenFirst, hrest, List.head?_append_of_ne_nil _ hlist]
  exact ⟨assigns_append hlist hassigns rest, hhead⟩

section

variable [Outside] {s : Input} {known : String → Bool} {callee name body gap text : String}

/-- The macro that a word calls. -/
def called? (s : Input) (known : String → Bool) (word : String) : Option (String × String) :=
  match s.macros.classify word with
  | .exact _ =>
    match s.macros.lookup word with
    | .ok found =>
      if !Text.sameFolded found.1 word && (known word || (Keyword.ofName? word).isSome) then none
      else some found
    | .error _ => none
  | _ => none

/-- A call is decided by the word and by the beginning of what follows it. -/
theorem macroCall?_eq {first : Char} {others : List Char} (rest : List Char)
    (hword : ∀ c ∈ first :: others, isWordChar c = true) (hrest : rest.takeWhile isWordChar = [])
    (htext : text.toList = first :: others ++ rest) : s.macroCall? known text =
      if first.isDigit || assigns (rest.dropWhile Text.isBlank) then none
      else (s.called? known (String.ofList (first :: others))).map fun found =>
        (found.1, found.2, split (String.ofList (rest.dropWhile Text.isBlank))) := by
  have hfirst : ¬Text.isBlank first = true := by
    simp [isBlank_of_isWordChar (hword first List.mem_cons_self)]
  have hstart : text.toList.dropWhile Text.isBlank = first :: others ++ rest := by
    rw [htext, List.cons_append, List.dropWhile_cons_of_neg hfirst]
  have htaken : (first :: others ++ rest).takeWhile isWordChar = first :: others := by
    rw [List.takeWhile_append_of_pos hword, hrest, List.append_nil]
  have hleft : (first :: others ++ rest).dropWhile isWordChar = rest := by
    rw [List.dropWhile_append_of_pos hword]
    cases rest with
    | nil => rfl
    | cons c rest =>
      by_cases hc : isWordChar c = true
      · rw [List.takeWhile_cons_of_pos hc] at hrest
        cases hrest
      · exact List.dropWhile_cons_of_neg hc
  rw [macroCall?, hstart, htaken, hleft]
  dsimp only
  rw [called?]
  split
  · rfl
  cases s.macros.classify (String.ofList (first :: others)) with
  | exact =>
    dsimp only
    cases s.macros.lookup (String.ofList (first :: others)) with
    | error => rfl
    | ok found =>
      dsimp only
      split <;> rfl
  | _ => rfl

/-- A word that calls a macro by itself calls it with the text that follows it. -/
theorem macroCall?_append (hcallee : ∀ c ∈ callee.toList, isWordChar c = true)
    (h : s.macroCall? known callee = some (name, body, []))
    (hgap : gap.toList ≠ [] ∧ ∀ c ∈ gap.toList, c = ' ' ∨ c = '\t') (htext : TakenFirst text) :
    s.macroCall? known (callee ++ gap ++ text) = some (name, body, split text) := by
  have hblank : ∀ c ∈ gap.toList, Text.isBlank c = true := fun c hc => by
    rcases hgap.2 c hc with rfl | rfl <;> decide
  have htaken : (gap.toList ++ text.toList).takeWhile isWordChar = [] := by
    obtain ⟨c, cs, hcs⟩ := List.exists_cons_of_ne_nil hgap.1
    rw [hcs, List.cons_append]
    rcases hgap.2 c (hcs ▸ List.mem_cons_self) with rfl | rfl <;> rfl
  have hdropped : (gap.toList ++ text.toList).dropWhile Text.isBlank = text.toList := by
    rw [List.dropWhile_append_of_pos hblank]
    cases hlist : text.toList with
    | nil => rfl
    | cons c cs =>
      have hc := htext.2 c (by rw [hlist]; rfl)
      exact List.dropWhile_cons_of_neg (by simp [hc])
  cases hlist : callee.toList with
  | nil =>
    rw [macroCall?, hlist] at h
    cases h
  | cons first others =>
    rw [hlist] at hcallee
    rw [macroCall?_eq [] hcallee rfl (by rw [hlist, List.append_nil])] at h
    rw [macroCall?_eq (gap.toList ++ text.toList) hcallee htaken
      (by rw [String.toList_append, String.toList_append, hlist, List.append_assoc]), hdropped,
      htext.1, String.ofList_toList]
    have hnone : assigns (List.dropWhile Text.isBlank []) = false := rfl
    rw [hnone] at h
    split at h
    · cases h
    · rename_i hdigit
      rw [if_neg hdigit]
      cases hfound : s.called? known (String.ofList (first :: others)) with
      | none => rw [hfound] at h; cases h
      | some found =>
        rw [hfound] at h
        cases h
        rfl

/-- The words of a text are not empty and are split again as they were when they are joined by
single blanks, by hand or by a reference to all of them.  So a line that passes all arguments on to
a macro calls it with exactly the arguments that there were, if the first of them can stand
first. -/
theorem forwards_arguments (text : String) :
    (∀ arg ∈ split text, arg ≠ "") ∧
      split (" ".intercalate (split text)) = split text ∧
      (∀ caller, ∃ line, Template.substitute "%1.*" caller (split text) = .ok [line] ∧
        split line = split text) ∧
      ∀ (s : Input) (known : String → Bool) (caller callee gap name body : String),
        (∀ c ∈ callee.toList, isWordChar c = true) →
        s.macroCall? known callee = some (name, body, []) →
        gap.toList ≠ [] ∧ (∀ c ∈ gap.toList, c = ' ' ∨ c = '\t') →
        (∀ arg ∈ (split text).head?, TakenFirst arg) →
        ∃ line, Template.substitute (callee ++ gap ++ "%1.*") caller (split text) = .ok [line] ∧
          s.macroCall? known line = some (name, body, split text) := by
  have hsplit := split_intercalate text
  have hne := split_ne_empty text
  refine ⟨hne, hsplit, fun caller => ⟨_, ?_, hsplit⟩, ?_⟩
  · simpa using Template.substitute_rest "" (by simp) caller (split text)
  · intro s known caller callee gap name body hcallee hcall hgap hfirst
    have hcopied : ∀ c ∈ (callee ++ gap).toList, Template.Copied c := by
      intro c hc
      rw [String.toList_append, List.mem_append] at hc
      rcases hc with hc | hc
      · exact copied_of_isWordChar (hcallee c hc)
      · rcases hgap.2 c hc with rfl | rfl <;> simp [Template.Copied]
    refine ⟨_, Template.substitute_rest _ hcopied caller (split text), ?_⟩
    rw [macroCall?_append hcallee hcall hgap (taken_intercalate hne hfirst), hsplit]

end

open scoped Cabinet

/-- Two macros, of which the second hands its arguments on to the first. -/
def relay : Input :=
  { initial {} [] with
    macros :=
      { maxLength := 32, entries := [("inner", "print '%%1'"), ("outer", "inner %1.*")] } }

/-- A comma, a quoted text with a blank, and a quote that is never closed. -/
theorem forwards_arguments_open :
    split "==1, 'a b' \"c, " = ["==1", "'a b'", "\"c, "] ∧
      relay.macroCall? (fun _ => false) "inner" = some ("inner", "print '%%1'", []) ∧
      ∃ line, Template.substitute "inner %1.*" "outer" ["==1", "'a b'", "\"c, "] = .ok [line] ∧
        relay.macroCall? (fun _ => false) line =
          some ("inner", "print '%%1'", ["==1", "'a b'", "\"c, "]) := by
  have hsplit : split "==1, 'a b' \"c, " = ["==1", "'a b'", "\"c, "] := by rfl
  have hcall : relay.macroCall? (fun _ => false) "inner" = some ("inner", "print '%%1'", []) := by
    rfl
  have h := (forwards_arguments "==1, 'a b' \"c, ").2.2.2 relay (fun _ => false) "outer" "inner" " "
    "inner" "print '%%1'" (List.all_eq_true.1 rfl) hcall (by simp)
  rw [hsplit] at h
  exact ⟨hsplit, hcall, h (by simp [TakenFirst, assigns, Text.isBlank, Text.blankRanges])⟩

/-- An argument that begins with white space other than blanks and tabs loses it when it is handed
on, and one that begins with an equals sign makes an assignment of the line. -/
theorem forwarding_changes :
    relay.macroCall? (fun _ => false) "outer ,\u00a0x" =
        some ("outer", "inner %1.*", ["\u00a0x"]) ∧
      Template.substitute "inner %1.*" "outer" ["\u00a0x"] = .ok ["inner \u00a0x"] ∧
      relay.macroCall? (fun _ => false) "inner \u00a0x" =
        some ("inner", "print '%%1'", ["x"]) ∧
      relay.macroCall? (fun _ => false) "outer ,=3" = some ("outer", "inner %1.*", ["=3"]) ∧
      Template.substitute "inner %1.*" "outer" ["=3"] = .ok ["inner =3"] ∧
      relay.macroCall? (fun _ => false) "inner =3" = none :=
  ⟨rfl, rfl, rfl, rfl, rfl, rfl⟩

end Input

end ArrayCommand
