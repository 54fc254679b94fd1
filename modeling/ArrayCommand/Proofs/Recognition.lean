/-
Which assignments are taken for calls of macros.

A line is looked at as characters, to see whether its first word calls a macro, and as tokens, to see
whether it is an assignment.  An equals sign behind the first word keeps it from being a call.
Subscripts do not: an assignment to a section of a variable calls the macro of that name.

* `Scan.token_eq_ok` — the characters that a token is read from;
* `Input.macroCall?_assignment` — **an assignment calls no macro if it has no subscripts**, and the
  macro of that name if it has.
-/

import ArrayCommand.Input
import ArrayCommand.Compiler
import ArrayCommand.Proofs.Stream

namespace ArrayCommand

variable {maxName : Nat} {c : Char} {cs : List Char} {t : Token} {l l' : Lexer}

namespace Scan

variable {start width : Nat}

/-- A name takes all characters that may continue it, and what is no number, no name, no text and no
operator is a single character. -/
theorem token_eq_ok (h : token maxName start c cs = ⟨width, .ok t⟩) :
    (∃ n, t = .integer n) ∨ (∃ x, t = .float x) ∨ (∃ s, t = .text s) ∨ (∃ op, t = .operator op) ∨
      (c.isDigit = false ∧ startsName c ∧
        t = .name (String.ofList ((c :: cs).takeWhile continuesName)) ∧
        width = ((c :: cs).takeWhile continuesName).length) ∨
      (operator? (c :: cs) = none ∧ punctuation? c = some t) := by
  by_cases hnumber : startsNumber c cs
  · rw [token, if_pos hnumber, number] at h
    dsimp only at h
    split at h
    · split at h <;> cases h
      exact .inl ⟨_, rfl⟩
    · cases h
      exact .inr (.inl ⟨_, rfl⟩)
  by_cases hname : startsName c
  · rw [token, if_neg hnumber, if_pos hname, name] at h
    by_cases hlength : maxName < ((c :: cs).takeWhile continuesName).length
    · rw [if_pos hlength] at h
      cases h
    · rw [if_neg hlength] at h
      cases h
      have hdigit : c.isDigit = false := by simp_all [startsNumber]
      exact .inr (.inr (.inr (.inr (.inl ⟨hdigit, hname, rfl, rfl⟩))))
  by_cases hquote : isQuote c
  · rw [token, if_neg hnumber, if_neg hname, if_pos hquote, string] at h
    split at h
    · cases h
      exact .inr (.inr (.inl ⟨_, rfl⟩))
    · cases h
  rw [token, if_neg hnumber, if_neg hname, if_neg hquote, mark] at h
  split at h
  case h_1 =>
    cases h
    exact .inr (.inr (.inr (.inl ⟨_, rfl⟩)))
  case h_2 hoperator =>
    split at h <;> cases h
    exact .inr (.inr (.inr (.inr (.inr ⟨hoperator, ‹_›⟩))))

theorem punctuation?_eq_some (h : punctuation? c = some t) :
    (∀ n, t ≠ .name n) ∧ (t = .assign → c = '=') ∧ (t = .leftParen → c = '(') ∧ t ≠ .finish := by
  unfold punctuation? at h
  repeat' split at h
  all_goals cases h
  all_goals simp_all

end Scan

namespace Lexer

open Scan

/-- A token is read behind the blanks, and the next one behind it. -/
theorem taken_of_next (hpeeked : l.peeked = none) (h : next l = .ok t l') :
    l'.peeked = none ∧ (t = .finish ∧ l.ahead.dropWhile isSeparator = [] ∨
      ∃ start c cs width, l.ahead.dropWhile isSeparator = c :: cs ∧
        token l.maxName start c cs = ⟨width, .ok t⟩ ∧ l'.ahead = (c :: cs).drop width ∧
        start = l.pos + (l.ahead.takeWhile isSeparator).length ∧
        l' = { l with pos := start + width, column := ⟨start, start + width⟩ }) := by
  rw [next, get_bind_apply, hpeeked] at h
  obtain ⟨seen, l₁, hscan, h⟩ := bind_eq_ok.mp h
  rw [scan, lexeme, drop_takeWhile] at hscan
  cases hahead : l.ahead.dropWhile isSeparator with
  | nil =>
    rw [hahead] at hscan
    cases hscan
    cases h
    exact ⟨hpeeked, .inl ⟨rfl, rfl⟩⟩
  | cons c cs =>
    rw [hahead] at hscan
    split at hscan
    case h_2 => cases hscan
    case h_1 htoken =>
      cases hscan
      cases h
      refine ⟨hpeeked, .inr ⟨_, c, cs, (token _ _ c cs).width, rfl, by rw [← htoken], ?_, rfl, rfl⟩⟩
      change l.text.drop _ = _
      rw [← List.drop_drop, ← List.drop_drop, ← hahead, ← drop_takeWhile]
      rfl

end Lexer

namespace Input

open Scan Lexer

/-- The blanks between words are blanks between tokens, if something follows that is not blank. -/
theorem dropWhile_isBlank {rest : List Char} (h : cs.dropWhile isSeparator = c :: rest)
    (hc : Text.isBlank c = false) : cs.dropWhile Text.isBlank = c :: rest := by
  induction cs with
  | nil => cases h
  | cons d ds ih =>
    by_cases hd : isSeparator d
    · have hblank : Text.isBlank d = true := by
        simp only [isSeparator, Bool.or_eq_true, decide_eq_true_eq] at hd
        rcases hd with rfl | rfl <;> decide
      rw [List.dropWhile_cons_of_pos hd] at h
      rw [List.dropWhile_cons_of_pos hblank]
      exact ih h
    · rw [List.dropWhile_cons_of_neg hd] at h
      cases h
      exact List.dropWhile_cons_of_neg (by simp [hc])

theorem isBlank_of_startsName (h : startsName c) : Text.isBlank c = false := by
  have hletter := toNat_of_startsName h
  simp only [Text.isBlank, Text.blankRanges, List.any_cons, List.any_nil, Bool.or_false]
  simp
  omega

/-- An assignment goes on with an equals sign or with subscripts. -/
theorem next_of_assignment {fuel : Nat} (h : Compiler.assignmentAhead fuel 0 l = true) :
    ∃ t l', next l = .ok t l' ∧ (t = .assign ∨ t = .leftParen) := by
  cases fuel with
  | zero => cases h
  | succ fuel =>
    rw [Compiler.assignmentAhead] at h
    cases hnext : next l with
    | error fault l' =>
      rw [hnext] at h
      cases h
    | ok t l' =>
      rw [hnext] at h
      cases t with
      | assign => exact ⟨_, l', rfl, .inl rfl⟩
      | leftParen => exact ⟨_, l', rfl, .inr rfl⟩
      | _ => cases h

variable {text name : String}

/-- The first word of a line that begins with a name. -/
theorem word_of_next (hname : next (.ofText text maxName) = .ok (.name name) l) :
    l.peeked = none ∧ ∃ c cs, text.toList.dropWhile Text.isBlank = c :: cs ∧ c.isDigit = false ∧
      isWordChar c ∧ name = String.ofList ((c :: cs).takeWhile isWordChar) ∧
      l.ahead = (c :: cs).dropWhile isWordChar := by
  obtain ⟨hpeeked, ⟨⟨⟩, -⟩ | ⟨start, c, cs, width, hahead, htoken, hrest, -⟩⟩ := taken_of_next rfl hname
  obtain ⟨_, ⟨⟩⟩ | ⟨_, ⟨⟩⟩ | ⟨_, ⟨⟩⟩ | ⟨_, ⟨⟩⟩ | ⟨hdigit, hstarts, hword, hwidth⟩ | ⟨-, hmark⟩ :=
    token_eq_ok htoken
  · rw [hwidth, drop_takeWhile] at hrest
    cases hword
    refine ⟨hpeeked, c, cs, dropWhile_isBlank hahead ?_, hdigit, ?_, rfl, hrest⟩
    · exact isBlank_of_startsName hstarts
    · exact continuesName_of_startsName hstarts
  · exact absurd rfl ((punctuation?_eq_some hmark).1 _)

/-- The characters behind the first word of an assignment. -/
theorem assigns_of_next (hpeeked : l.peeked = none)
    (hnext : next l = .ok t l') (ht : t = .assign ∨ t = .leftParen) :
    assigns (l.ahead.dropWhile Text.isBlank) = true ↔ t = .assign := by
  obtain ⟨-, ⟨rfl, -⟩ | ⟨start, c, cs, width, hahead, htoken, -⟩⟩ := taken_of_next hpeeked hnext
  · simp at ht
  have hmark : operator? (c :: cs) = none ∧ punctuation? c = some t := by
    obtain ⟨_, rfl⟩ | ⟨_, rfl⟩ | ⟨_, rfl⟩ | ⟨_, rfl⟩ | ⟨-, -, rfl, -⟩ | h := token_eq_ok htoken
    case inr.inr.inr.inr.inr => exact h
    all_goals simp at ht
  obtain ⟨-, hassign, hparen, -⟩ := punctuation?_eq_some hmark.2
  rcases ht with rfl | rfl
  · cases hassign rfl
    rw [dropWhile_isBlank hahead (by decide)]
    refine iff_of_true ?_ rfl
    unfold assigns
    split
    case h_1 heq =>
      cases heq
      simp [operator?, Operator.spellings] at hmark
    case h_2 => rfl
    case h_3 h => exact absurd rfl (h cs)
  · cases hparen rfl
    rw [dropWhile_isBlank hahead (by decide)]
    simp [assigns]

/-- **An assignment calls no macro if it has no subscripts.**  With subscripts it calls the macro that
has the name of the variable. -/
theorem macroCall?_assignment [Outside] (s : Input) (known : String → Bool)
    (hname : next (.ofText text maxName) = .ok (.name name) l)
    (hassign : Compiler.assignmentAhead (Parse.budget l) 0 l = true) :
    (∃ l', next l = .ok .assign l' ∧ s.macroCall? known text = none) ∨
    ∃ l', next l = .ok .leftParen l' ∧ ∀ index full body, s.macros.classify name = .exact index →
      s.macros.lookup name = .ok (full, body) → Text.sameFolded full name →
        ∃ args, s.macroCall? known text = some (full, body, args) := by
  obtain ⟨hpeeked, c, cs, htext, hdigit, hword, rfl, hahead⟩ := word_of_next hname
  obtain ⟨t, l', hnext, ht⟩ := next_of_assignment hassign
  have hassigns := assigns_of_next hpeeked hnext ht
  rw [hahead] at hassigns
  rcases ht with rfl | rfl
  · refine .inl ⟨l', hnext, ?_⟩
    rw [macroCall?, htext, hassigns.2 rfl, List.takeWhile_cons_of_pos hword]
    simp
  · refine .inr ⟨l', hnext, fun index full body hclassify hlookup hsame => ?_⟩
    have hnone : assigns (((c :: cs).dropWhile isWordChar).dropWhile Text.isBlank) = false := by
      simpa using hassigns
    rw [List.takeWhile_cons_of_pos hword] at hclassify hlookup hsame
    rw [macroCall?, htext, hnone, List.takeWhile_cons_of_pos hword]
    simp only [hdigit, hclassify, hlookup, hsame, Bool.or_false, Bool.not_true, Bool.false_and,
      Bool.false_eq_true, if_false]
    exact ⟨_, rfl⟩

open scoped Cabinet

/-- With a macro `m` there is no assigning to an element of a variable `m`. -/
theorem macroCall?_assignment_subscript :
    let s : Input := { Input.initial {} [] with
      macros := { maxLength := 32, entries := [("m", "print 7")] } }
    let l : Lexer := { text := "m(1) = 5".toList, maxName := 32, pos := 1, column := ⟨0, 1⟩ }
    next (.ofText "m(1) = 5" 32) = .ok (.name "m") l ∧
      Compiler.assignmentAhead (Parse.budget l) 0 l = true ∧
      ∃ args, s.macroCall? (fun _ => true) "m(1) = 5" = some ("m", "print 7", args) := by
  intro s l
  have hname : next (.ofText "m(1) = 5" 32) = .ok (.name "m") l := rfl
  have hassign : Compiler.assignmentAhead (Parse.budget l) 0 l = true := by decide +kernel
  refine ⟨hname, hassign, ?_⟩
  obtain ⟨l', hnext, -⟩ | ⟨l', -, hcall⟩ :=
    macroCall?_assignment s (fun _ => true) hname hassign
  · have hparen : next l = .ok .leftParen { l with pos := 2, column := ⟨1, 2⟩ } := rfl
    cases hparen.symm.trans hnext
  · exact hcall 0 "m" "print 7" (by decide +kernel) rfl (by decide +kernel)

end Input

end ArrayCommand
