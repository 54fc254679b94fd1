/-
Readers on a stream of tokens.

A reader sees the line only through its tokens, so what it makes of a line depends on the tokens that
the line shows and on nothing else: two lines with the same tokens differ only in the columns of the
faults.

* `Scan.token_take` — a token is read from its own characters alone;
* `Lexer.Shows` — the tokens that a line shows from the present position on;
* `Lexer.Shows.length_le` — a line shows no more tokens than it has characters;
* `Lexer.shows_of_tokens` — the tokens of a whole line are shown one after another;
* `Parse.Reads` — what a reader makes of a line that shows some tokens: a value, with the tokens
  that are left, or a cause of failure.
-/

import ArrayCommand.Expr.Parse
import ArrayCommand.Proofs.Tracking

namespace ArrayCommand

open List

/-! ### The characters of a token -/

namespace Scan

variable {maxName start n : Nat} {quote c : Char} {cs : List Char} {t : Token} {p : Char → Bool}

theorem length_takeWhile_pos (h : p c = true) : 0 < ((c :: cs).takeWhile p).length := by
  rw [takeWhile_cons_of_pos h]
  exact Nat.succ_pos _

theorem takeWhile_take (h : (cs.takeWhile p).length ≤ n) :
    (cs.take n).takeWhile p = cs.takeWhile p := by
  rw [← take_takeWhile, take_of_length_le h]

theorem drop_takeWhile (p : Char → Bool) (cs : List Char) :
    cs.drop (cs.takeWhile p).length = cs.dropWhile p := by
  induction cs with
  | nil => rfl
  | cons c cs ih => cases hc : p c <;> simp [hc, ih]

/-- How many characters there are up to a blank. -/
def reach (cs : List Char) : Nat := (cs.takeWhile (!isSeparator ·)).length

theorem reach_le (cs : List Char) : reach cs ≤ cs.length := (List.takeWhile_prefix _).length_le

theorem reach_append {rest : List Char} (h : ∀ c ∈ cs, isSeparator c = false) :
    reach (cs ++ rest) = cs.length + reach rest := by
  rw [reach, takeWhile_append_of_pos (by simpa using h), length_append, reach]

theorem reach_cons (hc : isSeparator c = false) : reach (c :: cs) = reach cs + 1 := by
  simp [reach, hc]

theorem isSeparator_of (hp : p ' ' = false ∧ p '\t' = false) (hc : p c = true) :
    isSeparator c = false := by
  simp only [isSeparator, Bool.or_eq_false_iff, decide_eq_false_iff_not]
  constructor <;> rintro rfl <;> simp_all

theorem reach_takeWhile (hp : p ' ' = false ∧ p '\t' = false) (cs : List Char) :
    reach cs = (cs.takeWhile p).length + reach (cs.drop (cs.takeWhile p).length) := by
  have hvisible : ∀ c ∈ cs.takeWhile p, isSeparator c = false := fun c hc =>
    isSeparator_of hp (all_eq_true.1 all_takeWhile c hc)
  rw [drop_takeWhile, ← reach_append hvisible, takeWhile_append_dropWhile]

/-! ### The characters of numbers -/

theorem reach_digitPart (cs : List Char) :
    reach cs = (digitPart cs).2.2 + reach (cs.drop (digitPart cs).2.2) := by
  have hwhole := reach_takeWhile (p := Char.isDigit) (by decide) cs
  rw [digitPart]
  dsimp only
  split
  case h_1 rest hrest =>
    have hfraction := reach_takeWhile (p := Char.isDigit) (by decide) rest
    rw [hrest, reach_cons (by decide)] at hwhole
    dsimp only
    rw [← drop_drop, ← drop_drop, hrest, drop_one, tail_cons]
    omega
  case h_2 => exact hwhole

theorem whole_le (cs : List Char) : (cs.takeWhile Char.isDigit).length ≤ (digitPart cs).2.2 := by
  rw [digitPart]
  dsimp only
  split <;> dsimp only <;> omega

theorem digitPart_take (h : (digitPart cs).2.2 ≤ n) : digitPart (cs.take n) = digitPart cs := by
  have hwhole := Nat.le_trans (whole_le cs) h
  unfold digitPart at h ⊢
  dsimp only at h ⊢
  rw [takeWhile_take hwhole, drop_take]
  split at h
  case h_1 rest hrest =>
    dsimp only at h
    obtain ⟨m, hm⟩ : ∃ m, n - (cs.takeWhile Char.isDigit).length = m + 1 :=
      ⟨n - (cs.takeWhile Char.isDigit).length - 1, by omega⟩
    have hfraction : (rest.takeWhile Char.isDigit).length ≤ m := by omega
    rw [hrest, hm, take_succ_cons]
    simp only [takeWhile_take hfraction]
  case h_2 hpoint =>
    split
    case h_1 rest heq =>
      obtain ⟨more, hmore⟩ := heq ▸ take_prefix _ (cs.drop (cs.takeWhile Char.isDigit).length)
      exact absurd hmore.symm (hpoint _)
    case h_2 => rfl

theorem exponentPart_take {negative : Bool} {digits : List Char}
    (h : exponentPart cs = some (n, negative, digits)) :
    n ≤ reach cs ∧ exponentPart (cs.take n) = some (n, negative, digits) := by
  cases cs with
  | nil => cases h
  | cons mark cs =>
    have hsign : reach cs = ((cs.take 1).filter isSign).length +
        reach (cs.drop ((cs.take 1).filter isSign).length) := by
      cases cs with
      | nil => rfl
      | cons d cs =>
        cases hd : isSign d with
        | false => simp [hd]
        | true => simp [hd, reach_cons (isSeparator_of (by decide) hd), Nat.add_comm]
    rw [exponentPart] at h
    split at h
    case isTrue => cases h
    case isFalse hmark =>
    dsimp only at h
    split at h
    case isTrue => cases h
    case isFalse hdigits =>
    cases h
    have hreach := reach_takeWhile (p := Char.isDigit) (by decide)
      (cs.drop ((cs.take 1).filter isSign).length)
    have hpos := length_pos_iff.2 fun hnil => hdigits (isEmpty_iff.2 hnil)
    have hvisible := isSeparator_of (p := isExponentMark) (by decide) (by simpa using hmark)
    refine ⟨by rw [reach_cons hvisible]; omega, ?_⟩
    rw [Nat.add_assoc, Nat.add_comm 1, take_succ_cons, exponentPart, if_neg hmark]
    dsimp only
    rw [take_take, Nat.min_eq_left (by omega), drop_take, takeWhile_take (by omega),
      if_neg hdigits, Nat.add_comm _ 1, Nat.add_assoc]

theorem number_take (start : Nat) (cs : List Char) :
    (digitPart cs).2.2 ≤ (number start cs).width ∧ (number start cs).width ≤ reach cs ∧
      number start (cs.take (number start cs).width) = number start cs := by
  have hreach := reach_digitPart cs
  obtain ⟨width, hwidth, hle, htake⟩ : ∃ width,
      (number start cs).width = (digitPart cs).2.2 + width ∧
      width ≤ reach (cs.drop (digitPart cs).2.2) ∧
      exponentPart ((cs.drop (digitPart cs).2.2).take width) =
        exponentPart (cs.drop (digitPart cs).2.2) := by
    rw [number]
    dsimp only
    cases hpower : exponentPart (cs.drop (digitPart cs).2.2) with
    | none =>
      refine ⟨0, ?_, Nat.zero_le _, rfl⟩
      split
      · split <;> rfl
      · rfl
    | some power =>
      obtain ⟨hle, htake⟩ := exponentPart_take hpower
      refine ⟨power.1, ?_, hle, htake⟩
      split
      · cases ‹some power = none›
      · rfl
  have hle' : (digitPart cs).2.2 ≤ (number start cs).width := by omega
  refine ⟨hle', by omega, ?_⟩
  have hdrop : (cs.take (number start cs).width).drop (digitPart cs).2.2 =
      (cs.drop (digitPart cs).2.2).take width := by
    rw [drop_take, hwidth, Nat.add_sub_cancel_left]
  rw [number, digitPart_take hle']
  dsimp only
  rw [hdrop, htake]
  rfl

theorem startsNumber_take (h : startsNumber c cs = true) (hn : (digitPart (c :: cs)).2.2 ≤ n) :
    0 < n ∧ startsNumber c (cs.take (n - 1)) = true := by
  cases hdigit : c.isDigit with
  | true =>
    have hpos : 0 < ((c :: cs).takeWhile Char.isDigit).length := length_takeWhile_pos hdigit
    have hwhole := whole_le (c :: cs)
    exact ⟨by omega, by simp [startsNumber, hdigit]⟩
  | false =>
    simp only [startsNumber, hdigit, Bool.false_or, Bool.and_eq_true, decide_eq_true_eq] at h
    obtain ⟨rfl, hhead⟩ := h
    cases cs with
    | nil => cases hhead
    | cons d cs =>
      have hd : 0 < ((d :: cs).takeWhile Char.isDigit).length := length_takeWhile_pos hhead
      change 0 + 1 + ((d :: cs).takeWhile Char.isDigit).length ≤ n at hn
      obtain ⟨n, rfl⟩ : ∃ m, n = m + 2 := ⟨n - 2, by omega⟩
      exact ⟨by omega, hhead⟩

theorem startsNumber_of_take (h : startsNumber c (cs.take n) = true) :
    startsNumber c cs = true := by
  rw [startsNumber, head?_take] at h
  split at h
  · simp_all [startsNumber]
  · exact h

/-! ### The characters of names, texts and marks -/

theorem toNat_of_startsName (h : startsName c = true) : 65 ≤ c.toNat ∧ c.toNat ≤ 122 := by
  rcases Bool.or_eq_true_iff.1 h with h | h
  · rcases Bool.or_eq_true_iff.1 h with h | h
    · have h : 65 ≤ c.toNat ∧ c.toNat ≤ 90 := of_decide_eq_true h
      omega
    · have h := Bool.and_eq_true_iff.1 h
      exact ⟨Nat.le_trans (by decide) (of_decide_eq_true h.1), of_decide_eq_true h.2⟩
  · cases of_decide_eq_true h
    decide

theorem continuesName_of_startsName (h : startsName c = true) : continuesName c = true := by
  simp only [startsName, continuesName, Char.isAlphanum, Bool.or_eq_true] at h ⊢
  rcases h with h | h
  · exact .inl (.inl h)
  · exact .inr h

theorem name_take (maxName start : Nat) (cs : List Char) :
    (name maxName start cs).width = (cs.takeWhile continuesName).length ∧
      name maxName start (cs.take (name maxName start cs).width) = name maxName start cs := by
  have hwidth : (name maxName start cs).width = (cs.takeWhile continuesName).length := by
    rw [name]
    split <;> rfl
  refine ⟨hwidth, ?_⟩
  rw [hwidth, name, takeWhile_take (Nat.le_refl _), name]

theorem stringBody_take {body : List Char} (h : stringBody quote cs = some (body, n)) :
    n ≤ cs.length ∧ stringBody quote (cs.take n) = some (body, n) := by
  fun_induction stringBody quote cs generalizing body n with
  | case1 => cases h
  | case2 =>
    cases h
    exact ⟨Nat.le_refl _, by simp [stringBody]⟩
  | case3 => cases h
  | case4 =>
    cases h
    exact ⟨by simp, by simp [stringBody]⟩
  | case5 d cs hquote ih =>
    obtain ⟨⟨body, n⟩, hbody, heq⟩ := Option.map_eq_some_iff.1 h
    cases heq
    obtain ⟨hle, htake⟩ := ih hbody
    refine ⟨by simp only [length_cons]; omega, ?_⟩
    simp only [take_succ_cons]
    rw [stringBody, if_neg hquote, if_pos rfl, htake]
    rfl
  | case6 c d cs hquote hbackslash ih =>
    obtain ⟨⟨body, n⟩, hbody, heq⟩ := Option.map_eq_some_iff.1 h
    cases heq
    obtain ⟨hle, htake⟩ := ih hbody
    refine ⟨by simp only [length_cons] at hle ⊢; omega, ?_⟩
    -- At least the closing quote follows.
    cases n with
    | zero => cases htake
    | succ n =>
      rw [take_succ_cons] at htake
      rw [take_succ_cons, take_succ_cons, stringBody, if_neg hquote, if_neg hbackslash, htake]
      rfl

theorem string_take (h : string start quote cs = ⟨n, .ok t⟩) :
    0 < n ∧ n ≤ cs.length + 1 ∧ (∃ s, t = .text s) ∧
      string start quote (cs.take (n - 1)) = ⟨n, .ok t⟩ := by
  rw [string] at h
  split at h
  case h_1 hbody =>
    cases h
    obtain ⟨hle, htake⟩ := stringBody_take hbody
    refine ⟨Nat.succ_pos _, Nat.succ_le_succ hle, ⟨_, rfl⟩, ?_⟩
    simp only [string, Nat.add_sub_cancel, htake]
  case h_2 => cases h

theorem operator?_eq_some {op : Operator} (h : operator? cs = some (n, op)) :
    0 < n ∧ n ≤ reach cs ∧ operator? (cs.take n) = some (n, op) := by
  simp only [operator?, Option.map_eq_some_iff, Prod.exists, Prod.mk.injEq] at h
  obtain ⟨spelling, op', hfind, rfl, rfl⟩ := h
  have hprefix : spelling.isPrefixOf cs := by simpa using find?_some hfind
  obtain ⟨rest, rfl⟩ := isPrefixOf_iff_prefix.1 hprefix
  have hall : ∀ p ∈ Operator.spellings, 0 < p.1.length ∧
      operator? p.1 = some (p.1.length, p.2) ∧ p.1.any isSeparator = false := by decide
  obtain ⟨hpos, halone, hvisible⟩ := hall _ (mem_of_find?_eq_some hfind)
  rw [reach_append (by simpa using hvisible), take_left]
  exact ⟨hpos, Nat.le_add_right _ _, halone⟩

theorem operator?_first (h : operator? (c :: cs) = none) : operator? [c] = none := by
  simp only [operator?, Option.map_eq_none_iff, find?_eq_none, isPrefixOf_iff_prefix] at h ⊢
  exact fun p hp hfits => h p hp (hfits.trans ⟨cs, rfl⟩)

theorem mark_take (h : mark start c cs = ⟨n, .ok t⟩) :
    0 < n ∧ n ≤ reach (c :: cs) ∧ mark start c (cs.take (n - 1)) = ⟨n, .ok t⟩ := by
  rw [mark] at h
  split at h
  case h_1 hop =>
    cases h
    obtain ⟨hpos, hle, htake⟩ := operator?_eq_some hop
    rw [take_cons hpos] at htake
    exact ⟨hpos, hle, by simp only [mark, htake]⟩
  case h_2 hop =>
    split at h
    case h_2 => cases h
    case h_1 hpunctuation =>
      cases h
      have hc : (punctuation? c).isSome = true := by simp [hpunctuation]
      rw [reach_cons (isSeparator_of (p := fun c => (punctuation? c).isSome) (by decide) hc)]
      simp only [mark, hpunctuation, Nat.sub_self, take_zero, operator?_first hop]
      exact ⟨Nat.one_pos, by omega, trivial⟩

/-! ### One token -/

/-- **A token is what its own characters alone give**, and there are no blanks in it unless it is a
text. -/
theorem token_take (h : token maxName start c cs = ⟨n, .ok t⟩) :
    0 < n ∧ n ≤ cs.length + 1 ∧ ((∃ s, t = .text s) ∨ n ≤ reach (c :: cs)) ∧
      token maxName start c (cs.take (n - 1)) = ⟨n, .ok t⟩ := by
  have hreach : reach (c :: cs) ≤ cs.length + 1 := reach_le (c :: cs)
  by_cases hnumber : startsNumber c cs
  · rw [token, if_pos hnumber] at h
    obtain ⟨hdigits, hle, htake⟩ := number_take start (c :: cs)
    rw [h] at hdigits hle htake
    obtain ⟨hpos, halone⟩ := startsNumber_take hnumber hdigits
    refine ⟨hpos, Nat.le_trans hle hreach, .inr hle, ?_⟩
    rw [token, if_pos halone, ← take_cons hpos, htake]
  rw [token, if_neg hnumber] at h
  rw [token, if_neg (mt startsNumber_of_take hnumber)]
  by_cases hname : startsName c
  · rw [if_pos hname] at h ⊢
    obtain ⟨hwidth, htake⟩ := name_take maxName start (c :: cs)
    have hword := reach_takeWhile (p := continuesName) (by decide) (c :: cs)
    have hpos : 0 < ((c :: cs).takeWhile continuesName).length :=
      length_takeWhile_pos (continuesName_of_startsName hname)
    rw [h] at hwidth htake
    dsimp only at hwidth
    rw [← hwidth] at hword hpos
    exact ⟨hpos, by omega, .inr (by omega), by rw [← take_cons hpos, htake]⟩
  rw [if_neg hname] at h ⊢
  by_cases hquote : isQuote c
  · rw [if_pos hquote] at h ⊢
    obtain ⟨hpos, hle, htext, htake⟩ := string_take h
    exact ⟨hpos, hle, .inl htext, htake⟩
  · rw [if_neg hquote] at h ⊢
    obtain ⟨hpos, hle, htake⟩ := mark_take h
    exact ⟨hpos, Nat.le_trans hle hreach, .inr hle, htake⟩

theorem lexeme_advances {pos : Nat} (h : (lexeme maxName pos cs).token = .ok t)
    (hfinish : t.isFinish = false) : cs ≠ [] ∧ pos < (lexeme maxName pos cs).column.stop := by
  rw [lexeme] at h ⊢
  dsimp only at h ⊢
  cases hrest : cs.drop (cs.takeWhile isSeparator).length with
  | nil =>
    rw [hrest] at h
    cases h
    cases hfinish
  | cons c rest =>
    rw [hrest] at h
    dsimp only at h ⊢
    generalize htoken : token maxName _ c rest = taken at h ⊢
    obtain ⟨width, found⟩ := taken
    cases h
    obtain ⟨hpos, -⟩ := token_take htoken
    refine ⟨?_, by dsimp only; omega⟩
    rintro rfl
    cases hrest

end Scan

/-! ### The tokens of a line -/

namespace Lexer

/-- The tokens that a line shows from the present position on; there may be more behind them. -/
def Shows : List Token → Lexer → Prop
  | [], _ => True
  | token :: rest, l => ∃ l', next l = .ok token l' ∧ Shows rest l'

variable {l l' : Lexer} {token : Token} {seen : Column × Token} {ts rest : List Token}

/-- What is seen is what `next` gives, and looking changes neither that nor the line. -/
theorem lookahead_spec (l : Lexer) :
    (∃ token l₁ l', lookahead l = .ok (l'.column, token) l₁ ∧ next l = .ok token l' ∧
      next l₁ = .ok token l' ∧ l₁ = l.reset l₁.mark ∧ l' = l.reset l'.mark) ∨
    ∃ fault l₁ l', lookahead l = .error fault l₁ ∧ next l = .error fault l' := by
  obtain ⟨text, maxName, pos, column, peeked⟩ := l
  cases peeked with
  | some seen => exact .inl ⟨seen.2, _, _, rfl, rfl, rfl, rfl, rfl⟩
  | none =>
    cases hscan : scan ⟨text, maxName, pos, column, none⟩ with
    | ok seen l₂ =>
      have hline : l₂ = ⟨text, maxName, l₂.pos, column, none⟩ := by
        rw [scan] at hscan
        split at hscan
        · cases hscan
          rfl
        · cases hscan
      refine .inl ⟨seen.2, { l₂ with peeked := some seen }, { l₂ with column := seen.1 },
        bind_ok hscan _, bind_ok hscan _, ?_, ?_, ?_⟩
      · rw [hline]
        rfl
      · rw [hline]
        rfl
      · rw [hline]
        rfl
    | error fault l₂ => exact .inr ⟨fault, _, _, bind_error hscan _, bind_error hscan _⟩

theorem next_eq_ok (h : next l = .ok token l') :
    ∃ column l₁, lookahead l = .ok (column, token) l₁ ∧ next l₁ = .ok token l' := by
  obtain ⟨token', l₁, l₂, hlook, hnext, hnext', -⟩ | ⟨fault, l₁, l₂, -, hnext⟩ := lookahead_spec l
  · cases hnext.symm.trans h
    exact ⟨_, l₁, hlook, hnext'⟩
  · cases hnext.symm.trans h

theorem Shows.look (h : l.Shows (token :: rest)) :
    ∃ column l₁, lookahead l = .ok (column, token) l₁ ∧ l₁.Shows (token :: rest) := by
  obtain ⟨l', hnext, hrest⟩ := h
  obtain ⟨column, l₁, hlook, hnext'⟩ := next_eq_ok hnext
  exact ⟨column, l₁, hlook, l', hnext', hrest⟩

/-- How many tokens there can be from the present position on. -/
def most (l : Lexer) : Nat := l.text.length - l.pos + if l.peeked.isSome then 1 else 0

theorem most_of_next (h : next l = .ok token l') (hfinish : token.isFinish = false) :
    l'.most < l.most := by
  rw [next, get_bind_apply] at h
  cases hpeeked : l.peeked with
  | some seen =>
    rw [hpeeked] at h
    cases h
    simp [most, hpeeked]
  | none =>
    rw [hpeeked] at h
    obtain ⟨⟨column, token'⟩, l₂, hscan, h⟩ := bind_eq_ok.1 h
    cases h
    rw [scan] at hscan
    split at hscan
    case h_2 => cases hscan
    case h_1 htoken =>
      cases hscan
      obtain ⟨hahead, hstop⟩ := Scan.lexeme_advances htoken hfinish
      have hpos : l.pos < l.text.length := by
        rw [ahead, Ne, drop_eq_nil_iff] at hahead
        omega
      simp only [most, hpeeked, Option.isSome_none, Bool.false_eq_true, if_false]
      omega

theorem Shows.length_le (h : l.Shows (ts ++ rest)) (hfinish : ∀ token ∈ ts, token.isFinish = false) :
    ts.length ≤ l.most := by
  induction ts generalizing l with
  | nil => exact Nat.zero_le _
  | cons token ts ih =>
    obtain ⟨hfirst, hlater⟩ := forall_mem_cons.1 hfinish
    obtain ⟨l', hnext, hshows⟩ := h
    have hless := most_of_next hnext hfirst
    have hle := ih hshows hlater
    rw [length_cons]
    omega

theorem most_le (l : Lexer) : l.most ≤ l.text.length + 1 := by
  rw [most]
  split <;> omega

/-- The tokens of a line are shown one after another, and then its end if there is fuel for it. -/
theorem shows_of_collect {fuel : Nat} (h : collect fuel l = .ok ts) :
    ts.length ≤ l.most ∧ (∀ token ∈ ts, token.isFinish = false) ∧
      (ts.length < fuel → l.Shows (ts ++ [.finish])) := by
  induction fuel generalizing l ts with
  | zero =>
    cases h
    exact ⟨Nat.zero_le _, by simp, fun hfuel => absurd hfuel (Nat.not_lt_zero _)⟩
  | succ fuel ih =>
    rw [collect] at h
    cases hnext : next l with
    | error fault l' =>
      rw [hnext] at h
      cases h
    | ok token l' =>
      rw [hnext] at h
      dsimp only at h
      by_cases hfinish : token.isFinish
      · rw [if_pos hfinish] at h
        cases h
        refine ⟨Nat.zero_le _, by simp, fun _ => ?_⟩
        cases token <;> first | exact ⟨l', hnext, trivial⟩ | cases hfinish
      · rw [if_neg hfinish] at h
        cases hcollect : collect fuel l' with
        | error fault =>
          rw [hcollect] at h
          cases h
        | ok later =>
          rw [hcollect] at h
          cases h
          obtain ⟨hle, hlater, hshows⟩ := ih hcollect
          have hfirst : token.isFinish = false := by simpa using hfinish
          have hless := most_of_next hnext hfirst
          rw [length_cons]
          exact ⟨by omega, forall_mem_cons.2 ⟨hfirst, hlater⟩,
            fun hfuel => ⟨l', hnext, hshows (by omega)⟩⟩

theorem shows_of_tokens {line : String} {maxName : Nat} (h : tokens line maxName = .ok ts) :
    (ofText line maxName).Shows (ts ++ [.finish]) := by
  obtain ⟨hle, -, hshows⟩ := shows_of_collect h
  have hmost : (ofText line maxName).most = line.length := by
    simp [most, ofText, String.length_toList]
  exact hshows (by omega)

end Lexer

theorem Token.beq_eq_false {token want : Token} (h : token ≠ want)
    (hwant : want ∈ [Token.comma, .colon, .rightParen, .leftParen, .rightBracket, .leftBracket,
      .rightBrace, .leftBrace]) : (token == want) = false := by
  simp only [mem_cons, not_mem_nil, or_false] at hwant
  obtain rfl | rfl | rfl | rfl | rfl | rfl | rfl | rfl := hwant <;>
    cases token <;> first | rfl | exact absurd rfl h

/-! ### Readers -/

namespace Parse

/-- What a reader leaves: its value with the tokens that are shown then, or the cause of its
failure. -/
inductive Leaves {α : Type} (rest : List Token) :
    Except Cause α → EStateM.Result Fault Lexer α → Prop
  | value {a : α} {l : Lexer} : l.Shows rest → Leaves rest (.ok a) (.ok a l)
  | failure {f : Fault} {l : Lexer} : Leaves rest (.error f.cause) (.error f l)

/-- A reader takes a line from some tokens to others and comes to a result. -/
def Reads {α : Type} (ts rest : List Token) (x : Reader α) (r : Except Cause α) : Prop :=
  ∀ l : Lexer, l.Shows ts → Leaves rest r (x l)

namespace Reads

variable {α β : Type} {ts middle rest : List Token} {token : Token} {x : Reader α}
  {r : Except Cause α}
variable {s : Except Cause β}

theorem pure (a : α) : Reads ts ts (pure a) (.ok a) := fun _ h => .value h

theorem throw (f : Fault) : Reads ts rest (throw f : Reader α) (.error f.cause) :=
  fun _ _ => .failure

theorem throwing (f : Fault) (g : α → Reader β) :
    Reads ts rest ((MonadExcept.throw f : Reader α) >>= g) (.error f.cause) := fun _ _ => .failure

theorem bind {f : α → Reader β} {g : α → Except Cause β} (h : Reads ts middle x r)
    (hfg : ∀ a, r = .ok a → Reads middle rest (f a) (g a)) : Reads ts rest (x >>= f) (r >>= g) := by
  intro l hl
  have hx := h l hl
  rw [bind_apply]
  generalize x l = y at hx
  cases hx with
  | value hshows => exact hfg _ rfl _ hshows
  | failure => exact .failure

theorem seq {f : α → Reader β} {a : α} (h : Reads ts middle x (.ok a))
    (hf : Reads middle rest (f a) s) : Reads ts rest (x >>= f) s :=
  bind (g := fun _ => s) h fun b hb => by
    cases hb
    exact hf

theorem check (result : Except Fault α) :
    Reads ts ts (check result) (result.mapError Fault.cause) := by
  cases result with
  | ok a => exact .pure a
  | error f => exact .throw f

theorem peek : Reads (token :: ts) (token :: ts) Lexer.peek (.ok token) := by
  intro l hl
  obtain ⟨column, l₁, hlook, hl₁⟩ := hl.look
  rw [Lexer.peek, bind_apply, hlook]
  exact .value hl₁

theorem peekColumn {f : Column → Reader β} (h : ∀ column, Reads (token :: ts) rest (f column) s) :
    Reads (token :: ts) rest (Lexer.peekColumn >>= f) s := by
  intro l hl
  obtain ⟨column, l₁, hlook, hl₁⟩ := hl.look
  have hpeek : Lexer.peekColumn l = .ok column l₁ := by
    rw [Lexer.peekColumn, bind_apply, hlook]
    rfl
  rw [bind_ok hpeek]
  exact h column l₁ hl₁

theorem next : Reads (token :: ts) ts Lexer.next (.ok token) := by
  rintro l ⟨l', hnext, hl'⟩
  rw [hnext]
  exact .value hl'

theorem nextAt {f : Token × Column → Reader β} (h : ∀ column, Reads ts rest (f (token, column)) s) :
    Reads (token :: ts) rest (Lexer.nextAt >>= f) s := by
  rintro l ⟨l', hnext, hl'⟩
  have hat : Lexer.nextAt l = .ok (token, l'.column) l' := by
    rw [Lexer.nextAt, bind_ok hnext]
    rfl
  rw [bind_ok hat]
  exact h l'.column l' hl'

end Reads

end Parse

end ArrayCommand
