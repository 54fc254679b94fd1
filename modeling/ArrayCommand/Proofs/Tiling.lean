/-
The columns of the tokens of a line.

The tokens of a line lie one behind the other, with nothing but blanks between them, and a token can
be read again from the characters of its column without the rest of the line.

* `Lexer.Lays` — the tokens of a line with their columns, as reading one after another gives them;
* `Lexer.Tiles` — what it means that columns tile a line;
* `Lexer.tokens_tile` — **the columns of the tokens of a line tile it**.
-/

import ArrayCommand.Proofs.Recognition

namespace ArrayCommand

open List

variable {c : Char} {cs : List Char} {ts : List Token}

def Column.Holds (column : Column) (i : Nat) : Prop := column.start ≤ i ∧ i < column.stop

namespace Lexer

open Scan

variable {l : Lexer} {maxName : Nat} {t : Token} {seen : List (Token × Column)}

/-- The tokens up to the end of a line with their columns, as calls of `next` give them. -/
def Lays : List (Token × Column) → Lexer → Prop
  | [], l => ∃ l', next l = .ok .finish l'
  | s :: rest, l => ∃ l', next l = .ok s.1 l' ∧ l'.column = s.2 ∧ Lays rest l'

/-- Tokens cover a line from a position on, and lie behind one another. -/
structure Tiles (maxName : Nat) (chars : List Char) (pos : Nat) (seen : List (Token × Column)) :
    Prop where
  inside : ∀ s ∈ seen, pos ≤ s.2.start ∧ s.2.start < s.2.stop ∧ s.2.stop ≤ chars.length
  apart : seen.Pairwise fun s s' => s.2.stop ≤ s'.2.start
  /-- What belongs to no token is a blank or a tab. -/
  bare : ∀ i c, pos ≤ i → chars[i]? = some c → (∀ s ∈ seen, ¬s.2.Holds i) → isSeparator c = true
  /-- Blanks and tabs that belong to a token belong to a text. -/
  blank : ∀ s ∈ seen, ∀ i c, chars[i]? = some c → s.2.Holds i → isSeparator c = true →
    ∃ text, s.1 = .text text
  /-- The characters of its column give a token again. -/
  alone : ∀ s ∈ seen, lexeme maxName s.2.start ((chars.drop s.2.start).take (s.2.stop - s.2.start)) =
    ⟨s.2, .ok s.1⟩

theorem isSeparator_of_lt_reach {n : Nat} (hn : n < reach cs)
    (hc : cs[n]? = some c) : isSeparator c = false := by
  obtain ⟨rest, hrest⟩ := takeWhile_prefix (!isSeparator ·) (l := cs)
  rw [← hrest, getElem?_append_left hn] at hc
  simpa using all_eq_true.1 all_takeWhile c (mem_of_getElem? hc)

theorem Tiles.cons {pos start width : Nat} {chars gap : List Char}
    (hline : chars.drop pos = gap ++ c :: cs) (hgap : ∀ d ∈ gap, isSeparator d = true)
    (hc : isSeparator c = false) (hstart : start = pos + gap.length)
    (h : token maxName start c cs = ⟨width, .ok t⟩)
    (hseen : Tiles maxName chars (start + width) seen) :
    Tiles maxName chars pos ((t, ⟨start, start + width⟩) :: seen) := by
  obtain ⟨hpos, hle, hvisible, halone⟩ := token_take h
  have hlength := congrArg length hline
  rw [length_drop, length_append, length_cons] at hlength
  have hdrop : chars.drop start = c :: cs := by
    rw [hstart, ← drop_drop, hline, drop_left]
  refine ⟨?_, ?_, fun i d hi hd hout => ?_, ?_, ?_⟩
  · refine forall_mem_cons.2 ⟨by dsimp only; omega, ?_⟩
    exact fun s hs => ⟨by have := hseen.inside s hs; omega, (hseen.inside s hs).2⟩
  · exact pairwise_cons.2 ⟨fun s hs => (hseen.inside s hs).1, hseen.apart⟩
  · obtain ⟨hfirst, hlater⟩ := forall_mem_cons.1 hout
    by_cases hlt : i < start
    · have hat : gap[i - pos]? = some d := by
        rw [← getElem?_append_left (by omega), ← hline, getElem?_drop, Nat.add_sub_cancel' hi, hd]
      exact hgap d (mem_of_getElem? hat)
    · refine hseen.bare i d ?_ hd hlater
      exact Nat.le_of_not_lt fun hstop => hfirst ⟨Nat.le_of_not_lt hlt, hstop⟩
  · refine forall_mem_cons.2 ⟨fun i d hd hin hblank => hvisible.resolve_right fun hreach => ?_,
      hseen.blank⟩
    have hlt := Nat.lt_of_lt_of_le (Nat.sub_lt_left_of_lt_add hin.1 hin.2) hreach
    rw [← Nat.add_sub_cancel' hin.1, ← getElem?_drop, hdrop] at hd
    rw [isSeparator_of_lt_reach hlt hd] at hblank
    cases hblank
  · refine forall_mem_cons.2 ⟨?_, hseen.alone⟩
    dsimp only
    rw [hdrop, Nat.add_sub_cancel_left, take_cons hpos, lexeme,
      takeWhile_cons_of_neg (by simp [hc])]
    simp only [length_nil, drop_zero, Nat.add_zero, halone]

theorem lays_of_shows (hpeeked : l.peeked = none) (h : l.Shows (ts ++ [.finish]))
    (hfinish : ∀ t ∈ ts, t.isFinish = false) :
    ∃ seen, seen.map Prod.fst = ts ∧ l.Lays seen ∧ Tiles l.maxName l.text l.pos seen := by
  have hahead := takeWhile_append_dropWhile (p := isSeparator) (l := l.ahead)
  have hgap : ∀ d ∈ l.ahead.takeWhile isSeparator, isSeparator d = true :=
    all_eq_true.1 all_takeWhile
  induction ts generalizing l with
  | nil =>
    obtain ⟨l', hnext, -⟩ := h
    obtain ⟨-, ⟨-, hnil⟩ | ⟨_, c, cs, _, -, htoken, -⟩⟩ := taken_of_next hpeeked hnext
    · refine ⟨[], rfl, ⟨l', hnext⟩, by simp, .nil, fun i c hi hc _ => ?_, by simp, by simp⟩
      rw [hnil, append_nil] at hahead
      rw [← Nat.add_sub_cancel' hi, ← getElem?_drop] at hc
      rw [hahead] at hgap
      exact hgap c (mem_of_getElem? hc)
    · obtain ⟨_, ⟨⟩⟩ | ⟨_, ⟨⟩⟩ | ⟨_, ⟨⟩⟩ | ⟨_, ⟨⟩⟩ | ⟨-, -, ⟨⟩, -⟩ | ⟨-, hmark⟩ :=
        token_eq_ok htoken
      exact absurd rfl (punctuation?_eq_some hmark).2.2.2
  | cons t ts ih =>
    obtain ⟨l', hnext, hrest⟩ := h
    obtain ⟨hfirst, hlater⟩ := forall_mem_cons.1 hfinish
    obtain ⟨hpeeked', ⟨rfl, -⟩ | ⟨start, c, cs, width, hcons, htoken, -, hstart, hl'⟩⟩ :=
      taken_of_next hpeeked hnext
    · cases hfirst
    obtain ⟨seen, hmap, hlays, htiles⟩ := ih hpeeked' hrest hlater
      takeWhile_append_dropWhile (all_eq_true.1 all_takeWhile)
    refine ⟨(t, l'.column) :: seen, by rw [map_cons, hmap], ⟨l', hnext, rfl, hlays⟩, ?_⟩
    have hc : isSeparator c = false := by
      have := head?_dropWhile_not isSeparator l.ahead
      rwa [hcons] at this
    rw [hcons] at hahead
    rw [hl'] at htiles ⊢
    exact .cons hahead.symm hgap hc hstart htoken htiles

/-- **The columns of the tokens of a line tile it**: the tokens, read one after another, lie in
columns that are not empty, that follow one another within the line, and that leave nothing out but
the blanks and tabs that are not in texts; and each is what its own characters alone give. -/
theorem tokens_tile {text : String} (h : tokens text maxName = .ok ts) :
    ∃ seen, seen.map Prod.fst = ts ∧ (ofText text maxName).Lays seen ∧
      Tiles maxName text.toList 0 seen :=
  lays_of_shows rfl (shows_of_tokens h) (shows_of_collect h).2.1

theorem tokens_tile_text : ∃ seen, seen.map Prod.fst = [.name "x", .assign, .text "a b"] ∧
    (ofText "x = 'a b'" 31).Lays seen ∧ Tiles 31 "x = 'a b'".toList 0 seen :=
  tokens_tile (by rfl)

end Lexer

end ArrayCommand
