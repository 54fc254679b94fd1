/-
Looking ahead does not disturb the tokens.

A lexer is asked for the next token, shows the one that comes next, and goes back to a mark.  What it
holds is a position and perhaps a token that has been seen already; that this is invisible is shown
against a machine that holds no more than a number: how many tokens have been taken.  Its answers come
from the tokens that `next` alone gives, one after another.

Main definitions:

* `Lexer.Probe`, `Lexer.Reply` — what a lexer is asked for, and what it answers;
* `Lexer.nth` — a token of those that `next` alone gives, with its column, or the fault that it meets;
* `Lexer.replies` — the answers up to the first fault;
* `Lexer.Stands` — a lexer has come as far as some calls of `next` would.

Main results:

* `Lexer.lookahead_spec` — what is seen is what `next` gives, before and behind the look;
* `Lexer.agree_probe` — one call keeps the two machines together;
* `Lexer.replies_eq` — **whatever a lexer is asked for, it answers as the tokens of `next` alone say.**
-/

import Mathlib.Data.List.Forall2
import ArrayCommand.Proofs.Stream

namespace ArrayCommand.Lexer

variable {token : Token} {l' : Lexer} {s : Lexer × List Mark} {s' : Nat × List Nat}

/-! ### Calls -/

/-- What a lexer is asked for.  A mark is known by its number among those taken. -/
inductive Probe
  | next
  | peek
  | peekColumn
  | atEnd
  | mark
  | reset (mark : Nat)

inductive Reply
  | token (token : Token) (column : Column)
  | seen (token : Token)
  | column (column : Column)
  | ended (ended : Bool)
  | done

/-- The answers up to the first fault, and that fault. -/
def replies {σ : Type} (step : σ → Probe → Except Fault (Reply × σ)) :
    List Probe → σ → List Reply × Option Fault
  | [], _ => ([], none)
  | probe :: probes, s =>
    match step s probe with
    | .error fault => ([], some fault)
    | .ok (reply, s) => ((replies step probes s).map (reply :: ·) id)

/-- The answer of a lexer that keeps the marks that have been taken. -/
def answer {α : Type} (x : EStateM Fault Lexer α) (reply : α → Reply) (s : Lexer × List Mark) :
    Except Fault (Reply × Lexer × List Mark) :=
  match x s.1 with
  | .ok a l => .ok (reply a, l, s.2)
  | .error fault _ => .error fault

def probe (s : Lexer × List Mark) : Probe → Except Fault (Reply × Lexer × List Mark)
  | .next => answer nextAt (fun seen => .token seen.1 seen.2) s
  | .peek => answer peek .seen s
  | .peekColumn => answer peekColumn .column s
  | .atEnd => answer atEnd .ended s
  | .mark => .ok (.done, s.1, s.2 ++ [s.1.mark])
  | .reset i => .ok (.done, s.2[i]?.elim s.1 s.1.reset, s.2)

/-! ### Tokens by number -/

/-- A token of those that `next` alone gives, with its column, or the fault that is met on the way. -/
def nth : Nat → Lexer → Except Fault (Token × Column)
  | 0, l =>
    match nextAt l with
    | .ok seen _ => .ok seen
    | .error fault _ => .error fault
  | n + 1, l =>
    match next l with
    | .ok _ l => nth n l
    | .error fault _ => .error fault

/-- The answer that a stream of tokens gives, if so many of them have been taken. -/
def consult (stream : Nat → Except Fault (Token × Column)) (s : Nat × List Nat) :
    Probe → Except Fault (Reply × Nat × List Nat)
  | .next => (stream s.1).map fun seen => (.token seen.1 seen.2, s.1 + 1, s.2)
  | .peek => (stream s.1).map fun seen => (.seen seen.1, s)
  | .peekColumn => (stream s.1).map fun seen => (.column seen.2, s)
  | .atEnd => (stream s.1).map fun seen => (.ended seen.1.isFinish, s)
  | .mark => .ok (.done, s.1, s.2 ++ [s.1])
  | .reset i => .ok (.done, s.2[i]?.getD s.1, s.2)

/-! ### One call -/

variable {start l : Lexer} {n : Nat} {marks : List Mark}

theorem nth_zero (h : next l = .ok token l') : nth 0 l = .ok (token, l'.column) := by
  rw [nth, nextAt, bind_ok h]
  rfl

theorem nth_succ (h : next l = .ok token l') (n : Nat) : nth (n + 1) l = nth n l' := by
  rw [nth, h]

theorem nth_congr (h : next l = next l') (n : Nat) : nth n l = nth n l' := by
  cases n with
  | zero => rw [nth, nth, nextAt, bind_apply, bind_apply, h]
  | succ n => rw [nth, nth, h]

/-- A lexer has come as far on a line as some calls of `next` would. -/
structure Stands (start l : Lexer) (n : Nat) : Prop where
  line : l = start.reset l.mark
  ahead : ∀ k, nth k l = nth (n + k) start

/-- A lexer has come as far as a number of tokens, and so have its marks. -/
def Together (start : Lexer) (s : Lexer × List Mark) (s' : Nat × List Nat) : Prop :=
  Stands start s.1 s'.1 ∧ List.Forall₂ (fun m => Stands start (start.reset m)) s.2 s'.2

/-- Both machines fail with the same fault, or they give the same answer and stay together. -/
inductive Agree (start : Lexer) :
    Except Fault (Reply × Lexer × List Mark) → Except Fault (Reply × Nat × List Nat) → Prop
  | ok (reply : Reply) {s : Lexer × List Mark} {s' : Nat × List Nat} (h : Together start s s') :
      Agree start (.ok (reply, s)) (.ok (reply, s'))
  | error (fault : Fault) : Agree start (.error fault) (.error fault)

theorem Stands.reset {m : Mark} (h : Stands start l n) : l.reset m = start.reset m := by
  rw [h.line]
  rfl

theorem Stands.trans {k : Nat} (h : Stands start l n) (hline : l' = l.reset l'.mark)
    (hahead : ∀ i, nth i l' = nth (k + i) l) : Stands start l' (n + k) := by
  refine ⟨hline.trans h.reset, fun i => ?_⟩
  rw [hahead, h.ahead, Nat.add_assoc]

/-- What is seen is what has that number, and taking it goes on by one. -/
theorem Stands.looks (h : Stands start l n) :
    (∃ token l₁ l', lookahead l = .ok (l'.column, token) l₁ ∧ next l = .ok token l' ∧
      nth n start = .ok (token, l'.column) ∧ Stands start l₁ n ∧ Stands start l' (n + 1)) ∨
    ∃ fault l₁ l', lookahead l = .error fault l₁ ∧ next l = .error fault l' ∧
      nth n start = .error fault := by
  have hnow : nth n start = nth 0 l := (h.ahead 0).symm
  obtain ⟨token, l₁, l', hlook, hnext, hnext', hline₁, hline'⟩ | ⟨fault, l₁, l', hlook, hnext⟩ :=
    lookahead_spec l
  · refine .inl ⟨token, l₁, l', hlook, hnext, hnow.trans (nth_zero hnext), ?_, ?_⟩
    · refine h.trans (k := 0) hline₁ fun i => ?_
      rw [Nat.zero_add, nth_congr (hnext'.trans hnext.symm)]
    · refine h.trans hline' fun i => ?_
      rw [Nat.add_comm, nth_succ hnext]
  · refine .inr ⟨fault, l₁, l', hlook, hnext, hnow.trans ?_⟩
    rw [nth, nextAt, bind_error hnext]

/-- A call that shows something of the token that comes next. -/
theorem agree_looking {α : Type} {x : EStateM Fault Lexer α} {f : Column × Token → α}
    (hx : x = do return f (← lookahead)) (reply : α → Reply) (h : Together start s s') :
    Agree start (answer x reply s) ((nth s'.1 start).map fun seen => (reply (f seen.swap), s')) := by
  obtain ⟨token, l₁, l', hlook, -, hnow, hseen, -⟩ | ⟨fault, l₁, l', hlook, -, hnow⟩ := h.1.looks
  · rw [answer, hx, bind_ok hlook, hnow]
    exact .ok _ ⟨hseen, h.2⟩
  · rw [answer, hx, bind_error hlook, hnow]
    exact .error fault

theorem agree_probe (h : Together start s s')
    (p : Probe) : Agree start (probe s p) (consult (nth · start) s' p) := by
  cases p with
  | next =>
    obtain ⟨token, l₁, l', -, hnext, hnow, -, htaken⟩ | ⟨fault, l₁, l', -, hnext, hnow⟩ := h.1.looks
    · rw [probe, answer, nextAt, bind_ok hnext, consult, hnow]
      exact .ok _ ⟨htaken, h.2⟩
    · rw [probe, answer, nextAt, bind_error hnext, consult, hnow]
      exact .error fault
  | peek | peekColumn => exact agree_looking rfl _ h
  | atEnd =>
    have hlook : atEnd = do return (← lookahead).2.isFinish := bind_assoc _ _ _
    exact agree_looking hlook _ h
  | mark => exact .ok _ ⟨h.1, List.rel_append h.2 (.cons (h.1.line ▸ h.1) .nil)⟩
  | reset i =>
    refine .ok _ ⟨?_, h.2⟩
    have hlength := h.2.length_eq
    rcases Nat.lt_or_ge i s.2.length with hi | hi
    · rw [List.getElem?_eq_getElem hi, List.getElem?_eq_getElem (hlength ▸ hi)]
      change Stands start (s.1.reset _) _
      rw [h.1.reset]
      exact h.2.get hi (hlength ▸ hi)
    · rw [List.getElem?_eq_none hi, List.getElem?_eq_none (hlength ▸ hi)]
      exact h.1

theorem replies_eq_of_together (h : Together start s s') (probes : List Probe) :
    replies probe probes s = replies (consult (nth · start)) probes s' := by
  induction probes generalizing s s' with
  | nil => rfl
  | cons p probes ih =>
    have hagree := agree_probe h p
    rw [replies, replies]
    generalize probe s p = r, consult (nth · start) s' p = r' at hagree
    cases hagree with
    | ok reply h => simp only [ih h]
    | error fault => rfl

/-- **Looking ahead does not disturb the tokens.**  Whatever a lexer is asked for, it answers up to the
first fault, and with that fault, as the tokens say that `next` alone gives. -/
theorem replies_eq (l : Lexer) (probes : List Probe) :
    replies probe probes (l, []) = replies (consult (nth · l)) probes (0, []) :=
  replies_eq_of_together ⟨⟨rfl, fun k => by rw [Nat.zero_add]⟩, .nil⟩ probes

end ArrayCommand.Lexer
