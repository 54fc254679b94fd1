/-
Lists of natural numbers in the lexicographic order.

A list without bound on its length can descend for ever: `[1]`, `[0, 1]`, `[0, 0, 1]`, …  With a
bound it cannot.
-/

namespace ArrayCommand.Descent

abbrev Lex : List Nat → List Nat → Prop := List.Lex (· < ·)

/-- The lexicographic order below lists of at most `n` numbers. -/
def Below (n : Nat) (a b : List Nat) : Prop := a.length ≤ n ∧ Lex a b

theorem not_lex_nil (a : List Nat) : ¬ Lex a [] := by
  intro h
  cases h

theorem acc_nil (n : Nat) : Acc (Below n) [] :=
  Acc.intro _ fun a h => absurd h.2 (not_lex_nil a)

/-- Lists with the same first number descend as their rests do; lists with a smaller first number
are accessible by assumption. -/
theorem acc_cons (n x : Nat) (smaller : ∀ y, y < x → ∀ l, l.length ≤ n → Acc (Below (n + 1)) (y :: l))
    {l : List Nat} (h : Acc (Below n) l) : Acc (Below (n + 1)) (x :: l) := by
  induction h with
  | intro l _ ih =>
    refine Acc.intro _ fun a ha => ?_
    obtain ⟨hlen, hlex⟩ := ha
    cases hlex with
    | nil => exact acc_nil (n + 1)
    | rel hlt => exact smaller _ hlt _ (by simpa using hlen)
    | cons hl => exact ih _ ⟨by simpa using hlen, hl⟩

/-- Every list of at most `n` numbers is accessible. -/
theorem acc_of_length_le : ∀ (n : Nat) (l : List Nat), l.length ≤ n → Acc (Below n) l
  | 0, [], _ => acc_nil 0
  | n + 1, [], _ => acc_nil (n + 1)
  | n + 1, x :: l, h => by
    have all : ∀ x l, l.length ≤ n → Acc (Below (n + 1)) (x :: l) := by
      intro x
      induction x using Nat.strongRecOn with
      | ind x ih => exact fun l hl => acc_cons n x ih (acc_of_length_le n l hl)
    exact all x l (by simpa using h)

theorem lex_append (start : List Nat) {a b : List Nat} (h : Lex a b) :
    Lex (start ++ a) (start ++ b) := by
  induction start with
  | nil => exact h
  | cons x start ih => exact .cons ih

theorem lex_of_append (start : List Nat) (x : Nat) (rest : List Nat) :
    Lex start (start ++ x :: rest) := by
  simpa using lex_append start (.nil : Lex [] (x :: rest))

end ArrayCommand.Descent
