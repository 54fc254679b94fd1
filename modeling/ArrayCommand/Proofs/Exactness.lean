/-
Integer arithmetic is exact or refused.

An operation on integers has a result in the rational numbers: a quotient need not be whole, and a
negative power is a fraction.  The answer is the integer next to that number on the way to zero if
it has 64 bits, and an overflow otherwise.  A quotient by zero and a negative power of zero, which
have no result, are the only divisions by zero.

* `Integer.towardZero` — the integer next to a number on the way to zero;
* `Integer.answer` — what an operation answers whose result is a given number;
* `Scalar.arithmetic_exact` — the answers of all operations on integers.

A power is multiplied out only for exponents below 64; that nothing representable is lost is
`Integer.not_fits_pow`.
-/

import ArrayCommand.Scalar
import Mathlib

namespace ArrayCommand

namespace Integer

/-! ### Results -/

def towardZero (q : ℚ) : Int := if 0 ≤ q then ⌊q⌋ else ⌈q⌉

def answer (q : ℚ) : Except Fault Scalar :=
  if FitsInteger (towardZero q) then .ok (.integer (towardZero q))
  else .error { cause := .overflow }

@[simp] theorem towardZero_intCast (n : Int) : towardZero n = n := by
  simp [towardZero]

theorem towardZero_neg (q : ℚ) : towardZero (-q) = -towardZero q := by
  unfold towardZero
  rcases lt_trichotomy q 0 with h | rfl | h
  · rw [if_pos (by linarith), if_neg (by linarith), Int.floor_neg]
  · simp
  · rw [if_neg (by linarith), if_pos h.le, Int.ceil_neg]

theorem towardZero_of_abs_lt_one {q : ℚ} (h : |q| < 1) : towardZero q = 0 := by
  obtain ⟨hlow, hhigh⟩ := abs_lt.1 h
  unfold towardZero
  split
  case isTrue hq => exact Int.floor_eq_zero_iff.2 ⟨hq, hhigh⟩
  case isFalse hq => exact Int.ceil_eq_zero_iff.2 ⟨hlow, (not_le.1 hq).le⟩

/-- Division toward zero is the division of rational numbers, cut off. -/
theorem towardZero_div (l r : Int) : towardZero (l / r) = l.tdiv r := by
  have hnat (a b : ℕ) : towardZero (a / b) = (a : Int).tdiv b := by
    rw [towardZero, if_pos (by positivity), Rat.floor_natCast_div_natCast]
    rfl
  obtain ⟨a, rfl | rfl⟩ := l.eq_nat_or_neg <;> obtain ⟨b, rfl | rfl⟩ := r.eq_nat_or_neg <;>
    simp [neg_div, div_neg, towardZero_neg, hnat]

theorem map_fit (n : Int) : (fit n).map .integer = answer n := by
  rw [fit, answer, towardZero_intCast]
  split <;> rfl

/-! ### Powers -/

theorem answer_one : answer 1 = .ok (.integer 1) := by
  rw [← Int.cast_one, answer, towardZero_intCast, if_pos (by decide)]

theorem answer_neg_one_zpow (r : Int) : answer ((-1) ^ r) = .ok (.integer (signPower r)) := by
  rw [signPower]
  split
  case isTrue h =>
    rw [(Int.even_iff.2 h).neg_one_zpow, answer_one]
  case isFalse h =>
    have hodd : Odd r := Int.odd_iff.2 (by omega)
    rw [hodd.neg_one_zpow, ← Int.cast_one, ← Int.cast_neg, answer, towardZero_intCast,
      if_pos (by decide)]

/-- A base of two or more never fits from the 64th power on. -/
theorem not_fits_pow {l : Int} (hl : 2 ≤ |l|) {n : ℕ} (hn : 64 ≤ n) : ¬FitsInteger (l ^ n) := by
  have hlarge : (2 : Int) ^ 64 ≤ |l ^ n| := by
    calc (2 : Int) ^ 64 ≤ 2 ^ n := pow_le_pow_right₀ (by decide) hn
      _ ≤ |l| ^ n := pow_le_pow_left₀ (by decide) hl n
      _ = |l ^ n| := (abs_pow l n).symm
  rintro ⟨hlow, hhigh⟩
  rcases abs_cases (l ^ n) with ⟨h, -⟩ | ⟨h, -⟩ <;> omega

theorem abs_zpow_lt_one {l r : Int} (hl : 2 ≤ |l|) (hr : r < 0) : |(l : ℚ) ^ r| < 1 := by
  have hbase : (1 : ℚ) < |(l : ℚ)| := by
    exact_mod_cast (by omega : 1 < |l|)
  rw [abs_zpow]
  exact zpow_lt_one_of_neg₀ hbase hr

theorem map_power (l r : Int) : (power l r).map .integer =
    if l = 0 ∧ r < 0 then .error { cause := .divisionByZero } else answer ((l : ℚ) ^ r) := by
  -- The bases whose powers never grow come first, for exponents of both signs.
  by_cases hzero : l = 0
  · subst hzero
    by_cases hr : r < 0
    · rw [power, if_pos hr, if_pos rfl, if_pos ⟨rfl, hr⟩]
      rfl
    · have hnot : ¬((0 : Int) = 0 ∧ r < 0) := fun h => hr h.2
      rw [power, if_neg hr, if_pos rfl, if_neg hnot, Int.cast_zero, zero_zpow_eq]
      split
      · exact answer_one.symm
      · exact (map_fit 0).trans (congrArg answer Int.cast_zero)
  rw [if_neg (fun h => hzero h.1)]
  by_cases hone : l = 1
  · subst hone
    have hpower : power 1 r = .ok 1 := by simp [power]
    rw [hpower, Int.cast_one, one_zpow, answer_one]
    rfl
  by_cases hminus : l = -1
  · subst hminus
    have hpower : power (-1) r = .ok (signPower r) := by simp [power]
    rw [hpower, Int.cast_neg, Int.cast_one, answer_neg_one_zpow]
    rfl
  have hl : 2 ≤ |l| := le_abs.2 (by omega)
  rw [power]
  split
  case isTrue hr =>
    rw [answer, towardZero_of_abs_lt_one (abs_zpow_lt_one hl hr)]
    rfl
  case isFalse hr =>
    obtain ⟨n, rfl⟩ := Int.eq_ofNat_of_zero_le (not_lt.1 hr)
    have hcast : ((l : ℚ) ^ (n : Int)) = ((l ^ n : Int) : ℚ) := by simp
    rw [hcast]
    split
    case isTrue hn =>
      rw [answer, towardZero_intCast, if_neg (not_fits_pow hl (by omega))]
      rfl
    case isFalse => exact map_fit _

end Integer

namespace Scalar

open Integer

/-- Each operation on integers answers with its result in the rational numbers. -/
theorem arithmetic_exact (l r : Int) :
    (integer l).sum (integer r) = answer (l + r) ∧
      (integer l).subtract (integer r) = answer (l - r) ∧
      (integer l).multiply (integer r) = answer (l * r) ∧
      (integer l).negate = answer (-l) ∧
      (integer l).divide (integer r) =
        (if r = 0 then .error { cause := .divisionByZero } else answer (l / r)) ∧
      (integer l).power (integer r) =
        (if l = 0 ∧ r < 0 then .error { cause := .divisionByZero } else answer ((l : ℚ) ^ r)) := by
  refine ⟨?_, ?_, ?_, ?_, ?_, map_power l r⟩
  · rw [sum, map_fit, Int.cast_add]
  · rw [subtract, map_fit, Int.cast_sub]
  · rw [multiply, map_fit, Int.cast_mul]
  · rw [negate, map_fit, Int.cast_neg]
  · rw [divide, Integer.divide]
    split
    · rfl
    · rw [map_fit, answer, towardZero_intCast, answer, towardZero_div]

/-- The least integer is a power, though its magnitude is that of no integer. -/
example : (integer (-2)).power (integer 63) = .ok (integer (-0x8000000000000000)) := by rfl

end Scalar

end ArrayCommand
