import Mathlib.Tactic.Linarith
import Mathlib.Tactic.Ring

structure Pace where
  delay : Int
  rest : Int
  deriving DecidableEq, Repr

namespace Pace

def dividend (p : Pace) (weight : Int) : Int := 2 * p.delay * weight + p.rest

/-- One step of the ramp, with division toward zero. -/
def change (p : Pace) (weight divisor : Int) : Pace where
  delay := p.delay - (p.dividend weight).tdiv divisor
  rest := (p.dividend weight).tmod divisor

section Change
variable {p : Pace} {weight scale count divisor : Int}

theorem dividend_nonneg (delay : 0 ≤ p.delay) (rest : 0 ≤ p.rest) (pull : 0 ≤ weight) :
    0 ≤ p.dividend weight :=
  Int.add_nonneg (Int.mul_nonneg (Int.mul_nonneg (by decide) delay) pull) rest

theorem change_rest_nonneg (dividend : 0 ≤ p.dividend weight) :
    0 ≤ (p.change weight divisor).rest :=
  Int.tmod_nonneg divisor dividend

theorem change_rest_lt (positive : 0 < divisor) : (p.change weight divisor).rest < divisor :=
  Int.tmod_lt_of_pos _ positive

theorem change_slows (dividend : 0 ≤ p.dividend weight) (negative : divisor ≤ 0) :
    p.delay ≤ (p.change weight divisor).delay := by
  have quotient : (p.dividend weight).tdiv divisor ≤ 0 := Int.tdiv_nonpos_of_nonneg_of_nonpos
    dividend negative
  unfold change
  dsimp only
  omega

theorem change_speeds (dividend : 0 ≤ p.dividend weight) (positive : 0 ≤ divisor) :
    (p.change weight divisor).delay ≤ p.delay := by
  have quotient := Int.tdiv_nonneg dividend positive
  unfold change
  dsimp only
  omega

theorem dividend_lt (delay : 0 ≤ p.delay) (carried : p.rest < (4 * count - 3) * scale)
    (most : weight ≤ scale) : p.dividend weight < (2 * p.delay + 4 * count - 3) * scale := by
  have pulled : p.delay * weight ≤ p.delay * scale := Int.mul_le_mul_of_nonneg_left most delay
  unfold Pace.dividend
  nlinarith

theorem scale_pos (rest : 0 ≤ p.rest) (carried : p.rest < (4 * count - 3) * scale)
    (first : 1 ≤ count) : 0 < scale := by
  nlinarith

theorem nonneg_change (delay : 0 ≤ p.delay) (rest : 0 ≤ p.rest)
    (carried : p.rest < (4 * count - 3) * scale) (first : 1 ≤ count) (pull : 0 ≤ weight)
    (most : weight ≤ scale) : 0 ≤ (p.change weight ((4 * count + 1) * scale)).delay := by
  have positive := scale_pos rest carried first
  have dividend := p.dividend_nonneg delay rest pull
  have heavy := dividend_lt delay carried most
  have enough : (2 * p.delay + 4 * count - 3) * scale ≤
      (p.delay + 1) * ((4 * count + 1) * scale) := by
    have slack : 0 ≤ (p.delay * (4 * count - 1) + 4) * scale :=
      Int.mul_nonneg (Int.add_nonneg (Int.mul_nonneg delay (by omega)) (by decide)) positive.le
    calc (2 * p.delay + 4 * count - 3) * scale
        ≤ (2 * p.delay + 4 * count - 3) * scale + (p.delay * (4 * count - 1) + 4) * scale :=
          Int.le_add_of_nonneg_right slack
      _ = (p.delay + 1) * ((4 * count + 1) * scale) := by ring
  have quotient : (p.dividend weight).tdiv ((4 * count + 1) * scale) < p.delay + 1 := by
    rw [Int.tdiv_eq_ediv_of_nonneg dividend]
    exact Int.ediv_lt_of_lt_mul (Int.mul_pos (by omega) positive) (by omega)
  unfold change
  dsimp only
  omega

theorem two_le_change (delay : 2 ≤ p.delay) (rest : 0 ≤ p.rest)
    (carried : p.rest < (4 * count - 3) * scale) (first : 1 ≤ count) (pull : 0 ≤ weight)
    (most : weight ≤ scale) : 2 ≤ (p.change weight ((4 * count + 1) * scale)).delay := by
  have positive := scale_pos rest carried first
  have dividend := p.dividend_nonneg (by omega) rest pull
  have heavy := dividend_lt (by omega) carried most
  have enough : (2 * p.delay + 4 * count - 3) * scale ≤
      (p.delay - 1) * ((4 * count + 1) * scale) := by
    have slack : 0 ≤ (p.delay - 2) * (4 * count - 1) * scale :=
      Int.mul_nonneg (Int.mul_nonneg (by omega) (by omega)) positive.le
    calc (2 * p.delay + 4 * count - 3) * scale
        ≤ (2 * p.delay + 4 * count - 3) * scale + (p.delay - 2) * (4 * count - 1) * scale :=
          Int.le_add_of_nonneg_right slack
      _ = (p.delay - 1) * ((4 * count + 1) * scale) := by ring
  have quotient : (p.dividend weight).tdiv ((4 * count + 1) * scale) < p.delay - 1 := by
    rw [Int.tdiv_eq_ediv_of_nonneg dividend]
    exact Int.ediv_lt_of_lt_mul (Int.mul_pos (by omega) positive) (by omega)
  unfold change
  dsimp only
  omega

theorem change_turns (delay : 0 ≤ p.delay) (rest : 0 ≤ p.rest) (positive : 0 < scale) :
    (p.change scale scale).delay ≤ -p.delay := by
  have whole : 2 * p.delay ≤ (p.dividend scale).tdiv scale := by
    rw [Int.tdiv_eq_ediv_of_nonneg (p.dividend_nonneg delay rest positive.le)]
    refine Int.le_ediv_of_mul_le positive ?_
    unfold Pace.dividend
    omega
  unfold change
  dsimp only
  omega

end Change

end Pace
