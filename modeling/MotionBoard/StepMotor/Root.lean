import Mathlib.Analysis.Real.Sqrt
import Mathlib.Tactic.Linarith
import Mathlib.Tactic.Ring
import MotionBoard.StepMotor.Ramp

namespace MotionBoard

def mysqrtPass (x xr q2 : UInt32) : UInt32 × UInt32 × UInt32 :=
  let f := xr + q2 ≤ x
  (if f then x - (xr + q2) else x, if f then xr >>> 1 + q2 else xr >>> 1, q2 >>> 2)

def mysqrtPasses (x : UInt32) : Nat → UInt32 × UInt32 × UInt32
  | 0 => (x, 0, 0x40000000)
  | k + 1 =>
      let (x, xr, q2) := mysqrtPasses x k
      mysqrtPass x xr q2

theorem mysqrtLoop_passes (x : UInt32) (n k : ℕ) :
    mysqrtLoop n (mysqrtPasses x k).1 (mysqrtPasses x k).2.1 (mysqrtPasses x k).2.2 =
      ((mysqrtPasses x (k + n)).1, (mysqrtPasses x (k + n)).2.1) := by
  induction n generalizing k with
  | zero => rfl
  | succ n ih => exact (ih (k + 1)).trans (by rw [Nat.add_right_comm, Nat.add_assoc])

theorem mysqrt_passes (x : UInt32) :
    mysqrt x =
      if (mysqrtPasses x 16).2.1 < (mysqrtPasses x 16).1 then (mysqrtPasses x 16).2.1 + 1
      else (mysqrtPasses x 16).2.1 := by
  have loop := mysqrtLoop_passes x 16 0
  unfold mysqrt
  rw [show mysqrtLoop 16 x 0 0x40000000 = _ from loop]

section Root
variable {n root whole : ℕ} {x xr q2 : UInt32}

/-- With `n` bits to go, `xr` is the root so far times `2 ^ n`, `x` what its square leaves of the
whole, and `q2` the square of the next bit. -/
structure Scanned (whole n root : ℕ) (x xr q2 : UInt32) : Prop where
  fits : root + 2 ^ n ≤ 2 ^ 16
  scaled : xr.toNat = root * 2 ^ n
  rest : x.toNat + root ^ 2 = whole
  left : x.toNat < 2 * (root * 2 ^ n) + 2 ^ n * 2 ^ n
  scan : n ≠ 0 → 4 * q2.toNat = 2 ^ n * 2 ^ n

theorem scanned_start (x : UInt32) : Scanned x.toNat 16 0 x 0 0x40000000 where
  fits := Nat.le_of_eq (Nat.zero_add _)
  scaled := rfl
  rest := rfl
  left := by
    have := x.toNat_lt
    omega
  scan _ := rfl

theorem Scanned.trial (scanned : Scanned whole (n + 1) root x xr q2) :
    q2.toNat = 2 ^ n * 2 ^ n ∧ (xr >>> 1).toNat = root * 2 ^ n ∧
      2 * (root * 2 ^ n) + 2 ^ n * 2 ^ n < 2 ^ 32 := by
  obtain ⟨fits, scaled, -, -, scan⟩ := scanned
  have scan := scan (Nat.succ_ne_zero n)
  rw [show (2 : ℕ) ^ (n + 1) = 2 * 2 ^ n from Nat.pow_succ'] at *
  generalize (2 : ℕ) ^ n = bit at *
  have four : 2 * bit * (2 * bit) = 4 * (bit * bit) := by ring
  refine ⟨by omega, ?_, ?_⟩
  · rw [UInt32.toNat_shiftRight, scaled, Nat.shiftRight_eq_div_pow]
    exact (congrArg (· / 2) (by ring)).trans (Nat.mul_div_cancel (root * bit) two_pos)
  · -- the sum is less than the square of the root with both bits of its range
    have square : (root + 2 * bit) * (root + 2 * bit) ≤ 2 ^ 16 * 2 ^ 16 := Nat.mul_le_mul fits fits
    have parts : (root + 2 * bit) * (root + 2 * bit) =
        root * root + 4 * (root * bit) + 4 * (bit * bit) := by ring
    rcases Nat.eq_zero_or_pos bit with rfl | pos
    · simp
    · have : 0 < bit * bit := Nat.mul_pos pos pos
      omega

theorem Scanned.sum (scanned : Scanned whole (n + 1) root x xr q2) :
    (xr + q2).toNat = 2 * (root * 2 ^ n) + 2 ^ n * 2 ^ n := by
  obtain ⟨bit, -, small⟩ := scanned.trial
  have scaled : xr.toNat = 2 * (root * 2 ^ n) := scanned.scaled.trans (by ring)
  rw [UInt32.toNat_add, scaled, bit]
  exact Nat.mod_eq_of_lt small

theorem Scanned.pass (scanned : Scanned whole (n + 1) root x xr q2) :
    ∃ root', Scanned whole n root' (mysqrtPass x xr q2).1 (mysqrtPass x xr q2).2.1
      (mysqrtPass x xr q2).2.2 := by
  obtain ⟨bit, half, small⟩ := scanned.trial
  have sum := scanned.sum
  obtain ⟨fits, -, rest, left, -⟩ := scanned
  have next : n ≠ 0 → 4 * (q2 >>> 2).toNat = 2 ^ n * 2 ^ n := by
    intro some_
    have even : 4 ∣ 2 ^ n * 2 ^ n := mul_dvd_mul (dvd_pow_self 2 some_) (dvd_pow_self 2 some_)
    rw [UInt32.toNat_shiftRight, bit, Nat.shiftRight_eq_div_pow]
    exact Nat.mul_div_cancel' even
  rw [show (2 : ℕ) ^ (n + 1) = 2 * 2 ^ n from Nat.pow_succ'] at fits left
  have twice : root * (2 * 2 ^ n) = 2 * (root * 2 ^ n) := by ring
  have four : 2 * 2 ^ n * (2 * 2 ^ n) = 4 * (2 ^ n * 2 ^ n) := by ring
  rw [twice, four] at left
  unfold mysqrtPass
  by_cases fit : xr + q2 ≤ x
  · simp only [fit, if_true]
    have taken : (x - (xr + q2)).toNat = x.toNat - (2 * (root * 2 ^ n) + 2 ^ n * 2 ^ n) := by
      rw [UInt32.toNat_sub_of_le _ _ fit, sum]
    rw [UInt32.le_iff_toNat_le, sum] at fit
    have grown : (root + 2 ^ n) * 2 ^ n = root * 2 ^ n + 2 ^ n * 2 ^ n := by ring
    have square : (root + 2 ^ n) ^ 2 = root ^ 2 + (2 * (root * 2 ^ n) + 2 ^ n * 2 ^ n) := by ring
    refine ⟨root + 2 ^ n, by omega, ?_, by omega, by omega, next⟩
    rw [UInt32.toNat_add, half, bit, grown]
    exact Nat.mod_eq_of_lt (by omega)
  · simp only [fit, if_false]
    rw [UInt32.le_iff_toNat_le, sum, not_le] at fit
    exact ⟨root, by omega, half, rest, fit, next⟩

theorem mysqrtPasses_scanned (x : UInt32) (k : ℕ) (bits : k + n = 16) :
    ∃ root, Scanned x.toNat n root (mysqrtPasses x k).1 (mysqrtPasses x k).2.1
      (mysqrtPasses x k).2.2 := by
  induction k generalizing n with
  | zero =>
      obtain rfl : n = 16 := (Nat.zero_add n).symm.trans bits
      exact ⟨0, scanned_start x⟩
  | succ k ih =>
      obtain ⟨root, scanned⟩ := ih (n := n + 1) (by omega)
      exact scanned.pass

theorem mysqrtPasses_root (x : UInt32) :
    (mysqrtPasses x 16).1.toNat + (mysqrtPasses x 16).2.1.toNat ^ 2 = x.toNat ∧
      (mysqrtPasses x 16).1.toNat ≤ 2 * (mysqrtPasses x 16).2.1.toNat ∧
      (mysqrtPasses x 16).2.1.toNat < 2 ^ 16 := by
  obtain ⟨root, fits, scaled, rest, left, -⟩ := mysqrtPasses_scanned x 16 (Nat.add_zero 16)
  rw [pow_zero, mul_one] at scaled left
  rw [scaled]
  exact ⟨rest, by omega, by omega⟩

theorem mysqrt_toNat (x : UInt32) :
    (mysqrt x).toNat =
      if x.toNat - x.toNat.sqrt * x.toNat.sqrt ≤ x.toNat.sqrt then x.toNat.sqrt
      else x.toNat.sqrt + 1 := by
  have spec := mysqrtPasses_root x
  rw [mysqrt_passes]
  generalize mysqrtPasses x 16 = found at *
  obtain ⟨left, root, _⟩ := found
  obtain ⟨parts, rest, small⟩ := spec
  dsimp only at *
  rw [sq] at parts
  have floor : x.toNat.sqrt = root.toNat := by
    refine (Nat.eq_sqrt.mpr ⟨by omega, ?_⟩).symm
    have square : (root.toNat + 1) * (root.toNat + 1) = root.toNat * root.toNat + 2 * root.toNat + 1 := by
      ring
    omega
  have remainder : x.toNat - root.toNat * root.toNat = left.toNat := by omega
  rw [floor, remainder]
  split
  · rename_i above
    rw [UInt32.lt_iff_toNat_lt] at above
    rw [if_neg (Nat.not_le.mpr above), UInt32.toNat_add, UInt32.toNat_one]
    exact Nat.mod_eq_of_lt (by omega)
  · rename_i below
    rw [UInt32.lt_iff_toNat_lt, not_lt] at below
    rw [if_pos below]

theorem mysqrt_le_iff (x : UInt32) (k : ℕ) : (mysqrt x).toNat ≤ k ↔ x.toNat ≤ k * k + k := by
  have low := Nat.sqrt_le x.toNat
  have high : x.toNat < (x.toNat.sqrt + 1) * (x.toNat.sqrt + 1) := Nat.lt_succ_sqrt x.toNat
  rw [mysqrt_toNat]
  generalize x.toNat.sqrt = r at *
  split
  · constructor
    · intro le
      have := Nat.mul_le_mul le le
      omega
    · intro le
      by_contra more
      have := Nat.mul_le_mul (Nat.not_le.mp more) (Nat.not_le.mp more)
      rw [Nat.succ_mul_succ] at this
      omega
  · constructor
    · intro le
      have := Nat.mul_le_mul le le
      omega
    · intro le
      by_contra more
      have less : k ≤ r := by omega
      have := Nat.mul_le_mul less less
      omega

theorem mysqrt_near (x : UInt32) : |((mysqrt x).toNat : ℝ) - √(x.toNat : ℝ)| < 1 / 2 := by
  have above := (mysqrt_le_iff x _).mp le_rfl
  have below : 0 < (mysqrt x).toNat → ((mysqrt x).toNat : ℝ) - 1 / 2 < √(x.toNat : ℝ) := by
    intro pos
    obtain ⟨k, next⟩ : ∃ k, (mysqrt x).toNat = k + 1 := ⟨_, (Nat.succ_pred_eq_of_pos pos).symm⟩
    have more : k * k + k < x.toNat := by
      rw [← not_le, ← mysqrt_le_iff, next]
      exact Nat.not_succ_le_self k
    have more : (k * k + k + 1 : ℝ) ≤ x.toNat := by exact_mod_cast more
    rw [next, Nat.cast_succ]
    refine Real.lt_sqrt_of_sq_lt ?_
    linarith
  generalize (mysqrt x).toNat = m at *
  have above : (x.toNat : ℝ) ≤ m * m + m := by exact_mod_cast above
  have most : √(x.toNat : ℝ) < m + 1 / 2 := by
    rw [Real.sqrt_lt' (by positivity)]
    linarith
  rw [abs_lt]
  refine ⟨by linarith, ?_⟩
  rcases Nat.eq_zero_or_pos m with rfl | pos
  · have := Real.sqrt_nonneg (x.toNat : ℝ)
    rw [Nat.cast_zero]
    linarith
  · have := below pos
    linarith

/-- `mysqrt` is the integer nearest to the square root, which is never half way between two, and none
of its sums wraps. -/
theorem mysqrt_nearest (x : UInt32) :
    (mysqrt x).toNat =
        (if x.toNat - x.toNat.sqrt * x.toNat.sqrt ≤ x.toNat.sqrt then x.toNat.sqrt
          else x.toNat.sqrt + 1) ∧
      |((mysqrt x).toNat : ℝ) - √(x.toNat : ℝ)| < 1 / 2 ∧
      (∀ k < 16, ∀ xr q2 : UInt32, (mysqrtPasses x k).2 = (xr, q2) →
        xr.toNat + q2.toNat < 2 ^ 32 ∧ (xr >>> 1).toNat + q2.toNat < 2 ^ 32) ∧
      (mysqrtPasses x 16).2.1.toNat + 1 < 2 ^ 32 := by
  refine ⟨mysqrt_toNat x, mysqrt_near x, ?_, ?_⟩
  · intro k less xr q2 found
    obtain ⟨root, scanned⟩ := mysqrtPasses_scanned x k (n := 15 - k + 1) (by omega)
    rw [found] at scanned
    obtain ⟨bit, half, small⟩ := scanned.trial
    have scaled : xr.toNat = 2 * (root * 2 ^ (15 - k)) := scanned.scaled.trans (by ring)
    rw [scaled, half, bit]
    omega
  · have small := (mysqrtPasses_root x).2.2
    omega

end Root

end MotionBoard
