import MotionBoard.Lib.Pace

namespace Pace

def climb (c0 : ℕ) : ℕ → Pace
  | 0 => ⟨c0, 0⟩
  | n + 1 => (climb c0 n).change 1 (4 * (n + 1) + 1)

/-- The first delay, and twice the delays of the steps since. -/
def travel (c0 n : ℕ) : Int := (climb c0 n).delay * (4 * n + 1) - (climb c0 n).rest

section Climb
variable {c0 c : ℕ} (n : ℕ)

theorem climb_bounds (two : 2 ≤ c0) :
    2 ≤ (climb c0 n).delay ∧ 0 ≤ (climb c0 n).rest ∧ (climb c0 n).rest ≤ 4 * n := by
  induction n with
  | zero => exact ⟨Int.ofNat_le.mpr two, Int.le_refl 0, Int.le_refl 0⟩
  | succ n ih =>
      obtain ⟨delay, rest, carried⟩ := ih
      have dividend : 0 ≤ (climb c0 n).dividend 1 := dividend_nonneg (by omega) rest (by decide)
      have least : 2 ≤ ((climb c0 n).change 1 ((4 * ((n : Int) + 1) + 1) * 1)).delay :=
        two_le_change delay rest (by omega) (by omega) (by decide) (Int.le_refl 1)
      rw [Int.mul_one] at least
      have most : ((climb c0 n).change 1 (4 * ((n : Int) + 1) + 1)).rest < _ :=
        change_rest_lt (by omega)
      refine ⟨least, change_rest_nonneg dividend, ?_⟩
      unfold climb
      push_cast
      omega

theorem climb_le (two : 2 ≤ c0) : (climb c0 (n + 1)).delay ≤ (climb c0 n).delay := by
  obtain ⟨delay, rest, -⟩ := climb_bounds n two
  exact change_speeds (dividend_nonneg (by omega) rest (by decide)) (by omega)

theorem climb_antitone (two : 2 ≤ c0) {m : ℕ} (le : m ≤ n) :
    (climb c0 n).delay ≤ (climb c0 m).delay := by
  induction n, le using Nat.le_induction with
  | base => exact Int.le_refl _
  | succ n _ ih => exact Int.le_trans (climb_le n two) ih

theorem travel_succ : travel c0 (n + 1) = travel c0 n + 2 * (climb c0 n).delay := by
  have divided := Int.tdiv_mul_add_tmod ((climb c0 n).dividend 1) (4 * (n + 1) + 1)
  unfold travel
  rw [climb]
  unfold change
  dsimp only
  push_cast
  generalize ((climb c0 n).dividend 1).tmod (4 * (n + 1) + 1) = rest at *
  generalize ((climb c0 n).dividend 1).tdiv (4 * (n + 1) + 1) = quotient at *
  unfold dividend at divided
  linarith

theorem climb_mono (two : 2 ≤ c0) (le : c0 ≤ c) :
    travel c0 n ≤ travel c n ∧ (climb c0 n).delay ≤ (climb c n).delay := by
  have delays (n : ℕ) (gone : travel c0 n ≤ travel c n) :
      (climb c0 n).delay ≤ (climb c n).delay := by
    obtain ⟨-, rest, carried⟩ := climb_bounds n two
    obtain ⟨-, rest', carried'⟩ := climb_bounds n (two.trans le)
    by_contra less
    have product : (climb c n).delay * (4 * n + 1) ≤ ((climb c0 n).delay - 1) * (4 * n + 1) :=
      Int.mul_le_mul_of_nonneg_right (by omega) (by omega)
    unfold travel at gone
    linarith
  induction n with
  | zero =>
      have begins : travel c0 0 ≤ travel c 0 := by
        simp only [travel, climb]
        omega
      exact ⟨begins, delays 0 begins⟩
  | succ n ih =>
      obtain ⟨gone, delay⟩ := ih
      have further : travel c0 (n + 1) ≤ travel c (n + 1) := by
        rw [travel_succ, travel_succ]
        omega
      exact ⟨further, delays (n + 1) further⟩

theorem climb_stays {delay rest : Int} (two : 2 ≤ delay) (nonneg : 0 ≤ rest)
    (pace : climb c0 n = ⟨delay, rest⟩) (j : ℕ) (room : (2 * delay - 4) * j ≤ 4 * n - rest) :
    climb c0 (n + j) = ⟨delay, rest + 2 * delay * j⟩ := by
  induction j with
  | zero =>
      rw [Nat.add_zero, pace]
      simp
  | succ j ih =>
      have shorter : (2 * delay - 4) * (j : Int) ≤ (2 * delay - 4) * (j + 1 : ℕ) :=
        Int.mul_le_mul_of_nonneg_left (by omega) (by omega)
      have before := ih (shorter.trans room)
      have product : 0 ≤ delay * (j : Int) := Int.mul_nonneg (by omega) (by omega)
      push_cast at room
      have small : 2 * delay * 1 + (rest + 2 * delay * j) < 4 * ((n + j : ℕ) + 1) + 1 := by
        push_cast
        linarith
      have positive : 0 ≤ 2 * delay * 1 + (rest + 2 * delay * j) := by linarith
      rw [← Nat.add_assoc, climb, before]
      unfold change dividend
      dsimp only
      rw [Int.tdiv_eq_zero_of_lt positive small, Int.tmod_eq_of_lt positive small]
      push_cast
      congr 1
      · omega
      · ring

end Climb

/-- The count, the delay and the remainder of the next step that makes the delay shorter. -/
def skip (n delay rest : ℕ) : ℕ × ℕ × ℕ :=
  let j := (4 * n - rest) / (2 * delay - 4)
  let dividend := 2 * delay + (rest + 2 * delay * j)
  let divisor := 4 * (n + j + 1) + 1
  (n + j + 1, delay - dividend / divisor, dividend % divisor)

def skipTo (target : ℕ) : ℕ → ℕ × ℕ × ℕ → ℕ × ℕ × ℕ
  | 0, at_ => at_
  | fuel + 1, at_ =>
      if at_.2.1 ≤ target then at_ else skipTo target fuel (skip at_.1 at_.2.1 at_.2.2)

section Skip
variable {c0 target : ℕ}

theorem skip_climb (two : 2 ≤ c0) {n delay rest : ℕ} (slow : 2 < delay)
    (pace : climb c0 n = ⟨delay, rest⟩) :
    climb c0 (skip n delay rest).1 =
      ⟨(skip n delay rest).2.1, (skip n delay rest).2.2⟩ := by
  obtain ⟨-, -, carried⟩ := climb_bounds n two
  rw [pace] at carried
  dsimp only at carried
  have room := Nat.mul_div_le (4 * n - rest) (2 * delay - 4)
  unfold skip
  dsimp only
  generalize (4 * n - rest) / (2 * delay - 4) = j at *
  zify [show rest ≤ 4 * n by omega, show 4 ≤ 2 * delay by omega] at room
  have stays := climb_stays n (by omega) (by omega) pace j room
  have least := (climb_bounds (n + j + 1) two).1
  rw [climb, stays] at least ⊢
  have dividend : (⟨delay, rest + 2 * delay * j⟩ : Pace).dividend 1 =
      (2 * delay + (rest + 2 * delay * j) : ℕ) := by
    unfold Pace.dividend
    push_cast
    ring
  have divisor : 4 * (((n + j : ℕ) : Int) + 1) + 1 = (4 * (n + j + 1) + 1 : ℕ) := by
    push_cast
    ring
  unfold change at least ⊢
  rw [dividend, divisor, ← Int.ofNat_tdiv] at least ⊢
  dsimp only at least ⊢
  generalize (2 * delay + (rest + 2 * delay * j)) / (4 * (n + j + 1) + 1) = quotient at *
  rw [Int.ofNat_tmod, Int.ofNat_sub (by omega)]

theorem skipTo_climb (two : 2 ≤ c0) (least : 2 ≤ target) (fuel : ℕ) {at_ : ℕ × ℕ × ℕ}
    (pace : climb c0 at_.1 = ⟨at_.2.1, at_.2.2⟩) :
    climb c0 (skipTo target fuel at_).1 =
      ⟨(skipTo target fuel at_).2.1, (skipTo target fuel at_).2.2⟩ := by
  induction fuel generalizing at_ with
  | zero => exact pace
  | succ fuel ih =>
      unfold skipTo
      split
      · exact pace
      · exact ih (skip_climb two (by omega) pace)

theorem climb_of_skipTo {fuel n delay rest : ℕ} (two : 2 ≤ c0) (least : 2 ≤ target)
    (skips : skipTo target fuel (0, c0, 0) = (n, delay, rest)) : climb c0 n = ⟨delay, rest⟩ := by
  have pace := skipTo_climb two least fuel (show climb c0 (0, c0, 0).1 = _ from rfl)
  rw [skips] at pace
  exact pace

end Skip

end Pace
