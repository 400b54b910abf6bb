import MotionBoard.StepMotor.StartUp

namespace MotionBoard

def LongStart (accel : UInt32) (speed : ℕ) : Prop :=
  1 ≤ speed ∧ speed ≤ 500000 ∨
    1 ≤ accel.toNat ∧ accel.toNat ≤ if speed = 0 then 28571428 else 200000000

def ShortStart (accel : UInt32) (speed : ℕ) : Prop :=
  333333 < speed ∧ speed ≤ 500000 ∧ (accel.toNat = 0 ∨ 200000000 < accel.toNat) ∨
    speed = 0 ∧ 9523809 < accel.toNat ∧ accel.toNat ≤ 28571428

section Root
variable (accel : UInt32) (k : ℕ)

theorem mysqrt_quotient_le_iff : (mysqrt (200000000 / accel)).toNat ≤ k ↔
    accel.toNat = 0 ∨ 200000000 < (k * k + k + 1) * accel.toNat := by
  rw [mysqrt_le_iff, UInt32.toNat_div]
  change 200000000 / accel.toNat ≤ _ ↔ _
  rcases Nat.eq_zero_or_pos accel.toNat with none_ | pos
  · simp [none_]
  · rw [← Nat.lt_add_one_iff, Nat.div_lt_iff_lt_mul pos]
    exact (or_iff_right (Nat.ne_of_gt pos)).symm

theorem mysqrt_quotient_small : (mysqrt (200000000 / accel)).toNat ≤ 14142 := by
  rw [mysqrt_quotient_le_iff]
  omega

/-- At 1 MHz no root but zero comes out below 3 in 16 bits. -/
theorem narrowed_root {k : ℕ} (pos : 0 < k) (small : k ≤ 14142) : 3 ≤ 169 * (100 * k) / 250 % 65536 := by
  have apart : ∀ turn < 15, ∀ rest < 15, (327680 * turn + rest) % 338 = 0 → turn = 0 ∧ rest = 0 := by
    decide
  by_contra short
  -- five times the delay is that many turns of 16 bits, with almost nothing left
  obtain ⟨turn, rest, few, little, parts⟩ : ∃ turn rest, turn < 15 ∧ rest < 15 ∧
      338 * k = 327680 * turn + rest :=
    ⟨169 * (100 * k) / 250 / 65536, 338 * k - 327680 * (169 * (100 * k) / 250 / 65536), by omega,
      by omega, by omega⟩
  obtain ⟨rfl, rfl⟩ := apart turn few rest little (parts ▸ Nat.mul_mod_right 338 k)
  omega

end Root

namespace StepInfo

section Plan
variable {psrd p : StepInfo} {e : Event} {rcr : UInt16} {accel : UInt32} {speed : ℕ}

theorem planned_stepDelay (plan : psrd.planned e = some (p, rcr))
    (asks : e.asks = some (accel, speed)) :
    p.stepDelay.toNat =
      if speed = 0 then 169 * (mysqrt (200000000 / accel)).toNat / 250
      else if speed ≤ 15 then max (169 * (mysqrt (200000000 / accel)).toNat / 250) (10000 / speed)
      else max (169 * (100 * (mysqrt (200000000 / accel)).toNat) / 250 % 65536) (1000000 / speed) := by
  obtain ⟨wide, signed, values⟩ := planned_values plan asks
  have small := mysqrt_quotient_small accel
  have first := firstDelay_mod accel values.fre
  have least := values.quotient.2
  have longer : p.stepDelay.toNat = max (firstDelay p.hmStepFre accel).toNat p.minDelay.toNat := by
    rw [values.stepDelay]
    change (if _ then _ else _ : UInt16).toNat = _
    split
    · rename_i le
      exact (Nat.max_eq_right (UInt16.le_iff_toNat_le.mp le)).symm
    · rename_i more
      rw [UInt16.le_iff_toNat_le] at more
      omega
  rw [exactFirstDelay_eq, values.fre] at first
  rw [values.fre] at least
  rw [longer, least]
  generalize (mysqrt (200000000 / accel)).toNat = k at *
  rcases Nat.eq_zero_or_pos speed with rfl | pos
  · rw [if_pos (Nat.zero_le 15), show 10000 / 10000 * k = k from Nat.one_mul k] at first
    rw [if_pos rfl, Nat.div_zero, Nat.max_zero]
    omega
  · rw [if_neg (Nat.ne_of_gt pos)]
    split
    · rename_i slow
      rw [if_pos slow, show 10000 / 10000 * k = k from Nat.one_mul k] at first
      congr 1
      omega
    · rename_i fast
      rw [if_neg fast, show 1000000 / 10000 * k = 100 * k from rfl] at first
      congr 1
      omega

theorem two_le_quotient_iff (pos : 0 < speed) : 2 ≤ 1000000 / speed ↔ speed ≤ 500000 := by
  rw [Nat.le_div_iff_mul_le pos]
  omega

theorem stepDelay_long_iff (plan : psrd.planned e = some (p, rcr))
    (asks : e.asks = some (accel, speed)) : 2 ≤ p.stepDelay ↔ LongStart accel speed := by
  have delay := planned_stepDelay plan asks
  have small := mysqrt_quotient_small accel
  have none_ := mysqrt_quotient_le_iff accel 0
  have few := mysqrt_quotient_le_iff accel 2
  rw [UInt16.le_iff_toNat_le, delay]
  unfold LongStart
  change 2 ≤ _ ↔ _
  generalize (mysqrt (200000000 / accel)).toNat = k at *
  rcases Nat.eq_zero_or_pos speed with rfl | pos
  · rw [if_pos rfl, if_pos rfl]
    omega
  · rw [if_neg (Nat.ne_of_gt pos), if_neg (Nat.ne_of_gt pos)]
    split
    · rename_i slow
      have long : 10000 / 15 ≤ 10000 / speed := Nat.div_le_div_left slow pos
      omega
    · rename_i fast
      have least := two_le_quotient_iff pos
      have root := fun some_ => narrowed_root (k := k) some_ small
      rw [le_max_iff, least]
      omega

theorem stepDelay_short_iff (plan : psrd.planned e = some (p, rcr))
    (asks : e.asks = some (accel, speed)) : p.stepDelay = 2 ↔ ShortStart accel speed := by
  have delay := planned_stepDelay plan asks
  have small := mysqrt_quotient_small accel
  have none_ := mysqrt_quotient_le_iff accel 0
  have few := mysqrt_quotient_le_iff accel 2
  have more := mysqrt_quotient_le_iff accel 4
  rw [← UInt16.toNat_inj, delay]
  unfold ShortStart
  change _ = 2 ↔ _
  generalize (mysqrt (200000000 / accel)).toNat = k at *
  rcases Nat.eq_zero_or_pos speed with rfl | pos
  · rw [if_pos rfl]
    omega
  · rw [if_neg (Nat.ne_of_gt pos)]
    split
    · rename_i slow
      have long : 10000 / 15 ≤ 10000 / speed := Nat.div_le_div_left slow pos
      omega
    · rename_i fast
      have least := two_le_quotient_iff pos
      have most : 1000000 / speed < 3 ↔ 333333 < speed := by
        rw [Nat.div_lt_iff_lt_mul pos]
        omega
      have root := fun some_ => narrowed_root (k := k) some_ small
      generalize 1000000 / speed = m at *
      omega

end Plan

end StepInfo

end MotionBoard
