import Mathlib.Algebra.Order.Floor.Ring
import Mathlib.Data.Int.Log
import Mathlib.Data.Rat.Floor
import Mathlib.Tactic.Linarith
import Mathlib.Tactic.NormNum
import Mathlib.Tactic.Ring
import MotionBoard.Lib.Binary64

namespace Binary64
variable {q : ℚ}

theorem scale_eq (q : ℚ) (k : ℤ) : scale q k = q * 2 ^ k := by
  cases k with
  | ofNat n => simp [scale]
  | negSucc n => simp [scale, zpow_negSucc, div_eq_mul_inv]

theorem exponent_eq (pos : 0 < q) : exponent q = Int.log 2 q := by
  have num : q.num.toNat ≠ 0 := by
    have := Rat.num_pos.mpr pos
    omega
  have den : q.den ≠ 0 := q.den_ne_zero
  have value : q = (q.num.toNat : ℚ) / (q.den : ℚ) := by
    have sign : ((q.num.toNat : ℤ) : ℚ) = q.num :=
      congrArg _ (Int.toNat_of_nonneg (Rat.num_nonneg.mpr pos.le))
    rw [Int.cast_natCast] at sign
    rw [sign]
    exact (Rat.num_div_den q).symm
  have upper (n : ℕ) : (n : ℚ) < 2 ^ (n.log2 + 1) := by exact_mod_cast Nat.lt_log2_self
  have lower {n : ℕ} (some_ : n ≠ 0) : (2 : ℚ) ^ n.log2 ≤ n := by
    exact_mod_cast Nat.log2_self_le some_
  have denPos : (0 : ℚ) < q.den := by exact_mod_cast Nat.pos_of_ne_zero den
  have low := lower num
  have low' := lower den
  have high := upper q.num.toNat
  have high' := upper q.den
  unfold exponent
  dsimp only
  generalize q.num.toNat.log2 = a at *
  generalize q.den.log2 = b at *
  have below : (2 : ℚ) ^ ((a : ℤ) - b - 1) ≤ q := by
    rw [value, le_div_iff₀ denPos]
    calc (2 : ℚ) ^ ((a : ℤ) - b - 1) * q.den
        ≤ 2 ^ ((a : ℤ) - b - 1) * 2 ^ (b + 1) :=
          mul_le_mul_of_nonneg_left high'.le (zpow_nonneg two_pos.le _)
      _ = 2 ^ a := by
          rw [← zpow_natCast, ← zpow_natCast, ← zpow_add₀ two_ne_zero]
          congr 1
          push_cast
          ring
      _ ≤ q.num.toNat := low
  have above : q < (2 : ℚ) ^ ((a : ℤ) - b + 1) := by
    rw [value, div_lt_iff₀ denPos]
    calc (q.num.toNat : ℚ) < 2 ^ (a + 1) := high
      _ = 2 ^ ((a : ℤ) - b + 1) * 2 ^ b := by
          rw [← zpow_natCast, ← zpow_natCast, ← zpow_add₀ two_ne_zero]
          congr 1
          push_cast
          ring
      _ ≤ 2 ^ ((a : ℤ) - b + 1) * q.den :=
          mul_le_mul_of_nonneg_left low' (zpow_nonneg two_pos.le _)
  have least := (Int.zpow_le_iff_le_log one_lt_two pos).mp below
  have most := (Int.lt_zpow_iff_log_lt one_lt_two pos).mp above
  rw [scale_eq, one_mul]
  split
  · rename_i fits
    have := (Int.zpow_le_iff_le_log one_lt_two pos).mp fits
    omega
  · rename_i exceeds
    have := (Int.lt_zpow_iff_log_lt one_lt_two pos).mp (not_le.mp exceeds)
    omega

theorem roundEven_cases (q : ℚ) :
    (roundEven q = ⌊q⌋ ∧ q - ⌊q⌋ ≤ 1 / 2) ∨ (roundEven q = ⌊q⌋ + 1 ∧ 1 / 2 ≤ q - ⌊q⌋) := by
  unfold roundEven
  have floor : q.floor = ⌊q⌋ := rfl
  rw [floor]
  dsimp only
  split
  · rename_i low
    exact .inl ⟨rfl, low.le⟩
  · rename_i low
    split
    · rename_i high
      exact .inr ⟨rfl, high.le⟩
    · rename_i high
      split
      · exact .inl ⟨rfl, not_lt.mp high⟩
      · exact .inr ⟨rfl, not_lt.mp low⟩

theorem abs_roundEven_sub (q : ℚ) : |(roundEven q : ℚ) - q| ≤ 1 / 2 := by
  have low := Int.floor_le q
  have high := Int.lt_floor_add_one q
  rw [abs_le]
  obtain ⟨same, near⟩ | ⟨same, near⟩ := roundEven_cases q
  · rw [same]
    constructor <;> linarith
  · rw [same]
    push_cast
    constructor <;> linarith

theorem le_roundEven {n : ℤ} (le : (n : ℚ) ≤ q) : n ≤ roundEven q := by
  have floor : n ≤ ⌊q⌋ := Int.le_floor.mpr le
  obtain ⟨same, -⟩ | ⟨same, -⟩ := roundEven_cases q <;> omega

theorem roundEven_le {n : ℤ} (le : q ≤ (n : ℚ)) : roundEven q ≤ n := by
  have floor : ⌊q⌋ ≤ n := by exact_mod_cast (Int.floor_le q).trans le
  obtain ⟨same, -⟩ | ⟨same, near⟩ := roundEven_cases q
  · omega
  · have ne : ⌊q⌋ ≠ n := by
      rintro rfl
      linarith
    omega

theorem round_eq (pos : 0 < q) :
    round q = roundEven (q * 2 ^ (52 - Int.log 2 q)) * 2 ^ (Int.log 2 q - 52) := by
  unfold round roundPos
  rw [if_neg pos.ne', if_neg pos.not_gt]
  dsimp only
  rw [exponent_eq pos, scale_eq, scale_eq, neg_sub]

theorem abs_round_sub (pos : 0 < q) : |round q - q| ≤ q / 2 ^ 53 := by
  have power := Int.zpow_log_le_self (R := ℚ) one_lt_two pos
  rw [round_eq pos]
  generalize Int.log 2 q = k at *
  have ulp : (0 : ℚ) < 2 ^ (k - 52) := zpow_pos two_pos _
  have unscaled : q * 2 ^ (52 - k) * 2 ^ (k - 52) = q := by
    rw [mul_assoc, ← zpow_add₀ two_ne_zero, sub_add_sub_cancel, sub_self, zpow_zero, mul_one]
  calc |(roundEven (q * 2 ^ (52 - k)) : ℚ) * 2 ^ (k - 52) - q|
      = |(roundEven (q * 2 ^ (52 - k)) : ℚ) - q * 2 ^ (52 - k)| * 2 ^ (k - 52) := by
        rw [← abs_of_pos ulp, ← abs_mul, abs_of_pos ulp, sub_mul, unscaled]
    _ ≤ 1 / 2 * 2 ^ (k - 52) := mul_le_mul_of_nonneg_right (abs_roundEven_sub _) ulp.le
    _ = 2 ^ k / 2 ^ 53 := by
        rw [zpow_sub₀ two_ne_zero]
        norm_num
        ring
    _ ≤ q / 2 ^ 53 := div_le_div_of_nonneg_right (by exact_mod_cast power) (by norm_num)

/-- A point of a grid that is fine enough for `q` is a whole number of units in its last place. -/
theorem grid_units (pos : 0 < q) {j : ℕ} (small : q < 2 ^ (53 - (j : ℤ))) (n : ℤ) :
    ∃ m : ℤ, (n : ℚ) / 2 ^ j = m * 2 ^ (Int.log 2 q - 52) := by
  have fine : Int.log 2 q < 53 - j :=
    (Int.lt_zpow_iff_log_lt one_lt_two pos).mp (by exact_mod_cast small)
  refine ⟨n * 2 ^ (52 - Int.log 2 q - j).toNat, ?_⟩
  have power : ((2 : ℚ) ^ (52 - Int.log 2 q - j).toNat) = 2 ^ (52 - Int.log 2 q - (j : ℤ)) := by
    rw [← zpow_natCast, Int.toNat_of_nonneg (by omega)]
  push_cast
  rw [power, mul_assoc, ← zpow_add₀ two_ne_zero, div_eq_mul_inv, ← zpow_natCast, ← zpow_neg]
  congr 2
  ring

theorem grid_le_round (pos : 0 < q) {j : ℕ} (small : q < 2 ^ (53 - (j : ℤ))) {n : ℤ}
    (le : (n : ℚ) / 2 ^ j ≤ q) : (n : ℚ) / 2 ^ j ≤ round q := by
  obtain ⟨m, units⟩ := grid_units pos small n
  rw [units] at le ⊢
  rw [round_eq pos]
  generalize Int.log 2 q = k at *
  have ulp : (0 : ℚ) < 2 ^ (k - 52) := zpow_pos two_pos _
  have whole : (m : ℚ) ≤ q * 2 ^ (52 - k) := by
    rw [← neg_sub k 52, zpow_neg, ← div_eq_mul_inv]
    exact (le_div_iff₀ ulp).mpr le
  exact mul_le_mul_of_nonneg_right (by exact_mod_cast le_roundEven whole) ulp.le

theorem round_le_grid (pos : 0 < q) {j : ℕ} (small : q < 2 ^ (53 - (j : ℤ))) {n : ℤ}
    (le : q ≤ (n : ℚ) / 2 ^ j) : round q ≤ (n : ℚ) / 2 ^ j := by
  obtain ⟨m, units⟩ := grid_units pos small n
  rw [units] at le ⊢
  rw [round_eq pos]
  generalize Int.log 2 q = k at *
  have ulp : (0 : ℚ) < 2 ^ (k - 52) := zpow_pos two_pos _
  have whole : q * 2 ^ (52 - k) ≤ (m : ℚ) := by
    rw [← neg_sub k 52, zpow_neg, ← div_eq_mul_inv]
    exact (div_le_iff₀ ulp).mpr le
  exact mul_le_mul_of_nonneg_right (by exact_mod_cast roundEven_le whole) ulp.le

theorem ofInt_natCast {n : ℕ} (small : n < 2 ^ 53) : ofInt n = n := by
  rcases Nat.eq_zero_or_pos n with rfl | some_
  · rfl
  · have pos : (0 : ℚ) < (n : ℤ) := by exact_mod_cast some_
    have fine : ((n : ℤ) : ℚ) < 2 ^ (53 - ((0 : ℕ) : ℤ)) := by
      have : (n : ℚ) < 2 ^ 53 := by exact_mod_cast small
      simpa using this
    have low := grid_le_round pos fine (n := n) (by simp)
    have high := round_le_grid pos fine (n := n) (by simp)
    unfold ofInt
    simp only [pow_zero, div_one, Int.cast_natCast] at low high ⊢
    exact le_antisymm high low

theorem toNat_toUInt32 (positive : 0 ≤ q) :
    ((toUInt32 q).toNat : ℤ) = min ⌊q⌋ (2 ^ 32 - 1) := by
  have floor : q.floor = ⌊q⌋ := rfl
  have whole : 0 ≤ ⌊q⌋ := Int.floor_nonneg.mpr positive
  unfold toUInt32
  rw [if_neg (not_lt.mpr positive), floor]
  split
  · rename_i small
    rw [UInt32.toNat_ofNat_of_lt' small]
    omega
  · rename_i large
    rw [UInt32.toNat_ofNat_of_lt' (by decide)]
    omega

structure Near (n : ℕ) (x y : ℚ) : Prop where
  below : y * (1 - 1 / 2 ^ 53) ^ n ≤ x
  above : x ≤ y * (1 + 1 / 2 ^ 53) ^ n

section Near
variable {n : ℕ} {x y c : ℚ}

theorem Near.refl (y : ℚ) : Near 0 y y := ⟨by simp, by simp⟩

theorem Near.pos (near : Near n x y) (pos : 0 < y) : 0 < x :=
  lt_of_lt_of_le (mul_pos pos (pow_pos (by norm_num) n)) near.below

theorem Near.round (near : Near n x y) (pos : 0 < y) : Near (n + 1) (round x) y := by
  have error := abs_le.mp (abs_round_sub (near.pos pos))
  constructor
  · calc y * (1 - 1 / 2 ^ 53) ^ (n + 1) = y * (1 - 1 / 2 ^ 53) ^ n * (1 - 1 / 2 ^ 53) := by
          rw [pow_succ, mul_assoc]
      _ ≤ x * (1 - 1 / 2 ^ 53) := mul_le_mul_of_nonneg_right near.below (by norm_num)
      _ ≤ Binary64.round x := by linarith
  · calc Binary64.round x ≤ x * (1 + 1 / 2 ^ 53) := by linarith
      _ ≤ y * (1 + 1 / 2 ^ 53) ^ n * (1 + 1 / 2 ^ 53) :=
          mul_le_mul_of_nonneg_right near.above (by norm_num)
      _ = y * (1 + 1 / 2 ^ 53) ^ (n + 1) := by rw [mul_assoc, ← pow_succ]

theorem Near.mul (near : Near n x y) (sign : 0 ≤ c) : Near n (x * c) (y * c) := by
  constructor
  · rw [mul_right_comm]
    exact mul_le_mul_of_nonneg_right near.below sign
  · rw [mul_right_comm]
    exact mul_le_mul_of_nonneg_right near.above sign

theorem Near.div (near : Near n x y) (sign : 0 ≤ c) : Near n (x / c) (y / c) := by
  rw [div_eq_mul_inv, div_eq_mul_inv]
  exact near.mul (inv_nonneg.mpr sign)

end Near

theorem round_nonpos (sign : q ≤ 0) : round q ≤ 0 := by
  rcases sign.eq_or_lt with rfl | neg
  · rfl
  · have same : round q = -round (-q) := by
      unfold round
      rw [if_neg neg.ne, if_pos neg, if_neg (neg_pos.mpr neg).ne', if_neg (by linarith)]
    have pos := ((Near.refl (-q)).round (neg_pos.mpr neg)).pos (neg_pos.mpr neg)
    rw [same]
    linarith

theorem toUInt32_of_nonpos (sign : q ≤ 0) : toUInt32 q = 0 := by
  rcases sign.eq_or_lt with rfl | neg
  · rfl
  · exact if_pos neg

end Binary64
