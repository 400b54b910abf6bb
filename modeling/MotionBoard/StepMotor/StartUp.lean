import MotionBoard.Lib.Rounding
import MotionBoard.StepMotor.Motion
import MotionBoard.StepMotor.Root

namespace MotionBoard

def Event.asks : Event → Option (UInt32 × ℕ)
  | .move _ _ accel _ speed => some (accel, speed.toNat)
  | .startHoming _ accel speed | .startFreeRun _ accel speed | .startRun _ accel speed =>
      some (accel, speed.toInt.natAbs)
  | _ => none

def Event.unsized : Event → Bool
  | .startHoming _ _ speed | .startFreeRun _ _ speed | .startRun _ _ speed =>
      speed = Int32.minValue
  | _ => false

def exactFirstDelay (fre : ℕ) (accel : UInt32) : ℤ :=
  ⌊((fre / 10000 : ℕ) : ℚ) * (676 / 1000) * ((mysqrt (200000000 / accel)).toNat : ℚ)⌋

def exactMaxSLim (method : Method) (speed : ℕ) (accel : UInt32) : ℤ :=
  match method with
  | .sCurve => ⌊(speed : ℚ) * (1358695652173913 / 1000000000000000) * speed / accel.toNat⌋
  | .tCurve => ((speed / 2 * speed / accel.toNat : ℕ) : ℤ)

namespace StepInfo

/-- A plan divides by nothing that is zero, its exact values fit where they are stored, and they are
what is stored there, the number of steps of an S curve up to the rounding of `double`. -/
structure StartExact (p : StepInfo) (accel : UInt32) (speed : ℕ) : Prop where
  accel_ne : accel ≠ 0
  speed_ne : speed ≠ 0
  minDelay : p.hmStepFre.toNat / speed ≤ 65535
  firstDelay : exactFirstDelay p.hmStepFre.toNat accel ≤ 65535
  maxSLim : exactMaxSLim p.method speed accel < 2 ^ 32
  minDelay_eq : p.minDelay.toNat = p.hmStepFre.toNat / speed
  stepDelay_eq : (p.stepDelay.toNat : ℤ) =
    max (exactFirstDelay p.hmStepFre.toNat accel) (p.hmStepFre.toNat / speed : ℕ)
  n2_near : |(p.n2.toNat : ℤ) - exactMaxSLim p.method speed accel| ≤
    match p.method with
    | .sCurve => 1
    | .tCurve => 0

section Plan
variable {psrd p : StepInfo} {e : Event} {rcr : UInt16} {accel : UInt32} {speed : ℕ}

structure PlanValues (psrd p : StepInfo) (e : Event) (accel : UInt32) (speed : ℕ) (wide : UInt64)
    (signed : ℤ) : Prop where
  method : p.method = psrd.method
  fre : p.hmStepFre.toNat = if speed ≤ 15 then 10000 else 1000000
  minDelay : p.minDelay = (p.hmStepFre / wide).toUInt16
  stepDelay : p.stepDelay = max (firstDelay p.hmStepFre accel) p.minDelay
  n2 : p.n2 = maxSLim psrd.method wide signed accel
  sized : ¬ e.unsized → wide.toNat = speed ∧ signed = speed
  unsized : e.unsized → speed = 2 ^ 31 ∧ wide.toNat = 2 ^ 64 - 2 ^ 31 ∧ signed = -2 ^ 31

theorem toNat_timBaseFre (speed : UInt32) :
    (timBaseFre speed).toNat = if speed.toNat ≤ 15 then 10000 else 1000000 := by
  unfold timBaseFre
  rw [ite_self]
  have slow : speed ≤ 15 ↔ speed.toNat ≤ 15 := UInt32.le_iff_toNat_le
  simp only [slow]
  split
  · rfl
  · rfl

theorem magnitude_toInt {speed : Int32} (ne : speed ≠ Int32.minValue) :
    (magnitude speed).toInt = speed.toInt.natAbs := by
  have size := toNat_magnitude speed
  have value := toInt_cases (magnitude speed)
  have low := speed.le_toInt
  have high := speed.toInt_lt
  have above : speed.toInt ≠ -2 ^ 31 := fun least => ne (Int32.toInt_inj.mp least)
  omega

theorem toInt_wide (speed : Int32) :
    0 ≤ speed.toInt → (speed.toInt64.toUInt64.toNat : ℤ) = speed.toInt := by
  intro positive
  rw [← Int32.toInt_toInt64] at positive ⊢
  change (speed.toInt64.toBitVec.toNat : ℤ) = speed.toInt64.toBitVec.toInt
  have positive : 0 ≤ speed.toInt64.toBitVec.toInt := positive
  rw [BitVec.toInt_eq_toNat_cond] at positive ⊢
  omega

theorem startPhase_max (psrd : StepInfo) : ∃ phase, psrd.startPhase =
    { psrd with
      stepDelay := max psrd.stepDelay psrd.minDelay, runState := phase, accelCount := 0 } := by
  unfold startPhase
  change ∃ phase, _ = { psrd with stepDelay := (if psrd.stepDelay ≤ psrd.minDelay then
    psrd.minDelay else psrd.stepDelay), runState := phase, accelCount := 0 }
  split
  · exact ⟨_, rfl⟩
  · exact ⟨_, rfl⟩

theorem movePlan_values (psrd : StepInfo) (io : Pins) (step : Int32) (accel decel speed : UInt32) :
    PlanValues psrd (psrd.movePlan step accel speed) (.move io step accel decel speed) accel
      speed.toNat speed.toUInt64 speed.toNat := by
  obtain ⟨_, _, enable⟩ := (psrd.towards step).hmMotorEnableAxis_frame true
  unfold movePlan planMove resetMove
  rw [enable]
  obtain ⟨phase, plan⟩ := startPhase_max _
  rw [plan]
  exact ⟨rfl, toNat_timBaseFre speed, rfl, rfl, rfl, fun _ => ⟨UInt32.toNat_toUInt64 speed, rfl⟩,
    nofun⟩

theorem runPlan_values (psrd : StepInfo) (io : Pins) (accel : UInt32) (speed : Int32)
    (named : e.unsized = decide (speed = Int32.minValue)) :
    PlanValues psrd (psrd.runPlan io accel speed) e accel speed.toInt.natAbs
      (magnitude speed).toInt64.toUInt64 (magnitude speed).toInt := by
  have fre : (timBaseFre (magnitude speed).toUInt32).toNat =
      if speed.toInt.natAbs ≤ 15 then 10000 else 1000000 := by
    rw [← toNat_magnitude]
    exact toNat_timBaseFre _
  obtain ⟨_, _, enable⟩ := (psrd.towards speed).enable_frame io
  unfold runPlan planRun resetRun
  dsimp only
  rw [enable]
  obtain ⟨phase, plan⟩ := startPhase_max _
  rw [plan]
  refine ⟨rfl, fre, rfl, rfl, rfl, fun sized => ?_, fun unsized => ?_⟩
  · rw [named, decide_eq_true_iff] at sized
    have value := magnitude_toInt sized
    refine ⟨?_, value⟩
    have wide := toInt_wide (magnitude speed)
    omega
  · rw [named, decide_eq_true_iff] at unsized
    rw [unsized]
    decide

theorem planned_values (plan : psrd.planned e = some (p, rcr))
    (asks : e.asks = some (accel, speed)) :
    ∃ wide signed, PlanValues psrd p e accel speed wide signed := by
  obtain ⟨io, step, accel', decel, speed', rfl, -, rfl, -⟩ |
    ⟨_, io, accel', speed', ⟨rfl, rfl⟩ | ⟨rfl, rfl⟩ | ⟨rfl, rfl⟩, rfl, -⟩ := planned_cases plan
  all_goals obtain ⟨rfl, rfl⟩ := Prod.mk.inj (Option.some.inj asks)
  · exact ⟨_, _, movePlan_values psrd io step accel' decel speed'⟩
  · exact ⟨_, _, { runPlan_values _ io accel' speed' (by rfl) with }⟩
  · exact ⟨_, _, { runPlan_values _ io accel' speed' (by rfl) with }⟩
  · exact ⟨_, _, { runPlan_values _ io accel' speed' (by rfl) with }⟩

theorem mysqrt_small (x : UInt32) : (mysqrt x).toNat ≤ 65536 :=
  (mysqrt_le_iff x 65536).mpr (by have := x.toNat_lt; omega)

theorem quotient_le_iff (some_ : accel ≠ 0) :
    (200000000 / accel).toNat ≤ 969 * 969 + 969 ↔ 213 ≤ accel.toNat := by
  have pos : accel.toNat ≠ 0 := fun zero => some_ (UInt32.toNat_inj.mp zero)
  rw [UInt32.toNat_div, ← Nat.lt_add_one_iff, Nat.div_lt_iff_lt_mul (Nat.pos_of_ne_zero pos)]
  change 200000000 < _ ↔ _
  omega

theorem exactFirstDelay_le_iff {fre : ℕ} (base : fre = if speed ≤ 15 then 10000 else 1000000)
    (some_ : accel ≠ 0) :
    exactFirstDelay fre accel ≤ 65535 ↔ speed ≤ 15 ∨ 213 ≤ accel.toNat := by
  rw [← quotient_le_iff some_, ← mysqrt_le_iff, ← Int.lt_add_one_iff]
  have small := mysqrt_small (200000000 / accel)
  unfold exactFirstDelay
  generalize (mysqrt (200000000 / accel)).toNat = k at *
  rw [Int.floor_lt]
  by_cases slow : speed ≤ 15
  · have k_small : (k : ℚ) ≤ 65536 := by exact_mod_cast small
    rw [base, if_pos slow]
    refine iff_of_true ?_ (.inl slow)
    norm_num
    linarith
  · rw [base, if_neg slow]
    simp only [slow, false_or]
    norm_num
    constructor
    · intro less
      have : (k : ℚ) < 970 := by linarith
      have : k < 970 := by exact_mod_cast this
      omega
    · intro le
      have : (k : ℚ) ≤ 969 := by exact_mod_cast le
      linarith

def Reached (method : Method) (speed : ℕ) (accel : UInt32) : Prop :=
  match method with
  | .sCurve => 1358695652173913 * speed ^ 2 < 1000000000000000 * 2 ^ 32 * accel.toNat
  | .tCurve => speed / 2 * speed < 2 ^ 32 * accel.toNat

theorem exactMaxSLim_lt_iff (method : Method) (some_ : accel ≠ 0) :
    exactMaxSLim method speed accel < 2 ^ 32 ↔ Reached method speed accel := by
  have pos : 0 < accel.toNat := Nat.pos_of_ne_zero fun zero => some_ (UInt32.toNat_inj.mp zero)
  unfold exactMaxSLim Reached
  cases method with
  | sCurve =>
      have pos : (0 : ℚ) < accel.toNat := by exact_mod_cast pos
      dsimp only
      rw [Int.floor_lt, div_lt_iff₀ pos, ← Nat.cast_lt (α := ℚ)]
      push_cast
      constructor <;> intro less <;> linarith
  | tCurve =>
      dsimp only
      rw [← Nat.div_lt_iff_lt_mul pos]
      exact_mod_cast Iff.rfl

/-- The factor of the root, which `double` holds a little too large. -/
theorem factor_bounds {fre : UInt64} (base : fre.toNat = if speed ≤ 15 then 10000 else 1000000) :
    let factor := Binary64.mul (Binary64.ofInt (fre / 10000).toNat) (Binary64.round (676 / 1000))
    ((fre.toNat / 10000 : ℕ) : ℚ) * (676 / 1000) ≤ factor ∧
      factor ≤ ((fre.toNat / 10000 : ℕ) : ℚ) * (676 / 1000) + 1 / 2 ^ 40 := by
  by_cases slow : speed ≤ 15
  · rw [if_pos slow] at base
    obtain rfl : fre = 10000 := UInt64.toNat_inj.mp base
    decide +kernel
  · rw [if_neg slow] at base
    obtain rfl : fre = 1000000 := UInt64.toNat_inj.mp base
    decide +kernel

theorem exactFirstDelay_eq (fre : ℕ) (accel : UInt32) :
    exactFirstDelay fre accel =
      ((169 * (fre / 10000 * (mysqrt (200000000 / accel)).toNat) / 250 : ℕ) : ℤ) := by
  unfold exactFirstDelay
  generalize (mysqrt (200000000 / accel)).toNat = k
  generalize fre / 10000 = base
  have parts : (base : ℚ) * (676 / 1000) * k =
      ((169 * (base * k) : ℕ) : ℤ) / ((250 : ℕ) : ℚ) := by
    push_cast
    ring
  rw [parts, Rat.floor_intCast_div_natCast]
  rfl

theorem exact_below_next (fre : ℕ) (accel : UInt32) :
    ((fre / 10000 : ℕ) : ℚ) * (676 / 1000) * ((mysqrt (200000000 / accel)).toNat : ℚ) ≤
      exactFirstDelay fre accel + 249 / 250 := by
  rw [exactFirstDelay_eq]
  generalize (mysqrt (200000000 / accel)).toNat = k
  generalize fre / 10000 = base
  have split : 169 * (base * k) ≤ 250 * (169 * (base * k) / 250) + 249 := by omega
  generalize 169 * (base * k) / 250 = n at *
  have split : (169 * (base * k) : ℚ) ≤ 250 * n + 249 := by exact_mod_cast split
  rw [Int.cast_natCast]
  linarith

theorem exactFirstDelay_nonneg (fre : ℕ) (accel : UInt32) : 0 ≤ exactFirstDelay fre accel := by
  rw [exactFirstDelay_eq]
  exact Int.natCast_nonneg _

theorem product_floor {factor base k : ℚ} {m : ℤ} (positive : 0 ≤ m) (fits : m < 2 ^ 32)
    (k_nonneg : 0 ≤ k) (k_small : k ≤ 65536) (low : base ≤ factor) (high : factor ≤ base + 1 / 2 ^ 40)
    (floor : m ≤ base * k) (next : base * k ≤ m + 249 / 250) :
    ((Binary64.toUInt32 (Binary64.round (factor * k))).toNat : ℤ) = m := by
  have m_nonneg : (0 : ℚ) ≤ m := by exact_mod_cast positive
  have least : (m : ℚ) ≤ factor * k := floor.trans (mul_le_mul_of_nonneg_right low k_nonneg)
  have most : factor * k ≤ m + 511 / 512 := by
    calc factor * k ≤ (base + 1 / 2 ^ 40) * k := mul_le_mul_of_nonneg_right high k_nonneg
      _ = base * k + k / 2 ^ 40 := by ring
      _ ≤ m + 249 / 250 + 65536 / 2 ^ 40 := by linarith
      _ ≤ m + 511 / 512 := by linarith
  have between : (m : ℚ) ≤ Binary64.round (factor * k) ∧
      Binary64.round (factor * k) ≤ m + 511 / 512 := by
    rcases (m_nonneg.trans least).eq_or_lt with zero | pos
    · rw [← zero] at least most ⊢
      exact ⟨least, most⟩
    · -- a grid of 512ths separates the two from the next integer
      have fine : factor * k < 2 ^ (53 - ((9 : ℕ) : ℤ)) := by
        have : (m : ℚ) < 2 ^ 32 := by exact_mod_cast fits
        norm_num
        linarith
      have lowest := Binary64.grid_le_round pos fine (n := m * 512) (by push_cast; linarith)
      have highest := Binary64.round_le_grid pos fine (n := m * 512 + 511) (by push_cast; linarith)
      push_cast at lowest highest
      constructor <;> linarith
  have whole : ⌊Binary64.round (factor * k)⌋ = m :=
    Int.floor_eq_iff.mpr ⟨between.1, lt_of_le_of_lt between.2 (by linarith)⟩
  rw [Binary64.toNat_toUInt32 (m_nonneg.trans between.1), whole]
  omega

theorem exactFirstDelay_lt {fre : ℕ} (accel : UInt32)
    (base : fre = if speed ≤ 15 then 10000 else 1000000) :
    exactFirstDelay fre accel < 2 ^ 32 := by
  have small := mysqrt_small (200000000 / accel)
  have base : fre / 10000 ≤ 100 := by
    rw [base]
    split <;> decide
  have product := Nat.mul_le_mul base small
  rw [exactFirstDelay_eq]
  omega

theorem firstDelay_mod {fre : UInt64} (accel : UInt32)
    (base : fre.toNat = if speed ≤ 15 then 10000 else 1000000) :
    ((firstDelay fre accel).toNat : ℤ) = exactFirstDelay fre.toNat accel % 65536 := by
  have small := mysqrt_small (200000000 / accel)
  have next := exact_below_next fre.toNat accel
  have floor : (exactFirstDelay fre.toNat accel : ℚ) ≤
      ((fre.toNat / 10000 : ℕ) : ℚ) * (676 / 1000) * ((mysqrt (200000000 / accel)).toNat : ℚ) :=
    Int.floor_le _
  have positive := exactFirstDelay_nonneg fre.toNat accel
  have fits := exactFirstDelay_lt accel base
  obtain ⟨low, high⟩ := factor_bounds base
  unfold firstDelay
  generalize (mysqrt (200000000 / accel)).toNat = k at *
  have root : Binary64.ofInt (k : ℤ) = k := Binary64.ofInt_natCast (by omega)
  have stored := product_floor positive fits (Nat.cast_nonneg k) (by exact_mod_cast small) low high
    floor next
  dsimp only
  rw [root, UInt32.toNat_toUInt16]
  unfold Binary64.mul at stored ⊢
  omega

theorem firstDelay_eq {fre : UInt64} (base : fre.toNat = if speed ≤ 15 then 10000 else 1000000)
    (fits : exactFirstDelay fre.toNat accel ≤ 65535) :
    ((firstDelay fre accel).toNat : ℤ) = exactFirstDelay fre.toNat accel := by
  rw [firstDelay_mod accel base]
  exact Int.emod_eq_of_lt (exactFirstDelay_nonneg _ _) (by omega)

theorem nearly_eq {x y : ℚ} (near : Binary64.Near 4 x y) (pos : 0 < y) (small : ⌊y⌋ < 2 ^ 32) :
    |((Binary64.toUInt32 x).toNat : ℤ) - ⌊y⌋| ≤ 1 := by
  have less : y < 2 ^ 32 := by exact_mod_cast Int.floor_lt.mp small
  have low : y - 1 < x := by
    refine lt_of_lt_of_le ?_ near.below
    norm_num
    linarith
  have high : x < y + 1 := by
    refine lt_of_le_of_lt near.above ?_
    norm_num
    linarith
  have positive : 0 ≤ ⌊y⌋ := Int.floor_nonneg.mpr pos.le
  have below : ⌊y⌋ - 1 ≤ ⌊x⌋ := by
    rw [← Int.floor_sub_one]
    exact Int.floor_le_floor low.le
  have above : ⌊x⌋ ≤ ⌊y⌋ + 1 := by
    rw [← Int.floor_add_one]
    exact Int.floor_le_floor high.le
  rw [Binary64.toNat_toUInt32 (near.pos pos).le, abs_le]
  omega

theorem maxSLim_sCurve_near {wide : UInt64} (some_ : accel ≠ 0) (moves : speed ≠ 0)
    (fits : exactMaxSLim .sCurve speed accel < 2 ^ 32) (small : speed < 2 ^ 32)
    (sized : wide.toNat = speed) :
    |((maxSLim .sCurve wide speed accel).toNat : ℤ) - exactMaxSLim .sCurve speed accel| ≤ 1 := by
  have pos : 0 < accel.toNat := Nat.pos_of_ne_zero fun zero => some_ (UInt32.toNat_inj.mp zero)
  have pos : (0 : ℚ) < accel.toNat := by exact_mod_cast pos
  have moves : (0 : ℚ) < speed := by exact_mod_cast Nat.pos_of_ne_zero moves
  have speed_eq : Binary64.ofInt (speed : ℤ) = speed :=
    Binary64.ofInt_natCast (small.trans (by decide))
  have accel_eq : Binary64.ofInt (accel.toNat : ℤ) = accel.toNat :=
    Binary64.ofInt_natCast (accel.toNat_lt.trans (by decide))
  unfold maxSLim exactMaxSLim at *
  dsimp only at *
  rw [sized, speed_eq, accel_eq]
  have bend := (Binary64.Near.refl (1358695652173913 / 1000000000000000)).round (by norm_num)
  have linear := (bend.mul moves.le).round (by positivity)
  rw [mul_comm (Binary64.round _) (speed : ℚ), mul_comm _ (speed : ℚ)] at linear
  have square := (linear.mul moves.le).round (by positivity)
  have steps := (square.div pos.le).round (by positivity)
  exact nearly_eq steps (by positivity) fits

theorem maxSLim_tCurve_eq {wide : UInt64} {signed : ℤ}
    (fits : exactMaxSLim .tCurve speed accel < 2 ^ 32) (small : speed < 2 ^ 32)
    (sized : wide.toNat = speed ∨ speed = 2 ^ 31 ∧ wide.toNat = 2 ^ 64 - 2 ^ 31) :
    ((maxSLim .tCurve wide signed accel).toNat : ℤ) = exactMaxSLim .tCurve speed accel := by
  have square : wide.toNat / 2 * wide.toNat % 2 ^ 64 = speed / 2 * speed := by
    rcases sized with same | ⟨same, large⟩
    · rw [same]
      refine Nat.mod_eq_of_lt ?_
      calc speed / 2 * speed < 2 ^ 31 * 2 ^ 32 := by
            exact Nat.mul_lt_mul_of_lt_of_le (by omega) small.le (by norm_num)
        _ ≤ 2 ^ 64 := by norm_num
    · rw [same, large]
      norm_num
  unfold maxSLim exactMaxSLim at *
  dsimp only at *
  have fits : speed / 2 * speed / accel.toNat < 2 ^ 32 := by exact_mod_cast fits
  rw [UInt64.toNat_toUInt32, UInt64.toNat_div, UInt64.toNat_mul, UInt64.toNat_div]
  rw [show (2 : UInt64).toNat = 2 from rfl, square, UInt32.toNat_toUInt64, Nat.mod_eq_of_lt fits]

theorem maxSLim_unsized {wide : UInt64} (size : wide.toNat = 2 ^ 64 - 2 ^ 31) :
    maxSLim .sCurve wide (-2 ^ 31) accel = 0 := by
  unfold maxSLim
  dsimp only
  refine Binary64.toUInt32_of_nonpos (Binary64.round_nonpos ?_)
  have square : Binary64.mul (Binary64.mul (Binary64.ofInt (2 ^ 64 - 2 ^ 31))
      (Binary64.round (1358695652173913 / 1000000000000000))) (Binary64.ofInt (-2 ^ 31)) ≤ 0 := by
    decide +kernel
  have sign : 0 ≤ Binary64.ofInt accel.toNat := by
    rw [Binary64.ofInt_natCast (accel.toNat_lt.trans (by decide))]
    exact Nat.cast_nonneg _
  rw [size]
  exact div_nonpos_of_nonpos_of_nonneg square sign

theorem asks_small (asks : e.asks = some (accel, speed)) : speed < 2 ^ 32 := by
  cases e with
  | move io step accel' decel speed' =>
      obtain ⟨-, rfl⟩ := Prod.mk.inj (Option.some.inj asks)
      exact speed'.toNat_lt
  | startHoming io accel' speed' | startFreeRun io accel' speed' | startRun io accel' speed' =>
      obtain ⟨-, rfl⟩ := Prod.mk.inj (Option.some.inj asks)
      have low := speed'.le_toInt
      have high := speed'.toInt_lt
      omega
  | _ => cases asks

section Values
variable {wide : UInt64} {signed : ℤ}

theorem PlanValues.quotient (values : PlanValues psrd p e accel speed wide signed) :
    p.hmStepFre.toNat / speed ≤ 65535 ∧ p.minDelay.toNat = p.hmStepFre.toNat / speed := by
  have fits : p.hmStepFre.toNat / speed ≤ 65535 := by
    rw [values.fre]
    split
    · exact (Nat.div_le_self _ _).trans (by decide)
    · rename_i fast
      exact (Nat.div_le_div_left (by omega : 16 ≤ speed) (by decide)).trans (by decide)
  have same : p.hmStepFre.toNat / wide.toNat = p.hmStepFre.toNat / speed := by
    by_cases unsized : e.unsized
    · obtain ⟨size, large, -⟩ := values.unsized unsized
      rw [values.fre, size, large]
      rfl
    · rw [(values.sized unsized).1]
  refine ⟨fits, ?_⟩
  rw [values.minDelay, UInt64.toNat_toUInt16, UInt64.toNat_div, same]
  exact Nat.mod_eq_of_lt (by omega)

theorem PlanValues.delay (values : PlanValues psrd p e accel speed wide signed)
    (fits : exactFirstDelay p.hmStepFre.toNat accel ≤ 65535) :
    (p.stepDelay.toNat : ℤ) =
      max (exactFirstDelay p.hmStepFre.toNat accel) (p.hmStepFre.toNat / speed : ℕ) := by
  rw [← firstDelay_eq values.fre fits, ← values.quotient.2, values.stepDelay, ← Nat.cast_max]
  change ((if firstDelay p.hmStepFre accel ≤ p.minDelay then p.minDelay
    else firstDelay p.hmStepFre accel).toNat : ℤ) = _
  split
  · rename_i le
    rw [UInt16.le_iff_toNat_le] at le
    omega
  · rename_i more
    rw [UInt16.le_iff_toNat_le] at more
    omega

theorem PlanValues.steps (values : PlanValues psrd p e accel speed wide signed)
    (asks : e.asks = some (accel, speed)) (some_ : accel ≠ 0) (moves : speed ≠ 0)
    (sized : psrd.method = .sCurve → ¬ e.unsized)
    (fits : exactMaxSLim psrd.method speed accel < 2 ^ 32) :
    |(p.n2.toNat : ℤ) - exactMaxSLim psrd.method speed accel| ≤
      match psrd.method with
      | .sCurve => 1
      | .tCurve => 0 := by
  have small := asks_small asks
  rw [values.n2]
  cases curve : psrd.method with
  | sCurve =>
      obtain ⟨same, rfl⟩ := values.sized (sized curve)
      rw [curve] at fits
      exact maxSLim_sCurve_near some_ moves fits small same
  | tCurve =>
      rw [curve] at fits
      rw [maxSLim_tCurve_eq fits small, sub_self, abs_zero]
      by_cases unsized : e.unsized
      · obtain ⟨size, large, -⟩ := values.unsized unsized
        exact .inr ⟨size, large⟩
      · exact .inl (values.sized unsized).1

theorem PlanValues.unsized_lost (values : PlanValues psrd p e accel speed wide signed)
    (some_ : accel ≠ 0) (curve : psrd.method = .sCurve) (unsized : e.unsized) :
    1 < |(p.n2.toNat : ℤ) - exactMaxSLim .sCurve speed accel| := by
  obtain ⟨size, large, rfl⟩ := values.unsized unsized
  have pos : (0 : ℚ) < accel.toNat := by
    exact_mod_cast Nat.pos_of_ne_zero fun zero => some_ (UInt32.toNat_inj.mp zero)
  have small : (accel.toNat : ℚ) < 2 ^ 32 := by exact_mod_cast accel.toNat_lt
  have two : (2 : ℤ) ≤ exactMaxSLim .sCurve (2 ^ 31) accel := by
    refine Int.le_floor.mpr ?_
    rw [le_div_iff₀ pos]
    push_cast
    linarith
  rw [values.n2, curve, maxSLim_unsized large, size]
  rw [lt_abs]
  right
  have zero : ((0 : UInt32).toNat : ℤ) = 0 := rfl
  omega

end Values

/-- A start is computed exactly when it asks for an acceleration of at least 213, or of one for a
speed of at most 15, and for a speed that is reached within `2 ^ 32` steps, and the speed is not zero
and not, for an S curve, the one that has no size. -/
theorem start_exact_iff (plan : psrd.planned e = some (p, rcr))
    (asks : e.asks = some (accel, speed)) :
    p.StartExact accel speed ↔ accel ≠ 0 ∧ speed ≠ 0 ∧ (speed ≤ 15 ∨ 213 ≤ accel.toNat) ∧
      Reached psrd.method speed accel ∧ (psrd.method = .sCurve → ¬ e.unsized) := by
  obtain ⟨wide, signed, values⟩ := planned_values plan asks
  constructor
  · intro exact_
    refine ⟨exact_.accel_ne, exact_.speed_ne,
      (exactFirstDelay_le_iff values.fre exact_.accel_ne).mp exact_.firstDelay,
      (exactMaxSLim_lt_iff _ exact_.accel_ne).mp (values.method ▸ exact_.maxSLim),
      fun curve unsized => ?_⟩
    have near := exact_.n2_near
    simp only [values.method, curve] at near
    exact absurd near (not_le.mpr (values.unsized_lost exact_.accel_ne curve unsized))
  · rintro ⟨some_, moves, slow, reached, sized⟩
    have first := (exactFirstDelay_le_iff values.fre some_).mpr slow
    have steps := (exactMaxSLim_lt_iff _ some_).mpr reached
    exact {
      accel_ne := some_
      speed_ne := moves
      minDelay := values.quotient.1
      firstDelay := first
      maxSLim := values.method.symm ▸ steps
      minDelay_eq := values.quotient.2
      stepDelay_eq := values.delay first
      n2_near := values.method.symm ▸ values.steps asks some_ moves sized steps }

end Plan

end StepInfo

end MotionBoard
