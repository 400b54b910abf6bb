import MotionBoard.Lib.Climb
import MotionBoard.StepMotor.CurveRamp

namespace MotionBoard
open Transition

def lastCount : ℕ := 2 ^ 29 - 1

/-- The count whose remainder catches up with the divisor that has wrapped around. -/
def overtaken (c0 : ℕ) : ℕ :=
  lastCount + (2 ^ 31 + 12 - (Pace.climb c0 lastCount).rest).toNat / 10

def windPace (c0 k : ℕ) : Pace :=
  if k ≤ lastCount then Pace.climb c0 k
  else ⟨3, (Pace.climb c0 lastCount).rest + 6 * (k - lastCount : ℕ)⟩

section Pace
open Pace
variable {c0 k : ℕ}

theorem climb_three (two : 2 ≤ c0) (word : c0 ≤ 65535) {n : ℕ} (late : 391606990 ≤ n) :
    (climb c0 n).delay ≤ 3 := by
  have skips : skipTo 3 2600 (0, 65535, 0) = (391606990, 3, 0) := by decide +kernel
  have slowest := climb_of_skipTo (by decide) (by decide) skips
  calc (climb c0 n).delay ≤ (climb c0 391606990).delay := climb_antitone n two late
    _ ≤ (climb 65535 391606990).delay := (climb_mono _ two word).2
    _ = 3 := congrArg Pace.delay slowest

theorem climb_two (two : 2 ≤ c0) (few : c0 ≤ 44301) : (climb c0 lastCount).delay ≤ 2 := by
  have skips : skipTo 2 2000 (0, 44301, 0) = (536853064, 2, 1) := by decide +kernel
  have slowest := climb_of_skipTo (by decide) (by decide) skips
  calc (climb c0 lastCount).delay ≤ (climb c0 536853064).delay := climb_antitone _ two (by decide)
    _ ≤ (climb 44301 536853064).delay := (climb_mono _ two few).2
    _ = 2 := congrArg Pace.delay slowest

theorem climb_late (many : 44302 ≤ c0) (word : c0 ≤ 65535) :
    (climb c0 lastCount).delay = 3 ∧ (climb c0 lastCount).rest ≤ 2 ^ 31 - 6659 := by
  have skips : skipTo 3 2000 (0, 44302, 0) = (178958080, 3, 3) := by decide +kernel
  have fastest := climb_of_skipTo (by decide) (by decide) skips
  have stays := climb_stays 178958080 (by decide) (by decide) fastest 357912831 (by decide)
  have same : climb 44302 lastCount = ⟨3, 2147476989⟩ := stays
  obtain ⟨gone, delay⟩ := climb_mono lastCount (by decide) many
  have most := climb_three (by omega) word (show 391606990 ≤ lastCount by decide)
  have three : (climb c0 lastCount).delay = 3 := by
    rw [same] at delay
    dsimp only at delay
    omega
  refine ⟨three, ?_⟩
  unfold travel at gone
  rw [same, three, show (lastCount : Int) = 2 ^ 29 - 1 from rfl] at gone
  dsimp only at gone
  omega

theorem windPace_early (early : k ≤ lastCount) : windPace c0 k = climb c0 k := if_pos early

theorem windPace_late (many : 44302 ≤ c0) (word : c0 ≤ 65535) (i : ℕ) :
    windPace c0 (lastCount + i) = ⟨3, (climb c0 lastCount).rest + 6 * i⟩ := by
  have three := (climb_late many word).1
  unfold windPace
  cases i with
  | zero =>
      rw [Nat.add_zero, if_pos (Nat.le_refl lastCount), ← three]
      simp
  | succ i =>
      rw [if_neg (by omega), Nat.add_sub_cancel_left]

theorem overtaken_bounds (many : 44302 ≤ c0) (word : c0 ≤ 65535) {i : ℕ}
    (before : lastCount + i < overtaken c0) :
    0 ≤ (climb c0 lastCount).rest ∧ (climb c0 lastCount).rest + 10 * i ≤ 2 ^ 31 + 2 ∧
      (climb c0 lastCount).rest + 6 * i ≤ 2 ^ 31 - 2660 ∧
      (lastCount + i + 1 = overtaken c0 → 2 ^ 31 - 7 ≤ (climb c0 lastCount).rest + 10 * i) := by
  obtain ⟨-, small⟩ := climb_late many word
  obtain ⟨-, nonneg, -⟩ := climb_bounds lastCount (show 2 ≤ c0 by omega)
  unfold overtaken at before ⊢
  omega

theorem windPace_bounds (two : 2 ≤ c0) (word : c0 ≤ 65535)
    (within : k + 1 ≤ lastCount ∨ (44302 ≤ c0 ∧ k + 1 < overtaken c0)) :
    2 ≤ (windPace c0 (k + 1)).delay ∧ (windPace c0 (k + 1)).delay ≤ (windPace c0 k).delay ∧
      (windPace c0 (k + 1)).delay ≤ c0 ∧ (windPace c0 (k + 1)).rest ≤ 4 * (k + 1) := by
  by_cases early : k + 1 ≤ lastCount
  · obtain ⟨least, -, carried⟩ := climb_bounds (k + 1) two
    have first : (climb c0 (k + 1)).delay ≤ (climb c0 0).delay :=
      climb_antitone _ two (Nat.zero_le (k + 1))
    rw [windPace_early early, windPace_early (by omega)]
    exact ⟨least, climb_le k two, first, by exact_mod_cast carried⟩
  · obtain ⟨many, before⟩ := within.resolve_left early
    obtain ⟨i, rfl⟩ := Nat.exists_eq_add_of_le (show lastCount ≤ k by omega)
    rw [Nat.add_assoc] at before
    obtain ⟨-, caught, -⟩ := overtaken_bounds many word before
    rw [Nat.add_assoc, windPace_late many word, windPace_late many word]
    have last : (lastCount : Int) = 2 ^ 29 - 1 := rfl
    generalize (climb c0 lastCount).rest = rest at *
    push_cast at caught
    have three : (3 : Int) ≤ c0 := by omega
    refine ⟨(by decide : (2 : Int) ≤ 3), Int.le_refl 3, three, ?_⟩
    push_cast
    omega

end Pace

namespace StepInfo

def pass (at_ : StepInfo × UInt32) : StepInfo × UInt32 :=
  if at_.1.Exhausted at_.2 then at_
  else
    match at_.1.nextDelay (at_.1.countStep at_.2) with
    | .error _ => at_
    | .ok next => (next.1.recordDelay next.2, at_.1.countStep at_.2)

def advance (psrd : StepInfo) : ℕ → StepInfo × UInt32
  | 0 => (psrd, 1)
  | n + 1 => pass (psrd.advance n)

structure Poised (psrd : StepInfo) : Prop where
  flat : psrd.method = .tCurve
  phase : psrd.runState = .rsAccel
  count : psrd.accelCount = 0
  rest : psrd.rest = 0
  slow : 2 ≤ psrd.minDelay ∧ psrd.minDelay < psrd.stepDelay
  plan : psrd.stepsRequest = hmInvalidStep ∧ psrd.decelStart = hmInvalidStep ∨
    psrd.stepsRequest ≠ hmInvalidStep ∧ 1 < psrd.stepsRequest.toNat ∧
      (psrd.decelStart ≠ hmInvalidStep ∧ psrd.decelStart ≤ psrd.stepsRequest ∨
        2 ^ 31 ≤ psrd.stepsRequest.toNat)

structure KeepsPace (p r : StepInfo) (stepCount : UInt32) (next : StepInfo × UInt16) : Prop where
  rest : (next.1.rest.toNat : Int) ≤ 4 * (r.accelCount.toInt + 1)
  falls : next.2 ≤ r.stepDelay
  two : 2 ≤ next.2
  first : next.2 ≤ p.stepDelay
  ends : next.1.runState ≠ .rsAccel → r.DecelDue (r.countStep stepCount) ∨
    (next.1.runState = .rsRun ∧ next.2 = p.minDelay)

def Climbs (p : StepInfo) : Prop :=
  (∀ n next, (p.advance n).1.runState = .rsAccel → ¬ (p.advance n).1.Exhausted (p.advance n).2 →
    (p.advance n).1.nextDelay ((p.advance n).1.countStep (p.advance n).2) = .ok next →
    p.KeepsPace (p.advance n).1 (p.advance n).2 next) ∧
  ∃ n, (p.advance n).1.runState ≠ .rsAccel

/-- The acceleration is over before the divisor is wrapped around, or at least before the remainder
has caught up with that. -/
def InTime (p : StepInfo) : Prop :=
  3 ≤ p.minDelay ∨ p.stepDelay ≤ 44301 ∨
    (p.decelStart ≠ hmInvalidStep ∧ p.decelStart.toNat ≤ overtaken p.stepDelay.toNat)

structure ClimbAt (p : StepInfo) (k : ℕ) (pace : Pace) (at_ : StepInfo × UInt32) : Prop where
  same : p.RampStep at_.1
  phase : at_.1.runState = .rsAccel
  count : at_.1.accelCount.toInt = k
  delay : (at_.1.stepDelay.toNat : Int) = pace.delay
  rest : (at_.1.rest.toNat : Int) = pace.rest
  above : (p.minDelay.toNat : Int) < pace.delay
  taken : p.stepsRequest ≠ hmInvalidStep → at_.2.toNat = k + 1
  early : p.decelStart ≠ hmInvalidStep → k = 0 ∨ k + 1 < p.decelStart.toNat

section Climb
variable {p r : StepInfo} {at_ : StepInfo × UInt32} {k : ℕ} {pace : Pace} {next : StepInfo × UInt16}

theorem Poised.climbAt (poised : p.Poised) : ClimbAt p 0 (Pace.climb p.stepDelay.toNat 0) (p, 1) where
  same := rfl
  phase := poised.phase
  count := congrArg Int32.toInt poised.count
  delay := rfl
  rest := by
    rw [poised.rest]
    rfl
  above := Int.ofNat_lt.mpr (UInt16.lt_iff_toNat_lt.mp poised.slow.2)
  taken _ := rfl
  early _ := .inl rfl

theorem ClimbAt.more (climb : ClimbAt p k pace at_) (poised : p.Poised) (few : k < 2 ^ 30) :
    ¬ at_.1.Exhausted at_.2 := by
  rintro ⟨finite, done⟩
  rw [climb.same.stepsRequest] at finite done
  rcases poised.plan with ⟨endless, -⟩ | ⟨-, some_, plan⟩
  · exact finite endless
  · have taken := climb.taken finite
    have done := UInt32.le_iff_toNat_le.mp done
    rcases plan with ⟨slows, within⟩ | many
    · have early := climb.early slows
      have within := UInt32.le_iff_toNat_le.mp within
      omega
    · omega

theorem ClimbAt.step (climb : ClimbAt p k pace at_) (poised : p.Poised) (few : k < 2 ^ 30)
    (step : at_.1.nextDelay (at_.1.countStep at_.2) = .ok next) :
    (p.decelStart ≠ hmInvalidStep ∧ p.decelStart.toNat ≤ k + 2 ∧
        at_.1.DecelDue (at_.1.countStep at_.2) ∧ next = ({ at_.1 with
          rest := at_.1.newRest, accelCount := at_.1.decelVal, runState := .rsDecel },
            at_.1.newDelay)) ∨
      (¬ at_.1.DecelDue (at_.1.countStep at_.2) ∧ at_.1.newDelay ≤ p.minDelay ∧ next = ({ at_.1 with
          accelCount := at_.1.accelCount + 1, lastAccelDelay := at_.1.newDelay, rest := 0,
          runState := .rsRun }, p.minDelay)) ∨
      (¬ at_.1.DecelDue (at_.1.countStep at_.2) ∧ p.minDelay < at_.1.newDelay ∧ next = ({ at_.1 with
          accelCount := at_.1.accelCount + 1, rest := at_.1.newRest }, at_.1.newDelay) ∧
        ClimbAt p (k + 1) ⟨at_.1.newDelay.toNat, at_.1.newRest.toNat⟩ (pass at_)) := by
  have more := climb.more poised few
  have counted := toNat_countStep more
  have passed : pass at_ = (next.1.recordDelay next.2, at_.1.countStep at_.2) := by
    unfold pass
    rw [if_neg more, step]
  have taken (finite : p.stepsRequest ≠ hmInvalidStep) :
      (at_.1.countStep at_.2).toNat = k + 2 := by
    rw [climb.same.stepsRequest, if_neg finite, climb.taken finite] at counted
    exact counted
  have finite (slows : p.decelStart ≠ hmInvalidStep) : p.stepsRequest ≠ hmInvalidStep := by
    rcases poised.plan with ⟨-, endless⟩ | ⟨finite, -⟩
    · exact absurd endless slows
    · exact finite
  have minDelay := climb.same.minDelay
  rcases nextDelay_accel climb.phase step with ⟨due, rfl⟩ | ⟨late, fast, rfl⟩ | ⟨late, slow, rfl⟩
  · refine .inl ⟨?_, ?_, due, rfl⟩
    · rw [← climb.same.decelStart]
      exact due.1
    · have start := UInt32.le_iff_toNat_le.mp due.2
      have slows := due.1
      rw [climb.same.decelStart] at start slows
      rw [taken (finite slows)] at start
      exact start
  · rw [minDelay] at fast
    exact .inr (.inl ⟨late, fast, Prod.ext rfl minDelay⟩)
  · rw [minDelay] at slow
    refine .inr (.inr ⟨late, slow, rfl, ?_⟩)
    obtain ⟨least, frame⟩ := recordDelay_frame { at_.1 with
      accelCount := at_.1.accelCount + 1, rest := at_.1.newRest } at_.1.newDelay
    have ramp := (at_.1.nextDelay_rampStep _ step).trans (recordDelay_rampStep at_.1.newDelay)
    rw [passed]
    dsimp only at ramp ⊢
    refine ⟨climb.same.trans ramp, ?_, ?_, ?_, ?_, ?_, taken, fun slows => .inr ?_⟩
    · rw [frame]
      exact climb.phase
    · rw [frame]
      dsimp only
      rw [toInt_succ (by rw [climb.count]; omega), climb.count]
      rfl
    · rw [frame]
    · rw [frame]
    · exact Int.ofNat_lt.mpr (UInt16.lt_iff_toNat_lt.mp slow)
    · by_contra now
      refine late ⟨?_, UInt32.le_iff_toNat_le.mpr ?_⟩
      · rw [climb.same.decelStart]
        exact slows
      · rw [climb.same.decelStart, taken (finite slows)]
        omega

theorem Poised.first (poised : p.Poised) : 2 ≤ p.stepDelay.toNat ∧ p.stepDelay.toNat ≤ 65535 := by
  have slow := UInt16.lt_iff_toNat_lt.mp poised.slow.2
  have two := UInt16.le_iff_toNat_le.mp poised.slow.1
  have word := p.stepDelay.toNat_lt
  rw [show (2 : UInt16).toNat = 2 from rfl] at two
  omega

theorem ClimbAt.exact (climb : ClimbAt p k (Pace.climb p.stepDelay.toNat k) at_)
    (poised : p.Poised) (early : k + 1 ≤ lastCount) :
    (⟨at_.1.newDelay.toNat, at_.1.newRest.toNat⟩ : Pace) =
      Pace.climb p.stepDelay.toNat (k + 1) := by
  obtain ⟨two, word⟩ := poised.first
  have few : k + 1 ≤ 2 ^ 29 - 1 := early
  have delay := climb.delay
  have rest := climb.rest
  have count := climb.count
  obtain ⟨-, -, carried⟩ := Pace.climb_bounds k two
  have small : 2 * at_.1.stepDelay.toNat + at_.1.rest.toNat < 2 ^ 31 := by
    by_cases late : 391606990 ≤ k
    · have three := climb_three two word late
      omega
    · have most := at_.1.stepDelay.toNat_lt
      omega
  have gains : at_.1.Gains :=
    ⟨climb.phase, climb.same.method.trans poised.flat, by omega, by omega, small⟩
  obtain ⟨-, dividend, divisor⟩ := gains.divides
  obtain ⟨newDelay, newRest, -⟩ := gains.step
  have wide : (Pace.climb p.stepDelay.toNat k).dividend 1 = at_.1.wideDivs.1 := by
    unfold Pace.dividend
    omega
  have scale : 4 * ((k : Int) + 1) + 1 = at_.1.wideDivs.2 := by omega
  have nonneg : 0 ≤ at_.1.wideDivs.1 := by omega
  rw [Pace.climb]
  unfold Pace.change
  rw [wide, scale, Int.tdiv_eq_ediv_of_nonneg nonneg, Int.tmod_eq_emod_of_nonneg nonneg, newDelay,
    newRest, delay]

/-- The divisor beyond that count is negative, and its size falls. -/
theorem ClimbAt.wrapped {i : ℕ} {rest : Int} (climb : ClimbAt p (lastCount + i) ⟨3, rest⟩ at_)
    (poised : p.Poised) (few : i < 2 ^ 28) (small : 6 + rest < 2 ^ 31) :
    (6 + rest < 2 ^ 31 - 1 - 4 * i → at_.1.newDelay = 3 ∧ (at_.1.newRest.toNat : Int) = 6 + rest) ∧
      (2 ^ 31 - 1 - 4 * i ≤ 6 + rest → 6 + rest < 2 * (2 ^ 31 - 1 - 4 * i) →
        at_.1.newDelay = 4) := by
  have count := climb.count
  have last : ((lastCount + i : ℕ) : Int) = 2 ^ 29 - 1 + i := by
    push_cast
    rfl
  have delay : (at_.1.stepDelay.toNat : Int) = 3 := climb.delay
  have carried : (at_.1.rest.toNat : Int) = rest := climb.rest
  obtain ⟨dividend, divisor⟩ := wideDivs_climb climb.phase (climb.same.method.trans poised.flat)
    (by omega)
  have wide : at_.1.wideDivs.1.bmod (2 ^ 32) = 6 + rest := by
    rw [Words.bmod_of_fits (by omega) (by omega)]
    omega
  -- the divisor is above `2 ^ 31` and is read as a negative number
  have negative : at_.1.wideDivs.2.bmod (2 ^ 32) = -(2 ^ 31 - 1 - 4 * i) := by
    rw [← Int.sub_mul_bmod_self_left at_.1.wideDivs.2 (2 ^ 32) 1,
      Words.bmod_of_fits (by omega) (by omega)]
    omega
  have growth : at_.1.growth = (6 + rest) / (2 ^ 31 - 1 - 4 * i) := by
    unfold growth
    rw [wide, negative, Int.tdiv_neg, Int.neg_neg, Int.tdiv_eq_ediv_of_nonneg (by omega)]
  have stored := at_.1.toNat_newDelay
  rw [growth, delay] at stored
  -- the remainder keeps gathering until it is as large as the divisor
  refine ⟨fun below => ?_, fun caught twice => ?_⟩
  · have none_ : (6 + rest) / (2 ^ 31 - 1 - 4 * (i : Int)) = 0 :=
      Int.ediv_eq_zero_of_lt (by omega) below
    rw [none_] at stored
    refine ⟨UInt16.toNat_inj.mp ?_, ?_⟩
    · rw [show (3 : UInt16).toNat = 3 from rfl]
      omega
    · have left := at_.1.toInt_newRest
      rw [wide, negative, Int.tmod_neg, Int.tmod_eq_of_lt (by omega) below] at left
      have sign := toInt_cases at_.1.newRest.toInt32
      rw [UInt32.toUInt32_toInt32] at sign
      have word := at_.1.newRest.toNat_lt
      omega
  · have one : (6 + rest) / (2 ^ 31 - 1 - 4 * (i : Int)) = 1 := by
      rw [Int.ediv_eq_iff_of_pos (by omega)]
      omega
    rw [one] at stored
    refine UInt16.toNat_inj.mp ?_
    rw [show (4 : UInt16).toNat = 4 from rfl]
    omega

def OnPace (p : StepInfo) (k : ℕ) : Prop :=
  k ≤ lastCount ∨ (44302 ≤ p.stepDelay.toNat ∧ k < overtaken p.stepDelay.toNat)

theorem ClimbAt.words (climb : ClimbAt p k (windPace p.stepDelay.toNat k) at_) (poised : p.Poised)
    (within : p.OnPace (k + 1)) :
    (⟨at_.1.newDelay.toNat, at_.1.newRest.toNat⟩ : Pace) = windPace p.stepDelay.toNat (k + 1) := by
  obtain ⟨two, word⟩ := poised.first
  by_cases early : k + 1 ≤ lastCount
  · rw [windPace_early (by omega)] at climb
    rw [windPace_early early]
    exact climb.exact poised early
  · obtain ⟨many, before⟩ := within.resolve_left early
    obtain ⟨i, rfl⟩ := Nat.exists_eq_add_of_le (show lastCount ≤ k by omega)
    rw [Nat.add_assoc] at before
    rw [windPace_late many word] at climb
    rw [Nat.add_assoc, windPace_late many word]
    obtain ⟨nonneg, caught, small, -⟩ := overtaken_bounds many word before
    push_cast at caught small
    obtain ⟨delay, rest⟩ := (climb.wrapped poised (by omega) (by omega)).1 (by omega)
    have sum : 6 + ((Pace.climb p.stepDelay.toNat lastCount).rest + 6 * i) =
        (Pace.climb p.stepDelay.toNat lastCount).rest + 6 * (i + 1 : ℕ) := by
      push_cast
      ring
    rw [delay, rest, sum]
    generalize (Pace.climb p.stepDelay.toNat lastCount).rest = rest
    rfl

theorem nextDelay_of_accel (phase : r.runState = .rsAccel) (stepCount : UInt32) :
    r.nextDelay stepCount = .ok (r.accelDelay stepCount) := by
  unfold nextDelay
  rw [phase]

theorem pass_accel (climbs : (pass at_).1.runState = .rsAccel) : at_.1.runState = .rsAccel := by
  unfold pass at climbs
  split at climbs
  · exact climbs
  · split at climbs
    · exact climbs
    · rename_i next step
      rw [recordDelay_runState] at climbs
      exact (nextDelay_climbs step climbs).1

theorem advance_accel {m n : ℕ} (le : m ≤ n) (climbs : (p.advance n).1.runState = .rsAccel) :
    (p.advance m).1.runState = .rsAccel := by
  induction n, le using Nat.le_induction with
  | base => exact climbs
  | succ n _ ih => exact ih (pass_accel climbs)

theorem pass_of_step (more : ¬ at_.1.Exhausted at_.2)
    (step : at_.1.nextDelay (at_.1.countStep at_.2) = .ok next) :
    pass at_ = (next.1.recordDelay next.2, at_.1.countStep at_.2) := by
  unfold pass
  rw [if_neg more, step]

theorem Poised.climbing (poised : p.Poised) {n : ℕ} (within : p.OnPace n) (few : n ≤ 2 ^ 30)
    (climbs : (p.advance n).1.runState = .rsAccel) :
    ClimbAt p n (windPace p.stepDelay.toNat n) (p.advance n) := by
  induction n with
  | zero =>
      rw [windPace_early (Nat.zero_le _)]
      exact poised.climbAt
  | succ n ih =>
      have before : p.OnPace n := within.imp (by omega) fun late => ⟨late.1, by omega⟩
      have climb := ih before (by omega) (pass_accel climbs)
      have more := climb.more poised (by omega)
      have action := nextDelay_of_accel climb.phase ((p.advance n).1.countStep (p.advance n).2)
      have passed : p.advance (n + 1) = _ := pass_of_step more action
      rw [passed] at climbs
      dsimp only at climbs
      rw [recordDelay_runState] at climbs
      rcases climb.step poised (by omega) action with
        ⟨-, -, -, same⟩ | ⟨-, -, same⟩ | ⟨-, -, -, climb'⟩
      · rw [same] at climbs
        cases climbs
      · rw [same] at climbs
        cases climbs
      · rw [climb.words poised within] at climb'
        exact climb'

theorem ClimbAt.keepsPace (climb : ClimbAt p k (windPace p.stepDelay.toNat k) at_)
    (poised : p.Poised) (within : p.OnPace (k + 1)) (few : k < 2 ^ 30)
    (step : at_.1.nextDelay (at_.1.countStep at_.2) = .ok next) :
    p.KeepsPace at_.1 at_.2 next := by
  obtain ⟨two, word⟩ := poised.first
  obtain ⟨least, falls, first, carried⟩ := windPace_bounds two word within
  have words := climb.words poised within
  have newDelay : (at_.1.newDelay.toNat : Int) = _ := congrArg Pace.delay words
  have newRest : (at_.1.newRest.toNat : Int) = _ := congrArg Pace.rest words
  have delay := climb.delay
  have above := climb.above
  have above_ : p.minDelay ≤ at_.1.stepDelay := UInt16.le_iff_toNat_le.mpr (by omega)
  have falls_ : at_.1.newDelay ≤ at_.1.stepDelay := UInt16.le_iff_toNat_le.mpr (by omega)
  have first_ : at_.1.newDelay ≤ p.stepDelay := UInt16.le_iff_toNat_le.mpr (by omega)
  have least_ : 2 ≤ at_.1.newDelay := UInt16.le_iff_toNat_le.mpr
    (show (2 : UInt16).toNat ≤ at_.1.newDelay.toNat by
      rw [show (2 : UInt16).toNat = 2 from rfl]
      omega)
  have carried_ : (at_.1.newRest.toNat : Int) ≤ 4 * (at_.1.accelCount.toInt + 1) := by
    rw [climb.count, newRest]
    exact carried
  rcases climb.step poised few step with ⟨-, -, due, rfl⟩ | ⟨-, -, rfl⟩ | ⟨-, -, rfl, -⟩
  · exact ⟨carried_, falls_, least_, first_, fun _ => .inl due⟩
  · refine ⟨?_, above_, poised.slow.1, UInt16.le_of_lt poised.slow.2, fun _ => .inr ⟨rfl, rfl⟩⟩
    rw [climb.count]
    exact Int.natCast_nonneg (4 * (k + 1))
  · exact ⟨carried_, falls_, least_, first_, fun left => absurd climb.phase left⟩

theorem Poised.climbs (poised : p.Poised) {last : ℕ} (within : p.OnPace last) (few : last ≤ 2 ^ 30)
    (over_ : (p.advance last).1.runState ≠ .rsAccel) : p.Climbs := by
  refine ⟨fun n next climbs _ step => ?_, last, over_⟩
  have before : n < last := by
    by_contra late
    exact over_ (advance_accel (Nat.le_of_not_lt late) climbs)
  have within' (m : ℕ) (le : m ≤ last) : p.OnPace m :=
    within.imp (by omega) fun late => ⟨late.1, by omega⟩
  exact (poised.climbing (within' n (by omega)) (by omega) climbs).keepsPace poised
    (within' (n + 1) (by omega)) (by omega) step

theorem Poised.inTime_climbs (poised : p.Poised) (inTime : p.InTime) : p.Climbs := by
  obtain ⟨two, word⟩ := poised.first
  have last : lastCount = 2 ^ 29 - 1 := rfl
  have soon (most : (Pace.climb p.stepDelay.toNat lastCount).delay ≤ p.minDelay.toNat) :
      p.Climbs := by
    refine poised.climbs (.inl (Nat.le_refl lastCount)) (by omega) fun climbs => ?_
    have above := (poised.climbing (.inl (Nat.le_refl lastCount)) (by omega) climbs).above
    rw [windPace_early (Nat.le_refl lastCount)] at above
    omega
  by_cases three : 3 ≤ p.minDelay
  · refine soon ((climb_three two word (by omega)).trans ?_)
    exact Int.ofNat_le.mpr (UInt16.le_iff_toNat_le.mp three)
  by_cases small : p.stepDelay ≤ 44301
  · refine soon ((climb_two two (UInt16.le_iff_toNat_le.mp small)).trans ?_)
    exact Int.ofNat_le.mpr (UInt16.le_iff_toNat_le.mp poised.slow.1)
  obtain ⟨slows, start⟩ := (inTime.resolve_left three).resolve_left small
  have many : 44302 ≤ p.stepDelay.toNat := UInt16.lt_iff_toNat_lt.mp (UInt16.not_le.mp small)
  obtain ⟨-, late⟩ := climb_late many word
  obtain ⟨-, nonneg, -⟩ := Pace.climb_bounds lastCount two
  have final : lastCount < overtaken p.stepDelay.toNat ∧
      overtaken p.stepDelay.toNat ≤ 2 ^ 30 := by
    unfold overtaken
    omega
  have onPace : p.OnPace (overtaken p.stepDelay.toNat - 1) := .inr ⟨many, by omega⟩
  refine poised.climbs onPace (by omega) fun climbs => ?_
  have early := (poised.climbing onPace (by omega) climbs).early slows
  omega

theorem Poised.overtakes (poised : p.Poised) (fast : p.minDelay = 2)
    (many : 44302 ≤ p.stepDelay.toNat) (late : p.decelStart ≠ hmInvalidStep →
      overtaken p.stepDelay.toNat < p.decelStart.toNat) :
    ∃ n next, (p.advance n).1.runState = .rsAccel ∧ ¬ (p.advance n).1.Exhausted (p.advance n).2 ∧
      (p.advance n).1.nextDelay ((p.advance n).1.countStep (p.advance n).2) = .ok next ∧
      (p.advance n).1.stepDelay = 3 ∧ next.2 = 4 := by
  obtain ⟨two, word⟩ := poised.first
  have last : lastCount = 2 ^ 29 - 1 := rfl
  obtain ⟨three, small⟩ := climb_late many word
  obtain ⟨-, nonneg, -⟩ := Pace.climb_bounds lastCount two
  obtain ⟨i, final, few⟩ : ∃ i, lastCount + i + 1 = overtaken p.stepDelay.toNat ∧ i < 2 ^ 28 := by
    refine ⟨overtaken p.stepDelay.toNat - lastCount - 1, ?_, ?_⟩
    · unfold overtaken
      omega
    · unfold overtaken
      omega
  -- by induction on the count, the generator arrives at the one before the last
  have climbs (n : ℕ) (before : n ≤ lastCount + i) :
      ClimbAt p n (windPace p.stepDelay.toNat n) (p.advance n) := by
    induction n with
    | zero =>
        rw [windPace_early (Nat.zero_le _)]
        exact poised.climbAt
    | succ n ih =>
        have climb := ih (by omega)
        have onPace : p.OnPace (n + 1) := .inr ⟨many, by omega⟩
        have words := climb.words poised onPace
        have action := nextDelay_of_accel climb.phase ((p.advance n).1.countStep (p.advance n).2)
        rcases climb.step poised (by omega) action with
          ⟨slows, start, -⟩ | ⟨-, short, -⟩ | ⟨-, -, -, climb'⟩
        · have := late slows
          omega
        · have delay : ((p.advance n).1.newDelay.toNat : Int) = _ := congrArg Pace.delay words
          have slow : 3 ≤ (windPace p.stepDelay.toNat (n + 1)).delay := by
            by_cases early : n + 1 ≤ lastCount
            · rw [windPace_early early, ← three]
              exact Pace.climb_antitone _ two early
            · obtain ⟨j, same⟩ := Nat.exists_eq_add_of_le (show lastCount ≤ n + 1 by omega)
              rw [same, windPace_late many word]
          have short := UInt16.le_iff_toNat_le.mp short
          rw [fast, show (2 : UInt16).toNat = 2 from rfl] at short
          omega
        · rw [words] at climb'
          exact climb'
  have climb := climbs (lastCount + i) (Nat.le_refl _)
  have action := nextDelay_of_accel climb.phase
    ((p.advance (lastCount + i)).1.countStep (p.advance (lastCount + i)).2)
  have more := climb.more poised (by omega)
  have phase := climb.phase
  have ways := climb.step poised (by omega) action
  rw [windPace_late many word] at climb
  obtain ⟨-, -, room, caught⟩ := overtaken_bounds many word (i := i) (by omega)
  have caught := caught final
  have four := (climb.wrapped poised few (by omega)).2 (by omega) (by omega)
  have delay : (p.advance (lastCount + i)).1.stepDelay = 3 := by
    have delay := climb.delay
    dsimp only at delay
    exact UInt16.toNat_inj.mp (by rw [show (3 : UInt16).toNat = 3 from rfl]; omega)
  refine ⟨lastCount + i, _, phase, more, action, delay, ?_⟩
  rcases ways with ⟨-, -, -, same⟩ | ⟨-, short, -⟩ | ⟨-, -, same, -⟩
  · rw [same]
    exact four
  · rw [four, fast] at short
    exact absurd short (by decide)
  · rw [same]
    exact four

theorem Poised.climbs_iff (poised : p.Poised) : p.Climbs ↔ p.InTime := by
  constructor
  · intro climbs
    by_contra late
    unfold InTime at late
    simp only [not_or, not_and] at late
    obtain ⟨fast, slow, start⟩ := late
    have fast : p.minDelay = 2 := by
      have least := UInt16.le_iff_toNat_le.mp poised.slow.1
      have most := UInt16.lt_iff_toNat_lt.mp (UInt16.not_le.mp fast)
      refine UInt16.toNat_inj.mp ?_
      rw [show (3 : UInt16).toNat = 3 from rfl] at most
      rw [show (2 : UInt16).toNat = 2 from rfl] at least ⊢
      omega
    have many : 44302 ≤ p.stepDelay.toNat := UInt16.lt_iff_toNat_lt.mp (UInt16.not_le.mp slow)
    obtain ⟨n, next, phase, more, step, three, four⟩ := poised.overtakes fast many
      fun slows => Nat.lt_of_not_le (start slows)
    have falls := (climbs.1 n next phase more step).falls
    rw [three, four] at falls
    exact absurd falls (by decide)
  · exact poised.inTime_climbs

end Climb

def Follows (p r : StepInfo) (stepCount : UInt32) : Prop :=
  ∃ n, r = r.generating (p.advance n).1 ∧ stepCount = (p.advance n).2

structure Unstopped (psrd : StepInfo) (e : Event) : Prop where
  undisturbed : psrd.Undisturbed (fun _ _ => True) e
  unstopped : psrd.smoothStops e = false

section Run
variable {psrd p : StepInfo} {e : Event} {rcr : UInt16}

theorem follows_keeps (p : StepInfo) : Keeps (fun _ _ => True) p.Follows fun _ => True where
  shape o psrd stepCount follows := by
    obtain ⟨n, shape, count⟩ := follows
    refine ⟨n, ?_, count⟩
    rw [shape]
    rfl
  pass psrd stepCount next _ more _ follows step := by
    obtain ⟨n, shape, rfl⟩ := follows
    rw [shape] at more step
    change ¬ (p.advance n).1.Exhausted (p.advance n).2 at more
    rw [nextDelay_generating] at step
    obtain ⟨next', step', rfl⟩ := Except.ok_of_map step
    have passed : p.advance (n + 1) = _ := pass_of_step more step'
    refine ⟨⟨n + 1, ?_, ?_⟩, trivial⟩
    · rw [passed, recordDelay_generating]
      rfl
    · rw [passed, shape]
      rfl

theorem startPhase_above (climbs : psrd.startPhase.runState = .rsAccel) :
    psrd.startPhase.minDelay < psrd.startPhase.stepDelay := by
  unfold startPhase at climbs ⊢
  split at climbs
  · cases climbs
  · rename_i above
    rw [if_neg above]
    exact UInt16.not_le.mp above

theorem planDecelVal_start {step : Int32} {lim : UInt32} (positive : 2 ≤ step.toInt) :
    (step + planDecelVal step lim).toUInt32.toNat ≤ step.toUInt32.toNat := by
  have sign := toInt_cases step
  have half := toInt_cases (step / 2)
  have word := (step / 2).toUInt32.toNat_lt
  have quotient : (step / 2).toInt = step.toInt / 2 := by
    rw [Int32.toInt_div_of_ne_right step 2 (by decide), Int.tdiv_eq_ediv_of_nonneg (by omega)]
    rfl
  have some_ : (step / 2).toUInt32 ≠ 0 := by
    intro none_
    rw [none_, UInt32.toNat_zero] at half
    omega
  have word := step.toUInt32.toNat_lt
  rw [Int32.toUInt32_add, UInt32.toNat_add]
  have guarded {decel : Int32}
      (within : (step.toUInt32.toNat + decel.toUInt32.toNat) % 2 ^ 32 ≤ step.toUInt32.toNat) :
      (step.toUInt32.toNat + (if decel = 0 then (-1 : Int32) else decel).toUInt32.toNat) % 2 ^ 32 ≤
        step.toUInt32.toNat := by
    split
    · rw [show (-1 : Int32).toUInt32.toNat = 2 ^ 32 - 1 from rfl]
      omega
    · exact within
  unfold planDecelVal
  dsimp only
  rw [if_neg some_]
  generalize (if lim = 0 then (1 : UInt32) else lim) = l
  refine guarded ?_
  split
  · rw [UInt32.toUInt32_toInt32, UInt32.toNat_sub]
    omega
  · rename_i long
    have long := UInt32.lt_iff_toNat_lt.mp (UInt32.not_le.mp long)
    rw [UInt32.toUInt32_toInt32, UInt32.toNat_neg]
    simp only [UInt32.size]
    omega

theorem planned_poised (plan : psrd.planned e = some (p, rcr)) (flat : p.method = .tCurve)
    (climbs : p.runState = .rsAccel) (least : 2 ≤ p.minDelay) : p.Poised := by
  obtain ⟨count, rest, -⟩ := planned_begin plan
  obtain ⟨-, step, accel, -, speed, -, few, rfl, -⟩ | ⟨_, io, accel, speed, -, rfl, -⟩ :=
    planned_cases plan
  · refine ⟨flat, climbs, count, rest, ⟨least, startPhase_above climbs⟩, .inr ?_⟩
    obtain ⟨request, val, start⟩ := psrd.movePlan_decel step accel speed
    have bound := magnitude_bound step
    have sign := toInt_cases (magnitude step)
    have one : (magnitude step).toInt ≠ 1 := fun same => few (.inl (Int32.toInt_inj.mp same))
    have zero : (magnitude step).toInt ≠ 0 := fun same => few (.inr (Int32.toInt_inj.mp same))
    rw [request, start, val]
    refine ⟨magnitude_finite step, by omega, ?_⟩
    by_cases positive : 2 ≤ (magnitude step).toInt
    · have within : (magnitude step + planDecelVal (magnitude step)
          (psrd.movePlan step accel speed).n2).toUInt32.toNat ≤ _ := planDecelVal_start positive
      refine .inl ⟨fun endless => ?_, UInt32.le_iff_toNat_le.mpr within⟩
      rw [endless, show hmInvalidStep.toNat = 2 ^ 32 - 1 from rfl] at within
      omega
    · exact .inr (by omega)
  · refine ⟨flat, climbs, count, rest, ⟨least, startPhase_above climbs⟩, .inl ⟨?_, ?_⟩⟩
    · exact (planRun_planned accel (magnitude speed)).stepsRequest.trans
        (resetRun_prepared _ io (magnitude speed)).stepsRequest
    · exact runPlan_endless _ io accel speed

/-- An acceleration on the T curve is as it is to be exactly when it is in time, for every plan that
begins with one. The passes of a motion are those of its plan, through whatever interrupts. -/
theorem acceleration_in_time_iff {idx : Fin hmMaxAxis} {es : List Event}
    (run : Run Step (hmStepMotorInit idx) es psrd) :
    (∀ p : StepInfo, p.Poised → (p.Climbs ↔ p.InTime)) ∧
    ∀ e p rcr, psrd.starts e → psrd.planned e = some (p, rcr) → p.method = .tCurve →
      p.runState = .rsAccel → 2 ≤ p.minDelay →
      p.Poised ∧ (∀ r stepCount, psrd.Executes e r stepCount → p.Follows r stepCount) ∧
      ∀ t, psrd.exec e = .ok t → ∀ es q units,
        Run (PassStep Unstopped) (t, psrd.wrote e) es (q, units) →
        ∀ e' r stepCount, q.starts e' = false → q.Executes e' r stepCount →
          p.Follows r stepCount := by
  have regular := reachable_regular run
  refine ⟨fun p poised => poised.climbs_iff, fun e p rcr starts plan flat climbs least => ?_⟩
  have keeps := p.follows_keeps
  have begun : p.Follows p 1 := ⟨0, rfl, rfl⟩
  refine ⟨planned_poised plan flat climbs least, fun r stepCount executes => ?_,
    fun t action es q units motion e' r stepCount idle executes => ?_⟩
  · refine keeps.executes regular (fun idle => by simp [starts] at idle) (fun _ p' rcr' plan' => ?_)
      (fun _ _ _ => trivial) executes
    obtain ⟨rfl, rfl⟩ := Prod.mk.inj (Option.some.inj (plan.symm.trans plan'))
    exact begun
  · have inv := (keeps.starts starts plan begun (fun _ _ _ => trivial) action).1
    obtain ⟨regular', inv', -⟩ := keeps.run (fun _ _ quiet => quiet.undisturbed)
      (fun _ _ quiet _ stops => by simp [quiet.unstopped] at stops) (regular.step action) inv
      (fun _ _ => trivial) motion
    exact keeps.executes regular' (fun _ => inv') (fun starts => by simp [idle] at starts)
      (fun _ _ _ => trivial) executes

theorem acceleration_in_time_run : ∃ p rcr,
    (hmStepMotorInit 0).planned (.startFreeRun .clear 20000 1000) = some (p, rcr) ∧
    p.Poised ∧ p.Climbs := by
  have begins : ((hmStepMotorInit 0).planned (.startFreeRun .clear 20000 1000)).any
      fun plan => decide ((hmStepMotorInit 0).starts (.startFreeRun .clear 20000 1000) ∧
        plan.1.method = .tCurve ∧ plan.1.runState = .rsAccel ∧ 3 ≤ plan.1.minDelay) := by
    decide +kernel
  obtain ⟨⟨p, rcr⟩, plan, test⟩ := (Option.any_eq_true _ _).mp begins
  obtain ⟨starts, flat, climbs, three⟩ := of_decide_eq_true test
  obtain ⟨iff_, motions⟩ := acceleration_in_time_iff .nil
  have poised := (motions _ p rcr starts plan flat climbs
    (UInt16.le_trans (by decide) three)).1
  exact ⟨p, rcr, plan, poised, (iff_ p poised).mpr (.inl three)⟩

/-- At half a million steps a second, a free run that begins with 65504 ticks does not get to its
speed: its delay is three when the divisor becomes negative, and four later. -/
theorem acceleration_overtaken_run : ∃ p rcr,
    (hmStepMotorInit 0).starts (.startFreeRun .clear 213 500000) ∧
    (hmStepMotorInit 0).planned (.startFreeRun .clear 213 500000) = some (p, rcr) ∧
    p.method = .tCurve ∧ p.minDelay = 2 ∧ p.stepDelay = 65504 ∧ ¬ p.Climbs := by
  have begins : ((hmStepMotorInit 0).planned (.startFreeRun .clear 213 500000)).any
      fun plan => decide ((hmStepMotorInit 0).starts (.startFreeRun .clear 213 500000) ∧
        plan.1.method = .tCurve ∧ plan.1.runState = .rsAccel ∧ plan.1.minDelay = 2 ∧
        plan.1.stepDelay = 65504 ∧ plan.1.decelStart = hmInvalidStep) := by
    decide +kernel
  obtain ⟨⟨p, rcr⟩, plan, test⟩ := (Option.any_eq_true _ _).mp begins
  obtain ⟨starts, flat, climbs, fast, first, endless⟩ := of_decide_eq_true test
  have poised := planned_poised plan flat climbs (UInt16.le_of_eq fast.symm)
  refine ⟨p, rcr, starts, plan, flat, fast, first, fun good => ?_⟩
  rcases poised.climbs_iff.mp good with three | few | ⟨slows, -⟩
  · rw [fast] at three
    exact absurd three (by decide)
  · rw [first] at few
    exact absurd few (by decide)
  · exact slows endless

end Run

end StepInfo

end MotionBoard
