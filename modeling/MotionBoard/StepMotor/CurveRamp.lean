import MotionBoard.StepMotor.RampWords
import MotionBoard.StepMotor.StartUp

namespace MotionBoard
open Transition

namespace StepInfo

structure ShortDecel (psrd : StepInfo) : Prop where
  finite : psrd.stepsRequest ≠ hmInvalidStep
  n2 : psrd.n2 ≠ 0
  some_ : psrd.decelVal.toInt ≤ -1
  most : -(psrd.n2.toNat + 1 : Int) ≤ psrd.decelVal.toInt
  halfway : -psrd.decelVal.toInt = psrd.n2.toNat ∨
    (psrd.decelStart.toNat : Int) ≤ -psrd.decelVal.toInt

def slopeAt (psrd : StepInfo) (count : Int) : Int × Int :=
  if count < psrd.n2.toNat then (psrd.n2.toNat - count, psrd.n2.toNat) else (1, 1)

/-- What keeps the numbers of an S curve with `n2` up to 16383 small. The last bound is that of the
dividend of the next step, were its delay the largest of 16 bits. -/
structure Moderate (psrd : StepInfo) (stepCount : UInt32) : Prop where
  n2 : psrd.n2.toNat ≤ 16383
  plan : psrd.runState = .rsAccel ∨ psrd.runState = .rsRun →
    psrd.decelStart ≠ hmInvalidStep → psrd.ShortDecel
  climbing : psrd.runState = .rsAccel → 0 ≤ psrd.accelCount.toInt ∧
    (psrd.rest.toNat : Int) < (4 * psrd.accelCount.toInt + 1) * (psrd.slopeAt psrd.accelCount.toInt).2 ∧
    (psrd.decelStart ≠ hmInvalidStep → psrd.accelCount.toInt + 1 = stepCount.toNat ∧
      (stepCount.toNat ≤ 1 ∨ stepCount < psrd.decelStart))
  cruising : psrd.runState = .rsRun → psrd.rest = 0
  slowing : psrd.runState = .rsDecel → psrd.n2 ≠ 0 ∧
    -(psrd.n2.toNat + 1 : Int) ≤ psrd.accelCount.toInt ∧
    131070 * (psrd.n2.toNat + psrd.accelCount.toInt + 1) + (psrd.rest.toNat : Int) < 2 ^ 31

section Bounds
variable {d n k w s rest : Int}

theorem climb_bounds (delay : 0 ≤ d ∧ d ≤ 65535) (first : 1 ≤ k) (most : n ≤ 16383)
    (carried : 0 ≤ rest ∧ rest < (4 * k - 3) * s)
    (slope : (k < n ∧ w = n - k ∧ s = n) ∨ (w = 1 ∧ s = 1 ∧ k ≤ 2 ^ 29 - 2 ^ 15)) :
    0 ≤ 2 * d * w + rest ∧ 2 * d * w + rest < 2 ^ 31 ∧ 0 < (4 * k + 1) * s ∧
      (4 * k + 1) * s < 2 ^ 31 := by
  rcases slope with ⟨bend, rfl, rfl⟩ | ⟨rfl, rfl, early⟩
  · have pull : 0 ≤ d * (s - k) := Int.mul_nonneg delay.1 (by omega)
    have pulled : d * (s - k) ≤ 65535 * (s - k) :=
      Int.mul_le_mul_of_nonneg_right delay.2 (by omega)
    have scaled : k * s ≤ k * 16383 := Int.mul_le_mul_of_nonneg_left most (by omega)
    have positive : 0 < k * s := Int.mul_pos (by omega) (by omega)
    have dividend : 2 * d * (s - k) = 2 * (d * (s - k)) := by ring
    have divisor : (4 * k + 1) * s = 4 * (k * s) + s := by ring
    have left : (4 * k - 3) * s = 4 * (k * s) - 3 * s := by ring
    rw [left] at carried
    rw [dividend, divisor]
    omega
  · omega

theorem fall_bounds (delay : 0 ≤ d ∧ d ≤ 65535) (positive : 1 ≤ n) (most : n ≤ 16383)
    (rest_nonneg : 0 ≤ rest) (low : -n ≤ k) (slowing : k ≤ 0)
    (room : 131070 * (n + k) + rest < 2 ^ 31) :
    0 ≤ 2 * d * (n + k) + rest ∧ 2 * d * (n + k) + rest < 2 ^ 31 ∧
      -2 ^ 31 ≤ (4 * k + 1) * n ∧ (4 * k + 1) * n < 2 ^ 31 ∧
      ∀ left : Int, left < ((4 * k + 1) * n).natAbs → k < 0 →
        131070 * (n + k + 1) + left < 2 ^ 31 := by
  have pull : 0 ≤ d * (n + k) := Int.mul_nonneg delay.1 (by omega)
  have pulled : d * (n + k) ≤ 65535 * (n + k) := Int.mul_le_mul_of_nonneg_right delay.2 (by omega)
  have dividend : 2 * d * (n + k) = 2 * (d * (n + k)) := by ring
  have divisor : (4 * k + 1) * n = 4 * (k * n) + n := by ring
  have least : k * 16383 ≤ k * n := Int.mul_le_mul_of_nonpos_left slowing most
  have sign : k * n ≤ 0 := Int.mul_nonpos_of_nonpos_of_nonneg slowing (by omega)
  rw [dividend, divisor]
  refine ⟨by omega, by omega, by omega, by omega, fun left small negative => ?_⟩
  omega

end Bounds

section Climb
variable {psrd : StepInfo} {stepCount : UInt32}

theorem Moderate.climb (moderate : psrd.Moderate stepCount) (curve : psrd.method = .sCurve)
    (phase : psrd.runState = .rsAccel) (early : psrd.accelCount.toInt < 2 ^ 29 - 2 ^ 15) :
    psrd.DivsFit ∧ 0 ≤ psrd.wideDivs.1 ∧ 0 < psrd.wideDivs.2 ∧
      psrd.wideDivs.2 = (4 * (psrd.accelCount.toInt + 1) + 1) *
        (psrd.slopeAt (psrd.accelCount.toInt + 1)).2 := by
  obtain ⟨first, carried, -⟩ := moderate.climbing phase
  have n2 := moderate.n2
  obtain ⟨rest, counted, kept, bend, -⟩ := psrd.countAccel_frame
  have succ : (psrd.accelCount + 1).toInt = psrd.accelCount.toInt + 1 := toInt_succ (by omega)
  have word : ((psrd.accelCount + 1).toUInt32.toNat : Int) = psrd.accelCount.toInt + 1 :=
    (toNat_toUInt32 (by omega)).trans succ
  have delay : (psrd.stepDelay.toNat : Int) ≤ 65535 := by
    have := psrd.stepDelay.toNat_lt
    omega
  have curved : psrd.n2 > (psrd.accelCount + 1).toUInt32 ↔
      psrd.accelCount.toInt + 1 < psrd.n2.toNat := by
    rw [gt_iff_lt, UInt32.lt_iff_toNat_lt]
    omega
  have wide : psrd.wideDivs =
      (2 * psrd.stepDelay.toNat * (psrd.slopeAt (psrd.accelCount.toInt + 1)).1 + rest.toNat,
        (4 * (psrd.accelCount.toInt + 1) + 1) *
          (psrd.slopeAt (psrd.accelCount.toInt + 1)).2) := by
    unfold wideDivs wideAccelDivs slopeAt
    rw [if_pos phase, counted]
    simp only [curve, true_and, curved, succ]
    split
    · rfl
    · rw [Int.mul_one, Int.mul_one]
  -- the remainder of the step before is one of a smaller divisor, or it was cleared at the bend
  have small : (rest.toNat : Int) < (4 * (psrd.accelCount.toInt + 1) - 3) *
      (psrd.slopeAt (psrd.accelCount.toInt + 1)).2 := by
    unfold slopeAt at carried ⊢
    have zero : (0 : UInt32).toNat = 0 := rfl
    by_cases left : psrd.accelCount.toInt + 1 < psrd.n2.toNat
    · rw [if_pos left]
      rw [if_pos (by omega)] at carried
      rw [show 4 * (psrd.accelCount.toInt + 1) - 3 = 4 * psrd.accelCount.toInt + 1 by ring]
      rcases kept with rfl | rfl
      · exact carried
      · exact Int.mul_pos (by omega) (by dsimp only; omega)
    · rw [if_neg left]
      by_cases beyond : psrd.accelCount.toInt < psrd.n2.toNat
      · have at_bend : psrd.n2 = (psrd.accelCount + 1).toUInt32 := by
          rw [← UInt32.toNat_inj]
          omega
        rw [bend curve (.inl at_bend)]
        dsimp only
        omega
      · rw [if_neg beyond] at carried
        dsimp only at carried ⊢
        rcases kept with rfl | rfl
        · omega
        · omega
  have bounds := climb_bounds (n := psrd.n2.toNat) ⟨by omega, delay⟩
    (show 1 ≤ psrd.accelCount.toInt + 1 by omega) (by omega) ⟨by omega, small⟩
    (w := (psrd.slopeAt (psrd.accelCount.toInt + 1)).1) (by
      unfold slopeAt
      by_cases left : psrd.accelCount.toInt + 1 < psrd.n2.toNat
      · rw [if_pos left]
        exact .inl ⟨left, rfl, rfl⟩
      · rw [if_neg left]
        exact .inr ⟨rfl, rfl, by omega⟩)
  have first : psrd.wideDivs.1 = _ := congrArg Prod.fst wide
  have second : psrd.wideDivs.2 = _ := congrArg Prod.snd wide
  dsimp only at first second
  rw [← first, ← second] at bounds
  obtain ⟨low, high, positive, most⟩ := bounds
  exact ⟨⟨fun _ slows => absurd phase slows, ⟨by omega, high⟩, ⟨by omega, most⟩⟩, low, positive,
    second⟩

theorem Moderate.fall (moderate : psrd.Moderate stepCount) (curve : psrd.method = .sCurve)
    (phase : psrd.runState = .rsDecel) (slowing : psrd.accelCount.toInt < 0) :
    psrd.DivsFit ∧ 0 ≤ psrd.wideDivs.1 ∧
      ∀ left : Int, left < psrd.wideDivs.2.natAbs → psrd.accelCount.toInt + 1 < 0 →
        131070 * (psrd.n2.toNat + (psrd.accelCount.toInt + 1) + 1) + left < 2 ^ 31 := by
  obtain ⟨some_, low, room⟩ := moderate.slowing phase
  have n2 := moderate.n2
  have succ : (psrd.accelCount + 1).toInt = psrd.accelCount.toInt + 1 := toInt_succ (by omega)
  have delay : (psrd.stepDelay.toNat : Int) ≤ 65535 := by
    have := psrd.stepDelay.toNat_lt
    omega
  have positive : psrd.n2.toNat ≠ 0 := fun none_ => some_ (UInt32.toNat_inj.mp none_)
  have wide : psrd.wideDivs =
      (2 * psrd.stepDelay.toNat * (psrd.n2.toNat + (psrd.accelCount.toInt + 1)) + psrd.rest.toNat,
        (4 * (psrd.accelCount.toInt + 1) + 1) * psrd.n2.toNat) := by
    unfold wideDivs wideDecelDivs countDecel
    rw [if_neg (by rw [phase]; nofun), if_pos (by exact curve), succ]
  have first : psrd.wideDivs.1 = _ := congrArg Prod.fst wide
  have second : psrd.wideDivs.2 = _ := congrArg Prod.snd wide
  dsimp only at first second
  have bounds := fall_bounds ⟨by omega, delay⟩ (show 1 ≤ (psrd.n2.toNat : Int) by omega)
    (by omega) (show 0 ≤ (psrd.rest.toNat : Int) by omega)
    (show -(psrd.n2.toNat : Int) ≤ psrd.accelCount.toInt + 1 by omega) (by omega)
    (by rw [← Int.add_assoc]; exact room)
  rw [← first, ← second] at bounds
  obtain ⟨least, high, below, above, next⟩ := bounds
  exact ⟨⟨fun _ _ => some_, ⟨by omega, high⟩, ⟨below, above⟩⟩, least, next⟩

theorem Moderate.turn (moderate : psrd.Moderate stepCount) (phase : psrd.runState = .rsAccel)
    (more : ¬ psrd.Exhausted stepCount) (due : psrd.DecelDue (psrd.countStep stepCount))
    (early : psrd.accelCount.toInt < 2 ^ 29 - 2 ^ 15) {left : Int}
    (carried : left < (4 * (psrd.accelCount.toInt + 1) + 1) *
      (psrd.slopeAt (psrd.accelCount.toInt + 1)).2) :
    131070 * (psrd.n2.toNat + psrd.decelVal.toInt + 1) + left < 2 ^ 31 := by
  obtain ⟨finite, -, some_, most, halfway⟩ := moderate.plan (.inl phase) due.1
  obtain ⟨first, -, progress⟩ := moderate.climbing phase
  obtain ⟨count, before⟩ := progress due.1
  have start := UInt32.le_iff_toNat_le.mp due.2
  have n2 := moderate.n2
  have counted := toNat_countStep more
  rw [if_neg finite] at counted
  rw [UInt32.lt_iff_toNat_lt] at before
  unfold slopeAt at carried
  split at carried
  · rename_i bend
    dsimp only at carried
    have product : (4 * (psrd.accelCount.toInt + 1) + 1) * (psrd.n2.toNat : Int) ≤
        (4 * (psrd.accelCount.toInt + 1) + 1) * 16383 :=
      Int.mul_le_mul_of_nonneg_left (by omega) (by omega)
    rcases halfway with whole | halfway
    · omega
    · omega
  · dsimp only at carried
    rcases halfway with whole | halfway
    · omega
    · omega

theorem Moderate.recordDelay (moderate : psrd.Moderate stepCount) (delay : UInt16) :
    (psrd.recordDelay delay).Moderate stepCount := by
  obtain ⟨least, frame⟩ := psrd.recordDelay_frame delay
  rw [frame]
  exact ⟨moderate.n2, fun climbs slows =>
      have plan := moderate.plan climbs slows
      ⟨plan.finite, plan.n2, plan.some_, plan.most, plan.halfway⟩,
    moderate.climbing, moderate.cruising, moderate.slowing⟩

theorem ShortDecel.congr {psrd' : StepInfo} (plan : psrd.ShortDecel)
    (request : psrd'.stepsRequest = psrd.stepsRequest) (n2 : psrd'.n2 = psrd.n2)
    (val : psrd'.decelVal = psrd.decelVal) (start : psrd'.decelStart = psrd.decelStart) :
    psrd'.ShortDecel := by
  refine ⟨?_, ?_, ?_, ?_, ?_⟩
  · rw [request]
    exact plan.finite
  · rw [n2]
    exact plan.n2
  · rw [val]
    exact plan.some_
  · rw [n2, val]
    exact plan.most
  · rw [n2, val, start]
    exact plan.halfway

theorem Moderate.accel (moderate : psrd.Moderate stepCount) (curve : psrd.method = .sCurve)
    (phase : psrd.runState = .rsAccel) (early : psrd.accelCount.toInt < 2 ^ 29 - 2 ^ 15)
    (more : ¬ psrd.Exhausted stepCount) {next : StepInfo × UInt16}
    (step : psrd.nextDelay (psrd.countStep stepCount) = .ok next) :
    next.1.Moderate (psrd.countStep stepCount) := by
  obtain ⟨fit, low, positive, divisor⟩ := moderate.climb curve phase early
  obtain ⟨first, -, progress⟩ := moderate.climbing phase
  have plan := moderate.plan (.inl phase)
  have succ : (psrd.accelCount + 1).toInt = psrd.accelCount.toInt + 1 := toInt_succ (by omega)
  have left := ((psrd.divsExact_iff.mpr fit).rest low).2
  rw [Int.natAbs_of_nonneg positive.le, divisor] at left
  have counted := toNat_countStep more
  rcases nextDelay_accel phase step with ⟨due, rfl⟩ | ⟨-, -, rfl⟩ | ⟨early', -, rfl⟩
  · have room := moderate.turn phase more due early left
    obtain ⟨-, n2, -, most, -⟩ := plan due.1
    exact ⟨moderate.n2, fun climbs => (by rcases climbs with climbs | climbs <;> cases climbs), nofun,
      nofun, fun _ => ⟨n2, most, room⟩⟩
  · exact ⟨moderate.n2, fun _ slows => (plan slows).congr rfl rfl rfl rfl, nofun, fun _ => rfl, nofun⟩
  · refine ⟨moderate.n2, fun _ slows => (plan slows).congr rfl rfl rfl rfl, fun _ => ⟨?_, ?_, ?_⟩,
      fun run => (by cases phase.symm.trans run), fun slow => (by cases phase.symm.trans slow)⟩
    · dsimp only
      omega
    · dsimp only
      rw [succ]
      exact left
    · intro slows
      have progress := progress slows
      rw [if_neg (plan slows).finite] at counted
      dsimp only
      refine ⟨by omega, .inr (UInt32.not_le.mp fun now => early' ⟨slows, now⟩)⟩

theorem Moderate.run (moderate : psrd.Moderate stepCount) (phase : psrd.runState = .rsRun)
    {next : StepInfo × UInt16} (step : psrd.nextDelay (psrd.countStep stepCount) = .ok next) :
    next.1.Moderate (psrd.countStep stepCount) := by
  have plan := moderate.plan (.inr phase)
  have n2 := moderate.n2
  have rest := moderate.cruising phase
  rcases nextDelay_run phase step with ⟨due, rfl⟩ | ⟨-, rfl⟩
  · obtain ⟨-, some_, least, most, -⟩ := plan due.1
    refine ⟨n2, fun climbs => (by rcases climbs with climbs | climbs <;> cases climbs), nofun, nofun,
      fun _ => ⟨some_, most, ?_⟩⟩
    dsimp only
    rw [rest]
    simp only [UInt32.toNat_zero]
    omega
  · exact ⟨n2, fun _ => plan, fun climb => (by cases phase.symm.trans climb), fun _ => rest,
      fun slow => (by cases phase.symm.trans slow)⟩

theorem Moderate.decel (moderate : psrd.Moderate stepCount) (curve : psrd.method = .sCurve)
    (phase : psrd.runState = .rsDecel) (slowing : psrd.accelCount.toInt < 0)
    {next : StepInfo × UInt16} (step : psrd.nextDelay (psrd.countStep stepCount) = .ok next) :
    next.1.Moderate (psrd.countStep stepCount) := by
  obtain ⟨fit, low, room⟩ := moderate.fall curve phase slowing
  obtain ⟨some_, least, -⟩ := moderate.slowing phase
  have succ : (psrd.accelCount + 1).toInt = psrd.accelCount.toInt + 1 := toInt_succ (by omega)
  have left := ((psrd.divsExact_iff.mpr fit).rest low).2
  have ended : psrd.accelCount + 1 ≥ 0 ↔ psrd.accelCount.toInt + 1 ≥ 0 := by
    rw [ge_iff_le, Int32.le_iff_toInt_le, Int32.toInt_zero, succ]
  rw [nextDelay_decel phase step]
  refine ⟨moderate.n2, fun climbs => ?_, fun climbs => ?_, fun run => ?_, fun slow => ?_⟩
  · dsimp only at climbs
    split at climbs
    · rcases climbs with climbs | climbs <;> cases climbs
    · rcases climbs with climbs | climbs <;> cases climbs
  · dsimp only at climbs
    split at climbs <;> cases climbs
  · dsimp only at run
    split at run <;> cases run
  · dsimp only at slow
    split at slow
    · cases slow
    · rename_i last
      rw [ended] at last
      refine ⟨some_, ?_, ?_⟩
      · dsimp only
        omega
      · dsimp only
        rw [succ]
        exact room _ left (by omega)

def CurveBounds (psrd : StepInfo) (stepCount : UInt32) : Prop :=
  psrd.method = .sCurve ∧ (psrd.Exhausted stepCount ∨ psrd.Moderate stepCount)

def EarlyClimb (psrd : StepInfo) (_ : UInt32) : Prop :=
  psrd.runState = .rsAccel → psrd.accelCount.toInt < 2 ^ 29 - 2 ^ 15

theorem curveBounds_keeps : Keeps EarlyClimb CurveBounds fun _ => True where
  shape o psrd stepCount inv := by
    refine ⟨inv.1, inv.2.imp id fun moderate => ⟨moderate.n2, fun climbs slows => ?_,
      moderate.climbing, moderate.cruising, moderate.slowing⟩⟩
    exact (moderate.plan climbs slows).congr rfl rfl rfl rfl
  pass psrd stepCount next phase more early inv step := by
    have moderate := inv.2.resolve_left more
    have ramp := (psrd.nextDelay_rampStep _ step).trans (next.1.recordDelay_rampStep next.2)
    have kept : next.1.Moderate (psrd.countStep stepCount) := by
      cases state : psrd.runState with
      | rsAccel => exact moderate.accel inv.1 state (early state) more step
      | rsRun => exact moderate.run state step
      | rsDecel => exact moderate.decel inv.1 state (phase.slowing more state) step
      | rsStop =>
          unfold nextDelay at step
          rw [state] at step
          cases step
    exact ⟨⟨ramp.method.trans inv.1, .inr (kept.recordDelay next.2)⟩, trivial⟩

theorem CurveBounds.divsFit (inv : psrd.CurveBounds stepCount) (phase : psrd.InPhase stepCount)
    (more : ¬ psrd.Exhausted stepCount) (early : psrd.EarlyClimb stepCount)
    (ramp : psrd.runState = .rsAccel ∨ psrd.runState = .rsDecel) : psrd.DivsFit := by
  have moderate := inv.2.resolve_left more
  rcases ramp with climb | slow
  · exact (moderate.climb inv.1 climb (early climb)).1
  · exact (moderate.fall inv.1 slow (phase.slowing more slow)).1

end Climb

section Begin
variable {psrd p q t r : StepInfo} {e : Event} {rcr : UInt16} {stepCount : UInt32}

theorem planDecelVal_short {step : Int32} {lim : UInt32} (bound : step.toUInt32.toNat ≤ 2 ^ 31)
    (many : ¬ (step = 1 ∨ step = 0)) (some_ : lim ≠ 0) (small : lim.toNat < 2 ^ 30) :
    (planDecelVal step lim).toInt ≤ -1 ∧ -(lim.toNat + 1 : Int) ≤ (planDecelVal step lim).toInt ∧
      (-(planDecelVal step lim).toInt = lim.toNat ∨
        ((step + planDecelVal step lim).toUInt32.toNat : Int) ≤ -(planDecelVal step lim).toInt) := by
  have sign := toInt_cases step
  have one : step.toInt ≠ 1 := fun same => many (.inl (Int32.toInt_inj.mp same))
  have zero : step.toInt ≠ 0 := fun same => many (.inr (Int32.toInt_inj.mp same))
  have positive : lim.toNat ≠ 0 := fun none_ => some_ (UInt32.toNat_inj.mp none_)
  have quotient : (step / 2).toInt = step.toInt.tdiv 2 :=
    Int32.toInt_div_of_ne_right step 2 (by decide)
  have halved : 0 ≤ step.toInt ∧ (step / 2).toInt = step.toInt / 2 ∨
      step.toInt = -2 ^ 31 ∧ (step / 2).toInt = -2 ^ 30 := by
    rcases sign with ⟨sign, -⟩ | ⟨sign, least⟩
    · have nonneg : 0 ≤ step.toInt := by omega
      exact .inl ⟨nonneg, by rw [quotient, Int.tdiv_eq_ediv_of_nonneg nonneg]⟩
    · have least : step.toInt = -2 ^ 31 := by omega
      exact .inr ⟨least, by rw [quotient, least]; rfl⟩
  have half := toInt_cases (step / 2)
  have low : (-lim).toInt32.toInt = -(lim.toNat : Int) := by
    have word := Words.toInt_sub (show (0 : UInt32).toInt32.toInt = (0 : Int).bmod _ from rfl)
      (Words.toInt_toInt32 lim)
    rw [UInt32.zero_sub, Int.zero_sub] at word
    rw [word]
    exact Words.bmod_of_fits (by omega) (by omega)
  have guard {d : Int32} (slows : d.toInt < 0) : (if d = 0 then (-1 : Int32) else d) = d :=
    if_neg fun same => by rw [same] at slows; exact absurd slows (by decide)
  have some_half : (step / 2).toUInt32 ≠ 0 := by
    intro none_
    rw [none_] at half
    have zero_ : (0 : UInt32).toNat = 0 := rfl
    omega
  have limited : ((step / 2).toUInt32 ≤ lim) ↔ (step / 2).toUInt32.toNat ≤ lim.toNat :=
    UInt32.le_iff_toNat_le
  unfold planDecelVal
  dsimp only
  rw [if_neg some_, if_neg some_half]
  by_cases short : (step / 2).toUInt32 ≤ lim
  · rw [if_pos short]
    rw [limited] at short
    obtain ⟨nonneg, halved⟩ := halved.resolve_right (by omega)
    have rest : ((step / 2).toUInt32 - step.toUInt32).toInt32.toInt =
        (step / 2).toInt - step.toInt := by
      rw [Words.toInt_sub (Words.toInt_toInt32 (step / 2).toUInt32)
        (Words.toInt_toInt32 step.toUInt32), (sign.resolve_right (by omega)).1,
        (half.resolve_right (by omega)).1]
      exact Words.bmod_of_fits (by omega) (by omega)
    have start : (step + ((step / 2).toUInt32 - step.toUInt32).toInt32).toInt =
        (step / 2).toInt := by
      rw [Int32.toInt_add, rest]
      refine (Words.bmod_of_fits (by omega) (by omega)).trans (by omega)
    have word := toNat_toUInt32 (show 0 ≤ (step + ((step / 2).toUInt32 -
      step.toUInt32).toInt32).toInt by omega)
    rw [guard (by rw [rest]; omega), rest]
    exact ⟨by omega, by omega, .inr (by omega)⟩
  · rw [if_neg short, guard (by rw [low]; omega), low]
    exact ⟨by omega, by omega, .inl (by omega)⟩

theorem planMove_decel (p : StepInfo) (step : Int32) (accel speed : UInt32) :
    (p.planMove step accel speed).decelVal = planDecelVal step (p.planMove step accel speed).n2 ∧
      (p.planMove step accel speed).decelStart =
        (step + (p.planMove step accel speed).decelVal).toUInt32 := by
  unfold planMove
  obtain ⟨_, _, -, phase⟩ := startPhase_frame _
  rw [phase]
  simp only [and_self]

theorem movePlan_decel (psrd : StepInfo) (step : Int32) (accel speed : UInt32) :
    (psrd.movePlan step accel speed).stepsRequest = (magnitude step).toUInt32 ∧
      (psrd.movePlan step accel speed).decelVal =
        planDecelVal (magnitude step) (psrd.movePlan step accel speed).n2 ∧
      (psrd.movePlan step accel speed).decelStart =
        (magnitude step + (psrd.movePlan step accel speed).decelVal).toUInt32 := by
  have prepared := (psrd.towards step).resetMove_prepared (magnitude step) speed
  exact ⟨(planMove_planned (magnitude step) accel speed).stepsRequest.trans prepared.stepsRequest,
    planMove_decel _ (magnitude step) accel speed⟩

theorem runPlan_endless (psrd : StepInfo) (io : Pins) (accel : UInt32) (speed : Int32) :
    (psrd.runPlan io accel speed).decelStart = hmInvalidStep := by
  unfold runPlan planRun
  dsimp only
  obtain ⟨_, _, -, phase⟩ := startPhase_frame _
  rw [phase]

theorem planned_short (plan : psrd.planned e = some (p, rcr)) (n2 : p.n2.toNat ≤ 16383)
    (slows : p.decelStart ≠ hmInvalidStep → p.n2 ≠ 0) (some_ : p.decelStart ≠ hmInvalidStep) :
    p.ShortDecel := by
  obtain ⟨-, step, accel, -, speed, -, few, rfl, -⟩ | ⟨_, io, accel, speed, -, rfl, -⟩ :=
    planned_cases plan
  · obtain ⟨request, val, start⟩ := psrd.movePlan_decel step accel speed
    obtain ⟨least, most, halfway⟩ := planDecelVal_short (magnitude_bound step) few (slows some_)
      (by omega)
    rw [← val] at least most halfway
    rw [← start] at halfway
    exact ⟨request ▸ magnitude_finite step, slows some_, least, most, halfway⟩
  · exact absurd (runPlan_endless _ io accel speed) some_

theorem planned_moderate (plan : psrd.planned e = some (p, rcr)) (n2 : p.n2.toNat ≤ 16383)
    (slows : p.decelStart ≠ hmInvalidStep → p.n2 ≠ 0) : p.Moderate 1 := by
  obtain ⟨count, rest, going, -⟩ := planned_begin plan
  have zero : p.accelCount.toInt = 0 := congrArg Int32.toInt count
  have none_ : p.rest.toNat = 0 := congrArg UInt32.toNat rest
  refine ⟨n2, fun _ => planned_short plan n2 slows, fun _ => ⟨zero.ge, ?_, fun _ => ⟨?_, .inl ?_⟩⟩,
    fun _ => rest, fun slow => absurd slow going⟩
  · rw [zero, none_]
    unfold slopeAt
    split
    · dsimp only
      omega
    · decide
  · rw [zero]
    rfl
  · decide

theorem stopped_moderate (stops : psrd.smoothStops e) (enough : 99 ≤ psrd.n2.toNat)
    (n2 : psrd.n2.toNat ≤ 16383) : psrd.hmStepMotorStopSmooth.Moderate 0 := by
  obtain ⟨running, first⟩ := (Tuned.refl psrd).accepted stops
  rw [stopSmooth_accepted running first]
  refine ⟨n2, fun climbs => (by rcases climbs with climbs | climbs <;> cases climbs), nofun, nofun,
    fun _ => ⟨fun none_ => ?_, ?_, ?_⟩⟩
  · have zero : psrd.n2.toNat = 0 := congrArg UInt32.toNat none_
    omega
  · dsimp only
    rw [show (-100 : Int32).toInt = -100 from rfl]
    omega
  · dsimp only
    rw [show (-100 : Int32).toInt = -100 from rfl, UInt32.toNat_zero]
    omega

theorem planned_asks (plan : psrd.planned e = some (p, rcr)) :
    ∃ accel speed, e.asks = some (accel, speed) := by
  cases e with
  | move | startHoming | startFreeRun | startRun => exact ⟨_, _, rfl⟩
  | _ => cases plan

theorem planned_method (plan : psrd.planned e = some (p, rcr)) : p.method = psrd.method := by
  obtain ⟨accel, speed, asks⟩ := planned_asks plan
  obtain ⟨_, _, values⟩ := planned_values plan asks
  exact values.method

def RampsExact (psrd : StepInfo) (e : Event) : Prop :=
  ∀ r stepCount, psrd.Executes e r stepCount → r.runState = .rsAccel ∨ r.runState = .rsDecel →
    r.DivsExact

theorem fillLoop_climbs {buf : DmaBufInfo} (n : Nat) {m : Nat} (few : m + n < 2 ^ 31)
    (count : psrd.runState = .rsAccel → psrd.accelCount.toInt ≤ m)
    {result : StepInfo × DmaBufInfo × UInt32}
    (loop : fillLoop n psrd buf stepCount = .ok result) (climbs : result.1.runState = .rsAccel) :
    result.1.accelCount.toInt ≤ m + n := by
  induction n generalizing psrd buf stepCount m with
  | zero =>
      obtain rfl := Except.ok.inj loop
      exact count climbs
  | succ n ih =>
      by_cases ended : psrd.Exhausted stepCount
      · obtain rfl := Except.ok.inj ((fillLoop_ended ended).symm.trans loop)
        have begun : psrd.accelCount.toInt ≤ m := count climbs
        dsimp only
        omega
      · obtain ⟨next, buf', step, -, rest⟩ := fillLoop_pass ended loop
        have counted := ih (m := m + 1) (by omega) (fun climbs => ?_) rest
        · omega
        · obtain ⟨least, frame⟩ := next.1.recordDelay_frame next.2
          rw [frame] at climbs ⊢
          obtain ⟨before, succ⟩ := nextDelay_climbs step climbs
          have begun := count before
          dsimp only
          rw [succ, toInt_succ (by omega)]
          omega

theorem starts_early (starts : psrd.starts e) (executes : psrd.Executes e r stepCount) :
    r.EarlyClimb stepCount := by
  intro climbs
  have unit {p a : StepInfo} {rcr : UInt16} (plan : psrd.planned e = some (p, rcr))
      (first : p.firstUnit rcr = .ok a) : a.dmaBuf[(0 : Fin hmDmaBufBlockSz)].passes ≤ 100 ∧
        (a.runState = .rsAccel → a.accelCount.toInt ≤ (0 : Nat)) := by
    have cleared := (planned_ready plan).1
    have whole := (firstUnit_begun cleared first).whole
    have room := fill_room whole
    have most : hmDmaBufSize = 100 := rfl
    refine ⟨by omega, fun _ => ?_⟩
    obtain ⟨buf, rfl, -⟩ := firstUnit_ok cleared first
    exact (congrArg Int32.toInt (planned_begin plan).1).le
  obtain ⟨p, i, n, buf, generates, less, loop, -⟩ := executes
  cases generates with
  | refill => cases starts
  | first _ plan first =>
      obtain ⟨few, count⟩ := unit plan first
      have late := fillLoop_climbs n (by omega) count loop climbs
      dsimp only at late
      omega
  | second _ plan first update =>
      obtain ⟨few, count⟩ := unit plan first
      have cleared := (planned_ready plan).1
      obtain ⟨r', buf', count', loop', same⟩ :=
        hmDmaUpdate_withBufs (firstUnit_begun cleared first).whole update
      have begun : p.runState = .rsAccel → p.accelCount.toInt ≤ (100 : Nat) := by
        intro climbs'
        rw [same] at climbs' ⊢
        have late := fillLoop_climbs _ (by omega) count loop' climbs'
        dsimp only at late
        change r'.accelCount.toInt ≤ _
        omega
      obtain ⟨-, -, -, other, -, -⟩ := firstBuf_ok cleared first update
      have whole : p.dmaBuf[(1 : Fin hmDmaBufBlockSz)].Whole := by
        rw [other]
        exact cleared.whole 1
      have room := fill_room whole
      have most : hmDmaBufSize = 100 := rfl
      have late := fillLoop_climbs n (by omega) begun loop climbs
      dsimp only at late
      omega

def GentleStart (psrd : StepInfo) (e : Event) : Prop :=
  ∀ p rcr, psrd.planned e = some (p, rcr) →
    p.n2.toNat ≤ 16383 ∧ (p.decelStart ≠ hmInvalidStep → p.n2 ≠ 0)

structure GentleEvent (psrd : StepInfo) (e : Event) : Prop where
  undisturbed : psrd.Undisturbed EarlyClimb e
  stops : psrd.smoothStops e → 99 ≤ psrd.n2.toNat ∧ psrd.n2.toNat ≤ 16383

theorem CurveBounds.executes (regular : psrd.Regular)
    (inv : psrd.starts e = false → psrd.CurveBounds psrd.stepsTaken)
    (begun : psrd.starts e → ∀ p rcr, psrd.planned e = some (p, rcr) → p.CurveBounds 1)
    (early : ∀ r stepCount, psrd.Executes e r stepCount → r.EarlyClimb stepCount) :
    psrd.RampsExact e := fun r stepCount executes ramp =>
  r.divsExact_iff.mpr ((curveBounds_keeps.executes regular inv begun early executes).divsFit
    (executes.inPhase regular) executes.more (early r stepCount executes) ramp)

theorem GentleStart.begins (gentle : psrd.GentleStart e) (regular : psrd.Regular)
    (curve : psrd.method = .sCurve) (starts : psrd.starts e) (action : psrd.exec e = .ok t) :
    t.CurveBounds t.stepsTaken := by
  cases plan : psrd.planned e with
  | none =>
      have kept : psrd.recurves e = false := by
        cases e <;> first | rfl | cases starts
      refine ⟨(exec_method regular kept action).trans curve, .inl ?_⟩
      exact exhausted_of_delays (regular.step action).phase ((unplanned_writes starts plan action).2 1)
  | some begins =>
      obtain ⟨p, rcr⟩ := begins
      obtain ⟨n2, slows⟩ := gentle p rcr plan
      exact (curveBounds_keeps.starts starts plan
        ⟨(planned_method plan).trans curve, .inr (planned_moderate plan n2 slows)⟩
        (fun _ _ => starts_early starts) action).1

/-- The steps of a motion of a moderate S curve divide as they are meant to, whatever interrupts and
stops come. Any one does exactly when its numbers fit into 32 bits and it does not slow down without
an `n2`. -/
theorem curve_divides_iff {idx : Fin hmMaxAxis} {es : List Event}
    (run : Run Step (hmStepMotorInit idx) es psrd) :
    (∀ e, psrd.method = .sCurve → psrd.starts e → psrd.GentleStart e →
      psrd.RampsExact e ∧ ∀ t, psrd.exec e = .ok t → ∀ es q units,
        Run (PassStep GentleEvent) (t, psrd.wrote e) es (q, units) →
        ∀ e', q.GentleEvent e' → q.RampsExact e') ∧
    ∀ e r stepCount, psrd.Executes e r stepCount → r.method = .sCurve →
      r.runState = .rsAccel ∨ r.runState = .rsDecel → (r.DivsExact ↔ r.DivsFit) := by
  have regular := reachable_regular run
  refine ⟨fun e curve starts gentle => ⟨?_, ?_⟩, fun _ r _ _ _ _ => r.divsExact_iff⟩
  · refine CurveBounds.executes regular (fun idle => by simp [starts] at idle)
      (fun _ p rcr plan => ⟨(planned_method plan).trans curve, .inr ?_⟩)
      (fun _ _ => starts_early starts)
    obtain ⟨n2, slows⟩ := gentle p rcr plan
    exact planned_moderate plan n2 slows
  · intro t action es q units run e' event
    have begun := gentle.begins regular curve starts action
    obtain ⟨regular', inv, -⟩ := curveBounds_keeps.run (fun _ _ event => event.undisturbed)
      (fun psrd e event inv stops => ⟨stopSmooth_method.trans inv.1, .inr
        (stopped_moderate stops (event.stops stops).1 (event.stops stops).2)⟩)
      (regular.step action) begun (fun _ _ => trivial) run
    exact CurveBounds.executes regular' (fun _ => inv)
      (fun starts => by simp [event.undisturbed.idle] at starts) event.undisturbed.fits

theorem quiet_gentle (other : e ≠ .halfTransfer) (idle : psrd.starts e = false)
    (curve : psrd.recurves e = false) (enough : 99 ≤ psrd.n2.toNat) (most : psrd.n2.toNat ≤ 16383) :
    psrd.GentleEvent e :=
  ⟨⟨idle, curve, fun _ _ executes => absurd executes (not_executes other idle)⟩,
    fun _ => ⟨enough, most⟩⟩

theorem curve_divides_stopping : ∃ psrd t q u,
    Run Step (hmStepMotorInit 0) [.setAxisCurve .sCurve] psrd ∧
    psrd.exec (.startFreeRun .clear 20000 2000) = .ok t ∧
    Run Step t [.transferComplete, .stopSmooth] q ∧
    q.exec .halfTransfer = .ok u ∧ u.stepsTaken = 100 ∧
    psrd.RampsExact (.startFreeRun .clear 20000 2000) ∧ q.RampsExact .halfTransfer := by
  obtain ⟨psrd, run, test⟩ := computes_fires.run_any
    (show ([Event.setAxisCurve .sCurve].foldlM (playFires exec) (hmStepMotorInit 0)).any
      (fun psrd : StepInfo => decide (psrd.method = .sCurve ∧
          psrd.starts (.startFreeRun .clear 20000 2000) ∧
          (runPlan { psrd with bdoHome := false } .clear 20000 2000).n2.toNat ≤ 16383) &&
        (psrd.exec (.startFreeRun .clear 20000 2000)).toOption.any fun t =>
          (t.exec .transferComplete).toOption.any fun v =>
            decide (t.n2 = v.n2 ∧ 99 ≤ v.n2.toNat ∧ v.n2.toNat ≤ 16383 ∧
              v.hmStepMotorStopSmooth.runState = .rsDecel) &&
            (v.hmStepMotorStopSmooth.exec .halfTransfer).toOption.any fun u =>
              decide (u.stepsTaken = 100)) by
      decide +kernel)
  obtain ⟨before, test⟩ := Bool.and_eq_true_iff.mp test
  obtain ⟨curve, starts, n2⟩ := of_decide_eq_true before
  obtain ⟨t, action, test⟩ := ok_of_any test
  obtain ⟨v, complete, test⟩ := ok_of_any test
  obtain ⟨between, test⟩ := Bool.and_eq_true_iff.mp test
  obtain ⟨same, enough, most, slows⟩ := of_decide_eq_true between
  obtain ⟨u, refill, taken⟩ := ok_of_any test
  have gentle : psrd.GentleStart (.startFreeRun .clear 20000 2000) := by
    intro p rcr plan
    obtain ⟨rfl, -⟩ := Prod.mk.inj (Option.some.inj plan)
    exact ⟨n2, fun some_ => absurd (runPlan_endless _ _ _ _) some_⟩
  obtain ⟨divides, -⟩ := curve_divides_iff run
  obtain ⟨start, motion⟩ := divides _ curve starts gentle
  refine ⟨psrd, t, v.hmStepMotorStopSmooth, u, run, action, .cons complete (.cons rfl .nil), refill,
    of_decide_eq_true taken, start, ?_⟩
  have completes : t.GentleEvent .transferComplete :=
    quiet_gentle nofun rfl rfl (same ▸ enough) (same ▸ most)
  have stops : v.GentleEvent .stopSmooth := quiet_gentle nofun rfl rfl enough most
  refine motion t action [.transferComplete, .stopSmooth] _ _
    (.cons (passStep completes complete _) (.cons (passStep stops rfl _) .nil)) _
    ⟨⟨rfl, rfl, ?_⟩, nofun⟩
  intro r stepCount executes climbs
  obtain ⟨p, i, n, buf, generates, less, loop, -⟩ := executes
  cases generates with
  | refill =>
      -- a generator that slows down does not speed up again
      have few : n ≤ 100 := by
        have room := fill_room v.hmStepMotorStopSmooth.emptied_whole
        have most : hmDmaBufSize = 100 := rfl
        have less : n < (v.hmStepMotorStopSmooth.emptied.dmaBuf[
          v.hmStepMotorStopSmooth.dmaBufIdx + 1]).passes := less
        omega
      have late : r.accelCount.toInt ≤ _ := fillLoop_climbs n (by omega)
        (m := 0) (fun climbs => by cases slows.symm.trans climbs) loop climbs
      omega
  | first starts => cases starts
  | second starts => cases starts

/-- The first step of an S curve at twenty thousand steps a second, with an acceleration of two
thousand, has a dividend of more than 33 bits. -/
theorem curve_divides_wraps : ∃ psrd, Run Step (hmStepMotorInit 0) [.setAxisCurve .sCurve] psrd ∧
    psrd.starts (.startFreeRun .clear 2000 20000) ∧
    ∃ r stepCount, psrd.Executes (.startFreeRun .clear 2000 20000) r stepCount ∧
      r.method = .sCurve ∧ r.runState = .rsAccel ∧
      r.divs.1.toInt = -1275711052 ∧ r.wideDivs.1 = 11609190836 := by
  obtain ⟨psrd, run, test⟩ := computes_fires.run_any
    (show ([Event.setAxisCurve .sCurve].foldlM (playFires exec) (hmStepMotorInit 0)).any
      (fun psrd => psrd.starts (.startFreeRun .clear 2000 20000) &&
        psrd.passTest (.startFreeRun .clear 2000 20000) 0 fun r =>
          decide (r.method = .sCurve ∧ r.runState = .rsAccel ∧
            r.divs.1.toInt = -1275711052 ∧ r.wideDivs.1 = 11609190836)) by
      decide +kernel)
  obtain ⟨starts, found⟩ := Bool.and_eq_true_iff.mp test
  obtain ⟨r, stepCount, executes, test⟩ := executes_of_passTest starts found
  exact ⟨psrd, run, starts, r, stepCount, executes, of_decide_eq_true test⟩

end Begin

end StepInfo

end MotionBoard
