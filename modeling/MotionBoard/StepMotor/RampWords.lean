import MotionBoard.StepMotor.Passes

namespace MotionBoard
open Transition

namespace StepInfo

def wideAccelDivs (psrd : StepInfo) : Int × Int :=
  let count := psrd.accelCount.toInt
  if psrd.method = .sCurve ∧ psrd.n2 > psrd.accelCount.toUInt32 then
    (2 * psrd.stepDelay.toNat * (psrd.n2.toNat - count) + psrd.rest.toNat,
      (4 * count + 1) * psrd.n2.toNat)
  else (2 * psrd.stepDelay.toNat + psrd.rest.toNat, 4 * count + 1)

def wideDecelDivs (psrd : StepInfo) : Int × Int :=
  let count := psrd.accelCount.toInt
  if psrd.method = .sCurve then
    (2 * psrd.stepDelay.toNat * (psrd.n2.toNat + count) + psrd.rest.toNat,
      (4 * count + 1) * psrd.n2.toNat)
  else (2 * psrd.stepDelay.toNat + psrd.rest.toNat, 4 * count + 1)

def countDecel (psrd : StepInfo) : StepInfo := { psrd with accelCount := psrd.accelCount + 1 }

def divs (psrd : StepInfo) : Int32 × Int32 :=
  if psrd.runState = .rsAccel then psrd.countAccel.accelDivs else psrd.countDecel.decelDivs

def wideDivs (psrd : StepInfo) : Int × Int :=
  if psrd.runState = .rsAccel then psrd.countAccel.wideAccelDivs else psrd.countDecel.wideDecelDivs

def newDelay (psrd : StepInfo) : UInt16 :=
  (promote psrd.stepDelay - psrd.divs.1 / psrd.divs.2).toUInt32.toUInt16

def newRest (psrd : StepInfo) : UInt32 := (psrd.divs.1 % psrd.divs.2).toUInt32

def growth (psrd : StepInfo) : Int :=
  -(psrd.wideDivs.1.bmod (2 ^ 32)).tdiv (psrd.wideDivs.2.bmod (2 ^ 32))

/-- The step divides by something, and its dividend and divisor are what they are meant to be. -/
structure DivsExact (psrd : StepInfo) : Prop where
  nonzero : psrd.divs.2 ≠ 0
  dividend : psrd.divs.1.toInt = psrd.wideDivs.1
  divisor : psrd.divs.2.toInt = psrd.wideDivs.2

structure DivsFit (psrd : StepInfo) : Prop where
  n2 : psrd.method = .sCurve → psrd.runState ≠ .rsAccel → psrd.n2 ≠ 0
  dividend : -2 ^ 31 ≤ psrd.wideDivs.1 ∧ psrd.wideDivs.1 < 2 ^ 31
  divisor : -2 ^ 31 ≤ psrd.wideDivs.2 ∧ psrd.wideDivs.2 < 2 ^ 31

instance (psrd : StepInfo) : Decidable psrd.DivsFit :=
  decidable_of_iff ((psrd.method = .sCurve → psrd.runState ≠ .rsAccel → psrd.n2 ≠ 0) ∧
      (-2 ^ 31 ≤ psrd.wideDivs.1 ∧ psrd.wideDivs.1 < 2 ^ 31) ∧
      (-2 ^ 31 ≤ psrd.wideDivs.2 ∧ psrd.wideDivs.2 < 2 ^ 31))
    ⟨fun ⟨n2, dividend, divisor⟩ => ⟨n2, dividend, divisor⟩,
      fun fit => ⟨fit.n2, fit.dividend, fit.divisor⟩⟩

structure Gains (psrd : StepInfo) : Prop where
  phase : psrd.runState = .rsAccel
  flat : psrd.method = .tCurve
  count : 0 ≤ psrd.accelCount.toInt ∧ psrd.accelCount.toInt < 2 ^ 29 - 1
  carried : (psrd.rest.toNat : Int) < 4 * psrd.accelCount.toInt + 1
  small : 2 * psrd.stepDelay.toNat + psrd.rest.toNat < 2 ^ 31

section Words
variable (psrd : StepInfo)

theorem toInt_weighted {weight : UInt32} {w : Int}
    (word : weight.toInt32.toInt = w.bmod (2 ^ 32)) :
    (psrd.twiceDelay * weight + psrd.rest).toInt32.toInt =
      (2 * psrd.stepDelay.toNat * w + psrd.rest.toNat).bmod (2 ^ 32) := by
  have twice : psrd.twiceDelay.toInt32.toInt = (2 * (psrd.stepDelay.toNat : Int)).bmod (2 ^ 32) := by
    rw [← psrd.toInt_twiceDelay]
    exact Words.toInt_bmod _
  exact Words.toInt_add (Words.toInt_mul twice word) (Words.toInt_toInt32 _)

theorem toInt_scaled (scale : UInt32) : (psrd.countDiv.toUInt32 * scale).toInt32.toInt =
    ((4 * psrd.accelCount.toInt + 1) * scale.toNat).bmod (2 ^ 32) := by
  have count : psrd.countDiv.toUInt32.toInt32.toInt =
      (4 * psrd.accelCount.toInt + 1).bmod (2 ^ 32) := by
    rw [Int32.toInt32_toUInt32, psrd.toInt_countDiv]
  exact Words.toInt_mul count (Words.toInt_toInt32 scale)

theorem toInt_flat : (psrd.twiceDelay + psrd.rest).toInt32.toInt =
    (2 * psrd.stepDelay.toNat + psrd.rest.toNat : Int).bmod (2 ^ 32) := by
  have product := psrd.toInt_weighted (show (1 : UInt32).toInt32.toInt = (1 : Int).bmod _ from rfl)
  rw [UInt32.mul_one, Int.mul_one] at product
  exact product

theorem toInt_accelDivs :
    psrd.accelDivs.1.toInt = psrd.wideAccelDivs.1.bmod (2 ^ 32) ∧
      psrd.accelDivs.2.toInt = psrd.wideAccelDivs.2.bmod (2 ^ 32) := by
  unfold accelDivs wideAccelDivs
  dsimp only
  split
  · refine ⟨psrd.toInt_weighted (Words.toInt_sub (Words.toInt_toInt32 _) ?_), psrd.toInt_scaled _⟩
    rw [Int32.toInt32_toUInt32]
    exact Words.toInt_bmod _
  · exact ⟨psrd.toInt_flat, psrd.toInt_countDiv⟩

theorem toInt_decelDivs :
    psrd.decelDivs.1.toInt = psrd.wideDecelDivs.1.bmod (2 ^ 32) ∧
      psrd.decelDivs.2.toInt = psrd.wideDecelDivs.2.bmod (2 ^ 32) := by
  unfold decelDivs wideDecelDivs
  dsimp only
  split
  · refine ⟨psrd.toInt_weighted (Words.toInt_add (Words.toInt_toInt32 _) ?_), psrd.toInt_scaled _⟩
    rw [Int32.toInt32_toUInt32]
    exact Words.toInt_bmod _
  · exact ⟨psrd.toInt_flat, psrd.toInt_countDiv⟩

theorem toInt_divs :
    psrd.divs.1.toInt = psrd.wideDivs.1.bmod (2 ^ 32) ∧
      psrd.divs.2.toInt = psrd.wideDivs.2.bmod (2 ^ 32) := by
  unfold divs wideDivs
  split
  · exact psrd.countAccel.toInt_accelDivs
  · exact psrd.countDecel.toInt_decelDivs

theorem toNat_newDelay :
    (psrd.newDelay.toNat : Int) = (psrd.stepDelay.toNat + psrd.growth) % 2 ^ 16 := by
  obtain ⟨dividend, divisor⟩ := psrd.toInt_divs
  unfold newDelay growth
  rw [Words.toNat_toUInt16, Int32.toInt_sub, Int32.toInt_div, promote_toInt, dividend, divisor,
    Int.sub_bmod_bmod, Int.add_neg_eq_sub]
  exact Words.bmod_emod _

theorem toInt_newRest : psrd.newRest.toInt32.toInt =
    (psrd.wideDivs.1.bmod (2 ^ 32)).tmod (psrd.wideDivs.2.bmod (2 ^ 32)) := by
  obtain ⟨dividend, divisor⟩ := psrd.toInt_divs
  unfold newRest
  rw [Int32.toInt32_toUInt32, Int32.toInt_mod, dividend, divisor]

/-- An acceleration has an `n2` wherever it divides by it, and `4 * count + 1` is odd. -/
theorem wideDivs_ne_zero (n2 : psrd.method = .sCurve → psrd.runState ≠ .rsAccel → psrd.n2 ≠ 0) :
    psrd.wideDivs.2 ≠ 0 := by
  have product {count : Int} {scale : UInt32} (some_ : scale ≠ 0) :
      (4 * count + 1) * (scale.toNat : Int) ≠ 0 := by
    have positive : scale.toNat ≠ 0 := fun none_ => some_ (UInt32.toNat_inj.mp none_)
    exact Int.mul_ne_zero (by omega) (by omega)
  unfold wideDivs
  split
  · unfold wideAccelDivs
    dsimp only
    split
    · rename_i curve
      refine product fun none_ => ?_
      rw [none_] at curve
      exact absurd curve.2 (by simp)
    · dsimp only
      omega
  · rename_i slows
    unfold wideDecelDivs
    dsimp only
    split
    · rename_i curve
      exact product (n2 curve slows)
    · dsimp only
      omega

theorem divsExact_iff : psrd.DivsExact ↔ psrd.DivsFit := by
  obtain ⟨dividend, divisor⟩ := psrd.toInt_divs
  constructor
  · intro exact_
    refine ⟨fun curve slows none_ => exact_.nonzero ?_, ?_, ?_⟩
    · have zero : psrd.wideDivs.2 = 0 := by
        unfold wideDivs wideDecelDivs
        rw [if_neg slows, show psrd.countDecel.method = .sCurve from curve,
          show psrd.countDecel.n2 = 0 from none_]
        simp
      rw [← Int32.toInt_inj, exact_.divisor, zero]
      rfl
    · rw [← exact_.dividend]
      exact ⟨Int32.le_toInt _, Int32.toInt_lt _⟩
    · rw [← exact_.divisor]
      exact ⟨Int32.le_toInt _, Int32.toInt_lt _⟩
  · intro fit
    rw [Words.bmod_of_fits fit.dividend.1 fit.dividend.2] at dividend
    rw [Words.bmod_of_fits fit.divisor.1 fit.divisor.2] at divisor
    refine ⟨fun zero => psrd.wideDivs_ne_zero fit.n2 ?_, dividend, divisor⟩
    rw [← divisor, zero]
    rfl

end Words

section Step
variable {psrd : StepInfo} {stepCount : UInt32} {next : StepInfo × UInt16}

theorem recordDelay_frame (psrd : StepInfo) (delay : UInt16) : ∃ least,
    psrd.recordDelay delay = { psrd with stepDelay := delay, minStepDelay := least } := by
  unfold recordDelay
  dsimp only
  split
  · exact ⟨_, rfl⟩
  · exact ⟨_, rfl⟩

theorem countAccel_frame (psrd : StepInfo) : ∃ rest,
    psrd.countAccel = { psrd with accelCount := psrd.accelCount + 1, rest := rest } ∧
    (rest = psrd.rest ∨ rest = 0) ∧
    (psrd.method = .sCurve → psrd.n2 = (psrd.accelCount + 1).toUInt32 ∨
      psrd.n2 + 1 = (psrd.accelCount + 1).toUInt32 → rest = 0) ∧
    (psrd.method = .tCurve → rest = psrd.rest) := by
  unfold countAccel
  dsimp only
  split
  · rename_i bend
    exact ⟨0, rfl, .inr rfl, fun _ _ => rfl, fun flat => by cases flat.symm.trans bend.1⟩
  · rename_i straight
    exact ⟨psrd.rest, rfl, .inl rfl, fun curve bend => absurd ⟨curve, bend⟩ straight, fun _ => rfl⟩

theorem nextDelay_accel (phase : psrd.runState = .rsAccel)
    (step : psrd.nextDelay stepCount = .ok next) :
    (psrd.DecelDue stepCount ∧ next = ({ psrd with
        rest := psrd.newRest, accelCount := psrd.decelVal, runState := .rsDecel }, psrd.newDelay)) ∨
      (¬ psrd.DecelDue stepCount ∧ psrd.newDelay ≤ psrd.minDelay ∧ next = ({ psrd with
        accelCount := psrd.accelCount + 1, lastAccelDelay := psrd.newDelay, rest := 0,
        runState := .rsRun }, psrd.minDelay)) ∨
      (¬ psrd.DecelDue stepCount ∧ psrd.minDelay < psrd.newDelay ∧ next = ({ psrd with
        accelCount := psrd.accelCount + 1, rest := psrd.newRest }, psrd.newDelay)) := by
  have divs : psrd.divs = psrd.countAccel.accelDivs := if_pos phase
  obtain ⟨rest, counted, -⟩ := psrd.countAccel_frame
  have divided : psrd.countAccel.divide psrd.countAccel.accelDivs.1 psrd.countAccel.accelDivs.2 =
      ({ psrd with accelCount := psrd.accelCount + 1, rest := psrd.newRest }, psrd.newDelay) := by
    unfold divide newRest newDelay
    rw [divs]
    rw [counted]
  have left : psrd.accelDelay stepCount =
      { psrd with accelCount := psrd.accelCount + 1, rest := psrd.newRest }.leaveAccel stepCount
        psrd.newDelay := by
    unfold accelDelay
    dsimp only
    rw [divided]
  unfold nextDelay at step
  rw [phase] at step
  obtain rfl := (Except.ok.inj step).symm.trans left
  unfold leaveAccel
  by_cases due : psrd.DecelDue stepCount
  · exact .inl ⟨due, if_pos due⟩
  · refine .inr ?_
    by_cases fast : psrd.newDelay ≤ psrd.minDelay
    · exact .inl ⟨due, fast, (if_neg due).trans (if_pos fast)⟩
    · exact .inr ⟨due, UInt16.not_le.mp fast, (if_neg due).trans (if_neg fast)⟩

theorem nextDelay_run (phase : psrd.runState = .rsRun)
    (step : psrd.nextDelay stepCount = .ok next) :
    (psrd.DecelDue stepCount ∧ next = ({ psrd with
        accelCount := psrd.decelVal, runState := .rsDecel }, psrd.lastAccelDelay)) ∨
      (¬ psrd.DecelDue stepCount ∧ next = (psrd, psrd.minDelay)) := by
  unfold nextDelay at step
  rw [phase] at step
  obtain rfl := Except.ok.inj step
  unfold runDelay
  by_cases due : psrd.DecelDue stepCount
  · exact .inl ⟨due, if_pos due⟩
  · exact .inr ⟨due, if_neg due⟩

theorem nextDelay_decel (phase : psrd.runState = .rsDecel)
    (step : psrd.nextDelay stepCount = .ok next) :
    next = ({ psrd with
      accelCount := psrd.accelCount + 1
      rest := psrd.newRest
      runState := if psrd.accelCount + 1 ≥ 0 then .rsStop else .rsDecel }, psrd.newDelay) := by
  have divs : psrd.divs = psrd.countDecel.decelDivs := if_neg (by rw [phase]; nofun)
  unfold nextDelay at step
  rw [phase] at step
  obtain rfl := Except.ok.inj step
  unfold decelDelay newRest newDelay
  rw [divs]
  refine Prod.ext ?_ rfl
  unfold leaveDecel divide
  dsimp only
  split
  · rfl
  · rw [← phase]
    rfl

theorem nextDelay_climbs (step : psrd.nextDelay stepCount = .ok next)
    (climbs : next.1.runState = .rsAccel) :
    psrd.runState = .rsAccel ∧ next.1.accelCount = psrd.accelCount + 1 := by
  cases state : psrd.runState with
  | rsAccel =>
      rcases nextDelay_accel state step with ⟨-, rfl⟩ | ⟨-, -, rfl⟩ | ⟨-, -, rfl⟩
      · cases climbs
      · cases climbs
      · exact ⟨rfl, rfl⟩
  | rsRun =>
      rcases nextDelay_run state step with ⟨-, rfl⟩ | ⟨-, rfl⟩
      · cases climbs
      · cases state.symm.trans climbs
  | rsDecel =>
      rw [nextDelay_decel state step] at climbs
      dsimp only at climbs
      split at climbs <;> cases climbs
  | rsStop =>
      unfold nextDelay at step
      rw [state] at step
      cases step

theorem wideDivs_climb (phase : psrd.runState = .rsAccel) (flat : psrd.method = .tCurve)
    (fits : psrd.accelCount.toInt + 1 < 2 ^ 31) :
    psrd.wideDivs.1 = 2 * psrd.stepDelay.toNat + psrd.rest.toNat ∧
      psrd.wideDivs.2 = 4 * (psrd.accelCount.toInt + 1) + 1 := by
  obtain ⟨rest, counted, -, -, kept⟩ := psrd.countAccel_frame
  unfold wideDivs wideAccelDivs
  rw [if_pos phase, counted, kept flat]
  simp only [flat, reduceCtorEq, false_and, if_false, toInt_succ fits, and_self]

theorem Gains.divides (gains : psrd.Gains) :
    psrd.DivsExact ∧ psrd.wideDivs.1 = 2 * psrd.stepDelay.toNat + psrd.rest.toNat ∧
      psrd.wideDivs.2 = 4 * psrd.accelCount.toInt + 5 := by
  obtain ⟨phase, flat, count, carried, small⟩ := gains
  obtain ⟨dividend, divisor⟩ := wideDivs_climb phase flat (by omega)
  exact ⟨psrd.divsExact_iff.mpr ⟨fun curve => (by cases flat.symm.trans curve), by omega, by omega⟩,
    dividend, by omega⟩

theorem DivsExact.new (exact_ : psrd.DivsExact) :
    psrd.newRest.toInt32.toInt = psrd.wideDivs.1.tmod psrd.wideDivs.2 ∧
      (psrd.newDelay.toNat : Int) =
        (psrd.stepDelay.toNat - psrd.wideDivs.1.tdiv psrd.wideDivs.2) % 2 ^ 16 := by
  unfold newRest newDelay
  constructor
  · rw [Int32.toInt32_toUInt32, Int32.toInt_mod, exact_.dividend, exact_.divisor]
  · rw [Words.toNat_toUInt16, Int32.toInt_sub, Int32.toInt_div, promote_toInt, exact_.dividend,
      exact_.divisor, Int.sub_bmod_bmod]
    exact Words.bmod_emod _

theorem DivsExact.rest (exact_ : psrd.DivsExact) (positive : 0 ≤ psrd.wideDivs.1) :
    (psrd.newRest.toNat : Int) = psrd.wideDivs.1.tmod psrd.wideDivs.2 ∧
      (psrd.newRest.toNat : Int) < psrd.wideDivs.2.natAbs := by
  have word := exact_.new.1
  have least := Int.tmod_nonneg psrd.wideDivs.2 positive
  have divisor : psrd.wideDivs.2 ≠ 0 := by
    rw [← exact_.divisor, ← Int32.toInt_zero, ne_eq, Int32.toInt_inj]
    exact exact_.nonzero
  have most := Int.emod_lt psrd.wideDivs.1 divisor
  rw [← Int.tmod_eq_emod_of_nonneg positive] at most
  have small := psrd.newRest.toNat_lt
  have cases_ := toInt_cases psrd.newRest.toInt32
  rw [UInt32.toUInt32_toInt32] at cases_
  omega

theorem Gains.step (gains : psrd.Gains) :
    (psrd.newDelay.toNat : Int) =
        psrd.stepDelay.toNat - psrd.wideDivs.1 / psrd.wideDivs.2 ∧
      (psrd.newRest.toNat : Int) = psrd.wideDivs.1 % psrd.wideDivs.2 ∧
      0 ≤ psrd.wideDivs.1 / psrd.wideDivs.2 := by
  obtain ⟨exact_, dividend, divisor⟩ := gains.divides
  obtain ⟨-, -, count, carried, small⟩ := gains
  have word := psrd.stepDelay.toNat_lt
  have positive : 0 < psrd.wideDivs.2 := by omega
  have nonneg : 0 ≤ psrd.wideDivs.1 := by omega
  have least : 0 ≤ psrd.wideDivs.1 / psrd.wideDivs.2 := Int.ediv_nonneg nonneg positive.le
  have most : psrd.wideDivs.1 / psrd.wideDivs.2 < psrd.stepDelay.toNat + 1 := by
    rw [Int.ediv_lt_iff_lt_mul positive, dividend, divisor]
    have product : 0 ≤ (psrd.stepDelay.toNat : Int) * psrd.accelCount.toInt :=
      Int.mul_nonneg (by omega) count.1
    have expanded : ((psrd.stepDelay.toNat : Int) + 1) * (4 * psrd.accelCount.toInt + 5) =
        4 * (psrd.stepDelay.toNat * psrd.accelCount.toInt) + 5 * psrd.stepDelay.toNat +
          4 * psrd.accelCount.toInt + 5 := by ring
    rw [expanded]
    omega
  have delay := exact_.new.2
  have rest := (exact_.rest nonneg).1
  rw [Int.tdiv_eq_ediv_of_nonneg nonneg] at delay
  rw [Int.tmod_eq_emod_of_nonneg nonneg] at rest
  exact ⟨delay.trans (Int.emod_eq_of_lt (by omega) (by omega)), rest, least⟩

end Step

end StepInfo

end MotionBoard
