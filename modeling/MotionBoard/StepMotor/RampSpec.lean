import MotionBoard.Lib.Except
import MotionBoard.StepMotor.Ramp

namespace MotionBoard

namespace DmaBufInfo

def units (buf : DmaBufInfo) : Nat := buf.dmaBufLen.toNat / hmDmaBufUnitSize

def Whole (buf : DmaBufInfo) : Prop :=
  buf.dmaBufLen.toNat = hmDmaBufUnitSize * buf.units ∧ buf.units ≤ hmDmaBufSize

theorem Whole.dvd {buf : DmaBufInfo} (whole : buf.Whole) :
    3 ∣ buf.dmaBufLen.toNat ∧ buf.dmaBufLen.toNat ≤ 300 := by
  obtain ⟨length, room⟩ := whole
  simp only [hmDmaBufUnitSize, hmDmaBufSize] at length room
  omega

theorem Whole.short_iff {buf : DmaBufInfo} (whole : buf.Whole) :
    buf.dmaBufLen < 300 ↔ buf.units < hmDmaBufSize := by
  have length := whole.1
  simp only [hmDmaBufUnitSize] at length
  rw [UInt16.lt_iff_toNat_lt, length, show (300 : UInt16).toNat = 300 from rfl]
  simp only [hmDmaBufSize]
  omega

theorem passes_of_whole {buf : DmaBufInfo} (whole : buf.Whole) :
    buf.passes = hmDmaBufSize - buf.units := by
  unfold Whole at whole
  unfold passes
  simp only [hmDmaBufUnitSize, hmDmaBufSize] at *
  omega

theorem put_ok (buf : DmaBufInfo) (value : UInt16)
    (room : buf.dmaBufLen.toNat < hmDmaBufUnitSize * hmDmaBufSize) :
    ∃ buf', buf.put value = .ok buf' ∧ buf'.dmaBufLen = buf.dmaBufLen + 1 ∧
      buf'.valid = buf.valid :=
  ⟨_, dif_pos room, rfl, rfl⟩

theorem putUnit_ok (buf : DmaBufInfo) (arr rcr ccr1 : UInt16) (whole : buf.Whole)
    (room : buf.units < hmDmaBufSize) :
    ∃ buf', buf.putUnit arr rcr ccr1 = .ok buf' ∧ buf'.Whole ∧
      buf'.units = buf.units + 1 ∧ buf'.valid = buf.valid := by
  have length := whole.1
  simp only [hmDmaBufUnitSize, hmDmaBufSize] at length room
  obtain ⟨buf₁, first, length₁, valid₁⟩ := put_ok buf arr (by
    simp only [hmDmaBufUnitSize, hmDmaBufSize]; omega)
  have length₁ : buf₁.dmaBufLen.toNat = buf.dmaBufLen.toNat + 1 := by
    rw [length₁, UInt16.toNat_add, UInt16.toNat_one]
    omega
  obtain ⟨buf₂, second, length₂, valid₂⟩ := put_ok buf₁ rcr (by
    simp only [hmDmaBufUnitSize, hmDmaBufSize]; omega)
  have length₂ : buf₂.dmaBufLen.toNat = buf.dmaBufLen.toNat + 2 := by
    rw [length₂, UInt16.toNat_add, UInt16.toNat_one]
    omega
  obtain ⟨buf₃, third, length₃, valid₃⟩ := put_ok buf₂ ccr1 (by
    simp only [hmDmaBufUnitSize, hmDmaBufSize]; omega)
  have length₃ : buf₃.dmaBufLen.toNat = buf.dmaBufLen.toNat + 3 := by
    rw [length₃, UInt16.toNat_add, UInt16.toNat_one]
    omega
  refine ⟨buf₃, ?_, ?_, ?_, by rw [valid₃, valid₂, valid₁]⟩
  · simp only [putUnit, first, second, third, bind, Except.bind]
  · simp only [Whole, units, length₃, hmDmaBufUnitSize, hmDmaBufSize]
    omega
  · simp only [units, length₃, hmDmaBufUnitSize]
    omega

end DmaBufInfo

namespace StepInfo

def withRamp (psrd r : StepInfo) : StepInfo :=
  { psrd with
    runState := r.runState
    accelCount := r.accelCount
    rest := r.rest
    lastAccelDelay := r.lastAccelDelay
    stepDelay := r.stepDelay
    minStepDelay := r.minStepDelay }

def RampStep (psrd psrd' : StepInfo) : Prop := psrd' = psrd.withRamp psrd'

theorem RampStep.trans {a b c : StepInfo} (first : a.RampStep b) (second : b.RampStep c) :
    a.RampStep c := by
  calc c = b.withRamp c := second
    _ = (a.withRamp b).withRamp c := by rw [← first]
    _ = a.withRamp c := rfl

/-- Leaving the acceleration or the run for the deceleration leaves enough of it: once it is due,
`decel_val` counts at least the steps that are left. -/
def PlanCovers (psrd : StepInfo) : Prop :=
  psrd.decelStart ≤ psrd.stepsRequest →
    psrd.decelVal.toInt < 0 ∧
      (psrd.stepsRequest.toNat : Int) ≤ psrd.decelStart.toNat - psrd.decelVal.toInt

section RampStep
variable {psrd psrd' : StepInfo} (step : psrd.RampStep psrd')
include step

theorem RampStep.stepsRequest : psrd'.stepsRequest = psrd.stepsRequest :=
  (congrArg StepInfo.stepsRequest step).trans rfl

theorem RampStep.stepsTaken : psrd'.stepsTaken = psrd.stepsTaken :=
  (congrArg StepInfo.stepsTaken step).trans rfl

theorem RampStep.decelStart : psrd'.decelStart = psrd.decelStart :=
  (congrArg StepInfo.decelStart step).trans rfl

theorem RampStep.decelVal : psrd'.decelVal = psrd.decelVal :=
  (congrArg StepInfo.decelVal step).trans rfl

theorem RampStep.decelDue_iff (stepCount : UInt32) :
    psrd'.DecelDue stepCount ↔ psrd.DecelDue stepCount := by
  unfold DecelDue
  rw [step.decelStart]

theorem RampStep.planCovers_iff : psrd'.PlanCovers ↔ psrd.PlanCovers := by
  unfold PlanCovers
  rw [step.decelStart, step.decelVal, step.stepsRequest]

end RampStep

section NextDelay
variable (psrd : StepInfo) (stepCount : UInt32)

theorem countAccel_rampStep : psrd.RampStep psrd.countAccel := by
  unfold countAccel RampStep
  dsimp only
  split <;> rfl

theorem countAccel_runState : psrd.countAccel.runState = psrd.runState := by
  unfold countAccel
  dsimp only
  split <;> rfl

theorem divide_rampStep (div1 div2 : Int32) : psrd.RampStep (psrd.divide div1 div2).1 := rfl

theorem leaveAccel_rampStep (delay : UInt16) :
    psrd.RampStep (psrd.leaveAccel stepCount delay).1 := by
  unfold leaveAccel RampStep
  split
  · rfl
  · split <;> rfl

theorem accelDelay_rampStep : psrd.RampStep (psrd.accelDelay stepCount).1 :=
  (psrd.countAccel_rampStep.trans (divide_rampStep _ _ _)).trans (leaveAccel_rampStep _ _ _)

theorem runDelay_rampStep : psrd.RampStep (psrd.runDelay stepCount).1 := by
  unfold runDelay RampStep
  split <;> rfl

theorem leaveDecel_rampStep : psrd.RampStep psrd.leaveDecel := by
  unfold leaveDecel RampStep
  split <;> rfl

theorem decelDelay_rampStep : psrd.RampStep psrd.decelDelay.1 := by
  have counted : psrd.RampStep { psrd with accelCount := psrd.accelCount + 1 } := rfl
  exact (counted.trans (divide_rampStep _ _ _)).trans (leaveDecel_rampStep _)

theorem nextDelay_rampStep {next : StepInfo × UInt16}
    (action : psrd.nextDelay stepCount = .ok next) : psrd.RampStep next.1 := by
  unfold nextDelay at action
  split at action
  · obtain rfl := Except.ok.inj action
    exact psrd.accelDelay_rampStep stepCount
  · obtain rfl := Except.ok.inj action
    exact psrd.runDelay_rampStep stepCount
  · obtain rfl := Except.ok.inj action
    exact psrd.decelDelay_rampStep
  · cases action

end NextDelay

section Phase

/-- A phase that can produce the step after `stepCount`, and every later one. -/
def InPhase (psrd : StepInfo) (stepCount : UInt32) : Prop :=
  if psrd.stepsRequest = hmInvalidStep then
    (psrd.runState = .rsAccel ∨ psrd.runState = .rsRun) ∧ psrd.decelStart = hmInvalidStep
  else stepCount < psrd.stepsRequest →
    match psrd.runState with
    | .rsStop => False
    | .rsDecel => psrd.accelCount.toInt < 0 ∧
        (psrd.stepsRequest.toNat : Int) ≤ stepCount.toNat - psrd.accelCount.toInt
    | .rsAccel | .rsRun => psrd.PlanCovers

variable {psrd : StepInfo} {stepCount : UInt32}

theorem leaveAccel_due (due : psrd.DecelDue stepCount) (delay : UInt16) :
    (psrd.leaveAccel stepCount delay).1.runState = .rsDecel ∧
      (psrd.leaveAccel stepCount delay).1.accelCount = psrd.decelVal := by
  unfold leaveAccel
  rw [if_pos due]
  exact ⟨rfl, rfl⟩

theorem leaveAccel_early (early : ¬ psrd.DecelDue stepCount) (delay : UInt16) :
    (psrd.leaveAccel stepCount delay).1.runState = psrd.runState ∨
      (psrd.leaveAccel stepCount delay).1.runState = .rsRun := by
  unfold leaveAccel
  rw [if_neg early]
  split
  · exact .inr rfl
  · exact .inl rfl

theorem accelDelay_due (due : psrd.DecelDue stepCount) :
    (psrd.accelDelay stepCount).1.runState = .rsDecel ∧
      (psrd.accelDelay stepCount).1.accelCount = psrd.decelVal := by
  have counted := psrd.countAccel_rampStep.trans
    (divide_rampStep _ psrd.countAccel.accelDivs.1 psrd.countAccel.accelDivs.2)
  have left := leaveAccel_due ((counted.decelDue_iff stepCount).mpr due)
    (psrd.countAccel.divide psrd.countAccel.accelDivs.1 psrd.countAccel.accelDivs.2).2
  exact ⟨left.1, left.2.trans counted.decelVal⟩

theorem accelDelay_early (phase : psrd.runState = .rsAccel)
    (early : ¬ psrd.DecelDue stepCount) :
    (psrd.accelDelay stepCount).1.runState = .rsAccel ∨
      (psrd.accelDelay stepCount).1.runState = .rsRun := by
  have counted := psrd.countAccel_rampStep.trans
    (divide_rampStep _ psrd.countAccel.accelDivs.1 psrd.countAccel.accelDivs.2)
  have left := leaveAccel_early (fun due => early ((counted.decelDue_iff stepCount).mp due))
    (psrd.countAccel.divide psrd.countAccel.accelDivs.1 psrd.countAccel.accelDivs.2).2
  have same : (psrd.countAccel.divide psrd.countAccel.accelDivs.1
      psrd.countAccel.accelDivs.2).1.runState = .rsAccel := psrd.countAccel_runState.trans phase
  rw [same] at left
  exact left

theorem runDelay_due (due : psrd.DecelDue stepCount) :
    (psrd.runDelay stepCount).1.runState = .rsDecel ∧
      (psrd.runDelay stepCount).1.accelCount = psrd.decelVal := by
  unfold runDelay
  rw [if_pos due]
  exact ⟨rfl, rfl⟩

theorem runDelay_early (early : ¬ psrd.DecelDue stepCount) :
    (psrd.runDelay stepCount).1 = psrd := by
  unfold runDelay
  rw [if_neg early]

theorem decelDelay_runState (phase : psrd.runState = .rsDecel) :
    psrd.decelDelay.1.accelCount = psrd.accelCount + 1 ∧
      psrd.decelDelay.1.runState = if psrd.accelCount + 1 ≥ 0 then .rsStop else .rsDecel := by
  unfold decelDelay leaveDecel divide
  dsimp only
  split
  · exact ⟨rfl, rfl⟩
  · exact ⟨rfl, phase⟩

theorem toNat_countStep (more : ¬ psrd.Exhausted stepCount) :
    (psrd.countStep stepCount).toNat =
      if psrd.stepsRequest = hmInvalidStep then stepCount.toNat else stepCount.toNat + 1 := by
  unfold countStep
  by_cases endless : psrd.stepsRequest = hmInvalidStep
  · simp [endless]
  · have below : ¬ psrd.stepsRequest ≤ stepCount := fun le => more ⟨endless, le⟩
    rw [UInt32.le_iff_toNat_le] at below
    have bound := psrd.stepsRequest.toNat_lt
    simp only [ne_eq, endless, not_false_eq_true, if_true, if_false, UInt32.toNat_add,
      UInt32.toNat_one]
    omega

theorem runPhase_next {next : StepInfo × UInt16} (ramp : psrd.RampStep next.1)
    (plan : psrd.PlanCovers) (finite : psrd.stepsRequest ≠ hmInvalidStep)
    (result : (psrd.DecelDue stepCount ∧ next.1.runState = .rsDecel ∧
        next.1.accelCount = psrd.decelVal) ∨
      next.1.runState = .rsAccel ∨ next.1.runState = .rsRun) :
    next.1.InPhase stepCount := by
  unfold InPhase
  rw [if_neg (ramp.stepsRequest ▸ finite)]
  intro left
  rcases result with ⟨due, phase, count⟩ | phase | phase
  · rw [phase]
    have le : psrd.decelStart ≤ psrd.stepsRequest := by
      rw [ramp.stepsRequest, UInt32.lt_iff_toNat_lt] at left
      have start := UInt32.le_iff_toNat_le.mp due.2
      rw [UInt32.le_iff_toNat_le]
      omega
    have covers := plan le
    have start := UInt32.le_iff_toNat_le.mp due.2
    simp only [count, ramp.stepsRequest]
    omega
  · rw [phase]
    exact ramp.planCovers_iff.mpr plan
  · rw [phase]
    exact ramp.planCovers_iff.mpr plan

theorem nextDelay_inPhase (phase : psrd.InPhase stepCount) (more : ¬ psrd.Exhausted stepCount) :
    ∃ next, psrd.nextDelay (psrd.countStep stepCount) = .ok next ∧
      next.1.InPhase (psrd.countStep stepCount) := by
  have count := toNat_countStep more
  by_cases endless : psrd.stepsRequest = hmInvalidStep
  · -- an endless run has no deceleration planned, so it stays in its first two phases
    simp only [InPhase, endless, if_true] at phase
    have early : ¬ psrd.DecelDue (psrd.countStep stepCount) := fun due => due.1 phase.2
    rcases phase.1 with accel | run
    · refine ⟨_, by rw [nextDelay, accel], ?_⟩
      have ramp := psrd.accelDelay_rampStep (psrd.countStep stepCount)
      simp only [InPhase, ramp.stepsRequest, ramp.decelStart, endless, if_true]
      exact ⟨accelDelay_early accel early, phase.2⟩
    · refine ⟨_, by rw [nextDelay, run], ?_⟩
      rw [runDelay_early early]
      simp only [InPhase, endless, if_true]
      exact ⟨.inr run, phase.2⟩
  · have left : stepCount < psrd.stepsRequest := by
      have := fun le => more ⟨endless, le⟩
      exact UInt32.not_le.mp this
    simp only [InPhase, if_neg endless] at phase
    have phase := phase left
    simp only [if_neg endless] at count
    cases state : psrd.runState with
    | rsStop => simp only [state] at phase
    | rsAccel =>
        simp only [state] at phase
        refine ⟨_, by rw [nextDelay, state], ?_⟩
        refine runPhase_next (psrd.accelDelay_rampStep _) phase endless ?_
        by_cases due : psrd.DecelDue (psrd.countStep stepCount)
        · exact .inl ⟨due, accelDelay_due due⟩
        · exact .inr (accelDelay_early state due)
    | rsRun =>
        simp only [state] at phase
        refine ⟨_, by rw [nextDelay, state], ?_⟩
        refine runPhase_next (psrd.runDelay_rampStep _) phase endless ?_
        by_cases due : psrd.DecelDue (psrd.countStep stepCount)
        · exact .inl ⟨due, runDelay_due due⟩
        · exact .inr (.inr (by rw [runDelay_early due, state]))
    | rsDecel =>
        simp only [state] at phase
        refine ⟨_, by rw [nextDelay, state], ?_⟩
        have ramp := psrd.decelDelay_rampStep
        obtain ⟨counted, result⟩ := decelDelay_runState state
        have bumped : (psrd.accelCount + 1).toInt = psrd.accelCount.toInt + 1 := by
          have low := psrd.accelCount.le_toInt
          rw [Int32.toInt_add, Int32.toInt_one]
          exact Int.bmod_eq_of_le (by omega) (by omega)
        unfold InPhase
        rw [if_neg (ramp.stepsRequest ▸ endless)]
        intro still
        rw [ramp.stepsRequest, UInt32.lt_iff_toNat_lt, count] at still
        -- `accel_count` does not reach zero before the last step
        have running : ¬ psrd.accelCount + 1 ≥ 0 := by
          intro ended
          rw [ge_iff_le, Int32.le_iff_toInt_le, bumped, Int32.toInt_zero] at ended
          omega
        rw [result, if_neg running]
        have negative : (psrd.accelCount + 1).toInt < 0 := by
          rw [ge_iff_le, Int32.le_iff_toInt_le, Int32.toInt_zero] at running
          omega
        simp only [counted, ramp.stepsRequest]
        refine ⟨negative, ?_⟩
        rw [bumped]
        omega

end Phase

theorem promote_toInt (value : UInt16) : (promote value).toInt = value.toNat := by
  have small := value.toNat_lt
  have wide : (promote value).toBitVec.toNat = value.toNat := UInt16.toNat_toUInt32 value
  unfold Int32.toInt
  rw [BitVec.toInt_eq_toNat_of_lt (by omega), wide]

theorem badDelay_iff (delay : UInt16) : promote delay - 1 = 0 ∨ delay / 2 = 0 ↔ delay < 2 := by
  have one : promote delay - 1 = 0 ↔ delay.toNat = 1 := by
    have small := delay.toNat_lt
    rw [← Int32.toInt_inj, Int32.toInt_sub, promote_toInt, Int32.toInt_one, Int32.toInt_zero,
      Int.bmod_eq_of_le (by omega) (by omega)]
    omega
  have half : delay / 2 = 0 ↔ delay.toNat / 2 = 0 := by
    rw [← UInt16.toNat_inj, UInt16.toNat_div]
    rfl
  rw [one, half, UInt16.lt_iff_toNat_lt, show (2 : UInt16).toNat = 2 from rfl]
  omega

section FillLoop
variable {psrd : StepInfo} {buf : DmaBufInfo} {stepCount : UInt32}

theorem recordDelay_rampStep (delay : UInt16) : psrd.RampStep (psrd.recordDelay delay) := by
  unfold recordDelay RampStep
  dsimp only
  split <;> rfl

theorem recordDelay_runState (delay : UInt16) :
    (psrd.recordDelay delay).runState = psrd.runState := by
  unfold recordDelay
  dsimp only
  split <;> rfl

theorem recordDelay_accelCount (delay : UInt16) :
    (psrd.recordDelay delay).accelCount = psrd.accelCount := by
  unfold recordDelay
  dsimp only
  split <;> rfl

theorem emitDelay_spec (psrd : StepInfo) (delay : UInt16) (whole : buf.Whole) (room : buf.units < hmDmaBufSize) :
    (delay < 2 ∧ psrd.emitDelay buf delay = .error .badDelay) ∨
    (2 ≤ delay ∧ ∃ buf', psrd.emitDelay buf delay = .ok (psrd.recordDelay delay, buf') ∧
      buf'.Whole ∧ buf'.units = buf.units + 1 ∧ buf'.valid = buf.valid) := by
  obtain ⟨buf', put, whole', units', valid'⟩ :=
    buf.putUnit_ok (delay - 1) 0 (delay / 2) whole room
  have guard := badDelay_iff delay
  by_cases short : delay < 2
  · refine .inl ⟨short, ?_⟩
    simp only [emitDelay, put, bind, Except.bind, if_pos (guard.mpr short)]
  · refine .inr ⟨UInt16.not_lt.mp short, buf', ?_, whole', units', valid'⟩
    simp only [emitDelay, put, bind, Except.bind, if_neg (fun h => short (guard.mp h))]

theorem emitDelay_ok {delay : UInt16} {result : StepInfo × DmaBufInfo}
    (emit : psrd.emitDelay buf delay = .ok result) :
    2 ≤ delay ∧ ∃ buf', buf.putUnit (delay - 1) 0 (delay / 2) = .ok buf' ∧
      result = (psrd.recordDelay delay, buf') := by
  unfold emitDelay at emit
  obtain ⟨buf', put, emit⟩ := Except.ok_of_bind emit
  split at emit
  · cases emit
  · rename_i long
    exact ⟨UInt16.not_lt.mp (mt (badDelay_iff delay).mpr long), buf', put,
      (Except.ok.inj emit).symm⟩

theorem emitDelay_whole {delay : UInt16} {result : StepInfo × DmaBufInfo} (whole : buf.Whole)
    (room : buf.units < hmDmaBufSize) (emit : psrd.emitDelay buf delay = .ok result) :
    result.2.Whole ∧ result.2.units = buf.units + 1 ∧ result.2.valid = buf.valid := by
  obtain ⟨-, buf', put, rfl⟩ := emitDelay_ok emit
  obtain ⟨buf'', put', spec⟩ := buf.putUnit_ok (delay - 1) 0 (delay / 2) whole room
  obtain rfl := Except.ok.inj (put.symm.trans put')
  exact spec

theorem fillLoop_pass {n : Nat} {result : StepInfo × DmaBufInfo × UInt32}
    (more : ¬ psrd.Exhausted stepCount)
    (action : fillLoop (n + 1) psrd buf stepCount = .ok result) :
    ∃ next buf', psrd.nextDelay (psrd.countStep stepCount) = .ok next ∧
      next.1.emitDelay buf next.2 = .ok (next.1.recordDelay next.2, buf') ∧
      fillLoop n (next.1.recordDelay next.2) buf' (psrd.countStep stepCount) = .ok result := by
  unfold fillLoop at action
  rw [if_neg more] at action
  obtain ⟨next, step, action⟩ := Except.ok_of_bind action
  obtain ⟨emitted, emit, action⟩ := Except.ok_of_bind action
  obtain ⟨-, buf', -, rfl⟩ := emitDelay_ok emit
  exact ⟨next, buf', step, emit, action⟩

theorem fillLoop_ended {n : Nat} (ended : psrd.Exhausted stepCount) :
    fillLoop n psrd buf stepCount = .ok (psrd, buf, stepCount) := by
  cases n with
  | zero => rfl
  | succ n => exact if_pos ended

theorem InPhase.recordDelay (phase : psrd.InPhase stepCount) (delay : UInt16) :
    (psrd.recordDelay delay).InPhase stepCount := by
  have ramp := psrd.recordDelay_rampStep delay
  have plan := ramp.planCovers_iff
  unfold InPhase at phase ⊢
  rw [ramp.stepsRequest, ramp.decelStart, recordDelay_runState, recordDelay_accelCount]
  simpa only [plan] using phase

def produced (psrd : StepInfo) (n : Nat) (stepCount : UInt32) : Nat :=
  if psrd.stepsRequest = hmInvalidStep then n
  else min n (psrd.stepsRequest.toNat - stepCount.toNat)

structure Filled (n : Nat) (psrd : StepInfo) (buf : DmaBufInfo) (stepCount : UInt32)
    (psrd' : StepInfo) (buf' : DmaBufInfo) (stepCount' : UInt32) : Prop where
  ramp : psrd.RampStep psrd'
  whole : buf'.Whole
  units : buf'.units = buf.units + psrd.produced n stepCount
  valid : buf'.valid = buf.valid
  count : stepCount'.toNat = if psrd.stepsRequest = hmInvalidStep then stepCount.toNat
    else stepCount.toNat + psrd.produced n stepCount
  phase : psrd.InPhase stepCount → psrd'.InPhase stepCount'

theorem produced_exhausted (ended : psrd.Exhausted stepCount) (n : Nat) :
    psrd.produced n stepCount = 0 := by
  have le := UInt32.le_iff_toNat_le.mp ended.2
  rw [produced, if_neg ended.1]
  omega

theorem produced_more {psrd' : StepInfo} (more : ¬ psrd.Exhausted stepCount)
    (same : psrd'.stepsRequest = psrd.stepsRequest) (n : Nat) :
    psrd.produced (n + 1) stepCount = psrd'.produced n (psrd.countStep stepCount) + 1 := by
  have count := toNat_countStep more
  unfold produced
  rw [same]
  by_cases endless : psrd.stepsRequest = hmInvalidStep
  · rw [if_pos endless, if_pos endless]
  · rw [if_neg endless] at count
    have left : stepCount < psrd.stepsRequest := UInt32.not_le.mp fun le => more ⟨endless, le⟩
    rw [UInt32.lt_iff_toNat_lt] at left
    rw [if_neg endless, if_neg endless]
    omega

theorem fillLoop_filled (n : Nat) (whole : buf.Whole) (room : buf.units + n ≤ hmDmaBufSize)
    {result : StepInfo × DmaBufInfo × UInt32}
    (action : fillLoop n psrd buf stepCount = .ok result) :
    Filled n psrd buf stepCount result.1 result.2.1 result.2.2 := by
  induction n generalizing psrd buf stepCount with
  | zero =>
      obtain rfl := Except.ok.inj action
      have none_ : psrd.produced 0 stepCount = 0 := by
        unfold produced
        split <;> simp
      exact ⟨rfl, whole, by rw [none_]; rfl, rfl, by rw [none_]; split <;> rfl, id⟩
  | succ n ih =>
      by_cases ended : psrd.Exhausted stepCount
      · obtain rfl := Except.ok.inj ((fillLoop_ended ended).symm.trans action)
        have none_ := produced_exhausted ended (n + 1)
        exact ⟨rfl, whole, by rw [none_]; rfl, rfl, by rw [none_]; split <;> rfl, id⟩
      · obtain ⟨next, buf', step, emit, action⟩ := fillLoop_pass ended action
        obtain ⟨whole', units, valid⟩ := emitDelay_whole whole (by omega) emit
        have filled := ih whole' (by rw [units]; omega) action
        have ramp := (psrd.nextDelay_rampStep _ step).trans (recordDelay_rampStep next.2)
        have more := produced_more ended ramp.stepsRequest n
        have counted := toNat_countStep ended
        refine ⟨ramp.trans filled.ramp, filled.whole, ?_, ?_, ?_, ?_⟩
        · rw [filled.units, units, more]
          omega
        · rw [filled.valid, valid]
        · rw [filled.count, ramp.stepsRequest, counted, more]
          split <;> omega
        · intro phase
          obtain ⟨next', step', phase'⟩ := nextDelay_inPhase phase ended
          obtain rfl := Except.ok.inj (step.symm.trans step')
          exact filled.phase (phase'.recordDelay next.2)

theorem fillLoop_error (n : Nat) (whole : buf.Whole) (room : buf.units + n ≤ hmDmaBufSize)
    {failure : Halt} (action : fillLoop n psrd buf stepCount = .error failure) :
    failure ≠ .outOfBounds ∧ (psrd.InPhase stepCount → failure = .badDelay) := by
  induction n generalizing psrd buf stepCount with
  | zero => cases action
  | succ n ih =>
      by_cases ended : psrd.Exhausted stepCount
      · cases (fillLoop_ended ended).symm.trans action
      · unfold fillLoop at action
        rw [if_neg ended] at action
        obtain stuck | ⟨next, step, action⟩ := Except.error_of_bind action
        · refine ⟨?_, fun phase => ?_⟩
          · rintro rfl
            unfold nextDelay at stuck
            split at stuck <;> cases stuck
          · obtain ⟨next', step', -⟩ := nextDelay_inPhase phase ended
            cases stuck.symm.trans step'
        · rcases next.1.emitDelay_spec next.2 whole (by omega) with
            ⟨-, bad⟩ | ⟨-, buf', emit, whole', units, valid⟩
          · dsimp only at action
            rw [bad] at action
            obtain rfl := Except.error.inj action
            exact ⟨by decide, fun _ => rfl⟩
          · dsimp only at action
            rw [emit] at action
            have failed := ih whole' (by omega) action
            refine ⟨failed.1, fun phase => ?_⟩
            obtain ⟨next', step', phase'⟩ := nextDelay_inPhase phase ended
            obtain rfl := Except.ok.inj (step.symm.trans step')
            exact failed.2 (phase'.recordDelay next.2)

end FillLoop

section HmDmaUpdate
variable {psrd psrd' : StepInfo} {i : Fin hmDmaBufBlockSz}

def refill (psrd : StepInfo) (i : Fin hmDmaBufBlockSz) : Nat :=
  psrd.produced (hmDmaBufSize - psrd.dmaBuf[i].units) psrd.stepsTaken

structure Updated (psrd : StepInfo) (i : Fin hmDmaBufBlockSz) (psrd' : StepInfo) : Prop where
  frame : ∃ (r : StepInfo) (taken : UInt32) (buf : DmaBufInfo),
    psrd' = { psrd.withRamp r with stepsTaken := taken }.setBuf i buf
  whole : psrd'.dmaBuf[i].Whole
  valid : psrd'.dmaBuf[i].valid = 1
  units : psrd'.dmaBuf[i].units = psrd.dmaBuf[i].units + psrd.refill i
  taken : psrd'.stepsTaken.toNat = if psrd.stepsRequest = hmInvalidStep then psrd.stepsTaken.toNat
    else psrd.stepsTaken.toNat + psrd.refill i
  phase : psrd.InPhase psrd.stepsTaken → psrd'.InPhase psrd'.stepsTaken

theorem fill_room (whole : psrd.dmaBuf[i].Whole) :
    psrd.dmaBuf[i].units + psrd.dmaBuf[i].passes ≤ hmDmaBufSize := by
  rw [DmaBufInfo.passes_of_whole whole]
  have := whole.2
  omega

theorem hmDmaUpdate_loop (action : psrd.hmDmaUpdate i = .ok psrd') :
    ∃ r buf stepCount,
      fillLoop psrd.dmaBuf[i].passes psrd psrd.dmaBuf[i] psrd.stepsTaken =
        .ok (r, buf, stepCount) ∧
      psrd' = (if r.stepsRequest ≠ hmInvalidStep then { r with stepsTaken := stepCount }
        else r).setBuf i { buf with valid := 1 } := by
  obtain ⟨⟨r, buf, stepCount⟩, loop, rfl⟩ := Except.ok_of_map action
  exact ⟨r, buf, stepCount, loop, rfl⟩

theorem hmDmaUpdate_ok (whole : psrd.dmaBuf[i].Whole) (action : psrd.hmDmaUpdate i = .ok psrd') :
    Updated psrd i psrd' := by
  obtain ⟨r, buf, stepCount, loop, set⟩ := hmDmaUpdate_loop action
  obtain ⟨ramp, whole', units, -, count, phase⟩ := fillLoop_filled _ whole (fill_room whole) loop
  dsimp only at ramp whole' units count phase
  rw [DmaBufInfo.passes_of_whole whole] at units count
  have same : psrd' = { psrd.withRamp r with stepsTaken := stepCount }.setBuf i
      { buf with valid := 1 } := by
    rw [set]
    congr 1
    split
    · exact congrArg (fun r : StepInfo => { r with stepsTaken := stepCount }) ramp
    · rename_i endless
      rw [ramp.stepsRequest, ne_eq, Decidable.not_not] at endless
      rw [if_pos endless, UInt32.toNat_inj] at count
      rw [count]
      exact ramp
  refine ⟨⟨r, stepCount, _, same⟩, ?_, ?_, ?_, ?_, ?_⟩
  · rw [same, setBuf_get]
    exact whole'
  · rw [same, setBuf_get]
  · rw [same, setBuf_get]
    exact units
  · rw [same]
    exact count
  · intro start
    have done := phase start
    rw [ramp] at done
    rw [same]
    exact done

theorem hmDmaUpdate_error (whole : psrd.dmaBuf[i].Whole) {failure : Halt}
    (action : psrd.hmDmaUpdate i = .error failure) :
    failure ≠ .outOfBounds ∧ (psrd.InPhase psrd.stepsTaken → failure = .badDelay) := by
  obtain loop | ⟨_, -, done⟩ := Except.error_of_bind action
  · exact fillLoop_error _ whole (fill_room whole) loop
  · cases done

end HmDmaUpdate

end StepInfo

end MotionBoard
