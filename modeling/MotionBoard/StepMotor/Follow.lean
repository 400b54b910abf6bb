import MotionBoard.Lib.Words
import MotionBoard.StepMotor.Exact
import MotionBoard.StepMotor.Motion

namespace MotionBoard

def plannedStep (k : UInt32) : Option Nat := if k = hmInvalidStep then none else some k.toNat

theorem mem_plannedStep {k : UInt32} {n : Nat} :
    n ∈ plannedStep k ↔ k ≠ hmInvalidStep ∧ k.toNat = n := by
  unfold plannedStep
  split <;> simp [*]

namespace StepInfo

def ramp (psrd : StepInfo) (stepCount : UInt32) : Ramp where
  method := psrd.method
  n2 := psrd.n2.toNat
  minDelay := psrd.minDelay.toNat
  decelVal := psrd.decelVal.toInt
  request := plannedStep psrd.stepsRequest
  decelStart := plannedStep psrd.decelStart
  phase := psrd.runState
  count := psrd.accelCount.toInt
  pace := ⟨psrd.stepDelay.toNat, psrd.rest.toInt32.toInt⟩
  lastAccelDelay := psrd.lastAccelDelay.toNat
  taken := stepCount.toNat

section Plan
variable {psrd : StepInfo} {stepCount : UInt32}

theorem ramp_over_iff : (psrd.ramp stepCount).Over ↔ psrd.Exhausted stepCount := by
  have request : (psrd.ramp stepCount).request = plannedStep psrd.stepsRequest := rfl
  unfold Ramp.Over Exhausted
  simp only [request, mem_plannedStep, ge_iff_le, UInt32.le_iff_toNat_le]
  exact ⟨fun ⟨k, ⟨finite, same⟩, le⟩ => ⟨finite, same ▸ le⟩,
    fun ⟨finite, le⟩ => ⟨_, ⟨finite, rfl⟩, le⟩⟩

theorem ramp_due_iff : (psrd.ramp stepCount).Due ↔ psrd.DecelDue stepCount := by
  have start : (psrd.ramp stepCount).decelStart = plannedStep psrd.decelStart := rfl
  unfold Ramp.Due DecelDue
  simp only [start, mem_plannedStep, ge_iff_le, UInt32.le_iff_toNat_le]
  exact ⟨fun ⟨k, ⟨finite, same⟩, le⟩ => ⟨finite, same ▸ le⟩,
    fun ⟨finite, le⟩ => ⟨_, ⟨finite, rfl⟩, le⟩⟩

theorem ramp_slows (slows : (psrd.ramp stepCount).Slows) : psrd.Slows := by
  obtain ⟨k, start, within⟩ := slows
  obtain ⟨finite, rfl⟩ := mem_plannedStep.mp start
  refine ⟨finite, UInt32.le_iff_toNat_le.mpr ?_⟩
  by_cases endless : psrd.stepsRequest = hmInvalidStep
  · have small := psrd.decelStart.toNat_lt
    rw [endless, show hmInvalidStep.toNat = 2 ^ 32 - 1 from rfl]
    omega
  · exact within _ (mem_plannedStep.mpr ⟨endless, rfl⟩)

theorem ramp_countStep (more : ¬ psrd.Exhausted stepCount) :
    (psrd.ramp stepCount).countStep = psrd.ramp (psrd.countStep stepCount) := by
  have count := toNat_countStep more
  have request : (psrd.ramp stepCount).request = none ↔ psrd.stepsRequest = hmInvalidStep := by
    change plannedStep psrd.stepsRequest = none ↔ _
    unfold plannedStep
    split <;> simp [*]
  unfold Ramp.countStep ramp at *
  simp only [request, count]

theorem recordDelay_ramp (delay : UInt16) : (psrd.recordDelay delay).ramp stepCount =
    { psrd.ramp stepCount with pace.delay := delay.toNat } := by
  unfold recordDelay
  dsimp only
  split <;> rfl

end Plan

section Words
variable (psrd : StepInfo) (stepCount : UInt32)

theorem toNat_toUInt32 {x : Int32} (nonneg : 0 ≤ x.toInt) : (x.toUInt32.toNat : Int) = x.toInt := by
  have sign := toInt_cases x
  have word := x.toUInt32.toNat_lt
  omega

theorem toInt_succ {x : Int32} (fits : x.toInt + 1 < 2 ^ 31) : (x + 1).toInt = x.toInt + 1 := by
  have low := x.le_toInt
  rw [Int32.toInt_add, Int32.toInt_one]
  exact Int.bmod_eq_of_le (by omega) (by omega)

theorem toInt_twiceDelay : psrd.twiceDelay.toInt32.toInt = 2 * (psrd.stepDelay.toNat : Int) := by
  have small := psrd.stepDelay.toNat_lt
  unfold twiceDelay
  rw [Int32.toInt32_toUInt32, Int32.toInt_mul, promote_toInt, show (2 : Int32).toInt = 2 from rfl]
  exact Words.bmod_of_fits (by omega) (by omega)

theorem toInt_countDiv :
    psrd.countDiv.toInt = (4 * psrd.accelCount.toInt + 1).bmod (2 ^ 32) := by
  unfold countDiv
  rw [Int32.toInt_add, Int32.toInt_mul, Int.bmod_add_bmod]
  rfl

theorem toInt_dividend {weight : UInt32} {w : Int}
    (word : weight.toInt32.toInt = w.bmod (2 ^ 32))
    (low : 0 ≤ (psrd.ramp stepCount).pace.dividend w)
    (high : (psrd.ramp stepCount).pace.dividend w < 2 ^ 31) :
    (psrd.twiceDelay * weight + psrd.rest).toInt32.toInt =
      (psrd.ramp stepCount).pace.dividend w := by
  have twice : psrd.twiceDelay.toInt32.toInt = (2 * (psrd.stepDelay.toNat : Int)).bmod (2 ^ 32) := by
    rw [← psrd.toInt_twiceDelay]
    exact Words.toInt_bmod _
  rw [Words.toInt_add (Words.toInt_mul twice word) (Words.toInt_bmod _)]
  exact Words.bmod_of_fits (Int.le_trans (by decide) low) high

theorem toInt_divisor {scale : UInt32}
    (low : -2 ^ 31 ≤ (4 * psrd.accelCount.toInt + 1) * scale.toNat)
    (high : (4 * psrd.accelCount.toInt + 1) * scale.toNat < 2 ^ 31) :
    (psrd.countDiv.toUInt32 * scale).toInt32.toInt =
      (4 * psrd.accelCount.toInt + 1) * scale.toNat := by
  have count : psrd.countDiv.toUInt32.toInt32.toInt =
      (4 * psrd.accelCount.toInt + 1).bmod (2 ^ 32) := by
    rw [Int32.toInt32_toUInt32, psrd.toInt_countDiv]
  rw [Words.toInt_mul count (Words.toInt_toInt32 scale)]
  exact Words.bmod_of_fits low high

theorem divide_ramp {div1 div2 : Int32} {slope : Int × Int}
    (dividend : div1.toInt = (psrd.ramp stepCount).pace.dividend slope.1)
    (divisor : div2.toInt = (4 * psrd.accelCount.toInt + 1) * slope.2) :
    (psrd.divide div1 div2).1.ramp stepCount =
        { psrd.ramp stepCount with
          pace.rest := ((psrd.ramp stepCount).change slope).rest } ∧
      ((psrd.divide div1 div2).2.toNat : Int) =
        ((psrd.ramp stepCount).change slope).delay % 2 ^ 16 := by
  unfold Ramp.change Pace.change
  constructor
  · have rest : (div1 % div2).toUInt32.toInt32.toInt =
        ((psrd.ramp stepCount).pace.dividend slope.1).tmod
          ((4 * psrd.accelCount.toInt + 1) * slope.2) := by
      rw [Int32.toInt32_toUInt32, Int32.toInt_mod, dividend, divisor]
    unfold divide ramp at *
    simp only [rest]
  · unfold divide
    dsimp only
    rw [Words.toNat_toUInt16, Int32.toInt_sub, Int32.toInt_div, promote_toInt, dividend, divisor,
      Int.sub_bmod_bmod]
    exact Words.bmod_emod _

theorem flat_divs (low : 0 ≤ (psrd.ramp stepCount).pace.dividend 1)
    (high : (psrd.ramp stepCount).pace.dividend 1 < 2 ^ 31)
    (least : -2 ^ 31 ≤ (4 * psrd.accelCount.toInt + 1) * 1)
    (most : (4 * psrd.accelCount.toInt + 1) * 1 < 2 ^ 31) :
    (psrd.twiceDelay + psrd.rest).toInt32.toInt = (psrd.ramp stepCount).pace.dividend 1 ∧
      psrd.countDiv.toInt = (4 * psrd.accelCount.toInt + 1) * 1 := by
  have dividend := psrd.toInt_dividend stepCount (show (1 : UInt32).toInt32.toInt = _ from rfl) low high
  rw [UInt32.mul_one] at dividend
  rw [Int.mul_one] at least most ⊢
  exact ⟨dividend, psrd.toInt_countDiv.trans (Words.bmod_of_fits least most)⟩

theorem accelDivs_toInt (climbing : 0 ≤ psrd.accelCount.toInt)
    (low : 0 ≤ (psrd.ramp stepCount).pace.dividend (psrd.ramp stepCount).climb.1)
    (high : (psrd.ramp stepCount).pace.dividend (psrd.ramp stepCount).climb.1 < 2 ^ 31)
    (least : -2 ^ 31 ≤ (4 * psrd.accelCount.toInt + 1) * (psrd.ramp stepCount).climb.2)
    (most : (4 * psrd.accelCount.toInt + 1) * (psrd.ramp stepCount).climb.2 < 2 ^ 31) :
    psrd.accelDivs.1.toInt = (psrd.ramp stepCount).pace.dividend (psrd.ramp stepCount).climb.1 ∧
      psrd.accelDivs.2.toInt =
        (4 * psrd.accelCount.toInt + 1) * (psrd.ramp stepCount).climb.2 := by
  have count := toNat_toUInt32 climbing
  have curved : (psrd.method = .sCurve ∧ psrd.n2 > psrd.accelCount.toUInt32) ↔
      (psrd.ramp stepCount).method = .sCurve ∧
        (psrd.ramp stepCount).count < (psrd.ramp stepCount).n2 := by
    refine and_congr_right fun _ => ?_
    change _ ↔ psrd.accelCount.toInt < (psrd.n2.toNat : Int)
    rw [gt_iff_lt, UInt32.lt_iff_toNat_lt]
    omega
  unfold accelDivs
  dsimp only
  by_cases curve : psrd.method = .sCurve ∧ psrd.n2 > psrd.accelCount.toUInt32
  · have climb : (psrd.ramp stepCount).climb =
        (psrd.n2.toNat - psrd.accelCount.toInt, (psrd.n2.toNat : Int)) :=
      if_pos (curved.mp curve)
    rw [climb] at low high least most ⊢
    rw [if_pos curve]
    have weight : (psrd.n2 - psrd.accelCount.toUInt32).toInt32.toInt =
        ((psrd.n2.toNat : Int) - psrd.accelCount.toInt).bmod (2 ^ 32) := by
      refine Words.toInt_sub (Words.toInt_toInt32 _) ?_
      rw [Int32.toInt32_toUInt32]
      exact Words.toInt_bmod _
    exact ⟨psrd.toInt_dividend stepCount weight low high, psrd.toInt_divisor least most⟩
  · have climb : (psrd.ramp stepCount).climb = (1, 1) := if_neg fun c => curve (curved.mpr c)
    rw [climb] at low high least most ⊢
    rw [if_neg curve]
    exact psrd.flat_divs stepCount low high least most

theorem decelDivs_toInt
    (low : 0 ≤ (psrd.ramp stepCount).pace.dividend (psrd.ramp stepCount).fall.1)
    (high : (psrd.ramp stepCount).pace.dividend (psrd.ramp stepCount).fall.1 < 2 ^ 31)
    (least : -2 ^ 31 ≤ (4 * psrd.accelCount.toInt + 1) * (psrd.ramp stepCount).fall.2)
    (most : (4 * psrd.accelCount.toInt + 1) * (psrd.ramp stepCount).fall.2 < 2 ^ 31) :
    psrd.decelDivs.1.toInt = (psrd.ramp stepCount).pace.dividend (psrd.ramp stepCount).fall.1 ∧
      psrd.decelDivs.2.toInt =
        (4 * psrd.accelCount.toInt + 1) * (psrd.ramp stepCount).fall.2 := by
  unfold decelDivs
  by_cases curve : psrd.method = .sCurve
  · have fall : (psrd.ramp stepCount).fall =
        (psrd.n2.toNat + psrd.accelCount.toInt, (psrd.n2.toNat : Int)) := if_pos curve
    rw [fall] at low high least most ⊢
    rw [if_pos curve]
    have weight : (psrd.n2 + psrd.accelCount.toUInt32).toInt32.toInt =
        ((psrd.n2.toNat : Int) + psrd.accelCount.toInt).bmod (2 ^ 32) := by
      refine Words.toInt_add (Words.toInt_toInt32 _) ?_
      rw [Int32.toInt32_toUInt32]
      exact Words.toInt_bmod _
    exact ⟨psrd.toInt_dividend stepCount weight low high, psrd.toInt_divisor least most⟩
  · have fall : (psrd.ramp stepCount).fall = (1, 1) := if_neg curve
    rw [fall] at low high least most ⊢
    rw [if_neg curve]
    exact psrd.flat_divs stepCount low high least most

end Words

section Follow
variable (psrd : StepInfo) (stepCount : UInt32)

theorem countAccel_ramp (climbing : 0 ≤ psrd.accelCount.toInt)
    (fits : psrd.accelCount.toInt + 1 < 2 ^ 31) :
    psrd.countAccel.ramp stepCount = (psrd.ramp stepCount).countAccel := by
  have succ := toInt_succ fits
  have count : ((psrd.accelCount + 1).toUInt32.toNat : Int) = psrd.accelCount.toInt + 1 :=
    (toNat_toUInt32 (by omega)).trans succ
  have bend : psrd.n2 = (psrd.accelCount + 1).toUInt32 ∨
      psrd.n2 + 1 = (psrd.accelCount + 1).toUInt32 ↔
      (psrd.n2.toNat : Int) = psrd.accelCount.toInt + 1 ∨
        (psrd.n2.toNat : Int) + 1 = psrd.accelCount.toInt + 1 := by
    have word := psrd.n2.toNat_lt
    rw [← UInt32.toNat_inj, ← UInt32.toNat_inj, UInt32.toNat_add, UInt32.toNat_one]
    omega
  unfold countAccel Ramp.countAccel
  dsimp only
  simp only [bend]
  change ramp (if psrd.method = .sCurve ∧ _ then _ else _) stepCount =
    (if psrd.method = .sCurve ∧ _ then _ else _)
  unfold ramp
  split
  · simp [succ]
  · simp [succ]

theorem leaveAccel_ramp (delay : UInt16) :
    ((psrd.leaveAccel stepCount delay).1.recordDelay (psrd.leaveAccel stepCount delay).2).ramp
        stepCount =
      ({ psrd.ramp stepCount with pace.delay := delay.toNat }).leaveAccel := by
  have due : ({ psrd.ramp stepCount with pace.delay := (delay.toNat : Int) } : Ramp).Due ↔
      psrd.DecelDue stepCount := ramp_due_iff
  have fast : (delay.toNat : Int) ≤ (psrd.ramp stepCount).minDelay ↔ delay ≤ psrd.minDelay := by
    change (delay.toNat : Int) ≤ psrd.minDelay.toNat ↔ _
    rw [UInt16.le_iff_toNat_le]
    omega
  rw [recordDelay_ramp]
  unfold leaveAccel Ramp.leaveAccel
  simp only [due, fast]
  split
  · rfl
  · split <;> rfl

theorem accelDelay_ramp (phase : psrd.runState = .rsAccel)
    (carried : (psrd.ramp stepCount).Carried)
    (fits : (psrd.ramp stepCount).countAccel.AccelFits) :
    ((psrd.accelDelay stepCount).1.recordDelay (psrd.accelDelay stepCount).2).ramp stepCount =
      (psrd.ramp stepCount).accel := by
  obtain ⟨high, most⟩ := fits
  obtain ⟨first, scale, low, long, short⟩ :=
    carried.climb (Int.natCast_nonneg _) (Int.natCast_nonneg _) phase
  obtain ⟨climbing, -⟩ := carried.climbing phase
  have counted : (psrd.ramp stepCount).countAccel.count = psrd.accelCount.toInt + 1 := by
    unfold Ramp.countAccel
    dsimp only
    split <;> rfl
  have small : psrd.accelCount.toInt + 1 < 2 ^ 31 := by
    rw [counted] at most first
    nlinarith
  have follows := psrd.countAccel_ramp stepCount climbing small
  unfold Ramp.accel accelDelay
  rw [← follows] at high most first scale low long short ⊢
  have least : -2 ^ 31 ≤ (4 * psrd.countAccel.accelCount.toInt + 1) *
      (psrd.countAccel.ramp stepCount).climb.2 := by
    refine Int.le_trans (by decide) (Int.mul_nonneg ?_ scale.le)
    have first : 1 ≤ psrd.countAccel.accelCount.toInt := first
    omega
  obtain ⟨div1, div2⟩ := psrd.countAccel.accelDivs_toInt stepCount (Int.le_trans (by decide) first)
    low high least most
  obtain ⟨divided, delay⟩ := psrd.countAccel.divide_ramp stepCount div1 div2
  have word := psrd.stepDelay.toNat_lt
  have exact_ : ((psrd.countAccel.divide psrd.countAccel.accelDivs.1
      psrd.countAccel.accelDivs.2).2.toNat : Int) =
        ((psrd.countAccel.ramp stepCount).change (psrd.countAccel.ramp stepCount).climb).delay := by
    have short : _ ≤ (psrd.stepDelay.toNat : Int) := short
    rw [delay]
    exact Int.emod_eq_of_lt (by omega) (by omega)
  dsimp only
  rw [leaveAccel_ramp, divided, exact_]

theorem runDelay_ramp :
    ((psrd.runDelay stepCount).1.recordDelay (psrd.runDelay stepCount).2).ramp stepCount =
      (psrd.ramp stepCount).run := by
  have due : (psrd.ramp stepCount).Due ↔ psrd.DecelDue stepCount := ramp_due_iff
  rw [recordDelay_ramp]
  unfold runDelay Ramp.run
  simp only [due]
  split <;> rfl

theorem leaveDecel_ramp (delay : UInt16) :
    (psrd.leaveDecel.recordDelay delay).ramp stepCount =
      { psrd.ramp stepCount with
        pace.delay := delay.toNat
        phase := if psrd.accelCount.toInt ≥ 0 then .rsStop else psrd.runState } := by
  have ended : psrd.accelCount ≥ 0 ↔ psrd.accelCount.toInt ≥ 0 := by
    rw [ge_iff_le, ge_iff_le, Int32.le_iff_toInt_le, Int32.toInt_zero]
  rw [recordDelay_ramp]
  unfold leaveDecel
  simp only [ended]
  split <;> rfl

theorem slow_ramp (rest : 0 ≤ (psrd.ramp stepCount).pace.rest)
    (fits : (psrd.ramp stepCount).DecelWordsFit) :
    let divided := psrd.divide psrd.decelDivs.1 psrd.decelDivs.2
    (divided.1.leaveDecel.recordDelay divided.2).ramp stepCount = (psrd.ramp stepCount).slow := by
  obtain ⟨pull, high, least, most⟩ := fits
  have low := (psrd.ramp stepCount).pace.dividend_nonneg (Int.natCast_nonneg _) rest pull
  obtain ⟨div1, div2⟩ := psrd.decelDivs_toInt stepCount low high least most
  obtain ⟨divided, cut⟩ := psrd.divide_ramp stepCount div1 div2
  dsimp only
  rw [leaveDecel_ramp, divided, cut]
  rfl

theorem decelDelay_ramp (slowing : psrd.accelCount.toInt < 0)
    (carried : (psrd.ramp stepCount).Carried)
    (fits : (psrd.ramp stepCount).countDecel.DecelWordsFit) :
    (psrd.decelDelay.1.recordDelay psrd.decelDelay.2).ramp stepCount =
      (psrd.ramp stepCount).decel := by
  have succ : (psrd.accelCount + 1).toInt = psrd.accelCount.toInt + 1 := toInt_succ (by omega)
  have counted : { psrd with accelCount := psrd.accelCount + 1 }.ramp stepCount =
      (psrd.ramp stepCount).countDecel := by
    unfold ramp Ramp.countDecel
    dsimp only
    rw [succ]
  unfold Ramp.decel decelDelay
  rw [← counted] at fits ⊢
  exact slow_ramp _ _ carried.rest fits

variable {psrd stepCount}

theorem InPhase.slowing (phase : psrd.InPhase stepCount) (more : ¬ psrd.Exhausted stepCount)
    (state : psrd.runState = .rsDecel) : psrd.accelCount.toInt < 0 := by
  unfold InPhase at phase
  simp only [state, reduceCtorEq, or_self, false_and] at phase
  split at phase
  · exact phase.elim
  · rename_i finite
    exact (phase (UInt32.not_le.mp fun le => more ⟨finite, le⟩)).1

/-- A step of the generator is a step of the ramp, as far as its words fit. -/
theorem nextDelay_ramp (phase : psrd.InPhase stepCount) (more : ¬ psrd.Exhausted stepCount)
    (carried : (psrd.ramp stepCount).Carried) (fits : (psrd.ramp stepCount).WordsFit)
    {next : StepInfo × UInt16} (step : psrd.nextDelay (psrd.countStep stepCount) = .ok next) :
    (next.1.recordDelay next.2).ramp (psrd.countStep stepCount) = (psrd.ramp stepCount).next := by
  have counted := ramp_countStep more
  have carried' : (psrd.ramp stepCount).countStep.Carried := ⟨carried.rest, carried.climbing⟩
  rw [counted] at carried'
  have phase_ : (psrd.ramp stepCount).phase = psrd.runState := rfl
  unfold Ramp.WordsFit at fits
  unfold Ramp.next
  unfold nextDelay at step
  rw [phase_] at fits ⊢
  cases state : psrd.runState with
  | rsAccel =>
      rw [state] at step fits
      obtain rfl := Except.ok.inj step
      have fits : (psrd.ramp stepCount).countStep.countAccel.AccelFits := by
        rw [Ramp.countAccel_countStep]
        exact fits
      rw [counted] at fits ⊢
      exact psrd.accelDelay_ramp _ state carried' fits
  | rsRun =>
      rw [state] at step
      obtain rfl := Except.ok.inj step
      rw [counted]
      exact psrd.runDelay_ramp _
  | rsDecel =>
      rw [state] at step fits
      obtain rfl := Except.ok.inj step
      have fits : (psrd.ramp stepCount).countStep.countDecel.DecelWordsFit := fits
      rw [counted] at fits ⊢
      exact psrd.decelDelay_ramp _ (phase.slowing more state) carried' fits
  | rsStop =>
      rw [state] at step
      cases step

theorem recordDelay_pace (delay : UInt16) :
    ((psrd.recordDelay delay).ramp stepCount).pace.delay = delay.toNat := by
  rw [recordDelay_ramp]

theorem delays_long (n : Nat) (phase : psrd.InPhase stepCount)
    (armed : (psrd.ramp stepCount).Armed) (fits : (psrd.ramp stepCount).Fits n) :
    ∀ delay ∈ delays n psrd stepCount, 2 ≤ delay := by
  induction n generalizing psrd stepCount with
  | zero => exact nofun
  | succ n ih =>
      by_cases ended : psrd.Exhausted stepCount
      · rw [delays_exhausted ended]
        exact nofun
      · obtain ⟨step, rest⟩ := fits.resolve_left (mt ramp_over_iff.mp ended)
        obtain ⟨next, action, phase'⟩ := nextDelay_inPhase phase ended
        have words := step.words armed (phase.slowing ended)
        have follows := nextDelay_ramp phase ended armed.carried words action
        have armed' := armed.next (mt ramp_over_iff.mp ended) step (phase.slowing ended)
        rw [← follows] at armed' rest
        have long : 2 ≤ next.2 := by
          have long := armed'.delay
          rw [recordDelay_pace] at long
          rw [UInt16.le_iff_toNat_le]
          exact Int.ofNat_le.mp long
        rw [delays_succ ended action, List.forall_mem_cons]
        exact ⟨long, ih (phase'.recordDelay next.2) armed' rest⟩

end Follow

end StepInfo

end MotionBoard
