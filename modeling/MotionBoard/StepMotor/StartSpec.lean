import MotionBoard.StepMotor.ControlSpec
import MotionBoard.StepMotor.Start

namespace MotionBoard
open TwoBuffer

namespace StepInfo

structure Prepared (psrd : StepInfo) (request : UInt32) (home : Bool) (p : StepInfo) : Prop where
  pdma : p.pdma = psrd.pdma
  shaft : p.motor.shaft = psrd.motor.shaft
  dirPin : p.motor.dirPin = decide (p.dir = .rdCW)
  dir : p.dir = psrd.dir
  pos : p.pos = psrd.pos
  bstopping : p.bstopping = false
  bdoHome : p.bdoHome = home
  lowTriger : p.bhomeStopLowTriger = psrd.bhomeStopLowTriger
  dmaBufIdx : p.dmaBufIdx = 0
  stepsRequest : p.stepsRequest = request
  stepsActual : request ≠ hmInvalidStep → p.stepsActual = 0

def Planned (p q : StepInfo) : Prop :=
  ∃ (r : StepInfo) (minDelay : UInt16) (n2 accelSteps decelStart taken : UInt32)
      (decelVal : Int32) (dmaBuf : Vector DmaBufInfo hmDmaBufBlockSz),
    q = { p.withRamp r with
      minDelay := minDelay, n2 := n2, accelSteps := accelSteps, decelStart := decelStart
      stepsTaken := taken, decelVal := decelVal, dmaBuf := dmaBuf }

section Prepare
variable (psrd : StepInfo)

theorem hmMotorEnableAxis_frame (benable : Bool) :
    ∃ enaPin benabled, psrd.hmMotorEnableAxis benable =
      { psrd with motor.enaPin := enaPin, motorHwConfig.benabled := benabled } := by
  unfold hmMotorEnableAxis
  split
  · exact ⟨_, _, rfl⟩
  · split
    · exact ⟨_, _, rfl⟩
    · exact ⟨psrd.motor.enaPin, psrd.motorHwConfig.benabled, rfl⟩

theorem markLastHitHome_frame (io : Pins) :
    ∃ last, psrd.markLastHitHome io = { psrd with motorHwConfig.blastHitHome := last } := by
  unfold markLastHitHome
  split
  · exact ⟨_, rfl⟩
  · exact ⟨psrd.motorHwConfig.blastHitHome, rfl⟩

theorem startPhase_frame :
    ∃ delay phase, (phase = RunState.rsRun ∨ phase = .rsAccel) ∧
      psrd.startPhase = { psrd with stepDelay := delay, runState := phase, accelCount := 0 } := by
  unfold startPhase
  split
  · exact ⟨_, _, .inl rfl, rfl⟩
  · exact ⟨psrd.stepDelay, _, .inr rfl, rfl⟩

theorem resetMove_prepared (step : Int32) (speed : UInt32) :
    Prepared psrd step.toUInt32 false (psrd.resetMove step speed) := by
  obtain ⟨enaPin, benabled, enable⟩ := psrd.hmMotorEnableAxis_frame true
  unfold resetMove
  rw [enable]
  exact ⟨rfl, rfl, rfl, rfl, rfl, rfl, rfl, rfl, rfl, rfl, fun _ => rfl⟩

theorem resetRun_prepared (io : Pins) (speed : Int32) :
    Prepared psrd hmInvalidStep psrd.bdoHome (psrd.resetRun io speed) := by
  obtain ⟨last, mark⟩ := (psrd.hmMarkAxisState .asPreparing).markLastHitHome_frame io
  obtain ⟨enaPin, benabled, enable⟩ := hmMotorEnableAxis_frame
    { psrd.hmMarkAxisState .asPreparing with motorHwConfig.blastHitHome := last } true
  unfold resetRun
  dsimp only
  rw [mark, enable]
  exact ⟨rfl, rfl, rfl, rfl, rfl, rfl, rfl, rfl, rfl, rfl, fun h => absurd rfl h⟩

end Prepare

section Planned
variable {psrd p q r : StepInfo}

theorem Planned.trans (first : Planned p q) (second : Planned q r) : Planned p r := by
  obtain ⟨r₁, _, _, _, _, _, _, _, rfl⟩ := first
  obtain ⟨r₂, _, _, _, _, _, _, _, rfl⟩ := second
  exact ⟨r₂, _, _, _, _, _, _, _, rfl⟩

theorem Planned.prepared {request : UInt32} {home : Bool} (planned : Planned p q)
    (prepared : Prepared psrd request home p) : Prepared psrd request home q := by
  obtain ⟨_, _, _, _, _, _, _, _, rfl⟩ := planned
  exact { prepared with }

theorem Planned.stepsRequest (planned : Planned p q) : q.stepsRequest = p.stepsRequest := by
  obtain ⟨_, _, _, _, _, _, _, _, rfl⟩ := planned
  rfl

theorem Planned.stepsActual (planned : Planned p q) : q.stepsActual = p.stepsActual := by
  obtain ⟨_, _, _, _, _, _, _, _, rfl⟩ := planned
  rfl

theorem Planned.dmaBufIdx (planned : Planned p q) : q.dmaBufIdx = p.dmaBufIdx := by
  obtain ⟨_, _, _, _, _, _, _, _, rfl⟩ := planned
  rfl

theorem curBuf_of_idx :
    p.dmaBufIdx = 0 → p.curBuf = p.dmaBuf[(0 : Fin hmDmaBufBlockSz)] := by
  intro idx
  simp only [curBuf, idx]

theorem nextBuf_of_idx :
    p.dmaBufIdx = 0 → p.nextBuf = p.dmaBuf[(1 : Fin hmDmaBufBlockSz)] := by
  intro idx
  simp only [nextBuf, idx]
  rfl

theorem Updated.planned {i : Fin hmDmaBufBlockSz} (updated : Updated p i q) : Planned p q := by
  obtain ⟨r, taken, buf, rfl⟩ := updated.frame
  exact ⟨r, p.minDelay, p.n2, p.accelSteps, p.decelStart, taken, p.decelVal, _, rfl⟩

theorem Updated.get_ne {i j : Fin hmDmaBufBlockSz} (updated : Updated p i q) (ne : i ≠ j) :
    q.dmaBuf[j] = p.dmaBuf[j] := by
  obtain ⟨r, taken, buf, rfl⟩ := updated.frame
  exact setBuf_get_ne _ _ _ ne

end Planned

section Prefill
variable {p q : StepInfo}

def Cleared (p : StepInfo) : Prop :=
  p.dmaBufIdx = 0 ∧
    ∀ i : Fin hmDmaBufBlockSz, p.dmaBuf[i].dmaBufLen = 0 ∧ p.dmaBuf[i].valid = 0

theorem clearBufs_cleared (psrd : StepInfo) : psrd.clearBufs.Cleared := by
  refine ⟨rfl, fun i => ?_⟩
  simp [clearBufs]

theorem Cleared.whole (cleared : p.Cleared) : p.Whole := by
  intro i
  unfold DmaBufInfo.Whole DmaBufInfo.units
  rw [(cleared.2 i).1]
  decide

theorem Cleared.units (cleared : p.Cleared) (i : Fin hmDmaBufBlockSz) :
    p.dmaBuf[i].units = 0 := by
  unfold DmaBufInfo.units
  rw [(cleared.2 i).1]
  decide

theorem firstUnit_ok {rcr : UInt16} (cleared : p.Cleared) (action : p.firstUnit rcr = .ok q) :
    ∃ buf, q = { p.setBuf 0 buf with stepsTaken := 1 } ∧ buf.Whole ∧ buf.units = 1 ∧
      buf.valid = 0 := by
  have none_ : p.dmaBuf[0].units = 0 := cleared.units 0
  obtain ⟨buf, put, whole, units, valid⟩ := p.dmaBuf[0].putUnit_ok
    (p.stepDelay - 1) rcr (p.stepDelay / 2) (cleared.whole 0) (by rw [none_]; decide)
  unfold firstUnit at action
  simp only [put, bind, Except.bind, Except.ok.injEq] at action
  exact ⟨buf, action.symm, whole, by rw [units, none_], valid.trans (cleared.2 0).2⟩

theorem firstBuf_ok {rcr : UInt16} {a : StepInfo} (cleared : p.Cleared)
    (first : p.firstUnit rcr = .ok a) (update : a.hmDmaUpdate 0 = .ok q) :
    Planned p q ∧ q.dmaBuf[(0 : Fin hmDmaBufBlockSz)].Whole ∧
      q.dmaBuf[(0 : Fin hmDmaBufBlockSz)].units = 1 + p.produced 99 1 ∧
      q.dmaBuf[(1 : Fin hmDmaBufBlockSz)] = p.dmaBuf[(1 : Fin hmDmaBufBlockSz)] ∧
      (q.stepsTaken.toNat = if p.stepsRequest = hmInvalidStep then 1
        else 1 + p.produced 99 1) ∧
      (p.InPhase 1 → q.InPhase q.stepsTaken) := by
  obtain ⟨buf, rfl, whole, units, -⟩ := firstUnit_ok cleared first
  have get : ({ p.setBuf 0 buf with stepsTaken := 1 } : StepInfo).dmaBuf[(0 : Fin hmDmaBufBlockSz)] = buf :=
    setBuf_get _ _ _
  have updated := hmDmaUpdate_ok (by rw [get]; exact whole) update
  have refill : ({ p.setBuf 0 buf with stepsTaken := 1 } : StepInfo).refill 0 =
      p.produced 99 1 := by
    unfold refill
    rw [get, units]
    rfl
  refine ⟨?_, updated.whole, ?_, ?_, ?_, updated.phase⟩
  · refine Planned.trans ?_ updated.planned
    exact ⟨p, p.minDelay, p.n2, p.accelSteps, p.decelStart, 1, p.decelVal, _, rfl⟩
  · rw [updated.units, refill, get, units]
  · rw [updated.get_ne (by decide)]
    exact setBuf_get_ne _ _ _ (by decide)
  · rw [updated.taken, refill]
    rfl

def share (q : StepInfo) (left : Nat) : Nat :=
  if q.stepsRequest = hmInvalidStep then hmDmaBufSize else min hmDmaBufSize left

theorem fair_of_share (actual : q.stepsRequest ≠ hmInvalidStep → q.stepsActual = 0)
    (cur : q.curBuf.units = q.share q.stepsRequest.toNat)
    (next : q.nextBuf.valid ≠ 0 →
      q.nextBuf.units = q.share (q.stepsRequest.toNat - q.curBuf.units))
    (taken : q.stepsRequest ≠ hmInvalidStep →
      q.stepsTaken.toNat = q.curBuf.units + q.feed.next.getD 0) :
    q.feed.Fair hmDmaBufSize := by
  have length : ∀ n ∈ q.feed.next, n = q.share (q.stepsRequest.toNat - q.curBuf.units) := by
    intro n member
    by_cases valid : q.nextBuf.valid = 0
    · rw [feed_next_eq_none.mpr valid] at member
      cases member
    · rw [feed_next_of_valid valid] at member
      rw [← next valid]
      exact (Option.some.inj member).symm
  unfold share at cur length
  by_cases endless : q.stepsRequest = hmInvalidStep
  · have order : q.feed.order = none := if_pos endless
    rw [if_pos endless] at cur
    simp only [if_pos endless] at length
    simp only [Feed.Fair, order]
    exact ⟨cur, length⟩
  · rw [if_neg endless] at cur
    simp only [if_neg endless, cur] at length
    have taken := taken endless
    rw [cur] at taken
    have order : q.feed.order = some ⟨q.stepsRequest.toNat, q.stepsTaken.toNat, 0⟩ := by
      rw [show (0 : Nat) = q.stepsActual.toNat by rw [actual endless]; rfl]
      exact if_neg endless
    have feed : q.feed = ⟨some ⟨q.stepsRequest.toNat, q.stepsTaken.toNat, 0⟩,
        min hmDmaBufSize q.stepsRequest.toNat, q.feed.next⟩ := by
      rw [← order, ← cur]
      rfl
    rw [feed]
    exact Feed.fair_start taken length

def Fresh (p : StepInfo) : Prop :=
  p.stepsRequest ≠ hmInvalidStep → p.stepsActual = 0 ∧ 1 ≤ p.stepsRequest.toNat

theorem share_of_first (fresh : p.Fresh) :
    1 + p.produced 99 1 = p.share p.stepsRequest.toNat := by
  unfold produced share
  by_cases endless : p.stepsRequest = hmInvalidStep
  · rw [if_pos endless, if_pos endless]
  · have some_ := (fresh endless).2
    rw [if_neg endless, if_neg endless, UInt32.toNat_one]
    simp only [hmDmaBufSize]
    omega

structure Prefilled (p q : StepInfo) : Prop where
  planned : Planned p q
  whole : q.Whole
  fair : p.Fresh → q.feed.Fair hmDmaBufSize
  phase : p.InPhase 1 → q.InPhase q.stepsTaken

theorem prefill_steps {rcr : UInt16} (action : p.prefill rcr = .ok q) :
    ∃ a b, p.firstUnit rcr = .ok a ∧ a.hmDmaUpdate 0 = .ok b ∧
      (b.runState ≠ .rsStop ∧ b.hmDmaUpdate 1 = .ok q ∨ b.runState = .rsStop ∧ q = b) := by
  unfold prefill at action
  obtain ⟨a, first, action⟩ := Except.ok_of_bind action
  obtain ⟨b, update, action⟩ := Except.ok_of_bind action
  refine ⟨a, b, first, update, ?_⟩
  split at action
  · rename_i more
    exact .inl ⟨more, action⟩
  · rename_i stop
    exact .inr ⟨Decidable.not_not.mp stop, (Except.ok.inj action).symm⟩

theorem prefill_ok {rcr : UInt16} (cleared : p.Cleared) (action : p.prefill rcr = .ok q) :
    Prefilled p q := by
  obtain ⟨a, b, first, update, rest⟩ := prefill_steps action
  obtain ⟨planned, whole₀, units₀, other, count, phase⟩ := firstBuf_ok cleared first update
  have whole : b.Whole := Fin.forall_fin_two.mpr ⟨whole₀, by rw [other]; exact cleared.whole 1⟩
  have idx : b.dmaBufIdx = 0 := planned.dmaBufIdx.trans cleared.1
  obtain ⟨-, second⟩ | ⟨-, rfl⟩ := rest
  · -- the second buffer is filled as well
    have updated := hmDmaUpdate_ok (whole 1) second
    have idx' : q.dmaBufIdx = 0 := updated.planned.dmaBufIdx.trans idx
    have request := updated.planned.stepsRequest.trans planned.stepsRequest
    have first' : q.dmaBuf[(0 : Fin hmDmaBufBlockSz)] = b.dmaBuf[(0 : Fin hmDmaBufBlockSz)] :=
      updated.get_ne (by decide)
    have empty : b.dmaBuf[(1 : Fin hmDmaBufBlockSz)].units = 0 := by
      rw [other]
      exact cleared.units 1
    refine ⟨planned.trans updated.planned, ?_, fun fresh => ?_,
      fun start => updated.phase (phase start)⟩
    · exact Fin.forall_fin_two.mpr ⟨by rw [first']; exact whole₀, updated.whole⟩
    · have cur : q.curBuf.units = q.share q.stepsRequest.toNat := by
        rw [curBuf_of_idx idx', first', units₀, share_of_first fresh, share, share, request]
      have taken : b.stepsRequest ≠ hmInvalidStep → b.stepsTaken.toNat = q.curBuf.units := by
        intro finite
        rw [planned.stepsRequest] at finite
        rw [count, if_neg finite, curBuf_of_idx idx', first', units₀]
      have refill : b.refill 1 = q.share (q.stepsRequest.toNat - q.curBuf.units) := by
        unfold refill produced share
        rw [empty, updated.planned.stepsRequest]
        split
        · rfl
        · rename_i finite
          rw [taken finite]
          rfl
      have next : q.nextBuf.units = q.share (q.stepsRequest.toNat - q.curBuf.units) := by
        rw [nextBuf_of_idx idx', updated.units, empty, Nat.zero_add, refill]
      refine fair_of_share (fun finite => ?_) cur (fun _ => next) (fun finite => ?_)
      · rw [request] at finite
        rw [updated.planned.stepsActual, planned.stepsActual]
        exact (fresh finite).1
      · rw [updated.planned.stepsRequest] at finite
        rw [updated.taken, if_neg finite, taken finite, refill, ← next, feed_next_of_valid]
        · rfl
        · rw [nextBuf_of_idx idx', updated.valid]
          decide
  · refine ⟨planned, whole, fun fresh => ?_, phase⟩
    have empty : q.nextBuf.valid = 0 := by
      rw [nextBuf_of_idx idx, other]
      exact (cleared.2 1).2
    refine fair_of_share (fun finite => ?_) ?_ (fun valid => absurd empty valid)
      (fun finite => ?_)
    · rw [planned.stepsRequest] at finite
      rw [planned.stepsActual]
      exact (fresh finite).1
    · rw [curBuf_of_idx idx, units₀, share_of_first fresh, share, share, planned.stepsRequest]
    · rw [planned.stepsRequest] at finite
      rw [count, if_neg finite, feed_next_eq_none.mpr empty, curBuf_of_idx idx, units₀]
      rfl

end Prefill

section Plan
variable {p : StepInfo}

theorem toInt_cases (value : Int32) :
    value.toInt = value.toUInt32.toNat ∧ value.toUInt32.toNat < 2 ^ 31 ∨
      value.toInt = value.toUInt32.toNat - 2 ^ 32 ∧ 2 ^ 31 ≤ value.toUInt32.toNat := by
  change value.toBitVec.toInt = value.toBitVec.toNat ∧ value.toBitVec.toNat < 2 ^ 31 ∨
    value.toBitVec.toInt = value.toBitVec.toNat - 2 ^ 32 ∧ 2 ^ 31 ≤ value.toBitVec.toNat
  rw [BitVec.toInt_eq_toNat_cond]
  omega

theorem planDecelVal_ne_zero (step : Int32) (lim : UInt32) : planDecelVal step lim ≠ 0 := by
  have guard (d : Int32) : (if d = 0 then (-1 : Int32) else d) ≠ 0 := by
    split
    · decide
    · assumption
  exact guard _

/-- The deceleration a plan of up to `2 ^ 31` steps begins is as long as what is left then. -/
theorem planCovers_of_sum {step decel : Int32} (bound : step.toUInt32.toNat ≤ 2 ^ 31)
    (request : p.stepsRequest = step.toUInt32) (start : p.decelStart = (step + decel).toUInt32)
    (value : p.decelVal = decel) (slows : decel ≠ 0) : p.PlanCovers := by
  intro early
  rw [UInt32.le_iff_toNat_le, start, request] at early
  rw [start, value, request]
  have sum : (step + decel).toUInt32.toNat =
      (step.toUInt32.toNat + decel.toUInt32.toNat) % 2 ^ 32 := by
    rw [Int32.toUInt32_add, UInt32.toNat_add]
  have small := decel.toUInt32.toNat_lt
  have nonzero : decel.toUInt32.toNat ≠ 0 := by
    intro zero
    apply slows
    rw [← Int32.toInt_inj, Int32.toInt_zero]
    have := toInt_cases decel
    omega
  have := toInt_cases decel
  omega

theorem planMove_planned (step : Int32) (accel speed : UInt32) :
    Planned p (p.planMove step accel speed) := by
  unfold planMove
  dsimp only
  obtain ⟨delay, phase, -, plan⟩ := startPhase_frame _
  rw [plan]
  exact ⟨{ p with stepDelay := delay, runState := phase, accelCount := 0 },
    _, _, p.accelSteps, _, p.stepsTaken, _, p.dmaBuf, rfl⟩

/-- The smallest `int32_t` is its own negative, but read as unsigned it is right. -/
theorem toNat_magnitude (step : Int32) :
    (magnitude step).toUInt32.toNat = step.toInt.natAbs := by
  have sign := toInt_cases step
  have small := step.toUInt32.toNat_lt
  unfold magnitude
  split
  · rename_i negative
    rw [Int32.lt_iff_toInt_lt, Int32.toInt_zero] at negative
    have size : (step.toInt.natAbs : Int) = -step.toInt := Int.ofNat_natAbs_of_nonpos (by omega)
    rw [Int32.toUInt32_neg, UInt32.toNat_neg]
    simp only [UInt32.size]
    omega
  · rename_i positive
    rw [Int32.lt_iff_toInt_lt, Int32.toInt_zero] at positive
    have size : (step.toInt.natAbs : Int) = step.toInt := Int.natAbs_of_nonneg (by omega)
    omega

theorem magnitude_bound (step : Int32) : (magnitude step).toUInt32.toNat ≤ 2 ^ 31 := by
  rw [toNat_magnitude]
  have low := step.le_toInt
  have high := step.toInt_lt
  omega

theorem magnitude_finite (step : Int32) : (magnitude step).toUInt32 ≠ hmInvalidStep := by
  intro endless
  have bound := magnitude_bound step
  rw [endless] at bound
  exact absurd bound (by decide)

theorem planMove_inPhase {step : Int32} (bound : step.toUInt32.toNat ≤ 2 ^ 31)
    (request : p.stepsRequest = step.toUInt32) (accel speed stepCount : UInt32) :
    (p.planMove step accel speed).InPhase stepCount := by
  unfold planMove
  dsimp only
  obtain ⟨delay, phase, run, plan⟩ := startPhase_frame _
  rw [plan]
  have finite : p.stepsRequest ≠ hmInvalidStep := by
    intro endless
    rw [← request, endless] at bound
    exact absurd bound (by decide)
  unfold InPhase
  rw [if_neg finite]
  intro _
  have slows := planDecelVal_ne_zero step (maxSLim p.method speed.toUInt64 speed.toNat accel)
  rcases run with rfl | rfl
  · exact planCovers_of_sum bound request rfl rfl slows
  · exact planCovers_of_sum bound request rfl rfl slows

theorem planMove_cleared (cleared : p.Cleared) (step : Int32) (accel speed : UInt32) :
    (p.planMove step accel speed).Cleared := by
  unfold planMove
  dsimp only
  obtain ⟨delay, phase, -, plan⟩ := startPhase_frame _
  rw [plan]
  exact cleared

theorem planRun_cleared (cleared : p.Cleared) (accel : UInt32) (speed : Int32) :
    (p.planRun accel speed).Cleared := by
  unfold planRun
  dsimp only
  obtain ⟨delay, phase, -, plan⟩ := startPhase_frame _
  rw [plan]
  exact cleared

theorem planRun_planned (accel : UInt32) (speed : Int32) :
    Planned p (p.planRun accel speed) := by
  unfold planRun
  dsimp only
  obtain ⟨delay, phase, -, plan⟩ := startPhase_frame _
  rw [plan]
  exact ⟨{ p with stepDelay := delay, runState := phase, accelCount := 0 },
    _, _, _, _, p.stepsTaken, p.decelVal, p.dmaBuf, rfl⟩

theorem planRun_inPhase (request : p.stepsRequest = hmInvalidStep) (accel : UInt32)
    (speed : Int32) (stepCount : UInt32) : (p.planRun accel speed).InPhase stepCount := by
  unfold planRun
  dsimp only
  obtain ⟨delay, phase, run, plan⟩ := startPhase_frame _
  rw [plan]
  unfold InPhase
  rw [if_pos request]
  exact ⟨run.symm, rfl⟩

end Plan

section Launch
variable {psrd p q t : StepInfo} {request : UInt32} {home : Bool}

structure Ready (p q : StepInfo) : Prop where
  planned : Planned p q
  whole : q.Whole
  fair : q.feed.Fair hmDmaBufSize
  phase : q.InPhase q.stepsTaken

structure Launched (psrd : StepInfo) (request : UInt32) (home : Bool) (t : StepInfo) : Prop where
  axisState : t.axisState = .asRuning
  timer : t.ptim.enabled = true
  pdma : t.pdma = { psrd.pdma with
    enabled := true
    cndtr := if psrd.pdma.enabled then psrd.pdma.cndtr else t.curBuf.dmaBufLen
    cmar := t.dmaBufIdx
    reload := if psrd.pdma.enabled then psrd.pdma.reload else t.curBuf.dmaBufLen
    handed := psrd.pdma.handed + t.curBuf.units }
  prepared : Prepared psrd request home { t with pdma := psrd.pdma }
  whole : t.Whole
  fair : t.feed.Fair hmDmaBufSize
  phase : t.InPhase t.stepsTaken

theorem hmDmaSetup_true : psrd.hmDmaSetup true =
    { psrd with
      pdma.enabled := true
      pdma.cndtr := if psrd.pdma.enabled then psrd.pdma.cndtr else psrd.curBuf.dmaBufLen
      pdma.cmar := psrd.dmaBufIdx
      pdma.reload := if psrd.pdma.enabled then psrd.pdma.reload else psrd.curBuf.dmaBufLen
      pdma.handed := psrd.pdma.handed + psrd.curBuf.units } := by
  unfold hmDmaSetup DmaChannel.writeCndtr DmaChannel.dmaCmd
  cases enabled : psrd.pdma.enabled <;> simp [enabled, DmaBufInfo.units]

theorem launch_frame : ∃ psc, psrd.launch =
    { psrd.hmDmaSetup true with
      ptim := ⟨true, psrd.stepDelay / 2, psrd.ptim.rcr, psrd.stepDelay - 1, psc⟩
      motor.led := true
      axisState := .asRuning } := by
  unfold launch hmTimStart
  rw [if_pos rfl]
  dsimp only
  split
  · exact ⟨_, rfl⟩
  · exact ⟨_, rfl⟩

theorem Ready.launched (ready : Ready p q) (prepared : Prepared psrd request home p) :
    Launched psrd request home q.launch := by
  obtain ⟨psc, launch⟩ := q.launch_frame
  have prepared := ready.planned.prepared prepared
  rw [hmDmaSetup_true] at launch
  rw [launch]
  exact {
    axisState := rfl
    timer := rfl
    pdma := by
      rw [← prepared.pdma]
      rfl
    prepared := { prepared with pdma := rfl }
    whole := ready.whole
    fair := ready.fair
    phase := ready.phase }

theorem singleStep_buf (cleared : p.Cleared) (action : p.singleStep = .ok q) :
    ∃ buf a, firstUnit { p with accelCount := -1, runState := .rsDecel, stepDelay := 1000 } 1 =
        .ok a ∧ a.dmaBuf[(0 : Fin hmDmaBufBlockSz)] = buf ∧ buf.Whole ∧ buf.units = 1 ∧
      q = { p.setBuf 0 { buf with valid := 1 } with
        accelCount := -1, runState := .rsDecel, stepDelay := 1000, stepsTaken := 1 } := by
  unfold singleStep at action
  obtain ⟨a, first, rfl⟩ := Except.ok_of_map action
  obtain ⟨buf, rfl, whole, units, -⟩ := firstUnit_ok (by exact cleared) first
  exact ⟨buf, _, first, setBuf_get _ _ _, whole, units, by simp [setBuf]⟩

theorem singleStep_ready (cleared : p.Cleared) (request : p.stepsRequest = 1)
    (actual : p.stepsActual = 0) (action : p.singleStep = .ok q) : Ready p q := by
  obtain ⟨buf, -, -, -, whole, units, same⟩ := singleStep_buf cleared action
  have idx : q.dmaBufIdx = 0 := by rw [same]; exact cleared.1
  have cur : q.curBuf = { buf with valid := 1 } := by
    rw [curBuf_of_idx idx, same]
    exact setBuf_get _ _ _
  have next : q.nextBuf.valid = 0 := by
    rw [nextBuf_of_idx idx, same]
    exact (congrArg _ (setBuf_get_ne _ _ _ (by decide))).trans (cleared.2 1).2
  have request' : q.stepsRequest = 1 := by rw [same]; exact request
  have one : q.curBuf.units = 1 := by rw [cur]; exact units
  refine ⟨?_, ?_, ?_, ?_⟩
  · rw [same]
    exact ⟨{ p with accelCount := -1, runState := .rsDecel, stepDelay := 1000 },
      p.minDelay, p.n2, p.accelSteps, p.decelStart, 1, p.decelVal, _, rfl⟩
  · rw [same]
    exact cleared.whole.setBuf whole
  · refine fair_of_share (fun _ => by rw [same]; exact actual) ?_
      (fun valid => absurd next valid) (fun _ => ?_)
    · rw [one, share, request']
      decide
    · rw [one, feed_next_eq_none.mpr next, same]
      rfl
  · have taken : q.stepsTaken = 1 := by rw [same]
    unfold InPhase
    rw [request', if_neg (by decide), taken]
    intro left
    exact absurd left (by decide)

theorem hmStepMotorState_ne : psrd.hmStepMotorState ≠ .rsStop ↔ psrd.axisState ≠ .asStoped := by
  unfold hmStepMotorState
  split <;> simp [*]

theorem empty_ready (cleared : p.Cleared) (request : p.stepsRequest = 0)
    (actual : p.stepsActual = 0) (taken : p.stepsTaken = 0) : Ready p p := by
  have none_ : p.curBuf.units = 0 := cleared.units _
  have next : p.nextBuf.valid = 0 := (cleared.2 _).2
  refine ⟨⟨p, _, _, _, _, _, _, _, rfl⟩, cleared.whole, ?_, ?_⟩
  · refine fair_of_share (fun _ => actual) ?_ (fun valid => absurd next valid) (fun _ => ?_)
    · rw [none_, share, request]
      decide
    · rw [none_, taken, feed_next_eq_none.mpr next]
      rfl
  · unfold InPhase
    rw [request, taken, if_neg (by decide)]
    intro left
    exact absurd left (by decide)

theorem move_ready {step : Int32} {accel speed : UInt32} (cleared : p.Cleared)
    (bound : step.toUInt32.toNat ≤ 2 ^ 31) (request : p.stepsRequest = step.toUInt32)
    (actual : p.stepsActual = 0) (taken : p.stepsTaken = 0)
    (action : p.moveBufs step accel speed = .ok q) : Ready p q := by
  unfold moveBufs at action
  split at action
  · rename_i one
    exact singleStep_ready cleared (by rw [request, one]; rfl) actual action
  · rename_i many
    split at action
    · rename_i some_
      have planned := p.planMove_planned step accel speed
      have filled := prefill_ok (planMove_cleared cleared step accel speed) action
      refine ⟨planned.trans filled.planned, filled.whole, filled.fair fun _ => ⟨?_, ?_⟩,
        filled.phase (planMove_inPhase bound request accel speed 1)⟩
      · rw [planned.stepsActual, actual]
      · rw [planned.stepsRequest, request]
        have nonzero : step.toUInt32.toNat ≠ 0 := by
          intro zero
          apply some_
          rw [← Int32.toInt_inj, Int32.toInt_zero]
          have := toInt_cases step
          omega
        omega
    · rename_i none_
      rw [ne_eq, Decidable.not_not] at none_
      obtain rfl := Except.ok.inj action
      rw [none_] at request
      exact empty_ready cleared request actual taken

theorem resetMove_cleared (step : Int32) (speed : UInt32) :
    (psrd.resetMove step speed).Cleared := by
  obtain ⟨enaPin, benabled, enable⟩ := psrd.hmMotorEnableAxis_frame true
  unfold resetMove
  rw [enable]
  exact clearBufs_cleared _

theorem resetRun_cleared (io : Pins) (speed : Int32) : (psrd.resetRun io speed).Cleared :=
  clearBufs_cleared _

theorem resetMove_stepsTaken (step : Int32) (speed : UInt32) :
    (psrd.resetMove step speed).stepsTaken = 0 := by
  obtain ⟨enaPin, benabled, enable⟩ := psrd.hmMotorEnableAxis_frame true
  unfold resetMove
  rw [enable]
  rfl

def Outcome (psrd : StepInfo) (amount : Int32) (io : Pins) (request : UInt32) (home : Bool)
    (answer : Bool) (t : StepInfo) : Prop :=
  (psrd.axisState ≠ .asStoped ∧ answer = false ∧ t = psrd) ∨
  (psrd.axisState = .asStoped ∧ answer = true ∧ (psrd.towards amount).blocked io ∧
    t = psrd.towards amount) ∨
  (psrd.axisState = .asStoped ∧ answer = true ∧ ¬ (psrd.towards amount).blocked io ∧
    Launched (psrd.towards amount) request home t)

def guardedStart (psrd : StepInfo) (amount : Int32) (io : Pins) (bufs : Except Halt StepInfo) :
    Except Halt (Bool × StepInfo) :=
  if psrd.hmStepMotorState ≠ .rsStop then .ok (false, psrd)
  else if (psrd.towards amount).blocked io then .ok (true, psrd.towards amount)
  else bufs >>= fun q => .ok (true, q.launch)

theorem hmStepMotorMove_guarded (io : Pins) (step : Int32) (accel decel speed : UInt32) :
    psrd.hmStepMotorMove io step accel decel speed = psrd.guardedStart step io
      (((psrd.towards step).resetMove (magnitude step) speed).moveBufs (magnitude step) accel
        speed) := rfl

theorem hmStepMotorStartRun_guarded (io : Pins) (accel : UInt32) (speed : Int32) :
    psrd.hmStepMotorStartRun io accel speed = psrd.guardedStart speed io
      ((((psrd.towards speed).resetRun io (magnitude speed)).planRun accel
        (magnitude speed)).prefill 1) := rfl

section Guards
variable {amount : Int32} {io : Pins} {bufs : Except Halt StepInfo}

theorem guardedStart_ahead (stopped : psrd.axisState = .asStoped)
    (free : ¬ (psrd.towards amount).blocked io) :
    psrd.guardedStart amount io bufs = bufs >>= fun q => .ok (true, q.launch) := by
  unfold guardedStart
  rw [if_neg (fun refused => hmStepMotorState_ne.mp refused stopped), if_neg free]

theorem guardedStart_ok {answer : Bool}
    (action : psrd.guardedStart amount io bufs = .ok (answer, t))
    (goes : ∀ q, bufs = .ok q → Launched (psrd.towards amount) request home q.launch) :
    Outcome psrd amount io request home answer t := by
  by_cases stopped : psrd.axisState = .asStoped
  · by_cases blocked : (psrd.towards amount).blocked io
    · unfold guardedStart at action
      rw [if_neg (fun refused => hmStepMotorState_ne.mp refused stopped), if_pos blocked] at action
      obtain ⟨rfl, rfl⟩ := Prod.mk.inj (Except.ok.inj action)
      exact .inr (.inl ⟨stopped, rfl, blocked, rfl⟩)
    · rw [guardedStart_ahead stopped blocked] at action
      obtain ⟨q, fill, result⟩ := Except.ok_of_map action
      obtain ⟨rfl, rfl⟩ := Prod.mk.inj result
      exact .inr (.inr ⟨stopped, rfl, blocked, goes q fill⟩)
  · unfold guardedStart at action
    rw [if_pos (hmStepMotorState_ne.mpr stopped)] at action
    obtain ⟨rfl, rfl⟩ := Prod.mk.inj (Except.ok.inj action)
    exact .inl ⟨stopped, rfl, rfl⟩

theorem guardedStart_error {failure : Halt}
    (action : psrd.guardedStart amount io bufs = .error failure) :
    psrd.axisState = .asStoped ∧ ¬ (psrd.towards amount).blocked io ∧ bufs = .error failure := by
  unfold guardedStart at action
  split at action
  · cases action
  · rename_i accepted
    split at action
    · cases action
    · rename_i free
      rw [hmStepMotorState_ne, ne_eq, Decidable.not_not] at accepted
      obtain stuck | ⟨_, -, done⟩ := Except.error_of_bind action
      · exact ⟨accepted, free, stuck⟩
      · cases done

end Guards

theorem moveBufs_ready {step : Int32} {accel speed : UInt32}
    (fill : ((psrd.towards step).resetMove (magnitude step) speed).moveBufs (magnitude step) accel
      speed = .ok q) :
    Ready ((psrd.towards step).resetMove (magnitude step) speed) q := by
  have prepared := (psrd.towards step).resetMove_prepared (magnitude step) speed
  exact move_ready (resetMove_cleared _ _) (magnitude_bound step) prepared.stepsRequest
    (prepared.stepsActual (magnitude_finite step)) (resetMove_stepsTaken _ _) fill

theorem runBufs_ready {io : Pins} {accel : UInt32} {speed : Int32}
    (fill : (((psrd.towards speed).resetRun io (magnitude speed)).planRun accel
      (magnitude speed)).prefill 1 = .ok q) :
    Ready ((psrd.towards speed).resetRun io (magnitude speed)) q := by
  have prepared := (psrd.towards speed).resetRun_prepared io (magnitude speed)
  have cleared := (psrd.towards speed).resetRun_cleared io (magnitude speed)
  generalize (psrd.towards speed).resetRun io (magnitude speed) = p at *
  have planned := p.planRun_planned accel (magnitude speed)
  have filled := prefill_ok (planRun_cleared cleared accel (magnitude speed)) fill
  have fresh : (p.planRun accel (magnitude speed)).Fresh := fun finite =>
    absurd (planned.stepsRequest.trans prepared.stepsRequest) finite
  exact ⟨planned.trans filled.planned, filled.whole, filled.fair fresh,
    filled.phase (planRun_inPhase prepared.stepsRequest _ _ _)⟩

theorem hmStepMotorMove_ok {io : Pins} {step : Int32} {accel decel speed : UInt32} {answer : Bool}
    (action : psrd.hmStepMotorMove io step accel decel speed = .ok (answer, t)) :
    Outcome psrd step io (magnitude step).toUInt32 false answer t := by
  rw [hmStepMotorMove_guarded] at action
  exact guardedStart_ok action fun q fill =>
    (moveBufs_ready fill).launched (resetMove_prepared _ _ _)

theorem hmStepMotorStartRun_ok {io : Pins} {accel : UInt32} {speed : Int32} {answer : Bool}
    (action : psrd.hmStepMotorStartRun io accel speed = .ok (answer, t)) :
    Outcome psrd speed io hmInvalidStep psrd.bdoHome answer t := by
  rw [hmStepMotorStartRun_guarded] at action
  exact guardedStart_ok action fun q fill =>
    (runBufs_ready fill).launched (resetRun_prepared _ _ _)

end Launch

section Failure
variable {psrd p : StepInfo} {failure : Halt}

theorem firstUnit_succeeds (cleared : p.Cleared) (rcr : UInt16) : ∃ a, p.firstUnit rcr = .ok a := by
  have none_ : p.dmaBuf[0].units = 0 := cleared.units 0
  obtain ⟨buf, put, -⟩ := p.dmaBuf[0].putUnit_ok
    (p.stepDelay - 1) rcr (p.stepDelay / 2) (cleared.whole 0) (by rw [none_]; decide)
  exact ⟨{ p.setBuf 0 buf with stepsTaken := 1 }, by simp only [firstUnit, put, bind, Except.bind]⟩

theorem singleStep_succeeds (cleared : p.Cleared) : ∃ q, p.singleStep = .ok q := by
  have cleared' : Cleared { p with
    accelCount := -1, runState := .rsDecel, stepDelay := 1000 } := cleared
  obtain ⟨a, first⟩ := firstUnit_succeeds cleared' 1
  exact ⟨a.setBuf 0 { a.dmaBuf[0] with valid := 1 }, by
    simp only [singleStep, first, bind, Except.bind]⟩

theorem prefill_error {rcr : UInt16} (cleared : p.Cleared) (phase : p.InPhase 1)
    (action : p.prefill rcr = .error failure) : failure = .badDelay := by
  unfold prefill at action
  obtain stuck | ⟨a, first, action⟩ := Except.error_of_bind action
  · obtain ⟨a, first⟩ := firstUnit_succeeds cleared rcr
    cases first.symm.trans stuck
  obtain stuck | ⟨b, update, action⟩ := Except.error_of_bind action
  · obtain ⟨buf, rfl, whole, -⟩ := firstUnit_ok cleared first
    refine (hmDmaUpdate_error ?_ stuck).2 phase
    exact (congrArg DmaBufInfo.Whole (setBuf_get _ _ _)).mpr whole
  · obtain ⟨-, -, -, other, -, phase'⟩ := firstBuf_ok cleared first update
    split at action
    · exact (hmDmaUpdate_error (by rw [other]; exact cleared.whole 1) action).2 (phase' phase)
    · cases action

theorem moveBufs_error {step : Int32} {accel speed : UInt32} (cleared : p.Cleared)
    (bound : step.toUInt32.toNat ≤ 2 ^ 31) (request : p.stepsRequest = step.toUInt32)
    (action : p.moveBufs step accel speed = .error failure) : failure = .badDelay := by
  unfold moveBufs at action
  split at action
  · obtain ⟨q, done⟩ := singleStep_succeeds cleared
    cases done.symm.trans action
  · split at action
    · exact prefill_error (planMove_cleared cleared step accel speed)
        (planMove_inPhase bound request accel speed 1) action
    · cases action

theorem hmStepMotorMove_error {io : Pins} {step : Int32} {accel decel speed : UInt32}
    (action : psrd.hmStepMotorMove io step accel decel speed = .error failure) :
    failure = .badDelay := by
  rw [hmStepMotorMove_guarded] at action
  obtain ⟨-, -, stuck⟩ := guardedStart_error action
  exact moveBufs_error (resetMove_cleared _ _) (magnitude_bound step)
    ((psrd.towards step).resetMove_prepared (magnitude step) speed).stepsRequest stuck

theorem hmStepMotorStartRun_error {io : Pins} {accel : UInt32} {speed : Int32}
    (action : psrd.hmStepMotorStartRun io accel speed = .error failure) :
    failure = .badDelay := by
  rw [hmStepMotorStartRun_guarded] at action
  obtain ⟨-, -, stuck⟩ := guardedStart_error action
  exact prefill_error (planRun_cleared (resetRun_cleared _ _) accel (magnitude speed))
    (planRun_inPhase ((psrd.towards speed).resetRun_prepared io (magnitude speed)).stepsRequest
      _ _ _) stuck

end Failure

end StepInfo

end MotionBoard
