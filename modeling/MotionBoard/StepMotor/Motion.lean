import MotionBoard.StepMotor.Units

namespace MotionBoard
open Transition TwoBuffer

def untilHang : List UInt16 → List UInt16
  | [] => []
  | delay :: delays => if delay < 2 then [delay] else delay :: untilHang delays

theorem untilHang_append {first second : List UInt16} (long : ∀ delay ∈ first, 2 ≤ delay) :
    untilHang (first ++ second) = first ++ untilHang second := by
  induction first with
  | nil => rfl
  | cons delay first ih =>
      rw [List.forall_mem_cons] at long
      rw [List.cons_append, untilHang, if_neg (UInt16.not_lt.mpr long.1), ih long.2,
        List.cons_append]

def Event.ConstantSpeed (method : Method) : Event → Prop
  | .move _ step accel _ speed =>
      let lim := maxSLim method speed.toUInt64 speed.toNat accel
      magnitude step ≠ 1 ∧ magnitude step ≠ 0 ∧
        firstDelay (timBaseFre speed) accel ≤
          (timBaseFre speed / speed.toUInt64).toUInt16 ∧
        (magnitude step + StepInfo.planDecelVal (magnitude step) lim).toUInt32 ≤ (magnitude step).toUInt32
  | _ => False

def Event.unplanned : Event → List DmaUnit
  | .move _ step _ _ _ => if magnitude step = 1 then [(999, 1, 500)] else []
  | _ => []

namespace StepInfo

def Slows (psrd : StepInfo) : Prop :=
  psrd.decelStart ≠ hmInvalidStep ∧ psrd.decelStart ≤ psrd.stepsRequest

/-- The fields that not every start assigns. -/
def residue (psrd : StepInfo) (last : UInt16) (decelVal : Int32) : StepInfo :=
  { psrd with lastAccelDelay := last, decelVal := decelVal }

section Generator
variable (psrd : StepInfo) (last : UInt16) (decelVal : Int32) (stepCount : UInt32)

theorem countAccel_residue :
    (psrd.residue last decelVal).countAccel = psrd.countAccel.residue last decelVal := by
  unfold countAccel residue
  dsimp only
  split <;> rfl

theorem leaveAccel_residue (fixed : psrd.DecelDue stepCount → decelVal = psrd.decelVal)
    (delay : UInt16) : ∃ last',
      (psrd.residue last decelVal).leaveAccel stepCount delay =
        ((psrd.leaveAccel stepCount delay).1.residue last' decelVal,
          (psrd.leaveAccel stepCount delay).2) ∧
      ((psrd.leaveAccel stepCount delay).1.runState = .rsRun → psrd.runState ≠ .rsRun →
        last' = (psrd.leaveAccel stepCount delay).1.lastAccelDelay) := by
  unfold leaveAccel
  change ∃ last', (if psrd.DecelDue stepCount then _ else if delay ≤ psrd.minDelay then _ else _)
    = _ ∧ _
  split
  · rename_i due
    obtain rfl := fixed due
    exact ⟨last, rfl, nofun⟩
  · split
    · exact ⟨delay, rfl, fun _ _ => rfl⟩
    · exact ⟨last, rfl, fun run other => absurd run other⟩

theorem leaveDecel_residue :
    (psrd.residue last decelVal).leaveDecel = psrd.leaveDecel.residue last decelVal := by
  unfold leaveDecel
  change (if psrd.accelCount ≥ 0 then _ else _) = _
  split <;> rfl

theorem decelDelay_residue : (psrd.residue last decelVal).decelDelay =
    (psrd.decelDelay.1.residue last decelVal, psrd.decelDelay.2) :=
  Prod.ext (leaveDecel_residue
    (divide { psrd with accelCount := psrd.accelCount + 1 } _ _).1 last decelVal) rfl

theorem recordDelay_residue (delay : UInt16) :
    (psrd.residue last decelVal).recordDelay delay =
      (psrd.recordDelay delay).residue last decelVal := by
  unfold recordDelay residue
  dsimp only
  split <;> rfl

theorem recordDelay_lastAccelDelay (delay : UInt16) :
    (psrd.recordDelay delay).lastAccelDelay = psrd.lastAccelDelay := by
  unfold recordDelay
  dsimp only
  split <;> rfl

end Generator

section Residue
variable {psrd : StepInfo} {last : UInt16} {decelVal : Int32} {stepCount : UInt32}

/-- A step reads `decel_val` when the deceleration begins, and `last_accel_delay` when it begins
from the constant speed. -/
theorem nextDelay_residue (within : psrd.DecelDue stepCount → psrd.Slows)
    (fixed : psrd.Slows → decelVal = psrd.decelVal)
    (unread : psrd.runState = .rsRun → psrd.Slows → last = psrd.lastAccelDelay)
    {next : StepInfo × UInt16} (step : psrd.nextDelay stepCount = .ok next) :
    ∃ last', (psrd.residue last decelVal).nextDelay stepCount =
        .ok (next.1.residue last' decelVal, next.2) ∧
      (next.1.runState = .rsRun → psrd.Slows → last' = next.1.lastAccelDelay) := by
  have same : (psrd.residue last decelVal).runState = psrd.runState := rfl
  unfold nextDelay at step ⊢
  rw [same]
  cases phase : psrd.runState with
  | rsStop => rw [phase] at step; cases step
  | rsAccel =>
      rw [phase] at step
      obtain rfl := Except.ok.inj step
      have other : psrd.countAccel.runState ≠ .rsRun := by
        rw [countAccel_runState, phase]
        exact nofun
      have counted := psrd.countAccel_rampStep
      obtain ⟨last', leave, same⟩ := leaveAccel_residue
        (psrd.countAccel.divide psrd.countAccel.accelDivs.1 psrd.countAccel.accelDivs.2).1
        last decelVal stepCount (fun due => (fixed (within ((counted.decelDue_iff stepCount).mp due))).trans
          counted.decelVal.symm)
        (psrd.countAccel.divide psrd.countAccel.accelDivs.1 psrd.countAccel.accelDivs.2).2
      refine ⟨last', congrArg Except.ok ?_, fun run _ => same run other⟩
      unfold accelDelay
      rw [countAccel_residue]
      exact leave
  | rsRun =>
      rw [phase] at step
      obtain rfl := Except.ok.inj step
      refine ⟨last, congrArg Except.ok ?_, fun run slows => ?_⟩
      · unfold runDelay
        change (if psrd.DecelDue stepCount then _ else _) = _
        split
        · rename_i due
          have slows := within due
          rw [fixed slows, unread phase slows]
          rfl
        · rfl
      · rw [unread phase slows]
        unfold runDelay
        split <;> rfl
  | rsDecel =>
      rw [phase] at step
      obtain rfl := Except.ok.inj step
      refine ⟨last, congrArg Except.ok ?_, fun run => ?_⟩
      · exact psrd.decelDelay_residue last decelVal
      · rw [(decelDelay_runState phase).2] at run
        split at run <;> cases run

theorem RampStep.minDelay {psrd' : StepInfo} (step : psrd.RampStep psrd') :
    psrd'.minDelay = psrd.minDelay :=
  (congrArg StepInfo.minDelay step).trans rfl

theorem RampStep.method {psrd' : StepInfo} (step : psrd.RampStep psrd') :
    psrd'.method = psrd.method :=
  (congrArg StepInfo.method step).trans rfl

theorem RampStep.slows_iff {psrd' : StepInfo} (step : psrd.RampStep psrd') :
    psrd'.Slows ↔ psrd.Slows := by
  unfold Slows
  rw [step.decelStart, step.stepsRequest]

theorem countStep_within (more : ¬ psrd.Exhausted stepCount)
    (due : psrd.DecelDue (psrd.countStep stepCount)) : psrd.Slows := by
  refine ⟨due.1, UInt32.le_trans due.2 ?_⟩
  have count := toNat_countStep more
  rw [UInt32.le_iff_toNat_le, count]
  by_cases endless : psrd.stepsRequest = hmInvalidStep
  · have small := stepCount.toNat_lt
    rw [if_pos endless, endless, show hmInvalidStep.toNat = 2 ^ 32 - 1 from rfl]
    omega
  · have left : ¬ psrd.stepsRequest ≤ stepCount := fun le => more ⟨endless, le⟩
    rw [UInt32.le_iff_toNat_le] at left
    rw [if_neg endless]
    omega

theorem delays_residue (fixed : psrd.Slows → decelVal = psrd.decelVal)
    (unread : psrd.runState = .rsRun → psrd.Slows → last = psrd.lastAccelDelay) (n : Nat) :
    delays n (psrd.residue last decelVal) stepCount = delays n psrd stepCount := by
  induction n generalizing psrd last stepCount with
  | zero => rfl
  | succ n ih =>
      by_cases ended : psrd.Exhausted stepCount
      · have ended' : (psrd.residue last decelVal).Exhausted stepCount := ended
        rw [delays_exhausted ended, delays_exhausted ended']
      · have ended' : ¬ (psrd.residue last decelVal).Exhausted stepCount := ended
        cases step : psrd.nextDelay (psrd.countStep stepCount) with
        | error failure =>
            have phase : psrd.runState = .rsStop := by
              unfold nextDelay at step
              split at step <;> first | assumption | cases step
            have stuck : (psrd.residue last decelVal).nextDelay (psrd.countStep stepCount) =
                .error failure := by
              rw [← step]
              unfold nextDelay
              rw [phase, show (psrd.residue last decelVal).runState = .rsStop from phase]
            have counted : (psrd.residue last decelVal).countStep stepCount =
                psrd.countStep stepCount := rfl
            unfold delays
            rw [if_neg ended, if_neg ended', counted, stuck, step]
        | ok next =>
            have ramp := (psrd.nextDelay_rampStep _ step).trans (recordDelay_rampStep next.2)
            obtain ⟨last', step', same⟩ := nextDelay_residue (countStep_within ended) fixed unread step
            rw [delays_succ ended step, delays_succ ended' step', recordDelay_residue]
            refine congrArg (next.2 :: ·) (ih (fun slows => ?_) fun run slows => ?_)
            · rw [ramp.decelVal]
              exact fixed (ramp.slows_iff.mp slows)
            · rw [recordDelay_lastAccelDelay]
              rw [recordDelay_runState] at run
              exact same run (ramp.slows_iff.mp slows)

end Residue

def motion (psrd : StepInfo) (e : Event) (n : Nat) : List DmaUnit :=
  match psrd.planned e with
  | none => e.unplanned
  | some (p, rcr) =>
      (p.stepDelay - 1, rcr, p.stepDelay / 2) :: (untilHang (delays n p 1)).map stepUnit

def wrote (psrd : StepInfo) (e : Event) : List DmaUnit :=
  match psrd.exec e with
  | .error _ => []
  | .ok t =>
      if psrd.starts e then t.curBuf.content ++ t.nextBuf.content
      else if e = .halfTransfer ∧ psrd.nextBuf.valid = 0 then t.nextBuf.content else []

def recurves (psrd : StepInfo) : Event → Bool
  | .setStopMode bsudCW bsudCCW bsudHome bTcurve =>
      (psrd.hmMotorSetStopMode bsudCW bsudCCW bsudHome bTcurve).method ≠ psrd.method
  | .setAxisCurve e => (psrd.hmStepMotorSetAxisCurve e).method ≠ psrd.method
  | _ => false

abbrev MotionStep : StepInfo × List DmaUnit → Event → StepInfo × List DmaUnit → Prop :=
  Guarded (fun s e => !s.1.acts e ∧ !s.1.recurves e)
    (Watched Step fun psrd e units => units ++ psrd.wrote e)

section Begin
variable {psrd p t : StepInfo} {e : Event} {rcr : UInt16}

theorem startPhase_generating (o : StepInfo) :
    (o.generating psrd).startPhase = o.generating psrd.startPhase := by
  unfold startPhase
  change (if psrd.stepDelay ≤ psrd.minDelay then _ else _) = _
  split <;> rfl

theorem startPhase_residue (last : UInt16) (decelVal : Int32) :
    (psrd.residue last decelVal).startPhase = psrd.startPhase.residue last decelVal := by
  unfold startPhase
  change (if psrd.stepDelay ≤ psrd.minDelay then _ else _) = _
  split <;> rfl

theorem startPhase_runState :
    psrd.startPhase.runState = .rsRun ↔ psrd.stepDelay ≤ psrd.minDelay := by
  unfold startPhase
  split <;> simp [*]

def Alike (a b : StepInfo) (last : UInt16) : Prop :=
  ∃ (o : StepInfo) (decelVal : Int32),
    b = o.generating (a.residue last decelVal) ∧ (a.Slows → decelVal = a.decelVal)

variable {q : StepInfo}

theorem startPhase_alike {a b : StepInfo} {last : UInt16} (decelVal : Int32)
    (same : b = b.generating
      ({ a with runState := b.runState, accelCount := b.accelCount }.residue last decelVal))
    (fixed : a.Slows → decelVal = a.decelVal) : Alike a.startPhase b.startPhase last := by
  have fresh : { a with runState := b.runState, accelCount := b.accelCount }.startPhase =
      a.startPhase := by
    unfold startPhase
    dsimp only
  refine ⟨b, decelVal, ?_, ?_⟩
  · rw [← fresh, ← startPhase_residue, ← startPhase_generating, ← same]
  · obtain ⟨_, _, -, phase⟩ := a.startPhase_frame
    rw [phase]
    exact fixed

theorem movePlan_alike (method : p.method = q.method) (step : Int32) (accel speed : UInt32) :
    Alike (p.movePlan step accel speed) (q.movePlan step accel speed) q.lastAccelDelay := by
  obtain ⟨_, _, enable₁⟩ := (p.towards step).hmMotorEnableAxis_frame true
  obtain ⟨_, _, enable₂⟩ := (q.towards step).hmMotorEnableAxis_frame true
  unfold movePlan planMove resetMove
  rw [enable₁, enable₂]
  refine startPhase_alike _ ?_ fun _ => rfl
  dsimp only [hmMotorSetDir, hmMarkAxisState, clearBufs, towards]
  rw [method]
  rfl

theorem enable_frame (psrd : StepInfo) (io : Pins) : ∃ hw enaPin,
    ((psrd.hmMarkAxisState .asPreparing).markLastHitHome io).hmMotorEnableAxis true =
      { psrd with
        axisState := .asPreparing, motorHwConfig := hw, motor.enaPin := enaPin } := by
  obtain ⟨last, mark⟩ := (psrd.hmMarkAxisState .asPreparing).markLastHitHome_frame io
  obtain ⟨enaPin, benabled, enable⟩ :=
    ((psrd.hmMarkAxisState .asPreparing).markLastHitHome io).hmMotorEnableAxis_frame true
  rw [enable, mark]
  exact ⟨_, _, rfl⟩

theorem runPlan_alike (method : p.method = q.method) (io : Pins) (accel : UInt32) (speed : Int32) :
    Alike (p.runPlan io accel speed) (q.runPlan io accel speed) q.lastAccelDelay := by
  obtain ⟨_, _, enable₁⟩ := (p.towards speed).enable_frame io
  obtain ⟨_, _, enable₂⟩ := (q.towards speed).enable_frame io
  unfold runPlan planRun resetRun
  dsimp only
  rw [enable₁, enable₂]
  refine startPhase_alike q.decelVal ?_ fun slows => absurd rfl slows.1
  dsimp only [hmMotorSetDir, clearBufs, towards]
  rw [method]
  rfl

theorem planned_alike (method : p.method = q.method) {a : StepInfo}
    (plan : p.planned e = some (a, rcr)) :
    ∃ b, q.planned e = some (b, rcr) ∧ Alike a b q.lastAccelDelay := by
  obtain ⟨io, step, accel, decel, speed, rfl, few, rfl, rfl⟩ |
    ⟨_, io, accel, speed, ⟨rfl, rfl⟩ | ⟨rfl, rfl⟩ | ⟨rfl, rfl⟩, rfl, rfl⟩ := planned_cases plan
  · exact ⟨_, planned_move io accel decel speed few, movePlan_alike method step accel speed⟩
  · exact ⟨_, rfl, runPlan_alike (by exact method) io accel speed⟩
  · exact ⟨_, rfl, runPlan_alike (by exact method) io accel speed⟩
  · exact ⟨_, rfl, runPlan_alike (by exact method) io accel speed⟩

theorem planned_none (plan : p.planned e = none) : q.planned e = none := by
  cases e with
  | move io step accel decel speed =>
      by_cases few : magnitude step = 1 ∨ magnitude step = 0
      · exact if_pos few
      · cases (if_neg few).symm.trans plan
  | startHoming | startFreeRun | startRun => cases plan
  | _ => rfl

theorem movePlan_constantSpeed (io : Pins) (step : Int32) (accel decel speed : UInt32)
    (many : ¬ (magnitude step = 1 ∨ magnitude step = 0)) :
    (p.movePlan step accel speed).lastAccelDelay = p.lastAccelDelay ∧
      ((p.movePlan step accel speed).runState = .rsRun ∧ (p.movePlan step accel speed).Slows ↔
        (Event.move io step accel decel speed).ConstantSpeed p.method) := by
  obtain ⟨_, _, enable⟩ := (p.towards step).hmMotorEnableAxis_frame true
  unfold movePlan planMove resetMove
  rw [enable]
  refine ⟨?_, ?_⟩
  · obtain ⟨_, _, -, phase⟩ := startPhase_frame _
    rw [phase]
    rfl
  · rw [startPhase_runState]
    obtain ⟨_, _, -, phase⟩ := startPhase_frame _
    rw [phase]
    have bound := magnitude_bound step
    have many := not_or.mp many
    refine ⟨fun ⟨direct, slows⟩ => ⟨many.1, many.2, direct, slows.2⟩,
      fun ⟨_, _, direct, within⟩ => ⟨direct, fun endless => ?_, within⟩⟩
    have most := UInt32.le_iff_toNat_le.mp (le_of_eq_of_le endless.symm within)
    rw [show hmInvalidStep.toNat = 2 ^ 32 - 1 from rfl] at most
    omega

theorem planned_constantSpeed (plan : psrd.planned e = some (p, rcr)) :
    p.lastAccelDelay = psrd.lastAccelDelay ∧
      (p.runState = .rsRun ∧ p.Slows ↔ e.ConstantSpeed psrd.method) := by
  have run (s : StepInfo) (io : Pins) (accel : UInt32) (speed : Int32) :
      (s.runPlan io accel speed).lastAccelDelay = s.lastAccelDelay ∧
        ¬ (s.runPlan io accel speed).Slows := by
    obtain ⟨_, _, enable⟩ := (s.towards speed).enable_frame io
    unfold runPlan planRun resetRun
    dsimp only
    rw [enable]
    obtain ⟨_, _, -, phase⟩ := startPhase_frame _
    rw [phase]
    exact ⟨rfl, fun slows => absurd rfl slows.1⟩
  obtain ⟨io, step, accel, decel, speed, rfl, few, rfl, -⟩ |
    ⟨home, io, accel, speed, event, rfl, -⟩ := planned_cases plan
  · exact movePlan_constantSpeed io step accel decel speed few
  · obtain ⟨last, endless⟩ := run { psrd with bdoHome := home } io accel speed
    have constant : ¬ e.ConstantSpeed psrd.method := by
      obtain ⟨rfl, -⟩ | ⟨rfl, -⟩ | ⟨rfl, -⟩ := event <;> exact id
    exact ⟨last, iff_of_false (fun slow => endless slow.2) constant⟩

end Begin

section Compare
variable {psrd p q a b t u : StepInfo} {e : Event} {rcr : UInt16} {stepCount : UInt32} {n m : Nat}

theorem Alike.delays_eq {last : UInt16} (alike : Alike a b last)
    (stepCount : UInt32) (unread : a.runState = .rsRun → a.Slows → last = a.lastAccelDelay)
    (n : Nat) : delays n b stepCount = delays n a stepCount := by
  obtain ⟨o, decelVal, rfl, fixed⟩ := alike
  rw [delays_generating, delays_residue fixed unread]

theorem motion_congr (method : p.method = q.method)
    (kept : e.ConstantSpeed p.method → p.lastAccelDelay = q.lastAccelDelay) (n : Nat) :
    p.motion e n = q.motion e n := by
  unfold motion
  cases plan : p.planned e with
  | none => rw [planned_none plan]
  | some begins =>
      obtain ⟨a, rcr⟩ := begins
      obtain ⟨b, plan', alike⟩ := planned_alike method plan
      obtain ⟨last, slow⟩ := planned_constantSpeed plan
      have same := alike.delays_eq 1 (fun run slows => (last.trans (kept (slow.mp ⟨run, slows⟩))).symm) n
      rw [plan']
      obtain ⟨o, decelVal, rfl, -⟩ := alike
      simp only [same]
      rfl

theorem delays_run_cons (run : psrd.runState = .rsRun) (more : ¬ psrd.Exhausted stepCount)
    (early : ¬ psrd.DecelDue (psrd.countStep stepCount)) :
    delays (n + 1) psrd stepCount = psrd.minDelay ::
      delays n (psrd.recordDelay psrd.minDelay) (psrd.countStep stepCount) := by
  have step : psrd.nextDelay (psrd.countStep stepCount) = .ok (psrd, psrd.minDelay) := by
    unfold nextDelay runDelay
    rw [run]
    simp only [if_neg early]
  exact delays_succ more step

theorem delays_run (stepCount : UInt32) (m : Nat) (run : psrd.runState = .rsRun) (slows : psrd.Slows)
    (finite : psrd.stepsRequest ≠ hmInvalidStep)
    (left : stepCount.toNat + m < psrd.stepsRequest.toNat)
    (due : psrd.decelStart.toNat ≤ stepCount.toNat + m + 1)
    (first : m = 0 ∨ stepCount.toNat + m + 1 = psrd.decelStart.toNat) :
    delays (m + 1) psrd stepCount =
      List.replicate m psrd.minDelay ++ [psrd.lastAccelDelay] := by
  have more : ¬ psrd.Exhausted stepCount := by
    intro ended
    have le := UInt32.le_iff_toNat_le.mp ended.2
    omega
  have count := toNat_countStep more
  rw [if_neg finite] at count
  induction m generalizing psrd stepCount with
  | zero =>
      have now : psrd.DecelDue (psrd.countStep stepCount) := by
        refine ⟨slows.1, UInt32.le_iff_toNat_le.mpr ?_⟩
        rw [count]
        exact due
      have step : psrd.nextDelay (psrd.countStep stepCount) = .ok
          ({ psrd with accelCount := psrd.decelVal, runState := .rsDecel },
            psrd.lastAccelDelay) := by
        unfold nextDelay runDelay
        rw [run]
        simp only [if_pos now]
      rw [delays_succ more step]
      rfl
  | succ m ih =>
      -- one more step at the constant speed, before the deceleration
      have start : stepCount.toNat + (m + 1) + 1 = psrd.decelStart.toNat :=
        first.resolve_left (Nat.succ_ne_zero m)
      have early : ¬ psrd.DecelDue (psrd.countStep stepCount) := by
        intro now
        have le := UInt32.le_iff_toNat_le.mp now.2
        omega
      have ramp := psrd.recordDelay_rampStep psrd.minDelay
      have still : ¬ (psrd.recordDelay psrd.minDelay).Exhausted (psrd.countStep stepCount) := by
        intro ended
        have le := UInt32.le_iff_toNat_le.mp ended.2
        rw [ramp.stepsRequest] at le
        omega
      have count' := toNat_countStep still
      rw [ramp.stepsRequest, if_neg finite] at count'
      rw [delays_run_cons run more early, ih _ (by rw [recordDelay_runState]; exact run)
        (ramp.slows_iff.mpr slows) (by rw [ramp.stepsRequest]; exact finite)
        (by rw [ramp.stepsRequest]; omega) (by rw [ramp.decelStart]; omega)
        (by rw [ramp.decelStart]; omega) still count', recordDelay_lastAccelDelay,
        ramp.minDelay]
      rfl

theorem planned_request (plan : psrd.planned e = some (p, rcr))
    (slow : e.ConstantSpeed psrd.method) :
    2 ≤ p.stepsRequest.toNat ∧ p.stepsRequest.toNat ≤ 2 ^ 31 := by
  cases e with
  | move io step accel decel speed =>
      obtain ⟨many, some_, -⟩ := slow
      obtain ⟨rfl, -⟩ := Prod.mk.inj
        (Option.some.inj ((if_neg (not_or.mpr ⟨many, some_⟩)).symm.trans plan))
      have prepared := (psrd.towards step).resetMove_prepared (magnitude step) speed
      have request : (psrd.movePlan step accel speed).stepsRequest = (magnitude step).toUInt32 :=
        (planMove_planned (magnitude step) accel speed).stepsRequest.trans prepared.stepsRequest
      have bound := magnitude_bound step
      rw [ne_eq, ← Int32.toInt_inj, Int32.toInt_one] at many
      rw [ne_eq, ← Int32.toInt_inj, Int32.toInt_zero] at some_
      have sign := toInt_cases (magnitude step)
      rw [request]
      omega
  | _ => exact slow.elim

theorem motion_constantSpeed (plan : psrd.planned e = some (p, rcr))
    (slow : e.ConstantSpeed psrd.method) (fills : ∃ t, p.prefill rcr = .ok t) :
    psrd.motion e (p.decelStart.toNat - 2 + 1) = (p.stepDelay - 1, rcr, p.stepDelay / 2) ::
      ((List.replicate (p.decelStart.toNat - 2) p.minDelay).map stepUnit ++
        [stepUnit psrd.lastAccelDelay]) := by
  obtain ⟨last, constant⟩ := planned_constantSpeed plan
  obtain ⟨run, slows⟩ := constant.mpr slow
  obtain ⟨two, bound⟩ := planned_request plan slow
  have finite : p.stepsRequest ≠ hmInvalidStep := by
    intro endless
    rw [endless] at bound
    exact absurd bound (by decide)
  have within := UInt32.le_iff_toNat_le.mp slows.2
  have one : (1 : UInt32).toNat = 1 := rfl
  have list := delays_run 1 (p.decelStart.toNat - 2) run slows finite (by omega)
    (by omega) (by omega)
  -- the delay of the constant speed is among those of the first buffer, which the start checks
  have long : ∀ delay ∈ List.replicate (p.decelStart.toNat - 2) p.minDelay, 2 ≤ delay := by
    intro delay member
    obtain ⟨some_, rfl⟩ := List.mem_replicate.mp member
    obtain ⟨cleared, phase⟩ := planned_ready plan
    apply (prefill_returns_iff cleared phase).mp fills
    have within_first : delays 1 p 1 ⊆ delays (1 + 198) p 1 := delays_subset 198
    apply within_first
    have more : ¬ p.Exhausted 1 := by
      intro ended
      have le := UInt32.le_iff_toNat_le.mp ended.2
      omega
    have count := toNat_countStep more
    rw [if_neg finite] at count
    have early : ¬ p.DecelDue (p.countStep 1) := by
      intro now
      have le := UInt32.le_iff_toNat_le.mp now.2
      omega
    rw [delays_run_cons run more early]
    exact List.mem_cons_self
  have hang (delay : UInt16) : untilHang [delay] = [delay] := by
    unfold untilHang
    split <;> rfl
  unfold motion
  rw [plan]
  simp only
  rw [list, untilHang_append long, hang, List.map_append, last]
  rfl

theorem lastAccelDelay_of_motion (method : p.method = q.method)
    (slow : e.ConstantSpeed p.method) (plan : p.planned e = some (a, rcr))
    (plan' : q.planned e = some (b, rcr)) (fills : ∃ t, a.prefill rcr = .ok t)
    (fills' : ∃ t, b.prefill rcr = .ok t) (same : ∀ n, p.motion e n = q.motion e n) :
    p.lastAccelDelay = q.lastAccelDelay := by
  obtain ⟨b', plan'', alike⟩ := planned_alike method plan
  obtain rfl : b' = b := (Prod.mk.inj (Option.some.inj (plan''.symm.trans plan'))).1
  obtain ⟨o, decelVal, shape, -⟩ := alike
  have start : b'.decelStart = a.decelStart := by rw [shape]; rfl
  have min : b'.minDelay = a.minDelay := by rw [shape]; rfl
  have left := motion_constantSpeed plan slow fills
  have right := motion_constantSpeed plan' (method ▸ slow) fills'
  rw [start, min] at right
  have tails := List.tail_eq_of_cons_eq (left.symm.trans ((same _).trans right))
  exact stepUnit_inj (List.singleton_inj.mp (List.append_cancel_left tails))

end Compare

end StepInfo

end MotionBoard
