import MotionBoard.StepMotor.History
import MotionBoard.StepMotor.LimitStop

namespace MotionBoard

def HwConfig.wiring (phw : HwConfig) : (IrqHandler × IrqHandler × IrqHandler) × Vector UInt32 3 :=
  ((phw.irpFunCW, phw.irpFunCCW, phw.irpFunHome),
    #v[phw.extLineCW, phw.extLineCCW, phw.extLineHome])

namespace StepInfo

structure Wired (idx : Fin hmMaxAxis) (psrd : StepInfo) : Prop where
  wiring : psrd.motorHwConfig.wiring = (hmMotorHwLimitConfig idx).wiring
  ena : psrd.motor.enaPin = !psrd.motorHwConfig.benabled

section Wired
variable {idx : Fin hmMaxAxis} {psrd p q t : StepInfo} {e : Event} {io : Pins}

theorem wired_init (idx : Fin hmMaxAxis) : (MotionBoard.hmStepMotorInit idx).Wired idx :=
  ⟨rfl, rfl⟩

theorem Wired.enable (wired : psrd.Wired idx) (benable : Bool) :
    (psrd.hmMotorEnableAxis benable).Wired idx := by
  unfold hmMotorEnableAxis
  split
  · exact ⟨wired.wiring, rfl⟩
  · split
    · exact ⟨wired.wiring, rfl⟩
    · exact wired

theorem Wired.markLastHitHome (wired : psrd.Wired idx) (io : Pins) :
    (psrd.markLastHitHome io).Wired idx := by
  unfold StepInfo.markLastHitHome
  split
  · exact ⟨wired.wiring, wired.ena⟩
  · exact wired

theorem Wired.stopSmooth (wired : psrd.Wired idx) : psrd.hmStepMotorStopSmooth.Wired idx := by
  obtain ⟨_, _, _, _, _, _, _, same⟩ := psrd.stopSmooth_frame
  rw [same]
  exact ⟨wired.wiring, wired.ena⟩

theorem Wired.limitStop (wired : psrd.Wired idx) : psrd.limitStop.Wired idx := by
  unfold StepInfo.limitStop
  split
  · exact ⟨wired.wiring, wired.ena⟩
  · exact wired.stopSmooth

theorem Wired.launch (wired : p.Wired idx) (ready : Ready p q) : q.launch.Wired idx := by
  obtain ⟨psc, launch⟩ := q.launch_frame
  obtain ⟨_, _, _, _, _, _, _, _, rfl⟩ := ready.planned
  rw [launch]
  exact ⟨wired.wiring, wired.ena⟩

theorem Wired.resetMove (wired : psrd.Wired idx) (step : Int32) (speed : UInt32) :
    (psrd.resetMove step speed).Wired idx :=
  ⟨(wired.enable true).wiring, (wired.enable true).ena⟩

theorem Wired.resetRun (wired : psrd.Wired idx) (io : Pins) (speed : Int32) :
    (psrd.resetRun io speed).Wired idx := by
  have preparing : (psrd.hmMarkAxisState .asPreparing).Wired idx := ⟨wired.wiring, wired.ena⟩
  have enabled := (preparing.markLastHitHome io).enable true
  exact ⟨enabled.wiring, enabled.ena⟩

theorem Wired.guardedStart {amount : Int32} {bufs : Except Halt StepInfo} {answer : Bool}
    (wired : psrd.Wired idx) (action : psrd.guardedStart amount io bufs = .ok (answer, t))
    (fills : ∀ q, bufs = .ok q → q.launch.Wired idx) : t.Wired idx := by
  unfold StepInfo.guardedStart at action
  split at action
  · obtain ⟨-, rfl⟩ := Prod.mk.inj (Except.ok.inj action)
    exact wired
  · split at action
    · obtain ⟨-, rfl⟩ := Prod.mk.inj (Except.ok.inj action)
      exact ⟨wired.wiring, wired.ena⟩
    · obtain ⟨q, fill, result⟩ := Except.ok_of_map action
      obtain ⟨-, rfl⟩ := Prod.mk.inj result
      exact fills q fill

theorem Wired.move {step : Int32} {accel decel speed : UInt32} {answer : Bool}
    (wired : psrd.Wired idx)
    (action : psrd.hmStepMotorMove io step accel decel speed = .ok (answer, t)) :
    t.Wired idx := by
  have turned : (psrd.towards step).Wired idx := ⟨wired.wiring, wired.ena⟩
  rw [hmStepMotorMove_guarded] at action
  apply wired.guardedStart action
  intro q fill
  exact (turned.resetMove _ speed).launch (moveBufs_ready fill)

theorem Wired.startRun {accel : UInt32} {speed : Int32} {answer : Bool} (wired : psrd.Wired idx)
    (action : psrd.hmStepMotorStartRun io accel speed = .ok (answer, t)) : t.Wired idx := by
  have turned : (psrd.towards speed).Wired idx := ⟨wired.wiring, wired.ena⟩
  rw [hmStepMotorStartRun_guarded] at action
  apply wired.guardedStart action
  intro q fill
  exact (turned.resetRun io (magnitude speed)).launch (runBufs_ready fill)

theorem Wired.complete (wired : psrd.Wired idx) (check : psrd.hmDmaCk = .ok t) : t.Wired idx := by
  rw [hmDmaCk_eq] at check
  split at check
  · split at check
    · cases check
    · obtain rfl := Except.ok.inj check
      exact ⟨wired.wiring, wired.ena⟩
  · obtain rfl := Except.ok.inj check
    exact ⟨wired.wiring, wired.ena⟩

theorem Wired.step (wired : psrd.Wired idx) (regular : psrd.Regular)
    (action : psrd.exec e = .ok t) : t.Wired idx := by
  cases e with
  | burst =>
      obtain rfl := Except.ok.inj action
      unfold StepInfo.burst
      split
      · exact ⟨wired.wiring, wired.ena⟩
      · exact wired
  | halfTransfer =>
      obtain ⟨u, fill, rfl⟩ := Except.ok_of_map action
      obtain ⟨_, _, _, _, rfl⟩ := (hmDmaFillNextBuf_ok regular.whole fill).frame
      exact ⟨wired.wiring, wired.ena⟩
  | transferComplete =>
      obtain ⟨u, check, rfl⟩ := Except.ok_of_map action
      have kept := wired.complete check
      exact ⟨kept.wiring, kept.ena⟩
  | move io step accel decel speed =>
      obtain ⟨answer, result⟩ := map_snd_ok action
      exact wired.move result
  | startHoming io accel speed =>
      obtain ⟨answer, result⟩ := map_snd_ok action
      have marked : { psrd with bdoHome := true }.Wired idx := ⟨wired.wiring, wired.ena⟩
      exact marked.startRun result
  | startFreeRun io accel speed =>
      obtain ⟨answer, result⟩ := map_snd_ok action
      have marked : { psrd with bdoHome := false }.Wired idx := ⟨wired.wiring, wired.ena⟩
      exact marked.startRun result
  | startRun io accel speed =>
      obtain ⟨answer, result⟩ := map_snd_ok action
      exact wired.startRun result
  | stopSmooth =>
      obtain rfl := Except.ok.inj action
      exact wired.stopSmooth
  | stopSundden | setCurPos | setHomeStopMode | setStopMode =>
      obtain rfl := Except.ok.inj action
      exact ⟨wired.wiring, wired.ena⟩
  | setAxisCurve e =>
      obtain rfl := Except.ok.inj action
      unfold hmStepMotorSetAxisCurve
      split
      · exact wired
      · exact ⟨wired.wiring, wired.ena⟩
  | limitCheck io =>
      obtain rfl := Except.ok.inj action
      unfold hmMotorLimitLogicalCheck
      dsimp only
      split
      · exact wired
      · split
        · exact (wired.markLastHitHome io).limitStop
        · exact wired.markLastHitHome io
  | externIrq func extline io =>
      obtain rfl := Except.ok.inj action
      unfold StepInfo.handlerExternIrq
      split
      · exact wired.limitStop
      · exact wired
  | enableAxis benable =>
      obtain rfl := Except.ok.inj action
      exact wired.enable benable

end Wired

end StepInfo

end MotionBoard
