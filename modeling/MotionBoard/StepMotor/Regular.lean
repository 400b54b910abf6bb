import MotionBoard.StepMotor.Effect

namespace MotionBoard
open Transition TwoBuffer

namespace StepInfo

structure Regular (psrd : StepInfo) : Prop where
  whole : psrd.Whole
  settled : psrd.axisState ≠ .asPreparing
  phase : psrd.InPhase psrd.stepsTaken
  armed : psrd.running → psrd.pdma.cmar = psrd.dmaBufIdx
  going : psrd.running → psrd.feed.Going hmDmaBufSize psrd.bstopping

section Regular
variable {psrd t : StepInfo}

theorem running_iff : psrd.running ↔ psrd.axisState = .asRuning := by
  simp [running]

theorem Regular.stopped_iff (regular : psrd.Regular) :
    psrd.axisState = .asStoped ↔ ¬ psrd.running := by
  rw [running_iff]
  have := regular.settled
  cases state : psrd.axisState <;> simp_all

theorem Regular.noWrap (regular : psrd.Regular) (running : psrd.running) : psrd.NoWrap := by
  intro o member
  have bound := (regular.going running).played_le member
  have small : o.request < 2 ^ 32 := by
    change psrd.order = some o at member
    unfold order at member
    split at member
    · cases member
    · obtain rfl := Option.some.inj member
      exact psrd.stepsRequest.toNat_lt
  simp only [hmDmaBufSize] at bound
  omega

theorem Tuned.regular (tuned : psrd.Tuned t) (regular : psrd.Regular) : t.Regular := by
  obtain ⟨_, _, _, _, _, _, rfl, -⟩ := tuned
  exact { regular with }

theorem burst_frame (psrd : StepInfo) : ∃ tim motor, ∃ pdma : DmaChannel,
    psrd.burst = { psrd with ptim := tim, pdma := pdma, motor := motor } ∧
      pdma.cmar = psrd.pdma.cmar ∧ pdma.handed = psrd.pdma.handed ∧
      pdma.enabled = psrd.pdma.enabled ∧ tim.enabled = psrd.ptim.enabled := by
  unfold burst
  split
  · exact ⟨_, _, _, rfl, rfl, rfl, rfl, rfl⟩
  · exact ⟨_, _, _, rfl, rfl, rfl, rfl, rfl⟩

theorem Regular.burst (regular : psrd.Regular) : psrd.burst.Regular := by
  obtain ⟨tim, motor, pdma, same, cmar, -⟩ := psrd.burst_frame
  rw [same]
  exact { regular with armed := fun running => cmar.trans (regular.armed running) }

theorem Regular.refill (regular : psrd.Regular) (fill : psrd.hmDmaFillNextBuf = .ok t) :
    t.Regular := by
  have filled := hmDmaFillNextBuf_ok regular.whole fill
  have phase := filled.phase regular.phase
  have feed := filled.feed
  obtain ⟨r, taken, n, buf, rfl⟩ := filled.frame
  refine ⟨filled.whole, regular.settled, phase, regular.armed, fun running => ?_⟩
  rw [feed]
  split
  · rename_i empty
    exact (regular.going running).fill (feed_next_eq_none.mpr empty)
  · exact regular.going running

theorem Whole.completed (whole : psrd.Whole) :
    (psrd.setBuf psrd.dmaBufIdx { psrd.curBuf with valid := 0 }).Whole :=
  whole.setBuf (whole psrd.dmaBufIdx)

theorem Regular.switched (regular : psrd.Regular)
    (going : psrd.running → psrd.feed.More ∧ psrd.nextBuf.valid ≠ 0) :
    psrd.switched.Regular where
  whole := regular.whole.completed
  settled := regular.settled
  phase := regular.phase
  armed _ := rfl
  going running := by
    obtain ⟨more, valid⟩ := going running
    rw [switched_feed (regular.noWrap running)]
    exact (regular.going running).advance more (feed_next_of_valid valid)

theorem not_running_of_stopped (stopped : psrd.axisState = .asStoped) : ¬ psrd.running := by
  rw [running_iff, stopped]
  decide

theorem Regular.finished (regular : psrd.Regular) : psrd.finished.Regular where
  whole := regular.whole.completed
  settled := by simp [StepInfo.finished]
  phase := regular.phase
  armed running := absurd running (not_running_of_stopped rfl)
  going running := absurd running (not_running_of_stopped rfl)

theorem Regular.complete (regular : psrd.Regular) (check : psrd.hmDmaCk = .ok t) :
    t.Regular := by
  by_cases running : psrd.running
  · rcases hmDmaCk_ok (regular.noWrap running) check with ⟨more, valid, rfl⟩ | ⟨-, rfl⟩
    · exact regular.switched fun _ => ⟨more, valid⟩
    · exact regular.finished
  · rw [hmDmaCk_eq] at check
    split at check
    · split at check
      · cases check
      · obtain rfl := Except.ok.inj check
        exact regular.switched fun going => absurd going running
    · obtain rfl := Except.ok.inj check
      exact regular.finished

theorem Launched.regular {request : UInt32} {home : Bool} (launched : Launched psrd request home t) :
    t.Regular where
  whole := launched.whole
  settled := by rw [launched.axisState]; decide
  phase := launched.phase
  armed _ := by rw [launched.pdma]
  going _ := by
    rw [show t.bstopping = false from launched.prepared.bstopping]
    exact launched.fair

theorem stopSmooth_accepted (running : psrd.axisState ≠ .asStoped) (first : psrd.bstopping = false) :
    psrd.hmStepMotorStopSmooth =
      { psrd with
        bstopping := true, rest := 0, stepsRequest := 100, stepsTaken := 0, stepsActual := 0
        runState := .rsDecel, accelCount := -100 } := by
  unfold hmStepMotorStopSmooth
  rw [if_neg]
  rw [not_or, ← ne_eq, hmStepMotorState_ne]
  exact ⟨running, by simp [first]⟩

theorem stopSmooth_feed (running : psrd.axisState ≠ .asStoped) (first : psrd.bstopping = false) :
    psrd.hmStepMotorStopSmooth.feed = psrd.feed.reorder hmDmaBufSize := by
  rw [stopSmooth_accepted running first]
  rfl

theorem stopSmooth_frame (psrd : StepInfo) :
    ∃ stopping rest request taken actual state count, psrd.hmStepMotorStopSmooth =
      { psrd with
        bstopping := stopping, rest := rest, stepsRequest := request, stepsTaken := taken
        stepsActual := actual, runState := state, accelCount := count } := by
  unfold hmStepMotorStopSmooth
  split
  · exact ⟨psrd.bstopping, psrd.rest, psrd.stepsRequest, psrd.stepsTaken, psrd.stepsActual,
      psrd.runState, psrd.accelCount, rfl⟩
  · exact ⟨_, _, _, _, _, _, _, rfl⟩

theorem stopSmooth_nextBuf (psrd : StepInfo) :
    psrd.hmStepMotorStopSmooth.nextBuf = psrd.nextBuf := by
  obtain ⟨_, _, _, _, _, _, _, same⟩ := psrd.stopSmooth_frame
  rw [same]
  rfl

theorem stopSmooth_dmaBuf (psrd : StepInfo) :
    psrd.hmStepMotorStopSmooth.dmaBuf = psrd.dmaBuf := by
  obtain ⟨_, _, _, _, _, _, _, same⟩ := psrd.stopSmooth_frame
  rw [same]

theorem Regular.stopSmooth (regular : psrd.Regular) (running : psrd.axisState ≠ .asStoped)
    (first : psrd.bstopping = false) : psrd.hmStepMotorStopSmooth.Regular := by
  have feed := stopSmooth_feed running first
  rw [stopSmooth_accepted running first] at feed ⊢
  refine ⟨regular.whole, regular.settled, ?_, regular.armed, fun going => ?_⟩
  · have finite : ¬ (100 : UInt32) = hmInvalidStep := by decide
    have enough : (-100 : Int32).toInt < 0 ∧
        ((100 : UInt32).toNat : Int) ≤ (0 : UInt32).toNat - (-100 : Int32).toInt := by decide
    unfold InPhase
    rw [if_neg finite]
    exact fun _ => enough
  · rw [feed]
    refine Feed.Going.reorder ?_
    rw [← first]
    exact regular.going going

theorem stopSundden_frame (psrd : StepInfo) : ∃ pos, psrd.hmStepMotorStopSundden =
    { psrd with
      pos := pos, bstopping := false, bdoHome := false, axisState := .asStoped
      pdma := (psrd.hmDmaSetup false).pdma, ptim.enabled := false, motor.led := false } := ⟨_, rfl⟩

theorem Regular.stopSundden (regular : psrd.Regular) : psrd.hmStepMotorStopSundden.Regular := by
  obtain ⟨pos, same⟩ := psrd.stopSundden_frame
  have stopped : psrd.hmStepMotorStopSundden.axisState = .asStoped := by rw [same]
  refine ⟨?_, ?_, ?_, fun running => absurd running (not_running_of_stopped stopped),
    fun running => absurd running (not_running_of_stopped stopped)⟩
  · rw [same]
    exact regular.whole
  · rw [stopped]
    decide
  · rw [same]
    exact regular.phase

theorem Effect.regular {e : Event} (effect : Effect psrd e t) (regular : psrd.Regular) :
    t.Regular := by
  cases effect with
  | pulse => exact regular.burst
  | refill fill => exact { regular.refill fill with }
  | complete check => exact { regular.complete check with }
  | launch _ _ _ launched => exact launched.regular
  | smooth accepted tuned =>
      have accepted := tuned.accepted accepted
      exact (tuned.regular regular).stopSmooth accepted.1 accepted.2
  | sudden _ tuned _ => exact (tuned.regular regular).stopSundden
  | place => exact { regular with }
  | tune _ _ tuned _ => exact tuned.regular regular

structure SameMotion (psrd t : StepInfo) : Prop where
  feed : t.feed = psrd.feed
  axisState : t.axisState = psrd.axisState
  bstopping : t.bstopping = psrd.bstopping
  curBuf : t.curBuf = psrd.curBuf
  nextBuf : t.nextBuf = psrd.nextBuf

theorem Effect.sameMotion {e : Event} (effect : Effect psrd e t) (half : e ≠ .halfTransfer)
    (complete : e ≠ .transferComplete) (inert : !psrd.acts e) : SameMotion psrd t := by
  cases effect with
  | pulse =>
      obtain ⟨tim, motor, pdma, same, -⟩ := psrd.burst_frame
      rw [same]
      exact ⟨rfl, rfl, rfl, rfl, rfl⟩
  | refill => exact absurd rfl half
  | complete => exact absurd rfl complete
  | launch starts => simp [acts, starts] at inert
  | smooth stops => simp [acts, stops] at inert
  | sudden stops => simp [acts, stops] at inert
  | place => exact ⟨rfl, rfl, rfl, rfl, rfl⟩
  | tune _ _ tuned =>
      obtain ⟨_, _, _, _, _, _, rfl, -⟩ := tuned
      exact ⟨rfl, rfl, rfl, rfl, rfl⟩

inductive FeedMove (psrd : StepInfo) : Event → StepInfo → Prop
  | refill {t : StepInfo} : t.axisState = psrd.axisState → t.bstopping = psrd.bstopping →
      t.feed = (if psrd.nextBuf.valid = 0 then psrd.feed.fill hmDmaBufSize else psrd.feed) →
        FeedMove psrd .halfTransfer t
  | advance {t : StepInfo} : t.axisState = psrd.axisState → t.bstopping = psrd.bstopping →
      psrd.feed.More → psrd.nextBuf.valid ≠ 0 →
        t.feed = psrd.feed.advance psrd.nextBuf.units → FeedMove psrd .transferComplete t
  | finish {t : StepInfo} : ¬ psrd.feed.More → t.axisState = .asStoped →
      FeedMove psrd .transferComplete t
  | same {e : Event} {t : StepInfo} : e ≠ .halfTransfer → e ≠ .transferComplete →
      SameMotion psrd t → FeedMove psrd e t

theorem Regular.feedMove {e : Event} (regular : psrd.Regular) (running : psrd.running)
    (inert : !psrd.acts e) (action : psrd.exec e = .ok t) : FeedMove psrd e t := by
  by_cases half : e = .halfTransfer
  · subst half
    obtain ⟨v, fill, rfl⟩ := Except.ok_of_map action
    have filled := hmDmaFillNextBuf_ok regular.whole fill
    have feed := filled.feed
    obtain ⟨r, taken, n, buf, rfl⟩ := filled.frame
    exact .refill rfl rfl feed
  by_cases complete : e = .transferComplete
  · subst complete
    obtain ⟨v, check, rfl⟩ := Except.ok_of_map action
    have room := regular.noWrap running
    rcases hmDmaCk_ok room check with ⟨more, valid, rfl⟩ | ⟨last, rfl⟩
    · exact .advance rfl rfl more valid (switched_feed room)
    · exact .finish last rfl
  · exact .same half complete ((exec_effect action).sameMotion half complete inert)

theorem Regular.step {e : Event} (regular : psrd.Regular) (action : Step psrd e t) : t.Regular :=
  (exec_effect action).regular regular

theorem regular_init (idx : Fin hmMaxAxis) : (hmStepMotorInit idx).Regular where
  whole i := by
    unfold DmaBufInfo.Whole DmaBufInfo.units
    simp [hmStepMotorInit]
  settled := by simp [hmStepMotorInit]
  phase := by
    have finite : ¬ (0 : UInt32) = hmInvalidStep := by decide
    simp [InPhase, hmStepMotorInit, finite]
  armed running := absurd running (not_running_of_stopped rfl)
  going running := absurd running (not_running_of_stopped rfl)

theorem reachable_regular {idx : Fin hmMaxAxis} {es : List Event}
    (run : Run Step (hmStepMotorInit idx) es t) : t.Regular :=
  run.invariant Regular (regular_init idx) fun _ _ _ regular action => regular.step action

end Regular

end StepInfo

end MotionBoard
