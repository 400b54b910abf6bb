import MotionBoard.StepMotor.Ordered

namespace MotionBoard
open Transition

namespace StepInfo

def runPlan (psrd : StepInfo) (io : Pins) (accel : UInt32) (speed : Int32) : StepInfo :=
  ((psrd.towards speed).resetRun io (magnitude speed)).planRun accel (magnitude speed)

def movePlan (psrd : StepInfo) (step : Int32) (accel speed : UInt32) : StepInfo :=
  ((psrd.towards step).resetMove (magnitude step) speed).planMove (magnitude step) accel speed

/-- The speed plan a start arrives at, and the `RCR` value of its first unit. -/
def planned (psrd : StepInfo) : Event → Option (StepInfo × UInt16)
  | .move _ step accel _ speed =>
      if magnitude step = 1 ∨ magnitude step = 0 then none
      else some (psrd.movePlan step accel speed, 0)
  | .startHoming io accel speed => some ({ psrd with bdoHome := true }.runPlan io accel speed, 1)
  | .startFreeRun io accel speed => some ({ psrd with bdoHome := false }.runPlan io accel speed, 1)
  | .startRun io accel speed => some (psrd.runPlan io accel speed, 1)
  | _ => none

inductive Generates (psrd : StepInfo) : Event → StepInfo → Fin hmDmaBufBlockSz → Prop
  | refill : psrd.nextBuf.valid = 0 →
      Generates psrd .halfTransfer
        (psrd.setBuf (psrd.dmaBufIdx + 1) { psrd.nextBuf with dmaBufLen := 0 })
        (psrd.dmaBufIdx + 1)
  | first {e : Event} {p a : StepInfo} {rcr : UInt16} : psrd.starts e →
      psrd.planned e = some (p, rcr) → p.firstUnit rcr = .ok a → Generates psrd e a 0
  | second {e : Event} {p a b : StepInfo} {rcr : UInt16} : psrd.starts e →
      psrd.planned e = some (p, rcr) → p.firstUnit rcr = .ok a → a.hmDmaUpdate 0 = .ok b →
        b.runState ≠ .rsStop → Generates psrd e b 1

/-- While units are still to be generated after `stepCount`, the generator has a phase, and in the
deceleration at most `-accel_count` steps are left. -/
def OnRamp (psrd : StepInfo) (stepCount : UInt32) : Prop :=
  stepCount < psrd.stepsRequest ∨ psrd.stepsRequest = hmInvalidStep →
    (psrd.runState = .rsAccel ∨ psrd.runState = .rsRun ∨ psrd.runState = .rsDecel) ∧
      (psrd.runState = .rsDecel →
        (psrd.stepsRequest.toNat : Int) - stepCount.toNat ≤ -psrd.accelCount.toInt)

section Phase
variable {psrd p t : StepInfo} {e : Event} {rcr : UInt16}

theorem InPhase.onRamp {stepCount : UInt32} (phase : psrd.InPhase stepCount) :
    psrd.OnRamp stepCount := by
  intro more
  unfold InPhase at phase
  by_cases endless : psrd.stepsRequest = hmInvalidStep
  · rw [if_pos endless] at phase
    obtain ⟨accel | run, -⟩ := phase
    · exact ⟨.inl accel, fun decel => by cases accel.symm.trans decel⟩
    · exact ⟨.inr (.inl run), fun decel => by cases run.symm.trans decel⟩
  · rw [if_neg endless] at phase
    have phase := phase (more.resolve_right endless)
    cases state : psrd.runState with
    | rsStop => rw [state] at phase; exact phase.elim
    | rsAccel => exact ⟨.inl rfl, nofun⟩
    | rsRun => exact ⟨.inr (.inl rfl), nofun⟩
    | rsDecel =>
        rw [state] at phase
        refine ⟨.inr (.inr rfl), fun _ => ?_⟩
        have covers := phase.2
        omega

theorem runPlan_ready (io : Pins) (accel : UInt32) (speed : Int32) :
    (psrd.runPlan io accel speed).Cleared ∧ (psrd.runPlan io accel speed).InPhase 1 := by
  have prepared := (psrd.towards speed).resetRun_prepared io (magnitude speed)
  exact ⟨planRun_cleared (resetRun_cleared _ _) _ _, planRun_inPhase prepared.stepsRequest _ _ _⟩

theorem movePlan_ready (step : Int32) (accel speed : UInt32) :
    (psrd.movePlan step accel speed).Cleared ∧ (psrd.movePlan step accel speed).InPhase 1 := by
  have prepared := (psrd.towards step).resetMove_prepared (magnitude step) speed
  exact ⟨planMove_cleared (resetMove_cleared _ _) _ _ _,
    planMove_inPhase (magnitude_bound step) prepared.stepsRequest _ _ _⟩

theorem planned_move (io : Pins) {step : Int32} (accel decel speed : UInt32)
    (many : ¬ (magnitude step = 1 ∨ magnitude step = 0)) :
    psrd.planned (.move io step accel decel speed) = some (psrd.movePlan step accel speed, 0) :=
  if_neg many

theorem planned_cases (plan : psrd.planned e = some (p, rcr)) :
    (∃ io step accel decel speed, e = .move io step accel decel speed ∧
      ¬ (magnitude step = 1 ∨ magnitude step = 0) ∧ p = psrd.movePlan step accel speed ∧ rcr = 0) ∨
    ∃ home io accel speed, (e = .startHoming io accel speed ∧ home = true ∨
        e = .startFreeRun io accel speed ∧ home = false ∨
        e = .startRun io accel speed ∧ home = psrd.bdoHome) ∧
      p = { psrd with bdoHome := home }.runPlan io accel speed ∧ rcr = 1 := by
  cases e with
  | move io step accel decel speed =>
      by_cases few : magnitude step = 1 ∨ magnitude step = 0
      · cases (if_pos few).symm.trans plan
      · obtain ⟨rfl, rfl⟩ := Prod.mk.inj (Option.some.inj ((if_neg few).symm.trans plan))
        exact .inl ⟨io, step, accel, decel, speed, rfl, few, rfl, rfl⟩
  | startHoming io accel speed =>
      obtain ⟨rfl, rfl⟩ := Prod.mk.inj (Option.some.inj plan)
      exact .inr ⟨true, io, accel, speed, .inl ⟨rfl, rfl⟩, rfl, rfl⟩
  | startFreeRun io accel speed =>
      obtain ⟨rfl, rfl⟩ := Prod.mk.inj (Option.some.inj plan)
      exact .inr ⟨false, io, accel, speed, .inr (.inl ⟨rfl, rfl⟩), rfl, rfl⟩
  | startRun io accel speed =>
      obtain ⟨rfl, rfl⟩ := Prod.mk.inj (Option.some.inj plan)
      exact .inr ⟨psrd.bdoHome, io, accel, speed, .inr (.inr ⟨rfl, rfl⟩), rfl, rfl⟩
  | _ => cases plan

theorem planned_ready (plan : psrd.planned e = some (p, rcr)) : p.Cleared ∧ p.InPhase 1 := by
  obtain ⟨-, step, accel, -, speed, -, -, rfl, -⟩ | ⟨_, io, accel, speed, -, rfl, -⟩ :=
    planned_cases plan
  · exact movePlan_ready step accel speed
  · exact runPlan_ready io accel speed

theorem Generates.ready {i : Fin hmDmaBufBlockSz} (generates : psrd.Generates e p i)
    (regular : psrd.Regular) : p.dmaBuf[i].Whole ∧ p.InPhase p.stepsTaken := by
  cases generates with
  | refill empty =>
      refine ⟨?_, regular.phase⟩
      rw [setBuf_get]
      unfold DmaBufInfo.Whole DmaBufInfo.units
      simp
  | first _ plan first =>
      obtain ⟨cleared, phase⟩ := planned_ready plan
      obtain ⟨buf, rfl, whole, -⟩ := firstUnit_ok cleared first
      refine ⟨?_, phase⟩
      rw [show StepInfo.dmaBuf _ = _ from rfl]
      exact (setBuf_get _ 0 buf).symm ▸ whole
  | second _ plan first update _ =>
      obtain ⟨cleared, phase⟩ := planned_ready plan
      obtain ⟨-, -, -, other, -, phase'⟩ := firstBuf_ok cleared first update
      rw [other]
      exact ⟨cleared.whole 1, phase' phase⟩

/-- In every state an axis can be brought into, no event executes a step in the phase `rsSTOP`, and
at every pass of every call of `hm_dma_update` the ramp lasts for the steps still to be generated. -/
theorem generator_in_phase {idx : Fin hmMaxAxis} {es : List Event}
    (run : Run Step (hmStepMotorInit idx) es psrd) :
    psrd.OnRamp psrd.stepsTaken ∧ (∀ e, psrd.exec e ≠ .error .noPhase) ∧
    ∀ e p i, psrd.Generates e p i → ∀ n ≤ p.dmaBuf[i].passes, ∀ r buf stepCount,
      fillLoop n p p.dmaBuf[i] p.stepsTaken = .ok (r, buf, stepCount) → r.OnRamp stepCount := by
  have regular := reachable_regular run
  refine ⟨regular.phase.onRamp, fun e action => ?_,
    fun e p i generates n le r buf stepCount loop => ?_⟩
  · obtain badDelay | ⟨nextInvalid, -⟩ := regular.failure action
    · cases badDelay
    · cases nextInvalid
  · obtain ⟨whole, phase⟩ := generates.ready regular
    have room := fill_room whole
    exact ((fillLoop_filled n whole (by omega) loop).phase phase).onRamp

theorem generator_in_phase_stopping : ∃ psrd,
    Run Step (hmStepMotorInit 0) [.startFreeRun .clear 1000 1000, .stopSmooth] psrd ∧
    psrd.stepsTaken < psrd.stepsRequest ∧ psrd.runState = .rsDecel ∧
    psrd.OnRamp psrd.stepsTaken ∧ psrd.exec .halfTransfer ≠ .error .noPhase := by
  obtain ⟨psrd, run, test⟩ := computes_fires.run_any
    (show ([Event.startFreeRun .clear 1000 1000, .stopSmooth].foldlM (playFires exec)
      (hmStepMotorInit 0)).any
        (fun psrd => decide (psrd.stepsTaken < psrd.stepsRequest ∧ psrd.runState = .rsDecel)) by
      decide +kernel)
  obtain ⟨pending, decel⟩ := of_decide_eq_true test
  obtain ⟨ramp, fine, -⟩ := generator_in_phase run
  exact ⟨psrd, run, pending, decel, ramp, fine .halfTransfer⟩

end Phase

end StepInfo

end MotionBoard
