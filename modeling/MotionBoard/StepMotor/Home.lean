import MotionBoard.StepMotor.Delays
import MotionBoard.StepMotor.Regular

namespace MotionBoard
open Transition

namespace StepInfo

def HomeClear (psrd : StepInfo) : Event → Prop
  | .startHoming io accel speed =>
      psrd.axisState = .asStoped → psrd.starts (.startHoming io accel speed)
  | _ => True

instance (psrd : StepInfo) : (e : Event) → Decidable (psrd.HomeClear e)
  | .startHoming io accel speed => inferInstanceAs (Decidable
      (psrd.axisState = .asStoped → psrd.starts (.startHoming io accel speed)))
  | .burst | .halfTransfer | .transferComplete | .move .. | .startFreeRun .. | .startRun ..
  | .stopSmooth | .stopSundden | .limitCheck _ | .externIrq .. | .setCurPos _
  | .setHomeStopMode _ | .setStopMode .. | .setAxisCurve _ | .enableAxis _ => isTrue trivial

abbrev ClearStep : StepInfo → Event → StepInfo → Prop := Guarded HomeClear Step

def playClear : StepInfo → Event → Option StepInfo := playGuarded HomeClear (playFires exec)

theorem computes_clear : Computes playClear ClearStep := computes_fires.guarded HomeClear

def TravelFree (io : Pins) (step : Int32) : Prop :=
  if step < 0 then hmMotorHitCCW io = false else hmMotorHitCW io = false

def MoveStarts (psrd : StepInfo) (io : Pins) (step : Int32) (accel decel speed : UInt32) : Prop :=
  ∃ t, psrd.hmStepMotorMove io step accel decel speed = .ok (true, t) ∧
    t.axisState = .asRuning ∧ t.stepsRequest.toNat = step.toInt.natAbs

def Plannable (psrd : StepInfo) (step : Int32) (accel speed : UInt32) : Prop :=
  ((psrd.towards step).resetMove (magnitude step) speed).MovePlan (magnitude step) accel speed

instance (psrd : StepInfo) (step : Int32) (accel speed : UInt32) :
    Decidable (psrd.Plannable step accel speed) := by
  unfold Plannable
  infer_instance

structure Unhomed (psrd : StepInfo) : Prop where
  regular : psrd.Regular
  home : psrd.axisState = .asStoped → psrd.bdoHome = false

section Unhomed
variable {psrd s t : StepInfo} {e : Event}

theorem Unhomed.complete (unhomed : psrd.Unhomed) (check : psrd.hmDmaCk = .ok t) : t.Unhomed := by
  refine ⟨unhomed.regular.complete check, fun stopped => ?_⟩
  rw [hmDmaCk_eq] at check
  split at check
  · split at check
    · cases check
    · obtain rfl := Except.ok.inj check
      exact unhomed.home stopped
  · obtain rfl := Except.ok.inj check
    rfl

theorem Unhomed.step (unhomed : psrd.Unhomed) (action : ClearStep psrd e t) : t.Unhomed := by
  obtain ⟨clear, action⟩ := action
  refine ⟨unhomed.regular.step action, fun stopped => ?_⟩
  cases exec_effect action with
  | pulse =>
      obtain ⟨tim, motor, pdma, same, -⟩ := psrd.burst_frame
      rw [same] at stopped ⊢
      exact unhomed.home stopped
  | refill fill =>
      obtain ⟨r, taken, n, buf, rfl⟩ := (hmDmaFillNextBuf_ok unhomed.regular.whole fill).frame
      exact unhomed.home stopped
  | complete check => exact (unhomed.complete check).home stopped
  | launch _ _ _ launched => cases launched.axisState.symm.trans stopped
  | @smooth _ s₀ accepted tuned =>
      obtain ⟨_, _, _, _, _, _, _, same⟩ := s₀.stopSmooth_frame
      rw [same] at stopped
      exact absurd stopped (tuned.accepted accepted).1
  | sudden => rfl
  | place => exact unhomed.home stopped
  | tune _ inert tuned home =>
      have rest := tuned.axisState.symm.trans stopped
      rw [home]
      cases e with
      | startHoming io accel speed =>
          have starts := clear rest
          simp [acts, starts] at inert
      | startFreeRun => rfl
      | _ => exact unhomed.home rest

theorem unhomed_init (idx : Fin hmMaxAxis) : (hmStepMotorInit idx).Unhomed :=
  ⟨regular_init idx, fun _ => rfl⟩

theorem reachable_unhomed {idx : Fin hmMaxAxis} {es : List Event}
    (run : Run ClearStep (hmStepMotorInit idx) es t) : t.Unhomed :=
  run.invariant Unhomed (unhomed_init idx) fun _ _ _ unhomed action => unhomed.step action

end Unhomed

section Moves
variable {psrd s t : StepInfo} {io : Pins} {step : Int32} {accel decel speed : UInt32}

theorem not_blocked_iff (home : psrd.bdoHome = false) :
    ¬ (psrd.towards step).blocked io ↔ TravelFree io step := by
  unfold blocked TravelFree towards
  by_cases negative : step < 0
  · simp [negative, home]
  · simp [negative, home]

theorem moveStarts_iff (stopped : psrd.axisState = .asStoped)
    (free : ¬ (psrd.towards step).blocked io) :
    psrd.MoveStarts io step accel decel speed ↔ psrd.Plannable step accel speed := by
  unfold MoveStarts Plannable
  rw [← hmStepMotorMove_starts_iff decel stopped free]
  simp only [← toNat_magnitude, UInt32.toNat_inj]

theorem Step.homing_left {e : Event} (kept : ¬ psrd.HomeClear e) (action : Step psrd e t) :
    t.axisState = .asStoped ∧ t.bdoHome := by
  cases e with
  | startHoming io accel speed =>
      obtain ⟨stopped, refused⟩ := Classical.not_imp.mp kept
      cases exec_effect action with
      | launch starts => exact absurd starts refused
      | smooth stops => cases stops
      | sudden stops => cases stops
      | tune _ _ tuned home => exact ⟨tuned.axisState.trans stopped, home⟩
  | _ => exact absurd trivial kept

/-- While every homing of a stopped axis starts, a stopped axis is not homing, and a move starts
unless its limit switch or a delay that is too short keeps it from that. A homing that does not
start ends this at once. -/
theorem hmStepMotorMove_starts {idx : Fin hmMaxAxis} {es : List Event}
    (run : Run ClearStep (hmStepMotorInit idx) es s) :
    (s.axisState = .asStoped → s.bdoHome = false ∧
      ∀ io step accel decel speed, TravelFree io step →
        (s.MoveStarts io step accel decel speed ↔ s.Plannable step accel speed)) ∧
    ∀ e t, ¬ s.HomeClear e → Step s e t → t.axisState = .asStoped ∧ t.bdoHome := by
  have unhomed := reachable_unhomed run
  refine ⟨fun stopped => ?_, fun e t kept action => Step.homing_left kept action⟩
  have home := unhomed.home stopped
  exact ⟨home, fun io step accel decel speed free =>
    moveStarts_iff stopped ((not_blocked_iff home).mpr free)⟩

theorem hmStepMotorMove_starts_stopped_homing : ∃ s,
    Run ClearStep (hmStepMotorInit 0) [.startHoming .clear 1000 1000, .stopSundden] s ∧
    (s.axisState = .asStoped → s.bdoHome = false ∧
      ∀ io step accel decel speed, TravelFree io step →
        (s.MoveStarts io step accel decel speed ↔ s.Plannable step accel speed)) ∧
    ∀ e t, ¬ s.HomeClear e → Step s e t → t.axisState = .asStoped ∧ t.bdoHome := by
  obtain ⟨s, run⟩ := computes_clear.run (hmStepMotorInit 0)
    [.startHoming .clear 1000 1000, .stopSundden] (by decide +kernel)
  exact ⟨s, run, hmStepMotorMove_starts run⟩

theorem hmStepMotorMove_blocked_by_homing : ∃ s t,
    Run Step (hmStepMotorInit 0) [.startHoming .atHome 1000 1000] s ∧
    s.axisState = .asStoped ∧ s.bdoHome ∧ TravelFree .atHome 10 ∧ s.Plannable 10 1000 1000 ∧
    s.hmStepMotorMove .atHome 10 1000 0 1000 = .ok (true, t) ∧ t.axisState = .asStoped := by
  obtain ⟨s, run, test⟩ := computes_fires.run_any
    (show ([Event.startHoming .atHome 1000 1000].foldlM (playFires exec) (hmStepMotorInit 0)).any
      (fun s => decide (s.axisState = .asStoped ∧ s.bdoHome ∧ s.Plannable 10 1000 1000) &&
        (s.hmStepMotorMove .atHome 10 1000 0 1000).toOption.any fun result =>
          decide (result.1 ∧ result.2.axisState = .asStoped)) by
      decide +kernel)
  obtain ⟨before, test⟩ := Bool.and_eq_true_iff.mp test
  obtain ⟨stopped, home, plan⟩ := of_decide_eq_true before
  obtain ⟨⟨answer, t⟩, move, test⟩ := ok_of_any test
  obtain ⟨rfl, still⟩ := of_decide_eq_true test
  exact ⟨s, t, run, stopped, home, rfl, plan, move, still⟩

end Moves

end StepInfo

end MotionBoard
