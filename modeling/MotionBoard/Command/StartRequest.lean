import MotionBoard.Command.Firmware
import MotionBoard.StepMotor.StartUp

namespace MotionBoard
open StepInfo Bytes

/-- The start-up arithmetic of a start that a request comes down to is exact, and what it stores is
what it computes, exactly when the acceleration is at least 213, or one for a speed of at most 15,
the speed is not zero and is reached within `2 ^ 32` steps, and it is not, for an S curve, the one
that is its own negative. -/
theorem request_start_exact_iff (psrd : StepInfo) (inputs : Inputs) (preq : HmCmdReq)
    (idx : Fin hmMaxAxis) :
    ∀ e, .event e ∈ preq.calls inputs psrd.setting idx →
      ∀ p rcr accel speed, psrd.planned e = some (p, rcr) → e.asks = some (accel, speed) →
        (p.StartExact accel speed ↔ accel ≠ 0 ∧ speed ≠ 0 ∧ (speed ≤ 15 ∨ 213 ≤ accel.toNat) ∧
          Reached psrd.method speed accel ∧ (psrd.method = .sCurve → ¬ e.unsized)) :=
  fun _ _ _ _ _ _ plan asks => start_exact_iff plan asks

def hundredSteps (accel speed : UInt32) : HmCmdReq :=
  ⟨putWord (putWord (putWord (Vector.replicate hmCmdMaxInputSize 0) 4 100) 8 accel) 16 speed,
    20, 0, 0, hmCmdMark1, hmCmdMark2, hmCmdOwerClient⟩

theorem hundredSteps_calls : (hundredSteps 1000 1000).calls .clear (hmStepMotorInit 0).setting 0 =
    [.event (.move .clear 100 1000 0 1000)] := by
  decide +kernel

theorem hundredSteps_exact : ∃ p, (hmStepMotorInit 0).planned (.move .clear 100 1000 0 1000) =
    some (p, 0) ∧ p.StartExact 1000 1000 := by
  have reached : 1000 / 2 * 1000 < 2 ^ 32 * UInt32.toNat 1000 := by decide
  have made : .event (.move .clear 100 1000 0 1000) ∈
      (hundredSteps 1000 1000).calls .clear (hmStepMotorInit 0).setting 0 := by
    rw [hundredSteps_calls]
    exact List.mem_cons_self
  exact ⟨_, rfl, (request_start_exact_iff (hmStepMotorInit 0) .clear (hundredSteps 1000 1000) 0 _
    made _ _ 1000 1000 rfl rfl).mpr ⟨by decide, by decide, by decide, reached, nofun⟩⟩

theorem slowStart_wraps : ∃ p,
    .event (.move .clear 100 100 0 1000) ∈
      (hundredSteps 100 1000).calls .clear (hmStepMotorInit 0).setting 0 ∧
    (hmStepMotorInit 0).planned (.move .clear 100 100 0 1000) = some (p, 0) ∧
    exactFirstDelay p.hmStepFre.toNat 100 = 95586 ∧ p.stepDelay = 30050 ∧
    ¬ p.StartExact 100 1000 := by
  have made : (hundredSteps 100 1000).calls .clear (hmStepMotorInit 0).setting 0 =
      [.event (.move .clear 100 100 0 1000)] := by
    decide +kernel
  have first : exactFirstDelay
      ((hmStepMotorInit 0).movePlan 100 100 1000).hmStepFre.toNat 100 = 95586 := by
    decide +kernel
  refine ⟨_, by rw [made]; exact List.mem_cons_self, rfl, first, by decide +kernel, fun exact_ => ?_⟩
  have fits := exact_.firstDelay
  rw [first] at fits
  exact absurd fits (by decide)

end MotionBoard
