import MotionBoard.StepMotor.Tracks

namespace MotionBoard
open Transition

namespace Ramp

/-- A step whose words fit and that, in a deceleration, 16 bits do not shorten. -/
def Eases (r : Ramp) : Prop :=
  r.Flat ∨ (r.WordsFit ∧ (r.phase = .rsDecel → r.countDecel.Stays r.pace.delay))

def Mild (limit : Int) (r : Ramp) : Prop :=
  r.Flat ∨ (r.WordsFit ∧ (r.phase = .rsDecel → r.countDecel.Near limit))

instance : DecidablePred Eases := fun r => by
  unfold Eases
  infer_instance

instance (limit : Int) : DecidablePred (Mild limit) := fun r => by
  unfold Mild
  infer_instance

section Step
variable {r : Ramp} {limit : Int}

theorem checks_eases : Checks Eases where
  words _ eases := eases.imp_right And.left
  flat _ flat := .inl flat

theorem Eases.mild (eases : r.Eases) (delay : 0 ≤ r.pace.delay) : r.Mild r.pace.delay :=
  eases.imp_right fun ⟨words, stays⟩ => ⟨words, fun phase => (stays phase).near delay⟩

theorem decel_limit_iff (least : 0 ≤ limit) (above : limit ≤ r.pace.delay) (rest : 0 ≤ r.pace.rest)
    (n2 : 0 ≤ r.n2) (phase : r.phase = .rsDecel) (slowing : r.count < 0) (words : r.WordsFit)
    (near : r.countDecel.Near limit) :
    limit ≤ r.next.pace.delay ↔ r.countDecel.Stays limit := by
  have counted : r.countDecel.count ≤ 0 := Int.add_one_le_of_lt slowing
  have next : r.next.pace.delay = r.countDecel.slow.pace.delay := by
    unfold Ramp.next
    rw [phase]
    rfl
  unfold WordsFit at words
  rw [phase] at words
  rw [next]
  exact near.slow_iff least above rest n2 counted words.1

end Step

end Ramp

namespace StepInfo

section Slowing
variable {r : StepInfo} {stepCount : UInt32}

theorem lengthens_iff (phase : r.InPhase stepCount) (more : ¬ r.Exhausted stepCount)
    (slows : r.runState = .rsDecel) (carried : (r.ramp stepCount).Flat ∨ (r.ramp stepCount).Carried)
    (mild : (r.ramp stepCount).Mild r.stepDelay.toNat) {next : StepInfo × UInt16}
    (step : r.nextDelay (r.countStep stepCount) = .ok next) :
    r.stepDelay ≤ next.2 ↔ (r.ramp stepCount).Eases := by
  by_cases flat : (r.ramp stepCount).Flat
  · rw [(flat_delay flat step).2.1]
    exact iff_of_true (UInt16.le_refl _) (.inl flat)
  · have carried := carried.resolve_left flat
    obtain ⟨words, near⟩ := mild.resolve_left flat
    have follows := nextDelay_ramp phase more carried words step
    have cut := Ramp.decel_limit_iff (Int.natCast_nonneg _) (le_refl _) carried.rest
      (Int.natCast_nonneg _) slows (phase.slowing more slows) words (near slows)
    rw [← follows, recordDelay_pace, Int.ofNat_le, ← UInt16.le_iff_toNat_le] at cut
    rw [cut]
    exact ⟨fun stays => .inr ⟨words, fun _ => stays⟩, fun eases => (eases.resolve_left flat).2 slows⟩

theorem Tracks.lengthens (tracks : r.Tracks Ramp.Eases stepCount) (phase : r.InPhase stepCount)
    (more : ¬ r.Exhausted stepCount) (slows : r.runState = .rsDecel) {next : StepInfo × UInt16}
    (step : r.nextDelay (r.countStep stepCount) = .ok next) : r.stepDelay ≤ next.2 := by
  obtain ⟨carried, eases, -⟩ := tracks.first more
  have mild := eases.mild (Int.natCast_nonneg _)
  exact (lengthens_iff phase more slows carried mild step).mpr eases

end Slowing

section Run
variable {psrd r : StepInfo} {e : Event} {stepCount : UInt32}

/-- Where the starts and the smooth stops of a run have ramps that stay in 16 bits, no unit of a
deceleration is shorter than the one before it. A single step of a ramp whose words fit, and whose
delay wraps at most once, does what the ramp does. -/
theorem decel_lengthens {idx : Fin hmMaxAxis} {es : List Event}
    (run : Run Step (hmStepMotorInit idx) es psrd) (executes : psrd.Executes e r stepCount)
    (slows : r.runState = .rsDecel) {next : StepInfo × UInt16}
    (step : r.nextDelay (r.countStep stepCount) = .ok next) :
    (Run (Guarded (Meets Ramp.Eases) HwStep) (hmStepMotorInit idx) es psrd →
      psrd.Meets Ramp.Eases e → psrd.Raised e → r.stepDelay ≤ next.2) ∧
    ((r.ramp stepCount).Carried → (r.ramp stepCount).Mild r.stepDelay.toNat →
      (r.stepDelay ≤ next.2 ↔ (r.ramp stepCount).Eases)) := by
  have phase := executes.inPhase (reachable_regular run)
  refine ⟨fun eased meets raised => ?_, fun carried mild =>
    lengthens_iff phase executes.more slows (.inr carried) mild step⟩
  have tracking := eased.invariant (Tracking Ramp.Eases) (tracking_init idx)
    fun _ _ _ tracking action => tracking.step Ramp.checks_eases action.1 action.2
  exact (tracking.executes Ramp.checks_eases meets raised executes).lengthens phase executes.more slows
    step

theorem decel_lengthens_ten : ∃ r stepCount next,
    (hmStepMotorInit 0).Executes (.move .clear 10 20000 20000 1000) r stepCount ∧
    r.runState = .rsDecel ∧ r.nextDelay (r.countStep stepCount) = .ok next ∧
    r.stepDelay ≤ next.2 ∧ (r.ramp stepCount).Eases := by
  have starts : (hmStepMotorInit 0).starts (.move .clear 10 20000 20000 1000) := by decide +kernel
  have found : (hmStepMotorInit 0).passTest (.move .clear 10 20000 20000 1000) 8
      (fun r : StepInfo => decide (r.runState = .rsDecel ∧ 0 ≤ (r.ramp 0).pace.rest ∧
        (r.ramp 0).countDecel.DecelWordsFit ∧ (r.ramp 0).countDecel.Near r.stepDelay.toNat)) := by
    decide +kernel
  obtain ⟨r, stepCount, executes, test⟩ := executes_of_passTest starts found
  obtain ⟨slows, rest, words, near⟩ := of_decide_eq_true test
  obtain ⟨next, step, -⟩ :=
    nextDelay_inPhase (executes.inPhase (reachable_regular .nil)) executes.more
  obtain ⟨lengthens, exact_⟩ := decel_lengthens .nil executes slows step
  have meets : (hmStepMotorInit 0).Meets Ramp.Eases (.move .clear 10 20000 20000 1000) := by
    refine ⟨fun _ p rcr plan => ?_, fun stops => absurd stops (by decide +kernel), nofun⟩
    have begins := (hmStepMotorInit 0).planned_move .clear 20000 20000 1000
      (show ¬ (magnitude 10 = 1 ∨ magnitude 10 = 0) by decide)
    obtain ⟨rfl, -⟩ := Prod.mk.inj (Option.some.inj (begins.symm.trans plan))
    exact Ramp.along_of_finite 9 (show _ = some 10 by decide +kernel) (by decide +kernel)
      (by decide +kernel)
  have words : (r.ramp stepCount).WordsFit := by
    unfold Ramp.WordsFit
    rw [show (r.ramp stepCount).phase = .rsDecel from slows]
    exact words
  have longer := lengthens .nil meets trivial
  exact ⟨r, stepCount, next, executes, slows, step, longer,
    (exact_ ⟨rest, fun climb => (by cases slows.symm.trans climb)⟩
      (.inr ⟨words, fun _ => near⟩)).mp longer⟩

theorem decel_shortens_last : ∃ r stepCount next,
    (hmStepMotorInit 0).Executes (.move .clear 10 213 213 1000) r stepCount ∧
    r.nextDelay (r.countStep stepCount) = .ok next ∧ r.runState = .rsDecel ∧
    r.stepDelay = 65506 ∧ next.2 = 30 := by
  have starts : (hmStepMotorInit 0).starts (.move .clear 10 213 213 1000) := by decide +kernel
  have found : (hmStepMotorInit 0).passTest (.move .clear 10 213 213 1000) 8 (fun r : StepInfo =>
      decide (r.runState = .rsDecel ∧ r.stepDelay = 65506 ∧ r.newDelay = 30)) := by
    decide +kernel
  obtain ⟨r, stepCount, executes, test⟩ := executes_of_passTest starts found
  obtain ⟨phase, before, after⟩ := of_decide_eq_true test
  obtain ⟨next, step, -⟩ :=
    nextDelay_inPhase (executes.inPhase (reachable_regular .nil)) executes.more
  refine ⟨r, stepCount, next, executes, step, phase, before, ?_⟩
  rw [nextDelay_decel phase step]
  exact after

end Run

end StepInfo

end MotionBoard
