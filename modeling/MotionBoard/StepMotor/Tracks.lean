import MotionBoard.StepMotor.RampWords

namespace MotionBoard
open Transition

namespace StepInfo

def Tracks (pass : Ramp → Prop) (psrd : StepInfo) (stepCount : UInt32) : Prop :=
  psrd.Exhausted stepCount ∨
    (((psrd.ramp stepCount).Flat ∨ (psrd.ramp stepCount).Carried) ∧
      ∀ n, Ramp.Along pass n (psrd.ramp stepCount))

/-- The exact ramps that an event begins meet `pass` in each of their steps, and the curve is not
changed under a motion. -/
structure Meets (pass : Ramp → Prop) (psrd : StepInfo) (e : Event) : Prop where
  starts : psrd.starts e → ∀ p rcr, psrd.planned e = some (p, rcr) →
    ∀ n, Ramp.Along pass n (p.ramp 1)
  stops : psrd.smoothStops e → ∀ n, Ramp.Along pass n (psrd.hmStepMotorStopSmooth.ramp 0)
  curve : psrd.recurves e → ¬ psrd.Alive

structure Tracking (pass : Ramp → Prop) (psrd : StepInfo) : Prop where
  regular : psrd.Regular
  ahead : psrd.Alive → psrd.Tracks pass psrd.stepsTaken

section Tracks
variable {pass : Ramp → Prop} {psrd p t r : StepInfo} {e : Event} {rcr : UInt16}
  {stepCount : UInt32}

theorem Tracks.first (tracks : psrd.Tracks pass stepCount) (more : ¬ psrd.Exhausted stepCount) :
    ((psrd.ramp stepCount).Flat ∨ (psrd.ramp stepCount).Carried) ∧ pass (psrd.ramp stepCount) ∧
      ∀ n, Ramp.Along pass n (psrd.ramp stepCount).next := by
  obtain ⟨carried, along⟩ := tracks.resolve_left more
  have goes : ¬ (psrd.ramp stepCount).Over := mt ramp_over_iff.mp more
  exact ⟨carried, ((along 1).resolve_left goes).1, fun n => ((along (n + 1)).resolve_left goes).2⟩

theorem growth_of_divs (divisor : psrd.divs.2 = 0) : psrd.growth = 0 := by
  have cut := psrd.toInt_divs.2
  rw [divisor, Int32.toInt_zero] at cut
  unfold growth
  rw [← cut, Int.tdiv_zero, Int.neg_zero]

theorem flat_delay (flat : (psrd.ramp stepCount).Flat) {next : StepInfo × UInt16}
    (step : psrd.nextDelay (psrd.countStep stepCount) = .ok next) :
    psrd.runState = .rsDecel ∧ next.2 = psrd.stepDelay ∧
      ((next.1.recordDelay next.2).ramp (psrd.countStep stepCount)).Flat := by
  obtain ⟨curve, n2, phase⟩ := flat
  have phase : psrd.runState = .rsDecel := by
    refine phase.resolve_right fun stop => ?_
    unfold nextDelay at step
    rw [show psrd.runState = .rsStop from stop] at step
    cases step
  have curve : psrd.method = .sCurve := curve
  have none_ : psrd.n2 = 0 := UInt32.toNat_inj.mp (Int.ofNat.inj n2)
  have divisor : psrd.divs.2 = 0 := by
    unfold divs decelDivs
    rw [if_neg (by rw [phase]; nofun), if_pos (by exact curve), show psrd.countDecel.n2 = 0 from none_,
      UInt32.mul_zero]
    rfl
  obtain rfl := nextDelay_decel phase step
  refine ⟨phase, ?_, ?_⟩
  · change psrd.newDelay = psrd.stepDelay
    have small := psrd.stepDelay.toNat_lt
    have stored := psrd.toNat_newDelay
    rw [growth_of_divs divisor, Int.add_zero] at stored
    exact UInt16.toNat_inj.mp (by omega)
  · rw [recordDelay_ramp]
    refine ⟨curve, n2, ?_⟩
    change (if _ then _ else _) = _ ∨ (if _ then _ else _) = _
    split
    · exact .inr rfl
    · exact .inl rfl

theorem Tracks.after (tracks : psrd.Tracks pass stepCount) (checks : Ramp.Checks pass)
    (phase : psrd.InPhase stepCount) (more : ¬ psrd.Exhausted stepCount)
    {next : StepInfo × UInt16} (step : psrd.nextDelay (psrd.countStep stepCount) = .ok next) :
    (next.1.recordDelay next.2).Tracks pass (psrd.countStep stepCount) := by
  obtain ⟨carried, first, along⟩ := tracks.first more
  by_cases flat : (psrd.ramp stepCount).Flat
  · obtain ⟨-, -, still⟩ := flat_delay flat step
    exact .inr ⟨.inl still, still.along checks.flat⟩
  · have words := (checks.words _ first).resolve_left flat
    have carried := carried.resolve_left flat
    have follows := nextDelay_ramp phase more carried words step
    refine .inr ?_
    rw [follows]
    exact ⟨.inr (carried.next (Int.natCast_nonneg _) (Int.natCast_nonneg _) words), along⟩

theorem tracks_keeps (checks : Ramp.Checks pass) :
    Keeps (fun _ _ => True) (Tracks pass) fun _ => True where
  shape _ _ _ tracks := tracks
  pass _ _ _ phase more _ tracks step := ⟨tracks.after checks phase more step, trivial⟩

theorem planned_carried (plan : psrd.planned e = some (p, rcr)) : (p.ramp 1).Carried := by
  obtain ⟨count, rest, -, -⟩ := planned_begin plan
  have count : (p.ramp 1).count = 0 := congrArg Int32.toInt count
  have rest : (p.ramp 1).pace.rest = 0 := congrArg (fun x : UInt32 => x.toInt32.toInt) rest
  refine ⟨rest.ge, fun _ => ⟨count.ge, ?_⟩⟩
  have scale := Ramp.climb_scale (p.ramp 1) (Int.natCast_nonneg _) count.ge
  rw [rest, count]
  omega

theorem smooth_carried (stops : psrd.smoothStops e) :
    (psrd.hmStepMotorStopSmooth.ramp 0).Carried := by
  obtain ⟨running, first⟩ := (Tuned.refl psrd).accepted stops
  rw [stopSmooth_accepted running first]
  exact ⟨le_refl 0, nofun⟩

theorem unplanned_exhausted (regular : psrd.Regular) (starts : psrd.starts e)
    (plan : psrd.planned e = none) (action : psrd.exec e = .ok t) : t.Exhausted t.stepsTaken :=
  exhausted_of_delays (regular.step action).phase ((unplanned_writes starts plan action).2 1)

theorem Meets.smooth (meets : psrd.Meets pass e) (stops : psrd.smoothStops e) :
    psrd.hmStepMotorStopSmooth.Tracks pass 0 :=
  .inr ⟨.inr (smooth_carried stops), meets.stops stops⟩

theorem Meets.started (meets : psrd.Meets pass e) (checks : Ramp.Checks pass)
    (regular : psrd.Regular) (starts : psrd.starts e) (action : psrd.exec e = .ok t) :
    t.Tracks pass t.stepsTaken := by
  cases plan : psrd.planned e with
  | none => exact .inl (unplanned_exhausted regular starts plan action)
  | some begins =>
      obtain ⟨p, rcr⟩ := begins
      have begun : p.Tracks pass 1 := .inr ⟨.inr (planned_carried plan), meets.starts starts p rcr plan⟩
      exact ((tracks_keeps checks).starts starts plan begun (fun _ _ _ => trivial) action).1

theorem Tracking.step (tracking : psrd.Tracking pass) (checks : Ramp.Checks pass)
    (meets : psrd.Meets pass e) (action : HwStep psrd e t) : t.Tracking pass := by
  obtain ⟨raised, action⟩ := action
  have keeps := tracks_keeps checks
  refine ⟨tracking.regular.step action, fun alive => ?_⟩
  by_cases starts : psrd.starts e
  · exact meets.started checks tracking.regular starts action
  by_cases smooth : psrd.smoothStops e
  · obtain ⟨shape, taken⟩ := smooth_generating tracking.regular smooth action
    rw [taken, shape]
    exact keeps.shape t _ 0 (meets.smooth smooth)
  by_cases sudden : psrd.suddenStops e
  · obtain ⟨shape, taken, before⟩ := sudden_generating tracking.regular sudden action
    exact keeps.of_generating shape taken (tracking.ahead (before alive))
  have inert : !psrd.acts e := by simp [acts, starts, smooth, sudden]
  by_cases half : e = .halfTransfer
  · subst half
    exact (keeps.refill tracking.regular (tracking.ahead (.inr (.inl raised)))
      (fun _ _ _ => trivial) action).1
  · obtain ⟨-, -, before⟩ := quiet_alive inert half raised action
    cases kept : psrd.recurves e with
    | true => exact absurd (before alive) (meets.curve kept)
    | false =>
        obtain ⟨shape, taken⟩ := quiet_generating tracking.regular inert (by simp [kept]) half action
        exact keeps.of_generating shape taken (tracking.ahead (before alive))

theorem tracking_init (idx : Fin hmMaxAxis) : (hmStepMotorInit idx).Tracking pass where
  regular := regular_init idx
  ahead alive := by
    rcases alive with timer | htif | tcif
    · cases timer
    · cases htif
    · cases tcif

theorem Tracking.executes (tracking : psrd.Tracking pass) (checks : Ramp.Checks pass)
    (meets : psrd.Meets pass e) (raised : psrd.Raised e) (executes : psrd.Executes e r stepCount) :
    r.Tracks pass stepCount := by
  refine (tracks_keeps checks).executes tracking.regular (fun idle => ?_)
    (fun starts p rcr plan => .inr ⟨.inr (planned_carried plan), meets.starts starts p rcr plan⟩)
    (fun _ _ _ => trivial) executes
  by_cases half : e = .halfTransfer
  · subst half
    exact tracking.ahead (.inr (.inl raised))
  · exact absurd executes (not_executes half idle)

end Tracks

end StepInfo

end MotionBoard
