import MotionBoard.StepMotor.CurveRamp
import MotionBoard.StepMotor.FirstDelay

namespace MotionBoard
open Transition

theorem getLastD_append {α : Type*} (first second : List α) (x : α) :
    (first ++ second).getLastD x = second.getLastD (first.getLastD x) := by
  induction first generalizing x with
  | nil => rfl
  | cons y first ih => rw [List.cons_append, List.getLastD_cons, List.getLastD_cons, ih]

namespace StepInfo

def FirstPeriod (psrd : StepInfo) : Prop :=
  ∃ rcr, psrd.dmaBuf[psrd.pdma.cmar].content.head? = some (psrd.ptim.arr, rcr, psrd.ptim.ccr1)

/-- A start whose first delay is 2, and whose delays are back at 2 at the end of the first two
buffers if the deceleration is due within them. -/
def StartsSteady (psrd : StepInfo) (e : Event) : Prop :=
  ∃ p rcr accel speed, psrd.planned e = some (p, rcr) ∧ e.asks = some (accel, speed) ∧
    ShortStart accel speed ∧
    (p.Slows → p.decelStart.toNat ≤ 200 → (delays 199 p 1).getLastD 2 = 2)

theorem swapped_iff {d s : UInt16} :
    s / 2 = d - 1 ∧ s - 1 = d / 2 ↔ d = 2 ∧ s = 2 ∨ d = 1 ∧ s = 1 := by
  constructor
  · rintro ⟨arr, ccr1⟩
    have arr := congrArg UInt16.toNat arr
    have ccr1 := congrArg UInt16.toNat ccr1
    have small := d.toNat_lt
    have small' := s.toNat_lt
    rw [UInt16.toNat_div, UInt16.toNat_sub, UInt16.toNat_one, show (2 : UInt16).toNat = 2 from rfl]
      at arr ccr1
    simp only [← UInt16.toNat_inj, UInt16.toNat_one, show (2 : UInt16).toNat = 2 from rfl]
    have first : d.toNat ≠ 0 := by omega
    have stays : s.toNat ≠ 0 := by omega
    have arr : s.toNat / 2 = d.toNat - 1 := by omega
    have ccr1 : s.toNat - 1 = d.toNat / 2 := by omega
    omega
  · rintro (⟨rfl, rfl⟩ | ⟨rfl, rfl⟩)
    · decide
    · decide

section Last
variable {psrd p q : StepInfo} {buf : DmaBufInfo} {stepCount : UInt32} {n : Nat}
  {i : Fin hmDmaBufBlockSz} {rcr : UInt16}

theorem fillLoop_stepDelay {result : StepInfo × DmaBufInfo × UInt32} (phase : psrd.InPhase stepCount)
    (action : fillLoop n psrd buf stepCount = .ok result) :
    result.1.stepDelay = (delays n psrd stepCount).getLastD psrd.stepDelay := by
  induction n generalizing psrd buf stepCount with
  | zero =>
      obtain rfl := Except.ok.inj action
      rfl
  | succ n ih =>
      by_cases ended : psrd.Exhausted stepCount
      · obtain rfl := Except.ok.inj ((fillLoop_ended ended).symm.trans action)
        rw [delays_exhausted ended]
        rfl
      · obtain ⟨next, buf', step, -, action⟩ := fillLoop_pass ended action
        obtain ⟨next', step', phase'⟩ := nextDelay_inPhase phase ended
        obtain rfl := Except.ok.inj (step.symm.trans step')
        rw [delays_succ ended step, List.getLastD_cons, ih (phase'.recordDelay next.2) action,
          recordDelay_stepDelay]

theorem hmDmaUpdate_stepDelay (whole : p.dmaBuf[i].Whole) (phase : p.InPhase p.stepsTaken)
    (update : p.hmDmaUpdate i = .ok q) :
    q.stepDelay =
      (delays (hmDmaBufSize - p.dmaBuf[i].units) p p.stepsTaken).getLastD p.stepDelay := by
  obtain ⟨r, buf, stepCount, loop, same⟩ := hmDmaUpdate_withBufs whole update
  rw [← DmaBufInfo.passes_of_whole whole, ← fillLoop_stepDelay phase loop, same]
  rfl

theorem prefill_ends (cleared : p.Cleared) (phase : p.InPhase 1) (fill : p.prefill rcr = .ok q) :
    q.dmaBuf[(0 : Fin hmDmaBufBlockSz)].content.head? =
        some (p.stepDelay - 1, rcr, p.stepDelay / 2) ∧
      q.stepDelay = (delays 199 p 1).getLastD p.stepDelay := by
  obtain ⟨a, b, first, update, rest⟩ := prefill_steps fill
  have begun := firstUnit_begun cleared first
  obtain ⟨-, -, -, other, -, phase'⟩ := firstBuf_ok cleared first update
  have kept : a.stepDelay = p.stepDelay := by
    obtain ⟨buf, rfl, -⟩ := firstUnit_ok cleared first
    rfl
  have content := hmDmaUpdate_content begun.whole update
  rw [firstUnit_content cleared first] at content
  have last := hmDmaUpdate_stepDelay begun.whole (begun.phase phase) update
  rw [begun.units, begun.same, kept] at last
  rw [show 199 = 99 + 100 from rfl, begun.first update 100, getLastD_append]
  rcases rest with ⟨-, second⟩ | ⟨stop, rfl⟩
  · have whole₁ : b.dmaBuf[(1 : Fin hmDmaBufBlockSz)].Whole := by
      rw [other]
      exact cleared.whole 1
    have empty : b.dmaBuf[(1 : Fin hmDmaBufBlockSz)].units = 0 := by
      rw [other]
      exact cleared.units 1
    have last₁ := hmDmaUpdate_stepDelay whole₁ (phase' phase) second
    rw [empty, last] at last₁
    refine ⟨?_, last₁⟩
    rw [(hmDmaUpdate_ok whole₁ second).get_ne (by decide), content]
    rfl
  · rw [delays_of_rsStop (phase' phase) stop, content]
    exact ⟨rfl, last⟩

end Last

/-- A generator that stays at 2, at its speed or in an acceleration from it that has an `n2` of
zero. There are `k` steps behind it. -/
structure Level (psrd : StepInfo) (k : ℕ) : Prop where
  delay : psrd.stepDelay = 2
  phase : psrd.runState = .rsRun ∧ psrd.minDelay = 2 ∨
    psrd.runState = .rsAccel ∧ psrd.minDelay < 2 ∧ psrd.n2 = 0 ∧
      psrd.accelCount.toInt = k ∧ psrd.rest.toNat ≤ 4 * k

section Level
variable {psrd p : StepInfo} {stepCount : UInt32} {k n : ℕ}

theorem Level.accel (level : psrd.Level k) (few : k < 2 ^ 20) (phase : psrd.runState = .rsAccel) :
    psrd.newDelay = 2 ∧ psrd.newRest.toNat ≤ 4 * (k + 1) := by
  obtain ⟨delay, ⟨run, -⟩ | ⟨-, -, n2, count, carried⟩⟩ := level
  · cases phase.symm.trans run
  obtain ⟨rest, counted, left, -⟩ := psrd.countAccel_frame
  have succ : (psrd.accelCount + 1).toInt = k + 1 := (toInt_succ (by omega)).trans (by omega)
  have short : rest.toNat ≤ 4 * k := by
    rcases left with rfl | rfl
    · exact carried
    · exact Nat.zero_le _
  have wide : psrd.wideDivs = (4 + (rest.toNat : ℤ), 4 * ((k : ℤ) + 1) + 1) := by
    unfold wideDivs wideAccelDivs
    rw [if_pos phase, counted]
    have flat : ¬(0 : UInt32) > (psrd.accelCount + 1).toUInt32 := UInt32.not_lt.mpr (UInt32.zero_le)
    simp only [n2, flat, and_false, if_false, succ, delay]
    rfl
  have exact_ : psrd.DivsExact := by
    rw [divsExact_iff]
    refine ⟨fun _ other => absurd phase other, ?_, ?_⟩
    · rw [wide]
      dsimp only
      omega
    · rw [wide]
      dsimp only
      omega
  have new := exact_.new.2
  have less := exact_.rest (by rw [wide]; dsimp only; omega)
  rw [wide] at new less
  dsimp only at new less
  rw [Int.tdiv_eq_zero_of_lt (by omega) (by omega), delay] at new
  rw [Int.tmod_eq_of_lt (by omega) (by omega)] at less
  exact ⟨UInt16.toNat_inj.mp (Int.natCast_inj.mp new), by omega⟩

theorem Level.next (level : psrd.Level k) (few : k < 2 ^ 20) (early : ¬psrd.DecelDue stepCount)
    {next : StepInfo × UInt16} (step : psrd.nextDelay stepCount = .ok next) :
    next.2 = 2 ∧ (next.1.recordDelay next.2).Level (k + 1) := by
  obtain ⟨least, recorded⟩ := next.1.recordDelay_frame next.2
  rw [recorded]
  cases state : psrd.runState with
  | rsRun =>
      obtain ⟨-, ⟨-, least⟩ | ⟨climbs, -⟩⟩ := level
      · rcases nextDelay_run state step with ⟨due, -⟩ | ⟨-, rfl⟩
        · exact absurd due early
        · exact ⟨least, least, .inl ⟨state, least⟩⟩
      · cases state.symm.trans climbs
  | rsAccel =>
      obtain ⟨delay, rest⟩ := level.accel few state
      obtain ⟨-, ⟨run, -⟩ | ⟨-, fast, n2, count, -⟩⟩ := level
      · cases state.symm.trans run
      · rcases nextDelay_accel state step with ⟨due, -⟩ | ⟨-, reached, -⟩ | ⟨-, -, rfl⟩
        · exact absurd due early
        · rw [delay] at reached
          exact absurd fast (UInt16.not_lt.mpr reached)
        · refine ⟨delay, delay, .inr ⟨state, fast, n2, ?_, rest⟩⟩
          exact (toInt_succ (by omega)).trans (by omega)
  | rsDecel =>
      obtain ⟨-, ⟨run, -⟩ | ⟨climbs, -⟩⟩ := level
      · cases state.symm.trans run
      · cases state.symm.trans climbs
  | rsStop =>
      obtain ⟨-, ⟨run, -⟩ | ⟨climbs, -⟩⟩ := level
      · cases state.symm.trans run
      · cases state.symm.trans climbs

theorem Level.delays_last (level : psrd.Level k) (few : k + n ≤ 2 ^ 20)
    (phase : psrd.InPhase stepCount)
    (late : psrd.Slows → stepCount.toNat + n < psrd.decelStart.toNat) :
    (delays n psrd stepCount).getLastD 2 = 2 := by
  induction n generalizing psrd stepCount k with
  | zero => rfl
  | succ n ih =>
      by_cases ended : psrd.Exhausted stepCount
      · rw [delays_exhausted ended]
        rfl
      · obtain ⟨next, step, phase'⟩ := nextDelay_inPhase phase ended
        have count := toNat_countStep ended
        have bound : (psrd.countStep stepCount).toNat ≤ stepCount.toNat + 1 := by
          rw [count]
          split <;> omega
        -- the deceleration is not due before the last of these steps
        have early : ¬psrd.DecelDue (psrd.countStep stepCount) := by
          intro due
          have late := late (countStep_within ended due)
          have now := UInt32.le_iff_toNat_le.mp due.2
          omega
        obtain ⟨two, level'⟩ := level.next (by omega) early step
        have ramp := (psrd.nextDelay_rampStep _ step).trans (recordDelay_rampStep next.2)
        rw [delays_succ ended step, List.getLastD_cons, two]
        refine ih (two ▸ level') (by omega) (two ▸ phase'.recordDelay next.2) fun slows => ?_
        rw [← two, ramp.decelStart]
        have late := late (ramp.slows_iff.mp (two ▸ slows))
        omega

end Level

section Start
variable {psrd p q t : StepInfo} {e : Event} {rcr : UInt16} {accel : UInt32} {speed : ℕ}

theorem launch_firstPeriod : q.launch.FirstPeriod ↔
    ∃ rcr, q.curBuf.content.head? = some (q.stepDelay / 2, rcr, q.stepDelay - 1) := by
  obtain ⟨psc, launch⟩ := q.launch_frame
  rw [launch, hmDmaSetup_true]
  exact Iff.rfl

theorem planned_phase (plan : psrd.planned e = some (p, rcr)) :
    p.runState = .rsRun ∧ p.minDelay = p.stepDelay ∨
      p.runState = .rsAccel ∧ p.minDelay < p.stepDelay := by
  have phase (s : StepInfo) :
      s.startPhase.runState = .rsRun ∧ s.startPhase.minDelay = s.startPhase.stepDelay ∨
        s.startPhase.runState = .rsAccel ∧ s.startPhase.minDelay < s.startPhase.stepDelay := by
    unfold startPhase
    split
    · exact .inl ⟨rfl, rfl⟩
    · rename_i slow
      exact .inr ⟨rfl, UInt16.not_le.mp slow⟩
  obtain ⟨-, step, accel, -, speed, -, -, rfl, -⟩ | ⟨_, io, accel, speed, -, rfl, -⟩ :=
    planned_cases plan
  · exact phase _
  · exact phase _

theorem planned_more (plan : psrd.planned e = some (p, rcr)) : ¬p.Exhausted 1 := by
  obtain ⟨-, step, accel, -, speed, -, few, rfl, -⟩ | ⟨_, io, accel, speed, -, rfl, -⟩ :=
    planned_cases plan
  · have request : (psrd.movePlan step accel speed).stepsRequest = (magnitude step).toUInt32 :=
      (planMove_planned (magnitude step) accel speed).stepsRequest.trans
        ((psrd.towards step).resetMove_prepared (magnitude step) speed).stepsRequest
    rintro ⟨-, ended⟩
    rw [request, ge_iff_le, UInt32.le_iff_toNat_le, UInt32.toNat_one] at ended
    have sign := toInt_cases (magnitude step)
    rw [← Int32.toInt_inj, ← Int32.toInt_inj, Int32.toInt_one, Int32.toInt_zero] at few
    omega
  · exact fun ended => ended.1 ((planRun_planned accel _).stepsRequest.trans
      (resetRun_prepared _ io _).stepsRequest)

theorem maxSLim_standing (method : Method) (accel : UInt32) : maxSLim method 0 0 accel = 0 := by
  unfold maxSLim
  cases method with
  | tCurve =>
      rw [show (0 : UInt64) / 2 * 0 = 0 from rfl, UInt64.zero_div]
      rfl
  | sCurve =>
      refine Binary64.toUInt32_of_nonpos (Binary64.round_nonpos ?_)
      have square : Binary64.mul (Binary64.mul (Binary64.ofInt 0)
          (Binary64.round (1358695652173913 / 1000000000000000))) (Binary64.ofInt 0) = 0 := by
        decide +kernel
      rw [show ((0 : UInt64).toNat : ℤ) = 0 from rfl, square]
      exact le_of_eq (zero_div _)

theorem planned_level (plan : psrd.planned e = some (p, rcr)) (asks : e.asks = some (accel, speed))
    (short : ShortStart accel speed) : p.Level 0 := by
  obtain ⟨wide, signed, values⟩ := planned_values plan asks
  obtain ⟨count, rest, -⟩ := planned_begin plan
  have delay := (stepDelay_short_iff plan asks).mpr short
  have least := values.quotient.2
  rw [values.fre] at least
  refine ⟨delay, ?_⟩
  rcases planned_phase plan with ⟨run, same⟩ | ⟨climbs, fast⟩
  · exact .inl ⟨run, same.trans delay⟩
  · rw [delay] at fast
    refine .inr ⟨climbs, fast, ?_, congrArg Int32.toInt count, ?_⟩
    · rcases short with ⟨most, few, -⟩ | ⟨rfl, -⟩
      · -- at such a speed the delay of the speed is 2 itself
        rw [if_neg (by omega)] at least
        have two : 2 ≤ 1000000 / speed := (Nat.le_div_iff_mul_le (by omega)).mpr (by omega)
        rw [UInt16.lt_iff_toNat_lt, least] at fast
        exact absurd two (Nat.not_le.mpr fast)
      · have sized : ¬e.unsized := fun unsized => by cases (values.unsized unsized).1
        obtain ⟨none_, rfl⟩ := values.sized sized
        obtain rfl : wide = 0 := UInt64.toNat_inj.mp none_
        rw [values.n2]
        exact maxSLim_standing psrd.method accel
    · rw [rest]
      exact Nat.le_refl 0

theorem unplanned_firstPeriod (starts : psrd.starts e) (plan : psrd.planned e = none)
    (action : psrd.exec e = .ok t) : ¬t.FirstPeriod := by
  have units := (unplanned_writes starts plan action).1
  cases e with
  | move io step accel decel speed =>
      obtain ⟨q, -, rfl⟩ := move_bufs starts action
      obtain ⟨-, -, cur, -⟩ := q.launch_generating
      rw [launch_firstPeriod]
      rintro ⟨rcr, first⟩
      have member : (q.stepDelay / 2, rcr, q.stepDelay - 1) ∈
          (Event.move io step accel decel speed).unplanned := by
        rw [← units, cur]
        exact List.mem_append_left _ (List.mem_of_head? first)
      have unit : (q.stepDelay / 2, rcr, q.stepDelay - 1) = ((999, 1, 500) : DmaUnit) := by
        change _ ∈ (if magnitude step = 1 then [(999, 1, 500)] else []) at member
        split at member
        · exact List.mem_singleton.mp member
        · cases member
      obtain ⟨arr, same⟩ := Prod.mk.inj unit
      have ccr1 := (Prod.mk.inj same).2
      rcases swapped_iff.mp (show q.stepDelay / 2 = 1000 - 1 ∧ q.stepDelay - 1 = 1000 / 2 from
        ⟨arr, ccr1⟩) with ⟨long, -⟩ | ⟨long, -⟩
      · cases long
      · cases long
  | startHoming | startFreeRun | startRun => cases plan
  | _ => cases starts

/-- The period before the first burst is that of the first unit exactly when the first delay of the
start is 2 and, where the deceleration is due within the first two buffers, the last of their delays
is 2 again. -/
theorem first_period_iff (starts : psrd.starts e) (action : psrd.exec e = .ok t) :
    t.FirstPeriod ↔ psrd.StartsSteady e := by
  cases plan : psrd.planned e with
  | none =>
      refine iff_of_false (unplanned_firstPeriod starts plan action) ?_
      rintro ⟨p, rcr, _, _, plan', -⟩
      cases plan.symm.trans plan'
  | some begins =>
      obtain ⟨p, rcr⟩ := begins
      obtain ⟨accel, speed, asks⟩ := planned_asks plan
      obtain ⟨q, fill, rfl⟩ := starts_prefill starts plan action
      obtain ⟨cleared, phase⟩ := planned_ready plan
      obtain ⟨first, last⟩ := prefill_ends cleared phase fill
      have cur : q.curBuf = q.dmaBuf[(0 : Fin hmDmaBufBlockSz)] :=
        curBuf_of_idx ((prefill_ok cleared fill).planned.dmaBufIdx.trans cleared.1)
      have long : 2 ≤ q.stepDelay := by
        obtain ⟨next, step, -⟩ := nextDelay_inPhase phase (planned_more plan)
        apply (prefill_returns_iff cleared phase).mp ⟨q, fill⟩
        rw [last, delays_succ (planned_more plan) step, List.getLastD_cons]
        exact List.getLastD_mem_cons
      have agree : q.launch.FirstPeriod ↔ p.stepDelay = 2 ∧ q.stepDelay = 2 := by
        rw [launch_firstPeriod, cur, first]
        constructor
        · rintro ⟨_, same⟩
          obtain ⟨arr, same⟩ := Prod.mk.inj (Option.some.inj same)
          have ccr1 := (Prod.mk.inj same).2
          rcases swapped_iff.mp ⟨arr.symm, ccr1.symm⟩ with both | ⟨-, short⟩
          · exact both
          · rw [short] at long
            exact absurd long (by decide)
        · rintro ⟨first, stays⟩
          rw [first, stays]
          exact ⟨rcr, rfl⟩
      rw [agree]
      constructor
      · rintro ⟨two, stays⟩
        refine ⟨p, rcr, accel, speed, plan, asks, (stepDelay_short_iff plan asks).mp two, ?_⟩
        intro _ _
        rw [two] at last
        exact last.symm.trans stays
      · rintro ⟨p', rcr', accel', speed', plan', asks', short, back⟩
        obtain ⟨rfl, rfl⟩ := Prod.mk.inj (Option.some.inj (plan.symm.trans plan'))
        have two := (stepDelay_short_iff plan asks').mpr short
        refine ⟨two, ?_⟩
        rw [last, two]
        by_cases due : p.Slows → 200 < p.decelStart.toNat
        · exact (planned_level plan asks' short).delays_last (by decide) phase due
        · obtain ⟨slows, within⟩ := Classical.not_imp.mp due
          exact back slows (Nat.not_lt.mp within)

end Start

theorem first_period_fastest : ∃ t,
    (hmStepMotorInit 0).exec (.startRun .clear 0xffffffff 500000) = .ok t ∧ t.FirstPeriod := by
  obtain ⟨t, action, -⟩ := ok_of_any
    (show ((hmStepMotorInit 0).exec (.startRun .clear 0xffffffff 500000)).toOption.any
      fun _ => true by decide +kernel)
  refine ⟨t, action, (first_period_iff (by decide +kernel) action).mpr
    ⟨_, _, _, _, rfl, rfl, .inl ⟨by decide, by decide, .inr (by decide)⟩, fun slows => ?_⟩⟩
  exact absurd (runPlan_endless _ _ _ _) slows.1

theorem first_period_differs : ∃ t, (hmStepMotorInit 0).exec (.startRun .clear 20000 1000) = .ok t ∧
    (hmStepMotorInit 0).starts (.startRun .clear 20000 1000) ∧
    t.dmaBuf[t.pdma.cmar].content.head? = some (6759, 1, 3380) ∧
    t.ptim.arr = 500 ∧ t.ptim.ccr1 = 999 ∧ ¬t.FirstPeriod := by
  obtain ⟨t, action, test⟩ := ok_of_any
    (show ((hmStepMotorInit 0).exec (.startRun .clear 20000 1000)).toOption.any fun t : StepInfo =>
      decide (t.dmaBuf[t.pdma.cmar].content.head? = some (6759, 1, 3380) ∧
        t.ptim.arr = 500 ∧ t.ptim.ccr1 = 999) by decide +kernel)
  obtain ⟨first, arr, ccr1⟩ := of_decide_eq_true test
  refine ⟨t, action, by decide +kernel, first, arr, ccr1, ?_⟩
  rintro ⟨rcr, same⟩
  rw [first, arr] at same
  cases (Prod.mk.inj (Option.some.inj same)).1

end StepInfo

end MotionBoard
