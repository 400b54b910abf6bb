import MotionBoard.StepMotor.StartSpec

namespace MotionBoard
namespace StepInfo

def delays : Nat → StepInfo → UInt32 → List UInt16
  | 0, _, _ => []
  | n + 1, psrd, stepCount =>
      if psrd.Exhausted stepCount then []
      else
        match psrd.nextDelay (psrd.countStep stepCount) with
        | .error _ => []
        | .ok next =>
            next.2 :: delays n (next.1.recordDelay next.2) (psrd.countStep stepCount)

section Delays
variable {psrd : StepInfo} {buf : DmaBufInfo} {stepCount : UInt32} {n : Nat}

theorem delays_exhausted (ended : psrd.Exhausted stepCount) : delays n psrd stepCount = [] := by
  cases n with
  | zero => rfl
  | succ n => exact if_pos ended

theorem delays_succ (more : ¬ psrd.Exhausted stepCount) {next : StepInfo × UInt16}
    (step : psrd.nextDelay (psrd.countStep stepCount) = .ok next) :
    delays (n + 1) psrd stepCount =
      next.2 :: delays n (next.1.recordDelay next.2) (psrd.countStep stepCount) := by
  rw [delays, if_neg more]
  simp only [step]

theorem delays_subset (m : Nat) : delays n psrd stepCount ⊆ delays (n + m) psrd stepCount := by
  induction n generalizing psrd stepCount with
  | zero => exact List.nil_subset _
  | succ n ih =>
      rw [show n + 1 + m = n + m + 1 by omega]
      by_cases ended : psrd.Exhausted stepCount
      · rw [delays_exhausted ended]
        exact List.nil_subset _
      · unfold delays
        rw [if_neg ended, if_neg ended]
        split
        · exact List.nil_subset _
        · exact List.cons_subset_cons _ ih

theorem fillLoop_returns_iff (phase : psrd.InPhase stepCount) (whole : buf.Whole)
    (room : buf.units + n ≤ hmDmaBufSize) :
    (∃ result, fillLoop n psrd buf stepCount = .ok result) ↔
      ∀ delay ∈ delays n psrd stepCount, 2 ≤ delay := by
  induction n generalizing psrd buf stepCount with
  | zero => simp [fillLoop, delays]
  | succ n ih =>
      unfold fillLoop
      by_cases ended : psrd.Exhausted stepCount
      · rw [if_pos ended, delays_exhausted ended]
        simp
      · obtain ⟨next, step, phase'⟩ := nextDelay_inPhase phase ended
        rw [if_neg ended, delays_succ ended step]
        simp only [step, bind, Except.bind, List.forall_mem_cons]
        rcases next.1.emitDelay_spec next.2 whole (by omega) with
          ⟨short, bad⟩ | ⟨long, buf', emit, whole', units, -⟩
        · simp only [bad, reduceCtorEq, exists_false, false_iff]
          exact fun all => absurd short (UInt16.not_lt.mpr all.1)
        · simp only [emit]
          rw [ih (phase'.recordDelay next.2) whole' (by omega)]
          exact (and_iff_right long).symm

theorem fillLoop_delays (m : Nat) {result : StepInfo × DmaBufInfo × UInt32}
    (action : fillLoop n psrd buf stepCount = .ok result) :
    delays (n + m) psrd stepCount =
      delays n psrd stepCount ++ delays m result.1 result.2.2 := by
  induction n generalizing psrd buf stepCount with
  | zero =>
      obtain rfl := Except.ok.inj action
      rw [Nat.zero_add]
      rfl
  | succ n ih =>
      by_cases ended : psrd.Exhausted stepCount
      · obtain rfl := Except.ok.inj ((fillLoop_ended ended).symm.trans action)
        rw [delays_exhausted ended, delays_exhausted ended, delays_exhausted ended]
        rfl
      · obtain ⟨next, buf', step, -, action⟩ := fillLoop_pass ended action
        rw [show n + 1 + m = n + m + 1 by omega, delays_succ ended step, delays_succ ended step,
          ih action]
        rfl

end Delays

def generating (o psrd : StepInfo) : StepInfo :=
  { o with
    method := psrd.method
    runState := psrd.runState
    n2 := psrd.n2
    stepsRequest := psrd.stepsRequest
    decelStart := psrd.decelStart
    decelVal := psrd.decelVal
    accelCount := psrd.accelCount
    rest := psrd.rest
    lastAccelDelay := psrd.lastAccelDelay
    minDelay := psrd.minDelay
    stepDelay := psrd.stepDelay
    minStepDelay := psrd.minStepDelay }

section Generating
variable (o psrd : StepInfo) (stepCount : UInt32)

theorem countAccel_generating :
    (o.generating psrd).countAccel = o.generating psrd.countAccel := by
  unfold countAccel generating
  dsimp only
  split <;> rfl

theorem leaveAccel_generating (delay : UInt16) :
    (o.generating psrd).leaveAccel stepCount delay =
      (o.generating (psrd.leaveAccel stepCount delay).1, (psrd.leaveAccel stepCount delay).2) := by
  unfold leaveAccel
  change (if psrd.DecelDue stepCount then _ else if delay ≤ psrd.minDelay then _ else _) = _
  split
  · rfl
  · split <;> rfl

theorem accelDelay_generating :
    (o.generating psrd).accelDelay stepCount =
      (o.generating (psrd.accelDelay stepCount).1, (psrd.accelDelay stepCount).2) := by
  unfold accelDelay
  rw [countAccel_generating]
  exact leaveAccel_generating o (psrd.countAccel.divide _ _).1 stepCount _

theorem runDelay_generating :
    (o.generating psrd).runDelay stepCount =
      (o.generating (psrd.runDelay stepCount).1, (psrd.runDelay stepCount).2) := by
  unfold runDelay
  change (if psrd.DecelDue stepCount then _ else _) = _
  split <;> rfl

theorem leaveDecel_generating : (o.generating psrd).leaveDecel = o.generating psrd.leaveDecel := by
  unfold leaveDecel
  change (if psrd.accelCount ≥ 0 then _ else _) = _
  split <;> rfl

theorem decelDelay_generating :
    (o.generating psrd).decelDelay = (o.generating psrd.decelDelay.1, psrd.decelDelay.2) :=
  Prod.ext (leaveDecel_generating o (divide { psrd with accelCount := psrd.accelCount + 1 } _ _).1)
    rfl

theorem nextDelay_generating : (o.generating psrd).nextDelay stepCount =
    (psrd.nextDelay stepCount).map fun next => (o.generating next.1, next.2) := by
  have phase : (o.generating psrd).runState = psrd.runState := rfl
  unfold nextDelay
  rw [phase]
  cases psrd.runState with
  | rsAccel => exact congrArg Except.ok (accelDelay_generating o psrd stepCount)
  | rsRun => exact congrArg Except.ok (runDelay_generating o psrd stepCount)
  | rsDecel => exact congrArg Except.ok (decelDelay_generating o psrd)
  | rsStop => rfl

theorem recordDelay_generating (delay : UInt16) :
    (o.generating psrd).recordDelay delay = o.generating (psrd.recordDelay delay) := by
  unfold recordDelay generating
  dsimp only
  split <;> rfl

theorem delays_generating (n : Nat) :
    delays n (o.generating psrd) stepCount = delays n psrd stepCount := by
  induction n generalizing psrd stepCount with
  | zero => rfl
  | succ n ih =>
      have ended : (o.generating psrd).Exhausted stepCount ↔ psrd.Exhausted stepCount := Iff.rfl
      have counted : (o.generating psrd).countStep stepCount = psrd.countStep stepCount := rfl
      unfold delays
      rw [counted, nextDelay_generating]
      simp only [ended]
      cases psrd.nextDelay (psrd.countStep stepCount) with
      | error failure => rfl
      | ok next => simp only [Except.map, recordDelay_generating, ih]

end Generating

def withBufs (psrd : StepInfo) (dmaBuf : Vector DmaBufInfo hmDmaBufBlockSz) (taken : UInt32) :
    StepInfo :=
  { psrd with dmaBuf := dmaBuf, stepsTaken := taken }

theorem delays_withBufs (psrd : StepInfo) (bufs : Vector DmaBufInfo hmDmaBufBlockSz)
    (taken stepCount : UInt32) (n : Nat) :
    delays n (psrd.withBufs bufs taken) stepCount = delays n psrd stepCount :=
  delays_generating (psrd.withBufs bufs taken) psrd stepCount n

section Returns
variable {p : StepInfo} {i : Fin hmDmaBufBlockSz}

theorem hmDmaUpdate_returns_iff (phase : p.InPhase p.stepsTaken) (whole : p.dmaBuf[i].Whole) :
    (∃ q, p.hmDmaUpdate i = .ok q) ↔
      ∀ delay ∈ delays (hmDmaBufSize - p.dmaBuf[i].units) p p.stepsTaken, 2 ≤ delay := by
  rw [← DmaBufInfo.passes_of_whole whole, ← fillLoop_returns_iff phase whole (fill_room whole)]
  unfold hmDmaUpdate
  cases fillLoop p.dmaBuf[i].passes p p.dmaBuf[i] p.stepsTaken with
  | error failure => simp [bind, Except.bind]
  | ok result => simp [bind, Except.bind]

theorem hmDmaUpdate_withBufs (whole : p.dmaBuf[i].Whole) {q : StepInfo}
    (update : p.hmDmaUpdate i = .ok q) :
    ∃ r buf stepCount,
      fillLoop p.dmaBuf[i].passes p p.dmaBuf[i] p.stepsTaken = .ok (r, buf, stepCount) ∧
      q = r.withBufs q.dmaBuf stepCount := by
  obtain ⟨r, buf, stepCount, loop, set⟩ := hmDmaUpdate_loop update
  have filled := fillLoop_filled _ whole (fill_room whole) loop
  have taken : p.stepsRequest = hmInvalidStep → stepCount = r.stepsTaken := by
    intro endless
    rw [filled.ramp.stepsTaken, ← UInt32.toNat_inj, filled.count, if_pos endless]
  refine ⟨r, buf, stepCount, loop, ?_⟩
  rw [set]
  split
  · rfl
  · rename_i endless
    rw [filled.ramp.stepsRequest, ne_eq, Decidable.not_not] at endless
    rw [taken endless]
    rfl

theorem hmDmaUpdate_delays (m : Nat) (whole : p.dmaBuf[i].Whole) {q : StepInfo}
    (update : p.hmDmaUpdate i = .ok q) :
    delays (hmDmaBufSize - p.dmaBuf[i].units + m) p p.stepsTaken =
      delays (hmDmaBufSize - p.dmaBuf[i].units) p p.stepsTaken ++ delays m q q.stepsTaken := by
  rw [← DmaBufInfo.passes_of_whole whole]
  obtain ⟨r, buf, stepCount, loop, same⟩ := hmDmaUpdate_withBufs whole update
  rw [fillLoop_delays m loop]
  have count : q.stepsTaken = stepCount := congrArg StepInfo.stepsTaken same
  rw [count, same, delays_withBufs]

theorem delays_of_rsStop {n : Nat} (phase : p.InPhase p.stepsTaken) (stop : p.runState = .rsStop) :
    delays n p p.stepsTaken = [] := by
  unfold InPhase at phase
  simp only [stop, reduceCtorEq, or_self, false_and] at phase
  split at phase
  · exact phase.elim
  · rename_i finite
    exact delays_exhausted ⟨finite, UInt32.not_lt.mp phase⟩

structure Begun (p a : StepInfo) : Prop where
  whole : a.dmaBuf[(0 : Fin hmDmaBufBlockSz)].Whole
  units : a.dmaBuf[(0 : Fin hmDmaBufBlockSz)].units = 1
  same : ∀ n, delays n a a.stepsTaken = delays n p 1
  phase : p.InPhase 1 → a.InPhase a.stepsTaken

theorem firstUnit_begun {rcr : UInt16} {a : StepInfo} (cleared : p.Cleared)
    (first : p.firstUnit rcr = .ok a) : Begun p a := by
  obtain ⟨buf, same, whole, units, -⟩ := firstUnit_ok cleared first
  have bufs : a = p.withBufs (p.dmaBuf.set 0 buf) 1 := same
  have get : a.dmaBuf[(0 : Fin hmDmaBufBlockSz)] = buf := by
    rw [same]
    exact setBuf_get _ _ _
  refine ⟨by rw [get]; exact whole, by rw [get, units], fun n => ?_, fun phase => ?_⟩
  · rw [bufs]
    exact delays_withBufs _ _ _ _ n
  · rw [same]
    exact phase

theorem Begun.first {a b : StepInfo} (begun : Begun p a) (update : a.hmDmaUpdate 0 = .ok b)
    (m : Nat) : delays (99 + m) p 1 = delays 99 p 1 ++ delays m b b.stepsTaken := by
  have goesOn := hmDmaUpdate_delays m begun.whole update
  rw [begun.units, begun.same, begun.same] at goesOn
  exact goesOn

theorem prefill_returns_iff {rcr : UInt16} (cleared : p.Cleared) (phase : p.InPhase 1) :
    (∃ q, p.prefill rcr = .ok q) ↔ ∀ delay ∈ delays 199 p 1, 2 ≤ delay := by
  obtain ⟨a, first⟩ := firstUnit_succeeds cleared rcr
  have begun := firstUnit_begun cleared first
  have returns := hmDmaUpdate_returns_iff (begun.phase phase) begun.whole
  rw [begun.units, begun.same] at returns
  unfold prefill
  cases update : a.hmDmaUpdate 0 with
  | error failure =>
      refine iff_of_false ?_ fun all => ?_
      · simp [first, update, bind, Except.bind]
      · obtain ⟨b, ok⟩ := returns.mpr fun delay member => all delay (delays_subset 100 member)
        cases update.symm.trans ok
  | ok b =>
      obtain ⟨-, -, -, other, -, phase'⟩ := firstBuf_ok cleared first update
      have long : ∀ delay ∈ delays 99 p 1, 2 ≤ delay := returns.mp ⟨b, update⟩
      have empty : b.dmaBuf[(1 : Fin hmDmaBufBlockSz)].units = 0 := by
        rw [other]
        exact cleared.units 1
      rw [show 199 = 99 + 100 from rfl, begun.first update 100]
      simp only [first, update, bind, Except.bind, List.forall_mem_append]
      rw [and_iff_right long]
      by_cases stop : b.runState = .rsStop
      · rw [delays_of_rsStop (phase' phase) stop]
        simp [stop]
      · have whole₁ : b.dmaBuf[(1 : Fin hmDmaBufBlockSz)].Whole := by
          rw [other]
          exact cleared.whole 1
        have second := hmDmaUpdate_returns_iff (phase' phase) whole₁
        rw [empty] at second
        simp only [ne_eq, stop, not_false_eq_true, if_true]
        exact second

/-- Whether no delay of the first two buffers of a move is too short. A single step has its delay
fixed, and a move of no steps has none. -/
def MovePlan (psrd : StepInfo) (step : Int32) (accel speed : UInt32) : Prop :=
  step = 1 ∨ step = 0 ∨ ∀ delay ∈ delays 199 (psrd.planMove step accel speed) 1, 2 ≤ delay

instance (step : Int32) (accel speed : UInt32) : Decidable (p.MovePlan step accel speed) := by
  unfold MovePlan
  -- the list is searched, not the type
  have long : Decidable (∀ delay ∈ delays 199 (p.planMove step accel speed) 1, 2 ≤ delay) :=
    List.decidableBAll _ _
  infer_instance

theorem moveBufs_returns_iff {step : Int32} {accel speed : UInt32} (cleared : p.Cleared)
    (bound : step.toUInt32.toNat ≤ 2 ^ 31) (request : p.stepsRequest = step.toUInt32) :
    (∃ q, p.moveBufs step accel speed = .ok q) ↔ p.MovePlan step accel speed := by
  unfold moveBufs MovePlan
  by_cases one : step = 1
  · rw [if_pos one]
    exact iff_of_true (singleStep_succeeds cleared) (.inl one)
  · by_cases none_ : step = 0
    · rw [if_neg one, if_neg (not_not.mpr none_)]
      exact iff_of_true ⟨p, rfl⟩ (.inr (.inl none_))
    · rw [if_neg one, if_pos none_, prefill_returns_iff (planMove_cleared cleared step accel speed)
        (planMove_inPhase bound request accel speed 1)]
      simp only [one, none_, false_or]

end Returns

section Move
variable {psrd : StepInfo} {io : Pins} {step : Int32} {accel speed : UInt32}

theorem hmStepMotorMove_starts_iff (decel : UInt32) (stopped : psrd.axisState = .asStoped)
    (free : ¬ (psrd.towards step).blocked io) :
    (∃ t, psrd.hmStepMotorMove io step accel decel speed = .ok (true, t) ∧
      t.axisState = .asRuning ∧ t.stepsRequest = (magnitude step).toUInt32) ↔
    ((psrd.towards step).resetMove (magnitude step) speed).MovePlan (magnitude step) accel
      speed := by
  have prepared := (psrd.towards step).resetMove_prepared (magnitude step) speed
  rw [← moveBufs_returns_iff (resetMove_cleared _ _) (magnitude_bound step) prepared.stepsRequest]
  have ahead := (psrd.hmStepMotorMove_guarded io step accel decel speed).trans
    (guardedStart_ahead stopped free)
  constructor
  · rintro ⟨t, start, -⟩
    obtain ⟨q, fill, -⟩ := Except.ok_of_map (ahead.symm.trans start)
    exact ⟨q, fill⟩
  · rintro ⟨q, fill⟩
    rw [fill] at ahead
    obtain ⟨-, refused, -⟩ | ⟨-, -, blocked, -⟩ | ⟨-, -, -, launched⟩ := hmStepMotorMove_ok ahead
    · cases refused
    · exact absurd blocked free
    · exact ⟨_, ahead, launched.axisState, launched.prepared.stepsRequest⟩

end Move

end StepInfo

end MotionBoard
