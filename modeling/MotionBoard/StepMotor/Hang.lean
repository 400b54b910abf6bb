import MotionBoard.StepMotor.Follow
import MotionBoard.StepMotor.History

namespace MotionBoard
open Transition

namespace StepInfo

def Alive (psrd : StepInfo) : Prop := psrd.ptim.enabled ∨ psrd.pdma.htif ∨ psrd.pdma.tcif

/-- What keeps the generator from a delay below two: `step_delay` is two or more where a ramp
begins, and so is `last_accel_delay` for a move at constant speed; the exact ramp does not leave the
variables; and the curve is not changed under a motion. -/
structure Sound (psrd : StepInfo) (e : Event) : Prop where
  starts : psrd.starts e → ∀ p rcr, psrd.planned e = some (p, rcr) →
    2 ≤ p.stepDelay ∧ (e.ConstantSpeed psrd.method → 2 ≤ psrd.lastAccelDelay) ∧
      ∀ n, (p.ramp 1).Fits n
  stops : psrd.smoothStops e → (psrd.stepsRequest = 0 → 2 ≤ psrd.stepDelay) ∧
    ∀ n, (psrd.hmStepMotorStopSmooth.ramp 0).Fits n
  curve : psrd.recurves e → ¬ psrd.Alive

section Paced
variable {psrd p q t : StepInfo} {e : Event} {rcr : UInt16}

theorem recordDelay_stepDelay (delay : UInt16) : (psrd.recordDelay delay).stepDelay = delay := by
  unfold recordDelay
  dsimp only
  split <;> rfl

theorem fillLoop_paced {buf : DmaBufInfo} {stepCount : UInt32} (n : Nat)
    (paced : 2 ≤ psrd.stepDelay) {result : StepInfo × DmaBufInfo × UInt32}
    (action : fillLoop n psrd buf stepCount = .ok result) : 2 ≤ result.1.stepDelay := by
  induction n generalizing psrd buf stepCount with
  | zero =>
      obtain rfl := Except.ok.inj action
      exact paced
  | succ n ih =>
      by_cases ended : psrd.Exhausted stepCount
      · obtain rfl := Except.ok.inj ((fillLoop_ended ended).symm.trans action)
        exact paced
      · obtain ⟨next, buf', -, emit, action⟩ := fillLoop_pass ended action
        refine ih ?_ action
        rw [recordDelay_stepDelay]
        exact (emitDelay_ok emit).1

theorem hmDmaUpdate_paced {i : Fin hmDmaBufBlockSz} (paced : 2 ≤ p.stepDelay)
    (update : p.hmDmaUpdate i = .ok q) : 2 ≤ q.stepDelay := by
  obtain ⟨r, buf, stepCount, loop, rfl⟩ := hmDmaUpdate_loop update
  have long := fillLoop_paced _ paced loop
  unfold setBuf
  split <;> exact long

theorem refill_paced (regular : psrd.Regular) (action : psrd.exec .halfTransfer = .ok t) :
    t.stepsRequest = psrd.stepsRequest ∧ (2 ≤ psrd.stepDelay → 2 ≤ t.stepDelay) := by
  obtain ⟨u, fill, rfl⟩ := Except.ok_of_map action
  constructor
  · obtain ⟨_, _, _, _, rfl⟩ := (hmDmaFillNextBuf_ok regular.whole fill).frame
    rfl
  · intro paced
    by_cases empty : psrd.nextBuf.valid = 0
    · rw [hmDmaFillNextBuf_emptied empty] at fill
      obtain ⟨v, update, rfl⟩ := Except.ok_of_map fill
      have long := hmDmaUpdate_paced (show 2 ≤ psrd.emptied.stepDelay from paced) update
      exact long
    · obtain rfl := Except.ok.inj ((hmDmaFillNextBuf_full empty).symm.trans fill)
      exact paced

theorem refill_returns (regular : psrd.Regular)
    (long : ∀ delay ∈ delays hmDmaBufSize psrd psrd.stepsTaken, 2 ≤ delay) :
    ∃ t, psrd.exec .halfTransfer = .ok t := by
  have fills : ∃ u, psrd.hmDmaFillNextBuf = .ok u := by
    by_cases empty : psrd.nextBuf.valid = 0
    · rw [hmDmaFillNextBuf_emptied empty]
      have phase : psrd.emptied.InPhase psrd.emptied.stepsTaken := regular.phase
      have whole : psrd.emptied.dmaBuf[psrd.dmaBufIdx + 1].Whole := emptied_whole
      have returns := hmDmaUpdate_returns_iff phase whole
      rw [emptied_units] at returns
      obtain ⟨v, update⟩ := returns.mpr fun delay member => long delay
        ((delays_generating psrd.emptied psrd psrd.stepsTaken hmDmaBufSize) ▸ member)
      exact ⟨{ v with dmaFill := v.dmaFill + 1 }, by rw [update]; rfl⟩
    · exact ⟨psrd, hmDmaFillNextBuf_full empty⟩
  obtain ⟨u, fill⟩ := fills
  exact ⟨{ u with pdma.htif := false }, by simp only [exec, serveHalf, fill, bind, Except.bind]⟩

theorem prefill_paced (cleared : p.Cleared) (paced : 2 ≤ p.stepDelay)
    (fill : p.prefill rcr = .ok q) : 2 ≤ q.stepDelay := by
  obtain ⟨a, b, first, update, rest⟩ := prefill_steps fill
  have begun : 2 ≤ a.stepDelay := by
    obtain ⟨buf, rfl, -⟩ := firstUnit_ok cleared first
    exact paced
  have paced := hmDmaUpdate_paced begun update
  obtain ⟨-, second⟩ | ⟨-, rfl⟩ := rest
  · exact hmDmaUpdate_paced paced second
  · exact paced

end Paced

section Plan
variable {psrd p q t : StepInfo} {e : Event} {rcr : UInt16}

theorem startPhase_begin (psrd : StepInfo) :
    psrd.startPhase.accelCount = 0 ∧ psrd.startPhase.rest = psrd.rest ∧
      psrd.startPhase.runState ≠ .rsDecel ∧
      (psrd.startPhase.runState = .rsRun → psrd.startPhase.minDelay = psrd.startPhase.stepDelay) := by
  unfold startPhase
  split
  · exact ⟨rfl, rfl, nofun, fun _ => rfl⟩
  · exact ⟨rfl, rfl, nofun, nofun⟩

theorem planned_begin (plan : psrd.planned e = some (p, rcr)) :
    p.accelCount = 0 ∧ p.rest = 0 ∧ p.runState ≠ .rsDecel ∧
      (p.runState = .rsRun → p.minDelay = p.stepDelay) := by
  obtain ⟨-, step, accel, -, speed, -, -, rfl, -⟩ | ⟨_, io, accel, speed, -, rfl, -⟩ :=
    planned_cases plan
  · obtain ⟨count, rest, begins⟩ := startPhase_begin _
    exact ⟨count, rest.trans rfl, begins⟩
  · obtain ⟨count, rest, begins⟩ := startPhase_begin _
    exact ⟨count, rest.trans rfl, begins⟩

theorem planned_armed (plan : psrd.planned e = some (p, rcr)) (delay : 2 ≤ p.stepDelay)
    (last : e.ConstantSpeed psrd.method → 2 ≤ psrd.lastAccelDelay) : (p.ramp 1).Armed := by
  obtain ⟨count, rest, -, cruise⟩ := planned_begin plan
  obtain ⟨kept, constant⟩ := planned_constantSpeed plan
  have long : (2 : Int) ≤ p.stepDelay.toNat := Int.ofNat_le.mpr (UInt16.le_iff_toNat_le.mp delay)
  have n2 : 0 ≤ (p.ramp 1).n2 := Int.natCast_nonneg _
  have count : (p.ramp 1).count = 0 := congrArg Int32.toInt count
  have rest : (p.ramp 1).pace.rest = 0 := congrArg (fun x : UInt32 => x.toInt32.toInt) rest
  refine ⟨long, rest.ge, n2, fun _ => ⟨count.ge, ?_⟩, fun run => ⟨?_, fun slows => ?_⟩⟩
  · have scale := Ramp.climb_scale (p.ramp 1) n2 count.ge
    rw [rest, count]
    omega
  · change (2 : Int) ≤ p.minDelay.toNat
    rw [cruise run]
    exact long
  · change (2 : Int) ≤ p.lastAccelDelay.toNat
    rw [kept]
    exact Int.ofNat_le.mpr (UInt16.le_iff_toNat_le.mp (last (constant.mp ⟨run, ramp_slows slows⟩)))

theorem Sound.planned_long (sound : psrd.Sound e) (starts : psrd.starts e)
    (plan : psrd.planned e = some (p, rcr)) (n : Nat) : ∀ delay ∈ delays n p 1, 2 ≤ delay := by
  obtain ⟨delay, last, fits⟩ := sound.starts starts p rcr plan
  exact delays_long n (planned_ready plan).2 (planned_armed plan delay last) (fits n)

theorem startRun_fails {io : Pins} {accel : UInt32} {speed : Int32} {failure : Halt}
    (action : (psrd.hmStepMotorStartRun io accel speed).map Prod.snd = .error failure) :
    (decide (psrd.axisState = .asStoped) && !decide ((psrd.towards speed).blocked io)) = true ∧
      ∀ q, (psrd.runPlan io accel speed).prefill 1 ≠ .ok q := by
  have start := map_snd_error action
  rw [hmStepMotorStartRun_guarded] at start
  obtain ⟨stopped, free, stuck⟩ := guardedStart_error start
  exact ⟨goes_ahead_iff.mpr ⟨stopped, free⟩, fun q fill => by cases stuck.symm.trans fill⟩

theorem move_fails {io : Pins} {step : Int32} {accel decel speed : UInt32} {failure : Halt}
    (action : psrd.exec (.move io step accel decel speed) = .error failure) :
    psrd.starts (.move io step accel decel speed) ∧
      ¬ (magnitude step = 1 ∨ magnitude step = 0) ∧
      ∀ q, (psrd.movePlan step accel speed).prefill 0 ≠ .ok q := by
  have start := map_snd_error action
  rw [hmStepMotorMove_guarded] at start
  obtain ⟨stopped, free, failed⟩ := guardedStart_error start
  have stuck : ¬ ∃ q, ((psrd.towards step).resetMove (magnitude step) speed).moveBufs
      (magnitude step) accel speed = .ok q := by
    rintro ⟨q, fill⟩
    cases failed.symm.trans fill
  rw [moveBufs_returns_iff (resetMove_cleared _ _) (magnitude_bound step)
    ((psrd.towards step).resetMove_prepared (magnitude step) speed).stepsRequest] at stuck
  obtain ⟨cleared, phase⟩ := psrd.movePlan_ready step accel speed
  exact ⟨goes_ahead_iff.mpr ⟨stopped, free⟩, fun few => stuck (few.imp id .inl),
    fun q fill => stuck (.inr (.inr ((prefill_returns_iff cleared phase).mp ⟨q, fill⟩)))⟩

theorem starts_fails {failure : Halt} (command : !e.dma) (action : psrd.exec e = .error failure) :
    psrd.starts e ∧ ∃ p rcr, psrd.planned e = some (p, rcr) ∧ ∀ q, p.prefill rcr ≠ .ok q := by
  cases e with
  | burst | halfTransfer | transferComplete => cases command
  | move io step accel decel speed =>
      obtain ⟨starts, many, stuck⟩ := move_fails action
      exact ⟨starts, _, _, if_neg many, stuck⟩
  | startHoming io accel speed =>
      obtain ⟨starts, stuck⟩ := startRun_fails action
      exact ⟨starts, _, _, rfl, stuck⟩
  | startFreeRun io accel speed =>
      obtain ⟨starts, stuck⟩ := startRun_fails action
      exact ⟨starts, _, _, rfl, stuck⟩
  | startRun io accel speed =>
      obtain ⟨starts, stuck⟩ := startRun_fails action
      exact ⟨starts, _, _, rfl, stuck⟩
  | _ => cases action

end Plan

structure Unhung (psrd : StepInfo) : Prop where
  regular : psrd.Regular
  paced : psrd.stepsRequest ≠ 0 → 2 ≤ psrd.stepDelay
  long : psrd.Alive → ∀ n, ∀ delay ∈ delays n psrd psrd.stepsTaken, 2 ≤ delay

section Unhung
variable {psrd p q t : StepInfo} {e : Event} {rcr : UInt16}

theorem sudden_generating (regular : psrd.Regular) (stops : psrd.suddenStops e)
    (action : psrd.exec e = .ok t) :
    t = t.generating psrd ∧ t.stepsTaken = psrd.stepsTaken ∧ (t.Alive → psrd.Alive) := by
  have kept : psrd.recurves e = false := by
    cases e <;> first | rfl | cases stops
  have method := exec_method regular kept action
  obtain ⟨s₀, tuned, rfl⟩ := (exec_effect action).of_suddenStops stops
  obtain ⟨pos, same⟩ := s₀.stopSundden_frame
  rw [same, hmDmaSetup_false] at method ⊢
  obtain ⟨_, _, _, _, _, _, rfl, -⟩ := tuned
  obtain rfl := method
  refine ⟨rfl, rfl, fun alive => ?_⟩
  exact .inr (alive.resolve_left nofun)

theorem smooth_generating (regular : psrd.Regular) (stops : psrd.smoothStops e)
    (action : psrd.exec e = .ok t) :
    t = t.generating psrd.hmStepMotorStopSmooth ∧ t.stepsTaken = 0 := by
  have kept : psrd.recurves e = false := by
    cases e <;> first | rfl | cases stops
  have method := exec_method regular kept action
  obtain ⟨s₀, tuned, rfl⟩ := (exec_effect action).of_smoothStops stops
  obtain ⟨running, first⟩ := (Tuned.refl psrd).accepted stops
  obtain ⟨running', first'⟩ := tuned.accepted stops
  rw [stopSmooth_accepted running' first'] at method ⊢
  rw [stopSmooth_accepted running first]
  obtain ⟨_, _, _, _, _, _, rfl, -⟩ := tuned
  obtain rfl := method
  exact ⟨rfl, rfl⟩

theorem quiet_alive (inert : !psrd.acts e) (other : e ≠ .halfTransfer) (raised : psrd.Raised e)
    (action : psrd.exec e = .ok t) :
    t.stepsRequest = psrd.stepsRequest ∧ t.stepDelay = psrd.stepDelay ∧
      (t.Alive → psrd.Alive) := by
  cases exec_effect action with
  | pulse =>
      unfold burst
      split
      · rename_i moves
        simp only [playing, Bool.and_eq_true] at moves
        exact ⟨rfl, rfl, fun _ => .inl moves.1.1⟩
      · exact ⟨rfl, rfl, id⟩
  | refill => exact absurd rfl other
  | complete check =>
      have pending : psrd.Alive := .inr (.inr raised.1)
      rw [hmDmaCk_eq] at check
      split at check
      · split at check
        · cases check
        · obtain rfl := Except.ok.inj check
          exact ⟨rfl, rfl, fun _ => pending⟩
      · obtain rfl := Except.ok.inj check
        exact ⟨rfl, rfl, fun _ => pending⟩
  | launch starts => simp [acts, starts] at inert
  | smooth stops => simp [acts, stops] at inert
  | sudden stops => simp [acts, stops] at inert
  | place => exact ⟨rfl, rfl, id⟩
  | tune _ _ tuned =>
      obtain ⟨_, _, _, _, _, _, rfl, -⟩ := tuned
      exact ⟨rfl, rfl, id⟩

theorem unplanned_paced (starts : psrd.starts e) (plan : psrd.planned e = none)
    (action : psrd.exec e = .ok t) : t.stepsRequest = 0 ∨ t.stepDelay = 1000 := by
  cases e with
  | move io step accel decel speed =>
      obtain ⟨q, fill, rfl⟩ := move_bufs starts action
      have request := ((psrd.towards step).resetMove_prepared (magnitude step) speed).stepsRequest
      have cleared := (psrd.towards step).resetMove_cleared (magnitude step) speed
      generalize (psrd.towards step).resetMove (magnitude step) speed = p at *
      obtain ⟨shape, -⟩ := q.launch_generating
      unfold moveBufs at fill
      by_cases one : magnitude step = 1
      · rw [if_pos one] at fill
        obtain ⟨buf, -, -, -, -, -, same⟩ := singleStep_buf cleared fill
        refine .inr ?_
        rw [shape, same]
        rfl
      · rw [if_neg one] at fill
        by_cases none_ : magnitude step = 0
        · rw [if_neg (not_not.mpr none_)] at fill
          obtain rfl := Except.ok.inj fill
          refine .inl ?_
          rw [shape]
          exact request.trans (by rw [none_]; rfl)
        · cases (if_neg (not_or.mpr ⟨one, none_⟩)).symm.trans plan
  | startHoming | startFreeRun | startRun => cases plan
  | _ => cases starts

theorem Sound.unhung (sound : psrd.Sound e) (starts : psrd.starts e)
    (action : psrd.exec e = .ok t) : t.Unhung := by
  obtain ⟨s₀, home, launched⟩ := (exec_effect action).of_starts starts
  cases plan : psrd.planned e with
  | none =>
      refine ⟨launched.regular, fun some_ => ?_, fun _ n => ?_⟩
      · rw [(unplanned_paced starts plan action).resolve_left some_]
        decide
      · rw [(unplanned_writes starts plan action).2]
        exact nofun
  | some begins =>
      obtain ⟨p, rcr⟩ := begins
      obtain ⟨q, fill, rfl⟩ := starts_prefill starts plan action
      obtain ⟨cleared, phase⟩ := planned_ready plan
      obtain ⟨shape, taken, -⟩ := q.launch_generating
      refine ⟨launched.regular, fun _ => ?_, fun _ n => ?_⟩
      · have paced := prefill_paced cleared (sound.starts starts p rcr plan).1 fill
        rw [shape]
        exact paced
      · have long := sound.planned_long starts plan (199 + n)
        rw [(prefill_writes cleared phase fill).2, List.forall_mem_append] at long
        rw [delays_of_generating shape taken]
        exact long.2

theorem Unhung.smooth (unhung : psrd.Unhung) (sound : psrd.Sound e) (stops : psrd.smoothStops e)
    (action : psrd.exec e = .ok t) : t.Unhung := by
  have regular := (exec_effect action).regular unhung.regular
  obtain ⟨early, fits⟩ := sound.stops stops
  have paced : 2 ≤ psrd.stepDelay := by
    by_cases zero : psrd.stepsRequest = 0
    · exact early zero
    · exact unhung.paced zero
  obtain ⟨shape, taken⟩ := smooth_generating unhung.regular stops action
  obtain ⟨running, first⟩ := (Tuned.refl psrd).accepted stops
  have phase := regular.phase
  rw [taken] at phase
  rw [stopSmooth_accepted running first] at fits shape
  rw [shape] at phase
  refine ⟨regular, fun _ => ?_, fun _ n => ?_⟩
  · rw [shape]
    exact paced
  · rw [taken, shape]
    refine delays_long n phase ⟨?_, le_refl 0, Int.natCast_nonneg _, nofun, nofun⟩ (fits n)
    exact Int.ofNat_le.mpr (UInt16.le_iff_toNat_le.mp paced)

theorem Unhung.step (unhung : psrd.Unhung) (sound : psrd.Sound e) (action : HwStep psrd e t) :
    t.Unhung := by
  obtain ⟨raised, action⟩ := action
  have regular := unhung.regular.step action
  by_cases starts : psrd.starts e
  · exact sound.unhung starts action
  by_cases smooth : psrd.smoothStops e
  · exact unhung.smooth sound smooth action
  by_cases sudden : psrd.suddenStops e
  · obtain ⟨shape, taken, alive⟩ := sudden_generating unhung.regular sudden action
    refine ⟨regular, fun some_ => ?_, fun going n => ?_⟩
    · rw [shape] at some_ ⊢
      exact unhung.paced some_
    · rw [delays_of_generating shape taken]
      exact unhung.long (alive going) n
  have inert : !psrd.acts e := by simp [acts, starts, smooth, sudden]
  by_cases half : e = .halfTransfer
  · subst half
    have long := unhung.long (.inr (.inl raised))
    obtain ⟨request, paced⟩ := refill_paced unhung.regular action
    refine ⟨regular, fun some_ => paced (unhung.paced (request ▸ some_)), fun _ n => ?_⟩
    rcases refill_writes unhung.regular action with ⟨-, -, same⟩ | ⟨-, -, more⟩
    · rw [same]
      exact long n
    · have long := long (hmDmaBufSize + n)
      rw [more, List.forall_mem_append] at long
      exact long.2
  · obtain ⟨request, delay, alive⟩ := quiet_alive inert half raised action
    refine ⟨regular, fun some_ => ?_, fun going n => ?_⟩
    · rw [delay]
      exact unhung.paced (request ▸ some_)
    · cases kept : psrd.recurves e with
      | true => exact absurd (alive going) (sound.curve kept)
      | false =>
          obtain ⟨shape, taken⟩ := quiet_generating unhung.regular inert (by simp [kept]) half action
          rw [delays_of_generating shape taken]
          exact unhung.long (alive going) n

theorem Unhung.exec (unhung : psrd.Unhung) (sound : psrd.Sound e) (raised : psrd.Raised e) :
    psrd.exec e ≠ .error .badDelay := by
  intro action
  by_cases half : e = .halfTransfer
  · subst half
    obtain ⟨t, done⟩ := refill_returns unhung.regular
      (unhung.long (.inr (.inl raised)) hmDmaBufSize)
    cases action.symm.trans done
  by_cases complete : e = .transferComplete
  · subst complete
    obtain check | ⟨_, -, done⟩ := Except.error_of_bind action
    · cases (hmDmaCk_error check).1
    · cases done
  have command : !e.dma := by
    cases e <;> first | rfl | contradiction
  obtain ⟨starts, p, rcr, plan, stuck⟩ := starts_fails command action
  obtain ⟨cleared, phase⟩ := planned_ready plan
  obtain ⟨q, fill⟩ := (prefill_returns_iff cleared phase).mpr (sound.planned_long starts plan 199)
  exact stuck q fill

theorem unhung_init (idx : Fin hmMaxAxis) : (hmStepMotorInit idx).Unhung where
  regular := regular_init idx
  paced some_ := absurd rfl some_
  long alive := by
    rcases alive with timer | htif | tcif
    · cases timer
    · cases htif
    · cases tcif

end Unhung

section Run
variable {psrd : StepInfo} {e : Event} {idx : Fin hmMaxAxis} {es : List Event}

/-- No run of sound events, and none after it, arrives at the check of the delay with one that is
too short. -/
theorem ramp_never_hangs (run : Run (Guarded Sound HwStep) (hmStepMotorInit idx) es psrd)
    (sound : psrd.Sound e) (raised : psrd.Raised e) : psrd.exec e ≠ .error .badDelay := by
  have unhung := run.invariant Unhung (unhung_init idx)
    fun _ _ _ unhung action => unhung.step action.1 action.2
  exact unhung.exec sound raised

theorem ramp_never_hangs_move :
    (hmStepMotorInit 0).exec (.move .clear 40 20000 20000 1000) ≠ .error .badDelay := by
  refine ramp_never_hangs .nil ⟨fun _ p rcr plan => ?_, fun stops => ?_, nofun⟩ trivial
  · have begins := (hmStepMotorInit 0).planned_move .clear 20000 20000 1000
      (show ¬ (magnitude 40 = 1 ∨ magnitude 40 = 0) by decide)
    obtain ⟨rfl, -⟩ := Prod.mk.inj (Option.some.inj (begins.symm.trans plan))
    refine ⟨by decide +kernel, fun slow => absurd slow.2.2.1 (by decide +kernel), ?_⟩
    exact Ramp.fits_of_finite 39 (show _ = some 40 by decide +kernel) (by decide +kernel)
      (by decide +kernel)
  · exact absurd stops (by decide +kernel)

theorem ramp_hangs_fresh :
    Run HwStep (hmStepMotorInit 0) [] (hmStepMotorInit 0) ∧
    (hmStepMotorInit 0).starts (.move .clear 4 20000000 20000000 1000) ∧
    (hmStepMotorInit 0).exec (.move .clear 4 20000000 20000000 1000) = .error .badDelay :=
  ⟨.nil, by decide +kernel, by decide +kernel⟩

end Run

end StepInfo

end MotionBoard
