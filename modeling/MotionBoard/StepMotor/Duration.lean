import Mathlib.Tactic.Ring
import MotionBoard.StepMotor.FiniteMove
import MotionBoard.StepMotor.Hardware

namespace MotionBoard
open Transition TwoBuffer

def Event.checks : Event → Bool
  | .limitCheck _ | .externIrq .. => true
  | _ => false

namespace StepInfo

def Due (psrd : StepInfo) : Event → Prop
  | .burst => psrd.playing
  | .halfTransfer => psrd.pdma.htif
  | .transferComplete => psrd.pdma.tcif ∧ !psrd.pdma.htif
  | _ => False

instance (psrd : StepInfo) (e : Event) : Decidable (psrd.Due e) :=
  decidable_of_iff (e.dma ∧ psrd.Raised e ∧ (e = .burst → psrd.playing)) (by
    cases e <;> simp [Due, Raised, Event.dma])

abbrev DueStep : StepInfo → Event → StepInfo → Prop := Guarded Due Step

def playDue : StepInfo → Event → Option StepInfo := playGuarded Due (playFires exec)

theorem computes_due : Computes playDue DueStep := computes_fires.guarded Due

/-- What comes to an axis that is left alone: its hardware, and the checks of its switches that find
nothing to stop it for. -/
def Passive (psrd : StepInfo) (e : Event) : Prop :=
  psrd.Due e ∨ (e.checks ∧ psrd.limitStops e = false)

instance (psrd : StepInfo) (e : Event) : Decidable (psrd.Passive e) :=
  inferInstanceAs (Decidable (_ ∨ _))

abbrev PassiveStep : StepInfo → Event → StepInfo → Prop := Guarded Passive Step

def buffers (steps : Nat) : Nat := (steps + (hmDmaBufSize - 1)) / hmDmaBufSize

def unitsLeft (psrd : StepInfo) : Nat := psrd.pdma.cndtr.toNat / 3

def servedHalf (psrd : StepInfo) : Bool :=
  psrd.running && !psrd.pdma.htif && 2 * psrd.unitsLeft ≤ psrd.curBuf.units

/-- The updates and interrupts until the end of a motion: the units, the completion of the current
buffer and its half transfer unless it was served, and two interrupts for each later buffer. -/
def remaining (psrd : StepInfo) : Nat :=
  let later := psrd.stepsRequest.toNat - (psrd.stepsActual.toNat + psrd.curBuf.units)
  if psrd.running then
    psrd.unitsLeft + later + 2 * buffers later + if psrd.servedHalf then 1 else 2
  else 0

theorem buffers_share {steps : Nat} (some_ : 0 < steps) :
    buffers steps = buffers (steps - min hmDmaBufSize steps) + 1 := by
  unfold buffers
  simp only [hmDmaBufSize]
  omega

structure Draining (psrd : StepInfo) (step : Int32) (t : StepInfo) : Prop where
  coupled : t.Coupled
  way : Underway psrd step (t, t.servedHalf)
  half : t.pdma.htif → 2 * t.unitsLeft ≤ t.curBuf.units
  complete : t.unitsLeft = 0 → t.pdma.tcif
  shaft : t.motor.shaft = psrd.motor.shaft +
    t.heading * (t.stepsActual.toNat + t.curBuf.units - t.unitsLeft)

section Drain
variable {psrd t u : StepInfo} {step : Int32} {e : Event} {left : Nat}

theorem Playing.unitsLeft (play : t.Playing left) : t.unitsLeft = left := by
  unfold StepInfo.unitsLeft
  rw [play.count, Nat.mul_div_cancel_left _ (by decide)]

theorem Draining.playing (drain : Draining psrd step t) : t.Playing t.unitsLeft := by
  obtain ⟨left, play⟩ := drain.coupled.playing drain.way.running
  rw [play.unitsLeft]
  exact play

theorem Draining.due (drain : Draining psrd step t) : ∃ e, t.Due e := by
  by_cases spent : t.unitsLeft = 0
  · have complete := drain.complete spent
    by_cases half : t.pdma.htif
    · exact ⟨.halfTransfer, half⟩
    · exact ⟨.transferComplete, complete, by simpa using half⟩
  · exact ⟨.burst, drain.playing.playing_iff.mpr spent⟩

theorem DueStep.dmaStep (coupled : t.Coupled) (running : t.running)
    (action : DueStep t e u) (note : u.servedHalf = t.noteServed e t.servedHalf) :
    DmaStep (t, t.servedHalf) e (u, u.servedHalf) := by
  obtain ⟨due, action⟩ := action
  cases e with
  | burst => exact ⟨rfl, trivial, action, note⟩
  | halfTransfer => exact ⟨rfl, running, action, note⟩
  | transferComplete =>
      obtain ⟨left, play⟩ := coupled.playing running
      have spent : t.unitsLeft = 0 := play.unitsLeft.trans (play.complete due.1).1
      refine ⟨rfl, ⟨running, ?_⟩, action, note⟩
      simp only [servedHalf, running, spent, Bool.and_eq_true, decide_eq_true_eq, true_and]
      exact ⟨due.2, Nat.zero_le _⟩
  | _ => exact due.elim

theorem Playing.pulse_flags (play : t.Playing (left + 1)) (whole : t.curBuf.Whole) :
    t.burst.pdma.htif = (t.pdma.htif ||
        decide (2 * left ≤ t.curBuf.units ∧ t.curBuf.units < 2 * (left + 1))) ∧
      t.burst.pdma.tcif = (t.pdma.tcif || decide (left = 0)) := by
  have moves : t.playing := play.playing_iff.mpr (Nat.succ_ne_zero left)
  have count := cndtr_moveUnit play.count
  have length := whole.1
  simp only [hmDmaBufUnitSize] at length
  have zero : t.pdma.cndtr - 3 = 0 ↔ left = 0 := by
    rw [← UInt16.toNat_inj, count, UInt16.toNat_zero]
    omega
  obtain ⟨tim, -, same⟩ := burst_eq moves
  rw [same]
  unfold DmaChannel.moveUnit
  dsimp only
  rw [count, play.reload, play.count, length]
  refine ⟨congrArg (t.pdma.htif || ·) (decide_eq_decide.mpr ?_),
    congrArg (t.pdma.tcif || ·) (decide_eq_decide.mpr zero)⟩
  omega

theorem Playing.pulse_servedHalf (play : t.Playing (left + 1)) (whole : t.curBuf.Whole) :
    t.burst.servedHalf = t.servedHalf := by
  have htif := (play.pulse_flags whole).1
  have after := (play.pulse whole).unitsLeft
  have before := play.unitsLeft
  obtain ⟨tim, -, same⟩ := burst_eq (play.playing_iff.mpr (Nat.succ_ne_zero left))
  have cur : t.burst.curBuf = t.curBuf := by rw [same]; rfl
  unfold servedHalf
  rw [burst_running, htif, after, before, cur]
  cases t.pdma.htif with
  | true => simp
  | false =>
      simp only [Bool.false_or, Bool.not_false, Bool.and_true, Bool.and_assoc]
      congr 1
      rw [Bool.eq_iff_iff]
      simp only [Bool.and_eq_true, Bool.not_eq_true', decide_eq_false_iff_not, decide_eq_true_eq]
      omega

theorem Draining.pulse (drain : Draining psrd step t) (due : t.Due .burst) :
    Draining psrd step t.burst ∧ t.remaining = t.burst.remaining + 1 := by
  have whole := drain.coupled.regular.whole t.dmaBufIdx
  have running := drain.way.running
  have nonzero := drain.playing.playing_iff.mp due
  obtain ⟨left, count⟩ := Nat.exists_eq_succ_of_ne_zero nonzero
  have play := drain.playing
  rw [count] at play
  have after := (play.pulse whole).unitsLeft
  have flags := play.pulse_flags whole
  have served := play.pulse_servedHalf whole
  have coupled := drain.coupled.pulse
  have half := drain.half
  have shaft := drain.shaft
  have moved := DueStep.dmaStep (e := .burst) drain.coupled running ⟨due, rfl⟩ (by
    change _ = (t.servedHalf && t.running)
    rw [served, running, Bool.and_true])
  have way : Underway psrd step (t.burst, t.burst.servedHalf) :=
    drain.way.pulse (drain.way.disciplined.step moved.2)
  obtain ⟨tim, -, same⟩ := burst_eq due
  have cur : t.burst.curBuf = t.curBuf := by rw [same]; rfl
  refine ⟨⟨coupled, way, ?_, ?_, ?_⟩, ?_⟩
  · rw [flags.1, after, cur]
    intro raised
    rw [Bool.or_eq_true, decide_eq_true_eq] at raised
    rcases raised with before | crossed
    · have := half before
      omega
    · exact crossed.1
  · rw [after, flags.2]
    intro spent
    simp [spent]
  · have pin := drain.coupled.dirPin running
    rw [after, cur, same]
    dsimp only
    change t.motor.shaft + _ = _ + t.heading * (t.stepsActual.toNat + _ - _)
    have step_ : (if t.motor.dirPin then 1 else -1) = t.heading := by
      simp [heading, pin]
    rw [shaft, count, step_]
    push_cast
    ring
  · unfold remaining
    rw [served, burst_running, after, cur, count]
    simp only [running, if_true]
    rw [same]
    dsimp only
    omega

theorem not_served (raised : t.pdma.htif) :
    t.servedHalf = false := by
  simp [servedHalf, raised]

theorem Draining.refill (drain : Draining psrd step t) (due : t.Due .halfTransfer)
    (fill : t.hmDmaFillNextBuf = .ok u) :
    Draining psrd step { u with pdma.htif := false } ∧
      t.remaining = ({ u with pdma.htif := false } : StepInfo).remaining + 1 := by
  have regular := drain.coupled.regular
  have running := drain.way.running
  have half := drain.half due
  have before := not_served due
  have action : t.exec .halfTransfer = .ok { u with pdma.htif := false } := by
    change t.serveHalf = _
    unfold serveHalf
    rw [fill]
    rfl
  have coupled := drain.coupled.refill due fill
  have left := (drain.playing.refill regular fill).unitsLeft
  have complete := drain.complete
  have shaft := drain.shaft
  obtain ⟨r, taken, n, buf, same⟩ := (hmDmaFillNextBuf_ok regular.whole fill).frame
  have cur : u.curBuf = t.curBuf := by
    rw [same]
    exact setBuf_get_ne _ _ _ (succ_idx_ne _)
  have going : u.running = t.running := by rw [same]; rfl
  have after : ({ u with pdma.htif := false } : StepInfo).servedHalf = true := by
    unfold servedHalf
    rw [left]
    change (u.running && !false && decide (_ ≤ u.curBuf.units)) = true
    rw [cur, going, running]
    simpa using half
  have moved := DueStep.dmaStep (e := .halfTransfer) drain.coupled running ⟨due, action⟩ after
  have way := drain.way.refill fill (drain.way.disciplined.step moved.2)
  refine ⟨⟨coupled, after.symm ▸ way, nofun, fun spent => ?_, ?_⟩, ?_⟩
  · rw [left] at spent
    have raised := complete spent
    rw [same]
    exact raised
  · rw [left]
    change u.motor.shaft = _ + _ * (_ + u.curBuf.units - _)
    rw [cur, same]
    exact shaft
  · unfold remaining
    rw [before, after, left]
    change (if t.running then _ else _) = (if u.running then _ + (_ - (_ + u.curBuf.units)) +
      2 * buffers (_ - (_ + u.curBuf.units)) + _ else _) + 1
    rw [cur, going, running, same]
    rfl

theorem Draining.request (drain : Draining psrd step t) :
    t.stepsRequest.toNat = step.toInt.natAbs := by
  rw [drain.way.request, toNat_magnitude]

theorem Draining.switch (drain : Draining psrd step t) (due : t.Due .transferComplete)
    (check : t.hmDmaCk = .ok t.switched)
    (way : Underway psrd step ({ t.switched with pdma.tcif := false }, false)) :
    Draining psrd step { t.switched with pdma.tcif := false } ∧
      t.remaining = ({ t.switched with pdma.tcif := false } : StepInfo).remaining + 1 := by
  have regular := drain.coupled.regular
  have running := drain.way.running
  have spent : t.unitsLeft = 0 := (drain.playing.complete due.1).1
  have coupled := drain.coupled.complete due check
  have left := (switched_playing regular.whole).unitsLeft
  have cur : t.switched.curBuf = t.nextBuf := t.completeBuf_nextBuf
  have some_ : 0 < t.nextBuf.units := by
    have some_ := way.cur_pos
    change 0 < t.switched.curBuf.units at some_
    rwa [cur] at some_
  have served : t.servedHalf := by
    unfold servedHalf
    simp only [running, spent, Bool.and_eq_true, decide_eq_true_eq, true_and]
    exact ⟨due.2, Nat.zero_le _⟩
  have after : ({ t.switched with pdma.tcif := false } : StepInfo).servedHalf = false := by
    unfold servedHalf
    rw [left]
    change (_ && decide (2 * t.nextBuf.units ≤ t.switched.curBuf.units)) = false
    rw [cur, decide_eq_false (by omega), Bool.and_false]
  have done : t.completeBuf.stepsActual.toNat = t.stepsActual.toNat + t.curBuf.units :=
    drain.way.completed
  have share : t.nextBuf.units =
      min hmDmaBufSize (step.toInt.natAbs - t.completeBuf.stepsActual.toNat) := by
    have fair := way.fair
    simp only [Feed.Fair, way.order] at fair
    rw [← cur]
    exact fair.2.1
  have wanted : t.completeBuf.stepsActual.toNat < step.toInt.natAbs := way.wanted
  refine ⟨⟨coupled, by rw [after]; exact way, ?_, fun spent => ?_, ?_⟩, ?_⟩
  · intro raised
    have clear : t.pdma.htif = false := by simpa using due.2
    exact absurd (clear.symm.trans raised) Bool.false_ne_true
  · rw [left] at spent
    omega
  · have shaft := drain.shaft
    rw [left]
    change t.motor.shaft = _ + t.heading * (t.completeBuf.stepsActual.toNat + t.switched.curBuf.units - _)
    rw [shaft, spent, cur, done]
    push_cast
    ring
  · unfold remaining
    rw [served, after, left, spent]
    change (if t.running then _ else _) = (if t.running then t.nextBuf.units +
      (t.stepsRequest.toNat - (t.completeBuf.stepsActual.toNat + t.switched.curBuf.units)) +
      2 * buffers (t.stepsRequest.toNat -
        (t.completeBuf.stepsActual.toNat + t.switched.curBuf.units)) + _ else _) + 1
    rw [cur, done, drain.request, running]
    rw [done] at share wanted
    have later : 0 < step.toInt.natAbs - (t.stepsActual.toNat + t.curBuf.units) := by omega
    have whole := buffers_share later
    rw [← share] at whole
    rw [Nat.sub_add_eq step.toInt.natAbs (t.stepsActual.toNat + t.curBuf.units)]
    simp only [if_true, Bool.false_eq_true, if_false, whole]
    omega

theorem heading_natAbs (dir : t.dir = (psrd.towards step).dir) :
    t.heading * step.toInt.natAbs = step.toInt := by
  have sign : step < 0 ↔ step.toInt < 0 := by
    rw [Int32.lt_iff_toInt_lt, Int32.toInt_zero]
  unfold heading
  rw [dir]
  unfold towards
  dsimp only
  by_cases negative : step < 0
  · have below := sign.mp negative
    rw [if_pos negative, if_neg (by decide)]
    omega
  · have above := mt sign.mpr negative
    rw [if_neg negative, if_pos rfl]
    omega

theorem Draining.finish (drain : Draining psrd step t) (due : t.Due .transferComplete)
    (last : ¬ t.feed.More) : t.remaining = 1 ∧
      t.finished.motor.shaft = psrd.motor.shaft + step.toInt := by
  have running := drain.way.running
  have spent : t.unitsLeft = 0 := (drain.playing.complete due.1).1
  have ended := drain.way.fair.finished drain.way.order last
  change t.stepsActual.toNat + t.curBuf.units = step.toInt.natAbs at ended
  have served : t.servedHalf := by
    unfold servedHalf
    simp only [running, spent, Bool.and_eq_true, decide_eq_true_eq, true_and]
    exact ⟨due.2, Nat.zero_le _⟩
  constructor
  · unfold remaining
    rw [served, running, spent, drain.request, ended, Nat.sub_self]
    rfl
  · have signed : t.heading * step.toInt.natAbs = step.toInt := heading_natAbs drain.way.dir
    change t.motor.shaft = _
    rw [drain.shaft, spent, ← Int.natCast_add, ended, Int.natCast_zero, Int.sub_zero, signed]

structure Drained (psrd : StepInfo) (step : Int32) (t : StepInfo) : Prop where
  coupled : t.Coupled
  arrived : Arrived psrd step t
  shaft : t.motor.shaft = psrd.motor.shaft + step.toInt

theorem Draining.dueStep (drain : Draining psrd step t) (action : DueStep t e u) :
    (Draining psrd step u ∨ Drained psrd step u) ∧ t.remaining = u.remaining + 1 := by
  obtain ⟨due, action⟩ := action
  have regular := drain.coupled.regular
  have running := drain.way.running
  cases e with
  | burst =>
      obtain rfl := Except.ok.inj action
      obtain ⟨after, count⟩ := drain.pulse due
      exact ⟨.inl after, count⟩
  | halfTransfer =>
      obtain ⟨v, fill, rfl⟩ := Except.ok_of_map action
      obtain ⟨after, count⟩ := drain.refill due fill
      exact ⟨.inl after, count⟩
  | transferComplete =>
      obtain ⟨v, check, rfl⟩ := Except.ok_of_map action
      have coupled := drain.coupled.complete due check
      rcases hmDmaCk_ok (regular.noWrap running) check with ⟨more, -, rfl⟩ | ⟨last, rfl⟩
      · have way := drain.way.switched more ⟨coupled.regular, fun _ served => by cases served⟩
        obtain ⟨after, count⟩ := drain.switch due check way
        exact ⟨.inl after, count⟩
      · obtain ⟨one, shaft⟩ := drain.finish due last
        refine ⟨.inr ⟨coupled, drain.way.finished last, shaft⟩, ?_⟩
        rw [one]
        rfl
  | _ => exact due.elim

theorem Drained.not_due (drained : Drained psrd step t) : ¬ t.Due e := by
  have rest := drained.coupled.resting drained.arrived.stopped
  intro due
  cases e with
  | burst =>
      simp [Due, StepInfo.playing, rest.timer] at due
  | halfTransfer => exact absurd (rest.half.symm.trans due) Bool.false_ne_true
  | transferComplete => exact absurd (rest.complete.symm.trans due.1) Bool.false_ne_true
  | _ => exact due

theorem Drained.remaining (drained : Drained psrd step t) : t.remaining = 0 :=
  if_neg (not_running_of_stopped drained.arrived.stopped)

theorem check_frame (checks : e.checks) (goes : t.limitStops e = false) (action : t.exec e = .ok u) :
    ∃ last, u = { t with motorHwConfig.blastHitHome := last } := by
  cases e with
  | limitCheck io =>
      obtain rfl := Except.ok.inj action
      unfold hmMotorLimitLogicalCheck
      cases running : t.running with
      | false => exact ⟨_, rfl⟩
      | true =>
          have clear : (t.hitTravelLimit io || t.hitHomeTrigger io) = false := by
            have goes : (t.running && (t.hitTravelLimit io || t.hitHomeTrigger io)) = false := goes
            rwa [running, Bool.true_and] at goes
          simp only [Bool.not_true, Bool.false_eq_true, if_false, clear]
          exact t.markLastHitHome_frame io
  | externIrq func extline io =>
      obtain rfl := Except.ok.inj action
      exact ⟨_, if_neg (Bool.eq_false_iff.mp goes)⟩
  | _ => cases checks

theorem Coupled.mark (coupled : t.Coupled) (last : Bool) :
    { t with motorHwConfig.blastHitHome := last }.Coupled where
  regular := { coupled.regular with }
  resting stopped := { coupled.resting stopped with }
  playing running := (coupled.playing running).imp fun _ play => { play with }
  dirPin := coupled.dirPin

theorem Draining.mark (drain : Draining psrd step t) (last : Bool) :
    Draining psrd step { t with motorHwConfig.blastHitHome := last } :=
  have coupled := drain.coupled.mark last
  { drain with
    coupled
    way := { drain.way with disciplined := ⟨coupled.regular, drain.way.disciplined.ready⟩ } }

theorem Drained.mark (drained : Drained psrd step t) (last : Bool) :
    Drained psrd step { t with motorHwConfig.blastHitHome := last } :=
  { drained with coupled := drained.coupled.mark last, arrived := { drained.arrived with } }

theorem Due.checks (due : t.Due e) : e.checks = false := by
  cases e with
  | limitCheck | externIrq => exact due.elim
  | _ => rfl

theorem passive_run {es : List Event} (run : Run PassiveStep t es u)
    (begun : Draining psrd step t ∨ Drained psrd step t) :
    (Draining psrd step u ∨ Drained psrd step u) ∧
      es.countP (fun e => !e.checks) + u.remaining = t.remaining := by
  induction run with
  | nil => exact ⟨begun, Nat.zero_add _⟩
  | @cons s m u e es action _ ih =>
      obtain ⟨due | ⟨checks, goes⟩, action⟩ := action
      · rcases begun with drain | drained
        · obtain ⟨after, count⟩ := drain.dueStep ⟨due, action⟩
          obtain ⟨ends, length⟩ := ih after
          refine ⟨ends, ?_⟩
          rw [count, ← length, List.countP_cons_of_pos (by simp [due.checks])]
          omega
        · exact absurd due drained.not_due
      · obtain ⟨last, rfl⟩ := check_frame checks goes action
        obtain ⟨ends, length⟩ := ih (begun.imp (·.mark last) (·.mark last))
        refine ⟨ends, ?_⟩
        rw [List.countP_cons_of_neg (by simp [checks])]
        exact length

theorem due_counts {es : List Event} (run : Run DueStep t es u) :
    Run PassiveStep t es u ∧ es.countP (fun e => !e.checks) = es.length := by
  refine ⟨run.mono fun _ _ _ action => ⟨.inl action.1, action.2⟩, ?_⟩
  induction run with
  | nil => rfl
  | cons action _ ih =>
      rw [List.countP_cons_of_pos (by simp [Due.checks action.1]), ih, List.length_cons]

theorem due_run {es : List Event} (run : Run DueStep t es u)
    (begun : Draining psrd step t ∨ Drained psrd step t) :
    (Draining psrd step u ∨ Drained psrd step u) ∧ es.length + u.remaining = t.remaining := by
  obtain ⟨passive, count⟩ := due_counts run
  have ends := passive_run passive begun
  rwa [count] at ends

theorem Draining.failure {failure : Halt} (drain : Draining psrd step t) (due : t.Due e)
    (action : t.exec e = .error failure) : e = .halfTransfer ∧ failure = .badDelay := by
  cases e with
  | burst => cases action
  | halfTransfer =>
      refine ⟨rfl, ?_⟩
      rcases drain.coupled.regular.failure action with badDelay | ⟨-, other⟩
      · exact badDelay
      · cases other
  | transferComplete =>
      obtain ⟨-, -, -, valid⟩ := drain.coupled.completion due
      obtain check | ⟨_, -, done⟩ := Except.error_of_bind action
      · exact absurd (hmDmaCk_error check).2 valid
      · cases done
  | _ => exact due.elim

theorem launched_draining {io : Pins} {accel decel speed : UInt32} (coupled : psrd.Coupled)
    (some_ : step ≠ 0) (starts : psrd.starts (.move io step accel decel speed))
    (action : psrd.exec (.move io step accel decel speed) = .ok t) :
    Draining psrd step t ∧
      t.remaining = step.toInt.natAbs + 2 * buffers step.toInt.natAbs := by
  obtain ⟨stopped, free⟩ := goes_ahead_iff.mp starts
  obtain ⟨answer, start⟩ := map_snd_ok action
  have after := coupled.step (quietStep_of_starts starts action)
  have rest := coupled.resting stopped
  rcases hmStepMotorMove_ok start with ⟨moving, -⟩ | ⟨-, -, blocked, -⟩ | ⟨-, rfl, -, launched⟩
  · exact absurd stopped moving
  · exact absurd blocked free
  · have way := launched_underway some_ start launched.axisState
    have actual : t.stepsActual = 0 := launched.prepared.stepsActual (magnitude_finite step)
    have some_ : 0 < t.curBuf.units := way.cur_pos
    have pdma := launched.pdma
    rw [show (psrd.towards step).pdma.enabled = false from rest.channel] at pdma
    have left : t.unitsLeft = t.curBuf.units := by
      unfold unitsLeft
      rw [pdma]
      exact (UInt16.toNat_div t.curBuf.dmaBufLen 3).symm
    have served : t.servedHalf = false := by
      unfold servedHalf
      rw [left, decide_eq_false (by omega), Bool.and_false]
    have drain : Draining psrd step t := by
      refine ⟨after, served.symm ▸ way, fun raised => ?_, fun spent => by omega, ?_⟩
      · rw [pdma] at raised
        exact absurd (rest.half.symm.trans raised) Bool.false_ne_true
      · rw [left, actual, UInt32.toNat_zero, Nat.cast_zero, Int.zero_add, Int.sub_self, Int.mul_zero,
          Int.add_zero]
        exact launched.prepared.shaft
    refine ⟨drain, ?_⟩
    have share : t.curBuf.units = min hmDmaBufSize step.toInt.natAbs := by
      have fair := way.fair
      simp only [Feed.Fair, way.order, actual, UInt32.toNat_zero, Nat.sub_zero] at fair
      exact fair.2.1
    have nonzero : 0 < step.toInt.natAbs := way.wanted.trans_le' (Nat.zero_le _)
    have whole := buffers_share nonzero
    rw [← share] at whole
    unfold remaining
    rw [served, left, drain.request, actual, UInt32.toNat_zero, Nat.zero_add, whole]
    simp only [way.running, if_true, Bool.false_eq_true, if_false]
    omega

theorem Draining.remaining_pos (drain : Draining psrd step t) : 0 < t.remaining := by
  unfold StepInfo.remaining
  simp only [drain.way.running, if_true]
  split <;> omega

/-- Each unit of a move is one period of the timer. The repetition word of a single step has TIM1,
the timer of the first axis, make two of it. -/
def Unrepeated (idx : Fin hmMaxAxis) (step : Int32) : Prop := idx ≠ 0 ∨ step.toInt.natAbs ≠ 1

instance (idx : Fin hmMaxAxis) (step : Int32) : Decidable (Unrepeated idx step) :=
  inferInstanceAs (Decidable (_ ∨ _))

def moveCost (step : Int32) : Nat := step.toInt.natAbs + 2 * buffers step.toInt.natAbs

theorem launched_run {es : List Event} {io : Pins} {accel decel speed : UInt32}
    (coupled : psrd.Coupled) (some_ : step ≠ 0)
    (starts : psrd.starts (.move io step accel decel speed))
    (action : psrd.exec (.move io step accel decel speed) = .ok t) (run : Run PassiveStep t es u) :
    let count := es.countP fun e => !e.checks
    count ≤ moveCost step ∧ (u.axisState = .asStoped ↔ count = moveCost step) ∧
      (u.axisState = .asStoped →
        u.pos = psrd.pos + step ∧ u.motor.shaft = psrd.motor.shaft + step.toInt) := by
  intro count
  obtain ⟨drain, whole⟩ := launched_draining coupled some_ starts action
  obtain ⟨ends, length⟩ := passive_run run (.inl drain)
  rw [whole] at length
  change count + u.remaining = moveCost step at length
  rcases ends with drain | drained
  · have positive := drain.remaining_pos
    have moving : ¬ u.axisState = .asStoped := by
      rw [running_iff.mp drain.way.running]
      decide
    exact ⟨by omega, iff_of_false moving (by omega), fun stopped => absurd stopped moving⟩
  · have none_ := drained.remaining
    exact ⟨by omega, iff_of_true drained.arrived.stopped (by omega),
      fun _ => ⟨drained.arrived.pos, drained.shaft⟩⟩

/-- A move that was started takes as many updates and interrupts as it has steps and twice as many
as it has buffers, whatever their order. Until then one of them is due, and a refill may only end
in a delay too short. Then the axis stands where the move leads, with nothing due. -/
theorem move_takes {idx : Fin hmMaxAxis} {before es : List Event} {io : Pins}
    {accel decel speed : UInt32} (reached : Run QuietStep (hmStepMotorInit idx) before psrd)
    (some_ : step ≠ 0) (starts : psrd.starts (.move io step accel decel speed))
    (action : psrd.exec (.move io step accel decel speed) = .ok t) (run : Run DueStep t es u) :
    es.length ≤ step.toInt.natAbs + 2 * buffers step.toInt.natAbs ∧
      (u.axisState = .asStoped ↔
        es.length = step.toInt.natAbs + 2 * buffers step.toInt.natAbs) ∧
      (u.axisState = .asStoped ↔ ∀ e, ¬ u.Due e) ∧
      (∀ e failure, u.Due e → u.exec e = .error failure →
        e = .halfTransfer ∧ failure = .badDelay) ∧
      (u.axisState = .asStoped → u.pos = psrd.pos + step ∧
        (Unrepeated idx step → u.motor.shaft = psrd.motor.shaft + step.toInt)) := by
  have coupled := reachable_coupled reached
  obtain ⟨passive, count⟩ := due_counts run
  obtain ⟨most, last, ended⟩ := launched_run coupled some_ starts action passive
  rw [count] at most last
  have ended (stopped : u.axisState = .asStoped) : u.pos = psrd.pos + step ∧
      (Unrepeated idx step → u.motor.shaft = psrd.motor.shaft + step.toInt) :=
    (ended stopped).imp_right fun shaft _ => shaft
  obtain ⟨drain, -⟩ := launched_draining coupled some_ starts action
  obtain ⟨drain | drained, -⟩ := passive_run passive (.inl drain)
  · have moving : ¬ u.axisState = .asStoped := by
      rw [running_iff.mp drain.way.running]
      decide
    obtain ⟨e, due⟩ := drain.due
    exact ⟨most, last, iff_of_false moving fun idle => idle e due, fun _ _ => drain.failure, ended⟩
  · have idle (e : Event) : ¬ u.Due e := drained.not_due
    exact ⟨most, last, iff_of_true drained.arrived.stopped idle, fun e _ due => absurd due (idle e),
      ended⟩

theorem move_takes_three : ∃ t u,
    (hmStepMotorInit 0).exec (.move .clear (-3) 1000 1000 1000) = .ok t ∧
    Run DueStep t [.burst, .burst, .halfTransfer, .burst, .transferComplete] u ∧
    u.axisState = .asStoped ∧ u.pos = -3 ∧ u.motor.shaft = -3 := by
  obtain ⟨t, action, test⟩ := ok_of_any
    (show ((hmStepMotorInit 0).exec (.move .clear (-3) 1000 1000 1000)).toOption.any
      fun t : StepInfo => ([Event.burst, .burst, .halfTransfer, .burst, .transferComplete].foldlM
        playDue t).any fun _ : StepInfo => true by
      decide +kernel)
  obtain ⟨u, run, -⟩ := computes_due.run_any test
  obtain ⟨-, last, -, -, ended⟩ := move_takes .nil (by decide) (by decide) action run
  have stopped : u.axisState = .asStoped := last.mpr rfl
  obtain ⟨pos, shaft⟩ := ended stopped
  exact ⟨t, u, action, run, stopped, pos, shaft (by decide)⟩

end Drain

def displacement : List Int32 → Int
  | [] => 0
  | step :: steps => step.toInt + displacement steps

def journeyCost : List Int32 → Nat
  | [] => 0
  | step :: steps => moveCost step + journeyCost steps

inductive Journey : StepInfo → List Int32 → List Event → StepInfo → Prop
  | nil {psrd : StepInfo} : Journey psrd [] [] psrd
  | move {psrd t u v : StepInfo} {io : Pins} {step : Int32} {accel decel speed : UInt32}
      {steps : List Int32} {es es' : List Event} :
      step ≠ 0 → psrd.starts (.move io step accel decel speed) →
        psrd.exec (.move io step accel decel speed) = .ok t → Run DueStep t es u →
        u.axisState = .asStoped → Journey u steps es' v → Journey psrd (step :: steps) (es ++ es') v

section Journey
variable {psrd t : StepInfo} {steps : List Int32} {es : List Event}

theorem Journey.ends (journey : Journey psrd steps es t) (coupled : psrd.Coupled) :
    t.pos = psrd.pos + Int32.ofInt (displacement steps) ∧
      t.motor.shaft = psrd.motor.shaft + displacement steps ∧ es.length = journeyCost steps := by
  induction journey with
  | nil => exact ⟨(Int32.add_zero _).symm, (Int.add_zero _).symm, rfl⟩
  | @move psrd t u v io step accel decel speed steps es es' some_ starts action run stopped _ ih =>
      obtain ⟨drain, whole⟩ := launched_draining coupled some_ starts action
      obtain ⟨ends, length⟩ := due_run run (.inl drain)
      have drained : Drained psrd step u := ends.resolve_left fun drain =>
        not_running_of_stopped stopped drain.way.running
      obtain ⟨pos, shaft, count⟩ := ih drained.coupled
      rw [drained.remaining, whole, Nat.add_zero] at length
      refine ⟨?_, ?_, ?_⟩
      · rw [pos, drained.arrived.pos, displacement, Int32.ofInt_add, Int32.ofInt_toInt,
          Int32.add_assoc]
      · rw [shaft, drained.shaft, displacement, Int.add_assoc]
      · rw [List.length_append, length, count]
        rfl

/-- Whatever moves an axis makes, it ends as far from where it began as they lead together, by its
own count and by the turns of the motor, after exactly the updates and interrupts of each. -/
theorem journey_displacement {idx : Fin hmMaxAxis} {before : List Event}
    (reached : Run QuietStep (hmStepMotorInit idx) before psrd)
    (journey : Journey psrd steps es t) :
    t.pos = psrd.pos + Int32.ofInt (displacement steps) ∧
      ((∀ step ∈ steps, Unrepeated idx step) →
        t.motor.shaft = psrd.motor.shaft + displacement steps) ∧
      es.length = journeyCost steps := by
  obtain ⟨pos, shaft, count⟩ := journey.ends (reachable_coupled reached)
  exact ⟨pos, fun _ => shaft, count⟩

theorem journey_displacement_back : ∃ t es,
    Journey (hmStepMotorInit 1) [2, -1, -1] es t ∧ t.pos = 0 ∧ t.motor.shaft = 0 ∧
      es.length = 10 := by
  obtain ⟨t₁, start₁, test⟩ := ok_of_any
    (show ((hmStepMotorInit 1).exec (.move .clear 2 1000 1000 1000)).toOption.any
      fun t₁ : StepInfo => ([Event.burst, .burst, .halfTransfer, .transferComplete].foldlM
        playDue t₁).any fun u₁ : StepInfo => decide (u₁.axisState = .asStoped) &&
        (u₁.starts (.move .clear (-1) 1000 1000 1000) &&
        (u₁.exec (.move .clear (-1) 1000 1000 1000)).toOption.any fun t₂ : StepInfo =>
          ([Event.burst, .halfTransfer, .transferComplete].foldlM playDue t₂).any
            fun u₂ : StepInfo => decide (u₂.axisState = .asStoped) &&
            (u₂.starts (.move .clear (-1) 1000 1000 1000) &&
            (u₂.exec (.move .clear (-1) 1000 1000 1000)).toOption.any fun t₃ : StepInfo =>
              ([Event.burst, .halfTransfer, .transferComplete].foldlM playDue t₃).any
                fun u₃ : StepInfo => decide (u₃.axisState = .asStoped))) by
      decide +kernel)
  obtain ⟨u₁, run₁, test⟩ := computes_due.run_any test
  simp only [Bool.and_eq_true, decide_eq_true_eq] at test
  obtain ⟨stopped₁, starts₂, test⟩ := test
  obtain ⟨t₂, start₂, test⟩ := ok_of_any test
  obtain ⟨u₂, run₂, test⟩ := computes_due.run_any test
  simp only [Bool.and_eq_true, decide_eq_true_eq] at test
  obtain ⟨stopped₂, starts₃, test⟩ := test
  obtain ⟨t₃, start₃, test⟩ := ok_of_any test
  obtain ⟨u₃, run₃, stopped₃⟩ := computes_due.run_any test
  have journey : Journey (hmStepMotorInit 1) [2, -1, -1] _ u₃ :=
    .move (by decide) (by decide) start₁ run₁ stopped₁
      (.move (by decide) starts₂ start₂ run₂ stopped₂
        (.move (by decide) starts₃ start₃ run₃ (of_decide_eq_true stopped₃) .nil))
  obtain ⟨pos, shaft, length⟩ := journey_displacement .nil journey
  exact ⟨u₃, _, journey, pos, shaft fun _ _ => .inl (by decide), length⟩

end Journey

end StepInfo

end MotionBoard
