import MotionBoard.StepMotor.Hardware
import MotionBoard.StepMotor.Position

namespace MotionBoard
open Transition TwoBuffer

namespace StepInfo

abbrev CruiseStep : StepInfo → Event → StepInfo → Prop := Guarded (fun s e => !s.acts e) HwStep

def playHw : StepInfo → Event → Option StepInfo := playGuarded Raised (playFires exec)

theorem computes_hw : Computes playHw HwStep := computes_fires.guarded Raised

def playCruise : StepInfo → Event → Option StepInfo := playGuarded (fun s e => !s.acts e) playHw

theorem computes_cruise : Computes playCruise CruiseStep := computes_hw.guarded _

/-- The channel has consumed `base` units before the order it plays, and of that order all but what
its counter still says. -/
structure Counted (psrd : StepInfo) (base : Nat) : Prop where
  coupled : psrd.Coupled
  running : psrd.running
  count : ∀ o, psrd.feed.order = some o →
    3 * psrd.pdma.consumed + psrd.pdma.cndtr.toNat = 3 * (base + (o.done + psrd.feed.cur))

inductive Cruise (psrd : StepInfo) (base : Nat) (t : StepInfo) : Prop
  | refill : t.Counted base → psrd.nextBuf.valid = 0 → t.feed = psrd.feed.fill hmDmaBufSize →
      Cruise psrd base t
  | advance (units : Nat) : t.Counted base → psrd.feed.More → 0 < psrd.feed.cur →
      psrd.feed.next = some units → t.feed = psrd.feed.advance units → Cruise psrd base t
  | finish : ¬ psrd.feed.More → t.axisState = .asStoped →
      (∀ o, psrd.feed.order = some o → t.pdma.consumed = base + (o.done + psrd.feed.cur)) →
      Cruise psrd base t
  | same : t.Counted base → t.feed = psrd.feed → Cruise psrd base t

section Cruise
variable {psrd t : StepInfo} {base : Nat} {e : Event}

theorem CruiseStep.quiet (action : CruiseStep psrd e t) : QuietStep psrd e t := by
  refine ⟨fun stops => ?_, action.2⟩
  have inert := action.1
  simp [acts, stops] at inert

theorem Effect.supply (effect : Effect psrd e t) (coupled : psrd.Coupled) (running : psrd.running)
    (inert : !psrd.acts e) (other : e ≠ .transferComplete) :
    3 * t.pdma.consumed + t.pdma.cndtr.toNat =
      3 * psrd.pdma.consumed + psrd.pdma.cndtr.toNat := by
  cases effect with
  | pulse =>
      by_cases moves : psrd.playing
      · obtain ⟨left, play⟩ := coupled.playing running
        obtain ⟨left, rfl⟩ := Nat.exists_eq_succ_of_ne_zero (play.playing_iff.mp moves)
        obtain ⟨tim, -, same⟩ := burst_eq moves
        have counter := cndtr_moveUnit play.count
        have count := play.count
        rw [same]
        change 3 * (psrd.pdma.consumed + 1) + (psrd.pdma.cndtr - 3).toNat = _
        omega
      · rw [burst_idle moves]
  | refill fill =>
      obtain ⟨r, taken, n, buf, rfl⟩ := (hmDmaFillNextBuf_ok coupled.regular.whole fill).frame
      rfl
  | complete => exact absurd rfl other
  | launch starts => simp [acts, starts] at inert
  | smooth stops => simp [acts, stops] at inert
  | sudden stops => simp [acts, stops] at inert
  | place => rfl
  | tune _ _ tuned =>
      obtain ⟨_, _, _, _, _, _, rfl, -⟩ := tuned
      rfl

theorem Counted.step (counted : psrd.Counted base) (action : CruiseStep psrd e t) :
    Cruise psrd base t := by
  have coupled := counted.coupled.step action.quiet
  have regular := counted.coupled.regular
  obtain ⟨inert, raised, action⟩ := action
  have going (state : t.axisState = psrd.axisState) : t.running := by
    rw [running_iff, state]
    exact running_iff.mp counted.running
  cases regular.feedMove counted.running inert action with
  | refill state _ feed =>
      have supply := (exec_effect action).supply counted.coupled counted.running inert nofun
      by_cases empty : psrd.nextBuf.valid = 0
      · rw [if_pos empty] at feed
        refine .refill ⟨coupled, going state, fun o order => ?_⟩ empty feed
        rw [feed] at order ⊢
        obtain ⟨o, order', rfl⟩ := Option.map_eq_some_iff.mp order
        rw [supply]
        exact counted.count o order'
      · rw [if_neg empty] at feed
        refine .same ⟨coupled, going state, fun o order => ?_⟩ feed
        rw [supply, feed]
        exact counted.count o (feed ▸ order)
  | advance state _ more valid feed =>
      obtain ⟨-, play, some_, -⟩ := counted.coupled.completion raised
      have units : psrd.feed.next = some psrd.nextBuf.units := feed_next_of_valid valid
      refine .advance _ ⟨coupled, going state, fun o order => ?_⟩ more some_ units feed
      rw [feed] at order ⊢
      obtain ⟨o, order', rfl⟩ := Option.map_eq_some_iff.mp order
      have count := counted.count o order'
      obtain ⟨v, check, rfl⟩ := Except.ok_of_map action
      rcases hmDmaCk_ok (regular.noWrap counted.running) check with ⟨-, -, rfl⟩ | ⟨last, -⟩
      · change 3 * psrd.pdma.consumed + psrd.nextBuf.dmaBufLen.toNat =
          3 * (base + (o.done + psrd.feed.cur + psrd.nextBuf.units))
        have length : psrd.nextBuf.dmaBufLen.toNat = 3 * psrd.nextBuf.units :=
          (regular.whole _).1
        have empty := play.count
        omega
      · exact absurd more last
  | finish last stopped =>
      obtain ⟨-, play, -, -⟩ := counted.coupled.completion raised
      refine .finish last stopped fun o order => ?_
      have count := counted.count o order
      obtain ⟨v, check, rfl⟩ := Except.ok_of_map action
      rcases hmDmaCk_ok (regular.noWrap counted.running) check with ⟨more, -⟩ | ⟨-, rfl⟩
      · exact absurd more last
      · change psrd.pdma.consumed = _
        have empty := play.count
        omega
  | same _ complete same =>
      have supply := (exec_effect action).supply counted.coupled counted.running inert complete
      refine .same ⟨coupled, going same.axisState, fun o order => ?_⟩ same.feed
      rw [supply, same.feed]
      exact counted.count o (same.feed ▸ order)

theorem Coupled.still (coupled : psrd.Coupled) (stopped : psrd.axisState = .asStoped)
    (action : CruiseStep psrd e t) :
    t.Coupled ∧ t.axisState = .asStoped ∧ t.pdma.consumed = psrd.pdma.consumed := by
  have coupled' := coupled.step action.quiet
  have rest := coupled.resting stopped
  obtain ⟨inert, raised, action⟩ := action
  have effect := exec_effect action
  have idle : psrd.consumes e = false := by
    cases e <;> simp [StepInfo.consumes, StepInfo.playing, rest.timer]
  have consumed := (effect.consumed coupled.regular).1
  rw [idle] at consumed
  have half : e ≠ .halfTransfer := by
    rintro rfl
    exact Bool.false_ne_true (rest.half.symm.trans raised)
  have complete : e ≠ .transferComplete := by
    rintro rfl
    exact Bool.false_ne_true (rest.complete.symm.trans raised.1)
  have same := effect.sameMotion half complete inert
  exact ⟨coupled', same.axisState.trans stopped, consumed⟩

end Cruise

structure Ended (t : StepInfo) (base : Nat) (inv : Feed → Prop) : Prop where
  coupled : t.Coupled
  stopped : t.axisState = .asStoped
  last : ∃ f, inv f ∧ ¬ f.More ∧
    ∀ o, f.order = some o → t.pdma.consumed = base + (o.done + f.cur)

section Motion
variable {psrd s t : StepInfo} {base : Nat} {inv : Feed → Prop} {es : List Event} {e : Event}

theorem Counted.run (counted : s.Counted base) (kept : Feed.Kept hmDmaBufSize inv)
    (start : inv s.feed) (run : Run CruiseStep s es t) :
    (t.Counted base ∧ inv t.feed) ∨ Ended t base inv := by
  apply run.invariant (fun t => (t.Counted base ∧ inv t.feed) ∨ Ended t base inv)
    (.inl ⟨counted, start⟩)
  rintro a e b (⟨counted, holds⟩ | ended) action
  · cases counted.step action with
    | refill counted' empty feed =>
        rw [← feed_next_eq_none] at empty
        exact .inl ⟨counted', feed ▸ kept.fill _ holds empty⟩
    | advance units counted' more some_ next feed =>
        exact .inl ⟨counted', feed ▸ kept.advance _ _ holds more some_ next⟩
    | finish last stopped total =>
        exact .inr ⟨counted.coupled.step action.quiet, stopped, _, holds, last, total⟩
    | same counted' feed => exact .inl ⟨counted', feed ▸ holds⟩
  · obtain ⟨coupled, stopped, consumed⟩ := ended.coupled.still ended.stopped action
    obtain ⟨f, holds, last, total⟩ := ended.last
    exact .inr ⟨coupled, stopped, f, holds, last, fun o order => consumed.trans (total o order)⟩

theorem Counted.not_stopped (counted : t.Counted base) (ended : t.axisState = .asStoped) : False :=
  not_running_of_stopped ended counted.running

theorem Counted.stopSmooth (counted : psrd.Counted base) {o : Order}
    (order : psrd.feed.order = some o) (first : psrd.bstopping = false) :
    psrd.hmStepMotorStopSmooth.Counted (base + o.done) := by
  have moving : psrd.axisState ≠ .asStoped := fun ended => counted.not_stopped ended
  have coupled := counted.coupled.stopSmooth moving first
  have feed := stopSmooth_feed moving first
  have count := counted.count o order
  rw [stopSmooth_accepted moving first] at coupled feed ⊢
  refine ⟨coupled, counted.running, fun o' order' => ?_⟩
  rw [feed] at order' ⊢
  obtain rfl := Option.some.inj order'
  change 3 * psrd.pdma.consumed + psrd.pdma.cndtr.toNat =
    3 * (base + o.done + (0 + psrd.feed.cur))
  omega

theorem Tuned.counted (tuned : psrd.Tuned t) (counted : psrd.Counted base) : t.Counted base := by
  have coupled := tuned.coupled counted.coupled
  have running := tuned.running.trans counted.running
  obtain ⟨_, _, _, _, _, _, rfl, -⟩ := tuned
  exact ⟨coupled, running, counted.count⟩

theorem Launched.counted {request : UInt32} {home : Bool} {s₀ : StepInfo}
    (launched : Launched s₀ request home t) (finite : request ≠ hmInvalidStep)
    (rest : s₀.Resting) : t.Counted s₀.pdma.consumed := by
  have prepared := launched.prepared
  have pdma := launched.pdma
  rw [rest.channel] at pdma
  refine ⟨launched.coupled rest, running_iff.mpr launched.axisState, fun o order => ?_⟩
  have asked : t.stepsRequest ≠ hmInvalidStep := by
    rw [show t.stepsRequest = request from prepared.stepsRequest]
    exact finite
  have actual : t.stepsActual = 0 := prepared.stepsActual finite
  have length : t.curBuf.dmaBufLen.toNat = 3 * t.curBuf.units := (launched.whole t.dmaBufIdx).1
  obtain rfl := Option.some.inj ((if_neg asked).symm.trans order)
  change _ = 3 * (s₀.pdma.consumed + (t.stepsActual.toNat + t.curBuf.units))
  rw [actual, pdma]
  change 3 * s₀.pdma.consumed + t.curBuf.dmaBufLen.toNat = 3 * (_ + (0 + _))
  omega

end Motion

structure Moving (psrd : StepInfo) (base steps : Nat) : Prop where
  counted : psrd.Counted base
  fair : psrd.feed.Fair hmDmaBufSize
  request : ∃ o, psrd.feed.order = some o ∧ o.request = steps

section Stop
variable {psrd t₀ s s' t : StepInfo} {base steps : Nat} {moved later : List Event} {e : Event}

theorem launched_moving {io : Pins} {step : Int32} {accel decel speed : UInt32}
    (rest : psrd.Resting) (start : psrd.hmStepMotorMove io step accel decel speed = .ok (true, t))
    (goes : t.axisState = .asRuning) : t.Moving psrd.pdma.consumed step.toInt.natAbs := by
  rcases hmStepMotorMove_ok start with ⟨-, refused, -⟩ | ⟨stopped, -, -, rfl⟩ |
    ⟨stopped, -, -, launched⟩
  · cases refused
  · cases stopped.symm.trans goes
  · have finite := magnitude_finite step
    have request : t.stepsRequest = (magnitude step).toUInt32 := launched.prepared.stepsRequest
    have rest' : (psrd.towards step).Resting := { rest with }
    refine ⟨launched.counted finite rest', launched.fair, _,
      if_neg (by rw [request]; exact finite), ?_⟩
    rw [request, toNat_magnitude]

theorem Moving.run (moving : t₀.Moving base steps) (motion : Run CruiseStep t₀ moved s)
    (going : s.axisState ≠ .asStoped) : s.Moving base steps := by
  rcases moving.counted.run (Feed.kept_fair steps) ⟨moving.fair, moving.request⟩ motion with
    ⟨counted, fair, request⟩ | ended
  · exact ⟨counted, fair, request⟩
  · exact absurd ended.stopped going

theorem Moving.stop (moving : s.Moving base steps) (accepted : s.smoothStops e)
    (stop : HwStep s e s') : ∃ o, s.feed.order = some o ∧ o.request = steps ∧
      s'.Counted (base + o.done) ∧ s'.feed = s.feed.reorder hmDmaBufSize := by
  obtain ⟨o, order, wanted⟩ := moving.request
  obtain ⟨s₀, tuned, rfl⟩ := (exec_effect stop.2).of_smoothStops accepted
  obtain ⟨going, first⟩ := tuned.accepted accepted
  have feed : s₀.feed = s.feed := tuned.feed
  refine ⟨o, order, wanted, ?_, ?_⟩
  · exact (tuned.counted moving.counted).stopSmooth (feed ▸ order) first
  · rw [stopSmooth_feed going first, feed]

theorem Counted.run_winding {lead : Nat} (counted : s.Counted base)
    (winding : s.feed.Winding hmDmaBufSize lead .waiting) (slowing : Run CruiseStep s later t)
    (ended : t.axisState = .asStoped) : t.pdma.consumed = base + (lead + hmDmaBufSize) := by
  rcases counted.run (Feed.kept_winding lead) ⟨_, winding⟩ slowing with ⟨counted, -⟩ | ended
  · exact (counted.not_stopped ended).elim
  · obtain ⟨f, ⟨stage, winding⟩, last, total⟩ := ended.last
    have ramping : stage = .ramping := by
      rw [winding.more_iff, ne_eq, Decidable.not_not] at last
      exact last
    subst ramping
    obtain ⟨order, -, full, -⟩ := winding
    rw [total _ order, full]

theorem Counted.run_overtaken (counted : s.Counted base) (overtaken : s.feed.Overtaken hmDmaBufSize)
    (slowing : Run CruiseStep s later t) (stopped : t.axisState = .asStoped) :
    t.pdma.consumed = base + hmDmaBufSize := by
  rcases counted.run Feed.kept_overtaken overtaken slowing with ⟨counted, -⟩ | ended
  · exact (counted.not_stopped stopped).elim
  · obtain ⟨f, ⟨made, order, full⟩, -, total⟩ := ended.last
    rw [total _ order, full, Nat.zero_add]

theorem Counted.run_stuck (counted : s.Counted base) (stuck : s.feed.Stuck)
    (slowing : Run CruiseStep s later t) : t.axisState ≠ .asStoped := by
  intro ended
  rcases counted.run Feed.kept_stuck stuck slowing with ⟨counted, -⟩ | ended
  · exact counted.not_stopped ended
  · obtain ⟨f, stuck, last, -⟩ := ended.last
    exact last stuck.1

/-- A move that is stopped smoothly consumes no more than its steps, except when its last, short
buffer is being played and the other buffer is still to be filled. -/
theorem hmStepMotorStopSmooth_within_move_iff {io : Pins} {step : Int32}
    {accel decel speed : UInt32} (rest : psrd.Resting)
    (start : psrd.hmStepMotorMove io step accel decel speed = .ok (true, t₀))
    (goes : t₀.axisState = .asRuning) (motion : Run CruiseStep t₀ moved s)
    (accepted : s.smoothStops e) (stop : HwStep s e s') (slowing : Run CruiseStep s' later t)
    (ended : t.axisState = .asStoped) :
    t.pdma.consumed ≤ psrd.pdma.consumed + step.toInt.natAbs ↔
      ¬ (s.curBuf.dmaBufLen < 300 ∧ s.nextBuf.valid = 0) := by
  have going := ((Tuned.refl s).accepted accepted).1
  have moving := (launched_moving rest start goes).run motion going
  obtain ⟨o, order, wanted, counted, feed⟩ := moving.stop accepted stop
  have short_iff := (moving.counted.coupled.regular.whole s.dmaBufIdx).short_iff
  change s.curBuf.dmaBufLen < 300 ↔ s.feed.cur < hmDmaBufSize at short_iff
  have most := moving.fair.played_le order
  rw [short_iff]
  by_cases short : s.feed.cur < hmDmaBufSize
  · obtain ⟨o', order', played, nothing⟩ := moving.fair.last_of_short short
    obtain rfl := Option.some.inj (order.symm.trans order')
    by_cases empty : s.nextBuf.valid = 0
    · have winding := moving.fair.reorder_winding short
      rw [← feed] at winding
      have total := counted.run_winding winding slowing ended
      refine iff_of_false (fun within => ?_) (fun fits => fits ⟨short, empty⟩)
      simp only [hmDmaBufSize] at total
      omega
    · have next : s.feed.next = some 0 := by
        rw [feed_next_of_valid empty, nothing _ (feed_next_of_valid empty)]
      have stuck : s'.feed.Stuck := by
        rw [feed]
        exact ⟨by simpa [Feed.More, Feed.reorder] using short, .inr next⟩
      exact absurd ended (counted.run_stuck stuck slowing)
  · have full : s.feed.cur = hmDmaBufSize :=
      Nat.le_antisymm moving.fair.cur_le (Nat.not_lt.mp short)
    have overtaken := Feed.reorder_overtaken full
    rw [← feed] at overtaken
    have total := counted.run_overtaken overtaken slowing ended
    refine iff_of_true ?_ (fun both => short both.1)
    omega

def fullBuffer : List Event :=
  List.replicate 50 .burst ++ [.halfTransfer] ++ List.replicate 50 .burst ++ [.transferComplete]

theorem hmStepMotorStopSmooth_within_250 : ∃ t₀ s' t,
    (hmStepMotorInit 0).hmStepMotorMove .clear (-250) 1000 0 1000 = .ok (true, t₀) ∧
    HwStep t₀ .stopSmooth s' ∧ Run CruiseStep s' fullBuffer t ∧ t.axisState = .asStoped ∧
    (t.pdma.consumed ≤ (hmStepMotorInit 0).pdma.consumed + (-250 : Int32).toInt.natAbs ↔
      ¬ (t₀.curBuf.dmaBufLen < 300 ∧ t₀.nextBuf.valid = 0)) := by
  obtain ⟨⟨answer, t₀⟩, start, test⟩ := ok_of_any
    (show ((hmStepMotorInit 0).hmStepMotorMove .clear (-250) 1000 0 1000).toOption.any
      (fun result => (result.1 && decide (result.2.axisState = .asRuning) &&
        result.2.smoothStops .stopSmooth) && (playHw result.2 .stopSmooth).any fun s' =>
          (fullBuffer.foldlM playCruise s').any fun t => t.axisState = .asStoped) by
      decide +kernel)
  obtain ⟨before, stop⟩ := Bool.and_eq_true_iff.mp test
  simp only [Bool.and_eq_true, decide_eq_true_eq] at before
  obtain ⟨⟨rfl, goes⟩, accepted⟩ := before
  obtain ⟨s', stop, played⟩ := computes_hw.step_any stop
  obtain ⟨t, slowing, ended⟩ := computes_cruise.run_any played
  have ended := of_decide_eq_true ended
  exact ⟨t₀, s', t, start, stop, slowing, ended,
    hmStepMotorStopSmooth_within_move_iff ⟨rfl, rfl, rfl, rfl⟩ start goes .nil accepted stop
      slowing ended⟩

theorem hmStepMotorStopSmooth_beyond_move : ∃ t₀ s' t,
    (hmStepMotorInit 0).hmStepMotorMove .clear 1 1000 0 1000 = .ok (true, t₀) ∧
    t₀.axisState = .asRuning ∧ t₀.smoothStops .stopSmooth ∧ HwStep t₀ .stopSmooth s' ∧
    Run CruiseStep s' ([.burst, .halfTransfer, .transferComplete] ++ fullBuffer) t ∧
    t.axisState = .asStoped ∧
    ¬ t.pdma.consumed ≤ (hmStepMotorInit 0).pdma.consumed + (1 : Int32).toInt.natAbs := by
  obtain ⟨⟨answer, t₀⟩, start, test⟩ := ok_of_any
    (show ((hmStepMotorInit 0).hmStepMotorMove .clear 1 1000 0 1000).toOption.any
      (fun result => (result.1 && decide (result.2.axisState = .asRuning) &&
        result.2.smoothStops .stopSmooth) && (playHw result.2 .stopSmooth).any fun s' =>
          (([Event.burst, .halfTransfer, .transferComplete] ++ fullBuffer).foldlM playCruise s').any
            fun t => decide (t.axisState = .asStoped ∧ ¬ t.pdma.consumed ≤
              (hmStepMotorInit 0).pdma.consumed + (1 : Int32).toInt.natAbs)) by
      decide +kernel)
  obtain ⟨before, stop⟩ := Bool.and_eq_true_iff.mp test
  simp only [Bool.and_eq_true, decide_eq_true_eq] at before
  obtain ⟨⟨rfl, goes⟩, accepted⟩ := before
  obtain ⟨s', stop, played⟩ := computes_hw.step_any stop
  obtain ⟨t, slowing, ended⟩ := computes_cruise.run_any played
  exact ⟨t₀, s', t, start, goes, accepted, stop, slowing, of_decide_eq_true ended⟩

end Stop

end StepInfo

end MotionBoard
