import MotionBoard.StepMotor.Regular

namespace MotionBoard
open Transition TwoBuffer

namespace StepInfo

/-- Whether an event does not bring an empty buffer into the motion: a start asks for steps, and a
smooth stop finds the other buffer still to be filled or a full one being played. -/
def Feeds (psrd : StepInfo) (e : Event) : Prop :=
  (psrd.starts e → e.request ≠ 0) ∧
    (psrd.smoothStops e → psrd.nextBuf.valid = 0 ∨ ¬ psrd.curBuf.dmaBufLen < 300)

instance (psrd : StepInfo) (e : Event) : Decidable (psrd.Feeds e) := by
  unfold Feeds
  infer_instance

abbrev FeedingStep : StepInfo → Event → StepInfo → Prop := Guarded Feeds Step

def playFeeding : StepInfo → Event → Option StepInfo := playGuarded Feeds (playFires exec)

theorem computes_feeding : Computes playFeeding FeedingStep := computes_fires.guarded Feeds

structure Fed (psrd : StepInfo) : Prop where
  regular : psrd.Regular
  busy : psrd.running → psrd.feed.Busy

section Fed
variable {psrd s t : StepInfo} {e : Event}

theorem Launched.busy {request : UInt32} {home : Bool} (launched : Launched psrd request home t)
    (asked : request ≠ 0) : t.feed.Busy := by
  refine launched.fair.busy (by decide) fun o member => ?_
  have request' : t.stepsRequest = request := launched.prepared.stepsRequest
  change t.order = some o at member
  unfold order at member
  split at member
  · cases member
  · rename_i finite
    obtain rfl := Option.some.inj member
    have actual : t.stepsActual = 0 := launched.prepared.stepsActual (request' ▸ finite)
    rw [request', actual]
    exact Nat.pos_of_ne_zero fun zero => asked (UInt32.toNat_inj.mp zero)

theorem Tuned.fed (tuned : psrd.Tuned t) (fed : psrd.Fed) : t.Fed := by
  refine ⟨tuned.regular fed.regular, fun running => ?_⟩
  rw [tuned.feed]
  rw [tuned.running] at running
  exact fed.busy running

theorem Fed.refill (fed : psrd.Fed) (fill : psrd.hmDmaFillNextBuf = .ok t) : t.Fed := by
  have filled := hmDmaFillNextBuf_ok fed.regular.whole fill
  have feed := filled.feed
  have regular := fed.regular.refill fill
  obtain ⟨r, taken, n, buf, rfl⟩ := filled.frame
  refine ⟨regular, fun running => ?_⟩
  have busy := fed.busy running
  rw [feed]
  split
  · rename_i empty
    exact (fed.regular.going running).busy_fill (by decide) busy (feed_next_eq_none.mpr empty)
  · exact busy

theorem Fed.complete (fed : psrd.Fed) (check : psrd.hmDmaCk = .ok t) : t.Fed := by
  refine ⟨fed.regular.complete check, fun running => ?_⟩
  have going : psrd.running := by
    rw [hmDmaCk_eq] at check
    split at check
    · split at check
      · cases check
      · obtain rfl := Except.ok.inj check
        exact running
    · obtain rfl := Except.ok.inj check
      exact absurd running (not_running_of_stopped rfl)
  have room := fed.regular.noWrap going
  rcases hmDmaCk_ok room check with ⟨more, valid, rfl⟩ | ⟨-, rfl⟩
  · rw [switched_feed room]
    exact (fed.busy going).advance more (feed_next_of_valid valid)
  · exact absurd running (not_running_of_stopped rfl)

theorem Fed.stopSmooth (fed : psrd.Fed) (running : psrd.axisState ≠ .asStoped)
    (first : psrd.bstopping = false)
    (ready : psrd.nextBuf.valid = 0 ∨ ¬ psrd.curBuf.dmaBufLen < 300) :
    psrd.hmStepMotorStopSmooth.Fed := by
  refine ⟨fed.regular.stopSmooth running first, fun _ => ?_⟩
  have going : psrd.running := Decidable.not_not.mp fun still =>
    running (fed.regular.stopped_iff.mpr still)
  have whole := fed.regular.whole psrd.dmaBufIdx
  rw [stopSmooth_feed running first]
  refine (fed.busy going).reorder ?_
  rw [feed_next_eq_none]
  refine ready.imp_right fun full => ?_
  exact Nat.le_antisymm whole.2 (Nat.not_lt.mp fun short => full (whole.short_iff.mpr short))

theorem Fed.step (fed : psrd.Fed) (action : FeedingStep psrd e t) : t.Fed := by
  obtain ⟨feeds, action⟩ := action
  cases exec_effect action with
  | pulse =>
      obtain ⟨tim, motor, pdma, same, -⟩ := psrd.burst_frame
      have regular := fed.regular.burst
      rw [same] at regular ⊢
      exact ⟨regular, fed.busy⟩
  | refill fill =>
      have fed := fed.refill fill
      exact ⟨{ fed.regular with }, fed.busy⟩
  | complete check =>
      have fed := fed.complete check
      exact ⟨{ fed.regular with }, fed.busy⟩
  | launch starts _ _ launched => exact ⟨launched.regular, fun _ => launched.busy (feeds.1 starts)⟩
  | smooth accepted tuned =>
      obtain ⟨running, first⟩ := tuned.accepted accepted
      have ready := feeds.2 accepted
      rw [← tuned.nextBuf, ← tuned.curBuf] at ready
      exact (tuned.fed fed).stopSmooth running first ready
  | sudden _ tuned =>
      exact ⟨(tuned.regular fed.regular).stopSundden,
        fun running => absurd running (not_running_of_stopped rfl)⟩
  | place => exact ⟨{ fed.regular with }, fed.busy⟩
  | tune _ _ tuned => exact tuned.fed fed

theorem fed_init (idx : Fin hmMaxAxis) : (hmStepMotorInit idx).Fed :=
  ⟨regular_init idx, fun running => absurd running (not_running_of_stopped rfl)⟩

theorem reachable_fed {idx : Fin hmMaxAxis} {es : List Event}
    (run : Run FeedingStep (hmStepMotorInit idx) es t) : t.Fed :=
  run.invariant Fed (fed_init idx) fun _ _ _ fed action => fed.step action

end Fed

def armedBuf (psrd : StepInfo) : DmaBufInfo := psrd.dmaBuf[psrd.pdma.cmar]

def ArmedEmpty (psrd : StepInfo) : Prop := psrd.axisState = .asRuning ∧ psrd.armedBuf.dmaBufLen = 0

instance (psrd : StepInfo) : Decidable psrd.ArmedEmpty := by
  unfold ArmedEmpty
  infer_instance

section Armed
variable {psrd s t : StepInfo} {e : Event}

theorem Regular.armedEmpty_iff (regular : psrd.Regular) (running : psrd.running) :
    psrd.ArmedEmpty ↔ psrd.feed.cur = 0 := by
  have armed : psrd.armedBuf = psrd.curBuf := by
    unfold armedBuf
    simp only [regular.armed running]
    rfl
  have length : psrd.curBuf.dmaBufLen.toNat = 3 * psrd.feed.cur := (regular.whole _).1
  unfold ArmedEmpty
  rw [armed, ← UInt16.toNat_inj, length, UInt16.toNat_zero]
  simp only [running_iff.mp running, true_and]
  omega

theorem Fed.not_armedEmpty (fed : psrd.Fed) : ¬ psrd.ArmedEmpty := by
  intro empty
  have running := running_iff.mpr empty.1
  have none_ := (fed.regular.armedEmpty_iff running).mp empty
  exact absurd none_ (Nat.pos_iff_ne_zero.mp (fed.busy running).1)

theorem Launched.armedEmpty {request : UInt32} {home : Bool}
    (launched : Launched psrd request home t) (asks : request = 0) : t.ArmedEmpty := by
  have running := running_iff.mpr launched.axisState
  rw [launched.regular.armedEmpty_iff running]
  have request' : t.stepsRequest = 0 := launched.prepared.stepsRequest.trans asks
  have order : t.feed.order = some ⟨0, t.stepsTaken.toNat, t.stepsActual.toNat⟩ := by
    change t.order = _
    unfold order
    rw [request']
    rfl
  have played := launched.fair.played_le order
  dsimp only at played
  omega

theorem Regular.stopSmooth_starves (regular : psrd.Regular) (running : psrd.axisState ≠ .asStoped)
    (first : psrd.bstopping = false) (ready : psrd.nextBuf.valid ≠ 0)
    (short : psrd.curBuf.dmaBufLen < 300) :
    ∃ u, psrd.hmStepMotorStopSmooth.exec .transferComplete = .ok u ∧ u.ArmedEmpty := by
  have going : psrd.running := Decidable.not_not.mp fun still =>
    running (regular.stopped_iff.mpr still)
  have fair : psrd.feed.Fair hmDmaBufSize := by
    have feed := regular.going going
    rwa [first] at feed
  have room : psrd.feed.cur < hmDmaBufSize := (regular.whole _).short_iff.mp short
  obtain ⟨-, -, -, nothing⟩ := fair.last_of_short room
  have none_ := nothing _ (feed_next_of_valid ready)
  have regular' := regular.stopSmooth running first
  have feed := stopSmooth_feed running first
  have next := psrd.stopSmooth_nextBuf
  have going' : psrd.hmStepMotorStopSmooth.running := by
    rw [stopSmooth_accepted running first]
    exact going
  generalize psrd.hmStepMotorStopSmooth = t at *
  have noWrap := regular'.noWrap going'
  have more : t.feed.More := by
    rw [feed]
    simpa [Feed.More, Feed.reorder] using room
  have check : t.hmDmaCk = .ok t.switched := by
    rw [hmDmaCk_eq, if_pos ((continues_iff noWrap).mpr more), if_neg (by rw [next]; exact ready)]
  have action : t.exec .transferComplete = .ok { t.switched with pdma.tcif := false } := by
    simp only [exec, serveComplete, check, bind, Except.bind]
  refine ⟨_, action, ((regular'.step action).armedEmpty_iff going').mpr ?_⟩
  change t.switched.feed.cur = 0
  rw [switched_feed noWrap, next]
  exact none_

theorem not_feeds (breaks : ¬ psrd.Feeds e) : (psrd.starts e ∧ e.request = 0) ∨
    (psrd.smoothStops e ∧ psrd.nextBuf.valid ≠ 0 ∧ psrd.curBuf.dmaBufLen < 300) := by
  unfold Feeds at breaks
  by_cases starts : psrd.starts e
  · have inert : ¬ psrd.smoothStops e := fun stops => by
      rw [starts_of_smoothStops stops] at starts
      cases starts
    simpa [starts, inert] using breaks
  · simpa [starts] using breaks

/-- No empty buffer is armed as long as every event feeds the motion, and each one that does not
arms an empty buffer at once or at the next completion. -/
theorem armedBuf_not_empty {idx : Fin hmMaxAxis} {es : List Event}
    (run : Run FeedingStep (hmStepMotorInit idx) es s) : ¬ s.ArmedEmpty ∧
      ∀ e t, ¬ s.Feeds e → Step s e t →
        t.ArmedEmpty ∨ ∃ u, t.exec .transferComplete = .ok u ∧ u.ArmedEmpty := by
  have fed := reachable_fed run
  refine ⟨fed.not_armedEmpty, fun e t breaks action => ?_⟩
  have effect := exec_effect action
  rcases not_feeds breaks with ⟨starts, asks⟩ | ⟨stops, ready, short⟩
  · obtain ⟨s₀, home, launched⟩ := effect.of_starts starts
    exact .inl (launched.armedEmpty asks)
  · obtain ⟨s₀, tuned, rfl⟩ := effect.of_smoothStops stops
    obtain ⟨running, first⟩ := tuned.accepted stops
    rw [← tuned.nextBuf] at ready
    rw [← tuned.curBuf] at short
    exact .inr ((tuned.regular fed.regular).stopSmooth_starves running first ready short)

theorem armedBuf_not_empty_single : ∃ s,
    Run FeedingStep (hmStepMotorInit 0) [.move .clear 1 1000 0 1000, .stopSmooth, .halfTransfer,
      .transferComplete] s ∧
    (¬ s.ArmedEmpty ∧ ∀ e t, ¬ s.Feeds e → Step s e t →
      t.ArmedEmpty ∨ ∃ u, t.exec .transferComplete = .ok u ∧ u.ArmedEmpty) := by
  obtain ⟨s, run⟩ := computes_feeding.run (hmStepMotorInit 0)
    [.move .clear 1 1000 0 1000, .stopSmooth, .halfTransfer, .transferComplete]
    (by decide +kernel)
  exact ⟨s, run, armedBuf_not_empty run⟩

theorem armedBuf_empty_move : ∃ s,
    Run Step (hmStepMotorInit 0) [.move .clear 0 1000 0 1000] s ∧ s.ArmedEmpty := by
  obtain ⟨s, run, empty⟩ := computes_fires.run_any
    (show ([Event.move .clear 0 1000 0 1000].foldlM (playFires exec) (hmStepMotorInit 0)).any
      (fun s => decide s.ArmedEmpty) by decide +kernel)
  exact ⟨s, run, of_decide_eq_true empty⟩

end Armed

end StepInfo

end MotionBoard
