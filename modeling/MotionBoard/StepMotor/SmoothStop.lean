import MotionBoard.StepMotor.Ordered

namespace MotionBoard
open Transition TwoBuffer

namespace StepInfo

/-- Notes on the ramp of a smooth stop: whether the current and the next buffer were filled since
the stop, how many units of such buffers were played, and whether the buffer completed last was one
of them. -/
structure RampNote where
  cur : Bool
  next : Bool
  played : Nat
  last : Bool
  deriving DecidableEq, Repr

def RampNote.start : RampNote := ⟨false, false, 0, false⟩

def noteRamp (s : StepInfo × Bool) (e : Event) (note : RampNote) : RampNote :=
  match e with
  | .halfTransfer => { note with next := note.next || s.1.nextBuf.valid = 0 }
  | .transferComplete =>
      { cur := note.next
        next := false
        played := note.played + if note.cur then s.1.curBuf.units else 0
        last := note.cur }
  | _ => note

abbrev WindStep : (StepInfo × Bool) × RampNote → Event → (StepInfo × Bool) × RampNote → Prop :=
  Watched (Guarded (fun s e => !s.1.acts e) OrderedStep) noteRamp

structure Noted (stage : Feed.Stage) (note : RampNote) : Prop where
  played : note.played = 0
  cur : note.cur = decide (stage = .ramping)
  waiting : stage = .waiting → note.next = false
  filled : stage = .filled → note.next = true

inductive Ramps (psrd : StepInfo) (note : RampNote) : Prop
  | going (lead : Nat) (stage : Feed.Stage) : psrd.running → psrd.bstopping →
      psrd.feed.Winding hmDmaBufSize lead stage → Noted stage note → Ramps psrd note
  | ended : psrd.axisState = .asStoped → note.played = hmDmaBufSize → note.last → Ramps psrd note

inductive CutShort (psrd : StepInfo) (note : RampNote) : Prop
  | going : psrd.running → psrd.bstopping → psrd.feed.Overtaken hmDmaBufSize → !note.cur →
      note.played = 0 → CutShort psrd note
  | ended : psrd.axisState = .asStoped → note.played = 0 → !note.last → CutShort psrd note

section Step
variable {psrd t : StepInfo} {served served' : Bool} {note note' : RampNote} {e : Event}

theorem Noted.fill {stage : Feed.Stage} (noted : Noted stage note) :
    Noted (if stage = .waiting then .filled else stage) { note with next := true } := by
  refine ⟨noted.played, ?_, fun waiting => ?_, fun _ => rfl⟩
  · rw [noted.cur]
    cases stage <;> rfl
  · cases stage <;> simp at waiting

theorem Noted.advance {stage : Feed.Stage} (noted : Noted stage note) (more : stage ≠ .ramping)
    (units : Nat) :
    Noted (if stage = .filled then .ramping else stage)
      ⟨note.next, false, note.played + if note.cur then units else 0, note.cur⟩ := by
  have stale : note.cur = false := by
    rw [noted.cur]
    simpa using more
  refine ⟨?_, ?_, fun _ => rfl, fun filled => ?_⟩
  · simp [noted.played, stale]
  · cases stage with
    | waiting => exact noted.waiting rfl
    | filled => exact noted.filled rfl
    | ramping => exact absurd rfl more
  · cases stage <;> simp at filled

theorem WindStep.stopped (action : WindStep ((psrd, served), note) e ((t, served'), note'))
    (stopped : psrd.axisState = .asStoped) : t.axisState = .asStoped ∧ note' = note := by
  have absent := not_running_of_stopped stopped
  obtain ⟨⟨inert, order, action, -⟩, noted⟩ := action
  cases e with
  | halfTransfer => exact absurd order absent
  | transferComplete => exact absurd order.1 absent
  | _ =>
      have same := (exec_effect action).sameMotion nofun nofun inert
      exact ⟨same.axisState.trans stopped, noted⟩

theorem Ramps.step (ramps : Ramps psrd note) (inv : Disciplined (psrd, served))
    (action : WindStep ((psrd, served), note) e ((t, served'), note')) : Ramps t note' := by
  cases ramps with
  | ended stopped played last =>
      obtain ⟨stopped', rfl⟩ := action.stopped stopped
      exact .ended stopped' played last
  | going lead stage running stopping winding notes =>
      obtain ⟨⟨inert, -, action, -⟩, noted⟩ := action
      have still (state : t.axisState = psrd.axisState) : t.running := by
        rw [running_iff, state]
        exact running_iff.mp running
      dsimp only at noted
      subst noted
      cases inv.regular.feedMove running inert action with
      | refill state stopping' feed =>
          by_cases empty : psrd.nextBuf.valid = 0
          · rw [if_pos empty] at feed
            refine .going lead _ (still state) (stopping'.trans stopping) ?_
              (by simpa [noteRamp, empty] using notes.fill)
            rw [feed]
            exact winding.fill (feed_next_eq_none.mpr empty)
          · rw [if_neg empty] at feed
            refine .going lead stage (still state) (stopping'.trans stopping) ?_
              (by simpa [noteRamp, empty] using notes)
            rw [feed]
            exact winding
      | advance state stopping' more valid feed =>
          refine .going lead _ (still state) (stopping'.trans stopping) ?_
            (notes.advance (winding.more_iff.mp more) psrd.curBuf.units)
          rw [feed]
          exact winding.advance more (feed_next_of_valid valid)
      | finish last stopped =>
          have ramping : stage = .ramping := by
            rw [winding.more_iff, ne_eq, Decidable.not_not] at last
            exact last
          subst ramping
          obtain ⟨-, -, full, -⟩ := winding
          have cur := notes.cur
          refine .ended stopped ?_ ?_
          · simp only [noteRamp, notes.played, cur]
            exact (Nat.zero_add _).trans full
          · simp [noteRamp, cur]
      | same half complete same =>
          have noted : noteRamp (psrd, served) e note = note := by
            cases e <;> first | rfl | contradiction
          rw [noted]
          exact .going lead stage (still same.axisState) (same.bstopping.trans stopping)
            (same.feed ▸ winding) notes

theorem CutShort.step (short : CutShort psrd note) (inv : Disciplined (psrd, served))
    (action : WindStep ((psrd, served), note) e ((t, served'), note')) : CutShort t note' := by
  cases short with
  | ended stopped played last =>
      obtain ⟨stopped', rfl⟩ := action.stopped stopped
      exact .ended stopped' played last
  | going running stopping ended stale played =>
      obtain ⟨⟨inert, -, action, -⟩, noted⟩ := action
      have still (state : t.axisState = psrd.axisState) : t.running := by
        rw [running_iff, state]
        exact running_iff.mp running
      dsimp only at noted
      subst noted
      cases inv.regular.feedMove running inert action with
      | refill state stopping' feed =>
          refine .going (still state) (stopping'.trans stopping) ?_ stale played
          rw [feed]
          split
          · exact ended.fill
          · exact ended
      | advance _ _ more => exact absurd more ended.not_more
      | finish last stopped =>
          rw [Bool.not_eq_true'] at stale
          exact .ended stopped (by simp [noteRamp, stale, played]) (by simp [noteRamp, stale])
      | same half complete same =>
          have noted : noteRamp (psrd, served) e note = note := by
            cases e <;> first | rfl | contradiction
          rw [noted]
          exact .going (still same.axisState) (same.bstopping.trans stopping)
            (same.feed ▸ ended) stale played

end Step

def playWind : (StepInfo × Bool) × RampNote → Event → Option ((StepInfo × Bool) × RampNote) :=
  playWatched noteRamp (playGuarded (fun s e => !s.1.acts e) playOrdered)

theorem computes_wind : Computes playWind WindStep :=
  (computes_ordered.guarded _).watched noteRamp

section Run
variable {psrd s s' t : StepInfo} {served served' served'' : Bool} {note : RampNote} {e : Event}

theorem Regular.ramps (regular : psrd.Regular) (running : psrd.running)
    (first : psrd.bstopping = false) (short : psrd.curBuf.dmaBufLen < 300) :
    Ramps psrd.hmStepMotorStopSmooth .start := by
  have moving : psrd.axisState ≠ .asStoped := fun stopped => not_running_of_stopped stopped running
  have feed := stopSmooth_feed moving first
  have fair : psrd.feed.Fair hmDmaBufSize := by
    have going := regular.going running
    rwa [first] at going
  have room : psrd.feed.cur < hmDmaBufSize := (regular.whole _).short_iff.mp short
  rw [stopSmooth_accepted moving first] at feed ⊢
  refine .going psrd.feed.cur .waiting running rfl ?_ ⟨rfl, rfl, fun _ => rfl, nofun⟩
  rw [feed]
  exact fair.reorder_winding room

theorem Regular.cutShort (regular : psrd.Regular) (running : psrd.running)
    (first : psrd.bstopping = false) (full : ¬ psrd.curBuf.dmaBufLen < 300) :
    CutShort psrd.hmStepMotorStopSmooth .start := by
  have moving : psrd.axisState ≠ .asStoped := fun stopped => not_running_of_stopped stopped running
  have feed := stopSmooth_feed moving first
  have whole := regular.whole psrd.dmaBufIdx
  have room : psrd.feed.cur = hmDmaBufSize :=
    Nat.le_antisymm whole.2 (Nat.not_lt.mp fun short => full (whole.short_iff.mpr short))
  rw [stopSmooth_accepted moving first] at feed ⊢
  refine .going running rfl ?_ rfl rfl
  rw [feed]
  exact Feed.reorder_overtaken room

theorem Ramps.run {es : List Event} (ramps : Ramps s note) (inv : Disciplined (s, served))
    {note' : RampNote} (run : Run WindStep ((s, served), note) es ((t, served'), note')) :
    Ramps t note' := by
  refine (run.invariant (fun a => Ramps a.1.1 a.2 ∧ Disciplined a.1) ⟨ramps, inv⟩ ?_).1
  rintro ⟨⟨a, _⟩, _⟩ e ⟨⟨b, _⟩, _⟩ ⟨ramps, inv⟩ action
  exact ⟨ramps.step inv action, inv.step action.1.2⟩

theorem CutShort.run {es : List Event} (short : CutShort s note) (inv : Disciplined (s, served))
    {note' : RampNote} (run : Run WindStep ((s, served), note) es ((t, served'), note')) :
    CutShort t note' := by
  refine (run.invariant (fun a => CutShort a.1.1 a.2 ∧ Disciplined a.1) ⟨short, inv⟩ ?_).1
  rintro ⟨⟨a, _⟩, _⟩ e ⟨⟨b, _⟩, _⟩ ⟨short, inv⟩ action
  exact ⟨short.step inv action, inv.step action.1.2⟩

/-- A smooth stop plays its ramp of 100 units to the end exactly when the buffer being played at
the stop is not a full one. -/
theorem hmStepMotorStopSmooth_ramp_iff {idx : Fin hmMaxAxis} {es later : List Event}
    (reach : Run OrderedStep (hmStepMotorInit idx, false) es (s, served))
    (accepted : s.smoothStops e) (stop : OrderedStep (s, served) e (s', served'))
    (run : Run WindStep ((s', served'), .start) later ((t, served''), note))
    (ended : t.axisState = .asStoped) :
    (note.played = hmDmaBufSize ∧ note.last) ↔ s.curBuf.dmaBufLen < 300 := by
  have before := reachable_disciplined reach
  have after := before.step stop
  obtain ⟨s₀, tuned, rfl⟩ := (exec_effect stop.2.1).of_smoothStops accepted
  have regular := tuned.regular before.regular
  obtain ⟨moving, first⟩ := tuned.accepted accepted
  have running : s₀.running := Decidable.not_not.mp fun still =>
    moving (regular.stopped_iff.mpr still)
  have cur : s₀.curBuf = s.curBuf := tuned.curBuf
  rw [← cur]
  constructor
  · rintro ⟨played, -⟩
    by_contra full
    cases (regular.cutShort running first full).run after run with
    | going running => exact not_running_of_stopped ended running
    | ended _ none_ => exact absurd (played.symm.trans none_) (by decide)
  · intro short
    cases (regular.ramps running first short).run after run with
    | going _ _ running => exact absurd running (not_running_of_stopped ended)
    | ended _ played last => exact ⟨played, last⟩

theorem hmStepMotorStopSmooth_ramp_single : ∃ s served s' served' t served'' note,
    Run OrderedStep (hmStepMotorInit 0, false) [.move .clear 1 1000 0 1000] (s, served) ∧
    OrderedStep (s, served) .stopSmooth (s', served') ∧
    Run WindStep ((s', served'), .start)
      [.halfTransfer, .transferComplete, .halfTransfer, .transferComplete]
      ((t, served''), note) ∧
    t.axisState = .asStoped ∧
    ((note.played = hmDmaBufSize ∧ note.last) ↔ s.curBuf.dmaBufLen < 300) := by
  obtain ⟨⟨s, served⟩, reach, test⟩ := computes_ordered.run_any
    (show ([Event.move .clear 1 1000 0 1000].foldlM playOrdered (hmStepMotorInit 0, false)).any
      (fun s => s.1.smoothStops .stopSmooth && (playOrdered s .stopSmooth).any fun s' =>
        ([Event.halfTransfer, .transferComplete, .halfTransfer, .transferComplete].foldlM
          playWind (s', .start)).any fun t => t.1.1.axisState = .asStoped) by
      decide +kernel)
  obtain ⟨accepted, stop⟩ := Bool.and_eq_true_iff.mp test
  obtain ⟨⟨s', served'⟩, stop, played⟩ := computes_ordered.step_any stop
  obtain ⟨⟨⟨t, served''⟩, note⟩, run, ended⟩ := computes_wind.run_any played
  have ended := of_decide_eq_true ended
  exact ⟨s, served, s', served', t, served'', note, reach, stop, run, ended,
    hmStepMotorStopSmooth_ramp_iff reach accepted stop run ended⟩

/-- A free run is stopped while its first buffer, a full one, is being played: the axis stops with
that buffer, and the ramp is not played at all. -/
theorem hmStepMotorStopSmooth_no_ramp : ∃ s served s' served' t served'' note,
    Run OrderedStep (hmStepMotorInit 0, false) [.startFreeRun .clear 1000 1000] (s, served) ∧
    s.axisState = .asRuning ∧ s.bstopping = false ∧
    OrderedStep (s, served) .stopSmooth (s', served') ∧
    Run WindStep ((s', served'), .start) [.halfTransfer, .transferComplete]
      ((t, served''), note) ∧
    t.axisState = .asStoped ∧ t.ptim.enabled = false ∧ note.played = 0 := by
  obtain ⟨⟨s, served⟩, reach, test⟩ := computes_ordered.run_any
    (show ([Event.startFreeRun .clear 1000 1000].foldlM playOrdered
        (hmStepMotorInit 0, false)).any
      (fun s => decide (s.1.axisState = .asRuning ∧ s.1.bstopping = false) &&
        (playOrdered s .stopSmooth).any fun s' =>
          ([Event.halfTransfer, .transferComplete].foldlM playWind (s', .start)).any fun t =>
            decide (t.1.1.axisState = .asStoped ∧ t.1.1.ptim.enabled = false ∧
              t.2.played = 0)) by
      decide +kernel)
  obtain ⟨moving, stop⟩ := Bool.and_eq_true_iff.mp test
  obtain ⟨⟨s', served'⟩, stop, played⟩ := computes_ordered.step_any stop
  obtain ⟨⟨⟨t, served''⟩, note⟩, run, ended⟩ := computes_wind.run_any played
  obtain ⟨running, first⟩ := of_decide_eq_true moving
  exact ⟨s, served, s', served', t, served'', note, reach, running, first, stop, run,
    of_decide_eq_true ended⟩

end Run

end StepInfo

end MotionBoard
