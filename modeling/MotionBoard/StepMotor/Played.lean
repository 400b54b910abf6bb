import MotionBoard.StepMotor.Hardware
import MotionBoard.StepMotor.History

namespace MotionBoard
open Transition TwoBuffer

namespace StepInfo

def loads (psrd : StepInfo) (e : Event) : List DmaUnit :=
  if e = .burst && psrd.playing then
    [(psrd.burst.ptim.arr, psrd.burst.ptim.rcr, psrd.burst.ptim.ccr1)]
  else []

/-- What is left of the current buffer, and the next buffer once it is filled. -/
def waiting (psrd : StepInfo) : List DmaUnit :=
  psrd.curBuf.content.drop psrd.npassed.toNat ++
    if psrd.nextBuf.valid = 0 then [] else psrd.nextBuf.content

end StepInfo

structure Wave where
  written : List DmaUnit
  played : List DmaUnit
  cut : Bool
  deriving DecidableEq, Repr

namespace StepInfo

def noteWave (psrd : StepInfo) (e : Event) (w : Wave) : Wave :=
  if psrd.starts e then ⟨psrd.wrote e, [], false⟩
  else
    { written := w.written ++ psrd.wrote e
      played := w.played ++ psrd.loads e
      cut := w.cut || psrd.suddenStops e || psrd.smoothStops e }

abbrev WaveStep : StepInfo × Wave → Event → StepInfo × Wave → Prop :=
  Watched QuietStep noteWave

def playWave : StepInfo × Wave → Event → Option (StepInfo × Wave) :=
  playWatched noteWave playQuiet

theorem computes_wave : Computes playWave WaveStep := computes_quiet.watched noteWave

section Loads
variable {psrd t : StepInfo} {e : Event} {left : Nat}

theorem content_drop {buf : DmaBufInfo} {k : Nat} (inside : k < buf.units) :
    buf.content.drop k = buf.unit k :: buf.content.drop (k + 1) := by
  have length : k < buf.content.length := by
    unfold DmaBufInfo.content
    simpa using inside
  rw [List.drop_eq_getElem_cons length]
  simp [DmaBufInfo.content]

theorem content_length (buf : DmaBufInfo) : buf.content.length = buf.units := by
  simp [DmaBufInfo.content]

theorem Playing.waiting (play : psrd.Playing left) (whole : psrd.curBuf.Whole) :
    psrd.waiting = psrd.curBuf.content.drop (psrd.curBuf.units - left) ++
      if psrd.nextBuf.valid = 0 then [] else psrd.nextBuf.content := by
  unfold StepInfo.waiting
  rw [npassed_toNat whole play.count play.most]

theorem Playing.loads (play : psrd.Playing (left + 1)) (whole : psrd.curBuf.Whole) :
    psrd.loads .burst = [psrd.curBuf.unit (psrd.curBuf.units - (left + 1))] := by
  have moves : psrd.playing := play.playing_iff.mpr (Nat.succ_ne_zero left)
  have length := whole.1
  simp only [hmDmaBufUnitSize] at length
  have at_ : psrd.pdma.reload.toNat - psrd.pdma.cndtr.toNat =
      3 * (psrd.curBuf.units - (left + 1)) := by
    rw [play.reload, play.count, length]
    omega
  unfold StepInfo.loads burst
  simp only [decide_true, moves, Bool.and_self, if_true, play.armed, at_]
  rfl

theorem Playing.pulse_waiting (play : psrd.Playing (left + 1)) (whole : psrd.curBuf.Whole) :
    psrd.waiting = psrd.loads .burst ++ psrd.burst.waiting := by
  have most := play.most
  have after := play.pulse whole
  obtain ⟨tim, -, same⟩ := burst_eq (play.playing_iff.mpr (Nat.succ_ne_zero left))
  rw [play.waiting whole, play.loads whole, content_drop (by omega),
    show psrd.curBuf.units - (left + 1) + 1 = psrd.curBuf.units - left by omega]
  have cur : psrd.burst.curBuf = psrd.curBuf := by rw [same]; rfl
  have next : psrd.burst.nextBuf = psrd.nextBuf := by rw [same]; rfl
  rw [after.waiting (by rw [cur]; exact whole), cur, next]
  rfl

theorem loads_idle (idle : e ≠ .burst) : psrd.loads e = [] := by
  simp [StepInfo.loads, idle]

theorem wrote_other (quiet : psrd.starts e = false) (other : e ≠ .halfTransfer) :
    psrd.wrote e = [] := by
  unfold wrote
  split
  · rfl
  · simp [quiet, other]

theorem Playing.refill_waiting (play : psrd.Playing left) (regular : psrd.Regular)
    (fill : psrd.hmDmaFillNextBuf = .ok t) :
    ({ t with pdma.htif := false }).waiting = psrd.waiting ++ psrd.wrote .halfTransfer := by
  have action : psrd.exec .halfTransfer = .ok { t with pdma.htif := false } := by
    change psrd.serveHalf = _
    unfold serveHalf
    rw [fill]
    rfl
  have wrote : psrd.wrote .halfTransfer =
      if psrd.nextBuf.valid = 0 then t.nextBuf.content else [] := by
    unfold StepInfo.wrote
    rw [action]
    simp only [true_and]
    rfl
  rw [wrote]
  by_cases empty : psrd.nextBuf.valid = 0
  · have filled := hmDmaFillNextBuf_ok regular.whole fill
    have after := play.refill regular fill
    obtain ⟨r, taken, n, buf, same⟩ := filled.frame
    have cur : t.curBuf = psrd.curBuf := by
      rw [same]
      exact setBuf_get_ne _ _ _ (succ_idx_ne _)
    have valid := filled.valid
    rw [after.waiting (show t.curBuf.Whole from filled.whole _), play.waiting (regular.whole _)]
    change t.curBuf.content.drop (t.curBuf.units - left) ++
      (if t.nextBuf.valid = 0 then [] else t.nextBuf.content) = _
    rw [cur, if_neg valid, if_pos empty, if_pos empty, List.append_nil]
  · obtain rfl := Except.ok.inj ((hmDmaFillNextBuf_full empty).symm.trans fill)
    rw [if_neg empty, List.append_nil]
    rfl

theorem Playing.over_waiting (play : psrd.Playing 0) (whole : psrd.curBuf.Whole)
    (valid : psrd.nextBuf.valid ≠ 0) : psrd.waiting = psrd.nextBuf.content := by
  rw [play.waiting whole, Nat.sub_zero, ← content_length, List.drop_length, if_neg valid,
    List.nil_append]

theorem switched_waiting (whole : psrd.Whole) :
    ({ psrd.switched with pdma.tcif := false }).waiting = psrd.nextBuf.content := by
  have cur : psrd.switched.curBuf = psrd.nextBuf := psrd.completeBuf_nextBuf
  have next : psrd.switched.nextBuf.valid = 0 := by
    change (psrd.completeBuf.dmaBuf[psrd.dmaBufIdx + 1 + 1]).valid = 0
    rw [succ_succ_idx]
    exact congrArg DmaBufInfo.valid psrd.completeBuf_curBuf
  rw [(switched_playing whole).waiting (show psrd.switched.curBuf.Whole from cur ▸ whole _)]
  change psrd.switched.curBuf.content.drop (psrd.switched.curBuf.units - _) ++
    (if psrd.switched.nextBuf.valid = 0 then [] else _) = _
  rw [cur, if_pos next, Nat.sub_self, List.append_nil]
  rfl

end Loads

section Begin
variable {psrd p q t : StepInfo} {e : Event} {rcr : UInt16}

theorem singleStep_next (cleared : p.Cleared) (fill : p.singleStep = .ok q) :
    q.nextBuf.valid = 0 ∧ q.nextBuf.content = [] := by
  obtain ⟨buf, a, -, -, -, -, same⟩ := singleStep_buf cleared fill
  have idx : q.dmaBufIdx = 0 := by
    rw [same]
    exact cleared.1
  have next : q.nextBuf = p.dmaBuf[(1 : Fin hmDmaBufBlockSz)] := by
    rw [nextBuf_of_idx idx, same]
    exact setBuf_get_ne _ _ _ (by decide)
  rw [next]
  exact ⟨(cleared.2 1).2, DmaBufInfo.content_of_units (cleared.units 1)⟩

theorem prefill_next (cleared : p.Cleared) (fill : p.prefill rcr = .ok q)
    (empty : q.nextBuf.valid = 0) : q.nextBuf.content = [] := by
  have idx : q.dmaBufIdx = 0 := (prefill_ok cleared fill).planned.dmaBufIdx.trans cleared.1
  rw [nextBuf_of_idx idx] at empty ⊢
  obtain ⟨a, b, first, update, rest⟩ := prefill_steps fill
  obtain ⟨-, -, -, other, -⟩ := firstBuf_ok cleared first update
  rcases rest with ⟨-, second⟩ | ⟨-, rfl⟩
  · have whole : (b.dmaBuf[(1 : Fin hmDmaBufBlockSz)]).Whole := by
      rw [other]
      exact cleared.whole 1
    have valid : (q.dmaBuf[(1 : Fin hmDmaBufBlockSz)]).valid = 1 :=
      (hmDmaUpdate_ok whole second).valid
    rw [valid] at empty
    exact absurd empty (by decide)
  · rw [other]
    exact DmaBufInfo.content_of_units (cleared.units 1)

theorem starts_next (starts : psrd.starts e) (action : psrd.exec e = .ok t)
    (empty : t.nextBuf.valid = 0) : t.nextBuf.content = [] := by
  cases plan : psrd.planned e with
  | some begins =>
      obtain ⟨p, rcr⟩ := begins
      obtain ⟨q, fill, rfl⟩ := starts_prefill starts plan action
      obtain ⟨-, -, -, next⟩ := q.launch_generating
      rw [next] at empty ⊢
      exact prefill_next (planned_ready plan).1 fill empty
  | none =>
      cases e with
      | move io step accel decel speed =>
          obtain ⟨q, fill, rfl⟩ := move_bufs starts action
          have cleared := (psrd.towards step).resetMove_cleared (magnitude step) speed
          generalize (psrd.towards step).resetMove (magnitude step) speed = p at *
          obtain ⟨-, -, -, next⟩ := q.launch_generating
          rw [next]
          unfold moveBufs at fill
          by_cases one : magnitude step = 1
          · rw [if_pos one] at fill
            exact (singleStep_next cleared fill).2
          · by_cases none_ : magnitude step = 0
            · rw [if_neg one, if_neg (not_not.mpr none_)] at fill
              obtain rfl := Except.ok.inj fill
              exact DmaBufInfo.content_of_units (cleared.units _)
            · cases (if_neg (not_or.mpr ⟨one, none_⟩)).symm.trans plan
      | startHoming | startFreeRun | startRun => cases plan
      | _ => cases starts

theorem Launched.waiting {request : UInt32} {home : Bool} (launched : Launched p request home t)
    (rest : p.Resting) (next : t.nextBuf.valid = 0 → t.nextBuf.content = []) :
    t.waiting = t.curBuf.content ++ t.nextBuf.content := by
  have pdma := launched.pdma
  rw [rest.channel] at pdma
  have nothing : t.npassed = 0 := by
    unfold npassed
    rw [pdma]
    change ((promote t.curBuf.dmaBufLen - promote t.curBuf.dmaBufLen) / 3).toUInt32.toUInt16 = 0
    rw [Int32.sub_self]
    rfl
  unfold StepInfo.waiting
  rw [nothing, UInt16.toNat_zero, List.drop_zero]
  split
  · rename_i empty
    rw [next empty]
  · rfl

end Begin

structure Plays (s : StepInfo × Wave) : Prop where
  coupled : s.1.Coupled
  running : s.1.running → s.2.written = s.2.played ++ s.1.waiting
  before : s.2.played <+: s.2.written
  whole : s.2.cut = false → ¬ s.1.running → s.2.played = s.2.written
  going : s.2.cut = false → s.1.running → s.1.bstopping = false

section Plays
variable {psrd t : StepInfo} {w : Wave} {e : Event} {s s' : StepInfo × Wave} {es : List Event}
  {idx : Fin hmMaxAxis}

theorem noteWave_quiet (quiet : psrd.starts e = false) : psrd.noteWave e w =
    { written := w.written ++ psrd.wrote e
      played := w.played ++ psrd.loads e
      cut := w.cut || psrd.suddenStops e || psrd.smoothStops e } := by
  unfold noteWave
  rw [quiet]
  rfl

theorem Plays.on (plays : Plays (psrd, w)) (running : psrd.running) (going : t.running)
    (coupled : t.Coupled) (quiet : psrd.starts e = false)
    (moved : psrd.waiting ++ psrd.wrote e = psrd.loads e ++ t.waiting)
    (stopping : psrd.smoothStops e = false → psrd.bstopping = false → t.bstopping = false) :
    Plays (t, psrd.noteWave e w) := by
  have written : w.written ++ psrd.wrote e = w.played ++ psrd.loads e ++ t.waiting := by
    rw [plays.running running, List.append_assoc, List.append_assoc, moved]
  rw [noteWave_quiet quiet]
  refine ⟨coupled, fun _ => written, ⟨t.waiting, written.symm⟩, fun _ stopped => ?_, fun uncut _ => ?_⟩
  · exact absurd going stopped
  · simp only [Bool.or_eq_false_iff] at uncut
    exact stopping uncut.2 (plays.going uncut.1.1 running)

theorem Plays.off (plays : Plays (psrd, w)) (stopped : ¬ psrd.running) (resting : ¬ t.running)
    (coupled : t.Coupled) (quiet : psrd.starts e = false) (wrote : psrd.wrote e = [])
    (loads : psrd.loads e = []) : Plays (t, psrd.noteWave e w) := by
  rw [noteWave_quiet quiet, wrote, loads, List.append_nil, List.append_nil]
  refine ⟨coupled, fun going => absurd going resting, plays.before, fun uncut _ => ?_,
    fun _ going => absurd going resting⟩
  simp only [Bool.or_eq_false_iff] at uncut
  exact plays.whole uncut.1.1 stopped

theorem Plays.pulse (plays : Plays (psrd, w)) : Plays (psrd.burst, psrd.noteWave .burst w) := by
  have coupled := plays.coupled.pulse
  have wrote : psrd.wrote .burst = [] := wrote_other rfl nofun
  by_cases running : psrd.running
  · obtain ⟨left, play⟩ := plays.coupled.playing running
    have whole := plays.coupled.regular.whole psrd.dmaBufIdx
    have bstopping : psrd.burst.bstopping = psrd.bstopping := by
      obtain ⟨tim, motor, pdma, same, -⟩ := psrd.burst_frame
      rw [same]
    refine plays.on running (by rw [burst_running]; exact running) coupled rfl ?_
      fun _ first => bstopping.trans first
    rw [wrote, List.append_nil]
    cases left with
    | zero =>
        have idle : ¬ psrd.playing := fun moves => play.playing_iff.mp moves rfl
        rw [burst_idle idle]
        simp [StepInfo.loads, idle]
    | succ left => exact play.pulse_waiting whole
  · have idle : ¬ psrd.playing := fun moves => running (plays.coupled.running_of_playing moves)
    refine plays.off running (by rw [burst_running]; exact running) coupled rfl wrote ?_
    simp [StepInfo.loads, idle]

theorem Plays.refill (plays : Plays (psrd, w)) (raised : psrd.Raised .halfTransfer)
    (fill : psrd.hmDmaFillNextBuf = .ok t) :
    Plays ({ t with pdma.htif := false }, psrd.noteWave .halfTransfer w) := by
  have regular := plays.coupled.regular
  have running := plays.coupled.running_of_half raised
  obtain ⟨left, play⟩ := plays.coupled.playing running
  have waiting := play.refill_waiting regular fill
  have loads : psrd.loads .halfTransfer = [] := loads_idle nofun
  have coupled := plays.coupled.refill raised fill
  obtain ⟨r, taken, n, buf, same⟩ := (hmDmaFillNextBuf_ok regular.whole fill).frame
  refine plays.on running ?_ coupled rfl (by rw [waiting, loads, List.nil_append]) ?_
  · rw [same]
    exact running
  · intro _ first
    rw [same]
    exact first

theorem Plays.complete (plays : Plays (psrd, w)) (raised : psrd.Raised .transferComplete)
    (check : psrd.hmDmaCk = .ok t) :
    Plays ({ t with pdma.tcif := false }, psrd.noteWave .transferComplete w) := by
  have coupled := plays.coupled.complete raised check
  have regular := plays.coupled.regular
  obtain ⟨running, play, -, valid⟩ := plays.coupled.completion raised
  have waiting := play.over_waiting (regular.whole _) valid
  have wrote : psrd.wrote .transferComplete = [] := wrote_other rfl nofun
  have loads : psrd.loads .transferComplete = [] := loads_idle nofun
  rcases hmDmaCk_ok (regular.noWrap running) check with ⟨-, -, rfl⟩ | ⟨last, rfl⟩
  · refine plays.on running running coupled rfl ?_ fun _ first => first
    rw [switched_waiting regular.whole, wrote, loads, waiting, List.append_nil, List.nil_append]
  · have standing : ¬ ({ psrd.finished with pdma.tcif := false } : StepInfo).running :=
      not_running_of_stopped rfl
    rw [noteWave_quiet rfl, wrote, loads, List.append_nil, List.append_nil]
    refine ⟨coupled, fun going => absurd going standing, plays.before, fun uncut _ => ?_,
      fun _ going => absurd going standing⟩
    simp only [Bool.or_eq_false_iff] at uncut
    -- without a stop the last buffer of the order leaves the other one empty
    have fair : psrd.feed.Fair hmDmaBufSize := by
      have going := regular.going running
      rw [plays.going uncut.1.1 running] at going
      exact going
    have none_ := fair.next_of_finished last _ (feed_next_of_valid valid)
    have written := plays.running running
    rw [waiting, DmaBufInfo.content_of_units none_, List.append_nil] at written
    exact written.symm

theorem Tuned.resting (tuned : psrd.Tuned t) (rest : psrd.Resting) : t.Resting := by
  obtain ⟨_, _, _, _, _, _, rfl, -⟩ := tuned
  exact { rest with }

theorem Plays.launch {home : Bool} (plays : Plays (psrd, w)) (starts : psrd.starts e)
    (stopped : psrd.axisState = .asStoped) {s₀ : StepInfo} (tuned : psrd.Tuned s₀)
    (launched : Launched s₀ e.request home t) (action : psrd.exec e = .ok t) :
    Plays (t, psrd.noteWave e w) := by
  have rest := tuned.resting (plays.coupled.resting stopped)
  have waiting := launched.waiting rest (starts_next starts action)
  have wrote : psrd.wrote e = t.curBuf.content ++ t.nextBuf.content := by
    unfold StepInfo.wrote
    rw [action]
    simp only [starts, if_true]
  unfold noteWave
  rw [if_pos starts, wrote, ← waiting]
  refine ⟨launched.coupled rest, fun _ => rfl, List.nil_prefix, fun _ standing => ?_, fun _ _ => ?_⟩
  · exact absurd (running_iff.mpr launched.axisState) standing
  · exact launched.prepared.bstopping

theorem Plays.command (plays : Plays (psrd, w)) (coupled : t.Coupled) (command : !e.dma)
    (quiet : psrd.starts e = false) (state : t.axisState = psrd.axisState)
    (bufs : t.waiting = psrd.waiting)
    (stopping : psrd.smoothStops e = false → psrd.bstopping = false → t.bstopping = false) :
    Plays (t, psrd.noteWave e w) := by
  have wrote : psrd.wrote e = [] :=
    wrote_other quiet (by rintro rfl; cases command)
  have loads : psrd.loads e = [] := loads_idle (by rintro rfl; cases command)
  have same : t.running = psrd.running := by
    unfold StepInfo.running
    rw [state]
  by_cases running : psrd.running
  · refine plays.on running (by rw [same]; exact running) coupled quiet ?_ stopping
    rw [wrote, loads, bufs, List.append_nil, List.nil_append]
  · exact plays.off running (by rw [same]; exact running) coupled quiet wrote loads

theorem Plays.sudden (plays : Plays (psrd, w)) (coupled : t.Coupled) (stops : psrd.suddenStops e)
    (state : t.axisState = .asStoped) : Plays (t, psrd.noteWave e w) := by
  have quiet := starts_of_suddenStops stops
  have command := command_of_suddenStops stops
  have standing := not_running_of_stopped state
  rw [noteWave_quiet quiet, wrote_other quiet (by rintro rfl; cases command),
    loads_idle (by rintro rfl; cases command), List.append_nil, List.append_nil, stops]
  refine ⟨coupled, fun going => absurd going standing, plays.before, fun uncut => ?_,
    fun _ going => absurd going standing⟩
  simp at uncut

theorem Plays.step (plays : Plays s) (action : WaveStep s e s') : Plays s' := by
  obtain ⟨psrd, w⟩ := s
  obtain ⟨t, w'⟩ := s'
  obtain ⟨step, note⟩ := action
  dsimp only at step note
  subst note
  have coupled := plays.coupled.step step
  obtain ⟨quiet, raised, action⟩ := step
  have effect := exec_effect action
  cases effect with
  | pulse => exact plays.pulse
  | refill fill => exact plays.refill raised fill
  | complete check => exact plays.complete raised check
  | launch starts stopped tuned launched => exact plays.launch starts stopped tuned launched action
  | smooth accepted tuned =>
      refine plays.command coupled (command_of_smoothStops accepted) (starts_of_smoothStops accepted)
        ?_ ?_ fun refused => absurd (accepted.symm.trans refused) (by decide)
      all_goals
        obtain ⟨_, _, _, _, _, _, _, same⟩ := stopSmooth_frame _
        rw [same]
        obtain ⟨_, _, _, _, _, _, rfl, -⟩ := tuned
        rfl
  | sudden stops => exact plays.sudden coupled stops rfl
  | place => exact plays.command coupled rfl rfl rfl rfl fun _ first => first
  | tune command inert tuned =>
      have quiet : psrd.starts e = false := by
        simp only [acts, Bool.not_eq_true', Bool.or_eq_false_iff] at inert
        exact inert.1.1
      obtain ⟨_, _, _, _, _, _, rfl, -⟩ := tuned
      exact plays.command coupled command quiet rfl rfl fun _ first => first

theorem reachable_plays {w : Wave}
    (run : Run WaveStep (hmStepMotorInit idx, ⟨[], [], false⟩) es (t, w)) : Plays (t, w) := by
  refine run.invariant Plays ?_ fun _ _ _ plays action => plays.step action
  have standing : ¬ (hmStepMotorInit idx).running := not_running_of_stopped rfl
  exact ⟨coupled_init idx, fun going => absurd going standing, List.nil_prefix, fun _ _ => rfl,
    fun _ going => absurd going standing⟩

/-- Whatever the order of the updates, the interrupts and the commands, what the timer was given of
the last motion is what was written for it from its first unit on. None of it is lost while the axis
runs, nor when the axis comes to stand without a stop. -/
theorem written_played {w : Wave}
    (run : Run WaveStep (hmStepMotorInit idx, ⟨[], [], false⟩) es (t, w)) :
    w.played <+: w.written ∧ (t.running → w.written = w.played ++ t.waiting) ∧
      (t.axisState = .asStoped → w.cut = false → w.played = w.written) := by
  have plays := reachable_plays run
  refine ⟨plays.before, plays.running, fun stopped uncut => ?_⟩
  exact plays.whole uncut (not_running_of_stopped stopped)

theorem written_played_single : ∃ t w, Run WaveStep (hmStepMotorInit 0, ⟨[], [], false⟩)
      [.move .clear 1 1000 1000 1000, .burst, .halfTransfer, .transferComplete] (t, w) ∧
    t.axisState = .asStoped ∧ w.written = [(999, 1, 500)] ∧ w.played = w.written := by
  obtain ⟨⟨t, w⟩, run, test⟩ := computes_wave.run_any
    (show ([Event.move .clear 1 1000 1000 1000, .burst, .halfTransfer, .transferComplete].foldlM
      playWave (hmStepMotorInit 0, ⟨[], [], false⟩)).any fun s : StepInfo × Wave =>
        decide (s.1.axisState = .asStoped ∧ s.2.cut = false ∧ s.2.written = [(999, 1, 500)]) by
      decide +kernel)
  obtain ⟨stopped, uncut, written⟩ := of_decide_eq_true test
  exact ⟨t, w, run, stopped, written, (written_played run).2.2 stopped uncut⟩

end Plays

abbrev TuneStep : StepInfo × Wave → Event → StepInfo × Wave → Prop :=
  Guarded (fun s e => !s.1.acts e ∧ !s.1.recurves e) WaveStep

def playTune : StepInfo × Wave → Event → Option (StepInfo × Wave) :=
  playGuarded (fun s e => !s.1.acts e ∧ !s.1.recurves e) playWave

theorem computes_tune : Computes playTune TuneStep := computes_wave.guarded _

section Tune
variable {psrd t u : StepInfo} {w : Wave} {e : Event} {s s' : StepInfo × Wave}
  {es before : List Event} {idx : Fin hmMaxAxis}

theorem acts_eq_false (inert : (!psrd.acts e) = true) :
    psrd.starts e = false ∧ psrd.suddenStops e = false ∧ psrd.smoothStops e = false := by
  simpa [acts, and_assoc] using inert

theorem TuneStep.uncut (action : TuneStep s e s') (uncut : s.2.cut = false) :
    s'.2.cut = false := by
  obtain ⟨⟨inert, -⟩, -, note⟩ := action
  obtain ⟨quiet, sudden, smooth⟩ := acts_eq_false inert
  rw [note, noteWave_quiet quiet, uncut, sudden, smooth]
  rfl

theorem TuneStep.motion (action : TuneStep s e s') :
    MotionStep (s.1, s.2.written) e (s'.1, s'.2.written) := by
  obtain ⟨⟨inert, kept⟩, ⟨-, -, action⟩, note⟩ := action
  refine ⟨⟨inert, kept⟩, action, ?_⟩
  rw [note, noteWave_quiet (acts_eq_false inert).1]

/-- From a start on, and until something else starts or stops the axis or changes its curve, the
timer is given the motion of the start: its first units in their order, and exactly all of them when
the axis comes to stand. -/
theorem played_motion (reached : Run QuietStep (hmStepMotorInit idx) before psrd)
    (starts : psrd.starts e) (action : psrd.exec e = .ok t)
    (run : Run TuneStep (t, ⟨psrd.wrote e, [], false⟩) es (u, w)) :
    (∃ n, psrd.motion e n = w.played ++ if u.running then u.waiting else []) ∧
      (u.axisState = .asStoped → ∃ n, ∀ m, psrd.motion e (n + m) = w.played) := by
  obtain ⟨w₀, watched⟩ : ∃ w₀, Run WaveStep (hmStepMotorInit idx, ⟨[], [], false⟩) before (psrd, w₀) :=
    reached.watched _
  have begun : Plays (t, ⟨psrd.wrote e, [], false⟩) := by
    have note : psrd.noteWave e w₀ = ⟨psrd.wrote e, [], false⟩ := if_pos starts
    rw [← note]
    exact (reachable_plays watched).step ⟨quietStep_of_starts starts action, rfl⟩
  have plays : Plays (u, w) :=
    run.invariant Plays begun fun _ _ _ plays action => plays.step action.2
  have uncut : w.cut = false :=
    run.invariant (fun s => s.2.cut = false) rfl fun _ _ _ uncut action => action.uncut uncut
  have motion := run.map (fun s => (s.1, s.2.written)) fun _ _ _ action => action.motion
  obtain ⟨n, written, whole⟩ := motion_written starts action motion
  have ended (standing : ¬ u.running) : w.played = w.written := plays.whole uncut standing
  refine ⟨⟨n, ?_⟩, fun stopped => ⟨n, fun m => ?_⟩⟩
  · rw [← written]
    split
    · rename_i running
      exact plays.running running
    · rename_i standing
      rw [List.append_nil, ended standing]
  · rw [whole stopped, ended (not_running_of_stopped stopped)]

theorem played_motion_two : ∃ t u w,
    (hmStepMotorInit 0).exec (.move .clear 2 1000 1000 1000) = .ok t ∧
    Run TuneStep (t, ⟨(hmStepMotorInit 0).wrote (.move .clear 2 1000 1000 1000), [], false⟩)
      [.burst, .setStopMode 1 1 0 1, .burst, .halfTransfer, .transferComplete] (u, w) ∧
    u.axisState = .asStoped ∧ w.played.length = 2 ∧
    ∃ n, ∀ m, (hmStepMotorInit 0).motion (.move .clear 2 1000 1000 1000) (n + m) = w.played := by
  obtain ⟨t, action, test⟩ := ok_of_any
    (show ((hmStepMotorInit 0).exec (.move .clear 2 1000 1000 1000)).toOption.any
      fun t : StepInfo =>
        ([Event.burst, .setStopMode 1 1 0 1, .burst, .halfTransfer, .transferComplete].foldlM
          playTune (t, ⟨(hmStepMotorInit 0).wrote (.move .clear 2 1000 1000 1000), [], false⟩)).any
          fun s : StepInfo × Wave =>
            decide (s.1.axisState = .asStoped ∧ s.2.played.length = 2) by
      decide +kernel)
  obtain ⟨⟨u, w⟩, run, ended⟩ := computes_tune.run_any test
  obtain ⟨stopped, two⟩ := of_decide_eq_true ended
  exact ⟨t, u, w, action, run, stopped, two,
    (played_motion .nil (by decide) action run).2 stopped⟩

end Tune

end StepInfo

end MotionBoard
