import MotionBoard.StepMotor.Motion

namespace MotionBoard
open Transition TwoBuffer

namespace StepInfo

section Quiet
variable {psrd p q t : StepInfo} {e : Event} {rcr : UInt16}

theorem stopSmooth_method : psrd.hmStepMotorStopSmooth.method = psrd.method := by
  obtain ⟨_, _, _, _, _, _, _, same⟩ := psrd.stopSmooth_frame
  rw [same]

theorem limitStop_method : psrd.limitStop.method = psrd.method := by
  unfold limitStop
  split
  · rfl
  · exact stopSmooth_method

theorem Ready.method (ready : Ready p q) : q.launch.method = p.method := by
  obtain ⟨psc, launch⟩ := q.launch_frame
  obtain ⟨_, _, _, _, _, _, _, _, rfl⟩ := ready.planned
  rw [launch]
  rfl

theorem guardedStart_method {amount : Int32} {io : Pins} {bufs : Except Halt StepInfo}
    {answer : Bool} (action : psrd.guardedStart amount io bufs = .ok (answer, t))
    (fills : ∀ q, bufs = .ok q → q.launch.method = psrd.method) : t.method = psrd.method := by
  unfold guardedStart at action
  split at action
  · obtain ⟨-, rfl⟩ := Prod.mk.inj (Except.ok.inj action)
    rfl
  · split at action
    · obtain ⟨-, rfl⟩ := Prod.mk.inj (Except.ok.inj action)
      rfl
    · obtain ⟨q, fill, result⟩ := Except.ok_of_map action
      obtain ⟨-, rfl⟩ := Prod.mk.inj result
      exact fills q fill

theorem hmStepMotorMove_method {io : Pins} {step : Int32} {accel decel speed : UInt32}
    {answer : Bool} (action : psrd.hmStepMotorMove io step accel decel speed = .ok (answer, t)) :
    t.method = psrd.method := by
  rw [hmStepMotorMove_guarded] at action
  refine guardedStart_method action fun q fill => (moveBufs_ready fill).method.trans ?_
  obtain ⟨_, _, enable⟩ := (psrd.towards step).hmMotorEnableAxis_frame true
  unfold resetMove
  rw [enable]
  rfl

theorem hmStepMotorStartRun_method {io : Pins} {accel : UInt32} {speed : Int32} {answer : Bool}
    (action : psrd.hmStepMotorStartRun io accel speed = .ok (answer, t)) :
    t.method = psrd.method := by
  rw [hmStepMotorStartRun_guarded] at action
  refine guardedStart_method action fun q fill => (runBufs_ready fill).method.trans ?_
  obtain ⟨_, _, enable⟩ := (psrd.towards speed).enable_frame io
  unfold resetRun
  dsimp only
  rw [enable]
  rfl

theorem exec_method (regular : psrd.Regular) (kept : psrd.recurves e = false)
    (action : psrd.exec e = .ok t) : t.method = psrd.method := by
  cases e with
  | burst =>
      obtain rfl := Except.ok.inj action
      obtain ⟨tim, motor, pdma, same, -⟩ := psrd.burst_frame
      rw [same]
  | halfTransfer =>
      obtain ⟨u, fill, rfl⟩ := Except.ok_of_map action
      obtain ⟨_, _, _, _, rfl⟩ := (hmDmaFillNextBuf_ok regular.whole fill).frame
      rfl
  | transferComplete =>
      obtain ⟨u, check, rfl⟩ := Except.ok_of_map action
      rw [hmDmaCk_eq] at check
      split at check
      · split at check
        · cases check
        · obtain rfl := Except.ok.inj check
          rfl
      · obtain rfl := Except.ok.inj check
        rfl
  | move io step accel decel speed =>
      obtain ⟨answer, result⟩ := map_snd_ok action
      exact hmStepMotorMove_method result
  | startHoming io accel speed =>
      obtain ⟨answer, result⟩ := map_snd_ok action
      have start : { psrd with bdoHome := true }.hmStepMotorStartRun io accel speed = _ := result
      exact (hmStepMotorStartRun_method start).trans rfl
  | startFreeRun io accel speed =>
      obtain ⟨answer, result⟩ := map_snd_ok action
      have start : { psrd with bdoHome := false }.hmStepMotorStartRun io accel speed = _ := result
      exact (hmStepMotorStartRun_method start).trans rfl
  | startRun io accel speed =>
      obtain ⟨answer, result⟩ := map_snd_ok action
      exact hmStepMotorStartRun_method result
  | stopSmooth =>
      obtain rfl := Except.ok.inj action
      exact stopSmooth_method
  | stopSundden | setCurPos | setHomeStopMode =>
      obtain rfl := Except.ok.inj action
      rfl
  | limitCheck io =>
      obtain rfl := Except.ok.inj action
      obtain ⟨last, mark⟩ := psrd.markLastHitHome_frame io
      unfold hmMotorLimitLogicalCheck
      dsimp only
      split
      · rfl
      · rw [mark]
        split
        · exact limitStop_method
        · rfl
  | externIrq func extline io =>
      obtain rfl := Except.ok.inj action
      unfold handlerExternIrq
      split
      · exact limitStop_method
      · rfl
  | setStopMode bsudCW bsudCCW bsudHome bTcurve =>
      obtain rfl := Except.ok.inj action
      simpa [recurves] using kept
  | setAxisCurve m =>
      obtain rfl := Except.ok.inj action
      simpa [recurves] using kept
  | enableAxis benable =>
      obtain rfl := Except.ok.inj action
      obtain ⟨enaPin, benabled, enable⟩ := psrd.hmMotorEnableAxis_frame benable
      rw [enable]

theorem quiet_generating (regular : psrd.Regular) (inert : !psrd.acts e) (kept : !psrd.recurves e)
    (other : e ≠ .halfTransfer) (action : psrd.exec e = .ok t) :
    t = t.generating psrd ∧ t.stepsTaken = psrd.stepsTaken := by
  have method := exec_method regular (by simpa using kept) action
  cases exec_effect action with
  | pulse =>
      obtain ⟨tim, motor, pdma, same, -⟩ := psrd.burst_frame
      rw [same]
      exact ⟨rfl, rfl⟩
  | refill => exact absurd rfl other
  | complete check =>
      rw [hmDmaCk_eq] at check
      split at check
      · split at check
        · cases check
        · obtain rfl := Except.ok.inj check
          exact ⟨rfl, rfl⟩
      · obtain rfl := Except.ok.inj check
        exact ⟨rfl, rfl⟩
  | launch starts => simp [acts, starts] at inert
  | smooth stops => simp [acts, stops] at inert
  | sudden stops => simp [acts, stops] at inert
  | place => exact ⟨rfl, rfl⟩
  | tune _ _ tuned =>
      obtain ⟨_, _, _, _, _, _, rfl, -⟩ := tuned
      obtain rfl := method
      exact ⟨rfl, rfl⟩

theorem delays_of_generating (shape : t = t.generating q) (taken : t.stepsTaken = q.stepsTaken)
    (m : Nat) : delays m t t.stepsTaken = delays m q q.stepsTaken := by
  rw [taken, shape, delays_generating]

theorem launch_generating (q : StepInfo) :
    q.launch = q.launch.generating q ∧ q.launch.stepsTaken = q.stepsTaken ∧
      q.launch.curBuf = q.curBuf ∧ q.launch.nextBuf = q.nextBuf := by
  obtain ⟨psc, same⟩ := q.launch_frame
  rw [same]
  exact ⟨rfl, rfl, rfl, rfl⟩

theorem refill_writes (regular : psrd.Regular) (action : psrd.exec .halfTransfer = .ok t) :
    (psrd.nextBuf.valid ≠ 0 ∧ psrd.wrote .halfTransfer = [] ∧
      ∀ m, delays m t t.stepsTaken = delays m psrd psrd.stepsTaken) ∨
    (psrd.wrote .halfTransfer = (delays hmDmaBufSize psrd psrd.stepsTaken).map stepUnit ∧
      (∀ delay ∈ delays hmDmaBufSize psrd psrd.stepsTaken, 2 ≤ delay) ∧
      ∀ m, delays (hmDmaBufSize + m) psrd psrd.stepsTaken =
        delays hmDmaBufSize psrd psrd.stepsTaken ++ delays m t t.stepsTaken) := by
  have wrote : psrd.wrote .halfTransfer =
      if psrd.nextBuf.valid = 0 then t.nextBuf.content else [] := by
    unfold StepInfo.wrote
    rw [action]
    simp [starts]
  obtain ⟨u, fill, rfl⟩ := Except.ok_of_map action
  by_cases empty : psrd.nextBuf.valid = 0
  · rw [hmDmaFillNextBuf_emptied empty] at fill
    rw [if_pos empty] at wrote
    obtain ⟨v, update, rfl⟩ := Except.ok_of_map fill
    have whole : psrd.emptied.dmaBuf[psrd.dmaBufIdx + 1].Whole := emptied_whole
    have phase : psrd.emptied.InPhase psrd.emptied.stepsTaken := regular.phase
    have same (n : Nat) : delays n psrd.emptied psrd.emptied.stepsTaken =
        delays n psrd psrd.stepsTaken := delays_generating psrd.emptied psrd psrd.stepsTaken n
    have content := hmDmaUpdate_content whole update
    have returns := (hmDmaUpdate_returns_iff phase whole).mp ⟨v, update⟩
    have more := fun m => hmDmaUpdate_delays m whole update
    simp only [emptied_units, Nat.sub_zero, same] at content returns more
    rw [DmaBufInfo.content_of_units emptied_units, List.nil_append] at content
    refine .inr ⟨?_, returns, fun m => ?_⟩
    · rw [wrote, ← content]
      obtain ⟨_, _, _, rfl⟩ := (hmDmaUpdate_ok whole update).frame
      rfl
    · rw [more m]
      exact congrArg _ (delays_generating { v with dmaFill := v.dmaFill + 1, pdma.htif := false } v
        v.stepsTaken m).symm
  · rw [hmDmaFillNextBuf_full empty] at fill
    rw [if_neg empty] at wrote
    obtain rfl := Except.ok.inj fill
    exact .inl ⟨empty, wrote, delays_generating { psrd with pdma.htif := false } psrd psrd.stepsTaken⟩

theorem startRun_prefill {io : Pins} {accel : UInt32} {speed : Int32}
    (ahead : (decide (psrd.axisState = .asStoped) &&
      !decide ((psrd.towards speed).blocked io)) = true)
    (action : (psrd.hmStepMotorStartRun io accel speed).map Prod.snd = .ok t) :
    ∃ q, (psrd.runPlan io accel speed).prefill 1 = .ok q ∧ t = q.launch := by
  obtain ⟨stopped, free⟩ := goes_ahead_iff.mp ahead
  obtain ⟨answer, start⟩ := map_snd_ok action
  rw [hmStepMotorStartRun_guarded, guardedStart_ahead stopped free] at start
  obtain ⟨q, fill, result⟩ := Except.ok_of_map start
  exact ⟨q, fill, congrArg Prod.snd result⟩

theorem move_bufs {io : Pins} {step : Int32} {accel decel speed : UInt32}
    (ahead : psrd.starts (.move io step accel decel speed))
    (action : psrd.exec (.move io step accel decel speed) = .ok t) :
    ∃ q, ((psrd.towards step).resetMove (magnitude step) speed).moveBufs (magnitude step) accel
      speed = .ok q ∧ t = q.launch := by
  obtain ⟨stopped, free⟩ := goes_ahead_iff.mp ahead
  obtain ⟨answer, start⟩ := map_snd_ok action
  rw [hmStepMotorMove_guarded, guardedStart_ahead stopped free] at start
  obtain ⟨q, fill, result⟩ := Except.ok_of_map start
  exact ⟨q, fill, congrArg Prod.snd result⟩

theorem starts_prefill (starts : psrd.starts e) (plan : psrd.planned e = some (p, rcr))
    (action : psrd.exec e = .ok t) : ∃ q, p.prefill rcr = .ok q ∧ t = q.launch := by
  obtain ⟨io, step, accel, decel, speed, rfl, few, rfl, rfl⟩ |
    ⟨_, io, accel, speed, ⟨rfl, rfl⟩ | ⟨rfl, rfl⟩ | ⟨rfl, rfl⟩, rfl, rfl⟩ := planned_cases plan
  · obtain ⟨q, fill, launch⟩ := move_bufs starts action
    obtain ⟨many, some_⟩ := not_or.mp few
    unfold moveBufs at fill
    rw [if_neg many, if_pos some_] at fill
    exact ⟨q, fill, launch⟩
  · exact startRun_prefill starts action
  · exact startRun_prefill starts action
  · exact startRun_prefill starts action

theorem prefill_writes (cleared : p.Cleared) (phase : p.InPhase 1)
    (fill : p.prefill rcr = .ok q) :
    q.curBuf.content ++ q.nextBuf.content =
      (p.stepDelay - 1, rcr, p.stepDelay / 2) :: (delays 199 p 1).map stepUnit ∧
    ∀ m, delays (199 + m) p 1 = delays 199 p 1 ++ delays m q q.stepsTaken := by
  have idx : q.dmaBufIdx = 0 := (prefill_ok cleared fill).planned.dmaBufIdx.trans cleared.1
  rw [curBuf_of_idx idx, nextBuf_of_idx idx]
  obtain ⟨a, b, first, update, rest⟩ := prefill_steps fill
  have begun := firstUnit_begun cleared first
  have unit := firstUnit_content cleared first
  obtain ⟨-, -, -, other, -, phase'⟩ := firstBuf_ok cleared first update
  have empty : b.dmaBuf[(1 : Fin hmDmaBufBlockSz)].units = 0 := by
    rw [other]
    exact cleared.units 1
  have content := hmDmaUpdate_content begun.whole update
  rw [begun.units, begun.same, unit] at content
  have more := begun.first update
  obtain ⟨-, second⟩ | ⟨stop, rfl⟩ := rest
  · have whole₁ : b.dmaBuf[(1 : Fin hmDmaBufBlockSz)].Whole := by
      rw [other]
      exact cleared.whole 1
    have content₁ := hmDmaUpdate_content whole₁ second
    have more₁ (m : Nat) : delays (100 + m) b b.stepsTaken =
        delays 100 b b.stepsTaken ++ delays m q q.stepsTaken := by
      have goesOn := hmDmaUpdate_delays m whole₁ second
      rw [empty] at goesOn
      exact goesOn
    rw [empty, DmaBufInfo.content_of_units empty] at content₁
    refine ⟨?_, fun m => ?_⟩
    · rw [(hmDmaUpdate_ok whole₁ second).get_ne (by decide), content, content₁,
        show 199 = 99 + 100 from rfl, more 100, List.map_append]
      rfl
    · rw [show 199 + m = 99 + (100 + m) by omega, more, more₁ m,
        show 199 = 99 + 100 from rfl, more 100, List.append_assoc]
  · have done (n : Nat) : delays n q q.stepsTaken = [] := delays_of_rsStop (phase' phase) stop
    refine ⟨?_, fun m => ?_⟩
    · rw [content, DmaBufInfo.content_of_units empty, List.append_nil,
        show 199 = 99 + 100 from rfl, more 100, done, List.append_nil]
      rfl
    · rw [show 199 + m = 99 + (100 + m) by omega, more, done, done,
        show 199 = 99 + 100 from rfl, more 100, done, List.append_nil, List.append_nil]

theorem singleStep_writes (cleared : p.Cleared) (request : p.stepsRequest = 1)
    (fill : p.singleStep = .ok q) :
    q.curBuf.content ++ q.nextBuf.content = [(999, 1, 500)] ∧
      ∀ m, delays m q q.stepsTaken = [] := by
  obtain ⟨buf, a, first, get, -, -, same⟩ := singleStep_buf cleared fill
  have unit : buf.content = [(999, 1, 500)] := by
    rw [← get]
    exact (firstUnit_content (by exact cleared) first).trans
      (show [((1000 : UInt16) - 1, (1 : UInt16), (1000 : UInt16) / 2)] = _ by decide)
  have idx : q.dmaBufIdx = 0 := by
    rw [same]
    exact cleared.1
  have exhausted : q.Exhausted q.stepsTaken := by
    rw [same]
    change p.stepsRequest ≠ hmInvalidStep ∧ 1 ≥ p.stepsRequest
    rw [request]
    decide
  refine ⟨?_, fun m => delays_exhausted exhausted⟩
  have cur : q.curBuf = { buf with valid := 1 } := by
    rw [curBuf_of_idx idx, same]
    exact setBuf_get _ _ _
  have next : q.nextBuf = p.dmaBuf[(1 : Fin hmDmaBufBlockSz)] := by
    rw [nextBuf_of_idx idx, same]
    exact setBuf_get_ne _ _ _ (by decide)
  rw [cur, next, DmaBufInfo.content_of_units (cleared.units 1), List.append_nil]
  exact unit

theorem unplanned_writes (starts : psrd.starts e) (plan : psrd.planned e = none)
    (action : psrd.exec e = .ok t) :
    t.curBuf.content ++ t.nextBuf.content = e.unplanned ∧
      ∀ m, delays m t t.stepsTaken = [] := by
  cases e with
  | move io step accel decel speed =>
      obtain ⟨q, fill, rfl⟩ := move_bufs starts action
      have prepared := (psrd.towards step).resetMove_prepared (magnitude step) speed
      have cleared := (psrd.towards step).resetMove_cleared (magnitude step) speed
      have taken := (psrd.towards step).resetMove_stepsTaken (magnitude step) speed
      generalize (psrd.towards step).resetMove (magnitude step) speed = p at *
      obtain ⟨shape, taken', cur, next⟩ := q.launch_generating
      simp only [delays_of_generating shape taken', cur, next]
      unfold moveBufs at fill
      change _ = (if magnitude step = 1 then [(999, 1, 500)] else []) ∧ _
      by_cases one : magnitude step = 1
      · rw [if_pos one] at fill ⊢
        exact singleStep_writes cleared (by rw [prepared.stepsRequest, one]; rfl) fill
      · rw [if_neg one] at fill ⊢
        by_cases none_ : magnitude step = 0
        · rw [if_neg (not_not.mpr none_)] at fill
          obtain rfl := Except.ok.inj fill
          have empty (i : Fin hmDmaBufBlockSz) : p.dmaBuf[i].content = [] :=
            DmaBufInfo.content_of_units (cleared.units i)
          refine ⟨?_, fun m => delays_exhausted ?_⟩
          · unfold curBuf nextBuf
            rw [empty, empty]
            rfl
          · rw [StepInfo.Exhausted, prepared.stepsRequest, taken, none_]
            decide
        · cases (if_neg (not_or.mpr ⟨one, none_⟩)).symm.trans plan
  | startHoming | startFreeRun | startRun => cases plan
  | _ => cases starts

end Quiet

/-- The motion that start `e` began in `psrd` is written up to some unit, and goes on with the
delays of the generator. A standing axis has none left. -/
structure Writing (psrd : StepInfo) (e : Event) (s : StepInfo × List DmaUnit) : Prop where
  regular : s.1.Regular
  alive : s.1.running ∧ s.1.feed.Fair hmDmaBufSize ∨ ∀ m, delays m s.1 s.1.stepsTaken = []
  written : ∃ n, ∀ m, psrd.motion e (n + m) =
    s.2 ++ (untilHang (delays m s.1 s.1.stepsTaken)).map stepUnit

section Writing
variable {psrd p t : StepInfo} {e e' : Event} {s s' : StepInfo × List DmaUnit}
  {es : List Event} {units : List DmaUnit}

theorem Launched.alive {request : UInt32} {home : Bool} {s₀ : StepInfo}
    (launched : Launched s₀ request home t) : t.running ∧ t.feed.Fair hmDmaBufSize :=
  ⟨running_iff.mpr launched.axisState, launched.fair⟩

theorem starts_writing (starts : psrd.starts e) (action : psrd.exec e = .ok t) :
    Writing psrd e (t, psrd.wrote e) := by
  obtain ⟨s₀, home, launched⟩ := (exec_effect action).of_starts starts
  have wrote : psrd.wrote e = t.curBuf.content ++ t.nextBuf.content := by
    unfold StepInfo.wrote
    rw [action]
    simp only [starts, if_true]
  refine ⟨launched.regular, .inl launched.alive, ?_⟩
  cases plan : psrd.planned e with
  | none =>
      obtain ⟨content, none_⟩ := unplanned_writes starts plan action
      refine ⟨0, fun m => ?_⟩
      simp only [none_, wrote, content]
      unfold motion
      rw [plan]
      exact (List.append_nil _).symm
  | some begins =>
      obtain ⟨a, rcr⟩ := begins
      obtain ⟨q, fill, rfl⟩ := starts_prefill starts plan action
      obtain ⟨cleared, phase⟩ := planned_ready plan
      obtain ⟨content, more⟩ := prefill_writes cleared phase fill
      have long := (prefill_returns_iff cleared phase).mp ⟨q, fill⟩
      obtain ⟨shape, taken, cur, next⟩ := q.launch_generating
      refine ⟨199, fun m => ?_⟩
      simp only [wrote, delays_of_generating shape taken, cur, next, content]
      unfold motion
      rw [plan]
      simp only
      rw [more, untilHang_append long, List.map_append, List.cons_append]

theorem delays_step (regular : psrd.Regular) (inert : !psrd.acts e) (kept : !psrd.recurves e)
    (action : psrd.exec e = .ok t) :
    (psrd.wrote e = [] ∧ ∀ m, delays m t t.stepsTaken = delays m psrd psrd.stepsTaken) ∨
    ∃ n, psrd.wrote e = (delays n psrd psrd.stepsTaken).map stepUnit ∧
      (∀ delay ∈ delays n psrd psrd.stepsTaken, 2 ≤ delay) ∧
      ∀ m, delays (n + m) psrd psrd.stepsTaken =
        delays n psrd psrd.stepsTaken ++ delays m t t.stepsTaken := by
  by_cases half : e = .halfTransfer
  · subst half
    exact (refill_writes regular action).imp And.right fun written => ⟨_, written⟩
  · obtain ⟨shape, taken⟩ := quiet_generating regular inert kept half action
    refine .inl ⟨?_, delays_of_generating shape taken⟩
    have idle : psrd.starts e = false := by
      cases starts : psrd.starts e with
      | false => rfl
      | true => simp [acts, starts] at inert
    unfold StepInfo.wrote
    rw [action]
    simp [idle, half]

theorem exhausted_of_finished (fair : psrd.feed.Fair hmDmaBufSize) (last : ¬ psrd.feed.More) :
    psrd.Exhausted psrd.stepsTaken := by
  by_cases endless : psrd.stepsRequest = hmInvalidStep
  · have order : psrd.feed.order = none := if_pos endless
    unfold Feed.More at last
    rw [order] at last
    exact absurd trivial last
  · have order : psrd.feed.order =
        some ⟨psrd.stepsRequest.toNat, psrd.stepsTaken.toNat, psrd.stepsActual.toNat⟩ :=
      if_neg endless
    have played : psrd.stepsActual.toNat + psrd.feed.cur = psrd.stepsRequest.toNat :=
      fair.finished order last
    simp only [Feed.Fair, order] at fair
    refine ⟨endless, UInt32.le_iff_toNat_le.mpr ?_⟩
    omega

theorem Writing.alive_step (writing : Writing p e s) (action : MotionStep s e' s') :
    s'.1.running ∧ s'.1.feed.Fair hmDmaBufSize ∨ ∀ m, delays m s'.1 s'.1.stepsTaken = [] := by
  obtain ⟨⟨inert, kept⟩, action, -⟩ := action
  have next := delays_step writing.regular inert kept action
  rcases writing.alive with ⟨running, fair⟩ | ended
  · have going (state : s'.1.axisState = s.1.axisState) : s'.1.running := by
      rw [running_iff, state]
      exact running_iff.mp running
    cases writing.regular.feedMove running inert action with
    | refill state _ feed =>
        refine .inl ⟨going state, ?_⟩
        rw [feed]
        split
        · rename_i empty
          exact fair.fill (feed_next_eq_none.mpr empty)
        · exact fair
    | advance state _ more valid feed =>
        refine .inl ⟨going state, ?_⟩
        rw [feed]
        exact fair.advance more (feed_next_of_valid valid)
    | finish last _ =>
        obtain ⟨shape, taken⟩ := quiet_generating writing.regular inert kept nofun action
        refine .inr fun m => ?_
        rw [delays_of_generating shape taken, delays_exhausted (exhausted_of_finished fair last)]
    | same _ _ same =>
        refine .inl ⟨going same.axisState, ?_⟩
        rw [same.feed]
        exact fair
  · refine .inr fun m => ?_
    rcases next with ⟨-, same⟩ | ⟨n, -, -, more⟩
    · rw [same, ended]
    · exact (List.append_eq_nil_iff.mp ((more m).symm.trans (ended _))).2

theorem Writing.step (writing : Writing p e s) (action : MotionStep s e' s') :
    Writing p e s' := by
  have alive := writing.alive_step action
  obtain ⟨⟨inert, kept⟩, action, note⟩ := action
  dsimp only at note
  refine ⟨writing.regular.step action, alive, ?_⟩
  obtain ⟨n, written⟩ := writing.written
  rcases delays_step writing.regular inert kept action with ⟨nothing, same⟩ | ⟨k, some_, long, more⟩
  · refine ⟨n, fun m => ?_⟩
    rw [note, nothing, List.append_nil, same]
    exact written m
  · refine ⟨n + k, fun m => ?_⟩
    rw [note, some_, Nat.add_assoc, written, more, untilHang_append long, List.map_append,
      List.append_assoc]

theorem motion_written (starts : psrd.starts e) (action : psrd.exec e = .ok t)
    (run : Run MotionStep (t, psrd.wrote e) es (p, units)) :
    ∃ n, units = psrd.motion e n ∧
      (p.axisState = .asStoped → ∀ m, psrd.motion e (n + m) = units) := by
  have writing := run.invariant (Writing psrd e) (starts_writing starts action)
    fun _ _ _ writing action => writing.step action
  obtain ⟨n, written⟩ := writing.written
  refine ⟨n, ?_, fun stopped m => ?_⟩
  · have now := written 0
    rw [show delays 0 p p.stepsTaken = [] from rfl] at now
    exact (now.trans (List.append_nil _)).symm
  · have ended := writing.alive.resolve_left fun alive => not_running_of_stopped stopped alive.1
    rw [written, ended]
    exact List.append_nil _

end Writing

def Writes (psrd : StepInfo) (e : Event) (t : StepInfo) : Prop :=
  ∀ es s units, Run MotionStep (t, psrd.wrote e) es (s, units) →
    ∃ n, units = psrd.motion e n ∧ (s.axisState = .asStoped → ∀ m, psrd.motion e (n + m) = units)

section History
variable {p q t u : StepInfo} {e : Event}

/-- A start that goes ahead in two states with the same curve writes the same units in both, unless
it is a move at constant speed and the motions before left different values of
`last_accel_delay`. -/
theorem motion_history_iff (method : p.method = q.method) (starts₁ : p.starts e)
    (starts₂ : q.starts e) (action₁ : p.exec e = .ok t) (action₂ : q.exec e = .ok u) :
    ((∀ n, p.motion e n = q.motion e n) ↔
      (e.ConstantSpeed p.method → p.lastAccelDelay = q.lastAccelDelay)) ∧
    p.Writes e t ∧ q.Writes e u := by
  refine ⟨⟨fun same slow => ?_, motion_congr method⟩,
    fun es s units run => motion_written starts₁ action₁ run,
    fun es s units run => motion_written starts₂ action₂ run⟩
  cases plan : p.planned e with
  | none =>
      cases e with
      | move io step accel decel speed =>
          cases (if_neg (not_or.mpr ⟨slow.1, slow.2.1⟩)).symm.trans plan
      | _ => exact slow.elim
  | some begins =>
      obtain ⟨a, rcr⟩ := begins
      obtain ⟨r, fill, -⟩ := starts_prefill starts₁ plan action₁
      obtain ⟨b, plan', -⟩ := planned_alike method plan
      obtain ⟨r', fill', -⟩ := starts_prefill starts₂ plan' action₂
      exact lastAccelDelay_of_motion method slow plan plan' ⟨r, fill⟩ ⟨r', fill'⟩ same

theorem motion_history_free_run : ∃ p t u,
    Run Step (hmStepMotorInit 0) [.move .clear 4 20000000 20000000 5000, .stopSundden] p ∧
    p.exec (.startFreeRun .clear 1000 1000) = .ok t ∧
    (hmStepMotorInit 0).exec (.startFreeRun .clear 1000 1000) = .ok u ∧
    p.lastAccelDelay ≠ (hmStepMotorInit 0).lastAccelDelay ∧
    ∀ n, p.motion (.startFreeRun .clear 1000 1000) n =
      (hmStepMotorInit 0).motion (.startFreeRun .clear 1000 1000) n := by
  obtain ⟨p, run, test⟩ := computes_fires.run_any
    (show ([Event.move .clear 4 20000000 20000000 5000, .stopSundden].foldlM (playFires exec)
      (hmStepMotorInit 0)).any fun p =>
        decide (p.lastAccelDelay ≠ 0 ∧ p.method = .tCurve ∧
          p.starts (.startFreeRun .clear 1000 1000)) &&
        (p.exec (.startFreeRun .clear 1000 1000)).toOption.any fun _ => true by
      decide +kernel)
  obtain ⟨before, begun⟩ := Bool.and_eq_true_iff.mp test
  obtain ⟨left, method, starts⟩ := of_decide_eq_true before
  obtain ⟨t, action, -⟩ := ok_of_any begun
  obtain ⟨u, action', -⟩ := ok_of_any
    (show ((hmStepMotorInit 0).exec (.startFreeRun .clear 1000 1000)).toOption.any
      fun _ => true by decide +kernel)
  exact ⟨p, t, u, run, action, action', left,
    (motion_history_iff method starts (by decide) action action').1.mpr nofun⟩

theorem motion_history_differs : ∃ p q t u,
    Run Step (hmStepMotorInit 0) [.move .clear 4 20000000 20000000 5000, .stopSundden] p ∧
    Run Step (hmStepMotorInit 0) [.move .clear 4 10000000 10000000 4000, .stopSundden] q ∧
    p.axisState = .asStoped ∧ q.axisState = .asStoped ∧ p.method = q.method ∧
    p.exec (.move .clear 4 20000000 20000000 1000) = .ok t ∧
    q.exec (.move .clear 4 20000000 20000000 1000) = .ok u ∧
    p.wrote (.move .clear 4 20000000 20000000 1000) =
      [(999, 0, 500), (999, 0, 500), (121, 0, 61), (65413, 0, 32707)] ∧
    q.wrote (.move .clear 4 20000000 20000000 1000) =
      [(999, 0, 500), (999, 0, 500), (161, 0, 81), (65373, 0, 32687)] := by
  obtain ⟨p, run₁, test₁⟩ := computes_fires.run_any
    (show ([Event.move .clear 4 20000000 20000000 5000, .stopSundden].foldlM (playFires exec)
      (hmStepMotorInit 0)).any fun p =>
        decide (p.axisState = .asStoped ∧ p.method = .tCurve ∧
          p.wrote (.move .clear 4 20000000 20000000 1000) =
            [(999, 0, 500), (999, 0, 500), (121, 0, 61), (65413, 0, 32707)]) &&
        (p.exec (.move .clear 4 20000000 20000000 1000)).toOption.any fun _ => true by
      decide +kernel)
  obtain ⟨q, run₂, test₂⟩ := computes_fires.run_any
    (show ([Event.move .clear 4 10000000 10000000 4000, .stopSundden].foldlM (playFires exec)
      (hmStepMotorInit 0)).any fun q =>
        decide (q.axisState = .asStoped ∧ q.method = .tCurve ∧
          q.wrote (.move .clear 4 20000000 20000000 1000) =
            [(999, 0, 500), (999, 0, 500), (161, 0, 81), (65373, 0, 32687)]) &&
        (q.exec (.move .clear 4 20000000 20000000 1000)).toOption.any fun _ => true by
      decide +kernel)
  obtain ⟨before₁, begun₁⟩ := Bool.and_eq_true_iff.mp test₁
  obtain ⟨before₂, begun₂⟩ := Bool.and_eq_true_iff.mp test₂
  obtain ⟨stopped₁, method₁, units₁⟩ := of_decide_eq_true before₁
  obtain ⟨stopped₂, method₂, units₂⟩ := of_decide_eq_true before₂
  obtain ⟨t, action₁, -⟩ := ok_of_any begun₁
  obtain ⟨u, action₂, -⟩ := ok_of_any begun₂
  exact ⟨p, q, t, u, run₁, run₂, stopped₁, stopped₂, method₁.trans method₂.symm, action₁, action₂,
    units₁, units₂⟩

end History

end StepInfo

end MotionBoard
