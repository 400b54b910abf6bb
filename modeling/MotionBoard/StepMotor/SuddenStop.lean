import MotionBoard.StepMotor.StopDistance

namespace MotionBoard
open Transition TwoBuffer

namespace StepInfo

abbrev RestStep : StepInfo → Event → StepInfo → Prop := Guarded (fun s e => !s.starts e) HwStep

def playRest : StepInfo → Event → Option StepInfo := playGuarded (fun s e => !s.starts e) playHw

theorem computes_rest : Computes playRest RestStep := computes_hw.guarded _

/-- Until the next start, the timer and the channel stay off and the DMA interrupt handler leaves
the position alone. -/
def Final (psrd : StepInfo) : Prop :=
  ∀ es t, Run RestStep psrd es t → t.ptim.enabled = false ∧ t.pdma.enabled = false ∧
    ∀ e u, e.dma → HwStep t e u → u.pos = t.pos

structure Standing (psrd : StepInfo) : Prop where
  regular : psrd.Regular
  stopped : psrd.axisState = .asStoped
  timer : psrd.ptim.enabled = false
  channel : psrd.pdma.enabled = false
  complete : psrd.pdma.tcif = false

section Standing
variable {psrd s t : StepInfo} {e : Event}

theorem Standing.idle (standing : psrd.Standing) : ¬ psrd.playing := by
  simp [StepInfo.playing, standing.timer]

theorem stopSundden_standing (regular : psrd.Regular) (complete : psrd.pdma.tcif = false) :
    psrd.hmStepMotorStopSundden.Standing := by
  have pdma : psrd.hmStepMotorStopSundden.pdma = (psrd.hmDmaSetup false).pdma := rfl
  rw [hmDmaSetup_false] at pdma
  exact ⟨regular.stopSundden, rfl, rfl, by rw [pdma], by rw [pdma]; exact complete⟩

theorem Standing.refill (standing : psrd.Standing) (fill : psrd.hmDmaFillNextBuf = .ok t) :
    ({ t with pdma.htif := false }).Standing ∧ t.pos = psrd.pos := by
  have regular := standing.regular.refill fill
  obtain ⟨r, taken, n, buf, rfl⟩ := (hmDmaFillNextBuf_ok standing.regular.whole fill).frame
  exact ⟨⟨{ regular with }, standing.stopped, standing.timer, standing.channel,
    standing.complete⟩, rfl⟩

theorem Standing.step (standing : psrd.Standing) (inert : !psrd.starts e)
    (action : HwStep psrd e t) : t.Standing ∧ (e.dma → t.pos = psrd.pos) := by
  obtain ⟨raised, action⟩ := action
  have regular := standing.regular.step action
  cases exec_effect action with
  | pulse =>
      rw [burst_idle standing.idle]
      exact ⟨standing, fun _ => rfl⟩
  | refill fill =>
      obtain ⟨standing', pos⟩ := standing.refill fill
      exact ⟨standing', fun _ => pos⟩
  | complete => exact absurd (standing.complete.symm.trans raised.1) Bool.false_ne_true
  | launch starts => simp [starts] at inert
  | smooth accepted tuned =>
      exact absurd (tuned.axisState.trans standing.stopped) (tuned.accepted accepted).1
  | sudden stops tuned =>
      have tcif : psrd.pdma.tcif = false := standing.complete
      refine ⟨stopSundden_standing (tuned.regular standing.regular) ?_, fun dma => ?_⟩
      · obtain ⟨_, _, _, _, _, _, rfl, -⟩ := tuned
        exact tcif
      · have command := command_of_suddenStops stops
        simp [dma] at command
  | place => exact ⟨⟨regular, standing.stopped, standing.timer, standing.channel,
      standing.complete⟩, nofun⟩
  | tune command _ tuned =>
      obtain ⟨_, _, _, _, _, _, rfl, -⟩ := tuned
      exact ⟨⟨regular, standing.stopped, standing.timer, standing.channel, standing.complete⟩,
        fun dma => by simp [dma] at command⟩

theorem dma_not_starts (dma : e.dma) : !psrd.starts e := by
  cases e <;> first | rfl | cases dma

theorem Standing.final (standing : s.Standing) : s.Final := by
  intro es t run
  have standing := run.invariant Standing standing fun _ _ _ standing action =>
    (standing.step action.1 action.2).1
  exact ⟨standing.timer, standing.channel, fun e u dma action =>
    (standing.step (dma_not_starts dma) action).2 dma⟩

end Standing

section Pending
variable {psrd s t : StepInfo} {e : Event}

theorem Final.step (final : s.Final) (action : RestStep s e t) : t.Final :=
  fun es _ run => final (e :: es) _ (.cons action run)

theorem movePos_ne (some_ : 0 < psrd.curBuf.units) (whole : psrd.curBuf.Whole) :
    psrd.movePos (psrd.curBuf.dmaBufLen / 3) ≠ psrd.pos := by
  intro same
  have room := whole.2
  rw [movePos_eq, units_toNat, Int32.add_eq_left] at same
  have zero := congrArg Int32.toInt same
  change (Int32.ofInt (psrd.heading * psrd.curBuf.units)).toInt = 0 at zero
  simp only [hmDmaBufSize] at room
  unfold heading at zero
  split at zero
  · rw [Int32.toInt_ofInt_of_le (by omega) (by omega)] at zero
    omega
  · rw [Int32.toInt_ofInt_of_le (by omega) (by omega)] at zero
    omega

theorem pending_not_final (whole : psrd.Whole) (some_ : 0 < psrd.curBuf.units)
    (ready : psrd.nextBuf.valid ≠ 0) (half : psrd.pdma.htif = false)
    (complete : psrd.pdma.tcif) : ¬ psrd.Final := by
  intro final
  have raised : psrd.Raised .transferComplete := ⟨complete, by simp [half]⟩
  obtain ⟨t, check⟩ : ∃ t, psrd.hmDmaCk = .ok t := by
    cases check : psrd.hmDmaCk with
    | ok t => exact ⟨t, rfl⟩
    | error failure => exact absurd (hmDmaCk_error check).2 ready
  have action : HwStep psrd .transferComplete { t with pdma.tcif := false } :=
    ⟨raised, by simp only [Fires, exec, serveComplete, check, bind, Except.bind]⟩
  rw [hmDmaCk_eq, if_neg ready] at check
  split at check
  · obtain rfl := Except.ok.inj check
    have off := (final.step ⟨rfl, action⟩ [] _ .nil).1
    cases off
  · obtain rfl := Except.ok.inj check
    have same := (final [] psrd .nil).2.2 _ _ rfl action
    exact movePos_ne some_ (whole _) same

theorem Coupled.not_final (coupled : s.Coupled) (running : s.axisState = .asRuning)
    (complete : s.pdma.tcif) (regular : t.Regular) (bufs : t.dmaBuf = s.dmaBuf)
    (idx : t.dmaBufIdx = s.dmaBufIdx) (half : t.pdma.htif = s.pdma.htif)
    (late : t.pdma.tcif = s.pdma.tcif)
    (returns : s.pdma.htif → ∃ u, t.exec .halfTransfer = .ok u) : ¬ t.Final := by
  obtain ⟨left, play⟩ := coupled.playing (running_iff.mpr running)
  have cur : t.curBuf = s.curBuf := by
    unfold curBuf
    simp only [bufs, idx]
  have next : t.nextBuf = s.nextBuf := by
    unfold nextBuf
    simp only [bufs, idx]
  obtain ⟨rfl, some_⟩ := play.complete complete
  cases served : s.pdma.htif with
  | false =>
      refine pending_not_final regular.whole (by rw [cur]; exact some_) ?_
        (half.trans served) (late.trans complete)
      rw [next]
      exact play.ready some_ (Nat.zero_le _) served
  | true =>
      obtain ⟨u, action⟩ := returns served
      have raised : t.Raised .halfTransfer := half.trans served
      intro final
      have final := final.step ⟨rfl, raised, action⟩
      obtain ⟨v, fill, rfl⟩ := Except.ok_of_map action
      have filled := hmDmaFillNextBuf_ok regular.whole fill
      obtain ⟨r, taken, n, buf, same⟩ := filled.frame
      have cur' : v.curBuf = s.curBuf := by
        rw [← cur, same]
        exact setBuf_get_ne _ _ _ (succ_idx_ne _)
      have late' : v.pdma.tcif = s.pdma.tcif := by
        rw [← late, same]
        rfl
      have some' : 0 < v.curBuf.units := by
        rw [cur']
        exact some_
      refine pending_not_final ?_ ?_ ?_ ?_ ?_ final
      · exact filled.whole
      · exact some'
      · exact filled.valid
      · rfl
      · exact late'.trans complete

/-- A sudden stop is final when no completion is pending. When one is, the stop is not, unless the
refill that is pending before it never returns. -/
theorem hmStepMotorStopSundden_final {idx : Fin hmMaxAxis} {es : List Event}
    (reach : Run HwStep (hmStepMotorInit idx) es s) (stops : s.suddenStops e)
    (stop : HwStep s e t) :
    (s.pdma.tcif = false → t.Final) ∧
    (Run QuietStep (hmStepMotorInit idx) es s → s.axisState = .asRuning →
      (s.pdma.htif → ∃ u, t.exec .halfTransfer = .ok u) → t.Final → s.pdma.tcif = false) := by
  have regular := reachable_regular (reach.mono fun _ _ _ action => action.2)
  have regular' := regular.step stop.2
  obtain ⟨s₀, tuned, rfl⟩ := (exec_effect stop.2).of_suddenStops stops
  have pdma : s₀.hmStepMotorStopSundden.pdma = (s₀.hmDmaSetup false).pdma := rfl
  rw [hmDmaSetup_false] at pdma
  refine ⟨fun complete => ?_, fun quiet running returns final => ?_⟩
  · refine (stopSundden_standing (tuned.regular regular) ?_).final
    obtain ⟨_, _, _, _, _, _, rfl, -⟩ := tuned
    exact complete
  · by_contra complete
    rw [Bool.not_eq_false] at complete
    refine (reachable_coupled quiet).not_final running complete regular' ?_ ?_ ?_ ?_ returns final
    · exact tuned.dmaBuf
    · obtain ⟨_, _, _, _, _, _, rfl, -⟩ := tuned
      rfl
    · rw [pdma]
      obtain ⟨_, _, _, _, _, _, rfl, -⟩ := tuned
      rfl
    · rw [pdma]
      obtain ⟨_, _, _, _, _, _, rfl, -⟩ := tuned
      rfl

theorem hmStepMotorStopSundden_final_free_run : ∃ s t,
    Run QuietStep (hmStepMotorInit 0) [.startFreeRun .clear 1000 1000, .burst, .burst] s ∧
    HwStep s .stopSundden t ∧ t.Final := by
  obtain ⟨s, reach, test⟩ := computes_quiet.run_any
    (show ([Event.startFreeRun .clear 1000 1000, .burst, .burst].foldlM playQuiet
        (hmStepMotorInit 0)).any (fun s => decide (s.pdma.tcif = false) &&
          (playHw s .stopSundden).any fun _ => true) by
      decide +kernel)
  obtain ⟨complete, stop⟩ := Bool.and_eq_true_iff.mp test
  obtain ⟨t, stop, -⟩ := computes_hw.step_any stop
  have reach' : Run HwStep (hmStepMotorInit 0) _ s := reach.mono fun _ _ _ action => action.2
  exact ⟨s, t, reach, stop,
    (hmStepMotorStopSundden_final reach' rfl stop).1 (of_decide_eq_true complete)⟩

/-- A free run is stopped when its first buffer has just been consumed: the handler of the pending
completion starts the timer and the channel again on an axis that is marked stopped. -/
theorem hmStepMotorStopSundden_restarts : ∃ s t u,
    Run QuietStep (hmStepMotorInit 0)
      ([.startFreeRun .clear 1000 1000] ++ fullBuffer.dropLast) s ∧
    s.axisState = .asRuning ∧ HwStep s .stopSundden t ∧ Run RestStep t [.transferComplete] u ∧
    u.axisState = .asStoped ∧ u.ptim.enabled ∧ u.pdma.enabled ∧ u.pos ≠ t.pos := by
  obtain ⟨s, reach, test⟩ := computes_quiet.run_any
    (show (([Event.startFreeRun .clear 1000 1000] ++ fullBuffer.dropLast).foldlM playQuiet
        (hmStepMotorInit 0)).any (fun s => decide (s.axisState = .asRuning) &&
          (playHw s .stopSundden).any fun t => ([Event.transferComplete].foldlM playRest t).any
            fun u => decide (u.axisState = .asStoped ∧ u.ptim.enabled ∧ u.pdma.enabled ∧
              u.pos ≠ t.pos)) by
      decide +kernel)
  obtain ⟨running, stop⟩ := Bool.and_eq_true_iff.mp test
  obtain ⟨t, stop, played⟩ := computes_hw.step_any stop
  obtain ⟨u, later, restarts⟩ := computes_rest.run_any played
  exact ⟨s, t, u, reach, of_decide_eq_true running, stop, later, of_decide_eq_true restarts⟩

end Pending

end StepInfo

end MotionBoard
