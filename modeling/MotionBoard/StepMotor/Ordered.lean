import MotionBoard.StepMotor.Regular

namespace MotionBoard
open Transition TwoBuffer

namespace StepInfo

def noteServed (psrd : StepInfo) (e : Event) (served : Bool) : Bool :=
  match e with
  | .halfTransfer => true
  | .transferComplete => false
  | _ => served && psrd.running

def InOrder (s : StepInfo × Bool) : Event → Prop
  | .halfTransfer => s.1.running
  | .transferComplete => s.1.running ∧ s.2
  | _ => True

instance (s : StepInfo × Bool) (e : Event) : Decidable (InOrder s e) :=
  decidable_of_iff ((e = .halfTransfer → s.1.running) ∧
      (e = .transferComplete → s.1.running ∧ s.2)) (by
    cases e <;> simp [InOrder])

abbrev OrderedStep : StepInfo × Bool → Event → StepInfo × Bool → Prop :=
  Guarded InOrder (Watched Step noteServed)

def playOrdered : StepInfo × Bool → Event → Option (StepInfo × Bool) :=
  playGuarded InOrder (playWatched noteServed (playFires exec))

theorem computes_ordered : Computes playOrdered OrderedStep :=
  (computes_fires.watched noteServed).guarded InOrder

structure Disciplined (s : StepInfo × Bool) : Prop where
  regular : s.1.Regular
  ready : s.1.running → s.2 → s.1.nextBuf.valid ≠ 0

section Disciplined
variable {psrd t : StepInfo} {served : Bool} {e : Event}

theorem burst_running : psrd.burst.running = psrd.running := by
  obtain ⟨tim, motor, pdma, same, -⟩ := psrd.burst_frame
  rw [same]
  rfl

theorem noteServed_command (command : !e.dma) :
    psrd.noteServed e served = (served && psrd.running) := by
  cases e <;> first | rfl | cases command

theorem Disciplined.step {s u : StepInfo × Bool} (inv : Disciplined s)
    (action : OrderedStep s e u) : Disciplined u := by
  obtain ⟨-, action, note⟩ := action
  obtain ⟨psrd, served⟩ := s
  obtain ⟨t, served'⟩ := u
  refine ⟨inv.regular.step action, fun running ready => ?_⟩
  have effect := exec_effect action
  dsimp only at note effect running ready ⊢
  subst note
  cases effect with
  | pulse =>
      obtain ⟨tim, motor, pdma, same, -⟩ := psrd.burst_frame
      simp only [noteServed, Bool.and_eq_true] at ready
      rw [same]
      exact inv.ready ready.2 ready.1
  | refill fill => exact (hmDmaFillNextBuf_ok inv.regular.whole fill).valid
  | complete check => cases ready
  | launch starts stopped =>
      rw [noteServed_command (command_of_starts starts), Bool.and_eq_true] at ready
      exact absurd ready.2 (not_running_of_stopped stopped)
  | smooth accepted tuned =>
      rw [noteServed_command (command_of_smoothStops accepted), Bool.and_eq_true] at ready
      rw [stopSmooth_nextBuf, tuned.nextBuf]
      exact inv.ready ready.2 ready.1
  | sudden => exact absurd running (not_running_of_stopped rfl)
  | place =>
      simp only [noteServed, Bool.and_eq_true] at ready
      exact inv.ready ready.2 ready.1
  | tune command _ tuned =>
      rw [noteServed_command command, Bool.and_eq_true] at ready
      rw [tuned.nextBuf]
      exact inv.ready ready.2 ready.1

theorem disciplined_init (idx : Fin hmMaxAxis) : Disciplined (hmStepMotorInit idx, false) :=
  ⟨regular_init idx, fun _ served => by cases served⟩

theorem reachable_disciplined {idx : Fin hmMaxAxis} {es : List Event}
    (run : Run OrderedStep (hmStepMotorInit idx, false) es (t, served)) :
    Disciplined (t, served) :=
  run.invariant Disciplined (disciplined_init idx) fun _ _ _ inv action => inv.step action

/-- An event fails in a regular state only through the check of the delay, or of the next buffer. -/
theorem Regular.failure {failure : Halt} (regular : psrd.Regular)
    (action : psrd.exec e = .error failure) :
    failure = .badDelay ∨ failure = .nextInvalid ∧ e = .transferComplete := by
  cases e with
  | halfTransfer =>
      obtain fill | ⟨_, -, done⟩ := Except.error_of_bind action
      · exact .inl ((hmDmaFillNextBuf_error fill).2 regular.phase)
      · cases done
  | transferComplete =>
      obtain check | ⟨_, -, done⟩ := Except.error_of_bind action
      · exact .inr ⟨(hmDmaCk_error check).1, rfl⟩
      · cases done
  | move io step accel decel speed => exact .inl (hmStepMotorMove_error (map_snd_error action))
  | startHoming io accel speed => exact .inl (hmStepMotorStartRun_error (map_snd_error action))
  | startFreeRun io accel speed => exact .inl (hmStepMotorStartRun_error (map_snd_error action))
  | startRun io accel speed => exact .inl (hmStepMotorStartRun_error (map_snd_error action))
  | _ => cases action

theorem Disciplined.completes (inv : Disciplined (psrd, served))
    (order : InOrder (psrd, served) .transferComplete) :
    ∃ u, psrd.hmDmaCk = .ok u := by
  cases check : psrd.hmDmaCk with
  | ok u => exact ⟨u, rfl⟩
  | error failure => exact absurd (hmDmaCk_error check).2 (inv.ready order.1 order.2)

theorem Disciplined.failure {failure : Halt} (inv : Disciplined (psrd, served))
    (order : InOrder (psrd, served) e) (action : psrd.exec e = .error failure) :
    failure = .badDelay := by
  obtain badDelay | ⟨-, rfl⟩ := inv.regular.failure action
  · exact badDelay
  · obtain ⟨u, check⟩ := inv.completes order
    simp only [exec, serveComplete, check, bind, Except.bind, reduceCtorEq] at action

theorem Regular.armed_kept (regular : psrd.Regular) (running : psrd.running)
    (action : psrd.exec e = .ok t) :
    t.dmaBuf[psrd.pdma.cmar].dmaBuf = psrd.dmaBuf[psrd.pdma.cmar].dmaBuf ∧
      t.dmaBuf[psrd.pdma.cmar].dmaBufLen = psrd.dmaBuf[psrd.pdma.cmar].dmaBufLen := by
  have armed := regular.armed running
  cases exec_effect action with
  | pulse =>
      obtain ⟨tim, motor, pdma, same, -⟩ := psrd.burst_frame
      rw [same]
      exact ⟨rfl, rfl⟩
  | refill fill =>
      obtain ⟨r, taken, n, buf, rfl⟩ := (hmDmaFillNextBuf_ok regular.whole fill).frame
      have other : (({ psrd.withRamp r with stepsTaken := taken, dmaFill := n }.setBuf
          (psrd.dmaBufIdx + 1) buf).dmaBuf[psrd.pdma.cmar]) = psrd.dmaBuf[psrd.pdma.cmar] :=
        setBuf_get_ne _ _ _ (by rw [armed]; exact succ_idx_ne _)
      exact ⟨congrArg _ other, congrArg _ other⟩
  | complete check =>
      have cur : (psrd.dmaBuf.set psrd.dmaBufIdx { psrd.curBuf with valid := 0 })[psrd.pdma.cmar] =
          { psrd.dmaBuf[psrd.pdma.cmar] with valid := 0 } := by
        simp [armed, curBuf]
      have kept := And.intro (congrArg DmaBufInfo.dmaBuf cur) (congrArg DmaBufInfo.dmaBufLen cur)
      rcases hmDmaCk_ok (regular.noWrap running) check with ⟨-, -, rfl⟩ | ⟨-, rfl⟩
      · exact kept
      · exact kept
  | launch _ stopped => exact absurd running (not_running_of_stopped stopped)
  | smooth _ tuned =>
      rw [stopSmooth_dmaBuf, tuned.dmaBuf]
      exact ⟨rfl, rfl⟩
  | sudden _ tuned =>
      obtain ⟨_, _, _, _, _, _, rfl, -⟩ := tuned
      exact ⟨rfl, rfl⟩
  | place => exact ⟨rfl, rfl⟩
  | tune _ _ tuned =>
      obtain ⟨_, _, _, _, _, _, rfl, -⟩ := tuned
      exact ⟨rfl, rfl⟩

structure DoubleBuffered (t : StepInfo) (served : Bool) : Prop where
  lengths : ∀ i : Fin hmDmaBufBlockSz,
    3 ∣ t.dmaBuf[i].dmaBufLen.toNat ∧ t.dmaBuf[i].dmaBufLen.toNat ≤ 300
  /-- the buffer that a refill hands to `hm_dma_update` is not the armed one -/
  apart : t.axisState = .asRuning → t.dmaBufIdx + 1 ≠ t.pdma.cmar
  kept : t.axisState = .asRuning → ∀ e u, t.exec e = .ok u →
    u.dmaBuf[t.pdma.cmar].dmaBuf = t.dmaBuf[t.pdma.cmar].dmaBuf ∧
      u.dmaBuf[t.pdma.cmar].dmaBufLen = t.dmaBuf[t.pdma.cmar].dmaBufLen
  goesOn : InOrder (t, served) .transferComplete → ∃ u, t.exec .transferComplete = .ok u
  halts : ∀ e failure, InOrder (t, served) e → t.exec e = .error failure → failure = .badDelay

theorem double_buffer_discipline {idx : Fin hmMaxAxis} {es : List Event}
    (run : Run OrderedStep (hmStepMotorInit idx, false) es (t, served)) :
    DoubleBuffered t served := by
  have inv := reachable_disciplined run
  refine ⟨fun i => (inv.regular.whole i).dvd, fun running => ?_, fun running e u action => ?_,
    fun order => ?_, fun e failure order action => inv.failure order action⟩
  · rw [inv.regular.armed (running_iff.mpr running)]
    exact succ_idx_ne _
  · exact inv.regular.armed_kept (running_iff.mpr running) action
  · obtain ⟨u, check⟩ := inv.completes order
    exact ⟨{ u with pdma.tcif := false }, by
      simp only [exec, serveComplete, check, bind, Except.bind]⟩

theorem double_buffer_discipline_free_run : ∃ t served,
    Run OrderedStep (hmStepMotorInit 0, false)
      [.startFreeRun .clear 1000 1000, .burst, .halfTransfer, .transferComplete, .stopSmooth,
        .halfTransfer] (t, served) ∧
    DoubleBuffered t served := by
  obtain ⟨⟨t, served⟩, run⟩ := computes_ordered.run (hmStepMotorInit 0, false)
    [.startFreeRun .clear 1000 1000, .burst, .halfTransfer, .transferComplete, .stopSmooth,
      .halfTransfer] (by decide +kernel)
  exact ⟨t, served, run, double_buffer_discipline run⟩

end Disciplined

end StepInfo

end MotionBoard
