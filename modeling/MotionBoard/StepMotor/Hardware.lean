import MotionBoard.StepMotor.Ordered

namespace MotionBoard
open Transition TwoBuffer

namespace StepInfo

/-- A sudden stop comes only while no DMA interrupt is pending. -/
def Quiet (psrd : StepInfo) (e : Event) : Prop :=
  psrd.suddenStops e → psrd.pdma.htif = false ∧ psrd.pdma.tcif = false

instance (psrd : StepInfo) (e : Event) : Decidable (psrd.Quiet e) := by
  unfold Quiet
  infer_instance

abbrev QuietStep : StepInfo → Event → StepInfo → Prop := Guarded Quiet HwStep

def playQuiet : StepInfo → Event → Option StepInfo :=
  playGuarded Quiet (playGuarded Raised (playFires exec))

theorem computes_quiet : Computes playQuiet QuietStep :=
  (computes_fires.guarded Raised).guarded Quiet

structure Resting (psrd : StepInfo) : Prop where
  timer : psrd.ptim.enabled = false
  channel : psrd.pdma.enabled = false
  half : psrd.pdma.htif = false
  complete : psrd.pdma.tcif = false

structure Playing (psrd : StepInfo) (left : Nat) : Prop where
  timer : psrd.ptim.enabled = true
  channel : psrd.pdma.enabled = true
  armed : psrd.pdma.cmar = psrd.dmaBufIdx
  reload : psrd.pdma.reload = psrd.curBuf.dmaBufLen
  count : psrd.pdma.cndtr.toNat = 3 * left
  most : left ≤ psrd.curBuf.units
  complete : psrd.pdma.tcif → left = 0 ∧ 0 < psrd.curBuf.units
  ready : 0 < psrd.curBuf.units → 2 * left ≤ psrd.curBuf.units → psrd.pdma.htif = false →
    psrd.nextBuf.valid ≠ 0

structure Coupled (psrd : StepInfo) : Prop where
  regular : psrd.Regular
  resting : psrd.axisState = .asStoped → psrd.Resting
  playing : psrd.running → ∃ left, psrd.Playing left
  dirPin : psrd.running → psrd.motor.dirPin = decide (psrd.dir = .rdCW)

section Playing
variable {psrd t : StepInfo} {left : Nat}

theorem npassed_toNat (whole : psrd.curBuf.Whole) (count : psrd.pdma.cndtr.toNat = 3 * left)
    (most : left ≤ psrd.curBuf.units) : psrd.npassed.toNat = psrd.curBuf.units - left := by
  obtain ⟨length, room⟩ := whole
  simp only [hmDmaBufUnitSize, hmDmaBufSize] at length room
  have difference : (promote psrd.curBuf.dmaBufLen - promote psrd.pdma.cndtr).toInt =
      3 * (psrd.curBuf.units - left : Nat) := by
    rw [Int32.toInt_sub, promote_toInt, promote_toInt, length, count,
      Int.bmod_eq_of_le (by omega) (by omega)]
    omega
  have quotient : ((promote psrd.curBuf.dmaBufLen - promote psrd.pdma.cndtr) / 3).toInt =
      (psrd.curBuf.units - left : Nat) := by
    rw [Int32.toInt_div_of_ne_right _ _ (by decide), difference,
      show (3 : Int32).toInt = 3 from rfl, Int.mul_tdiv_cancel_left _ (by decide)]
  have signless := toInt_cases ((promote psrd.curBuf.dmaBufLen - promote psrd.pdma.cndtr) / 3)
  unfold npassed
  rw [UInt32.toNat_toUInt16]
  omega

theorem Playing.playing_iff (play : psrd.Playing left) : psrd.playing ↔ left ≠ 0 := by
  have empty : psrd.pdma.cndtr = 0 ↔ left = 0 := by
    rw [← UInt16.toNat_inj, play.count, UInt16.toNat_zero]
    omega
  simp [playing, play.timer, play.channel, empty]

theorem cndtr_moveUnit {pdma : DmaChannel} (count : pdma.cndtr.toNat = 3 * (left + 1)) :
    (pdma.cndtr - 3).toNat = 3 * left := by
  have three : (3 : UInt16) ≤ pdma.cndtr := by
    rw [UInt16.le_iff_toNat_le, count, show (3 : UInt16).toNat = 3 from rfl]
    omega
  rw [UInt16.toNat_sub_of_le _ _ three, count, show (3 : UInt16).toNat = 3 from rfl]
  omega

theorem burst_eq (moves : psrd.playing) : ∃ tim : Tim, tim.enabled = psrd.ptim.enabled ∧
    psrd.burst = { psrd with
      ptim := tim
      pdma := psrd.pdma.moveUnit
      motor.shaft := psrd.motor.shaft + if psrd.motor.dirPin then 1 else -1 } := by
  unfold burst
  rw [if_pos moves]
  refine ⟨_, ?_, rfl⟩
  rfl

theorem burst_idle (idle : ¬ psrd.playing) : psrd.burst = psrd := if_neg idle

theorem Playing.pulse (play : psrd.Playing (left + 1)) (whole : psrd.curBuf.Whole) :
    psrd.burst.Playing left := by
  obtain ⟨tim, timer, same⟩ := burst_eq (play.playing_iff.mpr (Nat.succ_ne_zero left))
  have count := cndtr_moveUnit play.count
  have length := whole.1
  simp only [hmDmaBufUnitSize] at length
  rw [same]
  refine ⟨timer.trans play.timer, play.channel, play.armed, play.reload, count,
    Nat.le_of_succ_le play.most,
    fun ended => ?_, fun some_ half pending => ?_⟩
  · change (psrd.pdma.tcif || decide (psrd.pdma.cndtr - 3 = 0)) = true at ended
    rw [Bool.or_eq_true, decide_eq_true_eq] at ended
    rcases ended with early | zero
    · exact absurd (play.complete early).1 (Nat.succ_ne_zero left)
    · rw [zero, UInt16.toNat_zero] at count
      exact ⟨by omega, Nat.lt_of_lt_of_le (Nat.succ_pos left) play.most⟩
  · change (psrd.pdma.htif || decide (2 * (psrd.pdma.cndtr - 3).toNat ≤ psrd.pdma.reload.toNat ∧
      psrd.pdma.reload.toNat < 2 * psrd.pdma.cndtr.toNat)) = false at pending
    rw [Bool.or_eq_false_iff, decide_eq_false_iff_not, count, play.reload, play.count,
      length] at pending
    change 2 * left ≤ psrd.curBuf.units at half
    exact play.ready some_ (by omega) pending.1

theorem Playing.refill (play : psrd.Playing left) (regular : psrd.Regular)
    (fill : psrd.hmDmaFillNextBuf = .ok t) : ({ t with pdma.htif := false }).Playing left := by
  have filled := hmDmaFillNextBuf_ok regular.whole fill
  obtain ⟨r, taken, n, buf, same⟩ := filled.frame
  have cur : t.curBuf = psrd.curBuf := by
    rw [same]
    exact setBuf_get_ne _ _ _ (succ_idx_ne _)
  have valid := filled.valid
  subst same
  refine ⟨play.timer, play.channel, play.armed, ?_, play.count, ?_, fun ended => ?_,
    fun _ _ _ => valid⟩
  · exact play.reload.trans (congrArg _ cur.symm)
  · exact Nat.le_trans play.most (Nat.le_of_eq (congrArg _ cur.symm))
  · have complete := play.complete ended
    exact ⟨complete.1, Nat.lt_of_lt_of_eq complete.2 (congrArg _ cur.symm)⟩

theorem switched_playing (whole : psrd.Whole) :
    ({ psrd.switched with pdma.tcif := false }).Playing psrd.nextBuf.units := by
  have cur : psrd.switched.curBuf = psrd.nextBuf := psrd.completeBuf_nextBuf
  refine ⟨rfl, rfl, rfl, congrArg DmaBufInfo.dmaBufLen cur.symm, (whole _).1, ?_,
    fun ended => ?_, fun some_ half _ => ?_⟩
  · exact Nat.le_of_eq (congrArg DmaBufInfo.units cur.symm)
  · cases ended
  · have := Nat.lt_of_lt_of_eq some_ (congrArg DmaBufInfo.units cur)
    have := Nat.le_trans half (Nat.le_of_eq (congrArg DmaBufInfo.units cur))
    omega

end Playing

section Coupled
variable {psrd t : StepInfo} {e : Event}

theorem Coupled.rests (coupled : psrd.Coupled) (stopped : ¬ psrd.running) : psrd.Resting :=
  coupled.resting (coupled.regular.stopped_iff.mpr stopped)

theorem Coupled.running_of_playing (coupled : psrd.Coupled) (moves : psrd.playing) :
    psrd.running := by
  by_contra stopped
  simp [StepInfo.playing, (coupled.rests stopped).timer] at moves

theorem Coupled.running_of_half (coupled : psrd.Coupled) (raised : psrd.Raised .halfTransfer) :
    psrd.running := by
  by_contra stopped
  exact Bool.false_ne_true ((coupled.rests stopped).half.symm.trans raised)

theorem Coupled.running_of_complete (coupled : psrd.Coupled)
    (raised : psrd.Raised .transferComplete) : psrd.running := by
  by_contra stopped
  exact Bool.false_ne_true ((coupled.rests stopped).complete.symm.trans raised.1)

theorem Coupled.pulse (coupled : psrd.Coupled) : psrd.burst.Coupled := by
  have regular := coupled.regular.burst
  by_cases moves : psrd.playing
  · have running := coupled.running_of_playing moves
    obtain ⟨left, play⟩ := coupled.playing running
    obtain ⟨left, rfl⟩ := Nat.exists_eq_succ_of_ne_zero (play.playing_iff.mp moves)
    refine ⟨regular, fun stopped => ?_, fun _ => ⟨left, play.pulse (coupled.regular.whole _)⟩,
      fun _ => ?_⟩
    · rw [regular.stopped_iff, burst_running] at stopped
      exact absurd running stopped
    · obtain ⟨tim, -, same⟩ := burst_eq moves
      rw [same]
      exact coupled.dirPin running
  · rw [burst_idle moves]
    exact coupled

theorem Coupled.refill (coupled : psrd.Coupled) (raised : psrd.Raised .halfTransfer)
    (fill : psrd.hmDmaFillNextBuf = .ok t) : ({ t with pdma.htif := false }).Coupled := by
  have running := coupled.running_of_half raised
  obtain ⟨left, play⟩ := coupled.playing running
  have regular := coupled.regular.refill fill
  obtain ⟨r, taken, n, buf, same⟩ := (hmDmaFillNextBuf_ok coupled.regular.whole fill).frame
  have state : t.axisState = psrd.axisState := by rw [same]; rfl
  refine ⟨{ regular with }, fun stopped => ?_, fun _ => ⟨left, play.refill coupled.regular fill⟩,
    fun _ => ?_⟩
  · exact absurd running (not_running_of_stopped (state.symm.trans stopped))
  · rw [same]
    exact coupled.dirPin running

theorem Coupled.completion (coupled : psrd.Coupled) (raised : psrd.Raised .transferComplete) :
    psrd.running ∧ psrd.Playing 0 ∧ 0 < psrd.curBuf.units ∧ psrd.nextBuf.valid ≠ 0 := by
  have running := coupled.running_of_complete raised
  obtain ⟨left, play⟩ := coupled.playing running
  obtain ⟨rfl, some_⟩ := play.complete raised.1
  have served : psrd.pdma.htif = false := by simpa using raised.2
  exact ⟨running, play, some_, play.ready some_ (Nat.zero_le _) served⟩

theorem Coupled.complete (coupled : psrd.Coupled) (raised : psrd.Raised .transferComplete)
    (check : psrd.hmDmaCk = .ok t) : ({ t with pdma.tcif := false }).Coupled := by
  obtain ⟨running, play, -, -⟩ := coupled.completion raised
  have regular := coupled.regular.complete check
  have served : psrd.pdma.htif = false := by simpa using raised.2
  rcases hmDmaCk_ok (coupled.regular.noWrap running) check with ⟨-, -, rfl⟩ | ⟨-, rfl⟩
  · refine ⟨{ regular with }, fun stopped => ?_,
      fun _ => ⟨_, switched_playing coupled.regular.whole⟩, coupled.dirPin⟩
    exact absurd running (not_running_of_stopped stopped)
  · exact ⟨{ regular with }, fun _ => ⟨rfl, rfl, served, rfl⟩,
      fun going => absurd going (not_running_of_stopped rfl),
      fun going => absurd going (not_running_of_stopped rfl)⟩

theorem Launched.coupled {request : UInt32} {home : Bool} {s₀ : StepInfo}
    (launched : Launched s₀ request home t) (rest : s₀.Resting) : t.Coupled := by
  refine ⟨launched.regular, fun stopped => ?_, fun _ => ⟨t.curBuf.units, ?_⟩,
    fun _ => launched.prepared.dirPin⟩
  · cases stopped.symm.trans launched.axisState
  · have pdma := launched.pdma
    rw [rest.channel] at pdma
    refine ⟨launched.timer, by rw [pdma], by rw [pdma], by rw [pdma]; rfl, ?_, Nat.le_refl _,
      fun ended => ?_, fun some_ half _ => by omega⟩
    · rw [pdma]
      exact (launched.whole t.dmaBufIdx).1
    · rw [pdma] at ended
      exact absurd (rest.complete.symm.trans ended) Bool.false_ne_true

theorem stopSundden_resting (half : psrd.pdma.htif = false) (complete : psrd.pdma.tcif = false) :
    psrd.hmStepMotorStopSundden.Resting := by
  obtain ⟨pos, same⟩ := psrd.stopSundden_frame
  rw [same, hmDmaSetup_false]
  exact ⟨rfl, rfl, half, complete⟩

theorem Tuned.coupled (tuned : psrd.Tuned t) (coupled : psrd.Coupled) : t.Coupled := by
  have regular := tuned.regular coupled.regular
  obtain ⟨_, _, _, _, _, _, rfl, keep⟩ := tuned
  refine ⟨regular, fun stopped => { coupled.resting stopped with }, fun running => ?_,
    fun running => ?_⟩
  · obtain ⟨left, play⟩ := coupled.playing running
    exact ⟨left, { play with }⟩
  · have dir := keep fun stopped => not_running_of_stopped stopped running
    rw [dir]
    exact coupled.dirPin running

theorem Coupled.stopSmooth (coupled : psrd.Coupled) (running : psrd.axisState ≠ .asStoped)
    (first : psrd.bstopping = false) : psrd.hmStepMotorStopSmooth.Coupled := by
  have regular := coupled.regular.stopSmooth running first
  obtain ⟨_, _, _, _, _, _, _, same⟩ := psrd.stopSmooth_frame
  rw [same] at regular ⊢
  refine ⟨regular, fun stopped => absurd stopped running, fun going => ?_, coupled.dirPin⟩
  obtain ⟨left, play⟩ := coupled.playing going
  exact ⟨left, { play with }⟩

theorem Coupled.step (coupled : psrd.Coupled) (action : QuietStep psrd e t) : t.Coupled := by
  obtain ⟨quiet, raised, action⟩ := action
  cases exec_effect action with
  | pulse => exact coupled.pulse
  | refill fill => exact coupled.refill raised fill
  | complete check => exact coupled.complete raised check
  | launch _ stopped tuned launched =>
      have rest := coupled.resting stopped
      obtain ⟨_, _, _, _, _, _, rfl, -⟩ := tuned
      exact launched.coupled { rest with }
  | smooth accepted tuned =>
      have accepted := tuned.accepted accepted
      exact (tuned.coupled coupled).stopSmooth accepted.1 accepted.2
  | sudden stops tuned =>
      have flags := quiet stops
      have regular := (tuned.regular coupled.regular).stopSundden
      obtain ⟨_, _, _, _, _, _, rfl, -⟩ := tuned
      exact ⟨regular, fun _ => stopSundden_resting flags.1 flags.2,
        fun going => absurd going (not_running_of_stopped rfl),
        fun going => absurd going (not_running_of_stopped rfl)⟩
  | place =>
      refine ⟨{ coupled.regular with }, fun stopped => { coupled.resting stopped with },
        fun running => ?_, coupled.dirPin⟩
      obtain ⟨left, play⟩ := coupled.playing running
      exact ⟨left, { play with }⟩
  | tune _ _ tuned => exact tuned.coupled coupled

theorem quietStep_of_starts (starts : psrd.starts e) (action : psrd.exec e = .ok t) :
    QuietStep psrd e t := by
  refine ⟨fun stops => ?_, ?_, action⟩
  · rw [starts_of_suddenStops stops] at starts
    cases starts
  · cases e <;> first | cases starts | trivial

theorem coupled_init (idx : Fin hmMaxAxis) : (hmStepMotorInit idx).Coupled :=
  ⟨regular_init idx, fun _ => ⟨rfl, rfl, rfl, rfl⟩,
    fun going => absurd going (not_running_of_stopped rfl),
    fun going => absurd going (not_running_of_stopped rfl)⟩

theorem reachable_coupled {idx : Fin hmMaxAxis} {es : List Event}
    (run : Run QuietStep (hmStepMotorInit idx) es t) : t.Coupled :=
  run.invariant Coupled (coupled_init idx) fun _ _ _ coupled action => coupled.step action

end Coupled

end StepInfo

end MotionBoard
