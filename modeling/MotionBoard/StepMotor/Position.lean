import Mathlib.Tactic.Ring
import MotionBoard.StepMotor.Hardware

namespace MotionBoard
open Transition TwoBuffer

namespace StepInfo

def tally (psrd : StepInfo) (e : Event) (units : Nat × Nat) : Nat × Nat :=
  if e = .burst && psrd.playing then
    if psrd.dir = .rdCW then (units.1 + 1, units.2) else (units.1, units.2 + 1)
  else units

structure Located (psrd : StepInfo) (p : Int) : Prop where
  coupled : psrd.Coupled
  standing : psrd.axisState = .asStoped → psrd.pos = Int32.ofInt p
  moving : ∀ left, psrd.running → psrd.Playing left →
    psrd.pos + Int32.ofInt (psrd.heading * (psrd.curBuf.units - left)) = Int32.ofInt p

section Located
variable {psrd t : StepInfo} {p : Int} {e : Event}

theorem Playing.unique {left left' : Nat} (play : psrd.Playing left) (play' : psrd.Playing left') :
    left = left' := by
  have count := play.count.symm.trans play'.count
  omega

theorem getCurPos_standing (stopped : psrd.axisState = .asStoped) :
    psrd.hmStepMotorGetCurPos = psrd.pos := by
  unfold hmStepMotorGetCurPos
  rw [if_pos]
  by_contra moving
  exact hmStepMotorState_ne.mp moving stopped

theorem getCurPos_moving {left : Nat} (regular : psrd.Regular) (running : psrd.running)
    (play : psrd.Playing left) : psrd.hmStepMotorGetCurPos =
      psrd.pos + Int32.ofInt (psrd.heading * (psrd.curBuf.units - left)) := by
  have going : psrd.hmStepMotorState ≠ .rsStop :=
    hmStepMotorState_ne.mpr fun stopped => not_running_of_stopped stopped running
  unfold hmStepMotorGetCurPos
  rw [if_neg going, movePos_eq, npassed_toNat (regular.whole _) play.count play.most,
    Int.natCast_sub play.most]

theorem Located.getCurPos (located : psrd.Located p) :
    psrd.hmStepMotorGetCurPos = Int32.ofInt p := by
  by_cases running : psrd.running
  · obtain ⟨left, play⟩ := located.coupled.playing running
    rw [getCurPos_moving located.coupled.regular running play]
    exact located.moving left running play
  · have stopped := located.coupled.regular.stopped_iff.mpr running
    rw [getCurPos_standing stopped]
    exact located.standing stopped

theorem Coupled.located (coupled : psrd.Coupled) :
    psrd.Located psrd.hmStepMotorGetCurPos.toInt := by
  refine ⟨coupled, fun stopped => ?_, fun left running play => ?_⟩
  · rw [getCurPos_standing stopped, Int32.ofInt_toInt]
  · rw [← getCurPos_moving coupled.regular running play, Int32.ofInt_toInt]

theorem Located.pulse (located : psrd.Located p) (moves : psrd.playing) :
    psrd.burst.Located (p + psrd.heading) := by
  have coupled := located.coupled.pulse
  have running := located.coupled.running_of_playing moves
  refine ⟨coupled, fun stopped => ?_, fun left _ play => ?_⟩
  · rw [coupled.regular.stopped_iff, burst_running] at stopped
    exact absurd running stopped
  · obtain ⟨before, play₀⟩ := located.coupled.playing running
    obtain ⟨before, rfl⟩ := Nat.exists_eq_succ_of_ne_zero (play₀.playing_iff.mp moves)
    obtain rfl := (play₀.pulse (located.coupled.regular.whole _)).unique play
    have at_ := located.moving _ running play₀
    obtain ⟨tim, -, same⟩ := burst_eq moves
    rw [same]
    change psrd.pos + Int32.ofInt (psrd.heading * (psrd.curBuf.units - before)) = _
    rw [Int32.ofInt_add, ← at_, Int32.add_assoc, ← Int32.ofInt_add]
    congr 2
    push_cast
    ring

theorem Located.refill (located : psrd.Located p) (raised : psrd.Raised .halfTransfer)
    (fill : psrd.hmDmaFillNextBuf = .ok t) : ({ t with pdma.htif := false }).Located p := by
  have coupled := located.coupled.refill raised fill
  obtain ⟨r, taken, n, buf, same⟩ :=
    (hmDmaFillNextBuf_ok located.coupled.regular.whole fill).frame
  have cur : t.curBuf = psrd.curBuf := by
    rw [same]
    exact setBuf_get_ne _ _ _ (succ_idx_ne _)
  have state : t.axisState = psrd.axisState := by rw [same]; rfl
  refine ⟨coupled, fun stopped => ?_, fun left running play => ?_⟩
  · have standing := located.standing (state.symm.trans stopped)
    rw [same]
    exact standing
  · have running' : psrd.running := by
      rw [running_iff, ← state]
      exact running_iff.mp running
    obtain ⟨before, play₀⟩ := located.coupled.playing running'
    obtain rfl := (play₀.refill located.coupled.regular fill).unique play
    have at_ := located.moving _ running' play₀
    rw [← cur] at at_
    subst same
    exact at_

theorem movePos_complete (located : psrd.Located p) (running : psrd.running)
    (play : psrd.Playing 0) : psrd.movePos (psrd.curBuf.dmaBufLen / 3) = Int32.ofInt p := by
  have at_ := located.moving 0 running play
  rw [movePos_eq, ← at_, units_toNat]
  simp [feed]

theorem Located.complete (located : psrd.Located p) (raised : psrd.Raised .transferComplete)
    (check : psrd.hmDmaCk = .ok t) : ({ t with pdma.tcif := false }).Located p := by
  have coupled := located.coupled.complete raised check
  obtain ⟨running, play, -, -⟩ := located.coupled.completion raised
  have pos := movePos_complete located running play
  have regular := located.coupled.regular
  rcases hmDmaCk_ok (regular.noWrap running) check with ⟨-, -, rfl⟩ | ⟨-, rfl⟩
  · refine ⟨coupled, fun _ => pos, fun left _ play' => ?_⟩
    have cur : psrd.switched.curBuf = psrd.nextBuf := psrd.completeBuf_nextBuf
    obtain rfl := (switched_playing regular.whole).unique play'
    change psrd.movePos _ + Int32.ofInt (psrd.heading * (psrd.switched.curBuf.units - _)) = _
    rw [pos, cur]
    simp
  · exact ⟨coupled, fun _ => pos, fun _ going => absurd going (not_running_of_stopped rfl)⟩

theorem Launched.located {request : UInt32} {home : Bool} (launched : Launched psrd request home t)
    (rest : psrd.Resting) (standing : psrd.pos = Int32.ofInt p) : t.Located p := by
  have pos : t.pos = psrd.pos := launched.prepared.pos
  have coupled := launched.coupled rest
  refine ⟨coupled, fun _ => pos.trans standing, fun left running play => ?_⟩
  have whole : left = t.curBuf.units := by
    have count := play.count
    have length := (launched.whole t.dmaBufIdx).1
    rw [launched.pdma, rest.channel] at count
    change t.curBuf.dmaBufLen.toNat = 3 * left at count
    change t.curBuf.dmaBufLen.toNat = 3 * t.curBuf.units at length
    omega
  rw [whole, pos, standing]
  simp

/-- A sudden stop puts into `pos` what was consumed of the current buffer; of a stopped axis that
is nothing, as the counter is set back first. -/
theorem Located.stopSundden (located : psrd.Located p) (half : psrd.pdma.htif = false)
    (complete : psrd.pdma.tcif = false) : psrd.hmStepMotorStopSundden.Located p := by
  have regular := located.coupled.regular
  have coupled : psrd.hmStepMotorStopSundden.Coupled :=
    ⟨regular.stopSundden, fun _ => stopSundden_resting half complete,
      fun going => absurd going (not_running_of_stopped rfl),
      fun going => absurd going (not_running_of_stopped rfl)⟩
  refine ⟨coupled, fun _ => ?_, fun _ going => absurd going (not_running_of_stopped rfl)⟩
  have pos : psrd.hmStepMotorStopSundden.pos = psrd.movePos (psrd.hmDmaSetup false).npassed := rfl
  have whole : (psrd.hmDmaSetup false).curBuf.Whole := by
    rw [hmDmaSetup_false]
    exact regular.whole _
  rw [pos, movePos_eq]
  by_cases running : psrd.running
  · obtain ⟨left, play⟩ := located.coupled.playing running
    have count : (psrd.hmDmaSetup false).pdma.cndtr.toNat = 3 * left := by
      rw [hmDmaSetup_false, play.channel]
      exact play.count
    have most : left ≤ (psrd.hmDmaSetup false).curBuf.units := by
      rw [hmDmaSetup_false]
      exact play.most
    rw [npassed_toNat whole count most, Int.natCast_sub most, hmDmaSetup_false]
    exact located.moving left running play
  · have stopped := regular.stopped_iff.mpr running
    have rest := located.coupled.resting stopped
    have count : (psrd.hmDmaSetup false).pdma.cndtr.toNat =
        3 * (psrd.hmDmaSetup false).curBuf.units := by
      rw [hmDmaSetup_false, rest.channel]
      exact (regular.whole _).1
    rw [npassed_toNat whole count (Nat.le_refl _), Nat.sub_self, located.standing stopped]
    simp

theorem Tuned.located (tuned : psrd.Tuned t) (located : psrd.Located p) : t.Located p := by
  have coupled := tuned.coupled located.coupled
  obtain ⟨_, _, _, _, _, _, rfl, keep⟩ := tuned
  refine ⟨coupled, located.standing, fun left running play => ?_⟩
  have dir := keep fun stopped => not_running_of_stopped stopped running
  have at_ := located.moving left running { play with }
  unfold heading at at_ ⊢
  rw [dir]
  exact at_

theorem Located.stopSmooth (located : psrd.Located p) (running : psrd.axisState ≠ .asStoped)
    (first : psrd.bstopping = false) : psrd.hmStepMotorStopSmooth.Located p := by
  have coupled := located.coupled.stopSmooth running first
  obtain ⟨_, _, _, _, _, _, _, same⟩ := psrd.stopSmooth_frame
  rw [same] at coupled ⊢
  exact ⟨coupled, fun stopped => absurd stopped running,
    fun left going play => located.moving left going { play with }⟩

def consumes (psrd : StepInfo) (e : Event) : Bool := e = .burst && psrd.playing

theorem not_consumes (command : !e.dma) : psrd.consumes e = false := by
  cases e <;> first | rfl | cases command

theorem Located.step (located : psrd.Located p) (action : QuietStep psrd e t)
    (keep : !e.places) :
    t.Located (p + if psrd.consumes e then psrd.heading else 0) := by
  obtain ⟨quiet, raised, action⟩ := action
  cases exec_effect action with
  | pulse =>
      by_cases moves : psrd.playing
      · rw [show psrd.consumes .burst from moves]
        exact located.pulse moves
      · rw [show psrd.consumes .burst = false from Bool.eq_false_iff.mpr moves, burst_idle moves]
        simpa using located
  | refill fill => simpa [consumes] using located.refill raised fill
  | complete check => simpa [consumes] using located.complete raised check
  | launch starts stopped tuned launched =>
      have rest := located.coupled.resting stopped
      have standing := located.standing stopped
      rw [not_consumes (command_of_starts starts)]
      obtain ⟨_, _, _, _, _, _, rfl, -⟩ := tuned
      simpa using launched.located { rest with } standing
  | smooth accepted tuned =>
      rw [not_consumes (command_of_smoothStops accepted)]
      have accepted := tuned.accepted accepted
      simpa using (tuned.located located).stopSmooth accepted.1 accepted.2
  | sudden stops tuned =>
      have flags := quiet stops
      rw [not_consumes (command_of_suddenStops stops)]
      have located := tuned.located located
      obtain ⟨_, _, _, _, _, _, rfl, -⟩ := tuned
      simpa using located.stopSundden flags.1 flags.2
  | place => cases keep
  | tune command _ tuned =>
      rw [not_consumes command]
      simpa using tuned.located located

theorem Effect.consumed (effect : Effect psrd e t) (regular : psrd.Regular) :
    t.pdma.consumed = psrd.pdma.consumed + (if psrd.consumes e then 1 else 0) ∧
      t.motor.shaft = psrd.motor.shaft +
        if psrd.consumes e then if psrd.motor.dirPin then 1 else -1 else 0 := by
  cases effect with
  | pulse =>
      by_cases moves : psrd.playing
      · obtain ⟨tim, -, same⟩ := burst_eq moves
        rw [show psrd.consumes .burst from moves, same]
        exact ⟨rfl, rfl⟩
      · rw [show psrd.consumes .burst = false from Bool.eq_false_iff.mpr moves, burst_idle moves]
        exact ⟨rfl, (Int.add_zero _).symm⟩
  | refill fill =>
      obtain ⟨r, taken, n, buf, rfl⟩ := (hmDmaFillNextBuf_ok regular.whole fill).frame
      exact ⟨rfl, (Int.add_zero _).symm⟩
  | complete check =>
      rw [hmDmaCk_eq] at check
      split at check
      · split at check
        · cases check
        · obtain rfl := Except.ok.inj check
          exact ⟨rfl, (Int.add_zero _).symm⟩
      · obtain rfl := Except.ok.inj check
        exact ⟨rfl, (Int.add_zero _).symm⟩
  | launch starts stopped tuned launched =>
      rw [not_consumes (command_of_starts starts), launched.pdma]
      have shaft : t.motor.shaft = _ := launched.prepared.shaft
      obtain ⟨_, _, _, _, _, _, rfl, -⟩ := tuned
      exact ⟨rfl, shaft.trans (Int.add_zero _).symm⟩
  | @smooth _ s₀ accepted tuned =>
      rw [not_consumes (command_of_smoothStops accepted)]
      obtain ⟨_, _, _, _, _, _, _, same⟩ := s₀.stopSmooth_frame
      rw [same]
      obtain ⟨_, _, _, _, _, _, rfl, -⟩ := tuned
      exact ⟨rfl, (Int.add_zero _).symm⟩
  | @sudden _ s₀ stops tuned =>
      rw [not_consumes (command_of_suddenStops stops)]
      obtain ⟨_, same⟩ := s₀.stopSundden_frame
      rw [same, hmDmaSetup_false]
      obtain ⟨_, _, _, _, _, _, rfl, -⟩ := tuned
      exact ⟨rfl, (Int.add_zero _).symm⟩
  | place => exact ⟨rfl, (Int.add_zero _).symm⟩
  | tune command _ tuned =>
      rw [not_consumes command]
      obtain ⟨_, _, _, _, _, _, rfl, -⟩ := tuned
      exact ⟨rfl, (Int.add_zero _).symm⟩

end Located

section Accounting
variable {s t : StepInfo}

/-- The steps of the position accounting: the position is not set, and the units are counted by the
direction of their motion. -/
abbrev TalliedStep : StepInfo × Nat × Nat → Event → StepInfo × Nat × Nat → Prop :=
  Watched (Guarded (fun _ e => !e.places) QuietStep) tally

def playTallied : StepInfo × Nat × Nat → Event → Option (StepInfo × Nat × Nat) :=
  playWatched tally (playGuarded (fun _ e => !e.places) playQuiet)

theorem computes_tallied : Computes playTallied TalliedStep :=
  (computes_quiet.guarded _).watched tally

theorem tally_step (psrd : StepInfo) (e : Event) (units : Nat × Nat) :
    ((psrd.tally e units).1 : Int) - (psrd.tally e units).2 =
      units.1 - units.2 + if psrd.consumes e then psrd.heading else 0 := by
  unfold tally consumes heading
  split
  · split
    · push_cast
      ring
    · push_cast
      ring
  · ring

theorem Coupled.running_of_consumes {psrd : StepInfo} {e : Event} (coupled : psrd.Coupled)
    (consumes : psrd.consumes e) : psrd.running := by
  unfold StepInfo.consumes at consumes
  exact coupled.running_of_playing (Bool.and_eq_true_iff.mp consumes).2

theorem Coupled.shaft_heading {psrd : StepInfo} {e : Event} (coupled : psrd.Coupled) :
    (if psrd.consumes e then if psrd.motor.dirPin then (1 : Int) else -1 else 0) =
      if psrd.consumes e then psrd.heading else 0 := by
  split
  · rename_i consumes
    rw [coupled.dirPin (coupled.running_of_consumes consumes)]
    simp [heading]
  · rfl

structure Accounted (s : StepInfo) (after : StepInfo × Nat × Nat) : Prop where
  located : after.1.Located (s.hmStepMotorGetCurPos.toInt + (after.2.1 - after.2.2))
  shaft : after.1.motor.shaft = s.motor.shaft + (after.2.1 - after.2.2)
  consumed : after.1.pdma.consumed = s.pdma.consumed + (after.2.1 + after.2.2)

theorem Accounted.step {a b : StepInfo × Nat × Nat} {e : Event} (inv : Accounted s a)
    (action : TalliedStep a e b) : Accounted s b := by
  obtain ⟨t, units⟩ := a
  obtain ⟨u, units'⟩ := b
  obtain ⟨⟨keep, action⟩, note⟩ := action
  dsimp only at note keep action
  subst note
  have sum := tally_step t e units
  have effect := exec_effect action.2.2
  obtain ⟨consumed, shaft⟩ := effect.consumed inv.located.coupled.regular
  rw [inv.located.coupled.shaft_heading] at shaft
  have located := inv.located.step action keep
  refine ⟨?_, ?_, ?_⟩
  · rw [sum, ← Int.add_assoc]
    exact located
  · rw [shaft, inv.shaft, sum, Int.add_assoc]
  · rw [consumed, inv.consumed]
    unfold tally StepInfo.consumes
    split <;> [split; skip] <;> dsimp only <;> omega

theorem position_accounting {idx : Fin hmMaxAxis} {es es' : List Event} {cw ccw : Nat}
    (before : Run QuietStep (hmStepMotorInit idx) es s)
    (run : Run TalliedStep (s, 0, 0) es' (t, cw, ccw)) :
    t.hmStepMotorGetCurPos = s.hmStepMotorGetCurPos + Int32.ofInt (cw - ccw) ∧
      t.motor.shaft = s.motor.shaft + (cw - ccw) ∧
      t.pdma.consumed = s.pdma.consumed + (cw + ccw) := by
  have start : Accounted s (s, 0, 0) :=
    ⟨by simpa using (reachable_coupled before).located, by simp, by simp⟩
  have after := run.invariant (Accounted s) start fun _ _ _ inv action => inv.step action
  refine ⟨?_, after.shaft, after.consumed⟩
  rw [after.located.getCurPos, Int32.ofInt_add, Int32.ofInt_toInt]

theorem position_accounting_moves : ∃ t cw ccw,
    Run TalliedStep (hmStepMotorInit 0, 0, 0)
      [.move .clear (-2) 1000 0 1000, .burst, .halfTransfer, .burst, .transferComplete,
        .move .clear 5 1000 0 1000, .burst, .burst, .stopSundden, .stopSundden] (t, cw, ccw) ∧
    t.hmStepMotorGetCurPos =
      (hmStepMotorInit 0).hmStepMotorGetCurPos + Int32.ofInt (cw - ccw) ∧
    t.motor.shaft = (hmStepMotorInit 0).motor.shaft + (cw - ccw) ∧
    t.pdma.consumed = (hmStepMotorInit 0).pdma.consumed + (cw + ccw) := by
  obtain ⟨⟨t, cw, ccw⟩, run⟩ := computes_tallied.run (hmStepMotorInit 0, 0, 0)
    [.move .clear (-2) 1000 0 1000, .burst, .halfTransfer, .burst, .transferComplete,
      .move .clear 5 1000 0 1000, .burst, .burst, .stopSundden, .stopSundden] (by decide +kernel)
  have before : Run QuietStep (hmStepMotorInit 0) [] (hmStepMotorInit 0) := .nil
  exact ⟨t, cw, ccw, run, position_accounting before run⟩

end Accounting

end StepInfo

end MotionBoard
