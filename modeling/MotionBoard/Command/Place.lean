import MotionBoard.Command.Firmware
import MotionBoard.Lib.Words
import MotionBoard.StepMotor.Hardware

namespace MotionBoard
open Transition

namespace StepInfo

/-- The axis is stopped, or the channel has consumed nothing of the current buffer. -/
def Unplayed (psrd : StepInfo) : Prop :=
  psrd.axisState = .asStoped ∨ psrd.pdma.cndtr = psrd.curBuf.dmaBufLen

instance (psrd : StepInfo) : Decidable psrd.Unplayed := by
  unfold Unplayed
  infer_instance

structure CountsUnits (psrd : StepInfo) : Prop where
  regular : psrd.Regular
  whole : 3 ∣ psrd.pdma.cndtr.toNat

section CountsUnits
variable {psrd t : StepInfo} {e : Event} {c : AxisCall}

theorem burst_countsUnits (whole : 3 ∣ psrd.pdma.cndtr.toNat) : 3 ∣ psrd.burst.pdma.cndtr.toNat := by
  by_cases moves : psrd.playing
  · obtain ⟨tim, -, same⟩ := burst_eq moves
    obtain ⟨left, count⟩ := whole
    have some_ : psrd.pdma.cndtr ≠ 0 := by
      simp only [playing, Bool.and_eq_true, decide_eq_true_eq] at moves
      exact moves.2
    have positive : left ≠ 0 := by
      rintro rfl
      exact some_ (UInt16.toNat_inj.mp count)
    obtain ⟨left, rfl⟩ := Nat.exists_eq_succ_of_ne_zero positive
    rw [same]
    exact ⟨left, cndtr_moveUnit count⟩
  · rw [burst_idle moves]
    exact whole

theorem stopped_countsUnits (counted : psrd.CountsUnits) :
    3 ∣ (if psrd.pdma.enabled then psrd.pdma.cndtr else psrd.curBuf.dmaBufLen).toNat := by
  split
  · exact counted.whole
  · exact (counted.regular.whole _).dvd.1

theorem CountsUnits.exec (counted : psrd.CountsUnits) (action : Step psrd e t) : t.CountsUnits := by
  refine ⟨counted.regular.step action, ?_⟩
  cases exec_effect action with
  | pulse => exact burst_countsUnits counted.whole
  | refill fill =>
      obtain ⟨_, _, _, _, rfl⟩ := (hmDmaFillNextBuf_ok counted.regular.whole fill).frame
      exact counted.whole
  | complete check =>
      rw [hmDmaCk_eq] at check
      split at check
      · split at check
        · cases check
        · cases check
          exact (counted.regular.whole (psrd.dmaBufIdx + 1)).dvd.1
      · cases check
        exact stopped_countsUnits counted
  | launch _ _ tuned launched =>
      obtain ⟨_, _, _, _, _, _, rfl, -⟩ := tuned
      rw [launched.pdma]
      dsimp only
      split
      · exact counted.whole
      · exact (launched.whole _).dvd.1
  | @smooth _ s₀ _ tuned =>
      obtain ⟨_, _, _, _, _, _, _, same⟩ := s₀.stopSmooth_frame
      rw [same]
      obtain ⟨_, _, _, _, _, _, rfl, -⟩ := tuned
      exact counted.whole
  | @sudden _ s₀ _ tuned =>
      obtain ⟨_, same⟩ := s₀.stopSundden_frame
      rw [same, hmDmaSetup_false]
      obtain ⟨_, _, _, _, _, _, rfl, -⟩ := tuned
      have kept := stopped_countsUnits counted
      exact kept
  | place => exact counted.whole
  | tune _ _ tuned =>
      obtain ⟨_, _, _, _, _, _, rfl, -⟩ := tuned
      exact counted.whole

theorem CountsUnits.call (counted : psrd.CountsUnits) (move : CallStep psrd c t) : t.CountsUnits := by
  cases c with
  | event e => exact counted.exec move
  | ledAct bon =>
      cases move
      exact ⟨{ counted.regular with }, counted.whole⟩

theorem countsUnits_init (idx : Fin hmMaxAxis) : (hmStepMotorInit idx).CountsUnits :=
  ⟨regular_init idx, (by decide : 3 ∣ 300)⟩

theorem npassed_eq_zero_iff (counted : psrd.CountsUnits) :
    psrd.npassed = 0 ↔ psrd.pdma.cndtr = psrd.curBuf.dmaBufLen := by
  obtain ⟨left, count⟩ := counted.whole
  obtain ⟨units, length⟩ := (counted.regular.whole psrd.dmaBufIdx).dvd.1
  have length : psrd.curBuf.dmaBufLen.toNat = 3 * units := length
  have small := psrd.curBuf.dmaBufLen.toNat_lt
  have small' := psrd.pdma.cndtr.toNat_lt
  have difference : (promote psrd.curBuf.dmaBufLen - promote psrd.pdma.cndtr).toInt =
      3 * ((units : Int) - left) := by
    rw [Int32.toInt_sub, promote_toInt, promote_toInt, length, count,
      Int.bmod_eq_of_le (by omega) (by omega)]
    omega
  have passed : (psrd.npassed.toNat : Int) = ((units : Int) - left) % 2 ^ 16 := by
    unfold npassed
    rw [Words.toNat_toUInt16, Int32.toInt_div_of_ne_right _ _ (by decide), difference,
      show (3 : Int32).toInt = 3 from rfl, Int.mul_tdiv_cancel_left _ (by decide)]
  rw [← UInt16.toNat_inj, ← UInt16.toNat_inj, UInt16.toNat_zero, count, length]
  omega

theorem movePos_eq_iff (p : Int32) (steps : UInt16) :
    { psrd with pos := p }.movePos steps = p ↔ steps = 0 := by
  rw [movePos_eq]
  constructor
  · intro same
    have zero := congrArg Int32.toInt (Int32.add_eq_left.mp same)
    have small := steps.toNat_lt
    rw [← UInt16.toNat_inj, UInt16.toNat_zero]
    unfold heading at zero
    split at zero
    · rw [Int32.toInt_ofInt_of_le (by omega) (by omega), Int32.toInt_zero] at zero
      omega
    · rw [Int32.toInt_ofInt_of_le (by omega) (by omega), Int32.toInt_zero] at zero
      omega
  · rintro rfl
    simp

theorem set_get_iff (counted : psrd.CountsUnits) (p : Int32) :
    (psrd.hmStepMotorSetCurPos p).hmStepMotorGetCurPos = p ↔ psrd.Unplayed := by
  unfold Unplayed hmStepMotorGetCurPos
  by_cases stopped : psrd.axisState = .asStoped
  · have state : (psrd.hmStepMotorSetCurPos p).hmStepMotorState = .rsStop :=
      state_eq_stop.mpr stopped
    rw [if_pos state]
    exact iff_of_true rfl (.inl stopped)
  · have state : (psrd.hmStepMotorSetCurPos p).hmStepMotorState ≠ .rsStop :=
      fun same => stopped (state_eq_stop.mp same)
    rw [if_neg state, or_iff_right stopped, ← npassed_eq_zero_iff counted]
    exact movePos_eq_iff p psrd.npassed

end CountsUnits

end StepInfo

namespace Board
variable {board : Board} {idx : Fin hmMaxAxis}

theorem toNat_axis (idx : Fin hmMaxAxis) : (UInt32.ofNat idx).toNat = idx :=
  UInt32.toNat_ofNat_of_lt' (Nat.lt_trans idx.isLt (by decide))

theorem hmStepMotorGetCurPos_eq :
    board.hmStepMotorGetCurPos (UInt32.ofNat idx) = board[idx].hmStepMotorGetCurPos := by
  have inside : (UInt32.ofNat idx).toNat < hmMaxAxis := lt_of_eq_of_lt (toNat_axis idx) idx.isLt
  unfold hmStepMotorGetCurPos
  rw [ask_inside inside]
  exact congrArg StepInfo.hmStepMotorGetCurPos (getElem_congr_idx (toNat_axis idx))

theorem hmStepMotorSetCurPos_get (newpos : Int32) :
    (board.hmStepMotorSetCurPos (UInt32.ofNat idx) newpos)[idx] =
      board[idx].hmStepMotorSetCurPos newpos := by
  unfold hmStepMotorSetCurPos
  rw [change_get, if_pos (toNat_axis idx)]

end Board

namespace StepInfo
variable {psrd : StepInfo}

theorem stopSmooth_unplayed_iff : psrd.hmStepMotorStopSmooth.Unplayed ↔ psrd.Unplayed := by
  obtain ⟨_, _, _, _, _, _, _, same⟩ := psrd.stopSmooth_frame
  rw [same]
  exact Iff.rfl

end StepInfo

section Place
variable {sys sys' : System} {events : List FirmwareEvent}

theorem firmware_countsUnits (run : Run FirmwareStep System.init events sys)
    (idx : Fin hmMaxAxis) : sys.sAxisInfo[idx].CountsUnits := by
  refine firmware_invariant run idx StepInfo.CountsUnits ?_ fun _ _ _ => StepInfo.CountsUnits.call
  rw [init_axis]
  exact StepInfo.countsUnits_init idx

theorem reset_get {inputs : Inputs} {preq answer : HmCmdReq}
    (named : HmCmds.ofCode preq.ncmd = some .hmResetBoard)
    (action : sys.hmCmdExcCk inputs preq = .ok (sys', answer)) (idx : Fin hmMaxAxis) :
    sys'.sAxisInfo[idx] = sys.sAxisInfo[idx].hmStepMotorStopSmooth.hmStepMotorSetCurPos 0 := by
  unfold System.hmCmdExcCk at action
  rw [named] at action
  have follows := System.resetBoard_follows action idx
  generalize sys'.sAxisInfo[idx] = t at follows ⊢
  cases follows with
  | cons smooth rest =>
      cases smooth
      cases rest with
      | cons place rest =>
          cases place
          cases rest
          rfl

/-- In a state that a run of the firmware leads to, the position that was set is the one that is
read, and the position of an axis after a reset is zero, exactly when nothing of the current buffer
of the axis has been consumed. -/
theorem position_set_iff (events : List FirmwareEvent) (sys : System)
    (run : Run FirmwareStep System.init events sys) (idx : Fin hmMaxAxis) :
    (∀ p, (sys.sAxisInfo.hmStepMotorSetCurPos (UInt32.ofNat idx) p).hmStepMotorGetCurPos
      (UInt32.ofNat idx) = p ↔ sys.sAxisInfo[idx].Unplayed) ∧
    ∀ inputs preq sys' answer, HmCmds.ofCode preq.ncmd = some .hmResetBoard →
      sys.hmCmdExcCk inputs preq = .ok (sys', answer) →
      (sys'.sAxisInfo.hmStepMotorGetCurPos (UInt32.ofNat idx) = 0 ↔
        sys.sAxisInfo[idx].Unplayed) := by
  have counted := firmware_countsUnits run idx
  constructor
  · intro p
    rw [Board.hmStepMotorGetCurPos_eq, Board.hmStepMotorSetCurPos_get]
    exact StepInfo.set_get_iff counted p
  · intro inputs preq sys' answer named action
    have stopped := counted.exec (e := .stopSmooth) rfl
    rw [Board.hmStepMotorGetCurPos_eq, reset_get named action, StepInfo.set_get_iff stopped]
    exact StepInfo.stopSmooth_unplayed_iff

def resetRequest : HmCmdReq :=
  ⟨Vector.replicate hmCmdMaxInputSize 0, 0, 11, 0, hmCmdMark1, hmCmdMark2, hmCmdOwerClient⟩

theorem position_set_at_rest :
    (System.init.sAxisInfo.hmStepMotorSetCurPos 2 5).hmStepMotorGetCurPos 2 = 5 ∧
      ∃ sys' answer, System.init.hmCmdExcCk .clear resetRequest = .ok (sys', answer) ∧
        sys'.sAxisInfo.hmStepMotorGetCurPos 2 = 0 := by
  obtain ⟨set, reset⟩ := position_set_iff [] System.init .nil 2
  exact ⟨(set 5).mpr (by decide), _, _, rfl,
    (reset .clear resetRequest _ _ rfl rfl).mpr (by decide)⟩

theorem position_set_under_way : ∃ events sys,
    Run FirmwareStep System.init events sys ∧ sys.sAxisInfo[(0 : Fin hmMaxAxis)].axisState = .asRuning ∧
      (sys.sAxisInfo.hmStepMotorSetCurPos 0 0).hmStepMotorGetCurPos 0 = 1 ∧
      ∃ sys' answer, sys.hmCmdExcCk .clear resetRequest = .ok (sys', answer) ∧
        sys'.sAxisInfo.hmStepMotorGetCurPos 0 = 1 := by
  have played : ([FirmwareEvent.axis 0 (.startFreeRun .clear 1000 1000), .axis 0 .burst].foldlM
      (playFires System.exec) System.init).any
      (fun sys => decide (sys.sAxisInfo[(0 : Fin hmMaxAxis)].axisState = .asRuning ∧
          (sys.sAxisInfo.hmStepMotorSetCurPos 0 0).hmStepMotorGetCurPos 0 = 1) &&
        (sys.hmCmdExcCk .clear resetRequest).toOption.any fun (pair : System × HmCmdReq) =>
          decide (pair.1.sAxisInfo.hmStepMotorGetCurPos 0 = 1)) := by
    decide +kernel
  obtain ⟨sys, run, test⟩ := computes_fires.run_any played
  obtain ⟨here, reset⟩ := Bool.and_eq_true_iff.mp test
  obtain ⟨moving, set⟩ := of_decide_eq_true here
  obtain ⟨⟨sys', answer⟩, action, after⟩ := ok_of_any reset
  exact ⟨_, sys, run, moving, set, sys', answer, action, of_decide_eq_true after⟩

end Place

end MotionBoard
