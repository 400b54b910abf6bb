import MotionBoard.Command.Execute

namespace MotionBoard

@[ext]
structure AxisSetting where
  bHomeTriger : UInt32
  bStopModeCW : UInt32
  bStopModeCCW : UInt32
  bStopModeHome : UInt32
  tcurve : Bool
  deriving DecidableEq, Repr

def HmCmdGetAxisSetting.setting (pin : HmCmdGetAxisSetting) : AxisSetting :=
  { bHomeTriger := pin.bHomeTriger
    bStopModeCW := pin.bStopModeCW
    bStopModeCCW := pin.bStopModeCCW
    bStopModeHome := pin.bStopModeHome
    tcurve := pin.tcurve ≠ 0 }

namespace StepInfo

def setting (psrd : StepInfo) : AxisSetting :=
  { bHomeTriger := psrd.bhomeStopLowTriger
    bStopModeCW := psrd.motorHwConfig.bStopImmediatelyCW
    bStopModeCCW := psrd.motorHwConfig.bStopImmediatelyCCW
    bStopModeHome := psrd.motorHwConfig.bStopImmediatelyHome
    tcurve := psrd.method = .tCurve }

def withSetting (psrd : StepInfo) (s : AxisSetting) : StepInfo :=
  { psrd with
    bhomeStopLowTriger := s.bHomeTriger
    motorHwConfig.bStopImmediatelyCW := s.bStopModeCW
    motorHwConfig.bStopImmediatelyCCW := s.bStopModeCCW
    motorHwConfig.bStopImmediatelyHome := s.bStopModeHome
    method := if s.tcurve then .tCurve else .sCurve }

section Setting
variable (psrd : StepInfo) (s : AxisSetting)

@[simp] theorem setting_withSetting : (psrd.withSetting s).setting = s := by
  obtain ⟨home, cw, ccw, mode, tcurve⟩ := s
  cases tcurve <;> rfl

theorem withSetting_setting : psrd.withSetting psrd.setting = psrd := by
  have curve : (if psrd.setting.tcurve then Method.tCurve else .sCurve) = psrd.method := by
    unfold setting
    cases psrd.method <;> rfl
  unfold withSetting
  rw [curve]
  rfl

theorem withSetting_hmMotorSetStopMode (bsudCW bsudCCW bsudHome bTcurve : UInt32) :
    (psrd.withSetting s).hmMotorSetStopMode bsudCW bsudCCW bsudHome bTcurve =
      psrd.withSetting ⟨s.bHomeTriger, bsudCW, bsudCCW, bsudHome, bTcurve ≠ 0⟩ := by
  unfold hmMotorSetStopMode withSetting
  simp

end Setting

end StepInfo

namespace AxisSetting

def merge (old : AxisSetting) (pin : HmCmdGetAxisSetting) : AxisSetting :=
  { bHomeTriger := if pin.flag &&& 0x01 ≠ 0 then pin.bHomeTriger else old.bHomeTriger
    bStopModeCW := if pin.flag &&& 0x02 ≠ 0 then pin.bStopModeCW else old.bStopModeCW
    bStopModeCCW := if pin.flag &&& 0x04 ≠ 0 then pin.bStopModeCCW else old.bStopModeCCW
    bStopModeHome := if pin.flag &&& 0x08 ≠ 0 then pin.bStopModeHome else old.bStopModeHome
    tcurve := if pin.flag &&& 0x10 ≠ 0 then pin.tcurve ≠ 0 else old.tcurve }

def overwrite (old : AxisSetting) (pin : HmCmdGetAxisSetting) : AxisSetting :=
  let s := if pin.flag &&& 0x01 ≠ 0 then { old with bHomeTriger := pin.bHomeTriger } else old
  let s :=
    if pin.flag &&& 0x02 ≠ 0 then
      ⟨s.bHomeTriger, pin.bStopModeCW, old.bStopModeCCW, old.bStopModeHome, old.tcurve⟩
    else s
  let s :=
    if pin.flag &&& 0x04 ≠ 0 then
      ⟨s.bHomeTriger, old.bStopModeCCW, pin.bStopModeCCW, old.bStopModeHome, old.tcurve⟩
    else s
  let s :=
    if pin.flag &&& 0x08 ≠ 0 then
      ⟨s.bHomeTriger, old.bStopModeCCW, old.bStopModeCCW, pin.bStopModeHome, old.tcurve⟩
    else s
  if pin.flag &&& 0x10 ≠ 0 then
    ⟨s.bHomeTriger, old.bStopModeCCW, old.bStopModeCCW, old.bStopModeHome, pin.tcurve ≠ 0⟩
  else s

/-- The counterclockwise mode that three of the writes put in the place of the clockwise one, and
two in its own place without the request's, is the wanted one; so is the old home mode that the
write of the curve passes. -/
def Agrees (old : AxisSetting) (pin : HmCmdGetAxisSetting) : Prop :=
  (pin.flag &&& 0x1c ≠ 0 → old.bStopModeCCW = (old.merge pin).bStopModeCW) ∧
  (pin.flag &&& 0x18 ≠ 0 → old.bStopModeCCW = (old.merge pin).bStopModeCCW) ∧
  (pin.flag &&& 0x10 ≠ 0 → old.bStopModeHome = (old.merge pin).bStopModeHome)

theorem flags_split (flag : UInt8) :
    (flag &&& 0x1c ≠ 0 ↔ flag &&& 0x04 ≠ 0 ∨ flag &&& 0x08 ≠ 0 ∨ flag &&& 0x10 ≠ 0) ∧
      (flag &&& 0x18 ≠ 0 ↔ flag &&& 0x08 ≠ 0 ∨ flag &&& 0x10 ≠ 0) := by
  revert flag
  exact Bytes.forall_byte (by decide +kernel)

instance (old : AxisSetting) (pin : HmCmdGetAxisSetting) : Decidable (old.Agrees pin) :=
  inferInstanceAs (Decidable (_ ∧ _ ∧ _))

theorem overwrite_bHomeTriger (old : AxisSetting) (pin : HmCmdGetAxisSetting) :
    (old.overwrite pin).bHomeTriger = (old.merge pin).bHomeTriger := by
  unfold overwrite merge
  dsimp only
  split_ifs <;> rfl

theorem overwrite_eq_merge_iff (old : AxisSetting) (pin : HmCmdGetAxisSetting) :
    old.overwrite pin = old.merge pin ↔ old.Agrees pin := by
  unfold Agrees
  rw [AxisSetting.ext_iff, (flags_split pin.flag).1, (flags_split pin.flag).2]
  simp only [overwrite_bHomeTriger, true_and]
  unfold overwrite merge
  by_cases curve : pin.flag &&& 0x10 ≠ 0
  · simp [curve]
  · by_cases home : pin.flag &&& 0x08 ≠ 0
    · simp [curve, home]
    · by_cases ccw : pin.flag &&& 0x04 ≠ 0
      · simp [curve, home, ccw]
      · by_cases cw : pin.flag &&& 0x02 ≠ 0
        · simp [curve, home, ccw, cw]
        · simp only [curve, home, ccw, cw, if_false, or_self, false_implies, and_true, iff_true]
          split
          · exact ⟨rfl, rfl, rfl, rfl⟩
          · exact ⟨rfl, rfl, rfl, rfl⟩

end AxisSetting

namespace Board
variable {board changed : Board} {axis : UInt32} {flagged : Prop} [Decidable flagged]
  {s : AxisSetting}

theorem if_setHomeStopMode (inside : axis.toNat < hmMaxAxis)
    (same : changed = board.change axis fun psrd => psrd.withSetting s) (blowtriger : UInt32) :
    (if flagged then changed.hmStepMotorSetHomeStopMode axis blowtriger else changed) =
      board.change axis fun psrd =>
        psrd.withSetting (if flagged then { s with bHomeTriger := blowtriger } else s) := by
  subst same
  split
  · exact change_change inside _ _
  · rfl

theorem if_setStopMode (inside : axis.toNat < hmMaxAxis)
    (same : changed = board.change axis fun psrd => psrd.withSetting s)
    (bsudCW bsudCCW bsudHome bTcurve : UInt32) :
    (if flagged then changed.hmMotorSetStopMode axis bsudCW bsudCCW bsudHome bTcurve
      else changed) =
      board.change axis fun psrd =>
        psrd.withSetting
          (if flagged then ⟨s.bHomeTriger, bsudCW, bsudCCW, bsudHome, bTcurve ≠ 0⟩ else s) := by
  subst same
  split
  · unfold hmMotorSetStopMode
    rw [change_change inside]
    simp only [StepInfo.withSetting_hmMotorSetStopMode]
  · rfl

end Board

namespace System
variable {sys : System} {pin : HmCmdGetAxisSetting} {inputs : Inputs} {preq : HmCmdReq}

theorem writeSetting_eq (inside : pin.axis.toNat < hmMaxAxis) :
    sys.writeSetting pin = sys.sAxisInfo.change pin.axis fun psrd =>
      psrd.withSetting (sys.sAxisInfo[pin.axis.toNat].setting.overwrite pin) := by
  have start : sys.sAxisInfo = sys.sAxisInfo.change pin.axis fun psrd =>
      psrd.withSetting sys.sAxisInfo[pin.axis.toNat].setting := by
    rw [Board.change_inside inside, StepInfo.withSetting_setting, Vector.set_getElem_self]
  have oldCurve (psrd : StepInfo) :
      decide (psrd.hmMotorGetStopMode.bTcurve.toUInt32 ≠ 0) = psrd.setting.tcurve := by
    unfold StepInfo.hmMotorGetStopMode StepInfo.setting
    cases psrd.method <;> rfl
  have zero : pin.tcurve.toUInt32 = (0 : UInt8).toUInt32 ↔ pin.tcurve = 0 := UInt8.toUInt32_inj
  have newCurve : decide (pin.tcurve.toUInt32 ≠ 0) = decide (pin.tcurve ≠ 0) :=
    decide_eq_decide.mpr (not_congr zero)
  unfold writeSetting Board.hmMotorGetStopMode
  refine (Board.if_setStopMode inside (Board.if_setStopMode inside (Board.if_setStopMode inside
    (Board.if_setStopMode inside (Board.if_setHomeStopMode inside start _) _ _ _ _) _ _ _ _)
    _ _ _ _) _ _ _ _).trans ?_
  rw [Board.ask_inside inside, oldCurve, newCurve]
  rfl

theorem readSetting_setting (inside : pin.axis.toNat < hmMaxAxis)
    (homeTriger : pin.flag &&& 0x01 ≠ 0) :
    (sys.readSetting pin).setting = sys.sAxisInfo[pin.axis.toNat].setting := by
  unfold readSetting Board.hmStepMotorGetHomeStopMode Board.hmMotorGetStopMode
  rw [if_pos homeTriger]
  dsimp only
  rw [Board.ask_inside inside, Board.ask_inside inside]
  unfold HmCmdGetAxisSetting.setting StepInfo.setting StepInfo.hmMotorGetStopMode
  cases sys.sAxisInfo[pin.axis.toNat].method <;> rfl

end System

structure SettingRequest (preq : HmCmdReq) (axis : UInt32) : Prop where
  named : HmCmds.ofCode preq.ncmd = some .hmCmdGetAxisSetting
  right : preq.inputLen = 24
  axis : (HmCmdGetAxisSetting.ofInput preq.input).axis = axis

def Merges (sys : System) (inputs : Inputs) (preq : HmCmdReq) (axis : Fin hmMaxAxis) : Prop :=
  let merged := sys.sAxisInfo[axis].setting.merge (HmCmdGetAxisSetting.ofInput preq.input)
  ∃ sys' answer, sys.hmCmdExcCk inputs preq = .ok (sys', answer) ∧
    sys'.sAxisInfo[axis].setting = merged ∧
    ∀ inputs' preq', SettingRequest preq' (UInt32.ofNat axis) →
      (HmCmdGetAxisSetting.ofInput preq'.input).bget ≠ 0 →
      (HmCmdGetAxisSetting.ofInput preq'.input).flag &&& 0x1f = 0x1f →
      ∃ answer', sys'.hmCmdExcCk inputs' preq' = .ok (sys', answer') ∧
        (HmCmdGetAxisSetting.ofInput answer'.input).setting = merged

section Merges
variable {sys : System} {inputs : Inputs} {preq : HmCmdReq} {axis : UInt32}

theorem SettingRequest.exec (request : SettingRequest preq axis) :
    sys.hmCmdExcCk inputs preq =
      if (HmCmdGetAxisSetting.ofInput preq.input).bget ≠ 0 then
        .ok (sys, { preq.answer true with
          input := (sys.readSetting (HmCmdGetAxisSetting.ofInput preq.input)).store preq.input })
      else .ok (sys.withAxes (sys.writeSetting (HmCmdGetAxisSetting.ofInput preq.input)),
        preq.answer true) := by
  unfold System.hmCmdExcCk
  rw [request.named]
  exact System.sized_eq request.right

theorem SettingRequest.get {axis : Fin hmMaxAxis} (request : SettingRequest preq (UInt32.ofNat axis))
    (board : Board) :
    ∃ inside : (HmCmdGetAxisSetting.ofInput preq.input).axis.toNat < hmMaxAxis,
      board[(HmCmdGetAxisSetting.ofInput preq.input).axis.toNat] = board[axis] := by
  have small : (axis : Nat) < UInt32.size := Nat.lt_trans axis.isLt (by decide)
  have named : (HmCmdGetAxisSetting.ofInput preq.input).axis.toNat = axis := by
    rw [request.axis, UInt32.toNat_ofNat_of_lt' small]
  exact ⟨named ▸ axis.isLt, getElem_congr_idx named⟩

theorem homeTriger_of_all (flag : UInt8) : flag &&& 0x1f = 0x1f → flag &&& 0x01 ≠ 0 := by
  revert flag
  exact Bytes.forall_byte (by decide +kernel)

theorem SettingRequest.reads {axis : Fin hmMaxAxis}
    (request : SettingRequest preq (UInt32.ofNat axis))
    (get : (HmCmdGetAxisSetting.ofInput preq.input).bget ≠ 0)
    (all : (HmCmdGetAxisSetting.ofInput preq.input).flag &&& 0x1f = 0x1f) :
    ∃ answer, sys.hmCmdExcCk inputs preq = .ok (sys, answer) ∧
      (HmCmdGetAxisSetting.ofInput answer.input).setting = sys.sAxisInfo[axis].setting := by
  obtain ⟨inside, found⟩ := request.get sys.sAxisInfo
  refine ⟨_, request.exec.trans (if_pos get), ?_⟩
  rw [HmCmdGetAxisSetting.ofInput_store, ← found]
  exact System.readSetting_setting inside (homeTriger_of_all _ all)

theorem SettingRequest.writes {axis : Fin hmMaxAxis}
    (request : SettingRequest preq (UInt32.ofNat axis))
    (set : (HmCmdGetAxisSetting.ofInput preq.input).bget = 0) (sys : System) (inputs : Inputs) :
    ∃ sys', sys.hmCmdExcCk inputs preq = .ok (sys', preq.answer true) ∧
      sys'.sAxisInfo[axis].setting = sys.sAxisInfo[axis].setting.overwrite
        (HmCmdGetAxisSetting.ofInput preq.input) := by
  obtain ⟨inside, before⟩ := request.get sys.sAxisInfo
  obtain ⟨_, after⟩ := request.get (sys.writeSetting (HmCmdGetAxisSetting.ofInput preq.input))
  refine ⟨_, request.exec.trans (if_neg (not_not.mpr set)), ?_⟩
  change (sys.writeSetting (HmCmdGetAxisSetting.ofInput preq.input))[axis].setting = _
  rw [← after, ← before]
  simp only [System.writeSetting_eq inside, Board.change_inside inside, Vector.getElem_set_self,
    StepInfo.setting_withSetting]

/-- A write of settings merges them exactly when the old ones agree with what is passed for them. -/
theorem setting_merged_iff (sys : System) (inputs : Inputs) (preq : HmCmdReq)
    (axis : Fin hmMaxAxis) (request : SettingRequest preq (UInt32.ofNat axis))
    (set : (HmCmdGetAxisSetting.ofInput preq.input).bget = 0) :
    Merges sys inputs preq axis ↔
      sys.sAxisInfo[axis].setting.Agrees (HmCmdGetAxisSetting.ofInput preq.input) := by
  obtain ⟨sys', action, written⟩ := request.writes set sys inputs
  rw [← AxisSetting.overwrite_eq_merge_iff]
  constructor
  · rintro ⟨sys'', answer, action', merged, -⟩
    obtain ⟨rfl, -⟩ := Prod.mk.inj (Except.ok.inj (action.symm.trans action'))
    exact written.symm.trans merged
  · intro agrees
    have merged := written.trans agrees
    refine ⟨sys', _, action, merged, fun inputs' preq' request' get all => ?_⟩
    obtain ⟨answer, action', read⟩ := request'.reads get all
    exact ⟨answer, action', read.trans merged⟩

def clearSettings (flag : UInt8) : HmCmdReq :=
  ⟨(Vector.replicate hmCmdMaxInputSize 0).set 20 flag, 24, 5, 0, hmCmdMark1, hmCmdMark2,
    hmCmdOwerClient⟩

theorem clearSettings_clockwise : Merges System.init .clear (clearSettings 0x02) 0 :=
  (setting_merged_iff System.init .clear (clearSettings 0x02) 0 ⟨rfl, rfl, rfl⟩ rfl).mpr
    (by decide +kernel)

theorem clearSettings_both : ∃ sys inputs,
    SettingRequest (clearSettings 0x06) 0 ∧
      (HmCmdGetAxisSetting.ofInput (clearSettings 0x06).input).bget = 0 ∧
      ¬Merges sys inputs (clearSettings 0x06) 0 := by
  have request : SettingRequest (clearSettings 0x06) 0 := ⟨rfl, rfl, rfl⟩
  have lost : System.init.sAxisInfo[(0 : Fin hmMaxAxis)].setting.overwrite
      (HmCmdGetAxisSetting.ofInput (clearSettings 0x06).input) ≠
        System.init.sAxisInfo[(0 : Fin hmMaxAxis)].setting.merge
          (HmCmdGetAxisSetting.ofInput (clearSettings 0x06).input) := by decide +kernel
  refine ⟨System.init, .clear, request, rfl, ?_⟩
  rintro ⟨sys'', answer, action', merged, -⟩
  have write : ∃ sys', System.init.hmCmdExcCk .clear (clearSettings 0x06) = .ok (sys', _) ∧
      sys'.sAxisInfo[(0 : Fin hmMaxAxis)].setting = _ := request.writes rfl System.init .clear
  obtain ⟨sys', action, written⟩ := write
  obtain ⟨rfl, -⟩ := Prod.mk.inj (Except.ok.inj (action.symm.trans action'))
  exact lost (written.symm.trans merged)

end Merges

end MotionBoard
