import MotionBoard.Command.Execute

namespace MotionBoard
open Bytes

namespace HmCmds

def namesAxis : HmCmds → Bool
  | hmCmdFixMove | hmCmdKeepMove | hmCmdStopMove | hmCmdEnableAxis | hmCmdGetAxisStatus
  | hmCmdGetAxisSetting | hmCmdSetPos => true
  | _ => false

end HmCmds

namespace HmCmdReq

def axis (preq : HmCmdReq) : UInt32 := word preq.input 0

def NamesOutside (preq : HmCmdReq) : Prop :=
  ∃ cmd, HmCmds.ofCode preq.ncmd = some cmd ∧
    ((cmd.namesAxis ∧ hmMaxAxis ≤ preq.axis.toNat) ∨
      (cmd = .hmCmdIo ∧
        (if (HmCmdIo.ofInput preq.input).bout ≠ 0 then hmMaxGpioOut else hmMaxGpioIn) ≤
          (HmCmdIo.ofInput preq.input).idx.toNat))

/-- The requests that go past a missing check: a position is set on any axis, three commands use
the axis once their length is right, and a write of an output is answered whatever its index. -/
def mishandled (preq : HmCmdReq) : Bool :=
  match HmCmds.ofCode preq.ncmd with
  | some .hmCmdSetPos => hmMaxAxis ≤ preq.axis.toNat
  | some .hmCmdKeepMove => preq.inputLen = 20 && hmMaxAxis ≤ preq.axis.toNat
  | some .hmCmdGetAxisSetting => preq.inputLen = 24 && hmMaxAxis ≤ preq.axis.toNat
  | some .hmCmdGetAxisStatus => preq.inputLen = 16 && hmMaxAxis ≤ preq.axis.toNat
  | some .hmCmdIo =>
      let pin := HmCmdIo.ofInput preq.input
      preq.inputLen = 20 && pin.bout ≠ 0 && pin.bread = 0 && hmMaxGpioOut ≤ pin.idx.toNat
  | _ => false

end HmCmdReq

def Declined (sys : System) (result : Except Halt (System × HmCmdReq)) : Prop :=
  ∃ sys' answer, result = .ok (sys', answer) ∧ answer.ret = 0 ∧
    sys'.sAxisInfo = sys.sAxisInfo ∧ sys'.sGpioOut = sys.sGpioOut

def IndexSafe (sys : System) (outside : Prop) (result : Except Halt (System × HmCmdReq)) : Prop :=
  result ≠ .error .outOfBounds ∧ (outside → Declined sys result)

section IndexSafe
variable {sys : System} {outside : Prop} {preq : HmCmdReq} {size : UInt8}
  {result : Except Halt (System × HmCmdReq)}

theorem declined_false (sys : System) (preq : HmCmdReq) :
    Declined sys (.ok (sys, preq.answer false)) :=
  ⟨sys, _, rfl, rfl, rfl, rfl⟩

theorem Declined.safe (declined : Declined sys result) : IndexSafe sys outside result := by
  obtain ⟨sys', answer, action, rest⟩ := declined
  refine ⟨?_, fun _ => ⟨sys', answer, action, rest⟩⟩
  rw [action]
  nofun

theorem indexSafe_inside (inside : ¬outside) {after : System × HmCmdReq} :
    IndexSafe sys outside (.ok after) :=
  ⟨nofun, fun named => absurd named inside⟩

theorem not_indexSafe_granted (named : outside) {sys' : System} {answer : HmCmdReq}
    (granted : answer.ret ≠ 0) : ¬IndexSafe sys outside (.ok (sys', answer)) := by
  intro safe
  obtain ⟨_, _, action, refused, -⟩ := safe.2 named
  cases action
  exact granted refused

theorem IndexSafe.sized (safe : preq.inputLen = size → IndexSafe sys outside result) :
    IndexSafe sys outside (System.sized size sys preq result) := by
  by_cases right : preq.inputLen = size
  · rw [System.sized_eq right]
    exact safe right
  · rw [System.sized_ne right]
    exact (declined_false sys preq).safe

end IndexSafe

namespace System
variable {sys : System} {inputs : Inputs} {preq : HmCmdReq}

theorem start_ne_outOfBounds {result : Except Halt (Bool × Board)}
    (bounds : result ≠ .error .outOfBounds) :
    (result >>= fun (ret, board) => .ok (sys.withAxes board, preq.answer ret)) ≠
      Except.error Halt.outOfBounds := by
  cases result with
  | error failure => exact fun same => bounds (congrArg Except.error (Except.error.inj same))
  | ok pair => nofun

theorem fixMove_safe :
    IndexSafe sys (hmMaxAxis ≤ preq.axis.toNat) (sys.fixMove inputs preq) := by
  refine IndexSafe.sized fun _ => ⟨start_ne_outOfBounds ?_, fun outside => ?_⟩
  · let pinf := HmCmdFixMove.ofInput preq.input
    let call := StartCall.move pinf.step pinf.accel pinf.decel pinf.speed.toUInt32
    have bounds : sys.sAxisInfo.onAxis pinf.axis (call.onAxis (inputs.io pinf.axis)) ≠
        .error .outOfBounds := Board.onAxis_ne_outOfBounds
    exact bounds
  · have refused (start : StepInfo → Except Halt (Bool × StepInfo)) :
        sys.sAxisInfo.onAxis preq.axis start = .ok (false, sys.sAxisInfo) :=
      dif_neg (Nat.not_lt.mpr outside)
    refine ⟨sys, preq.answer false, ?_, rfl, rfl, rfl⟩
    exact congrArg (fun result => result >>= fun (ret, board) =>
      Except.ok (sys.withAxes board, preq.answer ret)) (refused _)

theorem keepMove_safe (inside : preq.inputLen = 20 → preq.axis.toNat < hmMaxAxis) :
    IndexSafe sys (hmMaxAxis ≤ preq.axis.toNat) (sys.keepMove inputs preq) := by
  refine IndexSafe.sized fun right => ⟨start_ne_outOfBounds ?_, fun outside => ?_⟩
  · let pinf := HmCmdKeepMove.ofInput preq.input
    have bounds (home : Bool) (call : StartCall) :
        (sys.sAxisInfo.writeBdoHome pinf.axis home >>= fun board =>
          board.onAxis pinf.axis (call.onAxis (inputs.io pinf.axis))) ≠ .error .outOfBounds := by
      have written : sys.sAxisInfo.writeBdoHome pinf.axis home = _ := dif_pos (inside right)
      rw [written]
      exact Board.onAxis_ne_outOfBounds
    split
    · exact bounds true (.run pinf.accel pinf.speed)
    · exact bounds false (.run pinf.accel pinf.speed)
  · exact absurd (inside right) (Nat.not_lt.mpr outside)

theorem keepMove_outside (right : preq.inputLen = 20) (outside : hmMaxAxis ≤ preq.axis.toNat) :
    sys.keepMove inputs preq = .error .outOfBounds := by
  have unwritten (home : Bool) :
      sys.sAxisInfo.writeBdoHome preq.axis home = .error .outOfBounds :=
    dif_neg (Nat.not_lt.mpr outside)
  refine (sized_eq right).trans ?_
  split
  all_goals
    exact congrArg (fun result : Except Halt Board => (result >>= fun board =>
      board.hmStepMotorStartRun _ _ _ _) >>= fun (ret, board) =>
        Except.ok (sys.withAxes board, preq.answer ret)) (unwritten _)

theorem change_declined (outside : hmMaxAxis ≤ preq.axis.toNat) (put : StepInfo → StepInfo) :
    Declined sys (.ok (sys.withAxes (sys.sAxisInfo.change preq.axis put),
      preq.answer (Board.found preq.axis))) := by
  rw [Board.found_outside outside, Board.change_outside outside]
  exact declined_false sys preq

theorem stopMove_safe : IndexSafe sys (hmMaxAxis ≤ preq.axis.toNat) (sys.stopMove preq) := by
  refine IndexSafe.sized fun _ => ⟨nofun, fun outside => ?_⟩
  by_cases smooth : (HmCmdStopMove.ofInput preq.input).bsmooth ≠ 0
  · rw [if_pos smooth]
    exact change_declined outside _
  · rw [if_neg smooth]
    exact change_declined outside _

theorem enableAxis_safe : IndexSafe sys (hmMaxAxis ≤ preq.axis.toNat) (sys.enableAxis preq) :=
  ⟨nofun, fun outside => change_declined outside _⟩

theorem getAxisStatus_safe (inside : preq.inputLen = 16 → preq.axis.toNat < hmMaxAxis) :
    IndexSafe sys (hmMaxAxis ≤ preq.axis.toNat) (sys.getAxisStatus inputs preq) := by
  refine IndexSafe.sized fun right => ?_
  have found : sys.sAxisInfo.axisInfo (HmCmdGetAxisStatuse.ofInput preq.input).axis = .ok _ :=
    Board.axisInfo_inside (inside right)
  unfold Board.hmStepMotorState Board.hmMotorHitCW Board.hmMotorHitCCW Board.hmMotorHitHome
    Board.hmMotorHit Board.hmMotorIsEnable
  rw [found]
  exact indexSafe_inside (Nat.not_le.mpr (inside right))

theorem getAxisStatus_outside (right : preq.inputLen = 16)
    (outside : hmMaxAxis ≤ preq.axis.toNat) :
    sys.getAxisStatus inputs preq = .error .outOfBounds := by
  have missing : sys.sAxisInfo.axisInfo (HmCmdGetAxisStatuse.ofInput preq.input).axis =
      .error .outOfBounds := Board.axisInfo_outside outside
  refine (sized_eq right).trans ?_
  unfold Board.hmStepMotorState
  rw [missing]
  rfl

theorem granted_safe_iff {sys' : System} {answer : HmCmdReq} {axis : UInt32}
    (granted : answer.ret ≠ 0) :
    IndexSafe sys (hmMaxAxis ≤ axis.toNat) (.ok (sys', answer)) ↔ axis.toNat < hmMaxAxis := by
  by_cases outside : hmMaxAxis ≤ axis.toNat
  · exact iff_of_false (not_indexSafe_granted outside granted) (Nat.not_lt.mpr outside)
  · exact iff_of_true (indexSafe_inside outside) (Nat.lt_of_not_le outside)

theorem getAxisSetting_safe_iff :
    IndexSafe sys (hmMaxAxis ≤ preq.axis.toNat) (sys.getAxisSetting preq) ↔
      (preq.inputLen = 24 → preq.axis.toNat < hmMaxAxis) := by
  have granted : (1 : UInt8) ≠ 0 := by decide
  unfold getAxisSetting
  by_cases right : preq.inputLen = 24
  · rw [sized_eq right]
    refine Iff.trans ?_ (forall_prop_of_true right).symm
    split
    · exact granted_safe_iff granted
    · exact granted_safe_iff granted
  · rw [sized_ne right]
    exact iff_of_true (declined_false sys preq).safe fun same => absurd same right

theorem hmGpioGetOutBit_outside {bitno : UInt32} (outside : hmMaxGpioOut ≤ bitno.toNat) :
    sys.hmGpioGetOutBit bitno = 0xffff := by
  unfold hmGpioGetOutBit
  rw [Vector.getElem?_eq_none outside]

theorem hmGpioInBit_outside {bitno : UInt32} (outside : hmMaxGpioIn ≤ bitno.toNat) :
    hmGpioInBit inputs bitno = 0xffff := by
  unfold hmGpioInBit
  rw [Vector.getElem?_eq_none outside]

theorem read_declined {value : UInt32} (missing : value = 0xffff)
    (input : Vector UInt8 hmCmdMaxInputSize) :
    Declined sys (.ok (sys, { preq.answer (value ≠ 0xffff) with input })) := by
  subst missing
  exact ⟨sys, _, rfl, rfl, rfl, rfl⟩

theorem io_safe_iff : IndexSafe sys
    ((if (HmCmdIo.ofInput preq.input).bout ≠ 0 then hmMaxGpioOut else hmMaxGpioIn) ≤
      (HmCmdIo.ofInput preq.input).idx.toNat) (sys.io inputs preq) ↔
    ¬(preq.inputLen = 20 ∧ (HmCmdIo.ofInput preq.input).bout ≠ 0 ∧
      (HmCmdIo.ofInput preq.input).bread = 0 ∧
        hmMaxGpioOut ≤ (HmCmdIo.ofInput preq.input).idx.toNat) := by
  unfold io
  generalize HmCmdIo.ofInput preq.input = pin
  by_cases right : preq.inputLen = 20
  · rw [sized_eq right]
    by_cases out : pin.bout ≠ 0
    · rw [if_pos out, if_pos out]
      by_cases read : pin.bread = 0
      · rw [if_neg (not_not.mpr read)]
        by_cases outside : hmMaxGpioOut ≤ pin.idx.toNat
        · have granted : ¬IndexSafe sys (hmMaxGpioOut ≤ pin.idx.toNat) (.ok
              (sys.hmGpioOutBit pin.idx pin.valSet,
                { preq.answer true with input := ({ pin with valRet := 0 }).store preq.input })) :=
            not_indexSafe_granted outside (show (1 : UInt8) ≠ 0 by decide)
          exact iff_of_false granted (not_not.mpr ⟨right, out, read, outside⟩)
        · exact iff_of_true (indexSafe_inside outside) fun past => outside past.2.2.2
      · rw [if_pos read]
        refine iff_of_true ⟨nofun, fun outside => ?_⟩ fun past => read past.2.2.1
        exact read_declined (hmGpioGetOutBit_outside outside) _
    · rw [if_neg out, if_neg out]
      refine iff_of_true ⟨nofun, fun outside => ?_⟩ fun past => out past.2.1
      exact read_declined (hmGpioInBit_outside outside) _
  · rw [sized_ne right]
    exact iff_of_true (declined_false sys preq).safe fun past => right past.1

end System

/-- Indices are safe in exactly the requests that meet no missing check. -/
theorem index_safe_iff (sys : System) (inputs : Inputs) (preq : HmCmdReq) :
    IndexSafe sys preq.NamesOutside (sys.hmCmdExcCk inputs preq) ↔ preq.mishandled = false := by
  unfold System.hmCmdExcCk HmCmdReq.NamesOutside HmCmdReq.mishandled
  cases HmCmds.ofCode preq.ncmd with
  | none => exact iff_of_true (declined_false sys preq).safe rfl
  | some cmd =>
      simp only [Option.some.injEq, exists_eq_left']
      cases cmd with
      | hmCmdFixMove =>
          simpa only [HmCmds.namesAxis, true_and, reduceCtorEq, false_and, or_false, iff_true]
            using System.fixMove_safe
      | hmCmdKeepMove =>
          simp only [HmCmds.namesAxis, true_and, reduceCtorEq, false_and, or_false,
            Bool.and_eq_false_imp, decide_eq_true_eq, decide_eq_false_iff_not, Nat.not_le]
          refine ⟨fun safe right => ?_, System.keepMove_safe⟩
          by_contra outside
          exact safe.1 (System.keepMove_outside right (Nat.le_of_not_lt outside))
      | hmCmdStopMove =>
          simpa only [HmCmds.namesAxis, true_and, reduceCtorEq, false_and, or_false, iff_true]
            using System.stopMove_safe
      | hmCmdEnableAxis =>
          simpa only [HmCmds.namesAxis, true_and, reduceCtorEq, false_and, or_false, iff_true]
            using System.enableAxis_safe
      | hmCmdGetAxisStatus =>
          simp only [HmCmds.namesAxis, true_and, reduceCtorEq, false_and, or_false,
            Bool.and_eq_false_imp, decide_eq_true_eq, decide_eq_false_iff_not, Nat.not_le]
          refine ⟨fun safe right => ?_, System.getAxisStatus_safe⟩
          by_contra outside
          exact safe.1 (System.getAxisStatus_outside right (Nat.le_of_not_lt outside))
      | hmCmdGetAxisSetting =>
          simp only [HmCmds.namesAxis, true_and, reduceCtorEq, false_and, or_false,
            Bool.and_eq_false_imp, decide_eq_true_eq, decide_eq_false_iff_not, Nat.not_le]
          exact System.getAxisSetting_safe_iff
      | hmCmdSetPos =>
          simp only [HmCmds.namesAxis, true_and, reduceCtorEq, false_and, or_false,
            decide_eq_false_iff_not, Nat.not_le]
          exact System.granted_safe_iff (show (1 : UInt8) ≠ 0 by decide)
      | hmCmdIo =>
          simp only [HmCmds.namesAxis, Bool.false_eq_true, false_and, true_and, false_or]
          refine System.io_safe_iff.trans ?_
          simp only [Bool.and_eq_false_imp, Bool.and_eq_true, decide_eq_true_eq,
            decide_eq_false_iff_not, not_and, and_imp]
      | hmCmdGetSystemInfo =>
          simp only [HmCmds.namesAxis, Bool.false_eq_true, reduceCtorEq, false_and, or_false,
            iff_true]
          unfold System.getSystemInfo
          dsimp only
          split
          · exact indexSafe_inside not_false
          · exact indexSafe_inside not_false
      | hmResetBoard | hmResetForLoad =>
          simp only [HmCmds.namesAxis, Bool.false_eq_true, reduceCtorEq, false_and, or_false,
            iff_true]
          exact indexSafe_inside not_false
      | hmCmdCmdLed | hmGetVersion | hmDebugOpe =>
          simp only [HmCmds.namesAxis, Bool.false_eq_true, reduceCtorEq, false_and, or_false,
            iff_true]
          exact IndexSafe.sized fun _ => indexSafe_inside not_false

def keepMoveOutside : HmCmdReq :=
  ⟨(Vector.replicate hmCmdMaxInputSize 0).set 0 4, 20, 1, 0, hmCmdMark1, hmCmdMark2,
    hmCmdOwerClient⟩

theorem keepMove_past_axes : ∃ sys inputs,
    System.hmCmdExcCk sys inputs keepMoveOutside = .error .outOfBounds :=
  ⟨System.init, Inputs.clear, System.keepMove_outside rfl (by decide)⟩

def Refused (sys : System) (result : Except Halt (System × HmCmdReq)) : Prop :=
  ∃ sys' answer, result = .ok (sys', answer) ∧ answer.ret = 0 ∧
    sys'.sAxisInfo = sys.sAxisInfo ∧ sys'.sGpioOut = sys.sGpioOut ∧ sys'.ltError = sys.ltError ∧
    sys'.sDebugOff = sys.sDebugOff ∧ sys'.sDebug = sys.sDebug

section Length
variable {sys : System} {inputs : Inputs} {preq : HmCmdReq} {size : UInt8}

theorem refused_false (sys : System) (preq : HmCmdReq) :
    Refused sys (.ok (sys, preq.answer false)) :=
  ⟨sys, _, rfl, rfl, rfl, rfl, rfl, rfl, rfl⟩

theorem sized_refused (wrong : preq.inputLen ≠ size)
    (result : Except Halt (System × HmCmdReq)) :
    Refused sys (System.sized size sys preq result) := by
  rw [System.sized_ne wrong]
  exact refused_false sys preq

theorem not_refused_granted {sys' : System} {answer : HmCmdReq} (granted : answer.ret ≠ 0) :
    ¬Refused sys (.ok (sys', answer)) := by
  rintro ⟨_, _, action, refused, -⟩
  cases action
  exact granted refused

theorem setPos_granted : ¬Refused sys (sys.setPos preq) :=
  not_refused_granted (show (1 : UInt8) ≠ 0 by decide)

theorem getSystemInfo_granted : ¬Refused sys (sys.getSystemInfo preq) := by
  have granted : (1 : UInt8) ≠ 0 := by decide
  unfold System.getSystemInfo
  dsimp only
  split
  · exact not_refused_granted granted
  · exact not_refused_granted granted

theorem enableAxis_refused_iff : Refused sys (sys.enableAxis preq) ↔
    hmMaxAxis ≤ preq.axis.toNat := by
  let put (psrd : StepInfo) :=
    psrd.hmMotorEnableAxis ((HmCmdEnableAxis.ofInput preq.input).benable ≠ 0)
  change Refused sys (.ok (sys.withAxes (sys.sAxisInfo.change preq.axis put),
    preq.answer (Board.found preq.axis))) ↔ _
  by_cases outside : hmMaxAxis ≤ preq.axis.toNat
  · rw [Board.found_outside outside, Board.change_outside outside]
    exact iff_of_true (refused_false sys preq) outside
  · have found : Board.found preq.axis = true := decide_eq_true (Nat.lt_of_not_le outside)
    rw [found]
    exact iff_of_false (not_refused_granted (show (1 : UInt8) ≠ 0 by decide)) outside

/-- Which payload commands refuse a payload of the wrong length. -/
theorem length_refused_iff (sys : System) (inputs : Inputs) (preq : HmCmdReq) (cmd : HmCmds)
    (size : UInt8) (named : HmCmds.ofCode preq.ncmd = some cmd) (sized : cmd.size? = some size)
    (wrong : preq.inputLen ≠ size) :
    Refused sys (sys.hmCmdExcCk inputs preq) ↔
      cmd ≠ .hmCmdSetPos ∧ cmd ≠ .hmCmdGetSystemInfo ∧
        (cmd = .hmCmdEnableAxis → hmMaxAxis ≤ preq.axis.toNat) := by
  unfold System.hmCmdExcCk
  rw [named]
  cases cmd with
  | hmCmdSetPos => exact iff_of_false setPos_granted fun checks => checks.1 rfl
  | hmCmdGetSystemInfo => exact iff_of_false getSystemInfo_granted fun checks => checks.2.1 rfl
  | hmCmdEnableAxis =>
      refine enableAxis_refused_iff.trans ?_
      simp
  | hmResetBoard | hmResetForLoad => cases sized
  | _ =>
      cases sized
      exact iff_of_true (sized_refused wrong _) ⟨nofun, nofun, nofun⟩

def emptySetPos : HmCmdReq :=
  ⟨Vector.replicate hmCmdMaxInputSize 0, 0, 7, 0, hmCmdMark1, hmCmdMark2, hmCmdOwerClient⟩

theorem emptySetPos_executed : ∃ sys inputs,
    HmCmds.ofCode emptySetPos.ncmd = some .hmCmdSetPos ∧
      HmCmds.size? .hmCmdSetPos = some 8 ∧ emptySetPos.inputLen ≠ 8 ∧
      ¬Refused sys (System.hmCmdExcCk sys inputs emptySetPos) :=
  ⟨System.init, Inputs.clear, rfl, rfl, by decide, setPos_granted⟩

theorem length_refused_stopMove :
    Refused System.init (System.init.hmCmdExcCk .clear { emptySetPos with ncmd := 2 }) :=
  (length_refused_iff System.init .clear { emptySetPos with ncmd := 2 } .hmCmdStopMove 8 rfl rfl
    (by decide)).mpr ⟨nofun, nofun, nofun⟩

end Length

end MotionBoard
