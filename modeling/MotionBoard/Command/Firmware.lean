import Mathlib.Tactic.FinCases
import MotionBoard.Command.Setting
import MotionBoard.StepMotor.Regular

namespace MotionBoard
open Transition

inductive AxisCall
  | event (e : Event)
  | ledAct (bon : Bool)
  deriving DecidableEq, Repr

def StepInfo.call (psrd : StepInfo) : AxisCall → Except Halt StepInfo
  | .event e => psrd.exec e
  | .ledAct bon => .ok { psrd with motor.led := bon }

abbrev CallStep : StepInfo → AxisCall → StepInfo → Prop := Fires StepInfo.call

inductive FirmwareEvent
  | request (inputs : Inputs) (preq : HmCmdReq)
  | axis (idx : Fin hmMaxAxis) (e : Event)

def System.exec (sys : System) : FirmwareEvent → Except Halt System
  | .request inputs preq => (sys.hmCmdExcCk inputs preq).map Prod.fst
  | .axis idx e => do
      let psrd ← sys.sAxisInfo[idx].exec e
      .ok (sys.withAxes (sys.sAxisInfo.put idx psrd))

def callsOn (axis : UInt32) (calls : List AxisCall) (idx : Fin hmMaxAxis) : List AxisCall :=
  if axis.toNat = idx then calls else []

theorem callsOn_append (axis : UInt32) (made made' : List AxisCall) (idx : Fin hmMaxAxis) :
    callsOn axis (made ++ made') idx = callsOn axis made idx ++ callsOn axis made' idx := by
  unfold callsOn
  split <;> rfl

namespace AxisSetting

def calls (s : AxisSetting) : List AxisCall :=
  [.event (.setHomeStopMode s.bHomeTriger),
    .event (.setStopMode s.bStopModeCW s.bStopModeCCW s.bStopModeHome (if s.tcurve then 1 else 0))]

end AxisSetting

namespace HmCmdReq

def calls (inputs : Inputs) (preq : HmCmdReq) (old : AxisSetting) (idx : Fin hmMaxAxis) :
    List AxisCall :=
  match HmCmds.ofCode preq.ncmd with
  | some .hmCmdFixMove =>
      let pinf := HmCmdFixMove.ofInput preq.input
      if preq.inputLen = 20 then
        callsOn pinf.axis [.event (.move (inputs.io pinf.axis) pinf.step pinf.accel pinf.decel
          pinf.speed.toUInt32)] idx
      else []
  | some .hmCmdKeepMove =>
      let pinf := HmCmdKeepMove.ofInput preq.input
      let start := if pinf.bhome ≠ 0 then Event.startHoming else Event.startFreeRun
      if preq.inputLen = 20 then
        callsOn pinf.axis [.event (start (inputs.io pinf.axis) pinf.accel pinf.speed)] idx
      else []
  | some .hmCmdStopMove =>
      let pinf := HmCmdStopMove.ofInput preq.input
      if preq.inputLen = 8 then
        callsOn pinf.axis [.event (if pinf.bsmooth ≠ 0 then .stopSmooth else .stopSundden)] idx
      else []
  | some .hmCmdEnableAxis =>
      let pinf := HmCmdEnableAxis.ofInput preq.input
      callsOn pinf.axis [.event (.enableAxis (pinf.benable ≠ 0))] idx
  | some .hmCmdGetAxisSetting =>
      let pin := HmCmdGetAxisSetting.ofInput preq.input
      if preq.inputLen = 24 then
        if pin.bget = 0 then callsOn pin.axis (old.overwrite pin).calls idx else []
      else []
  | some .hmCmdCmdLed =>
      let pin := HmCmdCmdLed.ofInput preq.input
      if preq.inputLen = 8 then
        if pin.idx.toNat = idx + 1 then [.ledAct (pin.bon ≠ 0)] else []
      else []
  | some .hmCmdSetPos =>
      let pinf := HmCmdSetPos.ofInput preq.input
      callsOn pinf.axis [.event (.setCurPos pinf.pos)] idx
  | some .hmResetBoard => [.event .stopSmooth, .event (.setCurPos 0)]
  | _ => []

end HmCmdReq

def FirmwareEvent.calls (sys : System) (idx : Fin hmMaxAxis) : FirmwareEvent → List AxisCall
  | .request inputs preq => preq.calls inputs sys.sAxisInfo[idx].setting idx
  | .axis i e => if i = idx then [.event e] else []

def Board.Follows (board : Board) (calls : Fin hmMaxAxis → List AxisCall) (board' : Board) : Prop :=
  ∀ idx : Fin hmMaxAxis, Run CallStep board[idx] (calls idx) board'[idx]

namespace Board
variable {board board' board'' : Board} {axis : UInt32} {calls calls' : Fin hmMaxAxis → List AxisCall}

theorem Follows.refl : board.Follows (fun _ => []) board := fun _ => .nil

theorem Follows.trans (first : board.Follows calls board')
    (second : board'.Follows calls' board'') :
    board.Follows (fun idx => calls idx ++ calls' idx) board'' :=
  fun idx => (first idx).append (second idx)

theorem change_get (put : StepInfo → StepInfo) (idx : Fin hmMaxAxis) :
    (board.change axis put)[idx] = if axis.toNat = idx then put board[idx] else board[idx] := by
  by_cases named : axis.toNat = idx
  · have inside : axis.toNat < hmMaxAxis := lt_of_eq_of_lt named idx.isLt
    rw [if_pos named, change_inside inside]
    simp [named]
  · rw [if_neg named]
    unfold change
    split
    · simp [Vector.getElem_set_ne, named]
    · rfl

theorem follows_change {put : StepInfo → StepInfo} {made : List AxisCall}
    (makes : ∀ psrd, Run CallStep psrd made (put psrd)) :
    board.Follows (callsOn axis made) (board.change axis put) := by
  intro idx
  unfold callsOn
  rw [change_get]
  split
  · exact makes _
  · exact .nil

theorem follows_onAxis {start : StepInfo → Except Halt (Bool × StepInfo)} {e : Event}
    {answer : Bool} (makes : ∀ psrd, (start psrd).map Prod.snd = psrd.exec e)
    (action : board.onAxis axis start = .ok (answer, board')) :
    board.Follows (callsOn axis [.event e]) board' := by
  intro idx
  unfold callsOn
  unfold onAxis at action
  by_cases inside : axis.toNat < hmMaxAxis
  · rw [dif_pos inside] at action
    obtain ⟨⟨answer', psrd⟩, result, action⟩ := Except.ok_of_bind action
    obtain ⟨rfl, rfl⟩ := Prod.mk.inj (Except.ok.inj action)
    by_cases named : axis.toNat = idx
    · have before : board[axis.toNat] = board[idx] := getElem_congr_idx named
      have after : (board.set axis.toNat psrd)[idx] = psrd := by simp [named]
      have run : board[idx].exec e = .ok psrd := by
        rw [← makes, ← before, result]
        rfl
      rw [if_pos named, after]
      exact .cons (t := psrd) run .nil
    · have other : (board.set axis.toNat psrd)[idx] = board[idx] := by
        simp [Vector.getElem_set_ne, named]
      rw [if_neg named, other]
      exact .nil
  · rw [dif_neg inside] at action
    obtain ⟨-, rfl⟩ := Prod.mk.inj (Except.ok.inj action)
    rw [if_neg fun named : axis.toNat = idx => inside (lt_of_eq_of_lt named idx.isLt)]
    exact .nil

theorem writeBdoHome_onAxis {start : StepInfo → Except Halt (Bool × StepInfo)} {home answer : Bool}
    (action : (board.writeBdoHome axis home >>= fun board => board.onAxis axis start) =
      .ok (answer, board')) :
    board.onAxis axis (fun psrd => start { psrd with bdoHome := home }) = .ok (answer, board') := by
  unfold writeBdoHome at action
  by_cases inside : axis.toNat < hmMaxAxis
  · rw [dif_pos inside] at action
    have action : Board.onAxis _ axis start = .ok (answer, board') := action
    unfold onAxis at action ⊢
    rw [dif_pos inside] at action ⊢
    simpa using action
  · rw [dif_neg inside] at action
    cases action

end Board

namespace System
variable {sys sys' : System} {inputs : Inputs} {preq answer : HmCmdReq} {idx : Fin hmMaxAxis}
  {event : FirmwareEvent}

theorem sized_follows {size : UInt8} {run : Except Halt (System × HmCmdReq)}
    {made : Fin hmMaxAxis → List AxisCall} (action : sized size sys preq run = .ok (sys', answer))
    (follows : run = .ok (sys', answer) → sys.sAxisInfo.Follows made sys'.sAxisInfo) :
    sys.sAxisInfo.Follows (fun idx => if preq.inputLen = size then made idx else [])
      sys'.sAxisInfo := by
  by_cases right : preq.inputLen = size
  · rw [sized_eq right] at action
    simpa only [right, if_true] using follows action
  · rw [sized_ne right] at action
    obtain ⟨rfl, -⟩ := Prod.mk.inj (Except.ok.inj action)
    simpa only [right, if_false] using Board.Follows.refl

theorem start_follows {start : Except Halt (Bool × Board)} {made : Fin hmMaxAxis → List AxisCall}
    (action : (start >>= fun (ret, board) => .ok (sys.withAxes board, preq.answer ret)) =
      .ok (sys', answer))
    (follows : ∀ ret board, start = .ok (ret, board) → sys.sAxisInfo.Follows made board) :
    sys.sAxisInfo.Follows made sys'.sAxisInfo := by
  obtain ⟨⟨ret, board⟩, result, action⟩ := Except.ok_of_bind action
  obtain ⟨rfl, -⟩ := Prod.mk.inj (Except.ok.inj action)
  exact follows ret board result

theorem one_call {psrd t : StepInfo} {c : AxisCall} (made : psrd.call c = .ok t) :
    Run CallStep psrd [c] t :=
  .cons made .nil

theorem fixMove_follows (action : sys.fixMove inputs preq = .ok (sys', answer)) :
    let pinf := HmCmdFixMove.ofInput preq.input
    sys.sAxisInfo.Follows (fun idx => if preq.inputLen = 20 then
      callsOn pinf.axis [.event (.move (inputs.io pinf.axis) pinf.step pinf.accel pinf.decel
        pinf.speed.toUInt32)] idx else []) sys'.sAxisInfo :=
  sized_follows action fun action => start_follows action fun _ _ result =>
    Board.follows_onAxis (fun _ => rfl) result

theorem keepMove_follows (action : sys.keepMove inputs preq = .ok (sys', answer)) :
    let pinf := HmCmdKeepMove.ofInput preq.input
    let start := if pinf.bhome ≠ 0 then Event.startHoming else Event.startFreeRun
    sys.sAxisInfo.Follows (fun idx => if preq.inputLen = 20 then
      callsOn pinf.axis [.event (start (inputs.io pinf.axis) pinf.accel pinf.speed)] idx
      else []) sys'.sAxisInfo := by
  refine sized_follows action fun action => start_follows action fun ret board result => ?_
  split at result
  · rename_i homing
    rw [if_pos homing]
    exact Board.follows_onAxis (fun _ => rfl) (Board.writeBdoHome_onAxis result)
  · rename_i free
    rw [if_neg free]
    exact Board.follows_onAxis (fun _ => rfl) (Board.writeBdoHome_onAxis result)

theorem stopMove_follows (action : sys.stopMove preq = .ok (sys', answer)) :
    let pinf := HmCmdStopMove.ofInput preq.input
    sys.sAxisInfo.Follows (fun idx => if preq.inputLen = 8 then
      callsOn pinf.axis [.event (if pinf.bsmooth ≠ 0 then .stopSmooth else .stopSundden)] idx
      else []) sys'.sAxisInfo := by
  refine sized_follows action fun action => ?_
  by_cases smooth : (HmCmdStopMove.ofInput preq.input).bsmooth ≠ 0
  · rw [if_pos smooth] at action ⊢
    obtain ⟨rfl, -⟩ := Prod.mk.inj (Except.ok.inj action)
    exact Board.follows_change fun _ => one_call (c := .event .stopSmooth) rfl
  · rw [if_neg smooth] at action ⊢
    obtain ⟨rfl, -⟩ := Prod.mk.inj (Except.ok.inj action)
    exact Board.follows_change fun _ => one_call (c := .event .stopSundden) rfl

theorem withSetting_calls (psrd : StepInfo) (s : AxisSetting) :
    Run CallStep psrd s.calls (psrd.withSetting s) := by
  refine .cons (t := psrd.hmStepMotorSetHomeStopMode s.bHomeTriger) rfl (one_call ?_)
  cases curve : s.tcurve <;>
    simp [StepInfo.call, StepInfo.exec, StepInfo.hmMotorSetStopMode, StepInfo.withSetting,
      StepInfo.hmStepMotorSetHomeStopMode, curve]

theorem writeSetting_get (pin : HmCmdGetAxisSetting) (idx : Fin hmMaxAxis) :
    (sys.writeSetting pin)[idx] =
      if pin.axis.toNat = idx then
        sys.sAxisInfo[idx].withSetting (sys.sAxisInfo[idx].setting.overwrite pin)
      else sys.sAxisInfo[idx] := by
  by_cases inside : pin.axis.toNat < hmMaxAxis
  · rw [writeSetting_eq inside, Board.change_get]
    split
    · rename_i named
      have same : sys.sAxisInfo[pin.axis.toNat] = sys.sAxisInfo[idx] := getElem_congr_idx named
      rw [same]
    · rfl
  · have other : pin.axis.toNat ≠ idx := fun named => inside (lt_of_eq_of_lt named idx.isLt)
    rw [if_neg other]
    unfold writeSetting Board.hmMotorSetStopMode Board.hmStepMotorSetHomeStopMode
    simp only [Board.change_outside (Nat.le_of_not_lt inside), ite_self]

theorem getAxisSetting_follows (action : sys.getAxisSetting preq = .ok (sys', answer)) :
    let pin := HmCmdGetAxisSetting.ofInput preq.input
    sys.sAxisInfo.Follows (fun idx => if preq.inputLen = 24 then
      if pin.bget = 0 then callsOn pin.axis (sys.sAxisInfo[idx].setting.overwrite pin).calls idx
      else [] else []) sys'.sAxisInfo := by
  refine sized_follows action fun action => ?_
  by_cases set : (HmCmdGetAxisSetting.ofInput preq.input).bget = 0
  · rw [if_neg (not_not.mpr set)] at action
    obtain ⟨rfl, -⟩ := Prod.mk.inj (Except.ok.inj action)
    simp only [set, if_true]
    intro idx
    change Run CallStep _ _ (sys.writeSetting (HmCmdGetAxisSetting.ofInput preq.input))[idx]
    rw [writeSetting_get]
    unfold callsOn
    dsimp only
    split
    · exact withSetting_calls _ _
    · exact .nil
  · rw [if_pos set] at action
    obtain ⟨rfl, -⟩ := Prod.mk.inj (Except.ok.inj action)
    simp only [set, if_false]
    exact Board.Follows.refl

theorem hmLedAct_follows (channel : Fin hmMaxAxis) (bon : UInt32) :
    sys.sAxisInfo.Follows (fun idx => if channel = idx then [.ledAct (bon ≠ 0)] else [])
      (sys.hmLedAct channel bon).sAxisInfo := by
  intro idx
  change Run CallStep _ _
    (sys.sAxisInfo.put channel { sys.sAxisInfo[channel] with motor.led := bon ≠ 0 })[idx]
  rw [Vector.getElem_put]
  dsimp only
  split
  · rename_i same
    subst same
    exact one_call rfl
  · exact .nil

theorem if_hmLedAct_follows (sys : System) (flagged : Prop) [Decidable flagged]
    (channel : Fin hmMaxAxis) (bon : UInt32) :
    sys.sAxisInfo.Follows
      (fun idx => if flagged ∧ channel = idx then [.ledAct (bon ≠ 0)] else [])
      (if flagged then sys.hmLedAct channel bon else sys).sAxisInfo := by
  by_cases flag : flagged
  · simpa only [flag, true_and, if_true] using hmLedAct_follows channel bon
  · simpa only [flag, false_and, if_false] using Board.Follows.refl

theorem ledCalls_eq (n : UInt32) (c : AxisCall) (idx : Fin hmMaxAxis) :
    (((if n = 1 ∧ 0 = idx then [c] else []) ++ if n = 2 ∧ 1 = idx then [c] else []) ++
      if n = 3 ∧ 2 = idx then [c] else []) ++ (if n = 4 ∧ 3 = idx then [c] else []) =
      if n.toNat = idx + 1 then [c] else [] := by
  have bound : (idx : Nat) < 4 := idx.isLt
  have zero : ((0 : Fin hmMaxAxis) : Nat) = 0 := rfl
  have one : ((1 : Fin hmMaxAxis) : Nat) = 1 := rfl
  have two : ((2 : Fin hmMaxAxis) : Nat) = 2 := rfl
  have three : ((3 : Fin hmMaxAxis) : Nat) = 3 := rfl
  simp only [← UInt32.toNat_inj, Fin.ext_iff, zero, one, two, three, UInt32.reduceToNat]
  split_ifs <;> first | rfl | omega

theorem cmdLed_follows (action : sys.cmdLed preq = .ok (sys', answer)) :
    let pin := HmCmdCmdLed.ofInput preq.input
    sys.sAxisInfo.Follows (fun idx => if preq.inputLen = 8 then
      if pin.idx.toNat = idx + 1 then [.ledAct (pin.bon ≠ 0)] else [] else [])
      sys'.sAxisInfo := by
  refine sized_follows action fun action => ?_
  obtain ⟨rfl, -⟩ := Prod.mk.inj (Except.ok.inj action)
  generalize HmCmdCmdLed.ofInput preq.input = pin
  intro idx
  dsimp only
  rw [← ledCalls_eq]
  exact ((((sys.if_hmLedAct_follows (pin.idx = 1) 0 pin.bon).trans
    (if_hmLedAct_follows _ (pin.idx = 2) 1 pin.bon)).trans
      (if_hmLedAct_follows _ (pin.idx = 3) 2 pin.bon)).trans
        (if_hmLedAct_follows _ (pin.idx = 4) 3 pin.bon)) idx

theorem hmGpioOutBit_foldl (indices : List Nat) :
    (indices.foldl (fun sys idx => sys.hmGpioOutBit (UInt32.ofNat idx) 0) sys).sAxisInfo =
      sys.sAxisInfo := by
  induction indices generalizing sys with
  | nil => rfl
  | cons idx indices ih => exact ih

theorem reset_follows (board : Board) (n : Nat) : board.Follows
    (callsOn (UInt32.ofNat n) [.event .stopSmooth, .event (.setCurPos 0)])
    ((board.hmStepMotorStopSmooth (UInt32.ofNat n)).2.hmStepMotorSetCurPos (UInt32.ofNat n) 0) := by
  intro idx
  have made := ((Board.follows_change fun _ => one_call (c := .event .stopSmooth) rfl).trans
    (Board.follows_change fun _ => one_call (c := .event (.setCurPos 0)) rfl) :
      board.Follows _ ((board.hmStepMotorStopSmooth (UInt32.ofNat n)).2.hmStepMotorSetCurPos
        (UInt32.ofNat n) 0)) idx
  dsimp only at made
  rw [← callsOn_append] at made
  exact made

theorem resetCalls_eq (made : List AxisCall) (idx : Fin hmMaxAxis) :
    callsOn (UInt32.ofNat 0) made idx ++ callsOn (UInt32.ofNat 1) made idx ++
      callsOn (UInt32.ofNat 2) made idx ++ callsOn (UInt32.ofNat 3) made idx = made := by
  fin_cases idx <;> simp [callsOn]

theorem resetBoard_follows (action : sys.resetBoard preq = .ok (sys', answer)) :
    sys.sAxisInfo.Follows (fun _ => [.event .stopSmooth, .event (.setCurPos 0)])
      sys'.sAxisInfo := by
  obtain ⟨rfl, -⟩ := Prod.mk.inj (Except.ok.inj action)
  have axes : List.range hmMaxAxis = [0, 1, 2, 3] := rfl
  intro idx
  unfold withAxes
  dsimp only
  rw [hmGpioOutBit_foldl, axes, ← resetCalls_eq [.event .stopSmooth, .event (.setCurPos 0)] idx]
  simp only [List.foldl_cons, List.foldl_nil]
  exact ((((reset_follows sys.sAxisInfo 0).trans (reset_follows _ 1)).trans
    (reset_follows _ 2)).trans (reset_follows _ 3)) idx

theorem sized_axes {size : UInt8} {run : Except Halt (System × HmCmdReq)}
    (action : sized size sys preq run = .ok (sys', answer))
    (kept : run = .ok (sys', answer) → sys'.sAxisInfo = sys.sAxisInfo) :
    sys'.sAxisInfo = sys.sAxisInfo := by
  by_cases right : preq.inputLen = size
  · rw [sized_eq right] at action
    exact kept action
  · rw [sized_ne right] at action
    cases action
    rfl

theorem getSystemInfo_axes (action : sys.getSystemInfo preq = .ok (sys', answer)) :
    sys'.sAxisInfo = sys.sAxisInfo := by
  unfold getSystemInfo at action
  dsimp only at action
  split at action
  · cases action
    rfl
  · cases action
    rfl

theorem getAxisStatus_axes (action : sys.getAxisStatus inputs preq = .ok (sys', answer)) :
    sys'.sAxisInfo = sys.sAxisInfo := by
  refine sized_axes action fun action => ?_
  obtain ⟨_, -, action⟩ := Except.ok_of_bind action
  obtain ⟨_, -, action⟩ := Except.ok_of_bind action
  obtain ⟨_, -, action⟩ := Except.ok_of_bind action
  obtain ⟨_, -, action⟩ := Except.ok_of_bind action
  obtain ⟨_, -, action⟩ := Except.ok_of_bind action
  cases action
  rfl

theorem io_axes (action : sys.io inputs preq = .ok (sys', answer)) :
    sys'.sAxisInfo = sys.sAxisInfo := by
  refine sized_axes action fun action => ?_
  by_cases out : (HmCmdIo.ofInput preq.input).bout ≠ 0
  · rw [if_pos out] at action
    by_cases read : (HmCmdIo.ofInput preq.input).bread ≠ 0
    · rw [if_pos read] at action
      cases action
      rfl
    · rw [if_neg read] at action
      cases action
      rfl
  · rw [if_neg out] at action
    cases action
    rfl

theorem hmMsgQueueAdd_axes (func : MsgFunc) :
    (sys.hmMsgQueueAdd func).sAxisInfo = sys.sAxisInfo := by
  unfold hmMsgQueueAdd
  split <;> rfl

theorem map_fst_ok {result : Except Halt (System × HmCmdReq)}
    (action : result.map Prod.fst = .ok sys') : ∃ answer, result = .ok (sys', answer) := by
  cases result with
  | error failure => cases action
  | ok pair =>
      obtain rfl := Except.ok.inj action
      exact ⟨pair.2, rfl⟩

/-- A request moves each axis by its calls, and nothing else. -/
theorem hmCmdExcCk_follows (action : sys.hmCmdExcCk inputs preq = .ok (sys', answer)) :
    sys.sAxisInfo.Follows (fun idx => preq.calls inputs sys.sAxisInfo[idx].setting idx)
      sys'.sAxisInfo := by
  have quiet (same : sys'.sAxisInfo = sys.sAxisInfo) :
      sys.sAxisInfo.Follows (fun _ => []) sys'.sAxisInfo := by
    rw [same]
    exact .refl
  unfold hmCmdExcCk at action
  unfold HmCmdReq.calls
  cases named : HmCmds.ofCode preq.ncmd with
  | none =>
      rw [named] at action
      cases action
      exact .refl
  | some cmd =>
      rw [named] at action
      cases cmd with
      | hmCmdFixMove => exact fixMove_follows action
      | hmCmdKeepMove => exact keepMove_follows action
      | hmCmdStopMove => exact stopMove_follows action
      | hmCmdGetAxisSetting => exact getAxisSetting_follows action
      | hmCmdCmdLed => exact cmdLed_follows action
      | hmResetBoard => exact resetBoard_follows action
      | hmCmdEnableAxis =>
          obtain ⟨rfl, -⟩ := Prod.mk.inj (Except.ok.inj action)
          exact Board.follows_change fun _ => one_call (c := .event (.enableAxis _)) rfl
      | hmCmdSetPos =>
          obtain ⟨rfl, -⟩ := Prod.mk.inj (Except.ok.inj action)
          exact Board.follows_change fun _ => one_call (c := .event (.setCurPos _)) rfl
      | hmCmdGetSystemInfo => exact quiet (getSystemInfo_axes action)
      | hmCmdGetAxisStatus => exact quiet (getAxisStatus_axes action)
      | hmCmdIo => exact quiet (io_axes action)
      | hmGetVersion | hmDebugOpe =>
          exact quiet (sized_axes action fun action => by cases action; rfl)
      | hmResetForLoad =>
          obtain ⟨rfl, -⟩ := Prod.mk.inj (Except.ok.inj action)
          exact quiet (hmMsgQueueAdd_axes _)

theorem exec_follows (action : sys.exec event = .ok sys') (idx : Fin hmMaxAxis) :
    Run CallStep sys.sAxisInfo[idx] (event.calls sys idx) sys'.sAxisInfo[idx] := by
  cases event with
  | request inputs preq =>
      obtain ⟨answer, result⟩ := map_fst_ok action
      exact hmCmdExcCk_follows result idx
  | axis i e =>
      obtain ⟨psrd, result, rfl⟩ := Except.ok_of_map action
      change Run CallStep _ (if i = idx then _ else _) (sys.sAxisInfo.put i psrd)[idx]
      rw [Vector.getElem_put]
      split
      · rename_i same
        subst same
        exact one_call (c := .event e) result
      · exact .nil

end System

abbrev FirmwareStep : System → FirmwareEvent → System → Prop := Fires System.exec

section Runs
variable {sys sys' : System} {events : List FirmwareEvent} {psrd t : StepInfo} {c : AxisCall}

/-- What every call keeps of an axis, every run of the firmware keeps of each axis. -/
theorem firmware_invariant (run : Run FirmwareStep sys events sys') (idx : Fin hmMaxAxis)
    (inv : StepInfo → Prop) (start : inv sys.sAxisInfo[idx])
    (keeps : ∀ psrd c t, inv psrd → CallStep psrd c t → inv t) : inv sys'.sAxisInfo[idx] :=
  run.invariant (fun sys => inv sys.sAxisInfo[idx]) start fun _ _ _ holds move =>
    (System.exec_follows move idx).invariant inv holds keeps

theorem StepInfo.Regular.call (regular : psrd.Regular) (move : CallStep psrd c t) : t.Regular := by
  cases c with
  | event e => exact regular.step move
  | ledAct bon =>
      cases move
      exact { regular with }

theorem init_axis (idx : Fin hmMaxAxis) : System.init.sAxisInfo[idx] = hmStepMotorInit idx := by
  simp [System.init, Board.hmStepMotorInit]

theorem firmware_regular (run : Run FirmwareStep System.init events sys) (idx : Fin hmMaxAxis) :
    sys.sAxisInfo[idx].Regular := by
  refine firmware_invariant run idx StepInfo.Regular ?_ fun _ _ _ => StepInfo.Regular.call
  rw [init_axis]
  exact StepInfo.regular_init idx

end Runs

end MotionBoard
