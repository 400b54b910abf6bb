import MotionBoard.Command.Firmware

namespace MotionBoard
open Transition Bytes

def HmCmdReq.concerns (preq : HmCmdReq) (idx : Fin hmMaxAxis) : Bool :=
  match HmCmds.ofCode preq.ncmd with
  | some .hmCmdFixMove => (HmCmdFixMove.ofInput preq.input).axis.toNat = idx
  | some .hmCmdKeepMove => (HmCmdKeepMove.ofInput preq.input).axis.toNat = idx
  | some .hmCmdStopMove => (HmCmdStopMove.ofInput preq.input).axis.toNat = idx
  | some .hmCmdEnableAxis => (HmCmdEnableAxis.ofInput preq.input).axis.toNat = idx
  | some .hmCmdGetAxisStatus => (HmCmdGetAxisStatuse.ofInput preq.input).axis.toNat = idx
  | some .hmCmdGetAxisSetting => (HmCmdGetAxisSetting.ofInput preq.input).axis.toNat = idx
  | some .hmCmdSetPos => (HmCmdSetPos.ofInput preq.input).axis.toNat = idx
  | some .hmCmdCmdLed => (HmCmdCmdLed.ofInput preq.input).idx.toNat = idx + 1
  | some .hmResetBoard => true
  | _ => false

def FirmwareEvent.concerns (idx : Fin hmMaxAxis) : FirmwareEvent → Bool
  | .request _ preq => preq.concerns idx
  | .axis i _ => i = idx

namespace HmCmdReq
variable {inputs : Inputs} {preq : HmCmdReq} {idx : Fin hmMaxAxis}

theorem calls_of_silent (silent : preq.concerns idx = false) (old : AxisSetting) :
    preq.calls inputs old idx = [] := by
  unfold concerns at silent
  unfold calls callsOn
  cases named : HmCmds.ofCode preq.ncmd with
  | none => rfl
  | some cmd => cases cmd <;> simp_all

end HmCmdReq

namespace Board
variable {board board' after : Board} {axis : UInt32} {idx : Fin hmMaxAxis}

theorem getElem_named (named : axis.toNat = idx) (inside : axis.toNat < hmMaxAxis) :
    board[axis.toNat] = board[idx] :=
  getElem_congr_idx named

theorem onAxis_answer {start : StepInfo → Except Halt (Bool × StepInfo)} {answer : Bool}
    (named : axis.toNat = idx) (same : board'[idx] = board[idx])
    (action : board.onAxis axis start = .ok (answer, after)) :
    ∃ after', board'.onAxis axis start = .ok (answer, after') := by
  have inside : axis.toNat < hmMaxAxis := lt_of_eq_of_lt named idx.isLt
  unfold onAxis at action ⊢
  rw [dif_pos inside] at action ⊢
  rw [getElem_named named] at action ⊢
  rw [same]
  obtain ⟨⟨ret, psrd⟩, started, action⟩ := Except.ok_of_bind action
  obtain ⟨rfl, -⟩ := Prod.mk.inj (Except.ok.inj action)
  rw [started]
  exact ⟨_, rfl⟩

theorem writeBdoHome_answer {start : StepInfo → Except Halt (Bool × StepInfo)} {home answer : Bool}
    (named : axis.toNat = idx) (same : board'[idx] = board[idx])
    (action : (board.writeBdoHome axis home >>= fun board => board.onAxis axis start) =
      .ok (answer, after)) :
    ∃ after', (board'.writeBdoHome axis home >>= fun board => board.onAxis axis start) =
      .ok (answer, after') := by
  have inside : axis.toNat < hmMaxAxis := lt_of_eq_of_lt named idx.isLt
  unfold writeBdoHome at action ⊢
  rw [dif_pos inside] at action ⊢
  rw [getElem_named named] at action ⊢
  refine onAxis_answer named ?_ action
  simp [named, same]

theorem ask_named {Answer : Type} (answer : Answer) (get : StepInfo → Answer)
    (named : axis.toNat = idx) : board.ask axis answer get = get board[idx] := by
  rw [ask_inside (lt_of_eq_of_lt named idx.isLt), getElem_named named]

theorem axisInfo_named (named : axis.toNat = idx) : board.axisInfo axis = .ok board[idx] := by
  rw [axisInfo_inside (lt_of_eq_of_lt named idx.isLt), getElem_named named]

end Board

namespace System
variable {sys sys' t : System} {inputs : Inputs} {preq answer : HmCmdReq} {idx : Fin hmMaxAxis}

theorem sized_answer {size : UInt8} {run run' : Except Halt (System × HmCmdReq)}
    (action : sized size sys preq run = .ok (t, answer))
    (inner : run = .ok (t, answer) → ∃ t', run' = .ok (t', answer)) :
    ∃ t', sized size sys' preq run' = .ok (t', answer) := by
  by_cases right : preq.inputLen = size
  · rw [sized_eq right] at action ⊢
    exact inner action
  · rw [sized_ne right] at action ⊢
    cases action
    exact ⟨sys', rfl⟩

theorem start_answer {start start' : Except Halt (Bool × Board)}
    (action : (start >>= fun (ret, board) => .ok (sys.withAxes board, preq.answer ret)) =
      .ok (t, answer))
    (inner : ∀ ret board, start = .ok (ret, board) → ∃ board', start' = .ok (ret, board')) :
    ∃ t', (start' >>= fun (ret, board) => .ok (sys'.withAxes board, preq.answer ret)) =
      .ok (t', answer) := by
  obtain ⟨⟨ret, board⟩, started, action⟩ := Except.ok_of_bind action
  obtain ⟨board', started'⟩ := inner ret board started
  cases action
  rw [started']
  exact ⟨_, rfl⟩

theorem readSetting_named {pin : HmCmdGetAxisSetting} (named : pin.axis.toNat = idx)
    (same : sys'.sAxisInfo[idx] = sys.sAxisInfo[idx]) :
    sys'.readSetting pin = sys.readSetting pin := by
  unfold readSetting Board.hmStepMotorGetHomeStopMode Board.hmMotorGetStopMode
  rw [Board.ask_named _ _ named, Board.ask_named _ _ named, same]
  split
  · simp only [Board.ask_named _ _ named, same]
  · simp only [Board.ask_named _ _ named, same]

theorem getAxisStatus_answer
    (named : (HmCmdGetAxisStatuse.ofInput preq.input).axis.toNat = idx)
    (same : sys'.sAxisInfo[idx] = sys.sAxisInfo[idx])
    (action : sys.getAxisStatus inputs preq = .ok (t, answer)) :
    ∃ t', sys'.getAxisStatus inputs preq = .ok (t', answer) := by
  refine sized_answer action fun action => ?_
  unfold Board.hmStepMotorState Board.hmMotorHitCW Board.hmMotorHitCCW Board.hmMotorHitHome
    Board.hmMotorHit Board.hmMotorIsEnable Board.hmStepMotorGetCurPos
    Board.hmStepMotorGetCurrSpeed at action ⊢
  simp only [Board.axisInfo_named named, Board.ask_named _ _ named, same] at action ⊢
  cases action
  exact ⟨sys', rfl⟩

theorem hmCmdExcCk_answer (own : preq.concerns idx)
    (same : sys'.sAxisInfo[idx] = sys.sAxisInfo[idx])
    (action : sys.hmCmdExcCk inputs preq = .ok (t, answer)) :
    ∃ t', sys'.hmCmdExcCk inputs preq = .ok (t', answer) := by
  unfold hmCmdExcCk at action ⊢
  unfold HmCmdReq.concerns at own
  cases code : HmCmds.ofCode preq.ncmd with
  | none =>
      rw [code] at own
      cases own
  | some cmd =>
      rw [code] at action own
      cases cmd with
      | hmCmdFixMove =>
          refine sized_answer action fun action => start_answer action fun ret board started => ?_
          exact Board.onAxis_answer (of_decide_eq_true own) same started
      | hmCmdKeepMove =>
          refine sized_answer action fun action => start_answer action fun ret board started => ?_
          split at started
          · rename_i homing
            rw [if_pos homing]
            exact Board.writeBdoHome_answer (of_decide_eq_true own) same started
          · rename_i free
            rw [if_neg free]
            exact Board.writeBdoHome_answer (of_decide_eq_true own) same started
      | hmCmdStopMove =>
          refine sized_answer action fun action => ?_
          by_cases smooth : (HmCmdStopMove.ofInput preq.input).bsmooth ≠ 0
          · rw [if_pos smooth] at action ⊢
            cases action
            exact ⟨_, rfl⟩
          · rw [if_neg smooth] at action ⊢
            cases action
            exact ⟨_, rfl⟩
      | hmCmdEnableAxis =>
          cases action
          exact ⟨_, rfl⟩
      | hmCmdGetAxisStatus => exact getAxisStatus_answer (of_decide_eq_true own) same action
      | hmCmdGetAxisSetting =>
          refine sized_answer action fun action => ?_
          by_cases get : (HmCmdGetAxisSetting.ofInput preq.input).bget ≠ 0
          · rw [if_pos get] at action ⊢
            rw [readSetting_named (of_decide_eq_true own) same]
            cases action
            exact ⟨_, rfl⟩
          · rw [if_neg get] at action ⊢
            cases action
            exact ⟨_, rfl⟩
      | hmCmdCmdLed =>
          refine sized_answer action fun action => ?_
          cases action
          exact ⟨_, rfl⟩
      | hmCmdSetPos =>
          cases action
          exact ⟨_, rfl⟩
      | hmResetBoard =>
          cases action
          exact ⟨_, rfl⟩
      | hmCmdGetSystemInfo | hmCmdIo | hmGetVersion | hmDebugOpe | hmResetForLoad => cases own

theorem exec_silent {event : FirmwareEvent} (action : sys.exec event = .ok t)
    (silent : event.concerns idx = false) : t.sAxisInfo[idx] = sys.sAxisInfo[idx] := by
  have nothing : event.calls sys idx = [] := by
    cases event with
    | request inputs preq => exact HmCmdReq.calls_of_silent silent _
    | axis i e => exact if_neg (of_decide_eq_false silent)
  have follows := exec_follows action idx
  rw [nothing] at follows
  exact follows.fires_unique .nil

theorem exec_same {event : FirmwareEvent} {t' : System}
    (same : sys'.sAxisInfo[idx] = sys.sAxisInfo[idx]) (action : sys.exec event = .ok t)
    (action' : sys'.exec event = .ok t') : t'.sAxisInfo[idx] = t.sAxisInfo[idx] := by
  have calls : event.calls sys' idx = event.calls sys idx := by
    cases event with
    | request inputs preq => exact congrArg (preq.calls inputs · idx) (congrArg _ same)
    | axis i e => rfl
  have follows := exec_follows action' idx
  rw [calls, same] at follows
  exact follows.fires_unique (exec_follows action idx)

theorem exec_responds {event : FirmwareEvent} (action : sys.exec event = .ok t)
    (own : event.concerns idx) (same : sys'.sAxisInfo[idx] = sys.sAxisInfo[idx]) :
    ∃ t', sys'.exec event = .ok t' ∧ t'.sAxisInfo[idx] = t.sAxisInfo[idx] := by
  obtain ⟨t', action'⟩ : ∃ t', sys'.exec event = .ok t' := by
    cases event with
    | request inputs preq =>
        obtain ⟨answer, result⟩ := map_fst_ok action
        obtain ⟨t', result'⟩ := hmCmdExcCk_answer own same result
        exact ⟨t', congrArg (Except.map Prod.fst) result'⟩
    | axis i e =>
        obtain rfl : i = idx := of_decide_eq_true own
        obtain ⟨psrd, result, -⟩ := Except.ok_of_map action
        refine ⟨sys'.withAxes (sys'.sAxisInfo.put i psrd), ?_⟩
        change (sys'.sAxisInfo[i].exec e >>= _) = _
        rw [same, result]
        rfl
  exact ⟨t', action', exec_same same action action'⟩

end System

section Runs
variable {sys t : System} {events : List FirmwareEvent}

/-- Of every run of the firmware the events that concern an axis are a run of their own. It leads
the axis to the same state, and what is then asked or demanded of the axis has the same answer. -/
theorem axes_separate (run : Run FirmwareStep sys events t) (idx : Fin hmMaxAxis) (sys' : System)
    (same : sys'.sAxisInfo[idx] = sys.sAxisInfo[idx]) :
    ∃ t', Run FirmwareStep sys' (events.filter fun event => event.concerns idx) t' ∧
      t'.sAxisInfo[idx] = t.sAxisInfo[idx] ∧
      ∀ inputs preq answer, preq.concerns idx →
        ((∃ u, t.hmCmdExcCk inputs preq = .ok (u, answer)) ↔
          ∃ u', t'.hmCmdExcCk inputs preq = .ok (u', answer)) := by
  have silent (s event u) (move : FirmwareStep s event u) (other : event.concerns idx = false) :
      u.sAxisInfo[idx] = s.sAxisInfo[idx] :=
    System.exec_silent move other
  have responds (s event u s') (move : FirmwareStep s event u) (own : event.concerns idx)
      (same : s'.sAxisInfo[idx] = s.sAxisInfo[idx]) :
      ∃ u', FirmwareStep s' event u' ∧ u'.sAxisInfo[idx] = u.sAxisInfo[idx] :=
    System.exec_responds move own same
  obtain ⟨t', run', same'⟩ := run.purge silent responds same
  refine ⟨t', run', same', fun inputs preq answer own => ⟨?_, ?_⟩⟩
  · rintro ⟨u, action⟩
    exact System.hmCmdExcCk_answer own same' action
  · rintro ⟨u', action⟩
    exact System.hmCmdExcCk_answer own same'.symm action

def moveRequest (axis steps : UInt32) : HmCmdReq :=
  ⟨putWord (putWord (putWord (putWord (Vector.replicate hmCmdMaxInputSize 0) 0 axis) 4 steps)
    8 1000) 16 1000, 20, 0, 0, hmCmdMark1, hmCmdMark2, hmCmdOwerClient⟩

theorem axes_separate_turns :
    let events : List FirmwareEvent := [.request .clear (moveRequest 0 3),
      .request .clear (moveRequest 1 2), .axis 1 .burst, .axis 0 .burst, .axis 1 .burst]
    ∃ t t', Run FirmwareStep System.init events t ∧
      Run FirmwareStep System.init (events.filter fun event => event.concerns 0) t' ∧
      (events.filter fun event => event.concerns 0).length = 2 ∧
      t'.sAxisInfo[(0 : Fin hmMaxAxis)] = t.sAxisInfo[(0 : Fin hmMaxAxis)] := by
  intro events
  obtain ⟨t, run⟩ := computes_fires.run System.init events
    (show (events.foldlM (playFires System.exec) System.init).isSome by decide +kernel)
  obtain ⟨t', run', same, -⟩ := axes_separate run 0 System.init rfl
  exact ⟨t, t', run, run', by decide +kernel, same⟩

end Runs

end MotionBoard
