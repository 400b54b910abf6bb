import MotionBoard.StepMotor.Board

namespace MotionBoard
open Transition

inductive LimitSwitch
  | cw | ccw | home
  deriving DecidableEq, Repr

namespace StepInfo

def stopMode (psrd : StepInfo) : LimitSwitch → UInt32
  | .cw => psrd.motorHwConfig.bStopImmediatelyCW
  | .ccw => psrd.motorHwConfig.bStopImmediatelyCCW
  | .home => psrd.motorHwConfig.bStopImmediatelyHome

def configuredStop (psrd : StepInfo) (limit : LimitSwitch) : StepInfo :=
  if psrd.stopMode limit ≠ 0 then psrd.hmStepMotorStopSundden else psrd.hmStepMotorStopSmooth

def CheckFinds (psrd : StepInfo) (io : Pins) : LimitSwitch → Prop
  | .cw => psrd.running ∧ psrd.dir = .rdCW ∧ hmMotorHitCW io
  | .ccw => psrd.running ∧ psrd.dir = .rdCCW ∧ hmMotorHitCCW io
  | .home => psrd.running ∧ psrd.hitHomeTrigger io

def IrqFinds (psrd : StepInfo) (func : IrqHandler) (extline : UInt32) (io : Pins) :
    LimitSwitch → Prop
  | .cw => psrd.running ∧ psrd.dir = .rdCW ∧ hmMotorHitCW io ∧
      psrd.motorHwConfig.irpFunCW = func ∧ psrd.motorHwConfig.extLineCW = extline
  | .ccw => psrd.running ∧ psrd.dir = .rdCCW ∧ hmMotorHitCCW io ∧
      psrd.motorHwConfig.irpFunCCW = func ∧ psrd.motorHwConfig.extLineCCW = extline
  | .home => psrd.running ∧ psrd.bdoHome ∧ hmMotorHitHome io ∧
      psrd.motorHwConfig.irpFunHome = func ∧ psrd.motorHwConfig.extLineHome = extline

def LikeCW (psrd : StepInfo) (limit : LimitSwitch) : Prop :=
  psrd.stopMode limit = 0 ↔ psrd.stopMode .cw = 0

section Stops
variable {psrd : StepInfo} {io : Pins} {func : IrqHandler} {extline : UInt32}
  {limit : LimitSwitch}

theorem CheckFinds.running (found : psrd.CheckFinds io limit) : psrd.running := by
  cases limit <;> exact found.1

theorem IrqFinds.running (found : psrd.IrqFinds func extline io limit) : psrd.running := by
  cases limit <;> exact found.1

theorem hmMotorLimitLogicalCheck_stops (found : psrd.CheckFinds io limit) :
    psrd.hmMotorLimitLogicalCheck io = (psrd.markLastHitHome io).limitStop := by
  have stops : psrd.hitTravelLimit io || psrd.hitHomeTrigger io := by
    cases limit with
    | cw => simp [hitTravelLimit, found.2.1, found.2.2]
    | ccw => simp [hitTravelLimit, found.2.1, found.2.2]
    | home => simp [found.2]
  unfold hmMotorLimitLogicalCheck
  simp only [found.running, stops, Bool.not_true, Bool.false_eq_true, if_false, if_true]

@[simp] theorem markLastHitHome_stopMode (limit : LimitSwitch) :
    (psrd.markLastHitHome io).stopMode limit = psrd.stopMode limit := by
  unfold markLastHitHome
  cases limit <;> split <;> rfl

@[simp] theorem markLastHitHome_running : (psrd.markLastHitHome io).running = psrd.running := by
  unfold markLastHitHome
  split <;> rfl

theorem stops_differ (run : psrd.running) :
    psrd.hmStepMotorStopSundden ≠ psrd.hmStepMotorStopSmooth := by
  intro same
  have running : psrd.axisState = .asRuning := of_decide_eq_true run
  have smooth : psrd.hmStepMotorStopSmooth.axisState = psrd.axisState := by
    unfold hmStepMotorStopSmooth
    split <;> rfl
  have state : AxisState.asStoped = psrd.axisState := smooth ▸ congrArg axisState same
  rw [running] at state
  cases state

theorem limitStop_eq_sudden_iff (run : psrd.running) :
    psrd.limitStop = psrd.hmStepMotorStopSundden ↔ psrd.stopMode .cw ≠ 0 := by
  unfold limitStop
  split
  · rename_i now
    exact iff_of_true rfl now
  · rename_i slowly
    exact iff_of_false (stops_differ run).symm slowly

theorem limitStop_configured_iff (run : psrd.running) :
    psrd.limitStop = psrd.configuredStop limit ↔ psrd.LikeCW limit := by
  unfold LikeCW configuredStop
  by_cases mode : psrd.stopMode limit = 0
  · rw [if_neg (not_not_intro mode)]
    by_cases cw : psrd.stopMode .cw = 0
    · exact iff_of_true (if_neg (not_not_intro cw)) (by simp only [mode, cw])
    · have sudden := (limitStop_eq_sudden_iff run).mpr cw
      refine iff_of_false (fun same => stops_differ run (sudden ▸ same)) fun like => ?_
      exact cw (like.mp mode)
  · rw [if_pos mode, limitStop_eq_sudden_iff run]
    simp only [mode, false_iff, ne_eq]

end Stops

end StepInfo

namespace Board

def hmMotorLimitLogicalCheck (board : Board) (io : Fin hmMaxAxis → Pins) : Board :=
  Vector.ofFn fun idx => board[idx].hmMotorLimitLogicalCheck (io idx)

/-- The axis at which the loop of `handler_extern_irq` stops and breaks off. -/
def picks (board : Board) (func : IrqHandler) (extline : UInt32) (io : Fin hmMaxAxis → Pins) :
    Option (Fin hmMaxAxis) :=
  (List.finRange hmMaxAxis).find? fun idx => board[idx].externStop func extline (io idx)

def handlerExternIrq (board : Board) (func : IrqHandler) (extline : UInt32)
    (io : Fin hmMaxAxis → Pins) : Board :=
  match board.picks func extline io with
  | some idx => board.put idx board[idx].limitStop
  | none => board

section Stops
variable {board : Board} {func : IrqHandler} {extline : UInt32} {io : Fin hmMaxAxis → Pins}
  {idx : Fin hmMaxAxis} {limit : LimitSwitch}

theorem hmMotorLimitLogicalCheck_get :
    (board.hmMotorLimitLogicalCheck io)[idx] = board[idx].hmMotorLimitLogicalCheck (io idx) :=
  Vector.getElem_ofFn idx.isLt

theorem handlerExternIrq_get (picked : board.picks func extline io = some idx) :
    (board.handlerExternIrq func extline io)[idx] = board[idx].limitStop := by
  unfold handlerExternIrq
  rw [picked]
  exact Vector.getElem_set_self idx.isLt

/-- The periodic check stops an axis as the limits it finds are configured exactly when these are
configured as the CW limit is, and so does the interrupt; whenever both stop the axis, they choose
the same stop. -/
theorem limit_stop_configured_iff :
    ((∀ limit, board[idx].CheckFinds (io idx) limit →
        (board.hmMotorLimitLogicalCheck io)[idx] =
          (board[idx].markLastHitHome (io idx)).configuredStop limit) ↔
      ∀ limit, board[idx].CheckFinds (io idx) limit → board[idx].LikeCW limit) ∧
    (board.picks func extline io = some idx →
      ((∀ limit, board[idx].IrqFinds func extline (io idx) limit →
          (board.handlerExternIrq func extline io)[idx] = board[idx].configuredStop limit) ↔
        ∀ limit, board[idx].IrqFinds func extline (io idx) limit → board[idx].LikeCW limit) ∧
      ∀ limit, board[idx].CheckFinds (io idx) limit →
        ((board.hmMotorLimitLogicalCheck io)[idx] =
            (board[idx].markLastHitHome (io idx)).hmStepMotorStopSundden ↔
          (board.handlerExternIrq func extline io)[idx] =
            board[idx].hmStepMotorStopSundden)) := by
  have marked {limit} (found : board[idx].CheckFinds (io idx) limit) :
      (board[idx].markLastHitHome (io idx)).running := by
    rw [StepInfo.markLastHitHome_running]
    exact found.running
  refine ⟨forall_congr' fun limit => forall_congr' fun found => ?_, fun picked =>
    ⟨forall_congr' fun limit => forall_congr' fun found => ?_, fun limit found => ?_⟩⟩
  · rw [hmMotorLimitLogicalCheck_get, StepInfo.hmMotorLimitLogicalCheck_stops found,
      StepInfo.limitStop_configured_iff (marked found)]
    unfold StepInfo.LikeCW
    simp only [StepInfo.markLastHitHome_stopMode]
  · rw [handlerExternIrq_get picked, StepInfo.limitStop_configured_iff found.running]
  · rw [hmMotorLimitLogicalCheck_get, StepInfo.hmMotorLimitLogicalCheck_stops found,
      handlerExternIrq_get picked, StepInfo.limitStop_eq_sudden_iff (marked found),
      StepInfo.limitStop_eq_sudden_iff found.running, StepInfo.markLastHitHome_stopMode]

theorem ccw_limit_stops_suddenly :
    ∃ (board : Board) (io : Fin hmMaxAxis → Pins) (idx : Fin hmMaxAxis),
    Run StepInfo.Step (MotionBoard.hmStepMotorInit idx)
      [.setStopMode 1 0 1 1, .startFreeRun .clear 1000 (-1000)] board[idx] ∧
    board[idx].CheckFinds (io idx) .ccw ∧ board[idx].stopMode .ccw = 0 ∧
    (board.hmMotorLimitLogicalCheck io)[idx] =
      (board[idx].markLastHitHome (io idx)).hmStepMotorStopSundden ∧
    (board.hmMotorLimitLogicalCheck io)[idx] ≠
      (board[idx].markLastHitHome (io idx)).configuredStop .ccw := by
  obtain ⟨psrd, run, test⟩ := computes_fires.run_any
    (show ([Event.setStopMode 1 0 1 1, .startFreeRun .clear 1000 (-1000)].foldlM
      (playFires StepInfo.exec) (MotionBoard.hmStepMotorInit 0)).any
        (fun psrd => decide (psrd.running ∧ psrd.dir = .rdCCW ∧ psrd.stopMode .ccw = 0 ∧
          psrd.stopMode .cw = 1)) by
      decide +kernel)
  obtain ⟨running, dir, ccw, cw⟩ := of_decide_eq_true test
  let board : Board := Vector.replicate hmMaxAxis psrd
  let io : Fin hmMaxAxis → Pins := fun _ => { Pins.clear with ccw := (true, true) }
  have axis : board[(0 : Fin hmMaxAxis)] = psrd := Vector.getElem_replicate (by decide)
  have found : psrd.CheckFinds (io 0) .ccw := ⟨running, dir, rfl⟩
  have marked : (psrd.markLastHitHome (io 0)).running :=
    StepInfo.markLastHitHome_running.trans running
  have stopped : (board.hmMotorLimitLogicalCheck io)[(0 : Fin hmMaxAxis)] =
      (psrd.markLastHitHome (io 0)).hmStepMotorStopSundden := by
    rw [hmMotorLimitLogicalCheck_get, axis, StepInfo.hmMotorLimitLogicalCheck_stops found]
    rw [StepInfo.limitStop_eq_sudden_iff marked, StepInfo.markLastHitHome_stopMode, cw]
    decide
  refine ⟨board, io, 0, ?_⟩
  rw [axis]
  refine ⟨run, found, ccw, stopped, fun same => ?_⟩
  have smooth : (psrd.markLastHitHome (io 0)).configuredStop .ccw =
      (psrd.markLastHitHome (io 0)).hmStepMotorStopSmooth := by
    unfold StepInfo.configuredStop
    rw [StepInfo.markLastHitHome_stopMode, ccw]
    exact if_neg (by decide)
  exact StepInfo.stops_differ marked (stopped.symm.trans (same.trans smooth))

end Stops

end Board

end MotionBoard
