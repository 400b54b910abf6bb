import MotionBoard.Lib.Except
import MotionBoard.Lib.Transition
import MotionBoard.StepMotor.Start
import MotionBoard.StepMotor.Limit

/-!
# The axis as a transition system

The events are the timer updates of the hardware, the two halves of the DMA interrupt handler, and
the calls of the commands, the limit checks and the settings. Each is taken as a whole: they all run
at one preemption level.
-/

namespace MotionBoard
open Transition

inductive Event
  | burst
  | halfTransfer
  | transferComplete
  | move (io : Pins) (step : Int32) (accel decel speed : UInt32)
  | startHoming (io : Pins) (accel : UInt32) (speed : Int32)
  | startFreeRun (io : Pins) (accel : UInt32) (speed : Int32)
  | startRun (io : Pins) (accel : UInt32) (speed : Int32)
  | stopSmooth
  | stopSundden
  | limitCheck (io : Pins)
  | externIrq (func : IrqHandler) (extline : UInt32) (io : Pins)
  | setCurPos (newpos : Int32)
  | setHomeStopMode (blowtriger : UInt32)
  | setStopMode (bsudCW bsudCCW bsudHome bTcurve : UInt32)
  | setAxisCurve (e : Method)
  | enableAxis (benable : Bool)
  deriving DecidableEq, Repr

def Event.dma : Event → Bool
  | .burst | .halfTransfer | .transferComplete => true
  | _ => false

def Event.places : Event → Bool
  | .setCurPos _ => true
  | _ => false

def DmaBufInfo.halfword (buf : DmaBufInfo) (i : Nat) : UInt16 := buf.dmaBuf[i]?.getD 0

/-- A DMA channel after moving one unit. The half-transfer flag is raised when the count passes
half of what the channel was enabled with, the transfer-complete flag when it arrives at zero. -/
def DmaChannel.moveUnit (pdma : DmaChannel) : DmaChannel :=
  let left := pdma.cndtr - 3
  let half := 2 * left.toNat ≤ pdma.reload.toNat ∧ pdma.reload.toNat < 2 * pdma.cndtr.toNat
  { pdma with
    cndtr := left
    htif := pdma.htif || half
    tcif := pdma.tcif || left = 0
    consumed := pdma.consumed + 1 }

namespace StepInfo

def playing (psrd : StepInfo) : Bool :=
  psrd.ptim.enabled && psrd.pdma.enabled && psrd.pdma.cndtr ≠ 0

/-- A timer update takes the next unit. `shaft` counts the unit as one step, which it is but for a
unit with a repetition word of one on TIM1: its second period is no update and is not counted. -/
def burst (psrd : StepInfo) : StepInfo :=
  if psrd.playing then
    let buf := psrd.dmaBuf[psrd.pdma.cmar]
    let i := psrd.pdma.reload.toNat - psrd.pdma.cndtr.toNat
    { psrd with
      ptim.arr := buf.halfword i
      ptim.rcr := buf.halfword (i + 1)
      ptim.ccr1 := buf.halfword (i + 2)
      pdma := psrd.pdma.moveUnit
      motor.shaft := psrd.motor.shaft + if psrd.motor.dirPin then 1 else -1 }
  else psrd

def serveHalf (psrd : StepInfo) : Except Halt StepInfo := do
  let psrd ← psrd.hmDmaFillNextBuf
  .ok { psrd with pdma.htif := false }

def serveComplete (psrd : StepInfo) : Except Halt StepInfo := do
  let psrd ← psrd.hmDmaCk
  .ok { psrd with pdma.tcif := false }

def exec (psrd : StepInfo) : Event → Except Halt StepInfo
  | .burst => .ok psrd.burst
  | .halfTransfer => psrd.serveHalf
  | .transferComplete => psrd.serveComplete
  | .move io step accel decel speed =>
      (psrd.hmStepMotorMove io step accel decel speed).map Prod.snd
  | .startHoming io accel speed => (psrd.hmStepMotorStartHoming io accel speed).map Prod.snd
  | .startFreeRun io accel speed => (psrd.hmStepMotorStartFreeRun io accel speed).map Prod.snd
  | .startRun io accel speed => (psrd.hmStepMotorStartRun io accel speed).map Prod.snd
  | .stopSmooth => .ok psrd.hmStepMotorStopSmooth
  | .stopSundden => .ok psrd.hmStepMotorStopSundden
  | .limitCheck io => .ok (psrd.hmMotorLimitLogicalCheck io)
  | .externIrq func extline io => .ok (psrd.handlerExternIrq func extline io)
  | .setCurPos newpos => .ok (psrd.hmStepMotorSetCurPos newpos)
  | .setHomeStopMode blowtriger => .ok (psrd.hmStepMotorSetHomeStopMode blowtriger)
  | .setStopMode bsudCW bsudCCW bsudHome bTcurve =>
      .ok (psrd.hmMotorSetStopMode bsudCW bsudCCW bsudHome bTcurve)
  | .setAxisCurve e => .ok (psrd.hmStepMotorSetAxisCurve e)
  | .enableAxis benable => .ok (psrd.hmMotorEnableAxis benable)

def starts (psrd : StepInfo) : Event → Bool
  | .move io step _ _ _ => psrd.axisState = .asStoped && !(psrd.towards step).blocked io
  | .startHoming io _ speed =>
      psrd.axisState = .asStoped && !({ psrd with bdoHome := true }.towards speed).blocked io
  | .startFreeRun io _ speed =>
      psrd.axisState = .asStoped && !({ psrd with bdoHome := false }.towards speed).blocked io
  | .startRun io _ speed => psrd.axisState = .asStoped && !(psrd.towards speed).blocked io
  | _ => false

def limitStops (psrd : StepInfo) : Event → Bool
  | .limitCheck io => psrd.running && (psrd.hitTravelLimit io || psrd.hitHomeTrigger io)
  | .externIrq func extline io => psrd.externStop func extline io
  | _ => false

def suddenStops (psrd : StepInfo) (e : Event) : Bool :=
  e = .stopSundden || (psrd.limitStops e && psrd.motorHwConfig.bStopImmediatelyCW ≠ 0)

def smoothStops (psrd : StepInfo) (e : Event) : Bool :=
  (e = .stopSmooth || (psrd.limitStops e && psrd.motorHwConfig.bStopImmediatelyCW = 0)) &&
    psrd.axisState ≠ .asStoped && !psrd.bstopping

def acts (psrd : StepInfo) (e : Event) : Bool :=
  psrd.starts e || psrd.suddenStops e || psrd.smoothStops e

/-- The interrupt halves are served only when their flag is raised, and the half transfer of a
buffer first. -/
def Raised (psrd : StepInfo) : Event → Prop
  | .halfTransfer => psrd.pdma.htif
  | .transferComplete => psrd.pdma.tcif ∧ !psrd.pdma.htif
  | _ => True

instance (psrd : StepInfo) (e : Event) : Decidable (psrd.Raised e) :=
  decidable_of_iff ((e = .halfTransfer → psrd.pdma.htif) ∧
      (e = .transferComplete → psrd.pdma.tcif ∧ !psrd.pdma.htif)) (by
    cases e <;> simp [Raised])

abbrev Step : StepInfo → Event → StepInfo → Prop := Fires exec

abbrev HwStep : StepInfo → Event → StepInfo → Prop := Guarded Raised Step

section Handler
variable {psrd t : StepInfo}

theorem dmaIrqHandler_run (served : psrd.dmaIrqHandler = .ok t) :
    ∃ es, (∀ e ∈ es, e = .halfTransfer ∨ e = .transferComplete) ∧ Run HwStep psrd es t := by
  -- what is left to do after the half transfer
  have completes {p : StepInfo} (served : p.pdma.htif = false)
      (rest : (if p.pdma.tcif then p.serveComplete else .ok p) = .ok t) :
      ∃ es, (∀ e ∈ es, e = .halfTransfer ∨ e = .transferComplete) ∧ Run HwStep p es t := by
    split at rest
    · rename_i raised
      exact ⟨[.transferComplete], by simp, .cons ⟨⟨raised, by simp [served]⟩, rest⟩ .nil⟩
    · cases rest
      exact ⟨[], by simp, .nil⟩
  unfold dmaIrqHandler at served
  split at served
  · rename_i raised
    obtain ⟨p, fill, rest⟩ := Except.ok_of_bind served
    have half : psrd.serveHalf = .ok { p with pdma.htif := false } := by
      unfold serveHalf
      rw [fill]
      rfl
    obtain ⟨es, events, run⟩ := completes rfl rest
    exact ⟨.halfTransfer :: es, by simpa using events, .cons ⟨raised, half⟩ run⟩
  · rename_i clear
    exact completes (by simpa using clear) served

end Handler

end StepInfo

def extiLine (n : Nat) : UInt32 := UInt32.ofNat (2 ^ n)

/-- `hm_motor_hw_limit_config` and the `hm_motor_enable_axis` of `hm_motor_hw_limit_init`. -/
def hmMotorHwLimitConfig (idx : Fin hmMaxAxis) : HwConfig :=
  let lines : IrqHandler × IrqHandler × IrqHandler × Nat :=
    match idx with
    | 0 => (.exti0, .exti1, .exti2, 0)
    | 1 => (.exti3, .exti4, .exti9_5, 3)
    | 2 => (.exti9_5, .exti9_5, .exti9_5, 6)
    | 3 => (.exti15_10, .exti15_10, .exti15_10, 10)
  { irpFunCW := lines.1, irpFunCCW := lines.2.1, irpFunHome := lines.2.2.1
    extLineCW := extiLine lines.2.2.2
    extLineCCW := extiLine (lines.2.2.2 + 1)
    extLineHome := extiLine (lines.2.2.2 + 2)
    benabled := true
    bStopImmediatelyCW := 1, bStopImmediatelyCCW := 1, bStopImmediatelyHome := 1
    blastHitHome := false }

def hmStepMotorInit (idx : Fin hmMaxAxis) : StepInfo :=
  { hmStepFre := hmStepFreInit
    motorHwConfig := hmMotorHwLimitConfig idx
    method := .tCurve
    ptim := ⟨false, 0xffff, 0, 0xfff, 71⟩
    pdma := ⟨false, 300, 0, 0, false, false, 0, 0⟩
    motor := ⟨false, false, false, 0⟩
    runState := .rsStop, dir := .rdCW, axisState := .asStoped
    bstopping := false, bdoHome := false, bhomeStopLowTriger := 1
    n2 := 0, idx := UInt32.ofNat idx
    stepsRequest := 0, stepsTaken := 0, stepsActual := 0, stepsTimIrq := 0, dmaIrqIdx := 0
    pos := 0, accelSteps := 0, decelStart := 0, decelVal := 0, accelCount := 0, rest := 0
    lastAccelDelay := 0, minDelay := 0, stepDelay := 0, minStepDelay := 0, dmaFill := 0
    dmaBuf := Vector.replicate 2 ⟨Vector.replicate 300 0, 0, 0⟩
    dmaBufIdx := 0 }

end MotionBoard
