import MotionBoard.StepMotor.Ramp

/-!
# Motion control of one axis

The functions of `hm_step_motor.c` on the `hm_step_info_t` that their `axis` argument selects, and
the pins of `hm_step_motor_limit_operation.c` they use. The check of `axis` itself, and what the
functions do before it, are in `MotionBoard.StepMotor.Board`. Debug prints are left out.
-/

namespace MotionBoard

section Pins

def hmMotorHitCW (io : Pins) : Bool := io.cw.1 && io.cw.2

def hmMotorHitCCW (io : Pins) : Bool := io.ccw.1 && io.ccw.2

def hmMotorHitHome (io : Pins) : Bool := io.home.1 && io.home.2

end Pins

namespace DmaChannel

/-- A write to `CNDTR`, which the hardware ignores while the channel is enabled. -/
def writeCndtr (pdma : DmaChannel) (count : UInt16) : DmaChannel :=
  if pdma.enabled then pdma else { pdma with cndtr := count }

def dmaCmd (pdma : DmaChannel) (newState : Bool) : DmaChannel :=
  if newState && !pdma.enabled then { pdma with enabled := true, reload := pdma.cndtr }
  else { pdma with enabled := newState }

end DmaChannel

namespace StepInfo

def hmMarkAxisState (psrd : StepInfo) (e : AxisState) : StepInfo := { psrd with axisState := e }

def hmStepMotorState (psrd : StepInfo) : RunState :=
  if psrd.axisState ≠ .asStoped then .rsRun else .rsStop

def hmMotorEnableAxis (psrd : StepInfo) (benable : Bool) : StepInfo :=
  if benable && !psrd.motorHwConfig.benabled then
    { psrd with motor.enaPin := false, motorHwConfig.benabled := true }
  else if !benable && psrd.motorHwConfig.benabled then
    { psrd with motor.enaPin := true, motorHwConfig.benabled := false }
  else psrd

def markLastHitHome (psrd : StepInfo) (io : Pins) : StepInfo :=
  if psrd.bdoHome then { psrd with motorHwConfig.blastHitHome := hmMotorHitHome io } else psrd

def hmMotorSetDir (psrd : StepInfo) (bCW : Bool) : StepInfo := { psrd with motor.dirPin := bCW }

def timCmd (psrd : StepInfo) (newState : Bool) : StepInfo :=
  { psrd with ptim.enabled := newState }

def hmTimPauseResume (psrd : StepInfo) (bpause : Bool) : StepInfo :=
  if bpause then { psrd with pdma := psrd.pdma.dmaCmd false }.timCmd false
  else psrd.timCmd true

def hmTimStart (psrd : StepInfo) (benable : Bool) (fre : UInt64) : StepInfo :=
  if benable then
    -- the other way round than in a unit of the buffers
    let psrd := { psrd with ptim.ccr1 := psrd.stepDelay - 1, ptim.arr := psrd.stepDelay / 2 }
    let psrd :=
      if fre ≠ 0 then { psrd with ptim.psc := (systemCoreClock / fre).toUInt16 - 1 } else psrd
    { psrd.timCmd true with motor.led := true }.hmMarkAxisState .asRuning
  else
    { psrd.timCmd false with motor.led := false, bdoHome := false }.hmMarkAxisState .asStoped

def hmDmaSetup (psrd : StepInfo) (benable : Bool) : StepInfo :=
  let pdmaBuf := psrd.curBuf
  let pdma := psrd.pdma.writeCndtr pdmaBuf.dmaBufLen
  let pdma := { pdma with cmar := psrd.dmaBufIdx }.dmaCmd benable
  { psrd with pdma :=
      if benable then
        { pdma with handed := pdma.handed + pdmaBuf.dmaBufLen.toNat / hmDmaBufUnitSize }
      else pdma }

def movePos (psrd : StepInfo) (steps : UInt16) : Int32 :=
  if psrd.dir = .rdCW then psrd.pos + promote steps else psrd.pos - promote steps

def npassed (psrd : StepInfo) : UInt16 :=
  ((promote psrd.curBuf.dmaBufLen - promote psrd.pdma.cndtr) / 3).toUInt32.toUInt16

def hmDmaFillNextBuf (psrd : StepInfo) : Except Halt StepInfo :=
  if psrd.nextBuf.valid = 0 then do
    let psrd := psrd.setBuf (psrd.dmaBufIdx + 1) { psrd.nextBuf with dmaBufLen := 0 }
    let psrd ← psrd.hmDmaUpdate (psrd.dmaBufIdx + 1)
    .ok { psrd with dmaFill := psrd.dmaFill + 1 }
  else .ok psrd

def completeBuf (psrd : StepInfo) : StepInfo :=
  let stepDma := psrd.curBuf.dmaBufLen / 3
  let psrd := { psrd with pos := psrd.movePos stepDma }
  let psrd := psrd.setBuf psrd.dmaBufIdx { psrd.curBuf with valid := 0 }
  { psrd with stepsActual := psrd.stepsActual + stepDma.toUInt32 }

def switchBuf (psrd : StepInfo) : StepInfo :=
  let psrd := { psrd with dmaBufIdx := psrd.dmaBufIdx + 1 }
  ((psrd.hmTimPauseResume true).hmDmaSetup true).hmTimPauseResume false

def finishMotion (psrd : StepInfo) : StepInfo :=
  ({ psrd with bstopping := false }.hmTimStart false 0).hmDmaSetup false

def countIrq (psrd : StepInfo) : StepInfo := { psrd with dmaIrqIdx := psrd.dmaIrqIdx + 1 }

def hmDmaCk (psrd : StepInfo) : Except Halt StepInfo := do
  let psrd := psrd.completeBuf
  -- whether the axis was stopped meanwhile is not asked
  let psrd ←
    if psrd.stepsActual < psrd.stepsRequest ∨ psrd.stepsRequest = hmInvalidStep then
      if psrd.nextBuf.valid = 0 then .error .nextInvalid
      else .ok psrd.switchBuf
    else .ok psrd.finishMotion
  .ok psrd.countIrq

/-- The `DMA1_ChannelX_IRQHandler` of the axis. -/
def dmaIrqHandler (psrd : StepInfo) : Except Halt StepInfo := do
  let psrd ←
    if psrd.pdma.htif then do
      let psrd ← psrd.hmDmaFillNextBuf
      .ok { psrd with pdma.htif := false }
    else .ok psrd
  if psrd.pdma.tcif then do
    let psrd ← psrd.hmDmaCk
    .ok { psrd with pdma.tcif := false }
  else .ok psrd

def hmStepMotorStopSmooth (psrd : StepInfo) : StepInfo :=
  if psrd.hmStepMotorState = .rsStop ∨ psrd.bstopping then psrd
  else
    { psrd with
      bstopping := true
      rest := 0
      stepsRequest := 100
      stepsTaken := 0
      stepsActual := 0
      runState := .rsDecel
      accelCount := -100 }

def hmStepMotorStopSundden (psrd : StepInfo) : StepInfo :=
  let psrd := { psrd with bstopping := false }
  let psrd := psrd.hmDmaSetup false
  let psrd := psrd.hmTimStart false 0
  -- the enabled channel has kept its count, which `npassed` reads
  { psrd with pos := psrd.movePos psrd.npassed }

def hmStepMotorGetCurPos (psrd : StepInfo) : Int32 :=
  if psrd.hmStepMotorState = .rsStop then psrd.pos else psrd.movePos psrd.npassed

def hmStepMotorSetCurPos (psrd : StepInfo) (newpos : Int32) : StepInfo :=
  { psrd with pos := newpos }

def hmStepMotorSetHomeStopMode (psrd : StepInfo) (blowtriger : UInt32) : StepInfo :=
  { psrd with bhomeStopLowTriger := blowtriger }

def hmStepMotorSetAxisCurve (psrd : StepInfo) (e : Method) : StepInfo :=
  if psrd.hmStepMotorState ≠ .rsStop then psrd else { psrd with method := e }

def hmMotorSetStopMode (psrd : StepInfo) (bsudCW bsudCCW bsudHome bTcurve : UInt32) : StepInfo :=
  { psrd with
    motorHwConfig.bStopImmediatelyCW := bsudCW
    motorHwConfig.bStopImmediatelyCCW := bsudCCW
    motorHwConfig.bStopImmediatelyHome := bsudHome
    method := if bTcurve ≠ 0 then .tCurve else .sCurve }

end StepInfo

end MotionBoard
