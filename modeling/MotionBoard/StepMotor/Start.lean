import MotionBoard.StepMotor.Control

namespace MotionBoard

def timBaseFre (speed : UInt32) : UInt64 :=
  if speed ≤ 15 then 10000
  else if speed > 15 ∧ speed ≤ 10000 then hmStepFreInit
  else hmStepFreInit

def firstDelay (fre : UInt64) (accel : UInt32) : UInt16 :=
  let scaled := Binary64.mul (Binary64.ofInt (fre / 10000).toNat) (Binary64.round (676 / 1000))
  let root := Binary64.ofInt (mysqrt (200000000 / accel)).toNat
  (Binary64.toUInt32 (Binary64.mul scaled root)).toUInt16

/-- `max_s_lim` by the curve. `wide` is `(uint64_t)speed`, and `speed` its own value where it is
converted to `double`. -/
def maxSLim (method : Method) (wide : UInt64) (speed : Int) (accel : UInt32) : UInt32 :=
  match method with
  | .sCurve =>
      let bend := Binary64.round (1358695652173913 / 1000000000000000)
      let square := Binary64.mul (Binary64.mul (Binary64.ofInt wide.toNat) bend)
        (Binary64.ofInt speed)
      Binary64.toUInt32 (Binary64.div square (Binary64.ofInt accel.toNat))
  | .tCurve => (wide / 2 * wide / accel.toUInt64).toUInt32

def magnitude (amount : Int32) : Int32 := if amount < 0 then -amount else amount

namespace StepInfo

def towards (psrd : StepInfo) (amount : Int32) : StepInfo :=
  { psrd with dir := if amount < 0 then .rdCCW else .rdCW }

def blocked (psrd : StepInfo) (io : Pins) : Prop :=
  (hmMotorHitCW io ∧ psrd.dir = .rdCW) ∨ (hmMotorHitCCW io ∧ psrd.dir = .rdCCW) ∨
    (hmMotorHitHome io ∧ psrd.bdoHome ∧ psrd.bhomeStopLowTriger ≠ 0)

instance (psrd : StepInfo) (io : Pins) : Decidable (psrd.blocked io) := by
  unfold blocked
  infer_instance

def clearBufs (psrd : StepInfo) : StepInfo :=
  { psrd with
    dmaBuf := psrd.dmaBuf.map fun buf => { buf with valid := 0, dmaBufLen := 0 }
    dmaBufIdx := 0 }

def firstUnit (psrd : StepInfo) (rcr : UInt16) : Except Halt StepInfo := do
  let buf ← psrd.dmaBuf[0].putUnit (psrd.stepDelay - 1) rcr (psrd.stepDelay / 2)
  .ok { psrd.setBuf 0 buf with stepsTaken := 1 }

/-- The first unit, the rest of `dma_buf[0]`, and the loop over the buffers after it: as
`dma_buf_idx` is zero, that is `dma_buf[1]`. -/
def prefill (psrd : StepInfo) (rcr : UInt16) : Except Halt StepInfo := do
  let psrd ← psrd.firstUnit rcr
  let psrd ← psrd.hmDmaUpdate 0
  if psrd.runState ≠ .rsStop then psrd.hmDmaUpdate 1 else .ok psrd

def startPhase (psrd : StepInfo) : StepInfo :=
  if psrd.stepDelay ≤ psrd.minDelay then
    { psrd with stepDelay := psrd.minDelay, runState := .rsRun, accelCount := 0 }
  else { psrd with runState := .rsAccel, accelCount := 0 }

def launch (psrd : StepInfo) : StepInfo :=
  (psrd.hmDmaSetup true).hmTimStart true psrd.hmStepFre

def resetRun (psrd : StepInfo) (io : Pins) (speed : Int32) : StepInfo :=
  let psrd := (psrd.hmMarkAxisState .asPreparing).markLastHitHome io
  let psrd := psrd.hmMotorEnableAxis true
  let psrd : StepInfo :=
    { psrd with
      hmStepFre := timBaseFre speed.toUInt32
      stepsRequest := hmInvalidStep
      stepsTaken := hmInvalidStep
      stepsActual := hmInvalidStep
      stepsTimIrq := 0
      bstopping := false
      rest := 0 }.clearBufs
  let psrd : StepInfo := { psrd with minStepDelay := 0xffff, dmaIrqIdx := 0 }
  psrd.hmMotorSetDir (psrd.dir = RunDir.rdCW)

def planRun (psrd : StepInfo) (accel : UInt32) (speed : Int32) : StepInfo :=
  let wide := speed.toInt64.toUInt64
  let lim := maxSLim psrd.method wide speed.toInt accel
  { psrd with
    minDelay := (psrd.hmStepFre / wide).toUInt16
    stepDelay := firstDelay psrd.hmStepFre accel
    n2 := lim
    accelSteps := lim
    decelStart := hmInvalidStep }.startPhase

def hmStepMotorStartRun (psrd : StepInfo) (io : Pins) (accel : UInt32) (speed : Int32) :
    Except Halt (Bool × StepInfo) :=
  if psrd.hmStepMotorState ≠ .rsStop then .ok (false, psrd)
  else
    let psrd := psrd.towards speed
    let speed := magnitude speed
    -- a start that a switch blocks is answered with `true` all the same
    if psrd.blocked io then .ok (true, psrd)
    else do
      let psrd ← ((psrd.resetRun io speed).planRun accel speed).prefill 1
      .ok (true, psrd.launch)

def hmStepMotorStartHoming (psrd : StepInfo) (io : Pins) (accel : UInt32) (speed : Int32) :
    Except Halt (Bool × StepInfo) :=
  { psrd with bdoHome := true }.hmStepMotorStartRun io accel speed

def hmStepMotorStartFreeRun (psrd : StepInfo) (io : Pins) (accel : UInt32) (speed : Int32) :
    Except Halt (Bool × StepInfo) :=
  { psrd with bdoHome := false }.hmStepMotorStartRun io accel speed

def resetMove (psrd : StepInfo) (step : Int32) (speed : UInt32) : StepInfo :=
  let psrd := psrd.hmMotorEnableAxis true
  let psrd : StepInfo :=
    ({ psrd with
      hmStepFre := timBaseFre speed
      stepsRequest := step.toUInt32
      stepsTaken := 0
      stepsActual := 0
      stepsTimIrq := 0
      bstopping := false
      bdoHome := false }.hmMarkAxisState .asPreparing).clearBufs
  let psrd : StepInfo := { psrd with minStepDelay := 0xffff, dmaIrqIdx := 0, rest := 0 }
  psrd.hmMotorSetDir (psrd.dir = RunDir.rdCW)

def singleStep (psrd : StepInfo) : Except Halt StepInfo := do
  let psrd := { psrd with accelCount := -1, runState := .rsDecel, stepDelay := 1000 }
  let psrd ← psrd.firstUnit 1
  .ok (psrd.setBuf 0 { psrd.dmaBuf[0] with valid := 1 })

def planDecelVal (step : Int32) (maxSLim : UInt32) : Int32 :=
  let maxSLim := if maxSLim = 0 then 1 else maxSLim
  let accelLim := (step / 2).toUInt32
  let accelLim := if accelLim = 0 then 1 else accelLim
  let decelVal :=
    if accelLim ≤ maxSLim then (accelLim - step.toUInt32).toInt32 else (-maxSLim).toInt32
  if decelVal = 0 then -1 else decelVal

def planMove (psrd : StepInfo) (step : Int32) (accel speed : UInt32) : StepInfo :=
  let lim := maxSLim psrd.method speed.toUInt64 speed.toNat accel
  let decel := planDecelVal step lim
  { psrd with
    minDelay := (psrd.hmStepFre / speed.toUInt64).toUInt16
    stepDelay := firstDelay psrd.hmStepFre accel
    n2 := lim
    decelVal := decel
    decelStart := (step + decel).toUInt32 }.startPhase

def moveBufs (psrd : StepInfo) (step : Int32) (accel speed : UInt32) : Except Halt StepInfo :=
  if step = 1 then psrd.singleStep
  else if step ≠ 0 then (psrd.planMove step accel speed).prefill 0
  else .ok psrd

def hmStepMotorMove (psrd : StepInfo) (io : Pins) (step : Int32) (accel _decel speed : UInt32) :
    Except Halt (Bool × StepInfo) :=
  if psrd.hmStepMotorState ≠ .rsStop then .ok (false, psrd)
  else
    let psrd := psrd.towards step
    let step := magnitude step
    if psrd.blocked io then .ok (true, psrd)
    else do
      let psrd ← (psrd.resetMove step speed).moveBufs step accel speed
      .ok (true, psrd.launch)

end StepInfo

end MotionBoard
