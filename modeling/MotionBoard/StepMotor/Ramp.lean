import MotionBoard.StepMotor.Defs

/-!
# The ramp generator

`mysqrt` and `hm_dma_update` of `hm_step_motor.c`. Mixed `int32_t`/`uint32_t` expressions are
computed in `uint32_t` as C converts them, and a division by zero yields zero, with the dividend
as remainder.
-/

namespace MotionBoard

/-- The passes of the `do` loop of `mysqrt` for the scan bits from `q2` down; 16 of them take
`q2` from `0x40000000` to zero. -/
def mysqrtLoop : Nat → UInt32 → UInt32 → UInt32 → UInt32 × UInt32
  | 0, x, xr, _ => (x, xr)
  | n + 1, x, xr, q2 =>
      let f := xr + q2 ≤ x
      let x := if f then x - (xr + q2) else x
      let xr := xr >>> 1
      let xr := if f then xr + q2 else xr
      mysqrtLoop n x xr (q2 >>> 2)

def mysqrt (x : UInt32) : UInt32 :=
  let (x, xr) := mysqrtLoop 16 x 0 0x40000000
  if xr < x then xr + 1 else xr

namespace DmaBufInfo

def put (buf : DmaBufInfo) (value : UInt16) : Except Halt DmaBufInfo :=
  if room : buf.dmaBufLen.toNat < hmDmaBufUnitSize * hmDmaBufSize then
    .ok { buf with dmaBuf := buf.dmaBuf.set buf.dmaBufLen.toNat value,
                   dmaBufLen := buf.dmaBufLen + 1 }
  else .error .outOfBounds

def putUnit (buf : DmaBufInfo) (arr rcr ccr1 : UInt16) : Except Halt DmaBufInfo := do
  let buf ← buf.put arr
  let buf ← buf.put rcr
  buf.put ccr1

/-- How often `dma_buf_len < HM_DMA_BUF_SIZE * HM_DMA_BUF_UNIT_SIZE` lets the loop of
`hm_dma_update` run for this buffer. -/
def passes (buf : DmaBufInfo) : Nat :=
  (hmDmaBufUnitSize * hmDmaBufSize + 2 - buf.dmaBufLen.toNat) / hmDmaBufUnitSize

end DmaBufInfo

def promote (value : UInt16) : Int32 := value.toUInt32.toInt32

namespace StepInfo

/-- `2 * (int32_t)step_delay` where it meets an unsigned operand. -/
def twiceDelay (psrd : StepInfo) : UInt32 := (2 * promote psrd.stepDelay).toUInt32

def countDiv (psrd : StepInfo) : Int32 := 4 * psrd.accelCount + 1

def divide (psrd : StepInfo) (div1 div2 : Int32) : StepInfo × UInt16 :=
  ({ psrd with rest := (div1 % div2).toUInt32 },
    (promote psrd.stepDelay - div1 / div2).toUInt32.toUInt16)

/-- The start of the `rsACCEL` branch: the step is counted, and at the bend of the S curve the
remainder starts afresh. -/
def countAccel (psrd : StepInfo) : StepInfo :=
  let psrd := { psrd with accelCount := psrd.accelCount + 1 }
  let count := psrd.accelCount.toUInt32
  if psrd.method = .sCurve ∧ (psrd.n2 = count ∨ psrd.n2 + 1 = count) then { psrd with rest := 0 }
  else psrd

def accelDivs (psrd : StepInfo) : Int32 × Int32 :=
  let count := psrd.accelCount.toUInt32
  if psrd.method = .sCurve ∧ psrd.n2 > count then
    ((psrd.twiceDelay * (psrd.n2 - count) + psrd.rest).toInt32,
      (psrd.countDiv.toUInt32 * psrd.n2).toInt32)
  else ((psrd.twiceDelay + psrd.rest).toInt32, psrd.countDiv)

def DecelDue (psrd : StepInfo) (stepCount : UInt32) : Prop :=
  psrd.decelStart ≠ hmInvalidStep ∧ stepCount ≥ psrd.decelStart

instance (psrd : StepInfo) (stepCount : UInt32) : Decidable (psrd.DecelDue stepCount) := by
  unfold DecelDue
  infer_instance

def leaveAccel (psrd : StepInfo) (stepCount : UInt32) (newStepDelay : UInt16) :
    StepInfo × UInt16 :=
  if psrd.DecelDue stepCount then
    ({ psrd with accelCount := psrd.decelVal, runState := .rsDecel }, newStepDelay)
  else if newStepDelay ≤ psrd.minDelay then
    ({ psrd with lastAccelDelay := newStepDelay, rest := 0, runState := .rsRun }, psrd.minDelay)
  else (psrd, newStepDelay)

def accelDelay (psrd : StepInfo) (stepCount : UInt32) : StepInfo × UInt16 :=
  let psrd := psrd.countAccel
  let divided := psrd.divide psrd.accelDivs.1 psrd.accelDivs.2
  divided.1.leaveAccel stepCount divided.2

def runDelay (psrd : StepInfo) (stepCount : UInt32) : StepInfo × UInt16 :=
  if psrd.DecelDue stepCount then
    -- the last delay of an acceleration, if need be of an earlier motion
    ({ psrd with accelCount := psrd.decelVal, runState := .rsDecel }, psrd.lastAccelDelay)
  else (psrd, psrd.minDelay)

def decelDivs (psrd : StepInfo) : Int32 × Int32 :=
  if psrd.method = .sCurve then
    ((psrd.twiceDelay * (psrd.n2 + psrd.accelCount.toUInt32) + psrd.rest).toInt32,
      (psrd.countDiv.toUInt32 * psrd.n2).toInt32)
  else ((psrd.twiceDelay + psrd.rest).toInt32, psrd.countDiv)

def leaveDecel (psrd : StepInfo) : StepInfo :=
  if psrd.accelCount ≥ 0 then { psrd with runState := .rsStop } else psrd

def decelDelay (psrd : StepInfo) : StepInfo × UInt16 :=
  let psrd := { psrd with accelCount := psrd.accelCount + 1 }
  let divided := psrd.divide psrd.decelDivs.1 psrd.decelDivs.2
  (divided.1.leaveDecel, divided.2)

def nextDelay (psrd : StepInfo) (stepCount : UInt32) : Except Halt (StepInfo × UInt16) :=
  match psrd.runState with
  | .rsAccel => .ok (psrd.accelDelay stepCount)
  | .rsRun => .ok (psrd.runDelay stepCount)
  | .rsDecel => .ok psrd.decelDelay
  | .rsStop => .error .noPhase

def recordDelay (psrd : StepInfo) (newStepDelay : UInt16) : StepInfo :=
  let psrd := { psrd with stepDelay := newStepDelay }
  if psrd.minStepDelay > newStepDelay - 1 then { psrd with minStepDelay := newStepDelay - 1 }
  else psrd

def emitDelay (psrd : StepInfo) (buf : DmaBufInfo) (newStepDelay : UInt16) :
    Except Halt (StepInfo × DmaBufInfo) := do
  -- the unit is in the buffer before its delay is checked
  let buf ← buf.putUnit (newStepDelay - 1) 0 (newStepDelay / 2)
  if promote newStepDelay - 1 = 0 ∨ newStepDelay / 2 = 0 then .error .badDelay
  else .ok (psrd.recordDelay newStepDelay, buf)

def Exhausted (psrd : StepInfo) (stepCount : UInt32) : Prop :=
  psrd.stepsRequest ≠ hmInvalidStep ∧ stepCount ≥ psrd.stepsRequest

instance (psrd : StepInfo) (stepCount : UInt32) : Decidable (psrd.Exhausted stepCount) := by
  unfold Exhausted
  infer_instance

def countStep (psrd : StepInfo) (stepCount : UInt32) : UInt32 :=
  if psrd.stepsRequest ≠ hmInvalidStep then stepCount + 1 else stepCount

/-- At most `n` passes of the loop of `hm_dma_update`. -/
def fillLoop : Nat → StepInfo → DmaBufInfo → UInt32 →
    Except Halt (StepInfo × DmaBufInfo × UInt32)
  | 0, psrd, buf, stepCount => .ok (psrd, buf, stepCount)
  | n + 1, psrd, buf, stepCount =>
      if psrd.Exhausted stepCount then .ok (psrd, buf, stepCount)
      else do
        let stepCount := psrd.countStep stepCount
        let (psrd, newStepDelay) ← psrd.nextDelay stepCount
        let (psrd, buf) ← psrd.emitDelay buf newStepDelay
        fillLoop n psrd buf stepCount

def hmDmaUpdate (psrd : StepInfo) (i : Fin hmDmaBufBlockSz) : Except Halt StepInfo := do
  let (psrd, buf, stepCount) ←
    fillLoop psrd.dmaBuf[i].passes psrd psrd.dmaBuf[i] psrd.stepsTaken
  let psrd :=
    if psrd.stepsRequest ≠ hmInvalidStep then { psrd with stepsTaken := stepCount } else psrd
  .ok (psrd.setBuf i { buf with valid := 1 })

end StepInfo

end MotionBoard
