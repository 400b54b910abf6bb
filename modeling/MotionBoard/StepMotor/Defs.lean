import Mathlib.Data.Fintype.Basic
import MotionBoard.Lib.Binary64
import MotionBoard.Lib.Index

/-!
# The state of one axis

`hm_step_info_t` of `hm_step_motor_defs.h` with its `hm_step_motor_hw_config_t`, together with the
registers its `ptim` and `pdma` pointers and its pins lead to. Fields no modelled function reads
(ports, clock masks, `steps_to_stop`, `stop_accel`) are left out. The `bool` of `hm_types.h` is
`unsigned int`: it is `Bool` where the firmware stores only `true` and `false`, and `UInt32` in the
settings, which take any value.
-/

namespace MotionBoard

abbrev hmMaxAxis : Nat := 4
abbrev hmDmaBufSize : Nat := 100
abbrev hmDmaBufUnitSize : Nat := 3
abbrev hmDmaBufBlockSz : Nat := 2
abbrev hmStepFreInit : UInt64 := 1000000
abbrev hmInvalidStep : UInt32 := 0xFFFFFFFF
abbrev systemCoreClock : UInt64 := 72000000

instance neZero_hmMaxAxis : NeZero hmMaxAxis := ⟨by decide⟩

instance neZero_hmDmaBufBlockSz : NeZero hmDmaBufBlockSz := ⟨by decide⟩

inductive RunState
  | rsStop | rsAccel | rsDecel | rsRun
  deriving DecidableEq, Repr

inductive AxisState
  | asPreparing | asStoped | asRuning
  deriving DecidableEq, Repr

inductive RunDir
  | rdCW | rdCCW
  deriving DecidableEq, Repr

inductive Method
  | tCurve | sCurve
  deriving DecidableEq, Repr

/-- The ways the firmware stops for good: the `while(1)` loops, and an access outside an array. -/
inductive Halt
  /-- the check of `new_step_delay` at the end of the loop of `hm_dma_update` -/
  | badDelay
  /-- the last `else` branch of `hm_dma_update` -/
  | noPhase
  /-- `hm_dma_ck` finds the next buffer not valid -/
  | nextInvalid
  /-- an index past the end of `dma_buf` or `s_axis_info` -/
  | outOfBounds
  deriving DecidableEq, Repr

structure DmaBufInfo where
  dmaBuf : Vector UInt16 (hmDmaBufUnitSize * hmDmaBufSize)
  dmaBufLen : UInt16
  valid : UInt16
  deriving DecidableEq

structure Tim where
  enabled : Bool
  arr : UInt16
  rcr : UInt16
  ccr1 : UInt16
  psc : UInt16
  deriving DecidableEq, Repr

/-- A DMA channel. `reload` is the count it was last enabled with, which decides when half of the
transfer is over; `handed` and `consumed` are the units of all transfers it was enabled for and
the units it has moved to the timer so far. -/
structure DmaChannel where
  enabled : Bool
  cndtr : UInt16
  cmar : Fin hmDmaBufBlockSz
  reload : UInt16
  htif : Bool
  tcif : Bool
  handed : Nat
  consumed : Nat
  deriving DecidableEq, Repr

/-- The driver pins of an axis. `shaft` counts the units taken by the timer, by the direction pin. -/
structure Motor where
  dirPin : Bool
  enaPin : Bool
  led : Bool
  shaft : Int
  deriving DecidableEq, Repr

inductive IrqHandler
  | exti0 | exti1 | exti2 | exti3 | exti4 | exti9_5 | exti15_10
  deriving DecidableEq, Repr

structure HwConfig where
  irpFunCW : IrqHandler
  irpFunCCW : IrqHandler
  irpFunHome : IrqHandler
  extLineCW : UInt32
  extLineCCW : UInt32
  extLineHome : UInt32
  benabled : Bool
  bStopImmediatelyCW : UInt32
  bStopImmediatelyCCW : UInt32
  bStopImmediatelyHome : UInt32
  blastHitHome : Bool
  deriving DecidableEq, Repr

structure StepInfo where
  hmStepFre : UInt64
  motorHwConfig : HwConfig
  method : Method
  ptim : Tim
  pdma : DmaChannel
  motor : Motor
  runState : RunState
  dir : RunDir
  axisState : AxisState
  bstopping : Bool
  bdoHome : Bool
  bhomeStopLowTriger : UInt32
  n2 : UInt32
  idx : UInt32
  stepsRequest : UInt32
  stepsTaken : UInt32
  stepsActual : UInt32
  stepsTimIrq : UInt32
  dmaIrqIdx : UInt32
  pos : Int32
  accelSteps : UInt32
  decelStart : UInt32
  decelVal : Int32
  accelCount : Int32
  rest : UInt32
  lastAccelDelay : UInt16
  minDelay : UInt16
  stepDelay : UInt16
  minStepDelay : UInt16
  dmaFill : UInt16
  dmaBuf : Vector DmaBufInfo hmDmaBufBlockSz
  dmaBufIdx : Fin hmDmaBufBlockSz
  deriving DecidableEq

/-- The limit and home switches of an axis: what the two reads of each pin give, `true` for
`HM_SENSE_HIT`. -/
structure Pins where
  cw : Bool × Bool
  ccw : Bool × Bool
  home : Bool × Bool
  deriving DecidableEq, Repr

def Pins.clear : Pins := ⟨(false, false), (false, false), (false, false)⟩

def Pins.atHome : Pins := { Pins.clear with home := (true, true) }

namespace StepInfo

def curBuf (psrd : StepInfo) : DmaBufInfo := psrd.dmaBuf[psrd.dmaBufIdx]

def nextBuf (psrd : StepInfo) : DmaBufInfo := psrd.dmaBuf[psrd.dmaBufIdx + 1]

def setBuf (psrd : StepInfo) (i : Fin hmDmaBufBlockSz) (buf : DmaBufInfo) : StepInfo :=
  { psrd with dmaBuf := psrd.dmaBuf.set i buf }

section Buffers
variable (psrd : StepInfo) (i : Fin hmDmaBufBlockSz) (buf : DmaBufInfo)

@[simp] theorem succ_succ_idx : i + 1 + 1 = i := by
  revert i
  decide

theorem succ_idx_ne : i + 1 ≠ i := by
  revert i
  decide

@[simp] theorem setBuf_get : (psrd.setBuf i buf).dmaBuf[i] = buf := by
  simp [setBuf]

theorem setBuf_get_ne {j : Fin hmDmaBufBlockSz} (ne : i ≠ j) :
    (psrd.setBuf i buf).dmaBuf[j] = psrd.dmaBuf[j] := by
  have apart : (i : Nat) ≠ j := fun same => ne (Fin.ext same)
  simp [setBuf, apart]

@[simp] theorem setBuf_dmaBufIdx : (psrd.setBuf i buf).dmaBufIdx = psrd.dmaBufIdx := rfl

@[simp] theorem curBuf_setBuf_cur : (psrd.setBuf psrd.dmaBufIdx buf).curBuf = buf :=
  psrd.setBuf_get _ buf

@[simp] theorem nextBuf_setBuf_cur :
    (psrd.setBuf psrd.dmaBufIdx buf).nextBuf = psrd.nextBuf :=
  psrd.setBuf_get_ne _ buf (succ_idx_ne _).symm

@[simp] theorem curBuf_setBuf_next :
    (psrd.setBuf (psrd.dmaBufIdx + 1) buf).curBuf = psrd.curBuf :=
  psrd.setBuf_get_ne _ buf (succ_idx_ne _)

@[simp] theorem nextBuf_setBuf_next : (psrd.setBuf (psrd.dmaBufIdx + 1) buf).nextBuf = buf :=
  psrd.setBuf_get _ buf

end Buffers

end StepInfo

end MotionBoard
