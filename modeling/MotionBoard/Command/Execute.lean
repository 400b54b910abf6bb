import MotionBoard.Command.Axes
import MotionBoard.Command.Request
import MotionBoard.Queue.Defs

namespace MotionBoard

abbrev hmMaxGpioOut : Nat := 12
abbrev hmMaxGpioIn : Nat := 8
abbrev swVersion : UInt16 := (2 : UInt16) <<< 8 ||| 7

inductive MsgFunc
  | hmCmdRebootCk
  deriving DecidableEq, Repr

structure DebugInfo where
  bdebugOn : UInt32
  upcb : Option (UInt32 × UInt16)
  nport : UInt16
  paddr : UInt32
  deriving DecidableEq, Repr

structure System where
  sAxisInfo : Board
  sGpioOut : Vector Bool hmMaxGpioOut
  ltError : Bool
  sDebugOff : UInt32
  sDebug : DebugInfo
  sMsgs : MsgQueues MsgFunc Unit

def System.init : System :=
  { sAxisInfo := Board.hmStepMotorInit
    sGpioOut := Vector.replicate hmMaxGpioOut false
    ltError := false
    sDebugOff := 0
    sDebug := ⟨0, none, 0, 0⟩
    sMsgs := MsgQueues.hmMsgQueueInit ⟨Vector.replicate hmMsgMax ⟨none, (), false⟩, 0, 0, 0⟩ }

structure Inputs where
  axes : Vector Pins hmMaxAxis
  gpioIn : Vector Bool hmMaxGpioIn

def Inputs.clear : Inputs := ⟨Vector.replicate hmMaxAxis .clear, Vector.replicate hmMaxGpioIn false⟩

def Inputs.io (inputs : Inputs) (axis : UInt32) : Pins := inputs.axes[axis.toNat]?.getD .clear

namespace System

def withAxes (sys : System) (board : Board) : System := { sys with sAxisInfo := board }

def hmLedAct (sys : System) (channel : Fin hmMaxAxis) (bon : UInt32) : System :=
  sys.withAxes (sys.sAxisInfo.set channel
    { sys.sAxisInfo[channel] with motor.led := bon ≠ 0 })

def hmGpioOutBit (sys : System) (bitno val : UInt32) : System :=
  { sys with sGpioOut := sys.sGpioOut.setIfInBounds bitno.toNat (val ≠ 0) }

def hmGpioGetOutBit (sys : System) (bitno : UInt32) : UInt32 :=
  match sys.sGpioOut[bitno.toNat]? with
  | some bit => if bit then 1 else 0
  | none => 0xffff

def hmGpioInBit (inputs : Inputs) (bitno : UInt32) : UInt32 :=
  match inputs.gpioIn[bitno.toNat]? with
  | some bit => if bit then 1 else 0
  | none => 0xffff

def hmUartDebugOff (sys : System) (boff : UInt32) : System := { sys with sDebugOff := boff }

/-- `DS18B20_Get_Temp`, compiled without `TMP_ENABLE`. -/
def ds18B20GetTemp : Int16 := 0

def hmCmdNetInitDebug (sys : System) (bdebugOn : UInt32) (nport : UInt16) : System :=
  { sys with sDebug :=
      if bdebugOn ≠ 0 then
        { sys.sDebug with bdebugOn, nport, upcb := some (sys.sDebug.paddr, nport) }
      else { sys.sDebug with bdebugOn, upcb := none } }

def hmMsgQueueAdd (sys : System) (func : MsgFunc) : System :=
  match sys.sMsgs.hmMsgQueueAdd (some func) () with
  | (true, sMsgs) => { sys with sMsgs }
  | (false, sMsgs) => { sys with sMsgs, ltError := true }

def sized (size : UInt8) (sys : System) (preq : HmCmdReq)
    (run : Except Halt (System × HmCmdReq)) : Except Halt (System × HmCmdReq) :=
  if preq.inputLen ≠ size then .ok (sys, preq.answer false) else run

section Sized
variable {sys : System} {preq : HmCmdReq} {size : UInt8} {run : Except Halt (System × HmCmdReq)}

theorem sized_ne (wrong : preq.inputLen ≠ size) :
    sized size sys preq run = .ok (sys, preq.answer false) :=
  if_pos wrong

theorem sized_eq (right : preq.inputLen = size) : sized size sys preq run = run :=
  if_neg (not_not.mpr right)

end Sized

section Commands
variable (sys : System) (inputs : Inputs) (preq : HmCmdReq)

def fixMove : Except Halt (System × HmCmdReq) :=
  let pinf := HmCmdFixMove.ofInput preq.input
  sized 20 sys preq do
    let (ret, board) ← sys.sAxisInfo.hmStepMotorMove pinf.axis (inputs.io pinf.axis) pinf.step
      pinf.accel pinf.decel pinf.speed.toUInt32
    .ok (sys.withAxes board, preq.answer ret)

def keepMove : Except Halt (System × HmCmdReq) :=
  let pinf := HmCmdKeepMove.ofInput preq.input
  let start :=
    if pinf.bhome ≠ 0 then Board.hmStepMotorStartHoming else Board.hmStepMotorStartFreeRun
  sized 20 sys preq do
    let (ret, board) ← start sys.sAxisInfo pinf.axis (inputs.io pinf.axis) pinf.accel pinf.speed
    .ok (sys.withAxes board, preq.answer ret)

def setPos : Except Halt (System × HmCmdReq) :=
  let pinf := HmCmdSetPos.ofInput preq.input
  -- neither the length nor the axis is checked
  .ok (sys.withAxes (sys.sAxisInfo.hmStepMotorSetCurPos pinf.axis pinf.pos), preq.answer true)

def enableAxis : Except Halt (System × HmCmdReq) :=
  let pinf := HmCmdEnableAxis.ofInput preq.input
  let (ret, board) := sys.sAxisInfo.hmMotorEnableAxis pinf.axis pinf.benable
  .ok (sys.withAxes board, preq.answer ret)

def getSystemInfo : Except Halt (System × HmCmdReq) :=
  let pinf := HmCmdGetSystemInfo.ofInput preq.input
  if pinf.bset ≠ 0 then .ok (sys.hmUartDebugOff pinf.bdebugOff, preq.answer true)
  else
    let pinf := { pinf with bdebugOff := sys.sDebugOff, ntemperature := ds18B20GetTemp }
    .ok (sys, { preq.answer true with input := pinf.store preq.input })

def stopMove : Except Halt (System × HmCmdReq) :=
  let pinf := HmCmdStopMove.ofInput preq.input
  let stop :=
    if pinf.bsmooth ≠ 0 then Board.hmStepMotorStopSmooth else Board.hmStepMotorStopSundden
  sized 8 sys preq <|
    let (ret, board) := stop sys.sAxisInfo pinf.axis
    .ok (sys.withAxes board, preq.answer ret)

def readSetting (pin : HmCmdGetAxisSetting) : HmCmdGetAxisSetting :=
  let pin :=
    if pin.flag &&& 0x01 ≠ 0 then
      { pin with bHomeTriger := sys.sAxisInfo.hmStepMotorGetHomeStopMode pin.axis }
    else pin
  let mode := sys.sAxisInfo.hmMotorGetStopMode pin.axis
    ⟨pin.bStopModeCW, pin.bStopModeCCW, pin.bStopModeHome, pin.tcurve⟩
  { pin with
    bStopModeCW := mode.bsudCW
    bStopModeCCW := mode.bsudCCW
    bStopModeHome := mode.bsudHome
    tcurve := mode.bTcurve }

/-- The part of `hmCmdGetAxisSetting` that writes, its local variables taken to be zero before
`hm_motor_get_stop_mode` sets them. -/
def writeSetting (pin : HmCmdGetAxisSetting) : Board :=
  let board := sys.sAxisInfo
  let mode := board.hmMotorGetStopMode pin.axis ⟨0, 0, 0, 0⟩
  let board :=
    if pin.flag &&& 0x01 ≠ 0 then board.hmStepMotorSetHomeStopMode pin.axis pin.bHomeTriger
    else board
  let board :=
    if pin.flag &&& 0x02 ≠ 0 then
      board.hmMotorSetStopMode pin.axis pin.bStopModeCW mode.bsudCCW mode.bsudHome
        mode.bTcurve.toUInt32
    else board
  -- from here on the source passes the counterclockwise mode for the clockwise one
  let board :=
    if pin.flag &&& 0x04 ≠ 0 then
      board.hmMotorSetStopMode pin.axis mode.bsudCCW pin.bStopModeCCW mode.bsudHome
        mode.bTcurve.toUInt32
    else board
  let board :=
    if pin.flag &&& 0x08 ≠ 0 then
      board.hmMotorSetStopMode pin.axis mode.bsudCCW mode.bsudCCW pin.bStopModeHome
        mode.bTcurve.toUInt32
    else board
  if pin.flag &&& 0x10 ≠ 0 then
    board.hmMotorSetStopMode pin.axis mode.bsudCCW mode.bsudCCW mode.bsudHome pin.tcurve.toUInt32
  else board

def getAxisSetting : Except Halt (System × HmCmdReq) :=
  let pin := HmCmdGetAxisSetting.ofInput preq.input
  sized 24 sys preq <|
    if pin.bget ≠ 0 then
      .ok (sys, { preq.answer true with input := (sys.readSetting pin).store preq.input })
    else .ok (sys.withAxes (sys.writeSetting pin), preq.answer true)

def getAxisStatus : Except Halt (System × HmCmdReq) :=
  let pin := HmCmdGetAxisStatuse.ofInput preq.input
  let board := sys.sAxisInfo
  let io := inputs.io pin.axis
  sized 16 sys preq do
    let pos := board.hmStepMotorGetCurPos pin.axis
    let speed := board.hmStepMotorGetCurrSpeed pin.axis
    let state ← board.hmStepMotorState pin.axis
    let cw ← board.hmMotorHitCW pin.axis io
    let ccw ← board.hmMotorHitCCW pin.axis io
    let home ← board.hmMotorHitHome pin.axis io
    let benabled ← board.hmMotorIsEnable pin.axis
    let axisStatus := (if state = RunState.rsStop then 0x01 else 0) |||
      (if cw then 0x02 else 0) ||| (if ccw then 0x04 else 0) ||| (if home then 0x08 else 0) |||
      (if benabled then 0x10 else 0)
    let pin := { pin with pos, speed, axisStatus }
    .ok (sys, { preq.answer true with input := pin.store preq.input })

def cmdLed : Except Halt (System × HmCmdReq) :=
  let pin := HmCmdCmdLed.ofInput preq.input
  sized 8 sys preq <|
    let sys := if pin.idx = 1 then sys.hmLedAct 0 pin.bon else sys
    let sys := if pin.idx = 2 then sys.hmLedAct 1 pin.bon else sys
    let sys := if pin.idx = 3 then sys.hmLedAct 2 pin.bon else sys
    let sys := if pin.idx = 4 then sys.hmLedAct 3 pin.bon else sys
    .ok (sys, preq.answer true)

def io : Except Halt (System × HmCmdReq) :=
  let pin := HmCmdIo.ofInput preq.input
  sized 20 sys preq <|
    let (sys, pin) :=
      if pin.bout ≠ 0 then
        if pin.bread ≠ 0 then (sys, { pin with valRet := sys.hmGpioGetOutBit pin.idx })
        else (sys.hmGpioOutBit pin.idx pin.valSet, { pin with valRet := 0 })
      else (sys, { pin with valRet := hmGpioInBit inputs pin.idx })
    .ok (sys, { preq.answer (pin.valRet ≠ 0xffff) with input := pin.store preq.input })

def getVersion : Except Halt (System × HmCmdReq) :=
  sized 2 sys preq <|
    let pin : HmGetVersion := { nversion := swVersion }
    .ok (sys, { preq.answer true with input := pin.store preq.input })

def debugOpe : Except Halt (System × HmCmdReq) :=
  let pin := HmDebugOpe.ofInput preq.input
  sized 8 sys preq <| .ok (sys.hmCmdNetInitDebug pin.bdebugOn pin.nport, preq.answer true)

def resetForLoad : Except Halt (System × HmCmdReq) :=
  .ok (sys.hmMsgQueueAdd .hmCmdRebootCk, preq.answer false)

def resetBoard : Except Halt (System × HmCmdReq) :=
  let outputs := (List.range hmMaxGpioOut).foldl
    (fun sys idx => sys.hmGpioOutBit (UInt32.ofNat idx) 0) sys
  let axes := (List.range hmMaxAxis).foldl
    (fun board idx =>
      (board.hmStepMotorStopSmooth (UInt32.ofNat idx)).2.hmStepMotorSetCurPos (UInt32.ofNat idx) 0)
    outputs.sAxisInfo
  .ok (outputs.withAxes axes, preq.answer true)

def hmCmdExcCk : Except Halt (System × HmCmdReq) :=
  match HmCmds.ofCode preq.ncmd with
  | some .hmCmdFixMove => sys.fixMove inputs preq
  | some .hmCmdKeepMove => sys.keepMove inputs preq
  | some .hmCmdSetPos => sys.setPos preq
  | some .hmCmdEnableAxis => sys.enableAxis preq
  | some .hmCmdGetSystemInfo => sys.getSystemInfo preq
  | some .hmCmdStopMove => sys.stopMove preq
  | some .hmCmdGetAxisSetting => sys.getAxisSetting preq
  | some .hmCmdGetAxisStatus => sys.getAxisStatus inputs preq
  | some .hmCmdCmdLed => sys.cmdLed preq
  | some .hmCmdIo => sys.io inputs preq
  | some .hmGetVersion => sys.getVersion preq
  | some .hmDebugOpe => sys.debugOpe preq
  | some .hmResetForLoad => sys.resetForLoad preq
  | some .hmResetBoard => sys.resetBoard preq
  | none => .ok (sys, preq.answer false)

end Commands

end System

end MotionBoard
