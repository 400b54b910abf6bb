import MotionBoard.StepMotor.Control

namespace MotionBoard
namespace StepInfo

def running (psrd : StepInfo) : Bool := psrd.axisState = .asRuning

def hitTravelLimit (psrd : StepInfo) (io : Pins) : Bool :=
  (psrd.dir = .rdCW && hmMotorHitCW io) || (psrd.dir = .rdCCW && hmMotorHitCCW io)

def hitHomeTrigger (psrd : StepInfo) (io : Pins) : Bool :=
  psrd.bdoHome && hmMotorHitHome io &&
    ((!psrd.motorHwConfig.blastHitHome && psrd.bhomeStopLowTriger = 0) ||
      psrd.bhomeStopLowTriger ≠ 0)

/-- The stop both paths make once `bdostop` is set. -/
def limitStop (psrd : StepInfo) : StepInfo :=
  if psrd.motorHwConfig.bStopImmediatelyCW ≠ 0 then psrd.hmStepMotorStopSundden
  else psrd.hmStepMotorStopSmooth

def hmMotorLimitLogicalCheck (psrd : StepInfo) (io : Pins) : StepInfo :=
  if !psrd.running then psrd
  else
    let bdostop := psrd.hitTravelLimit io || psrd.hitHomeTrigger io
    let psrd := psrd.markLastHitHome io
    if bdostop then psrd.limitStop else psrd

/-- Whether `handler_extern_irq` stops this axis for the interrupt `func` on line `extline`. -/
def externStop (psrd : StepInfo) (func : IrqHandler) (extline : UInt32) (io : Pins) : Bool :=
  let phw := psrd.motorHwConfig
  (phw.irpFunCW = func && phw.extLineCW = extline && hmMotorHitCW io &&
      (psrd.running && psrd.dir = .rdCW)) ||
    (phw.irpFunCCW = func && phw.extLineCCW = extline && hmMotorHitCCW io &&
      (psrd.running && psrd.dir = .rdCCW)) ||
    (phw.irpFunHome = func && phw.extLineHome = extline && hmMotorHitHome io &&
      (psrd.running && psrd.bdoHome))

def handlerExternIrq (psrd : StepInfo) (func : IrqHandler) (extline : UInt32) (io : Pins) :
    StepInfo :=
  if psrd.externStop func extline io then psrd.limitStop else psrd

end StepInfo

end MotionBoard
