import MotionBoard.StepMotor.Board

namespace MotionBoard

structure StopMode where
  bsudCW : UInt32
  bsudCCW : UInt32
  bsudHome : UInt32
  bTcurve : UInt8
  deriving DecidableEq, Repr

namespace StepInfo

/-- A division by a compare register of zero gives zero here. -/
def hmStepMotorGetCurrSpeed (psrd : StepInfo) : UInt32 :=
  if psrd.hmStepMotorState = .rsStop then 0
  else (psrd.hmStepFre / (psrd.ptim.ccr1.toUInt64 * 2)).toUInt32

def hmMotorGetStopMode (psrd : StepInfo) : StopMode :=
  { bsudCW := psrd.motorHwConfig.bStopImmediatelyCW
    bsudCCW := psrd.motorHwConfig.bStopImmediatelyCCW
    bsudHome := psrd.motorHwConfig.bStopImmediatelyHome
    bTcurve := if psrd.method = .tCurve then 1 else 0 }

end StepInfo

namespace Board

def ask {Answer : Type} (board : Board) (axis : UInt32) (answer : Answer)
    (get : StepInfo → Answer) : Answer :=
  if inside : axis.toNat < hmMaxAxis then get board[axis.toNat] else answer

def change (board : Board) (axis : UInt32) (put : StepInfo → StepInfo) : Board :=
  if inside : axis.toNat < hmMaxAxis then board.set axis.toNat (put board[axis.toNat]) else board

/-- `s_axis_info[axis]` without a check. -/
def axisInfo (board : Board) (axis : UInt32) : Except Halt StepInfo :=
  if inside : axis.toNat < hmMaxAxis then .ok board[axis.toNat] else .error .outOfBounds

def found (axis : UInt32) : Bool := axis.toNat < hmMaxAxis

def hmStepMotorStopSmooth (board : Board) (axis : UInt32) : Bool × Board :=
  (found axis, board.change axis StepInfo.hmStepMotorStopSmooth)

def hmStepMotorStopSundden (board : Board) (axis : UInt32) : Bool × Board :=
  (found axis, board.change axis StepInfo.hmStepMotorStopSundden)

def hmMotorEnableAxis (board : Board) (axis : UInt32) (benable : UInt32) : Bool × Board :=
  (found axis, board.change axis fun psrd => psrd.hmMotorEnableAxis (benable ≠ 0))

def hmStepMotorSetCurPos (board : Board) (axis : UInt32) (newpos : Int32) : Board :=
  board.change axis fun psrd => psrd.hmStepMotorSetCurPos newpos

def hmStepMotorSetHomeStopMode (board : Board) (axis : UInt32) (blowtriger : UInt32) : Board :=
  board.change axis fun psrd => psrd.hmStepMotorSetHomeStopMode blowtriger

def hmMotorSetStopMode (board : Board) (axis : UInt32)
    (bsudCW bsudCCW bsudHome bTcurve : UInt32) : Board :=
  board.change axis fun psrd => psrd.hmMotorSetStopMode bsudCW bsudCCW bsudHome bTcurve

def hmStepMotorGetHomeStopMode (board : Board) (axis : UInt32) : UInt32 :=
  board.ask axis 0 StepInfo.bhomeStopLowTriger

/-- `before` is what the pointers lead to, which stays for an axis that is not there. -/
def hmMotorGetStopMode (board : Board) (axis : UInt32) (before : StopMode) : StopMode :=
  board.ask axis before StepInfo.hmMotorGetStopMode

def hmStepMotorGetCurPos (board : Board) (axis : UInt32) : Int32 :=
  board.ask axis 0 StepInfo.hmStepMotorGetCurPos

def hmStepMotorGetCurrSpeed (board : Board) (axis : UInt32) : UInt32 :=
  board.ask axis 0xffffffff StepInfo.hmStepMotorGetCurrSpeed

def hmStepMotorState (board : Board) (axis : UInt32) : Except Halt RunState := do
  let psrd ← board.axisInfo axis
  .ok psrd.hmStepMotorState

def hmMotorHit (board : Board) (axis : UInt32) (io : Pins) (hit : Pins → Bool) :
    Except Halt Bool := do
  let _ ← board.axisInfo axis
  .ok (hit io)

def hmMotorHitCW (board : Board) (axis : UInt32) (io : Pins) : Except Halt Bool :=
  board.hmMotorHit axis io MotionBoard.hmMotorHitCW

def hmMotorHitCCW (board : Board) (axis : UInt32) (io : Pins) : Except Halt Bool :=
  board.hmMotorHit axis io MotionBoard.hmMotorHitCCW

def hmMotorHitHome (board : Board) (axis : UInt32) (io : Pins) : Except Halt Bool :=
  board.hmMotorHit axis io MotionBoard.hmMotorHitHome

def hmMotorIsEnable (board : Board) (axis : UInt32) : Except Halt Bool := do
  let psrd ← board.axisInfo axis
  .ok psrd.motorHwConfig.benabled

section Outside
variable {board : Board} {axis : UInt32}

theorem change_outside (outside : hmMaxAxis ≤ axis.toNat) (put : StepInfo → StepInfo) :
    board.change axis put = board :=
  dif_neg (Nat.not_lt.mpr outside)

theorem found_outside (outside : hmMaxAxis ≤ axis.toNat) : found axis = false :=
  decide_eq_false (Nat.not_lt.mpr outside)

theorem axisInfo_outside (outside : hmMaxAxis ≤ axis.toNat) :
    board.axisInfo axis = .error .outOfBounds :=
  dif_neg (Nat.not_lt.mpr outside)

end Outside

section Inside
variable {board : Board} {axis : UInt32} (inside : axis.toNat < hmMaxAxis)
include inside

theorem ask_inside {Answer : Type} (answer : Answer) (get : StepInfo → Answer) :
    board.ask axis answer get = get board[axis.toNat] :=
  dif_pos inside

theorem change_inside (put : StepInfo → StepInfo) :
    board.change axis put = board.set axis.toNat (put board[axis.toNat]) :=
  dif_pos inside

theorem axisInfo_inside : board.axisInfo axis = .ok board[axis.toNat] :=
  dif_pos inside

theorem change_change (put put' : StepInfo → StepInfo) :
    (board.change axis put).change axis put' = board.change axis fun psrd => put' (put psrd) := by
  simp only [change_inside inside, Vector.getElem_set_self, Vector.set_set]

end Inside

end Board

end MotionBoard
