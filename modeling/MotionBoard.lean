import MotionBoard.StepMotor.FiniteMove
import MotionBoard.StepMotor.Position
import MotionBoard.StepMotor.SmoothStop
import MotionBoard.StepMotor.StopDistance
import MotionBoard.StepMotor.SuddenStop
import MotionBoard.StepMotor.Arming
import MotionBoard.StepMotor.HomeStop
import MotionBoard.StepMotor.Board
import MotionBoard.StepMotor.LimitStop
import MotionBoard.StepMotor.Hang
import MotionBoard.StepMotor.CurveRamp
import MotionBoard.StepMotor.SpeedLimit
import MotionBoard.StepMotor.Acceleration
import MotionBoard.Queue.Preempted
import MotionBoard.Timer.Period
import MotionBoard.Command.Checked
import MotionBoard.Command.Place
import MotionBoard.Command.StartRequest
import MotionBoard.Command.Curve
import MotionBoard.Network.Honest
import MotionBoard.Network.Service
import MotionBoard.Command.Separate
import MotionBoard.Timer.Register
import MotionBoard.Timer.Delay
import MotionBoard.Uart.Framing
import MotionBoard.Uart.Items
import MotionBoard.Network.DebugPrint
import MotionBoard.StepMotor.Formed
import MotionBoard.StepMotor.FirstPeriod
import MotionBoard.StepMotor.Duration
import MotionBoard.StepMotor.Played
import MotionBoard.StepMotor.Watch
import MotionBoard.StepMotor.Wiring
import MotionBoard.StepMotor.Extern
import MotionBoard.Network.Outputs
import MotionBoard.Network.Session
import MotionBoard.Main.Arp
