import MotionBoard.Command.Execute
import MotionBoard.Lib.Steady
import MotionBoard.Queue.Preempted
import MotionBoard.Timer.Boot
import MotionBoard.Timer.Delay

/-!
# The main loop

What `main` does once the timer of the network is registered, and what interrupts it: the tick, which
calls the callback of an expired timer or adds it to the message queue, and a request for a reset,
which the tick may interrupt in turn. The callbacks that the tick calls have to do with the LEDs and
the axes alone, and `hm_motor_limit_check_loop` is empty.
-/

namespace MotionBoard
open Transition

abbrev arpTmrInterval : UInt32 := 5000

abbrev LoopFunc := TimerFunc ⊕ MsgFunc

/-- Where `main` is in what it does outside of the message queue. -/
inductive LoopBody
  | starting
  | returned
  | entered (func : LoopFunc)
  | delaying (delay : Delay)
  | reset
  deriving DecidableEq, Repr

structure MainLoop where
  timers : Timers TimerFunc Unit
  sMsgs : Preempted LoopFunc Unit
  body : LoopBody
  arpTimer : UInt32

inductive LoopNote
  | expired (expiry : Expiry TimerFunc Unit)
  | queue (note : Note LoopFunc Unit)
  | netwkCk (localtime : UInt32)
  | etharpTmr
  | nvicSystemReset
  deriving DecidableEq, Repr

/-- A tick, the parts of the add that a request for a reset makes, and the parts of `main`. -/
inductive LoopEvent
  | tick
  | request
  | reserve
  | store
  | main
  deriving DecidableEq, Repr

namespace LoopEvent

def isTick (e : LoopEvent) : Bool := e = .tick

def isMain (e : LoopEvent) : Bool := e = .main

end LoopEvent

namespace MainLoop

def boot (memory : Timers TimerFunc Unit) (queue : MsgQueues LoopFunc Unit) (retries : Option Nat)
    (ticks : Nat × Nat) : MainLoop :=
  let timers := memory.hmTimerInit.ethernetConfiguration retries
  let timers := (timers.ticks ticks.1).1
  let timers := (timers.hmTimerRegister 500 (some .ledCk) () false true).2
  let timers := (timers.ticks ticks.2).1
  { timers := (timers.hmTimerRegister 1000 (some .netwkCk) () false false).2
    sMsgs := Preempted.init queue
    body := .starting
    arpTimer := 0 }

section Exec
variable (s : MainLoop)

def sysTickHandler : MainLoop × List LoopNote :=
  let (timers, expiry) := s.timers.sysTickHandler
  let s := { s with timers }
  match expiry with
  | none => (s, [])
  | some expiry =>
      if expiry.direct then (s, [.expired expiry])
      else
        let (pmsgs, note) := s.sMsgs.pmsgs.add (some (.inl expiry.func)) expiry.param
        ({ s with sMsgs.pmsgs := pmsgs }, [.expired expiry, .queue note])

def onQueue (part : QueuePart LoopFunc Unit) : Option (MainLoop × List LoopNote) :=
  (s.sMsgs.go part).map fun next => ({ s with sMsgs := next.1 }, next.2.map .queue)

def lwipPeriodicHandle (localtime : UInt32) : MainLoop × List LoopNote :=
  if localtime - s.arpTimer ≥ arpTmrInterval then
    ({ s with arpTimer := localtime }, [.netwkCk localtime, .etharpTmr])
  else (s, [.netwkCk localtime])

def runBody : LoopFunc → MainLoop × List LoopNote
  | .inl .netwkCk => ({ s with body := .returned } : MainLoop).lwipPeriodicHandle s.timers.sTimCount
  | .inl _ => ({ s with body := .returned }, [])
  | .inr .hmCmdRebootCk => ({ s with body := .delaying (s.timers.hmDelay 500) }, [])

def mainPart : Option (MainLoop × List LoopNote) :=
  match s.body with
  | .starting =>
      let (_, timers) :=
        s.timers.hmTimerRegister 100 (some .hmMotorLimitLogicalCheck) () false true
      some ({ s with timers, body := .returned }, [])
  | .returned =>
      match s.sMsgs.main with
      | .idle => s.onQueue .find
      | .found pmsg => do
          let func ← s.sMsgs.pmsgs.msgArray[pmsg].func
          ({ s with body := .entered func } : MainLoop).onQueue .invoke
      | .called _ => s.onQueue .moveRead
  | .entered func => some (s.runBody func)
  | .delaying delay =>
      match delay.loop with
      | .returned => some ({ s with body := .reset }, [.nvicSystemReset])
      | _ => some ({ s with body := .delaying (delay.read s.timers.sTimCount) }, [])
  | .reset => none

def exec (e : LoopEvent) : Option (MainLoop × List LoopNote) :=
  if s.body = .reset then none
  else
    match e with
    | .tick => some s.sysTickHandler
    -- the interrupt of a request does not preempt itself
    | .request =>
        if s.sMsgs.adds.isEmpty then s.onQueue (.test (some (.inr .hmCmdRebootCk)) ()) else none
    | .reserve => s.onQueue .reserve
    | .store => s.onQueue .store
    -- the loop waits for the interrupts
    | .main => if s.sMsgs.adds.isEmpty then s.mainPart else none

end Exec

def play (now : MainLoop × List LoopNote) (e : LoopEvent) : Option (MainLoop × List LoopNote) :=
  (now.1.exec e).map fun next => (next.1, now.2 ++ next.2)

abbrev Step (now : MainLoop × List LoopNote) (e : LoopEvent) (next : MainLoop × List LoopNote) :
    Prop :=
  play now e = some next

end MainLoop

namespace LoopNote

def message : LoopNote → Option (Note LoopFunc Unit)
  | .queue note => some note
  | _ => none

def isDue : LoopNote → Bool
  | .expired expiry => !expiry.direct
  | _ => false

def isCall : LoopNote → Bool
  | .netwkCk _ => true
  | _ => false

end LoopNote

def queued (log : List LoopNote) : List (Note LoopFunc Unit) := log.filterMap LoopNote.message

def due (log : List LoopNote) : Nat := log.countP LoopNote.isDue

def calls (log : List LoopNote) : Nat := log.countP LoopNote.isCall

def etharps (log : List LoopNote) : Nat := log.count .etharpTmr

end MotionBoard
