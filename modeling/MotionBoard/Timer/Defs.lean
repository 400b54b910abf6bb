import Mathlib.Data.List.Basic

/-!
# Software timers

`hm_timer.c`. A handle is the index of its slot, and the callbacks, called from the tick or passed
to `hm_msg_queue_add`, are of an arbitrary type.
-/

namespace MotionBoard

abbrev hmMaxTimer : Nat := 10

abbrev hmTimInvalidCount : UInt32 := 0xffff

def hmTimDiff (tmEarliar tmLater : UInt32) : UInt32 :=
  if tmLater ≥ tmEarliar then tmLater - tmEarliar else 0xffffffff - tmEarliar + tmLater

structure HmTimer (Func Param : Type) where
  func : Option Func
  param : Param
  period : UInt32
  ms : UInt32
  once : Bool
  bcallDirect : Bool
  deriving DecidableEq, Repr

structure Timers (Func Param : Type) where
  sTimers : List (HmTimer Func Param)
  sTimCount : UInt32
  deriving DecidableEq, Repr

/-- A timer whose time is up: its callback is called directly or passed to the message queue. -/
structure Expiry (Func Param : Type) where
  slot : Nat
  func : Func
  param : Param
  direct : Bool
  deriving DecidableEq, Repr

namespace Timers
variable {Func Param : Type}

def hmTimerInit (timers : Timers Func Param) : Timers Func Param :=
  { sTimers := timers.sTimers.map fun timer => { timer with func := none }, sTimCount := 0 }

def hmTimerRegister [DecidableEq Func] (timers : Timers Func Param) (ms : UInt32)
    (func : Option Func) (param : Param) (once bcallDirect : Bool) :
    Option Nat × Timers Func Param :=
  if timers.sTimers.any fun timer => timer.func = func ∧ timer.ms = ms then (none, timers)
  else
    match timers.sTimers.findIdx? fun timer => timer.func.isNone with
    | none => (none, timers)
    | some pret =>
        (some pret, { timers with
          sTimers := timers.sTimers.set pret ⟨func, param, ms, ms, once, bcallDirect⟩ })

def hmTimerUnregister (timers : Timers Func Param) (hand : Option Nat) : Timers Func Param :=
  match hand with
  | none => timers
  | some ptm =>
      { timers with sTimers := timers.sTimers.modify ptm fun timer => { timer with func := none } }

/-- The loop of `SysTick_Handler` from slot `idx` on: it breaks off at the first timer whose time
is up. -/
def sysTickLoop :
    List (HmTimer Func Param) → Nat → List (HmTimer Func Param) × Option (Expiry Func Param)
  | [], _ => ([], none)
  | timer :: rest, idx =>
      match timer.func with
      | none =>
          let (rest, expiry) := sysTickLoop rest (idx + 1)
          (timer :: rest, expiry)
      | some func =>
          let timer := { timer with ms := timer.ms - 1 }
          if timer.ms = 0 then
            let timer := { timer with ms := timer.period }
            let expiry := ⟨idx, func, timer.param, timer.bcallDirect⟩
            ((if timer.once then { timer with func := none } else timer) :: rest, some expiry)
          else
            let (rest, expiry) := sysTickLoop rest (idx + 1)
            (timer :: rest, expiry)

def sysTickHandler (timers : Timers Func Param) :
    Timers Func Param × Option (Expiry Func Param) :=
  let timers := { timers with sTimCount := timers.sTimCount + 1 }
  let (sTimers, expiry) := sysTickLoop timers.sTimers 0
  ({ timers with sTimers }, expiry)

def ticks (timers : Timers Func Param) : Nat → Timers Func Param × List (Expiry Func Param)
  | 0 => (timers, [])
  | n + 1 =>
      let (timers, expiries) := timers.ticks n
      let (timers, expiry) := timers.sysTickHandler
      (timers, expiries ++ expiry.toList)

end Timers

end MotionBoard
