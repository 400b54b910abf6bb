import Mathlib.Algebra.NeZero
import Mathlib.Data.Fintype.Basic
import MotionBoard.Lib.Index

/-!
# The message queue

`hm_msg_queue.c`: interrupt handlers add callbacks, the main loop calls them. The indices of the
ring are counted modulo `HM_MSG_MAX`. Callbacks are an arbitrary type, and what one does to the
queue is the list of the adds it makes. The error LED that a refused add lights is left to the
caller.
-/

namespace MotionBoard

abbrev hmMsgMax : Nat := 80

instance neZero_hmMsgMax : NeZero hmMsgMax := ⟨by decide⟩

structure MsgQueue (Func Param : Type) where
  func : Option Func
  param : Param
  busing : Bool

structure MsgQueues (Func Param : Type) where
  msgArray : Vector (MsgQueue Func Param) hmMsgMax
  nwrite : Fin hmMsgMax
  nread : Fin hmMsgMax
  nmin : UInt32

/-- What happens to the messages: `finished` is the return of the callback that was invoked. -/
inductive Note (Func Param : Type)
  | accepted (func : Func) (param : Param)
  | refused (func : Option Func) (param : Param)
  | invoked (func : Func) (param : Param)
  | finished
  deriving DecidableEq, Repr

/-- The ways the queue stops for good: a call of a null pointer, and the `while(1)` of
`msg_move_next_read`. -/
inductive QueueHalt
  | nullCall
  | wrongRead
  deriving DecidableEq, Repr

namespace MsgQueues
variable {Func Param : Type}

def hmMsgQueueInit (pmsgs : MsgQueues Func Param) : MsgQueues Func Param :=
  { msgArray := pmsgs.msgArray.map fun pmsg => { pmsg with func := none, busing := false }
    nwrite := 0
    nread := 0
    nmin := UInt32.ofNat hmMsgMax }

def ismsgFull (pmsgs : MsgQueues Func Param) : Bool := pmsgs.nwrite + 1 = pmsgs.nread

def ismsgEmpty (pmsgs : MsgQueues Func Param) : Bool := pmsgs.nwrite = pmsgs.nread

def msgRemaining (pmsgs : MsgQueues Func Param) : UInt32 :=
  let nwrite := UInt32.ofNat pmsgs.nwrite
  let nread := UInt32.ofNat pmsgs.nread
  if nwrite < nread then nread - nwrite else UInt32.ofNat hmMsgMax - nwrite + nread

def msgGetMoveNextWrite (pmsgs : MsgQueues Func Param) :
    Option (Fin hmMsgMax × MsgQueues Func Param) :=
  if pmsgs.ismsgFull then none
  else
    let pret := pmsgs.nwrite
    some (pret, { pmsgs with
      msgArray := pmsgs.msgArray.set pret { pmsgs.msgArray[pret] with busing := true }
      nwrite := pmsgs.nwrite + 1 })

def hmMsgQueueAdd (pmsgs : MsgQueues Func Param) (func : Option Func) (param : Param) :
    Bool × MsgQueues Func Param :=
  match func, pmsgs.msgGetMoveNextWrite with
  | none, _ => (false, pmsgs)
  | _, none => (false, pmsgs)
  | some func, some (pmsg, pmsgs) =>
      let pmsgs :=
        if pmsgs.nmin > pmsgs.msgRemaining then { pmsgs with nmin := pmsgs.msgRemaining }
        else pmsgs
      (true, { pmsgs with
        msgArray := pmsgs.msgArray.set pmsg { pmsgs.msgArray[pmsg] with func, param } })

def msgGetRead (pmsgs : MsgQueues Func Param) : Option (Fin hmMsgMax) :=
  if !pmsgs.ismsgEmpty then some pmsgs.nread else none

def msgMoveNextRead (pmsgs : MsgQueues Func Param) (pmsg : Fin hmMsgMax) :
    Except QueueHalt (MsgQueues Func Param) :=
  if pmsg ≠ pmsgs.nread then .error .wrongRead
  else .ok { pmsgs with
    msgArray := pmsgs.msgArray.set pmsg { pmsgs.msgArray[pmsg] with busing := false }
    nread := pmsgs.nread + 1 }

def add (pmsgs : MsgQueues Func Param) (func : Option Func) (param : Param) :
    MsgQueues Func Param × Note Func Param :=
  match func, pmsgs.hmMsgQueueAdd func param with
  | some func, (true, pmsgs) => (pmsgs, .accepted func param)
  | func, (_, pmsgs) => (pmsgs, .refused func param)

def addAll (pmsgs : MsgQueues Func Param) :
    List (Option Func × Param) → MsgQueues Func Param × List (Note Func Param)
  | [] => (pmsgs, [])
  | (func, param) :: adds =>
      let (pmsgs, note) := pmsgs.add func param
      let (pmsgs, notes) := pmsgs.addAll adds
      (pmsgs, note :: notes)

/-- `hm_msg_queue_main`, the callback it invokes making `adds`. -/
def hmMsgQueueMain (pmsgs : MsgQueues Func Param) (adds : List (Option Func × Param)) :
    Except QueueHalt (MsgQueues Func Param × List (Note Func Param)) :=
  match pmsgs.msgGetRead with
  | none => .ok (pmsgs, [])
  | some pmsg =>
      let param := pmsgs.msgArray[pmsg].param
      match pmsgs.msgArray[pmsg].func with
      | none => .error .nullCall
      | some func => do
          let (pmsgs, notes) := pmsgs.addAll adds
          let pmsgs ← pmsgs.msgMoveNextRead pmsg
          .ok (pmsgs, .invoked func param :: notes ++ [.finished])

end MsgQueues

inductive QueueCall (Func Param : Type)
  | add (func : Option Func) (param : Param)
  | main (adds : List (Option Func × Param))
  deriving DecidableEq, Repr

namespace MsgQueues
variable {Func Param : Type}

def exec (pmsgs : MsgQueues Func Param) :
    QueueCall Func Param → Except QueueHalt (MsgQueues Func Param × List (Note Func Param))
  | .add func param =>
      let (pmsgs, note) := pmsgs.add func param
      .ok (pmsgs, [note])
  | .main adds => pmsgs.hmMsgQueueMain adds

def execAll (pmsgs : MsgQueues Func Param) :
    List (QueueCall Func Param) →
      Except QueueHalt (MsgQueues Func Param × List (Note Func Param))
  | [] => .ok (pmsgs, [])
  | call :: calls => do
      let (pmsgs, notes) ← pmsgs.exec call
      let (pmsgs, rest) ← pmsgs.execAll calls
      .ok (pmsgs, notes ++ rest)

end MsgQueues

end MotionBoard
