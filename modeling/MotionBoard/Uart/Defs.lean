import Mathlib.Data.List.FinRange
import MotionBoard.Command.Request
import MotionBoard.Lib.Index
import MotionBoard.Timer.Defs

/-!
# The serial command front end

`hm_cmd_inter_uart.c`: the interrupt handler puts the bytes of a request together in an item of the
queue, which the main loop then handles and sets free. `pcmd` always points to the item's own
buffer. The functions of the callbacks are an arbitrary type. Debug prints, the error LED and the
count of the bytes for the prints are left out.
-/

namespace MotionBoard.Uart

abbrev hmCmdMaxCmdItem : Nat := 20
abbrev hmCmdMaxCmdMap : Nat := 20

inductive HmCmdItemState
  | hmCmdStIdle
  | hmCmdStFilling
  | hmCmdStPushed
  | hmCmdStCalling
  deriving DecidableEq, Repr

structure HmCmdItem where
  bufIdx : Nat
  cmdBuf : Vector UInt8 HmCmdReq.size
  state : HmCmdItemState
  deriving DecidableEq

structure HmCmdCkPair (Func : Type) where
  ncmd : UInt8
  ck : Option Func
  deriving DecidableEq, Repr

abbrev CmdTable (Func : Type) := Vector (HmCmdCkPair Func) hmCmdMaxCmdMap

structure CmdQueue where
  sCmdQueue : Vector HmCmdItem hmCmdMaxCmdItem
  sQueueIdx : Option (Fin hmCmdMaxCmdItem)
  slLastTim : UInt32

namespace HmCmdItem

def pcmd (item : HmCmdItem) : HmCmdReq := HmCmdReq.ofBytes item.cmdBuf.toList

def hmCmdItemInit (cmdBuf : Vector UInt8 HmCmdReq.size) : Vector UInt8 HmCmdReq.size :=
  (((cmdBuf.put 25 hmCmdInvalid).put 24 0).put 27 0).put 28 0

def hmCmdQueueItemInit (pinfo : HmCmdItem) : HmCmdItem :=
  { bufIdx := 0, cmdBuf := hmCmdItemInit pinfo.cmdBuf, state := .hmCmdStIdle }

def fill (item : HmCmdItem) (pch : UInt8) : HmCmdItem × Bool :=
  let item := { item with
    cmdBuf := item.cmdBuf.setIfInBounds item.bufIdx pch
    bufIdx := item.bufIdx + 1 }
  if item.bufIdx = HmCmdReq.size then
    if item.pcmd.mark1 ≠ hmCmdMark1 ∨ item.pcmd.mark2 ≠ hmCmdMark2 then
      (item.hmCmdQueueItemInit, false)
    else ({ item with state := .hmCmdStPushed }, true)
  else (item, false)

end HmCmdItem

namespace CmdTable
variable {Func : Type}

def hmCmdRegister (sCmdTable : CmdTable Func) (ncmd : UInt8) (ck : Option Func) : CmdTable Func :=
  match (List.finRange hmCmdMaxCmdMap).find? fun idx => sCmdTable[idx].ncmd = hmCmdInvalid with
  | some idx => sCmdTable.put idx ⟨ncmd, ck⟩
  | none => sCmdTable

def hmCmdFindCmdTable (sCmdTable : CmdTable Func) (ncmd : UInt8) : Option (HmCmdCkPair Func) :=
  sCmdTable.toList.find? fun pair => pair.ncmd = ncmd

end CmdTable

def hmCmdInit (Func : Type) (memory : Vector HmCmdItem hmCmdMaxCmdItem) :
    CmdQueue × CmdTable Func :=
  ({ sCmdQueue := memory.map HmCmdItem.hmCmdQueueItemInit
     sQueueIdx := none
     slLastTim := hmTimInvalidCount },
    Vector.replicate hmCmdMaxCmdMap ⟨hmCmdInvalid, none⟩)

namespace CmdQueue

def hmCmdFindIdle (cmds : CmdQueue) : Option (Fin hmCmdMaxCmdItem) :=
  (List.finRange hmCmdMaxCmdItem).find? fun idx => cmds.sCmdQueue[idx].state = .hmCmdStIdle

def filling (cmds : CmdQueue) : Option (Fin hmCmdMaxCmdItem) :=
  cmds.sQueueIdx.filter fun idx => cmds.sCmdQueue[idx].state = .hmCmdStFilling

/-- The item the next byte is for. -/
def pcmdItem (cmds : CmdQueue) : Option (Fin hmCmdMaxCmdItem) :=
  match cmds.filling with
  | some idx => some idx
  | none => cmds.hmCmdFindIdle

def expired (cmds : CmdQueue) (curTime : UInt32) : Bool :=
  cmds.slLastTim ≠ hmTimInvalidCount && hmTimDiff cmds.slLastTim curTime > 300

def hmCmdUartCk (cmds : CmdQueue) (pch : UInt8) (curTime : UInt32) :
    CmdQueue × Option (Fin hmCmdMaxCmdItem) :=
  match cmds.pcmdItem with
  -- with no idle item the byte is lost, and its time as well
  | none => (cmds, none)
  | some idx =>
      let item := { cmds.sCmdQueue[idx] with state := .hmCmdStFilling }
      let item :=
        if cmds.expired curTime then { item with bufIdx := 0, state := .hmCmdStFilling } else item
      let (item, pushed) := item.fill pch
      ({ sCmdQueue := cmds.sCmdQueue.put idx item
         sQueueIdx := some idx
         slLastTim := curTime }, if pushed then some idx else none)

def calling (cmds : CmdQueue) (pcmdItem : Fin hmCmdMaxCmdItem) : CmdQueue :=
  { cmds with
    sCmdQueue := cmds.sCmdQueue.put pcmdItem
      { cmds.sCmdQueue[pcmdItem] with state := .hmCmdStCalling } }

/-- The beginning of `hm_cmd_msg_ck`: nothing when it finds no callback. -/
def callItem {Func : Type} (cmds : CmdQueue) (sCmdTable : CmdTable Func)
    (pcmdItem : Fin hmCmdMaxCmdItem) : Option (Func × CmdQueue) :=
  match (sCmdTable.hmCmdFindCmdTable cmds.sCmdQueue[pcmdItem].pcmd.ncmd).bind HmCmdCkPair.ck with
  | none => none
  | some ck => some (ck, cmds.calling pcmdItem)

def finishItem (cmds : CmdQueue) (pcmdItem : Fin hmCmdMaxCmdItem)
    (answer : Vector UInt8 HmCmdReq.size) : CmdQueue :=
  { cmds with
    sCmdQueue := cmds.sCmdQueue.put pcmdItem
      { cmds.sCmdQueue[pcmdItem] with cmdBuf := answer }.hmCmdQueueItemInit }

end CmdQueue

end MotionBoard.Uart
