import Mathlib.Data.List.FinRange
import MotionBoard.Command.Execute
import MotionBoard.Lib.Transition

/-!
# The command server

`hm_cmd_inter_netwk.c` on the part of lwIP it uses. A buffer of the pool holds more than a request,
so the first buffer of a datagram has the length of a request only if the datagram does. What is
handed to `udp_send` and to `pbuf_free` is logged.
-/

namespace MotionBoard
open Transition

abbrev hmCmdMaxCmdItem : Nat := 20
abbrev hmCmdMaxCmdMap : Nat := 20

structure UdpPcb where
  connected : Bool
  remoteIp : UInt32
  remotePort : UInt16
  deriving DecidableEq, Repr

namespace UdpPcb

def udpConnect (addr : UInt32) (port : UInt16) : UdpPcb := ⟨true, addr, port⟩

def udpDisconnect : UdpPcb := ⟨false, 0, 0⟩

/-- Whether `udp_input` gives the control block a datagram for its port from this sender. -/
def udpInput (pcb : UdpPcb) (addr : UInt32) (port : UInt16) : Bool :=
  !pcb.connected || (pcb.remotePort = port && (pcb.remoteIp = 0 || pcb.remoteIp = addr))

end UdpPcb

structure Pbuf where
  address : Nat
  payload : List UInt8
  deriving DecidableEq, Repr

structure Datagram where
  p : Pbuf
  addr : UInt32
  port : UInt16
  deriving DecidableEq, Repr

structure Sent where
  upcb : UdpPcb
  payload : List UInt8
  deriving DecidableEq, Repr

inductive HmCmdItemState
  | hmCmdStIdle | hmCmdStPushed | hmCmdStCalling
  deriving DecidableEq, Repr

structure HmCmdItem where
  cmdReq : HmCmdReq
  state : HmCmdItemState
  pbuf : Option Pbuf

inductive CmdFunc
  | hmCmdExcCk
  deriving DecidableEq, Repr

def CmdFunc.call : CmdFunc → System → Inputs → HmCmdReq → Except Halt (System × HmCmdReq)
  | .hmCmdExcCk => System.hmCmdExcCk

structure HmCmdCkPair where
  ncmd : UInt8
  ck : Option CmdFunc
  deriving DecidableEq, Repr

abbrev CmdTable := Vector HmCmdCkPair hmCmdMaxCmdMap

namespace CmdTable

def hmCmdNetInit : CmdTable := Vector.replicate hmCmdMaxCmdMap ⟨hmCmdInvalid, none⟩

def hmCmdNetRegister (sCmdTable : CmdTable) (ncmd : UInt8) (ck : CmdFunc) : CmdTable :=
  match (List.finRange hmCmdMaxCmdMap).find? fun idx => sCmdTable[idx].ncmd = hmCmdInvalid with
  | some idx => sCmdTable.set idx ⟨ncmd, some ck⟩
  | none => sCmdTable

def registered : List HmCmds :=
  [.hmCmdFixMove, .hmCmdKeepMove, .hmCmdStopMove, .hmCmdGetAxisStatus, .hmCmdCmdLed, .hmCmdIo,
    .hmCmdEnableAxis, .hmCmdGetAxisSetting, .hmCmdSetPos, .hmCmdGetSystemInfo, .hmGetVersion,
    .hmResetBoard, .hmResetForLoad, .hmDebugOpe]

def hmCmdExecInit : CmdTable :=
  registered.foldl (fun sCmdTable cmd => sCmdTable.hmCmdNetRegister cmd.code .hmCmdExcCk)
    hmCmdNetInit

def hmCmdFindCmdTable (sCmdTable : CmdTable) (ncmd : UInt8) : Option HmCmdCkPair :=
  sCmdTable.toList.find? fun pair => pair.ncmd = ncmd

end CmdTable

def HmCmdReq.hmCmdItemInit (pcmd : HmCmdReq) : HmCmdReq :=
  { pcmd with ncmd := hmCmdInvalid, inputLen := 0, mark1 := 0, mark2 := 0 }

def HmCmdItem.hmCmdQueueItemInit (pinfo : HmCmdItem) : HmCmdItem :=
  { cmdReq := pinfo.cmdReq.hmCmdItemInit, state := .hmCmdStIdle, pbuf := none }

def HmCmdReq.marked (preq : HmCmdReq) : Bool :=
  preq.mark1 = hmCmdMark1 && preq.mark2 = hmCmdMark2 && preq.owner = hmCmdOwerClient

def acceptsRequest (payload : List UInt8) : Bool :=
  payload.length = HmCmdReq.size && (HmCmdReq.ofBytes payload).marked

/-- `s_cmd_queue`, `s_cmd_table` and `s_queue_idx`, with the command control block, the firmware
behind the commands, and the logs. -/
structure Server where
  upcb : UdpPcb
  sCmdQueue : Vector HmCmdItem hmCmdMaxCmdItem
  sCmdTable : CmdTable
  sQueueIdx : UInt32
  sys : System
  sent : List Sent
  freed : List Nat

namespace Server

def setItem (s : Server) (idx : Fin hmCmdMaxCmdItem) (item : HmCmdItem) : Server :=
  { s with sCmdQueue := s.sCmdQueue.set idx item }

def hmCmdExecInit (sCmdQueue : Vector HmCmdItem hmCmdMaxCmdItem) (sys : System) : Server :=
  { upcb := .udpDisconnect
    sCmdQueue := sCmdQueue.map HmCmdItem.hmCmdQueueItemInit
    sCmdTable := .hmCmdExecInit
    sQueueIdx := 0
    sys := { sys with sDebug := { sys.sDebug with bdebugOn := 0, nport := 0 } }
    sent := []
    freed := [] }

def udpConnect (s : Server) (d : Datagram) : Server :=
  { s with upcb := .udpConnect d.addr d.port }

def udpSend (s : Server) (payload : List UInt8) : Server :=
  { s with sent := s.sent ++ [⟨s.upcb, payload⟩] }

def udpDisconnect (s : Server) : Server := { s with upcb := .udpDisconnect }

def pbufFree (s : Server) (p : Pbuf) : Server := { s with freed := s.freed ++ [p.address] }

def hmCmdFindIdle (s : Server) : Option (Fin hmCmdMaxCmdItem) :=
  (List.finRange hmCmdMaxCmdItem).find? fun idx => s.sCmdQueue[idx].state = .hmCmdStIdle

def hmCmdMsgCk (s : Server) (inputs : Inputs) (idx : Fin hmCmdMaxCmdItem) (p : Pbuf) :
    Except Halt Server :=
  match (s.sCmdTable.hmCmdFindCmdTable s.sCmdQueue[idx].cmdReq.ncmd).bind HmCmdCkPair.ck with
  | none => .ok s
  | some ck => do
      let s := s.setItem idx { s.sCmdQueue[idx] with state := .hmCmdStCalling }
      let (sys, cmdReq) ← ck.call s.sys inputs s.sCmdQueue[idx].cmdReq
      let s := { s with sys }.setItem idx { s.sCmdQueue[idx] with cmdReq }
      let p := { p with payload := cmdReq.bytes ++ p.payload.drop HmCmdReq.size }
      let s := ((s.udpSend p.payload).udpDisconnect).pbufFree p
      .ok (s.setItem idx s.sCmdQueue[idx].hmCmdQueueItemInit)

def refuse (s : Server) (d : Datagram) : Server :=
  ((s.udpSend d.p.payload).udpDisconnect).pbufFree d.p

def push (s : Server) (idx : Fin hmCmdMaxCmdItem) (d : Datagram) : Server :=
  { s with sQueueIdx := UInt32.ofNat idx, sys.sDebug.paddr := d.addr }.setItem idx
    { cmdReq := .ofBytes d.p.payload, state := .hmCmdStPushed, pbuf := some d.p }

def udpServerCallback (s : Server) (inputs : Inputs) (d : Datagram) : Except Halt Server :=
  let s := s.udpConnect d
  if !acceptsRequest d.p.payload then .ok (s.refuse d)
  else
    match s.hmCmdFindIdle with
    | none => .ok (s.refuse d)
    | some idx => (s.push idx d).hmCmdMsgCk inputs idx d.p

def init : Server :=
  hmCmdExecInit (Vector.replicate hmCmdMaxCmdItem
    ⟨⟨Vector.replicate hmCmdMaxInputSize 0, 0, 0, 0, 0, 0, 0⟩, .hmCmdStIdle, none⟩) System.init

end Server

/-- A datagram is delivered with the pins as they are then, or the rest of the firmware goes on and
leaves the state behind the commands in any other state. -/
inductive NetEvent
  | datagram (inputs : Inputs) (d : Datagram)
  | elsewhere (sys : System)

namespace Server

def exec (s : Server) : NetEvent → Except Halt Server
  | .datagram inputs d => s.udpServerCallback inputs d
  | .elsewhere sys => .ok { s with sys }

end Server

end MotionBoard
