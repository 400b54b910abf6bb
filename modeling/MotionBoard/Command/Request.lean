import Mathlib.Data.List.GetD
import MotionBoard.Lib.Bytes

/-!
# Requests

`hm_cmd_req_t` and the payload structures that the commands lay over its `input`
(`hm_cmd_type_def.h`, `hm_cmds_def.h`, `hm_struct_public.h`). Fields the firmware neither reads nor
writes are left out. The processor is little-endian and pads each structure to a multiple of its
widest field.
-/

namespace MotionBoard
open Bytes

abbrev hmCmdMaxInputSize : Nat := 24
abbrev hmCmdMark1 : UInt8 := 0x98
abbrev hmCmdMark2 : UInt8 := 0x76
abbrev hmCmdInvalid : UInt8 := 0xFF
abbrev hmCmdOwerClient : UInt8 := 9

inductive HmCmds
  | hmCmdFixMove | hmCmdKeepMove | hmCmdStopMove | hmCmdEnableAxis | hmCmdGetAxisStatus
  | hmCmdGetAxisSetting | hmCmdCmdLed | hmCmdSetPos | hmCmdGetSystemInfo | hmCmdIo
  | hmGetVersion | hmResetBoard | hmDebugOpe | hmResetForLoad
  deriving DecidableEq, Repr

namespace HmCmds

def code : HmCmds → UInt8
  | hmCmdFixMove => 0
  | hmCmdKeepMove => 1
  | hmCmdStopMove => 2
  | hmCmdEnableAxis => 3
  | hmCmdGetAxisStatus => 4
  | hmCmdGetAxisSetting => 5
  | hmCmdCmdLed => 6
  | hmCmdSetPos => 7
  | hmCmdGetSystemInfo => 8
  | hmCmdIo => 9
  | hmGetVersion => 10
  | hmResetBoard => 11
  | hmDebugOpe => 12
  | hmResetForLoad => 13

def all : List HmCmds :=
  [hmCmdFixMove, hmCmdKeepMove, hmCmdStopMove, hmCmdEnableAxis, hmCmdGetAxisStatus,
    hmCmdGetAxisSetting, hmCmdCmdLed, hmCmdSetPos, hmCmdGetSystemInfo, hmCmdIo,
    hmGetVersion, hmResetBoard, hmDebugOpe, hmResetForLoad]

def ofCode (ncmd : UInt8) : Option HmCmds := all.find? fun cmd => cmd.code == ncmd

theorem ofCode_code (cmd : HmCmds) : ofCode cmd.code = some cmd := by
  cases cmd <;> rfl

theorem code_of_ofCode {ncmd : UInt8} {cmd : HmCmds} (found : ofCode ncmd = some cmd) :
    cmd.code = ncmd := by
  unfold ofCode at found
  simpa using List.find?_some found

/-- `sizeof` of the payload structure, for the commands that have one. -/
def size? : HmCmds → Option UInt8
  | hmCmdFixMove | hmCmdKeepMove | hmCmdIo => some 20
  | hmCmdGetAxisStatus | hmCmdGetSystemInfo => some 16
  | hmCmdStopMove | hmCmdEnableAxis | hmCmdCmdLed | hmCmdSetPos | hmDebugOpe => some 8
  | hmCmdGetAxisSetting => some 24
  | hmGetVersion => some 2
  | hmResetBoard | hmResetForLoad => none

end HmCmds

structure HmCmdReq where
  input : Vector UInt8 hmCmdMaxInputSize
  inputLen : UInt8
  ncmd : UInt8
  ret : UInt8
  mark1 : UInt8
  mark2 : UInt8
  owner : UInt8
  deriving DecidableEq

namespace HmCmdReq

abbrev size : Nat := 30

def bytes (req : HmCmdReq) : List UInt8 :=
  req.input.toList ++ [req.inputLen, req.ncmd, req.ret, req.mark1, req.mark2, req.owner]

def ofBytes (payload : List UInt8) : HmCmdReq :=
  { input := Vector.ofFn fun i => payload.getD i 0
    inputLen := payload.getD 24 0
    ncmd := payload.getD 25 0
    ret := payload.getD 26 0
    mark1 := payload.getD 27 0
    mark2 := payload.getD 28 0
    owner := payload.getD 29 0 }

theorem bytes_length (req : HmCmdReq) : req.bytes.length = size := by
  simp [bytes]

theorem bytes_getD (req : HmCmdReq) (i : Nat) (inside : i < 24) :
    req.bytes.getD i 0 = req.input[i] := by
  unfold bytes
  rw [List.getD_append _ _ _ _ (by simpa using inside)]
  simp [inside]

theorem ofBytes_bytes (req : HmCmdReq) : ofBytes req.bytes = req := by
  obtain ⟨input, inputLen, ncmd, ret, mark1, mark2, owner⟩ := req
  have input' : Vector.ofFn (fun i : Fin hmCmdMaxInputSize =>
      (HmCmdReq.bytes ⟨input, inputLen, ncmd, ret, mark1, mark2, owner⟩).getD i 0) = input := by
    refine Vector.ext fun i inside => ?_
    rw [Vector.getElem_ofFn]
    exact bytes_getD _ i inside
  have tail (i : Nat) : (HmCmdReq.bytes ⟨input, inputLen, ncmd, ret, mark1, mark2, owner⟩).getD
      (hmCmdMaxInputSize + i) 0 = [inputLen, ncmd, ret, mark1, mark2, owner].getD i 0 := by
    unfold bytes
    rw [List.getD_append_right _ _ _ _ (by simp), Vector.length_toList, Nat.add_sub_cancel_left]
  unfold ofBytes
  rw [input', tail 0, tail 1, tail 2, tail 3, tail 4, tail 5]
  rfl

def answer (req : HmCmdReq) (ret : Bool) : HmCmdReq := { req with ret := if ret then 1 else 0 }

end HmCmdReq

section Payloads
variable (input : Vector UInt8 hmCmdMaxInputSize)

structure HmCmdFixMove where
  axis : UInt32
  step : Int32
  accel : UInt32
  decel : UInt32
  speed : Int32

def HmCmdFixMove.ofInput : HmCmdFixMove :=
  { axis := word input 0
    step := (word input 4).toInt32
    accel := word input 8
    decel := word input 12
    speed := (word input 16).toInt32 }

structure HmCmdKeepMove where
  axis : UInt32
  accel : UInt32
  decel : UInt32
  speed : Int32
  bhome : UInt32

def HmCmdKeepMove.ofInput : HmCmdKeepMove :=
  { axis := word input 0
    accel := word input 4
    decel := word input 8
    speed := (word input 12).toInt32
    bhome := word input 16 }

structure HmCmdStopMove where
  axis : UInt32
  bsmooth : UInt8

def HmCmdStopMove.ofInput : HmCmdStopMove := { axis := word input 0, bsmooth := byte input 4 }

structure HmCmdEnableAxis where
  axis : UInt32
  benable : UInt32

def HmCmdEnableAxis.ofInput : HmCmdEnableAxis := { axis := word input 0, benable := word input 4 }

structure HmCmdCmdLed where
  idx : UInt32
  bon : UInt32

def HmCmdCmdLed.ofInput : HmCmdCmdLed := { idx := word input 0, bon := word input 4 }

structure HmCmdSetPos where
  axis : UInt32
  pos : Int32

def HmCmdSetPos.ofInput : HmCmdSetPos :=
  { axis := word input 0, pos := (word input 4).toInt32 }

structure HmCmdIo where
  idx : UInt32
  bread : UInt32
  bout : UInt32
  valSet : UInt32
  valRet : UInt32

def HmCmdIo.ofInput : HmCmdIo :=
  { idx := word input 0
    bread := word input 4
    bout := word input 8
    valSet := word input 12
    valRet := word input 16 }

def HmCmdIo.store (pin : HmCmdIo) : Vector UInt8 hmCmdMaxInputSize :=
  putWord input 16 pin.valRet

structure HmCmdGetSystemInfo where
  bdebugOff : UInt32
  bset : UInt32
  ntemperature : Int16

def HmCmdGetSystemInfo.ofInput : HmCmdGetSystemInfo :=
  { bdebugOff := word input 0
    bset := word input 4
    ntemperature := (half input 8).toInt16 }

def HmCmdGetSystemInfo.store (pinf : HmCmdGetSystemInfo) : Vector UInt8 hmCmdMaxInputSize :=
  putHalf (putWord input 0 pinf.bdebugOff) 8 pinf.ntemperature.toUInt16

structure HmGetVersion where
  nversion : UInt16

def HmGetVersion.store (pin : HmGetVersion) : Vector UInt8 hmCmdMaxInputSize :=
  putHalf input 0 pin.nversion

structure HmDebugOpe where
  bdebugOn : UInt32
  nport : UInt16

def HmDebugOpe.ofInput : HmDebugOpe := { bdebugOn := word input 0, nport := half input 4 }

structure HmCmdGetAxisStatuse where
  axis : UInt32
  pos : Int32
  axisStatus : UInt32
  speed : UInt32

def HmCmdGetAxisStatuse.ofInput : HmCmdGetAxisStatuse :=
  { axis := word input 0
    pos := (word input 4).toInt32
    axisStatus := word input 8
    speed := word input 12 }

def HmCmdGetAxisStatuse.store (pin : HmCmdGetAxisStatuse) : Vector UInt8 hmCmdMaxInputSize :=
  putWord (putWord (putWord input 4 pin.pos.toUInt32) 8 pin.axisStatus) 12 pin.speed

structure HmCmdGetAxisSetting where
  axis : UInt32
  bHomeTriger : UInt32
  bStopModeCW : UInt32
  bStopModeCCW : UInt32
  bStopModeHome : UInt32
  flag : UInt8
  bget : UInt8
  tcurve : UInt8
  deriving DecidableEq

def HmCmdGetAxisSetting.ofInput : HmCmdGetAxisSetting :=
  { axis := word input 0
    bHomeTriger := word input 4
    bStopModeCW := word input 8
    bStopModeCCW := word input 12
    bStopModeHome := word input 16
    flag := byte input 20
    bget := byte input 21
    tcurve := byte input 22 }

def HmCmdGetAxisSetting.store (pin : HmCmdGetAxisSetting) : Vector UInt8 hmCmdMaxInputSize :=
  putByte (putWord (putWord (putWord (putWord input 4 pin.bHomeTriger) 8 pin.bStopModeCW)
    12 pin.bStopModeCCW) 16 pin.bStopModeHome) 22 pin.tcurve

theorem HmCmdGetAxisSetting.ofInput_store (pin : HmCmdGetAxisSetting) :
    ofInput (pin.store input) =
      { pin with
        axis := (ofInput input).axis
        flag := (ofInput input).flag
        bget := (ofInput input).bget } := by
  have axis : word (pin.store input) 0 = word input 0 := by
    unfold store
    rw [word_putByte_ne _ (by omega), word_putWord_ne _ (by omega), word_putWord_ne _ (by omega),
      word_putWord_ne _ (by omega), word_putWord_ne _ (by omega)]
  have bHomeTriger : word (pin.store input) 4 = pin.bHomeTriger := by
    unfold store
    rw [word_putByte_ne _ (by omega), word_putWord_ne _ (by omega), word_putWord_ne _ (by omega),
      word_putWord_ne _ (by omega), word_putWord _ (by decide)]
  have bStopModeCW : word (pin.store input) 8 = pin.bStopModeCW := by
    unfold store
    rw [word_putByte_ne _ (by omega), word_putWord_ne _ (by omega), word_putWord_ne _ (by omega),
      word_putWord _ (by decide)]
  have bStopModeCCW : word (pin.store input) 12 = pin.bStopModeCCW := by
    unfold store
    rw [word_putByte_ne _ (by omega), word_putWord_ne _ (by omega), word_putWord _ (by decide)]
  have bStopModeHome : word (pin.store input) 16 = pin.bStopModeHome := by
    unfold store
    rw [word_putByte_ne _ (by omega), word_putWord _ (by decide)]
  have kept (i : Nat) (range : 20 ≤ i ∧ i < 22) : byte (pin.store input) i = byte input i := by
    unfold store
    rw [byte_putByte_ne _ (by omega), byte_putWord_ne _ (by omega), byte_putWord_ne _ (by omega),
      byte_putWord_ne _ (by omega), byte_putWord_ne _ (by omega)]
  have tcurve : byte (pin.store input) 22 = pin.tcurve := byte_putByte _ (by decide)
  unfold ofInput
  rw [axis, bHomeTriger, bStopModeCW, bStopModeCCW, bStopModeHome, kept 20 (by omega),
    kept 21 (by omega), tcurve]

end Payloads

end MotionBoard
