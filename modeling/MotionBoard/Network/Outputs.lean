import MotionBoard.Network.Service

namespace MotionBoard
open Transition Bytes

namespace HmCmdReq

def drives (preq : HmCmdReq) (bit : Fin hmMaxGpioOut) : Option Bool :=
  match HmCmds.ofCode preq.ncmd with
  | some .hmCmdIo =>
      let pin := HmCmdIo.ofInput preq.input
      if preq.inputLen = 20 ∧ pin.bout ≠ 0 ∧ pin.bread = 0 ∧ pin.idx.toNat = bit then
        some (pin.valSet ≠ 0)
      else none
  | some .hmResetBoard => some false
  | _ => none

def redirects (preq : HmCmdReq) (addr : UInt32) : Option (Option (UInt32 × UInt16)) :=
  match HmCmds.ofCode preq.ncmd with
  | some .hmDebugOpe =>
      let pin := HmDebugOpe.ofInput preq.input
      if preq.inputLen = 8 then some (if pin.bdebugOn ≠ 0 then some (addr, pin.nport) else none)
      else none
  | _ => none

def silences (preq : HmCmdReq) : Option UInt32 :=
  match HmCmds.ofCode preq.ncmd with
  | some .hmCmdGetSystemInfo =>
      let pinf := HmCmdGetSystemInfo.ofInput preq.input
      if pinf.bset ≠ 0 then some pinf.bdebugOff else none
  | _ => none

end HmCmdReq

def BoardEvent.writes {Value : Type} (write : HmCmdReq → UInt32 → Option Value) :
    BoardEvent → Option Value
  | .datagram _ d =>
      if acceptsRequest d.p.payload then write (.ofBytes d.p.payload) d.addr else none
  | .axis _ _ => none

/-- Where `hm_net_debug_send` sends a print, if it sends it. -/
def DebugInfo.destination (sDebug : DebugInfo) : Option (UInt32 × UInt16) :=
  if sDebug.bdebugOn ≠ 0 then sDebug.upcb else none

namespace System
variable {sys t : System} {inputs : Inputs} {preq answer : HmCmdReq}

theorem sized_cases {size : UInt8} {run : Except Halt (System × HmCmdReq)}
    (action : sized size sys preq run = .ok (t, answer)) :
    preq.inputLen ≠ size ∧ t = sys ∨ preq.inputLen = size ∧ run = .ok (t, answer) := by
  by_cases right : preq.inputLen = size
  · rw [sized_eq right] at action
    exact .inr ⟨right, action⟩
  · rw [sized_ne right] at action
    cases action
    exact .inl ⟨right, rfl⟩

structure Writes (preq : HmCmdReq) (sys t : System) : Prop where
  outputs (bit : Fin hmMaxGpioOut) : t.sGpioOut[bit] = (preq.drives bit).getD sys.sGpioOut[bit]
  debug : t.sDebug.destination = (preq.redirects sys.sDebug.paddr).getD sys.sDebug.destination
  flag : t.sDebugOff = preq.silences.getD sys.sDebugOff

theorem hmGpioOutBit_get (bitno val : UInt32) (bit : Fin hmMaxGpioOut) :
    (sys.hmGpioOutBit bitno val).sGpioOut[bit] =
      if bitno.toNat = bit then decide (val ≠ 0) else sys.sGpioOut[bit] := by
  unfold hmGpioOutBit
  simp only [Vector.getElem_fin, Vector.getElem_setIfInBounds]

theorem hmGpioOutBit_clears (indices : List Nat) (small : ∀ n ∈ indices, n < UInt32.size)
    (bit : Fin hmMaxGpioOut) :
    (indices.foldl (fun sys n => sys.hmGpioOutBit (UInt32.ofNat n) 0) sys).sGpioOut[bit] =
      if bit.val ∈ indices then false else sys.sGpioOut[bit] := by
  induction indices generalizing sys with
  | nil => rfl
  | cons n indices ih =>
      obtain ⟨first, rest⟩ := List.forall_mem_cons.mp small
      rw [List.foldl_cons, ih rest, hmGpioOutBit_get, UInt32.toNat_ofNat_of_lt' first]
      by_cases later : bit.val ∈ indices
      · simp [later]
      · by_cases now : n = bit
        · simp [now]
        · simp [later, now, Ne.symm now]

theorem io_outputs (action : sys.io inputs preq = .ok (t, answer)) (bit : Fin hmMaxGpioOut) :
    t.sGpioOut[bit] =
      (let pin := HmCmdIo.ofInput preq.input
      if preq.inputLen = 20 ∧ pin.bout ≠ 0 ∧ pin.bread = 0 ∧ pin.idx.toNat = bit then
        some (decide (pin.valSet ≠ 0))
      else none).getD sys.sGpioOut[bit] := by
  obtain ⟨wrong, rfl⟩ | ⟨right, action⟩ := sized_cases action
  · simp [wrong]
  · dsimp only
    by_cases out : (HmCmdIo.ofInput preq.input).bout ≠ 0
    · rw [if_pos out] at action
      by_cases read : (HmCmdIo.ofInput preq.input).bread ≠ 0
      · rw [if_pos read] at action
        cases action
        simp [read]
      · rw [if_neg read] at action
        cases action
        rw [hmGpioOutBit_get]
        by_cases named : (HmCmdIo.ofInput preq.input).idx.toNat = bit
        · simp [right, out, not_not.mp read, named]
        · simp [named]
    · rw [if_neg out] at action
      cases action
      simp [not_not.mp out]

def panel (sys : System) : Vector Bool hmMaxGpioOut × Option (UInt32 × UInt16) × UInt32 :=
  (sys.sGpioOut, sys.sDebug.destination, sys.sDebugOff)

theorem writes_of_panel (same : t.panel = sys.panel) (outputs : ∀ bit, preq.drives bit = none)
    (debug : preq.redirects sys.sDebug.paddr = none) (flag : preq.silences = none) :
    Writes preq sys t := by
  obtain ⟨sGpioOut, rest⟩ := Prod.mk.inj same
  obtain ⟨upcb, sDebugOff⟩ := Prod.mk.inj rest
  refine ⟨fun bit => ?_, ?_, ?_⟩
  · rw [outputs, sGpioOut]
    rfl
  · rw [debug, upcb]
    rfl
  · rw [flag, sDebugOff]
    rfl

theorem io_writes (code : HmCmds.ofCode preq.ncmd = some .hmCmdIo)
    (action : sys.io inputs preq = .ok (t, answer)) : Writes preq sys t := by
  have rest : (t.sDebug, t.sDebugOff) = (sys.sDebug, sys.sDebugOff) := by
    obtain ⟨-, rfl⟩ | ⟨-, action⟩ := sized_cases action
    · rfl
    · dsimp only at action
      split_ifs at action <;> cases action <;> rfl
  obtain ⟨debug, flag⟩ := Prod.mk.inj rest
  refine ⟨fun bit => ?_, ?_, ?_⟩
  · unfold HmCmdReq.drives
    rw [code]
    exact io_outputs action bit
  · unfold HmCmdReq.redirects
    rw [code, debug]
    rfl
  · unfold HmCmdReq.silences
    rw [code, flag]
    rfl

theorem hmGpioOutBit_rest (indices : List Nat) :
    (indices.foldl (fun sys n => sys.hmGpioOutBit (UInt32.ofNat n) 0) sys).sDebug = sys.sDebug ∧
      (indices.foldl (fun sys n => sys.hmGpioOutBit (UInt32.ofNat n) 0) sys).sDebugOff =
        sys.sDebugOff := by
  induction indices generalizing sys with
  | nil => exact ⟨rfl, rfl⟩
  | cons n indices ih => exact ih

theorem resetBoard_writes (code : HmCmds.ofCode preq.ncmd = some .hmResetBoard)
    (action : sys.resetBoard preq = .ok (t, answer)) : Writes preq sys t := by
  obtain ⟨board, same⟩ : ∃ board, t = ((List.range hmMaxGpioOut).foldl
      (fun sys n => sys.hmGpioOutBit (UInt32.ofNat n) 0) sys).withAxes board :=
    ⟨_, (Prod.mk.inj (Except.ok.inj action)).1.symm⟩
  have small : ∀ n ∈ List.range hmMaxGpioOut, n < UInt32.size := fun n member =>
    Nat.lt_trans (List.mem_range.mp member) (by decide)
  have cleared (bit : Fin hmMaxGpioOut) := @hmGpioOutBit_clears sys _ small bit
  obtain ⟨debug, flag⟩ := @hmGpioOutBit_rest sys (List.range hmMaxGpioOut)
  generalize (List.range hmMaxGpioOut).foldl
    (fun sys n => sys.hmGpioOutBit (UInt32.ofNat n) 0) sys = outputs at same cleared debug flag
  subst same
  refine ⟨fun bit => ?_, ?_, ?_⟩
  · unfold HmCmdReq.drives
    rw [code]
    exact (cleared bit).trans (if_pos (List.mem_range.mpr bit.isLt))
  · unfold HmCmdReq.redirects
    rw [code]
    exact congrArg DebugInfo.destination debug
  · unfold HmCmdReq.silences
    rw [code]
    exact flag

theorem debugOpe_writes (code : HmCmds.ofCode preq.ncmd = some .hmDebugOpe)
    (action : sys.debugOpe preq = .ok (t, answer)) : Writes preq sys t := by
  refine ⟨fun bit => ?_, ?_, ?_⟩
  · unfold HmCmdReq.drives
    rw [code]
    obtain ⟨-, rfl⟩ | ⟨-, action⟩ := sized_cases action
    · rfl
    · cases action
      rfl
  · unfold HmCmdReq.redirects
    rw [code]
    dsimp only
    obtain ⟨wrong, rfl⟩ | ⟨right, action⟩ := sized_cases action
    · rw [if_neg wrong]
      rfl
    · cases action
      rw [if_pos right]
      unfold hmCmdNetInitDebug DebugInfo.destination
      dsimp only
      split_ifs <;> rfl
  · unfold HmCmdReq.silences
    rw [code]
    obtain ⟨-, rfl⟩ | ⟨-, action⟩ := sized_cases action
    · rfl
    · cases action
      rfl

theorem getSystemInfo_writes (code : HmCmds.ofCode preq.ncmd = some .hmCmdGetSystemInfo)
    (action : sys.getSystemInfo preq = .ok (t, answer)) : Writes preq sys t := by
  unfold getSystemInfo at action
  dsimp only at action
  refine ⟨fun bit => ?_, ?_, ?_⟩
  · unfold HmCmdReq.drives
    rw [code]
    split at action <;> cases action <;> rfl
  · unfold HmCmdReq.redirects
    rw [code]
    split at action <;> cases action <;> rfl
  · unfold HmCmdReq.silences
    rw [code]
    dsimp only
    split at action
    · rename_i set
      cases action
      rw [if_pos set]
      rfl
    · rename_i get
      cases action
      rw [if_neg get]
      rfl

theorem hmCmdExcCk_writes (action : sys.hmCmdExcCk inputs preq = .ok (t, answer)) :
    Writes preq sys t := by
  have sized {size : UInt8} {run : Except Halt (System × HmCmdReq)}
      (action : sized size sys preq run = .ok (t, answer))
      (kept : run = .ok (t, answer) → t.panel = sys.panel) : t.panel = sys.panel := by
    obtain ⟨-, rfl⟩ | ⟨-, action⟩ := sized_cases action
    · rfl
    · exact kept action
  have quiet (same : t.panel = sys.panel)
      (silent : ∀ cmd ∈ [HmCmds.hmCmdIo, .hmResetBoard, .hmDebugOpe, .hmCmdGetSystemInfo],
        HmCmds.ofCode preq.ncmd ≠ some cmd) : Writes preq sys t := by
    simp only [List.forall_mem_cons] at silent
    obtain ⟨io, reset, debug, info, -⟩ := silent
    refine writes_of_panel same (fun bit => ?_) ?_ ?_
    · unfold HmCmdReq.drives
      split <;> first | rfl | contradiction
    · unfold HmCmdReq.redirects
      split <;> first | rfl | contradiction
    · unfold HmCmdReq.silences
      split <;> first | rfl | contradiction
  unfold hmCmdExcCk at action
  cases code : HmCmds.ofCode preq.ncmd with
  | none =>
      rw [code] at action
      cases action
      exact quiet rfl (by simp [code])
  | some cmd =>
      rw [code] at action
      cases cmd with
      | hmCmdIo => exact io_writes code action
      | hmResetBoard => exact resetBoard_writes code action
      | hmDebugOpe => exact debugOpe_writes code action
      | hmCmdGetSystemInfo => exact getSystemInfo_writes code action
      | hmCmdFixMove | hmCmdKeepMove =>
          refine quiet (sized action fun action => ?_) (by simp [code])
          obtain ⟨⟨ret, board⟩, -, action⟩ := Except.ok_of_bind action
          cases action
          rfl
      | hmCmdStopMove | hmGetVersion =>
          refine quiet (sized action fun action => ?_) (by simp [code])
          cases action
          rfl
      | hmCmdEnableAxis | hmCmdSetPos =>
          cases action
          exact quiet rfl (by simp [code])
      | hmCmdGetAxisSetting =>
          refine quiet (sized action fun action => ?_) (by simp [code])
          split at action
          · cases action
            rfl
          · cases action
            rfl
      | hmCmdGetAxisStatus =>
          refine quiet (sized action fun action => ?_) (by simp [code])
          obtain ⟨_, -, action⟩ := Except.ok_of_bind action
          obtain ⟨_, -, action⟩ := Except.ok_of_bind action
          obtain ⟨_, -, action⟩ := Except.ok_of_bind action
          obtain ⟨_, -, action⟩ := Except.ok_of_bind action
          obtain ⟨_, -, action⟩ := Except.ok_of_bind action
          cases action
          rfl
      | hmCmdCmdLed =>
          refine quiet (sized action fun action => ?_) (by simp [code])
          cases action
          split_ifs <;> rfl
      | hmResetForLoad =>
          cases action
          refine quiet ?_ (by simp [code])
          unfold hmMsgQueueAdd
          split <;> rfl

end System

namespace Service
variable {service u : Service} {e : BoardEvent} {es : List BoardEvent}

theorem exec_writes {Value : Type} (view : System → Value)
    (write : HmCmdReq → UInt32 → Option Value)
    (commands : ∀ sys inputs preq t answer, System.hmCmdExcCk sys inputs preq = .ok (t, answer) →
      view t = (write preq sys.sDebug.paddr).getD (view sys))
    (address : ∀ sys : System, ∀ addr, view { sys with sDebug.paddr := addr } = view sys)
    (axes : ∀ sys board, view (System.withAxes sys board) = view sys)
    (move : ServiceStep service e u) :
    view u.sys = (e.writes write).getD (view service.sys) := by
  cases e with
  | datagram inputs d =>
      unfold BoardEvent.writes
      dsimp only
      by_cases accepted : acceptsRequest d.p.payload
      · have action := (exec_accepted accepted).symm.trans move
        obtain ⟨⟨t, answer⟩, called, rfl⟩ := Except.ok_of_map action
        rw [if_pos accepted, ← address service.sys d.addr]
        exact commands _ inputs _ t answer called
      · obtain rfl := Except.ok.inj ((if_neg accepted).symm.trans move)
        rw [if_neg accepted]
        rfl
  | axis idx e =>
      obtain ⟨sys, moved, rfl⟩ := Except.ok_of_map move
      obtain ⟨psrd, -, rfl⟩ := Except.ok_of_map moved
      exact axes service.sys _

theorem outputs_run (run : Run ServiceStep .init es u) (bit : Fin hmMaxGpioOut) :
    u.sys.sGpioOut[bit] =
      (es.filterMap (BoardEvent.writes fun preq _ => preq.drives bit)).getLast?.getD false := by
  have keeps (s e t) (move : ServiceStep s e t) : t.sys.sGpioOut[bit] =
      (e.writes fun preq _ => preq.drives bit).getD s.sys.sGpioOut[bit] :=
    exec_writes (fun sys => sys.sGpioOut[bit]) (fun preq _ => preq.drives bit)
      (fun _ _ _ _ _ action => (System.hmCmdExcCk_writes action).outputs bit)
      (fun _ _ => rfl) (fun _ _ => rfl) move
  have start : Service.init.sys.sGpioOut[bit] = false := by
    unfold Service.init Server.init Server.hmCmdExecInit System.init
    simp
  rw [← start]
  exact run.last_write keeps

theorem debug_run (run : Run ServiceStep .init es u) :
    u.sys.sDebug.destination =
        (es.filterMap (BoardEvent.writes HmCmdReq.redirects)).getLast?.getD none ∧
      u.sys.sDebugOff =
        (es.filterMap (BoardEvent.writes fun preq _ => preq.silences)).getLast?.getD 0 := by
  have debug (s e t) (move : ServiceStep s e t) : t.sys.sDebug.destination =
      (e.writes HmCmdReq.redirects).getD s.sys.sDebug.destination :=
    exec_writes (fun sys => sys.sDebug.destination) HmCmdReq.redirects
      (fun _ _ _ _ _ action => (System.hmCmdExcCk_writes action).debug)
      (fun _ _ => rfl) (fun _ _ => rfl) move
  have flag (s e t) (move : ServiceStep s e t) : t.sys.sDebugOff =
      (e.writes fun preq _ => preq.silences).getD s.sys.sDebugOff :=
    exec_writes System.sDebugOff (fun preq _ => preq.silences)
      (fun _ _ _ _ _ action => (System.hmCmdExcCk_writes action).flag)
      (fun _ _ => rfl) (fun _ _ => rfl) move
  exact ⟨run.last_write debug, run.last_write flag⟩

end Service

structure HmCmdReq.ReadsOutput (preq : HmCmdReq) (bit : Fin hmMaxGpioOut) : Prop where
  code : HmCmds.ofCode preq.ncmd = some .hmCmdIo
  size : preq.inputLen = 20
  out : (HmCmdIo.ofInput preq.input).bout ≠ 0
  read : (HmCmdIo.ofInput preq.input).bread ≠ 0
  bit : (HmCmdIo.ofInput preq.input).idx.toNat = bit

theorem HmCmdIo.valRet_store (input : Vector UInt8 hmCmdMaxInputSize) (pin : HmCmdIo) :
    (HmCmdIo.ofInput (pin.store input)).valRet = pin.valRet :=
  Bytes.word_putWord _ (by decide)

theorem System.io_read {sys : System} {inputs : Inputs} {preq : HmCmdReq}
    {bit : Fin hmMaxGpioOut} (reads : preq.ReadsOutput bit) :
    ∃ answer, sys.hmCmdExcCk inputs preq = .ok (sys, answer) ∧ answer.ret = 1 ∧
      (HmCmdIo.ofInput answer.input).valRet = if sys.sGpioOut[bit] then 1 else 0 := by
  have value : sys.hmGpioGetOutBit (HmCmdIo.ofInput preq.input).idx =
      if sys.sGpioOut[bit] then 1 else 0 := by
    unfold hmGpioGetOutBit
    simp [reads.bit]
  unfold hmCmdExcCk
  rw [reads.code]
  dsimp only
  unfold io
  rw [sized_eq reads.size]
  dsimp only
  rw [if_pos reads.out, if_pos reads.read]
  refine ⟨_, rfl, ?_, ?_⟩
  · change (if decide (sys.hmGpioGetOutBit _ ≠ 0xffff) then (1 : UInt8) else 0) = 1
    rw [value]
    split <;> rfl
  · exact (HmCmdIo.valRet_store preq.input _).trans value

namespace Server
variable {s : Server} {es : List BoardEvent}

/-- A client that reads an output is told what the last request of any client wrote to it, whatever
the other requests and the axes did meanwhile. -/
theorem output_reads_last (known : ∀ e ∈ es, e.Known) (run : Run ServeStep init es s)
    (inputs : Inputs) (d : Datagram) (bit : Fin hmMaxGpioOut)
    (accepted : acceptsRequest d.p.payload)
    (reads : (HmCmdReq.ofBytes d.p.payload).ReadsOutput bit) :
    ∃ t, ∃ answer : HmCmdReq, s.serve (.datagram inputs d) = .ok t ∧
      t.sent = s.sent ++ [⟨.udpConnect d.addr d.port, answer.bytes⟩] ∧ answer.ret = 1 ∧
      (HmCmdIo.ofInput answer.input).valRet =
        if (es.filterMap (BoardEvent.writes fun preq _ => preq.drives bit)).getLast?.getD false
        then 1 else 0 := by
  obtain ⟨u, run', serves⟩ := served_run known run
  have registered : d.ncmd < 14 := by
    unfold Datagram.ncmd
    rw [← HmCmds.code_of_ofCode reads.code]
    decide
  obtain ⟨answer, called, ret, value⟩ :=
    @System.io_read { u.sys with sDebug.paddr := d.addr } inputs _ bit reads
  have action : u.exec (.datagram inputs d) = .ok
      ⟨{ u.sys with sDebug.paddr := d.addr }, u.replies ++ [⟨d.addr, d.port, answer.bytes⟩]⟩ := by
    rw [Service.exec_accepted accepted, called]
    rfl
  have known : (BoardEvent.datagram inputs d).Known := fun _ => registered
  obtain ⟨t, action', after⟩ := (serves.step known).2 _ action
  refine ⟨t, answer, action', ?_, ret, ?_⟩
  · rw [after.sent, serves.sent, List.map_append]
    rfl
  · rw [value, ← Service.outputs_run run' bit]

def outputRequest (bread bit val addr : UInt32) : Datagram :=
  let preq : HmCmdReq :=
    ⟨putWord (putWord (putWord (putWord (Vector.replicate hmCmdMaxInputSize 0) 0 bit) 4 bread) 8 1)
      12 val, 20, 9, 0, hmCmdMark1, hmCmdMark2, hmCmdOwerClient⟩
  ⟨⟨0, preq.bytes⟩, addr, 5000⟩

theorem output_reads_last_set :
    let es := [.datagram .clear (outputRequest 0 3 7 0x6401a8c0)]
    ∃ s t, ∃ answer : HmCmdReq, Run ServeStep init es s ∧
      s.serve (.datagram .clear (outputRequest 1 3 0 0x6501a8c0)) = .ok t ∧
      t.sent = s.sent ++ [⟨.udpConnect 0x6501a8c0 5000, answer.bytes⟩] ∧ answer.ret = 1 ∧
      (HmCmdIo.ofInput answer.input).valRet = 1 := by
  intro es
  obtain ⟨s, run⟩ := computes_fires.run init es
    (show (es.foldlM (playFires serve) init).isSome by decide +kernel)
  have known : ∀ e ∈ es, e.Known := by
    intro e member
    obtain rfl := List.mem_singleton.mp member
    exact fun _ => by decide +kernel
  obtain ⟨t, answer, action, sent, ret, value⟩ := output_reads_last known run .clear
    (outputRequest 1 3 0 0x6501a8c0) 3 (by decide +kernel)
    ⟨by decide +kernel, by decide +kernel, by decide +kernel, by decide +kernel, by decide +kernel⟩
  have last : (es.filterMap (BoardEvent.writes fun preq _ => preq.drives 3)).getLast?.getD false =
      true := by
    decide +kernel
  rw [last] at value
  exact ⟨s, t, answer, run, action, sent, ret, value⟩

/-- The debug prints go where the last request for them came from, to the port it gave, and nowhere
after one that switched them off. -/
theorem debug_goes_last (known : ∀ e ∈ es, e.Known) (run : Run ServeStep init es s) :
    s.sys.sDebug.destination =
        (es.filterMap (BoardEvent.writes HmCmdReq.redirects)).getLast?.getD none ∧
      s.sys.sDebugOff =
        (es.filterMap (BoardEvent.writes fun preq _ => preq.silences)).getLast?.getD 0 := by
  obtain ⟨u, run', serves⟩ := served_run known run
  rw [serves.sys]
  exact Service.debug_run run'

def debugRequest (bdebugOn : UInt32) (nport : UInt16) (addr : UInt32) : Datagram :=
  let preq : HmCmdReq :=
    ⟨putHalf (putWord (Vector.replicate hmCmdMaxInputSize 0) 0 bdebugOn) 4 nport, 8, 12, 0,
      hmCmdMark1, hmCmdMark2, hmCmdOwerClient⟩
  ⟨⟨0, preq.bytes⟩, addr, 5000⟩

theorem debug_goes_last_second : ∃ s,
    Run ServeStep init [.datagram .clear (debugRequest 1 4695 0x6401a8c0),
      .datagram .clear (debugRequest 1 4696 0x6501a8c0)] s ∧
    s.sys.sDebug.destination = some (0x6501a8c0, 4696) := by
  let es : List BoardEvent := [.datagram .clear (debugRequest 1 4695 0x6401a8c0),
    .datagram .clear (debugRequest 1 4696 0x6501a8c0)]
  obtain ⟨s, run⟩ := computes_fires.run init es
    (show (es.foldlM (playFires serve) init).isSome by decide +kernel)
  have known : ∀ e ∈ es, e.Known := by
    intro e member
    simp only [es, List.mem_cons, List.not_mem_nil, or_false] at member
    obtain rfl | rfl := member
    · exact fun _ => by decide +kernel
    · exact fun _ => by decide +kernel
  have last : (es.filterMap (BoardEvent.writes HmCmdReq.redirects)).getLast?.getD none =
      some (0x6501a8c0, 4696) := by
    decide +kernel
  exact ⟨s, run, (debug_goes_last known run).1.trans last⟩

end Server

end MotionBoard
