import MotionBoard.Command.Firmware
import MotionBoard.Network.Reply

namespace MotionBoard
open Transition

inductive BoardEvent
  | datagram (inputs : Inputs) (d : Datagram)
  | axis (idx : Fin hmMaxAxis) (e : Event)

def BoardEvent.Known : BoardEvent → Prop
  | .datagram _ d => acceptsRequest d.p.payload → d.ncmd < 14
  | .axis _ _ => True

/-- The board as it is: a datagram that the control block does not take is dropped by lwIP. -/
def Server.serve (s : Server) : BoardEvent → Except Halt Server
  | .datagram inputs d =>
      if s.upcb.udpInput d.addr d.port then s.udpServerCallback inputs d else .ok s
  | .axis idx e => do
      let sys ← s.sys.exec (.axis idx e)
      .ok { s with sys }

structure Reply where
  addr : UInt32
  port : UInt16
  payload : List UInt8
  deriving DecidableEq, Repr

def Reply.sent (reply : Reply) : Sent := ⟨.udpConnect reply.addr reply.port, reply.payload⟩

/-- What clients see of the board. -/
structure Service where
  sys : System
  replies : List Reply

namespace Service

def exec (service : Service) : BoardEvent → Except Halt Service
  | .datagram inputs d =>
      if acceptsRequest d.p.payload then do
        let sys := { service.sys with sDebug.paddr := d.addr }
        let (sys, answer) ← sys.hmCmdExcCk inputs (.ofBytes d.p.payload)
        .ok ⟨sys, service.replies ++ [⟨d.addr, d.port, answer.bytes⟩]⟩
      else .ok { service with replies := service.replies ++ [⟨d.addr, d.port, d.p.payload⟩] }
  | .axis idx e => do
      let sys ← service.sys.exec (.axis idx e)
      .ok { service with sys }

def init : Service := ⟨Server.init.sys, []⟩

theorem exec_accepted {service : Service} {inputs : Inputs} {d : Datagram}
    (accepted : acceptsRequest d.p.payload) : service.exec (.datagram inputs d) =
      (System.hmCmdExcCk { service.sys with sDebug.paddr := d.addr } inputs
        (.ofBytes d.p.payload) >>= fun result =>
          .ok ⟨result.1, service.replies ++ [⟨d.addr, d.port, result.2.bytes⟩]⟩) :=
  if_pos accepted

end Service

abbrev ServiceStep : Service → BoardEvent → Service → Prop := Fires Service.exec

namespace Server

structure Serves (s : Server) (service : Service) : Prop where
  ready : s.Ready
  opened : s.upcb = .udpDisconnect
  sys : s.sys = service.sys
  sent : s.sent = service.replies.map Reply.sent

section Serves
variable {s t : Server} {service u : Service} {inputs : Inputs} {d : Datagram}

theorem Serves.takes (serves : s.Serves service) (addr : UInt32) (port : UInt16) :
    s.upcb.udpInput addr port := by
  rw [serves.opened]
  rfl

theorem Serves.delivers (serves : s.Serves service) :
    s.serve (.datagram inputs d) = s.udpServerCallback inputs d :=
  if_pos (serves.takes d.addr d.port)

theorem Serves.refused (serves : s.Serves service) (inputs : Inputs)
    (refused : ¬acceptsRequest d.p.payload) :
    ∃ t u, s.serve (.datagram inputs d) = .ok t ∧ service.exec (.datagram inputs d) = .ok u ∧
      t.Serves u := by
  refine ⟨(s.udpConnect d).refuse d,
    { service with replies := service.replies ++ [⟨d.addr, d.port, d.p.payload⟩] },
    serves.delivers.trans (udpServerCallback_refused refused), if_neg refused,
    ⟨serves.ready.table, serves.ready.idle⟩, rfl, serves.sys, ?_⟩
  change s.sent ++ [_] = List.map Reply.sent (service.replies ++ [_])
  rw [List.map_append, serves.sent]
  rfl

theorem hmCmdMsgCk_returns {ck : CmdFunc} {idx : Fin hmCmdMaxCmdItem} {p : Pbuf} {sys : System}
    {cmdReq : HmCmdReq}
    (known : (s.sCmdTable.hmCmdFindCmdTable s.sCmdQueue[idx].cmdReq.ncmd).bind HmCmdCkPair.ck =
      some ck) (called : ck.call s.sys inputs s.sCmdQueue[idx].cmdReq = .ok (sys, cmdReq)) :
    ∃ t, s.hmCmdMsgCk inputs idx p = .ok t := by
  unfold hmCmdMsgCk
  rw [known]
  dsimp only
  rw [setItem_get]
  change ∃ t, (ck.call s.sys inputs s.sCmdQueue[idx].cmdReq >>= _) = .ok t
  rw [called]
  exact ⟨_, rfl⟩

theorem Serves.taken (serves : s.Serves service) (accepted : acceptsRequest d.p.payload)
    (registered : d.ncmd < 14) :
    (∀ t, s.serve (.datagram inputs d) = .ok t →
      ∃ u, service.exec (.datagram inputs d) = .ok u ∧ t.Serves u) ∧
    ∀ u, service.exec (.datagram inputs d) = .ok u →
      ∃ t, s.serve (.datagram inputs d) = .ok t := by
  obtain ⟨idx, found⟩ := serves.ready.idle.find
  have length : d.p.payload.length = HmCmdReq.size :=
    of_decide_eq_true (Bool.and_eq_true_iff.mp accepted).1
  have entry : (((s.udpConnect d).push idx d).sCmdTable.hmCmdFindCmdTable
      ((s.udpConnect d).push idx d).sCmdQueue[idx].cmdReq.ncmd).bind HmCmdCkPair.ck =
        some .hmCmdExcCk := by
    rw [push_cmdReq]
    change (s.sCmdTable.hmCmdFindCmdTable d.ncmd).bind _ = _
    rw [serves.ready.table, CmdTable.hmCmdFindCmdTable_init, if_pos registered]
  have delivers : s.serve (.datagram inputs d) =
      ((s.udpConnect d).push idx d).hmCmdMsgCk inputs idx d.p :=
    serves.delivers.trans (udpServerCallback_taken accepted found)
  constructor
  · intro t action
    have ready := (serves.ready.answers (fun _ => registered) (serves.delivers ▸ action)).2
    rw [delivers] at action
    obtain ⟨sys, cmdReq, item, called, -, rfl⟩ := hmCmdMsgCk_known entry action
    rw [push_cmdReq] at called
    have called : System.hmCmdExcCk { s.sys with sDebug.paddr := d.addr } inputs
        (.ofBytes d.p.payload) = .ok (sys, cmdReq) := called
    refine ⟨⟨sys, service.replies ++ [⟨d.addr, d.port, cmdReq.bytes⟩]⟩, ?_, ready, rfl, rfl, ?_⟩
    · rw [Service.exec_accepted accepted, ← serves.sys, called]
      rfl
    · change s.sent ++ [_] = List.map Reply.sent (service.replies ++ [_])
      rw [List.map_append, serves.sent, List.drop_of_length_le length.le, List.append_nil]
      rfl
  · intro u action
    rw [Service.exec_accepted accepted, ← serves.sys] at action
    obtain ⟨⟨sys, cmdReq⟩, called, -⟩ := Except.ok_of_bind action
    have called : CmdFunc.hmCmdExcCk.call ((s.udpConnect d).push idx d).sys inputs
        ((s.udpConnect d).push idx d).sCmdQueue[idx].cmdReq = .ok (sys, cmdReq) := by
      rw [push_cmdReq]
      exact called
    rw [delivers]
    exact hmCmdMsgCk_returns entry called

theorem Serves.step {e : BoardEvent} (serves : s.Serves service) (known : e.Known) :
    (∀ t, s.serve e = .ok t → ∃ u, service.exec e = .ok u ∧ t.Serves u) ∧
    ∀ u, service.exec e = .ok u → ∃ t, s.serve e = .ok t ∧ t.Serves u := by
  suffices both : (∀ t, s.serve e = .ok t → ∃ u, service.exec e = .ok u ∧ t.Serves u) ∧
      ∀ u, service.exec e = .ok u → ∃ t, s.serve e = .ok t by
    refine ⟨both.1, fun u action => ?_⟩
    obtain ⟨t, action'⟩ := both.2 u action
    obtain ⟨u', action'', related⟩ := both.1 t action'
    obtain rfl := Except.ok.inj (action.symm.trans action'')
    exact ⟨t, action', related⟩
  cases e with
  | datagram inputs d =>
      by_cases accepted : acceptsRequest d.p.payload
      · exact serves.taken accepted (known accepted)
      · obtain ⟨t, u, action, action', related⟩ := serves.refused inputs accepted
        refine ⟨fun t' done => ?_, fun u' done => ⟨t, action⟩⟩
        obtain rfl := Except.ok.inj (action.symm.trans done)
        exact ⟨u, action', related⟩
  | axis idx e =>
      constructor
      · intro t action
        obtain ⟨sys, moved, rfl⟩ := Except.ok_of_map action
        refine ⟨{ service with sys }, ?_, ⟨serves.ready.table, serves.ready.idle⟩, serves.opened,
          rfl, serves.sent⟩
        change (service.sys.exec _ >>= _) = _
        rw [← serves.sys, moved]
        rfl
      · intro u action
        obtain ⟨sys, moved, rfl⟩ := Except.ok_of_map action
        refine ⟨{ s with sys }, ?_⟩
        change (s.sys.exec _ >>= _) = _
        rw [serves.sys, moved]
        rfl

end Serves

theorem init_serves : init.Serves .init := ⟨init_ready, rfl, rfl, rfl⟩

abbrev ServeStep : Server → BoardEvent → Server → Prop := Fires serve

section Runs
variable {es : List BoardEvent} {t : Server} {u : Service}

theorem served_run (known : ∀ e ∈ es, e.Known) (run : Run ServeStep init es t) :
    ∃ u, Run ServiceStep .init es u ∧ t.Serves u := by
  have follows (s service e t) (serves : Serves s service) (known : e.Known)
      (move : ServeStep s e t) : ∃ u, ServiceStep service e u ∧ t.Serves u :=
    (serves.step known).1 t move
  exact run.simulate follows init_serves known

theorem service_run (known : ∀ e ∈ es, e.Known) (run : Run ServiceStep .init es u) :
    ∃ t, Run ServeStep init es t ∧ t.Serves u := by
  have follows (service s e u) (serves : Serves s service) (known : e.Known)
      (move : ServiceStep service e u) : ∃ t, ServeStep s e t ∧ t.Serves u :=
    (serves.step known).2 u move
  have start : (fun service s => Serves s service) .init init := init_serves
  exact run.simulate follows start known

/-- Between a board and its clients there is nothing but the service: as long as requests are for
registered commands, every run of the board is one of the service, with the same replies to the same
clients and the same effect, and every run of the service is one of the board. -/
theorem serve_refines (known : ∀ e ∈ es, e.Known) :
    (∀ t, Run ServeStep init es t → ∃ u, Run ServiceStep .init es u ∧ t.Serves u) ∧
      ∀ u, Run ServiceStep .init es u → ∃ t, Run ServeStep init es t ∧ t.Serves u :=
  ⟨fun _ run => served_run known run, fun _ run => service_run known run⟩

end Runs

theorem serve_refines_version :
    let es := [.datagram .clear (versionAs 10), .axis 0 .burst,
      .datagram .clear ⟨⟨1, []⟩, 0x6501a8c0, 5001⟩]
    ∃ t u, Run ServeStep init es t ∧ Run ServiceStep .init es u ∧ t.Serves u ∧
      u.replies.map Reply.port = [5000, 5001] := by
  intro es
  obtain ⟨t, run, test⟩ := computes_fires.run_any
    (show (es.foldlM (playFires serve) init).any
      (fun t => decide (t.sent.map (fun sent => sent.upcb.remotePort) = [5000, 5001])) by
      decide +kernel)
  have known : ∀ e ∈ es, e.Known := by
    intro e member
    simp only [es, List.mem_cons, List.not_mem_nil, or_false] at member
    obtain rfl | rfl | rfl := member
    · exact fun _ => by decide +kernel
    · exact trivial
    · exact fun accepted => absurd accepted (by decide)
  obtain ⟨u, run', serves⟩ := (serve_refines known).1 t run
  have ports : t.sent.map (fun sent => sent.upcb.remotePort) = [5000, 5001] :=
    of_decide_eq_true test
  rw [serves.sent, List.map_map] at ports
  exact ⟨t, u, run, run', serves, ports⟩

end Server

end MotionBoard
