import MotionBoard.Network.Answered

namespace MotionBoard
open Transition

def Keeps (preq : HmCmdReq) (result : Except Halt (System × HmCmdReq)) : Prop :=
  ∀ sys' answer, result = .ok (sys', answer) → ∃ ret input, answer = { preq with ret, input }

section Keeps
variable {sys : System} {inputs : Inputs} {preq : HmCmdReq} {size : UInt8}
  {result : Except Halt (System × HmCmdReq)}

theorem keeps_answer (sys' : System) (ret : Bool) (input : Vector UInt8 hmCmdMaxInputSize) :
    Keeps preq (.ok (sys', { preq.answer ret with input })) := by
  intro _ _ same
  cases same
  exact ⟨_, _, rfl⟩

theorem Keeps.sized (keeps : Keeps preq result) :
    Keeps preq (System.sized size sys preq result) := by
  unfold System.sized
  split
  · exact keeps_answer sys false preq.input
  · exact keeps

theorem Keeps.bind {Value : Type} {value : Except Halt Value}
    {rest : Value → Except Halt (System × HmCmdReq)} (keeps : ∀ v, Keeps preq (rest v)) :
    Keeps preq (value >>= rest) := by
  cases value with
  | error failure => nofun
  | ok v => exact keeps v

theorem hmCmdExcCk_keeps (sys : System) (inputs : Inputs) (preq : HmCmdReq) :
    Keeps preq (sys.hmCmdExcCk inputs preq) := by
  unfold System.hmCmdExcCk
  split
  · exact .sized (.bind fun v => keeps_answer _ v.1 preq.input)
  · exact .sized (.bind fun v => keeps_answer _ v.1 preq.input)
  · exact keeps_answer _ true preq.input
  · exact keeps_answer _ _ preq.input
  · unfold System.getSystemInfo
    dsimp only
    split
    · exact keeps_answer _ true preq.input
    · exact keeps_answer _ true _
  · exact .sized (keeps_answer _ _ preq.input)
  · refine .sized ?_
    split
    · exact keeps_answer _ true _
    · exact keeps_answer _ true preq.input
  · exact .sized (.bind fun _ => .bind fun _ => .bind fun _ => .bind fun _ => .bind fun _ =>
      keeps_answer _ true _)
  · exact .sized (keeps_answer _ true preq.input)
  · exact .sized (keeps_answer _ _ _)
  · exact .sized (keeps_answer _ true _)
  · exact .sized (keeps_answer _ true preq.input)
  · exact keeps_answer _ false preq.input
  · exact keeps_answer _ true preq.input
  · exact keeps_answer _ false preq.input

end Keeps

namespace Server

structure Executes (s : Server) (d : Datagram) : Prop where
  accepted : acceptsRequest d.p.payload
  idle : ∃ idx, s.hmCmdFindIdle = some idx
  registered : ∃ ck, (s.sCmdTable.hmCmdFindCmdTable d.ncmd).bind HmCmdCkPair.ck = some ck

section Reply
variable {s t : Server} {inputs : Inputs} {d : Datagram}

theorem Executes.called (executes : s.Executes d)
    (action : s.udpServerCallback inputs d = .ok t) :
    ∃ ck sys cmdReq, (s.sCmdTable.hmCmdFindCmdTable d.ncmd).bind HmCmdCkPair.ck = some ck ∧
      ck.call { s.sys with sDebug.paddr := d.addr } inputs (.ofBytes d.p.payload) =
        .ok (sys, cmdReq) ∧
      t.sent = s.sent ++ [⟨.udpConnect d.addr d.port, cmdReq.bytes⟩] := by
  obtain ⟨idx, found⟩ := executes.idle
  obtain ⟨ck, registered⟩ := executes.registered
  have length : d.p.payload.length = HmCmdReq.size :=
    of_decide_eq_true (Bool.and_eq_true_iff.mp executes.accepted).1
  rw [udpServerCallback_taken executes.accepted found] at action
  have known : (((s.udpConnect d).push idx d).sCmdTable.hmCmdFindCmdTable
      ((s.udpConnect d).push idx d).sCmdQueue[idx].cmdReq.ncmd).bind HmCmdCkPair.ck =
        some ck := by
    rw [push_cmdReq]
    exact registered
  obtain ⟨sys, cmdReq, item, called, -, rfl⟩ := hmCmdMsgCk_known known action
  rw [push_cmdReq] at called
  refine ⟨ck, sys, cmdReq, registered, called, ?_⟩
  rw [List.drop_of_length_le length.le, List.append_nil]
  rfl

theorem Executes.reply (executes : s.Executes d)
    (action : s.udpServerCallback inputs d = .ok t) :
    ∃ cmdReq ret input, cmdReq = { HmCmdReq.ofBytes d.p.payload with ret, input } ∧
      t.sent = s.sent ++ [⟨.udpConnect d.addr d.port, cmdReq.bytes⟩] := by
  obtain ⟨ck, sys, cmdReq, -, called, sent⟩ := executes.called action
  cases ck
  obtain ⟨ret, input, kept⟩ := hmCmdExcCk_keeps _ _ _ _ _ called
  exact ⟨cmdReq, ret, input, kept, sent⟩

/-- The reply to every request that is executed passes the test for a request, and a server that
has the command and an idle item executes it. -/
theorem reply_accepted (s t : Server) (inputs : Inputs) (d : Datagram) (executes : s.Executes d)
    (action : s.udpServerCallback inputs d = .ok t) :
    ∃ reply, t.sent = s.sent ++ [reply] ∧ acceptsRequest reply.payload ∧
      ∀ (other : Server) (d' : Datagram), d'.p.payload = reply.payload →
        other.sCmdTable = s.sCmdTable → other.Idle → other.Executes d' := by
  obtain ⟨cmdReq, ret, input, kept, sent⟩ := executes.reply action
  have marked : (HmCmdReq.ofBytes d.p.payload).marked :=
    (Bool.and_eq_true_iff.mp executes.accepted).2
  have accepted : acceptsRequest cmdReq.bytes := by
    unfold acceptsRequest
    rw [HmCmdReq.ofBytes_bytes, HmCmdReq.bytes_length, kept]
    exact marked
  refine ⟨_, sent, accepted, fun other d' same table idle => ⟨?_, idle.find, ?_⟩⟩
  · rw [same]
    exact accepted
  · have ncmd : d'.ncmd = d.ncmd := by
      unfold Datagram.ncmd
      rw [same, HmCmdReq.ofBytes_bytes, kept]
    rw [table, ncmd]
    exact executes.registered

theorem version_reply_accepted : ∃ t reply,
    init.udpServerCallback .clear (versionAs 10) = .ok t ∧ t.sent = init.sent ++ [reply] ∧
      acceptsRequest reply.payload := by
  obtain ⟨t, action, -⟩ := ok_of_any
    (show (init.udpServerCallback .clear (versionAs 10)).toOption.any (fun _ => true) by
      decide +kernel)
  obtain ⟨reply, sent, accepted, -⟩ := reply_accepted init t .clear (versionAs 10)
    ⟨by decide +kernel, init_ready.idle.find, .hmCmdExcCk, by decide +kernel⟩ action
  exact ⟨t, reply, action, sent, accepted⟩

theorem version_reply_is_request : ∃ t,
    init.udpServerCallback .clear (versionAs 10) = .ok t ∧
      ∃ reply ∈ t.sent, acceptsRequest reply.payload := by
  obtain ⟨t, action, test⟩ := ok_of_any
    (show (init.udpServerCallback .clear (versionAs 10)).toOption.any
      (fun t => t.sent.any fun reply => acceptsRequest reply.payload) by decide +kernel)
  exact ⟨t, action, List.any_eq_true.mp test⟩

end Reply

end Server

end MotionBoard
