import MotionBoard.Network.Reply

namespace MotionBoard
open Transition

def retOf (payload : List UInt8) : UInt8 := (HmCmdReq.ofBytes payload).ret

def CmdFunc.Sets (ck : CmdFunc) (sys : System) (inputs : Inputs) (preq : HmCmdReq)
    (ret : UInt8) : Prop :=
  ∀ sent, ∃ sys' answer, ck.call sys inputs { preq with ret := sent } = .ok (sys', answer) ∧
    answer.ret = ret

theorem hmCmdExcCk_ret (sys : System) (inputs : Inputs) (preq : HmCmdReq) (sent : UInt8) :
    sys.hmCmdExcCk inputs { preq with ret := sent } = sys.hmCmdExcCk inputs preq := by
  unfold System.hmCmdExcCk
  dsimp only
  cases HmCmds.ofCode preq.ncmd with
  | none => rfl
  | some cmd => cases cmd <;> rfl

theorem CmdFunc.sets (ck : CmdFunc) {sys sys' : System} {inputs : Inputs}
    {preq answer : HmCmdReq} (called : ck.call sys inputs preq = .ok (sys', answer)) :
    ck.Sets sys inputs preq answer.ret := by
  intro sent
  cases ck
  exact ⟨sys', answer, (hmCmdExcCk_ret sys inputs preq sent).trans called, rfl⟩

namespace Server

def Refuses (s : Server) (d : Datagram) : Prop :=
  ¬acceptsRequest d.p.payload ∨ s.hmCmdFindIdle = none

/-- What the `ret` of the replies to a datagram may say: if it is not zero, the request was executed
and its handler set it; if the datagram was refused, there is one reply and it says zero. -/
structure Honest (s : Server) (inputs : Inputs) (d : Datagram) (t : Server) : Prop where
  set : ∀ reply ∈ t.sent.drop s.sent.length, retOf reply.payload ≠ 0 →
    s.Executes d ∧ ∃ ck,
      (s.sCmdTable.hmCmdFindCmdTable d.ncmd).bind HmCmdCkPair.ck = some ck ∧
      ck.Sets { s.sys with sDebug.paddr := d.addr } inputs (.ofBytes d.p.payload)
        (retOf reply.payload)
  refused : s.Refuses d →
    ∃ reply, t.sent = s.sent ++ [reply] ∧ retOf reply.payload = 0

section Honest
variable {s t : Server} {inputs : Inputs} {d : Datagram}

theorem Refuses.answer (refuses : s.Refuses d) :
    s.udpServerCallback inputs d = .ok ((s.udpConnect d).refuse d) := by
  by_cases accepted : acceptsRequest d.p.payload
  · have none : (s.udpConnect d).hmCmdFindIdle = none := refuses.resolve_left (not_not.mpr accepted)
    unfold udpServerCallback
    dsimp only
    rw [if_neg (by simpa using accepted), none]
  · exact udpServerCallback_refused accepted

theorem Refuses.reply (refuses : s.Refuses d) (action : s.udpServerCallback inputs d = .ok t) :
    t.sent = s.sent ++ [⟨.udpConnect d.addr d.port, d.p.payload⟩] := by
  cases refuses.answer.symm.trans action
  rfl

theorem Executes.honest (executes : s.Executes d)
    (action : s.udpServerCallback inputs d = .ok t) :
    ∀ reply ∈ t.sent.drop s.sent.length, ∃ ck,
      (s.sCmdTable.hmCmdFindCmdTable d.ncmd).bind HmCmdCkPair.ck = some ck ∧
      ck.Sets { s.sys with sDebug.paddr := d.addr } inputs (.ofBytes d.p.payload)
        (retOf reply.payload) := by
  obtain ⟨ck, sys, cmdReq, registered, called, sent⟩ := executes.called action
  intro reply member
  rw [sent, List.drop_left] at member
  refine ⟨ck, registered, ?_⟩
  rw [List.mem_singleton.mp member, retOf, HmCmdReq.ofBytes_bytes]
  exact ck.sets called

theorem sent_unregistered (accepted : acceptsRequest d.p.payload)
    {idx : Fin hmCmdMaxCmdItem} (found : s.hmCmdFindIdle = some idx)
    (unknown : (s.sCmdTable.hmCmdFindCmdTable d.ncmd).bind HmCmdCkPair.ck = none)
    (action : s.udpServerCallback inputs d = .ok t) : t.sent = s.sent := by
  rw [udpServerCallback_taken accepted found, hmCmdMsgCk_unknown] at action
  · cases action
    rfl
  · rw [push_cmdReq]
    exact unknown

theorem honest_of_taken (taken : ¬s.Refuses d) (action : s.udpServerCallback inputs d = .ok t) :
    s.Honest inputs d t := by
  obtain ⟨accepted, idle⟩ := not_or.mp taken
  have accepted : acceptsRequest d.p.payload := not_not.mp accepted
  obtain ⟨idx, found⟩ := Option.ne_none_iff_exists'.mp idle
  refine ⟨?_, fun refuses => absurd refuses taken⟩
  cases entry : (s.sCmdTable.hmCmdFindCmdTable d.ncmd).bind HmCmdCkPair.ck with
  | none =>
      rw [sent_unregistered accepted found entry action, List.drop_length]
      exact nofun
  | some ck =>
      have executes : s.Executes d := ⟨accepted, ⟨idx, found⟩, ck, entry⟩
      intro reply member _
      rw [← entry]
      exact ⟨executes, executes.honest action reply member⟩

/-- The replies to a datagram are honest exactly when it is not refused or its own `ret` is zero. -/
theorem honest_iff (s t : Server) (inputs : Inputs) (d : Datagram)
    (action : s.udpServerCallback inputs d = .ok t) :
    s.Honest inputs d t ↔ (acceptsRequest d.p.payload ∧ ∃ idx, s.hmCmdFindIdle = some idx) ∨
      retOf d.p.payload = 0 := by
  by_cases refuses : s.Refuses d
  · have sent := refuses.reply action
    constructor
    · intro honest
      obtain ⟨reply, alone, zero⟩ := honest.refused refuses
      have same : [⟨.udpConnect d.addr d.port, d.p.payload⟩] = [reply] :=
        List.append_cancel_left (sent.symm.trans alone)
      rw [← List.singleton_inj.mp same] at zero
      exact .inr zero
    · rintro (⟨accepted, idx, found⟩ | zero)
      · cases refuses with
        | inl refused => exact absurd accepted refused
        | inr full => exact absurd (full.symm.trans found) nofun
      · refine ⟨fun reply member nonzero => ?_, fun _ => ⟨_, sent, zero⟩⟩
        rw [sent, List.drop_left] at member
        rw [List.mem_singleton.mp member] at nonzero
        exact absurd zero nonzero
  · refine iff_of_true (honest_of_taken refuses action) (.inl ?_)
    obtain ⟨accepted, idle⟩ := not_or.mp refuses
    exact ⟨not_not.mp accepted, Option.ne_none_iff_exists'.mp idle⟩

end Honest

def unmarked : Datagram :=
  let preq : HmCmdReq :=
    ⟨Vector.replicate hmCmdMaxInputSize 0, 2, 10, 1, 0, hmCmdMark2, hmCmdOwerClient⟩
  ⟨⟨0, preq.bytes⟩, 0x6401a8c0, 5000⟩

theorem version_honest : ∃ t, init.udpServerCallback .clear (versionAs 10) = .ok t ∧
    init.Honest .clear (versionAs 10) t := by
  obtain ⟨t, action, -⟩ := ok_of_any
    (show (init.udpServerCallback .clear (versionAs 10)).toOption.any (fun _ => true) by
      decide +kernel)
  exact ⟨t, action, (honest_iff init t .clear (versionAs 10) action).mpr
    (.inl ⟨by decide +kernel, init_ready.idle.find⟩)⟩

theorem unmarked_not_honest : unmarked.p.payload.length = HmCmdReq.size ∧
    ¬acceptsRequest unmarked.p.payload ∧
    ∃ t, init.udpServerCallback .clear unmarked = .ok t ∧
      (∃ reply, t.sent = [reply] ∧ retOf reply.payload = 1) ∧
      ¬init.Honest .clear unmarked t := by
  have refuses : init.Refuses unmarked := .inl (by decide +kernel)
  have action : init.udpServerCallback .clear unmarked =
      .ok ((init.udpConnect unmarked).refuse unmarked) := refuses.answer
  refine ⟨by decide +kernel, by decide +kernel, _, action, ⟨_, rfl, by decide +kernel⟩, ?_⟩
  intro honest
  obtain ⟨reply, alone, zero⟩ := honest.refused refuses
  have same : [(⟨.udpConnect unmarked.addr unmarked.port, unmarked.p.payload⟩ : Sent)] = [reply] :=
    List.append_cancel_left ((refuses.reply action).symm.trans alone)
  rw [← List.singleton_inj.mp same] at zero
  exact absurd zero (by decide +kernel)

end Server

end MotionBoard
