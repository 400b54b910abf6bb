import MotionBoard.Network.Server

namespace MotionBoard
open Transition

namespace CmdTable

theorem hmCmdFindCmdTable_init (ncmd : UInt8) :
    (hmCmdExecInit.hmCmdFindCmdTable ncmd).bind HmCmdCkPair.ck =
      if ncmd < 14 then some .hmCmdExcCk else none := by
  revert ncmd
  exact Bytes.forall_byte (by decide +kernel)

end CmdTable

def Datagram.ncmd (d : Datagram) : UInt8 := (HmCmdReq.ofBytes d.p.payload).ncmd

namespace Server

def Idle (s : Server) : Prop := ∀ idx : Fin hmCmdMaxCmdItem, s.sCmdQueue[idx].state = .hmCmdStIdle

/-- What a call of the callback has to leave: the buffer freed once, one reply sent while the
control block was connected to the sender, the control block open to every sender again, and no item
in use. -/
structure Answered (s : Server) (d : Datagram) (t : Server) : Prop where
  freed : t.freed = s.freed ++ [d.p.address]
  sent : ∃ payload, t.sent = s.sent ++ [⟨.udpConnect d.addr d.port, payload⟩]
  disconnected : t.upcb.connected = false
  accepts (addr : UInt32) (port : UInt16) : t.upcb.udpInput addr port
  idle : t.Idle

structure Ready (s : Server) : Prop where
  table : s.sCmdTable = .hmCmdExecInit
  idle : s.Idle

section Item
variable {s t : Server} {idx : Fin hmCmdMaxCmdItem} {item : HmCmdItem} {inputs : Inputs}
  {d : Datagram} {p : Pbuf}

theorem setItem_get : (s.setItem idx item).sCmdQueue[idx] = item := by
  simp [setItem]

theorem setItem_get_ne {j : Fin hmCmdMaxCmdItem} (ne : j ≠ idx) :
    (s.setItem idx item).sCmdQueue[j] = s.sCmdQueue[j] := by
  have apart : (idx : Nat) ≠ j := fun same => ne (Fin.ext same.symm)
  simp [setItem, apart]

theorem idle_setItem (others : ∀ j ≠ idx, s.sCmdQueue[j].state = .hmCmdStIdle)
    (last : item.state = .hmCmdStIdle) : (s.setItem idx item).Idle := by
  intro j
  by_cases same : j = idx
  · subst same
    rw [setItem_get]
    exact last
  · rw [setItem_get_ne same]
    exact others j same

theorem Idle.find (idle : s.Idle) : ∃ idx, s.hmCmdFindIdle = some idx := by
  refine Option.isSome_iff_exists.mp (List.find?_isSome.mpr ⟨0, List.mem_finRange 0, ?_⟩)
  exact decide_eq_true (idle 0)

theorem hmCmdMsgCk_unknown
    (unknown : (s.sCmdTable.hmCmdFindCmdTable s.sCmdQueue[idx].cmdReq.ncmd).bind HmCmdCkPair.ck =
      none) : s.hmCmdMsgCk inputs idx p = .ok s := by
  unfold hmCmdMsgCk
  rw [unknown]

theorem hmCmdMsgCk_known {ck : CmdFunc}
    (known : (s.sCmdTable.hmCmdFindCmdTable s.sCmdQueue[idx].cmdReq.ncmd).bind HmCmdCkPair.ck =
      some ck) (action : s.hmCmdMsgCk inputs idx p = .ok t) :
    ∃ sys cmdReq item, ck.call s.sys inputs s.sCmdQueue[idx].cmdReq = .ok (sys, cmdReq) ∧
      item.state = .hmCmdStIdle ∧
      t = { s with
        upcb := .udpDisconnect
        sys := sys
        sent := s.sent ++ [⟨s.upcb, cmdReq.bytes ++ p.payload.drop HmCmdReq.size⟩]
        freed := s.freed ++ [p.address]
        sCmdQueue := s.sCmdQueue.put idx item } := by
  unfold hmCmdMsgCk at action
  rw [known] at action
  dsimp only at action
  rw [setItem_get] at action
  cases result : ck.call s.sys inputs s.sCmdQueue[idx].cmdReq with
  | error failure =>
      have halted : (Except.error failure >>= _ : Except Halt Server) = .ok t :=
        result ▸ action
      cases halted
  | ok pair =>
      obtain ⟨sys, cmdReq⟩ := pair
      have done : (Except.ok (sys, cmdReq) >>= _ : Except Halt Server) = .ok t :=
        result ▸ action
      cases done
      refine ⟨sys, cmdReq, ⟨cmdReq.hmCmdItemInit, .hmCmdStIdle, none⟩, rfl, rfl, ?_⟩
      simp [setItem, udpSend, udpDisconnect, pbufFree, HmCmdItem.hmCmdQueueItemInit, Vector.put]

theorem refuse_answered (idle : s.Idle) : s.Answered d ((s.udpConnect d).refuse d) :=
  { freed := rfl
    sent := ⟨d.p.payload, rfl⟩
    disconnected := rfl
    accepts := fun _ _ => rfl
    idle := idle }

theorem udpServerCallback_refused (refused : ¬acceptsRequest d.p.payload) :
    s.udpServerCallback inputs d = .ok ((s.udpConnect d).refuse d) :=
  if_pos (by simpa using refused)

theorem udpServerCallback_taken (accepted : acceptsRequest d.p.payload)
    (found : s.hmCmdFindIdle = some idx) :
    s.udpServerCallback inputs d = ((s.udpConnect d).push idx d).hmCmdMsgCk inputs idx d.p := by
  unfold udpServerCallback
  dsimp only
  rw [if_neg (by simpa using accepted)]
  have found : (s.udpConnect d).hmCmdFindIdle = some idx := found
  rw [found]

theorem push_cmdReq : (s.push idx d).sCmdQueue[idx].cmdReq = .ofBytes d.p.payload := by
  unfold push
  rw [setItem_get]

theorem Ready.answers (ready : s.Ready) (known : acceptsRequest d.p.payload → d.ncmd < 14)
    (action : s.udpServerCallback inputs d = .ok t) : s.Answered d t ∧ t.Ready := by
  by_cases accepted : acceptsRequest d.p.payload
  · obtain ⟨idx, found⟩ := ready.idle.find
    rw [udpServerCallback_taken accepted found] at action
    have entry : (((s.udpConnect d).push idx d).sCmdTable.hmCmdFindCmdTable
        ((s.udpConnect d).push idx d).sCmdQueue[idx].cmdReq.ncmd).bind HmCmdCkPair.ck =
          some .hmCmdExcCk := by
      rw [push_cmdReq]
      change (s.sCmdTable.hmCmdFindCmdTable d.ncmd).bind _ = _
      rw [ready.table, CmdTable.hmCmdFindCmdTable_init, if_pos (known accepted)]
    obtain ⟨sys, cmdReq, item, -, last, rfl⟩ := hmCmdMsgCk_known entry action
    have idle : (((s.udpConnect d).push idx d).setItem idx item).Idle := by
      refine idle_setItem (fun j ne => ?_) last
      unfold push
      rw [setItem_get_ne ne]
      exact ready.idle j
    refine ⟨⟨rfl, ⟨_, rfl⟩, rfl, fun _ _ => rfl, idle⟩, ready.table, idle⟩
  · rw [udpServerCallback_refused accepted] at action
    cases action
    exact ⟨refuse_answered ready.idle, ready.table, ready.idle⟩

theorem Ready.unanswered (ready : s.Ready) (accepted : acceptsRequest d.p.payload)
    (unknown : ¬d.ncmd < 14) (action : s.udpServerCallback inputs d = .ok t) :
    ¬s.Answered d t := by
  obtain ⟨idx, found⟩ := ready.idle.find
  rw [udpServerCallback_taken accepted found, hmCmdMsgCk_unknown] at action
  · cases action
    intro answered
    have stays : true = false := answered.disconnected
    cases stays
  · rw [push_cmdReq]
    change (s.sCmdTable.hmCmdFindCmdTable d.ncmd).bind _ = _
    rw [ready.table, CmdTable.hmCmdFindCmdTable_init, if_neg unknown]

end Item

theorem init_ready : init.Ready := by
  refine ⟨rfl, fun idx => ?_⟩
  unfold init hmCmdExecInit
  simp [HmCmdItem.hmCmdQueueItemInit]

end Server

def NetEvent.Known : NetEvent → Prop
  | .datagram _ d => acceptsRequest d.p.payload → d.ncmd < 14
  | .elsewhere _ => True

namespace Server

def Answers (s : Server) : NetEvent → Server → Prop
  | .datagram inputs d, t => s.udpServerCallback inputs d = .ok t ∧ s.Answered d t
  | .elsewhere sys, t => t = { s with sys }

section Runs
variable {s t : Server} {e : NetEvent} {es : List NetEvent}

theorem Answers.fires (answers : s.Answers e t) : Fires exec s e t := by
  cases e with
  | datagram inputs d => exact answers.1
  | elsewhere sys => exact congrArg Except.ok (Eq.symm answers)

theorem Ready.step (ready : s.Ready) (move : Fires exec s e t) :
    (e.Known → s.Answers e t ∧ t.Ready) ∧ (s.Answers e t → e.Known) := by
  cases e with
  | datagram inputs d =>
      have action : s.udpServerCallback inputs d = .ok t := move
      refine ⟨fun known => ?_, fun answers accepted => ?_⟩
      · obtain ⟨answered, next⟩ := ready.answers known action
        exact ⟨⟨action, answered⟩, next⟩
      · by_contra unknown
        exact ready.unanswered accepted unknown action answers.2
  | elsewhere sys =>
      cases move
      exact ⟨fun _ => ⟨rfl, ready.table, ready.idle⟩, fun _ => trivial⟩

theorem Ready.run (ready : s.Ready) (run : Run (Fires exec) s es t) :
    Run Answers s es t ↔ ∀ e ∈ es, e.Known := by
  induction run with
  | nil => exact iff_of_true .nil nofun
  | @cons s u t e es move rest ih =>
      obtain ⟨answered, known⟩ := ready.step move
      constructor
      · intro answers
        cases answers with
        | @cons _ u' _ _ _ first others =>
            obtain rfl := Except.ok.inj (move.symm.trans first.fires)
            have this := (answered (known first)).2
            exact List.forall_mem_cons.mpr ⟨known first, (ih this).mp others⟩
      · intro all
        obtain ⟨first, others⟩ := List.forall_mem_cons.mp all
        obtain ⟨answers, next⟩ := answered first
        exact .cons answers ((ih next).mpr others)

/-- Every datagram of a sequence is answered exactly when every request that is taken is for a
registered command. -/
theorem datagrams_answered_iff (es : List NetEvent) (t : Server)
    (run : Run (Fires exec) init es t) :
    Run Answers init es t ↔ ∀ e ∈ es, e.Known :=
  init_ready.run run

def versionAs (ncmd : UInt8) : Datagram :=
  let preq : HmCmdReq :=
    ⟨Vector.replicate hmCmdMaxInputSize 0, 2, ncmd, 0, hmCmdMark1, hmCmdMark2, hmCmdOwerClient⟩
  ⟨⟨0, preq.bytes⟩, 0x6401a8c0, 5000⟩

theorem version_answered : ∃ t, Run Answers init [.datagram .clear (versionAs 10)] t := by
  obtain ⟨t, run⟩ := computes_fires.run init [NetEvent.datagram .clear (versionAs 10)]
    (show ([NetEvent.datagram .clear (versionAs 10)].foldlM (playFires exec) init).isSome by
      decide +kernel)
  refine ⟨t, (datagrams_answered_iff _ t run).mpr ?_⟩
  intro e member
  obtain rfl := List.mem_singleton.mp member
  exact fun _ => by decide +kernel

/-- A request for the number that marks free entries of the table finds one, without a callback:
nothing is sent or freed, and the control block stays connected. -/
theorem invalid_unanswered : ∃ t,
    Run (Fires exec) init [.datagram .clear (versionAs hmCmdInvalid)] t ∧
    t.sent = [] ∧ t.freed = [] ∧ t.upcb.connected = true ∧
    ¬Run Answers init [.datagram .clear (versionAs hmCmdInvalid)] t := by
  obtain ⟨t, run, test⟩ := computes_fires.run_any
    (show ([NetEvent.datagram .clear (versionAs hmCmdInvalid)].foldlM (playFires exec) init).any
      (fun t => decide (t.sent = [] ∧ t.freed = [] ∧ t.upcb.connected = true)) by
      decide +kernel)
  obtain ⟨sent, freed, connected⟩ := of_decide_eq_true test
  refine ⟨t, run, sent, freed, connected, fun answers => ?_⟩
  cases answers with
  | cons first rest =>
      cases rest
      exact Bool.false_ne_true (first.2.disconnected.symm.trans connected)

end Runs

end Server

end MotionBoard
