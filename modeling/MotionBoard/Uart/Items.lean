import MotionBoard.Queue.Preempted
import MotionBoard.Uart.Received

namespace MotionBoard.Uart
open Transition

inductive MsgFunc (Func : Type)
  | hmCmdMsgCk
  | other (func : Func)
  deriving DecidableEq, Repr

inductive MsgParam (Param : Type)
  | item (pcmdItem : Fin hmCmdMaxCmdItem)
  | other (param : Param)
  deriving DecidableEq, Repr

variable {Func Param : Type}

def cmdItem : MsgFunc Func × MsgParam Param → Option (Fin hmCmdMaxCmdItem)
  | (.hmCmdMsgCk, .item pcmdItem) => some pcmdItem
  | _ => none

def addItem : AddCall (MsgFunc Func) (MsgParam Param) → Option (Fin hmCmdMaxCmdItem)
  | .tested func param => cmdItem (func, param)
  | .reserved .. => none

def AddsCmd : AddCall (MsgFunc Func) (MsgParam Param) → Bool
  | .tested .hmCmdMsgCk _ => true
  | .reserved _ .hmCmdMsgCk _ => true
  | _ => false

inductive Callback
  | none
  | running (item : Option (Fin hmCmdMaxCmdItem))
  | returned
  deriving DecidableEq, Repr

structure Server (Func Param : Type) where
  cmds : CmdQueue
  sCmdTable : CmdTable Func
  queue : Preempted (MsgFunc Func) (MsgParam Param)
  callback : Callback

/-- A byte with the full test of the add it may lead to, the parts of the queue, where `test` is
for the adds of all other code, the end of a callback, and a command that is registered. -/
inductive ServerPart (Func Param : Type)
  | byte (pch : UInt8) (curTime : UInt32)
  | test (func : Option Func) (param : MsgParam Param)
  | reserve
  | store
  | find
  | invoke
  | finish (answer : Vector UInt8 HmCmdReq.size)
  | moveRead
  | register (ncmd : UInt8) (ck : Option Func)

abbrev Notes (Func Param : Type) := List (Note (MsgFunc Func) (MsgParam Param))

namespace Server

def withQueue (s : Server Func Param)
    (next : Preempted (MsgFunc Func) (MsgParam Param) × Notes Func Param) :
    Server Func Param × Notes Func Param :=
  ({ s with queue := next.1 }, next.2)

/-- The call of a callback, as far as the front end is concerned: `hm_cmd_msg_ck` returns at once
when it does not find the command. -/
def called (s : Server Func Param) (message : MsgFunc Func × MsgParam Param) : Server Func Param :=
  match cmdItem message with
  | none => { s with callback := .running none }
  | some idx =>
      match s.cmds.callItem s.sCmdTable idx with
      | none => { s with callback := .returned }
      | some (_, cmds) => { s with cmds, callback := .running (some idx) }

def go (s : Server Func Param) :
    ServerPart Func Param → Option (Server Func Param × Notes Func Param)
  | .byte pch curTime =>
      -- the receive interrupt does not interrupt itself
      if s.queue.adds.any AddsCmd then none
      else
        match s.cmds.hmCmdUartCk pch curTime with
        | (cmds, none) => some ({ s with cmds }, [])
        | (cmds, some idx) =>
            (s.queue.go (.test (some .hmCmdMsgCk) (.item idx))).map { s with cmds }.withQueue
  | .test func param => (s.queue.go (.test (func.map .other) param)).map s.withQueue
  | .reserve => (s.queue.go .reserve).map s.withQueue
  | .store => (s.queue.go .store).map s.withQueue
  | .find => (s.queue.go .find).map s.withQueue
  | .invoke =>
      match s.queue.go .invoke with
      | some (queue, [.invoked func param]) =>
          some (({ s with queue }).called (func, param), [.invoked func param])
      | _ => none
  | .finish answer =>
      match s.queue.adds, s.callback with
      | [], .running none => some ({ s with callback := .returned }, [])
      | [], .running (some idx) =>
          some ({ s with cmds := s.cmds.finishItem idx answer, callback := .returned }, [])
      | _, _ => none
  | .moveRead =>
      match s.callback with
      | .returned => (s.queue.go .moveRead).map { s with callback := .none }.withQueue
      | _ => none
  | .register ncmd ck => some ({ s with sCmdTable := s.sCmdTable.hmCmdRegister ncmd ck }, [])

def play (now : Server Func Param × Notes Func Param) (part : ServerPart Func Param) :
    Option (Server Func Param × Notes Func Param) :=
  (now.1.go part).map fun next => (next.1, now.2 ++ next.2)

abbrev Step (now : Server Func Param × Notes Func Param) (part : ServerPart Func Param)
    (next : Server Func Param × Notes Func Param) : Prop :=
  play now part = some next

def init (memory : Vector HmCmdItem hmCmdMaxCmdItem)
    (pmsgs : MsgQueues (MsgFunc Func) (MsgParam Param)) : Server Func Param :=
  { cmds := (hmCmdInit Func memory).1
    sCmdTable := (hmCmdInit Func memory).2
    queue := Preempted.init pmsgs
    callback := .none }

def messages (s : Server Func Param) (notes : Notes Func Param) :
    List (MsgFunc Func × MsgParam Param) :=
  if s.callback = .returned then (pending notes).tail else pending notes

def held (s : Server Func Param) (notes : Notes Func Param) : List (Fin hmCmdMaxCmdItem) :=
  (s.messages notes).filterMap cmdItem ++ s.queue.adds.filterMap addItem

def used (cmds : CmdQueue) : Nat :=
  cmds.sCmdQueue.countP fun item => item.state ≠ .hmCmdStIdle

def Accounted (s : Server Func Param) (notes : Notes Func Param) : Prop :=
  used s.cmds = (s.held notes).length + if s.cmds.filling.isSome then 1 else 0

def Completes (s : Server Func Param) (pch : UInt8) (curTime : UInt32) : Prop :=
  s.cmds.pcmdItem.isSome ∧ (s.cmds.extended pch curTime).length = HmCmdReq.size ∧
    Marked (s.cmds.extended pch curTime)

def Known (s : Server Func Param) (idx : Fin hmCmdMaxCmdItem) : Prop :=
  ((s.sCmdTable.hmCmdFindCmdTable s.cmds.sCmdQueue[idx].pcmd.ncmd).bind HmCmdCkPair.ck).isSome

/-- A request is completed with the ring full, or called without a callback. -/
def Leaks (s : Server Func Param) (notes : Notes Func Param) : ServerPart Func Param → Prop
  | .byte pch curTime => s.Completes pch curTime ∧ s.queue.pmsgs.ismsgFull
  | .invoke => ∃ idx ∈ (pending notes).head?.bind cmdItem, ¬ s.Known idx
  | _ => False

def Spare (s : Server Func Param) : ServerPart Func Param → Prop
  | .byte pch curTime =>
      s.Completes pch curTime → s.queue.Spare (.test (some .hmCmdMsgCk) (.item 0))
  | .test func param => s.queue.Spare (.test (func.map .other) param)
  | _ => True

structure Kept (s : Server Func Param) (notes : Notes Func Param) (leaks : Nat) : Prop where
  orderly : s.queue.Orderly notes
  keeps : s.cmds.Keeps
  distinct : (s.held notes).Nodup
  states : ∀ idx ∈ s.held notes, s.cmds.sCmdQueue[idx].state =
    if s.callback = .running (some idx) then .hmCmdStCalling else .hmCmdStPushed
  callback : match s.callback with
    | .none => ∀ pmsg, s.queue.main ≠ .called pmsg
    | .running item =>
        (∃ pmsg, s.queue.main = .called pmsg) ∧ (pending notes).head?.bind cmdItem = item
    | .returned => ∃ pmsg, s.queue.main = .called pmsg
  count : used s.cmds = (s.held notes).length + (if s.cmds.filling.isSome then 1 else 0) + leaks

section Used
variable {cmds : CmdQueue} {idx : Fin hmCmdMaxCmdItem} {item : HmCmdItem}

theorem used_put (cmds : CmdQueue) (idx : Fin hmCmdMaxCmdItem) (item : HmCmdItem)
    (sQueueIdx : Option (Fin hmCmdMaxCmdItem)) (slLastTim : UInt32) :
    used ⟨cmds.sCmdQueue.put idx item, sQueueIdx, slLastTim⟩ +
        (if cmds.sCmdQueue[idx].state ≠ .hmCmdStIdle then 1 else 0) =
      used cmds + if item.state ≠ .hmCmdStIdle then 1 else 0 := by
  have counted : (if cmds.sCmdQueue[idx].state ≠ .hmCmdStIdle then 1 else 0) ≤ used cmds := by
    split
    · rename_i busy
      exact Vector.countP_pos_iff.mpr
        ⟨cmds.sCmdQueue[idx], Vector.getElem_mem _, decide_eq_true busy⟩
    · exact Nat.zero_le _
  unfold used at counted ⊢
  simp only [Vector.put, Vector.countP_set, decide_eq_true_eq, Vector.getElem_fin] at counted ⊢
  omega

theorem pcmdItem_cases (free : cmds.pcmdItem = some idx) :
    cmds.filling = some idx ∧ cmds.sCmdQueue[idx].state = .hmCmdStFilling ∨
      cmds.filling = none ∧ cmds.sCmdQueue[idx].state = .hmCmdStIdle := by
  unfold CmdQueue.pcmdItem at free
  cases filling : cmds.filling with
  | none =>
      rw [filling] at free
      exact .inr ⟨rfl, CmdQueue.hmCmdFindIdle_some free⟩
  | some idx' =>
      rw [filling] at free
      cases free
      exact .inl ⟨rfl, (CmdQueue.filling_eq_some.mp filling).2⟩

theorem used_byte {bytes : List UInt8} {pushed : Bool} {curTime : UInt32}
    (free : cmds.pcmdItem = some idx) (outcome : Outcome bytes (item, pushed)) :
    used ⟨cmds.sCmdQueue.put idx item, some idx, curTime⟩ +
        (if cmds.filling.isSome then 1 else 0) =
      used cmds + (if (CmdQueue.filling ⟨cmds.sCmdQueue.put idx item, some idx, curTime⟩).isSome
        then 1 else 0) + if pushed then 1 else 0 := by
  have put := used_put cmds idx item (some idx) curTime
  rw [CmdQueue.filling_put]
  obtain ⟨filling, state⟩ | ⟨filling, state⟩ := pcmdItem_cases free
  all_goals
    rw [state] at put
    rw [filling]
    cases outcome with
    | more _ state' =>
        simp [state'] at put ⊢
        omega
    | wrong _ _ state' =>
        simp [state'] at put ⊢
        omega
    | pushed _ _ state' =>
        simp [state'] at put ⊢
        omega

end Used

section Kept
variable {s t : Server Func Param} {notes more : Notes Func Param} {leaks : Nat}

theorem Kept.recount (kept : s.Kept notes leaks) {cmds : CmdQueue} {leaks' : Nat}
    (keeps : cmds.Keeps)
    (same : ∀ idx ∈ s.held notes, cmds.sCmdQueue[idx].state = s.cmds.sCmdQueue[idx].state)
    (count : used cmds =
      (s.held notes).length + (if cmds.filling.isSome then 1 else 0) + leaks') :
    Kept { s with cmds } notes leaks' :=
  { kept with
    keeps
    states := fun idx member => (same idx member).trans (kept.states idx member)
    count }

theorem Kept.requeue (kept : s.Kept notes leaks)
    {queue : Preempted (MsgFunc Func) (MsgParam Param)} {notes' : Notes Func Param}
    (orderly : queue.Orderly notes') (held : Server.held { s with queue } notes' = s.held notes)
    (called : ∀ pmsg, queue.main = .called pmsg ↔ s.queue.main = .called pmsg)
    (head : (∃ pmsg, s.queue.main = .called pmsg) →
      (pending notes').head? = (pending notes).head?) :
    Kept { s with queue } notes' leaks where
  orderly := orderly
  keeps := kept.keeps
  distinct := by rw [held]; exact kept.distinct
  states := by rw [held]; exact kept.states
  count := by rw [held]; exact kept.count
  callback := by
    have callback := kept.callback
    simp only [ne_eq, called]
    cases doing : s.callback with
    | none => rw [doing] at callback; exact callback
    | running item =>
        rw [doing] at callback
        exact ⟨callback.1, by rw [head callback.1]; exact callback.2⟩
    | returned => rw [doing] at callback; exact callback

theorem messages_congr {notes' : Notes Func Param} (same : pending notes' = pending notes) :
    s.messages notes' = s.messages notes := by
  unfold messages
  rw [same]

theorem Kept.not_held (kept : s.Kept notes leaks) {idx : Fin hmCmdMaxCmdItem}
    (free : s.cmds.pcmdItem = some idx) : idx ∉ s.held notes := by
  intro member
  have state := kept.states idx member
  obtain ⟨-, state'⟩ | ⟨-, state'⟩ := pcmdItem_cases free
  · rw [state'] at state
    split at state <;> cases state
  · rw [state'] at state
    split at state <;> cases state

theorem held_refused (func : Option (MsgFunc Func)) (param : MsgParam Param) :
    s.held (notes ++ [.refused func param]) = s.held notes := by
  unfold held
  rw [messages_congr (pending_other rfl rfl)]

theorem Kept.refused (kept : s.Kept notes leaks) (func : Option (MsgFunc Func))
    (param : MsgParam Param) : s.Kept (notes ++ [.refused func param]) leaks :=
  kept.requeue (kept.orderly.refused func param) (held_refused func param) (fun _ => Iff.rfl)
    fun _ => congrArg List.head? (pending_other rfl rfl)

theorem Kept.test (kept : s.Kept notes leaks) {func : Option Func} {param : MsgParam Param}
    (spare : s.Spare (.test func param)) (action : s.go (.test func param) = some (t, more)) :
    t.Kept (notes ++ more) leaks := by
  obtain ⟨⟨queue, more'⟩, goes, same⟩ := Option.map_eq_some_iff.mp action
  obtain ⟨rfl, rfl⟩ := Prod.mk.inj same
  have orderly := kept.orderly.test spare goes
  cases func with
  | none =>
      obtain ⟨rfl, rfl⟩ := Prod.mk.inj (Option.some.inj goes)
      exact kept.refused none param
  | some func =>
      by_cases full : s.queue.pmsgs.ismsgFull
      · obtain ⟨rfl, rfl⟩ := Prod.mk.inj (Option.some.inj ((if_pos full).symm.trans goes))
        exact kept.refused (some (.other func)) param
      · obtain ⟨rfl, rfl⟩ := Prod.mk.inj (Option.some.inj ((if_neg full).symm.trans goes))
        rw [List.append_nil] at orderly ⊢
        exact kept.requeue orderly rfl (fun _ => Iff.rfl) fun _ => rfl

theorem Kept.reserve (kept : s.Kept notes leaks) (action : s.go .reserve = some (t, more)) :
    t.Kept (notes ++ more) leaks := by
  obtain ⟨⟨queue, more'⟩, goes, same⟩ := Option.map_eq_some_iff.mp action
  obtain ⟨rfl, rfl⟩ := Prod.mk.inj same
  have orderly := kept.orderly.reserve goes
  have callback := kept.callback
  have main := kept.orderly.main
  simp only [Preempted.go] at goes
  split at goes
  · rename_i func param adds begun
    obtain ⟨rfl, rfl⟩ := Prod.mk.inj (Option.some.inj goes)
    have longer := pending_accepted kept.orderly.finished func param
    have first (called : ∃ pmsg, s.queue.main = .called pmsg) : pending notes ≠ [] := by
      obtain ⟨pmsg, called⟩ := called
      rw [called] at main
      exact main.2.2
    apply kept.requeue orderly
    · -- the item of the add is that of the new message
      have moved : Server.messages s (notes ++ [.accepted func param]) =
          s.messages notes ++ [(func, param)] := by
        unfold messages
        rw [longer]
        cases doing : s.callback with
        | returned =>
            rw [doing] at callback
            exact List.tail_append_of_ne_nil (first callback)
        | none => rfl
        | running item => rfl
      unfold held
      change (s.messages (notes ++ [.accepted func param])).filterMap cmdItem ++
        (AddCall.reserved s.queue.pmsgs.nwrite func param :: adds).filterMap addItem = _
      rw [moved, begun, List.filterMap_append, List.append_assoc]
      simp [List.filterMap_cons, addItem]
      cases cmdItem (func, param) <;> rfl
    · exact fun _ => Iff.rfl
    · intro called
      rw [longer]
      exact List.head?_append_of_ne_nil _ (first called)
  · cases goes

theorem Kept.store (kept : s.Kept notes leaks) (action : s.go .store = some (t, more)) :
    t.Kept (notes ++ more) leaks := by
  obtain ⟨⟨queue, more'⟩, goes, same⟩ := Option.map_eq_some_iff.mp action
  obtain ⟨rfl, rfl⟩ := Prod.mk.inj same
  have orderly := kept.orderly.store goes
  simp only [Preempted.go] at goes
  split at goes
  · rename_i pmsg func param adds begun
    obtain ⟨rfl, rfl⟩ := Prod.mk.inj (Option.some.inj goes)
    rw [List.append_nil] at orderly ⊢
    apply kept.requeue orderly
    · unfold held
      rw [begun]
      rfl
    · exact fun _ => Iff.rfl
    · exact fun _ => rfl
  · cases goes

theorem Kept.find (kept : s.Kept notes leaks) (action : s.go .find = some (t, more)) :
    t.Kept (notes ++ more) leaks := by
  obtain ⟨⟨queue, more'⟩, goes, same⟩ := Option.map_eq_some_iff.mp action
  obtain ⟨rfl, rfl⟩ := Prod.mk.inj same
  have orderly := kept.orderly.find goes
  simp only [Preempted.go] at goes
  split at goes
  · rename_i alone doing
    obtain ⟨rfl, rfl⟩ := Prod.mk.inj (Option.some.inj goes)
    rw [List.append_nil] at orderly ⊢
    apply kept.requeue orderly
    · rfl
    · intro pmsg
      rw [doing]
      cases s.queue.pmsgs.msgGetRead <;> simp
    · exact fun _ => rfl
  · cases goes

theorem Kept.register (kept : s.Kept notes leaks) (sCmdTable : CmdTable Func) :
    Kept { s with sCmdTable } notes leaks :=
  { kept with }

theorem Kept.moveRead (kept : s.Kept notes leaks) (action : s.go .moveRead = some (t, more)) :
    t.Kept (notes ++ more) leaks := by
  simp only [go] at action
  split at action
  · rename_i doing
    obtain ⟨⟨queue, more'⟩, goes, same⟩ := Option.map_eq_some_iff.mp action
    obtain ⟨rfl, rfl⟩ := Prod.mk.inj same
    have orderly := kept.orderly.moveRead goes
    simp only [Preempted.go] at goes
    split at goes
    · rename_i pmsg alone called
      obtain ⟨pmsgs, -, same⟩ := Option.map_eq_some_iff.mp goes
      obtain ⟨rfl, rfl⟩ := Prod.mk.inj same
      have rest : s.messages notes = pending (notes ++ [.finished]) := by
        unfold messages
        rw [doing, if_pos rfl, pending_finished]
      have left : Server.held (withQueue { s with callback := .none }
            ({ s.queue with pmsgs, main := .idle }, [.finished])).1 (notes ++ [.finished]) =
          s.held notes := by
        unfold held
        rw [rest]
        rfl
      exact
        { orderly
          keeps := kept.keeps
          distinct := by
            have distinct := kept.distinct
            rw [← left] at distinct
            exact distinct
          states := by
            intro idx member
            have state := kept.states idx (left ▸ member)
            rw [doing] at state
            exact state
          callback := fun pmsg called => by cases called
          count := by
            have count := kept.count
            rw [← left] at count
            exact count }
    · cases goes
  · cases action

def later (s : Server Func Param) (notes : Notes Func Param) : List (Fin hmCmdMaxCmdItem) :=
  (pending notes).tail.filterMap cmdItem ++ s.queue.adds.filterMap addItem

theorem held_returned (doing : s.callback = .returned) : s.held notes = s.later notes := by
  unfold held messages later
  rw [if_pos doing]

theorem held_first (doing : s.callback ≠ .returned) (some_ : pending notes ≠ []) :
    s.held notes = ((pending notes).head?.bind cmdItem).toList ++ s.later notes := by
  obtain ⟨message, rest, next⟩ := List.exists_cons_of_ne_nil some_
  unfold held messages later
  rw [if_neg doing, next]
  cases item : cmdItem message <;> simp [item]

theorem Kept.called (kept : s.Kept notes leaks) {pmsg : Fin hmMsgMax}
    (called : s.queue.main = .called pmsg) : pending notes ≠ [] := by
  have main := kept.orderly.main
  rw [called] at main
  exact main.2.2

theorem Kept.later (kept : s.Kept notes leaks) {item : Option (Fin hmCmdMaxCmdItem)}
    (held : s.held notes = item.toList ++ s.later notes)
    (only : ∀ idx, s.callback = .running (some idx) → item = some idx) :
    (s.later notes).Nodup ∧ ∀ idx ∈ s.later notes, idx ∉ item ∧
      s.cmds.sCmdQueue[idx].state = .hmCmdStPushed := by
  have distinct := kept.distinct
  rw [held] at distinct
  refine ⟨distinct.of_append_right, fun idx member => ?_⟩
  have apart : idx ∉ item := by
    rintro here
    exact (List.disjoint_of_nodup_append distinct) (Option.mem_toList.mpr here) member
  refine ⟨apart, (kept.states idx ?_).trans (if_neg fun doing => apart (only idx doing))⟩
  rw [held]
  exact List.mem_append_right _ member

theorem Kept.running_held (kept : s.Kept notes leaks) {idx : Fin hmCmdMaxCmdItem}
    (running : s.callback = .running (some idx)) : idx ∈ s.held notes := by
  have callback := kept.callback
  rw [running] at callback
  obtain ⟨⟨pmsg, called⟩, first⟩ := callback
  rw [held_first (by rw [running]; exact Callback.noConfusion) (kept.called called), first]
  exact List.mem_cons_self

theorem Kept.finish (kept : s.Kept notes leaks) {answer : Vector UInt8 HmCmdReq.size}
    (action : s.go (.finish answer) = some (t, more)) : t.Kept (notes ++ more) leaks := by
  have callback := kept.callback
  have count := kept.count
  simp only [go] at action
  split at action
  · rename_i alone doing
    -- the callback of another module: no item changes
    obtain ⟨rfl, rfl⟩ := Prod.mk.inj (Option.some.inj action)
    rw [doing] at callback
    obtain ⟨⟨pmsg, called⟩, first⟩ := callback
    have held := held_first (s := s) (by rw [doing]; simp) (kept.called called)
    rw [first] at held
    obtain ⟨distinct, later⟩ := kept.later held fun idx running => by cases doing.symm.trans running
    rw [held] at count
    rw [List.append_nil]
    exact
      { orderly := kept.orderly
        keeps := kept.keeps
        distinct
        states := fun idx member => (later idx member).2
        callback := ⟨pmsg, called⟩
        count }
  · rename_i idx alone doing
    obtain ⟨rfl, rfl⟩ := Prod.mk.inj (Option.some.inj action)
    rw [doing] at callback
    obtain ⟨⟨pmsg, called⟩, first⟩ := callback
    have held := held_first (s := s) (by rw [doing]; simp) (kept.called called)
    rw [first] at held
    obtain ⟨distinct, later⟩ := kept.later held fun idx running => by
      cases doing.symm.trans running
      rfl
    have calling := (kept.states idx (by rw [held]; exact List.mem_cons_self)).trans (if_pos doing)
    have spared := kept.keeps.finishItem answer calling
    have put := used_put s.cmds idx { s.cmds.sCmdQueue[idx] with cmdBuf := answer }.hmCmdQueueItemInit
      s.cmds.sQueueIdx s.cmds.slLastTim
    rw [calling] at put
    change used (s.cmds.finishItem idx answer) + 1 = used s.cmds + 0 at put
    rw [List.append_nil]
    exact
      { orderly := kept.orderly
        keeps := spared.keeps
        distinct
        states := by
          intro idx' member
          obtain ⟨apart, pushed⟩ := later idx' member
          change ((s.cmds.sCmdQueue.put idx _)[idx']).state = _
          rw [Vector.getElem_put, if_neg fun here => apart (congrArg some here)]
          exact pushed
        callback := ⟨pmsg, called⟩
        count := by
          change used (s.cmds.finishItem idx answer) = (s.later notes).length +
            (if (s.cmds.finishItem idx answer).filling.isSome then 1 else 0) + leaks
          rw [spared.filling]
          rw [held, Option.toList_some, List.length_append, List.length_singleton] at count
          omega }
  · cases action

theorem Kept.begins (kept : s.Kept notes leaks) {message : MsgFunc Func × MsgParam Param}
    {rest : List (MsgFunc Func × MsgParam Param)} {notes' : Notes Func Param}
    {queue : Preempted (MsgFunc Func) (MsgParam Param)} {pmsg : Fin hmMsgMax}
    (doing : s.callback = .none) (next : pending notes = message :: rest)
    (orderly : queue.Orderly notes') (same : pending notes' = pending notes)
    (adds : queue.adds = s.queue.adds) (called : queue.main = .called pmsg) :
    ¬ s.Leaks notes .invoke ∧ (Server.called { s with queue } message).Kept notes' leaks ∨
      s.Leaks notes .invoke ∧ (Server.called { s with queue } message).Kept notes' (leaks + 1) := by
  have count := kept.count
  have idle (item : Option (Fin hmCmdMaxCmdItem)) : s.callback ≠ .running item := by
    rw [doing]
    exact Callback.noConfusion
  have head : (pending notes).head?.bind cmdItem = cmdItem message := by rw [next]; rfl
  have some_ : pending notes ≠ [] := by
    rw [next]
    exact List.cons_ne_nil _ _
  have held := held_first (s := s) (by rw [doing]; exact Callback.noConfusion) some_
  rw [head] at held
  obtain ⟨distinct, later⟩ := kept.later held fun idx running => (idle _ running).elim
  have held' (cmds : CmdQueue) (callback : Callback) (doing' : callback ≠ .returned) :
      Server.held ⟨cmds, s.sCmdTable, queue, callback⟩ notes' = s.held notes := by
    unfold Server.held messages
    rw [if_neg doing', same, adds, if_neg (by rw [doing]; exact Callback.noConfusion)]
  have later' (cmds : CmdQueue) (callback : Callback) :
      Server.later ⟨cmds, s.sCmdTable, queue, callback⟩ notes' = s.later notes := by
    unfold Server.later
    rw [same, adds]
  have leaks_iff : s.Leaks notes .invoke ↔ ∃ idx ∈ cmdItem message, ¬ s.Known idx := by
    unfold Leaks
    rw [head]
  rw [leaks_iff]
  cases item : cmdItem message with
  | none =>
      -- a message of another module
      have next : Server.called { s with queue } message =
          ⟨s.cmds, s.sCmdTable, queue, .running none⟩ := by simp only [Server.called, item]
      rw [next]
      refine .inl ⟨?_, ?_⟩
      · rintro ⟨_, here, -⟩
        cases here
      have all := held' s.cmds (.running none) Callback.noConfusion
      exact
        { orderly
          keeps := kept.keeps
          distinct := by rw [all]; exact kept.distinct
          states := by
            rw [all]
            intro idx member
            have state := kept.states idx member
            rw [if_neg (idle _)] at state
            exact state
          callback := ⟨⟨pmsg, called⟩, by rw [same, head]; exact item⟩
          count := by rw [all]; exact count }
  | some idx =>
      rw [item] at held
      have pushed := (kept.states idx (by rw [held]; exact List.mem_cons_self)).trans
        (if_neg (idle _))
      rw [held, Option.toList_some, List.length_append, List.length_singleton] at count
      cases known : (s.sCmdTable.hmCmdFindCmdTable
          s.cmds.sCmdQueue[idx].pcmd.ncmd).bind HmCmdCkPair.ck with
      | none =>
          -- `hm_cmd_msg_ck` returns at once, and nobody has the item any more
          have next : Server.called { s with queue } message =
              ⟨s.cmds, s.sCmdTable, queue, .returned⟩ := by
            simp only [Server.called, item, CmdQueue.callItem, known]
          rw [next]
          refine .inr ⟨⟨idx, rfl, ?_⟩, ?_⟩
          · unfold Known
            rw [known]
            exact Bool.false_ne_true
          have all : Server.held ⟨s.cmds, s.sCmdTable, queue, .returned⟩ notes' = s.later notes :=
            (held_returned rfl).trans (later' _ _)
          exact
            { orderly
              keeps := kept.keeps
              distinct := by rw [all]; exact distinct
              states := by
                rw [all]
                exact fun idx member => (later idx member).2
              callback := ⟨pmsg, called⟩
              count := by
                change used s.cmds = _ + (if s.cmds.filling.isSome then 1 else 0) + (leaks + 1)
                rw [all]
                omega }
      | some ck =>
          have next : Server.called { s with queue } message =
              ⟨s.cmds.calling idx, s.sCmdTable, queue, .running (some idx)⟩ := by
            simp only [Server.called, item, CmdQueue.callItem, known]
          rw [next]
          have spared := kept.keeps.calling pushed
          have put := used_put s.cmds idx { s.cmds.sCmdQueue[idx] with state := .hmCmdStCalling }
            s.cmds.sQueueIdx s.cmds.slLastTim
          rw [pushed] at put
          change used (s.cmds.calling idx) + 1 = used s.cmds + 1 at put
          have all := held' (s.cmds.calling idx) (.running (some idx)) Callback.noConfusion
          refine .inl ⟨?_, ?_⟩
          · rintro ⟨idx', here, unknown⟩
            cases here
            unfold Known at unknown
            rw [known] at unknown
            exact unknown rfl
          exact
            { orderly
              keeps := spared.keeps
              distinct := by rw [all]; exact kept.distinct
              states := by
                rw [all, held]
                intro idx' member
                change ((s.cmds.sCmdQueue.put idx _)[idx']).state = _
                rw [Vector.getElem_put]
                obtain here | member := List.mem_append.mp member
                · cases List.mem_singleton.mp here
                  rw [if_pos rfl, if_pos rfl]
                · obtain ⟨apart, pushed'⟩ := later idx' member
                  rw [item] at apart
                  rw [if_neg fun here => apart (congrArg some here), if_neg fun here => ?_]
                  · exact pushed'
                  · cases here
                    exact apart rfl
              callback := ⟨⟨pmsg, called⟩, by rw [same, head]; exact item⟩
              count := by
                change used (s.cmds.calling idx) = _ +
                  (if (s.cmds.calling idx).filling.isSome then 1 else 0) + leaks
                rw [all, held, Option.toList_some, List.length_append, List.length_singleton,
                  spared.filling]
                omega }

theorem Kept.invoke (kept : s.Kept notes leaks) (action : s.go .invoke = some (t, more)) :
    ¬ s.Leaks notes .invoke ∧ t.Kept (notes ++ more) leaks ∨
      s.Leaks notes .invoke ∧ t.Kept (notes ++ more) (leaks + 1) := by
  simp only [go] at action
  split at action
  · rename_i queue func param goes
    obtain ⟨rfl, rfl⟩ := Prod.mk.inj (Option.some.inj action)
    have orderly := kept.orderly.invoke goes
    have callback := kept.callback
    have main := kept.orderly.main
    simp only [Preempted.go] at goes
    split at goes
    · rename_i pmsg alone found
      rw [found] at main
      obtain ⟨-, rfl, some_⟩ := main
      obtain ⟨message, rest, next⟩ := List.exists_cons_of_ne_nil some_
      obtain ⟨first, param_⟩ := Prod.mk.inj (kept.orderly.first alone next)
      obtain ⟨func', read, same⟩ := Option.map_eq_some_iff.mp goes
      obtain ⟨rfl, notes_⟩ := Prod.mk.inj same
      obtain ⟨rfl, rfl⟩ := Note.invoked.inj (List.cons.inj notes_).1
      obtain rfl := Option.some.inj (first.symm.trans read)
      rw [param_] at orderly ⊢
      have doing : s.callback = .none := by
        cases doing : s.callback with
        | none => rfl
        | running item =>
            rw [doing] at callback
            obtain ⟨⟨pmsg, called⟩, -⟩ := callback
            cases found.symm.trans called
        | returned =>
            rw [doing] at callback
            obtain ⟨pmsg, called⟩ := callback
            cases found.symm.trans called
      exact kept.begins doing next orderly (pending_other rfl rfl) rfl rfl
    · cases goes
  · cases action

theorem Kept.byte (kept : s.Kept notes leaks) {pch : UInt8} {curTime : UInt32}
    (spare : s.Spare (.byte pch curTime)) (action : s.go (.byte pch curTime) = some (t, more)) :
    ¬ s.Leaks notes (.byte pch curTime) ∧ t.Kept (notes ++ more) leaks ∨
      s.Leaks notes (.byte pch curTime) ∧ t.Kept (notes ++ more) (leaks + 1) := by
  simp only [go] at action
  split at action
  · cases action
  · cases free : s.cmds.pcmdItem with
    | none =>
        -- every item is in use, and the byte is lost
        rw [CmdQueue.hmCmdUartCk_none free] at action
        obtain ⟨rfl, rfl⟩ := Prod.mk.inj (Option.some.inj action)
        rw [List.append_nil]
        refine .inl ⟨?_, kept⟩
        rintro ⟨⟨free', -⟩, -⟩
        rw [free] at free'
        cases free'
    | some idx =>
        obtain ⟨item, pushed, outcome, result⟩ :=
          CmdQueue.hmCmdUartCk_some pch curTime kept.keeps free
        have keeps : CmdQueue.Keeps ⟨s.cmds.sCmdQueue.put idx item, some idx, curTime⟩ :=
          kept.keeps.byte free outcome
            (List.append_ne_nil_of_right_ne_nil _ (List.cons_ne_nil _ _))
        have count := kept.count
        have taken : used ⟨s.cmds.sCmdQueue.put idx item, some idx, curTime⟩ + _ = _ :=
          used_byte free outcome
        have unheld := kept.not_held free
        have same (idx' : Fin hmCmdMaxCmdItem) (member : idx' ∈ s.held notes) :
            (s.cmds.sCmdQueue.put idx item)[idx'].state = s.cmds.sCmdQueue[idx'].state := by
          have apart : idx ≠ idx' := by
            rintro rfl
            exact unheld member
          rw [Vector.getElem_put, if_neg apart]
        rw [result] at action
        cases pushed with
        | false =>
            obtain ⟨rfl, rfl⟩ := Prod.mk.inj (Option.some.inj action)
            rw [List.append_nil]
            refine .inl ⟨?_, kept.recount keeps same ?_⟩
            · rintro ⟨⟨-, full, marked⟩, -⟩
              cases outcome with
              | more short => exact Nat.lt_irrefl _ (full ▸ short)
              | wrong _ unmarked => exact unmarked marked
            · rw [if_neg Bool.false_ne_true] at taken
              omega
        | true =>
            rw [if_pos rfl] at taken
            cases outcome with
            | pushed full marked state =>
            have completes : s.Completes pch curTime := ⟨by rw [free]; rfl, full, marked⟩
            obtain ⟨⟨queue, more'⟩, goes, next⟩ := Option.map_eq_some_iff.mp action
            obtain ⟨rfl, rfl⟩ := Prod.mk.inj next
            have spare : s.queue.Spare (.test (some .hmCmdMsgCk) (.item idx)) := spare completes
            have orderly := kept.orderly.test spare goes
            by_cases ring : s.queue.pmsgs.ismsgFull
            · obtain ⟨rfl, rfl⟩ := Prod.mk.inj (Option.some.inj ((if_pos ring).symm.trans goes))
              refine .inr ⟨⟨completes, ring⟩, ?_⟩
              exact Kept.refused (kept.recount keeps same (by omega)) _ _
            · obtain ⟨rfl, rfl⟩ := Prod.mk.inj (Option.some.inj ((if_neg ring).symm.trans goes))
              refine .inl ⟨fun ⟨_, full'⟩ => ring full', ?_⟩
              rw [List.append_nil] at orderly ⊢
              -- the add that has begun holds the item
              let next : Server Func Param := ⟨⟨s.cmds.sCmdQueue.put idx item, some idx, curTime⟩,
                  s.sCmdTable, { s.queue with
                    adds := .tested .hmCmdMsgCk (.item idx) :: s.queue.adds }, s.callback⟩
              have more : next.held notes = (s.messages notes).filterMap cmdItem ++
                  idx :: s.queue.adds.filterMap addItem := rfl
              change next.Kept notes leaks
              have distinct := List.nodup_middle.mpr (List.nodup_cons.mpr ⟨unheld, kept.distinct⟩)
              exact
                { orderly
                  keeps
                  distinct
                  states := by
                    rw [more]
                    intro idx' member
                    obtain rfl | member := List.mem_cons.mp (List.perm_middle.mem_iff.mp member)
                    · change ((s.cmds.sCmdQueue.put idx' item)[idx']).state = _
                      rw [Vector.getElem_put, if_pos rfl,
                        if_neg fun running => unheld (kept.running_held running)]
                      exact state
                    · exact (same idx' member).trans (kept.states idx' member)
                  callback := kept.callback
                  count := by
                    change used ⟨s.cmds.sCmdQueue.put idx item, some idx, curTime⟩ = _ +
                      (if (CmdQueue.filling ⟨s.cmds.sCmdQueue.put idx item, some idx,
                        curTime⟩).isSome then 1 else 0) + leaks
                    rw [more, List.length_append, List.length_cons]
                    unfold Server.held at count
                    rw [List.length_append] at count
                    omega }

theorem Kept.step {now next : Server Func Param × Notes Func Param}
    {part : ServerPart Func Param} (kept : now.1.Kept now.2 leaks) (spare : now.1.Spare part)
    (action : Step now part next) :
    ¬ now.1.Leaks now.2 part ∧ next.1.Kept next.2 leaks ∨
      now.1.Leaks now.2 part ∧ next.1.Kept next.2 (leaks + 1) := by
  obtain ⟨⟨t, more⟩, goes, rfl⟩ := Option.map_eq_some_iff.mp action
  cases part with
  | byte pch curTime => exact kept.byte spare goes
  | test func param => exact .inl ⟨id, kept.test spare goes⟩
  | reserve => exact .inl ⟨id, kept.reserve goes⟩
  | store => exact .inl ⟨id, kept.store goes⟩
  | find => exact .inl ⟨id, kept.find goes⟩
  | invoke => exact kept.invoke goes
  | finish answer => exact .inl ⟨id, kept.finish goes⟩
  | moveRead => exact .inl ⟨id, kept.moveRead goes⟩
  | register ncmd ck =>
      obtain ⟨rfl, rfl⟩ := Prod.mk.inj (Option.some.inj goes)
      rw [List.append_nil]
      exact .inl ⟨id, kept.register _⟩

theorem init_kept (memory : Vector HmCmdItem hmCmdMaxCmdItem)
    (pmsgs : MsgQueues (MsgFunc Func) (MsgParam Param)) : (init memory pmsgs).Kept [] 0 where
  orderly := Preempted.orderly_init pmsgs
  keeps := CmdQueue.hmCmdInit_keeps Func memory
  distinct := List.nodup_nil
  states := fun idx member => by cases member
  callback := fun pmsg called => by cases called
  count := by
    have idle : used (init memory pmsgs : Server Func Param).cmds = 0 := by
      simp [used, init, hmCmdInit, HmCmdItem.hmCmdQueueItemInit]
    rw [idle]
    rfl

end Kept

def Sound (now : Server Func Param × Notes Func Param) (part : ServerPart Func Param) : Prop :=
  now.1.Spare part ∧ ¬ now.1.Leaks now.2 part

/-- While every request is completed with the ring not full and called with its callback, and the
adds are spare, the items in use are those of the messages and the one that is being filled. A part
that does not keep to this loses an item. -/
theorem items_accounted {memory : Vector HmCmdItem hmCmdMaxCmdItem}
    {pmsgs : MsgQueues (MsgFunc Func) (MsgParam Param)} {parts : List (ServerPart Func Param)}
    {s : Server Func Param} {notes : Notes Func Param}
    (run : Run (Guarded Sound Step) (init memory pmsgs, []) parts (s, notes)) :
    s.Accounted notes ∧ (pending notes = [] → s.queue.adds = [] → used s.cmds ≤ 1) ∧
      ∀ part t notes', s.Spare part → s.Leaks notes part → Step (s, notes) part (t, notes') →
        ¬ t.Accounted notes' := by
  have kept : s.Kept notes 0 := by
    apply run.invariant (fun now => now.1.Kept now.2 0) (init_kept memory pmsgs)
    intro now part next kept ⟨⟨spare, sound⟩, action⟩
    obtain ⟨-, kept'⟩ | ⟨leaks, -⟩ := kept.step spare action
    · exact kept'
    · exact (sound leaks).elim
  have count := kept.count
  refine ⟨count, ?_, ?_⟩
  · intro empty alone
    have none_ : s.held notes = [] := by
      unfold held messages
      rw [empty, alone]
      split <;> rfl
    rw [none_] at count
    split at count
    · exact count.le
    · rw [count]
      exact Nat.zero_le 1
  · intro part t notes' spare leaks action accounted
    obtain ⟨sound, -⟩ | ⟨-, kept'⟩ := kept.step spare action
    · exact sound leaks
    · have count' := kept'.count
      unfold Accounted at accounted
      dsimp only at count'
      omega

section Runs

instance (s : Server Func Param) (pch : UInt8) (curTime : UInt32) :
    Decidable (s.Completes pch curTime) := inferInstanceAs (Decidable (_ ∧ _ ∧ _))

instance (s : Server Func Param) (idx : Fin hmCmdMaxCmdItem) : Decidable (s.Known idx) :=
  inferInstanceAs (Decidable (_ = true))

instance (s : Server Func Param) (notes : Notes Func Param) :
    (part : ServerPart Func Param) → Decidable (s.Leaks notes part)
  | .byte pch curTime =>
      inferInstanceAs (Decidable (s.Completes pch curTime ∧ s.queue.pmsgs.ismsgFull = true))
  | .invoke =>
      decidable_of_iff (((pending notes).head?.bind cmdItem).any fun idx => ¬ s.Known idx)
        (by simp only [Option.any_eq_true, decide_eq_true_eq]; rfl)
  | .test .. | .reserve | .store | .find | .finish .. | .moveRead | .register .. => isFalse id

instance (s : Server Func Param) : (part : ServerPart Func Param) → Decidable (s.Spare part)
  | .byte pch curTime => inferInstanceAs (Decidable (s.Completes pch curTime →
      s.queue.Spare (.test (some .hmCmdMsgCk) (.item 0))))
  | .test func param => inferInstanceAs (Decidable (s.queue.Spare (.test (func.map .other) param)))
  | .reserve | .store | .find | .invoke | .finish .. | .moveRead | .register .. => isTrue trivial

instance (now : Server Func Param × Notes Func Param) (part : ServerPart Func Param) :
    Decidable (Sound now part) := inferInstanceAs (Decidable (_ ∧ ¬ _))

theorem computes_step : Computes (@play Func Param) Step :=
  fun _ _ _ action => action

def alone : Server Nat Unit :=
  init (Vector.replicate hmCmdMaxCmdItem ⟨0, Vector.replicate HmCmdReq.size 0, .hmCmdStIdle⟩)
    ⟨Vector.replicate hmMsgMax ⟨none, .other (), false⟩, 0, 0, 0⟩

def request : List (ServerPart Nat Unit) :=
  (List.replicate 27 0 ++ [hmCmdMark1, hmCmdMark2, hmCmdOwerClient]).map fun pch => .byte pch 0

def served : List (ServerPart Nat Unit) :=
  [.register 0 (some 1)] ++ request ++ [.reserve, .store, .find, .invoke,
    .finish (Vector.replicate HmCmdReq.size 0), .moveRead]

def unknown : List (ServerPart Nat Unit) :=
  request ++ [.reserve, .store, .find, .invoke, .moveRead]

theorem served_accounted : ∃ s notes, Run (Guarded Sound Step) (alone, []) served (s, notes) ∧
    s.Accounted notes := by
  obtain ⟨⟨s, notes⟩, run⟩ := (computes_step.guarded Sound).run (alone, []) served
    (by decide +kernel)
  exact ⟨s, notes, run, (items_accounted run).1⟩

theorem unknown_leaks : ∃ s notes, Run Step (alone, []) (unknown ++ unknown) (s, notes) ∧
    pending notes = [] ∧ s.queue.adds = [] ∧ used s.cmds = 2 ∧ ¬ s.Accounted notes := by
  obtain ⟨⟨s, notes⟩, run, test⟩ := computes_step.run_any
    (show ((unknown ++ unknown).foldlM play (alone, [])).any
      (fun (now : Server Nat Unit × Notes Nat Unit) => (pending now.2).isEmpty &&
        (now.1.queue.adds.isEmpty && decide (used now.1.cmds = 2))) by decide +kernel)
  obtain ⟨drained, test⟩ := Bool.and_eq_true_iff.mp test
  obtain ⟨noAdds, two⟩ := Bool.and_eq_true_iff.mp test
  have drained := List.isEmpty_iff.mp drained
  have noAdds := List.isEmpty_iff.mp noAdds
  have two := of_decide_eq_true two
  refine ⟨s, notes, run, drained, noAdds, two, fun accounted => ?_⟩
  unfold Accounted held messages at accounted
  rw [two, drained, noAdds] at accounted
  split at accounted <;> split at accounted <;> cases accounted

end Runs

end Server

end MotionBoard.Uart
