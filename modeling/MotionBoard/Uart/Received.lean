import MotionBoard.Uart.Defs

namespace MotionBoard.Uart

def Marked (bytes : List UInt8) : Prop :=
  (HmCmdReq.ofBytes bytes).mark1 = hmCmdMark1 ∧ (HmCmdReq.ofBytes bytes).mark2 = hmCmdMark2

instance (bytes : List UInt8) : Decidable (Marked bytes) := inferInstanceAs (Decidable (_ ∧ _))

inductive Outcome (bytes : List UInt8) : HmCmdItem × Bool → Prop
  | more {item : HmCmdItem} (short : bytes.length < HmCmdReq.size)
      (filling : item.state = .hmCmdStFilling) (count : item.bufIdx = bytes.length)
      (held : item.cmdBuf.toList.take item.bufIdx = bytes) : Outcome bytes (item, false)
  | wrong {item : HmCmdItem} (full : bytes.length = HmCmdReq.size) (unmarked : ¬ Marked bytes)
      (idle : item.state = .hmCmdStIdle) (empty : item.bufIdx = 0) : Outcome bytes (item, false)
  | pushed {item : HmCmdItem} (full : bytes.length = HmCmdReq.size) (marked : Marked bytes)
      (pushed : item.state = .hmCmdStPushed) (held : item.cmdBuf.toList = bytes) :
      Outcome bytes (item, true)

theorem take_setIfInBounds {n : Nat} (buf : Vector UInt8 n) {i : Nat} (inside : i < n)
    (byte : UInt8) : (buf.setIfInBounds i byte).toList.take (i + 1) = buf.toList.take i ++ [byte] := by
  have length : i < buf.toList.length := by simpa using inside
  have before : (buf.toList.take i).length = i := List.length_take_of_le length.le
  rw [Vector.toList_setIfInBounds, List.set_eq_take_append_cons_drop, if_pos length,
    List.take_append, List.take_of_length_le (by omega), before]
  simp

theorem HmCmdItem.fill_outcome {item : HmCmdItem} {bytes : List UInt8} (pch : UInt8)
    (filling : item.state = .hmCmdStFilling) (room : item.bufIdx < HmCmdReq.size)
    (held : item.cmdBuf.toList.take item.bufIdx = bytes) :
    Outcome (bytes ++ [pch]) (item.fill pch) := by
  have longer := take_setIfInBounds item.cmdBuf room pch
  rw [held] at longer
  have count : (bytes ++ [pch]).length = item.bufIdx + 1 := by
    rw [← longer, List.length_take_of_le]
    simp only [Vector.length_toList]
    exact room
  unfold fill
  dsimp only
  split
  · rename_i full
    have whole : (item.cmdBuf.setIfInBounds item.bufIdx pch).toList = bytes ++ [pch] := by
      rw [← longer, List.take_of_length_le (by simp [full])]
    unfold pcmd
    dsimp only
    rw [whole]
    split
    · rename_i bad
      exact .wrong (count.trans full) (Decidable.not_and_iff_not_or_not.mpr bad) rfl rfl
    · rename_i good
      rw [not_or, not_not, not_not] at good
      exact .pushed (count.trans full) good rfl whole
  · rename_i short
    exact .more (by omega) filling count.symm longer

namespace CmdQueue
variable {cmds : CmdQueue} {idx : Fin hmCmdMaxCmdItem} {pch : UInt8} {curTime : UInt32}

def received (cmds : CmdQueue) : List UInt8 :=
  match cmds.filling with
  | none => []
  | some idx => cmds.sCmdQueue[idx].cmdBuf.toList.take cmds.sCmdQueue[idx].bufIdx

def extended (cmds : CmdQueue) (pch : UInt8) (curTime : UInt32) : List UInt8 :=
  (if cmds.expired curTime then [] else cmds.received) ++ [pch]

/-- Idle items are empty, and only the current item is being filled. -/
structure Keeps (cmds : CmdQueue) : Prop where
  idle : ∀ idx : Fin hmCmdMaxCmdItem,
    cmds.sCmdQueue[idx].state = .hmCmdStIdle → cmds.sCmdQueue[idx].bufIdx = 0
  current : ∀ idx : Fin hmCmdMaxCmdItem,
    cmds.sCmdQueue[idx].state = .hmCmdStFilling → cmds.sQueueIdx = some idx
  started : ∀ idx : Fin hmCmdMaxCmdItem, cmds.sCmdQueue[idx].state = .hmCmdStFilling →
    1 ≤ cmds.sCmdQueue[idx].bufIdx ∧ cmds.sCmdQueue[idx].bufIdx < HmCmdReq.size

theorem filling_eq_some :
    cmds.filling = some idx ↔
      cmds.sQueueIdx = some idx ∧ cmds.sCmdQueue[idx].state = .hmCmdStFilling := by
  simp [filling, Option.filter_eq_some_iff]

theorem hmCmdInit_state (Func : Type) (memory : Vector HmCmdItem hmCmdMaxCmdItem)
    (idx : Fin hmCmdMaxCmdItem) :
    (hmCmdInit Func memory).1.sCmdQueue[idx].state = .hmCmdStIdle ∧
      (hmCmdInit Func memory).1.sCmdQueue[idx].bufIdx = 0 := by
  simp [hmCmdInit, HmCmdItem.hmCmdQueueItemInit]

theorem hmCmdInit_keeps (Func : Type) (memory : Vector HmCmdItem hmCmdMaxCmdItem) :
    (hmCmdInit Func memory).1.Keeps where
  idle idx _ := (hmCmdInit_state Func memory idx).2
  current idx filling := by cases (hmCmdInit_state Func memory idx).1.symm.trans filling
  started idx filling := by cases (hmCmdInit_state Func memory idx).1.symm.trans filling

theorem hmCmdFindIdle_some (found : cmds.hmCmdFindIdle = some idx) :
    cmds.sCmdQueue[idx].state = .hmCmdStIdle := by
  simpa using List.find?_some found

theorem pcmdItem_held (keeps : cmds.Keeps) (free : cmds.pcmdItem = some idx) :
    cmds.sCmdQueue[idx].bufIdx < HmCmdReq.size ∧
      cmds.sCmdQueue[idx].cmdBuf.toList.take cmds.sCmdQueue[idx].bufIdx = cmds.received := by
  unfold pcmdItem at free
  unfold received
  cases filling : cmds.filling with
  | none =>
      rw [filling] at free
      rw [keeps.idle idx (hmCmdFindIdle_some free)]
      exact ⟨by decide, rfl⟩
  | some idx' =>
      rw [filling] at free
      cases free
      obtain ⟨-, state⟩ := filling_eq_some.mp filling
      exact ⟨(keeps.started idx state).2, rfl⟩

theorem hmCmdUartCk_none (full : cmds.pcmdItem = none) :
    cmds.hmCmdUartCk pch curTime = (cmds, none) := by
  unfold hmCmdUartCk
  rw [full]

theorem hmCmdUartCk_some (pch : UInt8) (curTime : UInt32) (keeps : cmds.Keeps) (free : cmds.pcmdItem = some idx) :
    ∃ item pushed, Outcome (cmds.extended pch curTime) (item, pushed) ∧
      cmds.hmCmdUartCk pch curTime =
        (⟨cmds.sCmdQueue.put idx item, some idx, curTime⟩, if pushed then some idx else none) := by
  obtain ⟨room, held⟩ := pcmdItem_held keeps free
  unfold hmCmdUartCk extended
  rw [free]
  refine ⟨_, _, HmCmdItem.fill_outcome pch ?_ ?_ ?_, rfl⟩
  · split <;> rfl
  · split
    · exact Nat.zero_lt_succ _
    · exact room
  · split
    · rfl
    · exact held

theorem hmCmdFindIdle_isSome :
    cmds.hmCmdFindIdle.isSome ↔
      ∃ idx : Fin hmCmdMaxCmdItem, cmds.sCmdQueue[idx].state = .hmCmdStIdle := by
  simp [hmCmdFindIdle, List.find?_isSome]

theorem Keeps.other (keeps : cmds.Keeps) (free : cmds.pcmdItem = some idx)
    {idx' : Fin hmCmdMaxCmdItem} (apart : idx ≠ idx') :
    cmds.sCmdQueue[idx'].state ≠ .hmCmdStFilling := by
  intro state
  have filling : cmds.filling = some idx' := filling_eq_some.mpr ⟨keeps.current idx' state, state⟩
  unfold pcmdItem at free
  rw [filling] at free
  cases free
  exact apart rfl

section Byte
variable {item : HmCmdItem} {bytes : List UInt8} {pushed : Bool} {time : UInt32}

theorem filling_put (cmds : CmdQueue) :
    (⟨cmds.sCmdQueue.put idx item, some idx, time⟩ : CmdQueue).filling =
      if item.state = .hmCmdStFilling then some idx else none := by
  simp only [filling, Option.filter_some, Vector.getElem_put, if_true, decide_eq_true_eq]

theorem Keeps.byte (keeps : cmds.Keeps) (free : cmds.pcmdItem = some idx)
    (outcome : Outcome bytes (item, pushed)) (some_ : bytes ≠ []) :
    (⟨cmds.sCmdQueue.put idx item, some idx, time⟩ : CmdQueue).Keeps := by
  have length := List.length_pos_iff.mpr some_
  refine ⟨fun idx' => ?_, fun idx' => ?_, fun idx' => ?_⟩
  · dsimp only
    rw [Vector.getElem_put]
    split
    · intro idle
      cases outcome with
      | more _ filling => cases filling.symm.trans idle
      | wrong _ _ _ empty => exact empty
      | pushed _ _ pushed => cases pushed.symm.trans idle
    · exact keeps.idle idx'
  · dsimp only
    rw [Vector.getElem_put]
    split
    · rename_i here
      intro _
      rw [here]
    · rename_i apart
      intro filling
      exact (keeps.other free apart filling).elim
  · dsimp only
    rw [Vector.getElem_put]
    split
    · intro filling
      cases outcome with
      | more short _ count => omega
      | wrong _ _ idle => cases idle.symm.trans filling
      | pushed _ _ pushed => cases pushed.symm.trans filling
    · exact keeps.started idx'

theorem received_put (outcome : Outcome bytes (item, pushed)) :
    (⟨cmds.sCmdQueue.put idx item, some idx, time⟩ : CmdQueue).received =
      if bytes.length < HmCmdReq.size then bytes else [] := by
  unfold CmdQueue.received
  rw [filling_put]
  cases outcome with
  | more short filling count held =>
      simp only [filling, short, if_true, Vector.getElem_put]
      exact held
  | wrong full _ idle => simp [idle, full]
  | pushed full _ pushed => simp [pushed, full]

theorem available_put (outcome : Outcome bytes (item, false)) :
    (⟨cmds.sCmdQueue.put idx item, some idx, time⟩ : CmdQueue).pcmdItem.isSome := by
  unfold pcmdItem
  rw [filling_put]
  cases outcome with
  | more _ filling =>
      rw [if_pos filling]
      rfl
  | wrong _ _ idle =>
      rw [if_neg (by simp [idle])]
      exact hmCmdFindIdle_isSome.mpr ⟨idx, by rw [Vector.getElem_put, if_pos rfl, idle]⟩

end Byte

section Main
variable {item : HmCmdItem}

structure Spared (cmds cmds' : CmdQueue) : Prop where
  keeps : cmds'.Keeps
  filling : cmds'.filling = cmds.filling
  received : cmds'.received = cmds.received
  slLastTim : cmds'.slLastTim = cmds.slLastTim
  available : cmds.pcmdItem.isSome → cmds'.pcmdItem.isSome

theorem Keeps.spared (keeps : cmds.Keeps) (used : cmds.sCmdQueue[idx].state ≠ .hmCmdStIdle)
    (before : cmds.sCmdQueue[idx].state ≠ .hmCmdStFilling) (after : item.state ≠ .hmCmdStFilling)
    (empty : item.state = .hmCmdStIdle → item.bufIdx = 0) :
    cmds.Spared { cmds with sCmdQueue := cmds.sCmdQueue.put idx item } := by
  have state (idx' : Fin hmCmdMaxCmdItem) :
      (cmds.sCmdQueue.put idx item)[idx'].state = .hmCmdStFilling ↔
        cmds.sCmdQueue[idx'].state = .hmCmdStFilling := by
    rw [Vector.getElem_put]
    split
    · rename_i here
      subst here
      exact iff_of_false after before
    · exact Iff.rfl
  have filling : CmdQueue.filling { cmds with sCmdQueue := cmds.sCmdQueue.put idx item } =
      cmds.filling := by
    simp only [CmdQueue.filling, state]
  refine ⟨⟨fun idx' => ?_, fun idx' => ?_, fun idx' => ?_⟩, filling, ?_, rfl, ?_⟩
  · dsimp only
    rw [Vector.getElem_put]
    split
    · exact empty
    · exact keeps.idle idx'
  · dsimp only
    rw [state]
    exact keeps.current idx'
  · dsimp only
    rw [state, Vector.getElem_put]
    split
    · rename_i here
      subst here
      exact fun filling => (before filling).elim
    · exact keeps.started idx'
  · unfold CmdQueue.received
    rw [filling]
    cases current : cmds.filling with
    | none => rfl
    | some idx' =>
        have apart : idx ≠ idx' := by
          rintro rfl
          exact before (filling_eq_some.mp current).2
        simp only [Vector.getElem_put, if_neg apart]
  · unfold pcmdItem
    rw [filling]
    cases cmds.filling with
    | some _ => exact id
    | none =>
        intro found
        obtain ⟨idx', idle⟩ := hmCmdFindIdle_isSome.mp found
        have apart : idx ≠ idx' := by
          rintro rfl
          exact used idle
        exact hmCmdFindIdle_isSome.mpr ⟨idx', by simpa only [Vector.getElem_put, if_neg apart]⟩

theorem Keeps.calling (keeps : cmds.Keeps)
    (pushed : cmds.sCmdQueue[idx].state = .hmCmdStPushed) : cmds.Spared (cmds.calling idx) := by
  apply keeps.spared
  · rw [pushed]
    decide
  · rw [pushed]
    decide
  · exact HmCmdItemState.noConfusion
  · intro idle
    cases idle

theorem Keeps.finishItem (keeps : cmds.Keeps) (answer : Vector UInt8 HmCmdReq.size)
    (calling : cmds.sCmdQueue[idx].state = .hmCmdStCalling) :
    cmds.Spared (cmds.finishItem idx answer) := by
  apply keeps.spared
  · rw [calling]
    decide
  · rw [calling]
    decide
  · exact HmCmdItemState.noConfusion
  · intro _
    rfl

end Main

end CmdQueue

end MotionBoard.Uart
