import Mathlib.Data.List.Induction
import MotionBoard.Uart.Received

namespace MotionBoard.Uart

inductive LineEvent
  | byte (pch : UInt8) (time : Nat)
  | call (idx : Fin hmCmdMaxCmdItem)
  | finish (idx : Fin hmCmdMaxCmdItem) (answer : Vector UInt8 HmCmdReq.size)

def LineEvent.byte? : LineEvent → Option (UInt8 × Nat)
  | .byte pch time => some (pch, time)
  | _ => none

def bytes (events : List LineEvent) : List UInt8 :=
  (events.filterMap LineEvent.byte?).map Prod.fst

def times (events : List LineEvent) : List Nat :=
  (events.filterMap LineEvent.byte?).map Prod.snd

namespace CmdQueue

def clock (start : UInt32) (time : Nat) : UInt32 := start + UInt32.ofNat time

def exec (start : UInt32) (cmds : CmdQueue) : LineEvent → CmdQueue
  | .byte pch time => (cmds.hmCmdUartCk pch (clock start time)).1
  | .call idx =>
      if cmds.sCmdQueue[idx].state = .hmCmdStPushed then cmds.calling idx else cmds
  | .finish idx answer =>
      if cmds.sCmdQueue[idx].state = .hmCmdStCalling then cmds.finishItem idx answer else cmds

def after (start : UInt32) (cmds : CmdQueue) (events : List LineEvent) : CmdQueue :=
  events.foldl (exec start) cmds

def push (start : UInt32) (cmds : CmdQueue) (pch : UInt8) (time : Nat) : Option (List UInt8) :=
  let (cmds, pushed) := cmds.hmCmdUartCk pch (clock start time)
  pushed.map fun idx => cmds.sCmdQueue[idx].cmdBuf.toList

def pushes (start : UInt32) (cmds : CmdQueue) : List LineEvent → List (Option (List UInt8))
  | [] => []
  | .byte pch time :: events =>
      cmds.push start pch time :: pushes start (cmds.exec start (.byte pch time)) events
  | event :: events => pushes start (cmds.exec start event) events

structure Frame (last : Option Nat) (events : List LineEvent) : Prop where
  size : (bytes events).length = HmCmdReq.size
  marked : Marked (bytes events)
  pause : ∀ l ∈ last, ∀ first ∈ (times events).head?, l + 300 < first ∧ first < l + 2 ^ 31
  gaps : (times events).IsChain fun t u => t ≤ u ∧ u ≤ t + 300

/-- No request is unfinished, or its last byte, at time `l`, lets the time-out be noticed. -/
def Noticed (start : UInt32) (cmds : CmdQueue) (last first : Option Nat) : Prop :=
  cmds.filling = none ∨ ∀ l ∈ last, ∀ t ∈ first, clock start l ≠ hmTimInvalidCount ∧
    ¬ (t = l + 301 ∧ clock start t < clock start l)

def Since (start : UInt32) (cmds : CmdQueue) (last : Option Nat) : Prop :=
  cmds.filling.isSome → ∃ l ∈ last, cmds.slLastTim = clock start l

section Clock
variable {start : UInt32} {l t : Nat}

theorem clock_toNat (start : UInt32) (t : Nat) : (clock start t).toNat = (start.toNat + t) % 2 ^ 32 := by
  rw [clock, UInt32.toNat_add, UInt32.toNat_ofNat']
  exact Nat.add_mod_mod _ _ _

/-- `hm_tim_diff` is one too small when the counter has wrapped. -/
theorem hmTimDiff_toNat (start : UInt32) (le : l ≤ t) (short : t < l + 2 ^ 32) :
    (hmTimDiff (clock start l) (clock start t)).toNat =
      if clock start t < clock start l then t - l - 1 else t - l := by
  have earlier := clock_toNat start l
  have later := clock_toNat start t
  unfold hmTimDiff
  by_cases wraps : clock start t < clock start l
  · have less := UInt32.lt_iff_toNat_lt.mp wraps
    have bound := (clock start l).toNat_lt
    have rest : ((0xffffffff : UInt32) - clock start l).toNat =
        2 ^ 32 - 1 - (clock start l).toNat :=
      UInt32.toNat_sub_of_le _ _ (UInt32.le_iff_toNat_le.mpr (Nat.le_of_lt_succ bound))
    rw [if_neg (UInt32.not_le.mpr wraps), if_pos wraps, UInt32.toNat_add, rest]
    omega
  · have le' := UInt32.not_lt.mp wraps
    have less := UInt32.le_iff_toNat_le.mp le'
    rw [if_pos le', if_neg wraps, UInt32.toNat_sub_of_le _ _ le']
    omega

variable {cmds : CmdQueue} (since : cmds.slLastTim = clock start l)
include since

theorem expired_iff (late : l + 300 < t) (short : t < l + 2 ^ 32) :
    cmds.expired (clock start t) ↔ clock start l ≠ hmTimInvalidCount ∧
      ¬ (t = l + 301 ∧ clock start t < clock start l) := by
  have diff := hmTimDiff_toNat start (show l ≤ t by omega) short
  unfold expired
  rw [since, Bool.and_eq_true, decide_eq_true_eq, decide_eq_true_eq]
  apply and_congr_right
  intro _
  rw [gt_iff_lt, UInt32.lt_iff_toNat_lt, diff]
  change 300 < _ ↔ _
  split
  · rename_i wraps
    simp only [wraps, and_true]
    omega
  · rename_i flat
    simp only [flat, and_false, not_false_iff, iff_true]
    omega

theorem not_expired (le : l ≤ t) (soon : t ≤ l + 300) : ¬ cmds.expired (clock start t) := by
  have diff := hmTimDiff_toNat start le (by omega)
  unfold expired
  rw [since, Bool.and_eq_true, decide_eq_true_eq, decide_eq_true_eq, gt_iff_lt,
    UInt32.lt_iff_toNat_lt, diff]
  rintro ⟨-, more⟩
  change 300 < _ at more
  split at more <;> omega

end Clock

section Step
variable {start : UInt32} {cmds : CmdQueue} {pch : UInt8} {time : Nat}

inductive Reaches (start : UInt32) (cmds : CmdQueue) (pch : UInt8) (time : Nat)
    (bytes : List UInt8) (next : CmdQueue) : Prop
  | more (short : bytes.length < HmCmdReq.size) (filling : next.filling.isSome)
      (received : next.received = bytes) (push : cmds.push start pch time = none)
  | wrong (full : bytes.length = HmCmdReq.size) (unmarked : ¬ Marked bytes)
      (received : next.received = []) (free : next.pcmdItem.isSome)
      (push : cmds.push start pch time = none)
  | pushed (full : bytes.length = HmCmdReq.size) (marked : Marked bytes)
      (push : cmds.push start pch time = some bytes)

theorem extended_ne_nil (curTime : UInt32) : cmds.extended pch curTime ≠ [] :=
  List.append_ne_nil_of_right_ne_nil _ (List.cons_ne_nil _ _)

theorem exec_byte (start : UInt32) (pch : UInt8) (time : Nat) (keeps : cmds.Keeps) (free : cmds.pcmdItem.isSome) :
    (cmds.exec start (.byte pch time)).Keeps ∧
      (cmds.exec start (.byte pch time)).slLastTim = clock start time ∧
      cmds.Reaches start pch time (cmds.extended pch (clock start time))
        (cmds.exec start (.byte pch time)) := by
  obtain ⟨idx, free⟩ := Option.isSome_iff_exists.mp free
  obtain ⟨item, pushed, outcome, result⟩ :=
    hmCmdUartCk_some pch (clock start time) keeps free
  have push : cmds.push start pch time = if pushed then some item.cmdBuf.toList else none := by
    unfold CmdQueue.push
    rw [result]
    cases pushed with
    | false => rfl
    | true =>
        have stored := Vector.getElem_put cmds.sCmdQueue idx idx item
        rw [if_pos rfl] at stored
        exact congrArg (fun item : HmCmdItem => some item.cmdBuf.toList) stored
  have next : cmds.exec start (.byte pch time) =
      ⟨cmds.sCmdQueue.put idx item, some idx, clock start time⟩ := congrArg Prod.fst result
  rw [next]
  refine ⟨keeps.byte free outcome (extended_ne_nil _), rfl, ?_⟩
  have received : CmdQueue.received ⟨cmds.sCmdQueue.put idx item, some idx, clock start time⟩ = _ :=
    received_put outcome
  cases outcome with
  | more short filling =>
      refine .more short ?_ (received.trans (if_pos short)) push
      rw [filling_put, if_pos filling]
      rfl
  | wrong full unmarked idle empty =>
      exact .wrong full unmarked (received.trans (if_neg (by omega)))
        (available_put (.wrong full unmarked idle empty)) push
  | pushed full marked _ held =>
      rw [if_pos rfl, held] at push
      exact .pushed full marked push

theorem Keeps.exec (keeps : cmds.Keeps) (start : UInt32) {event : LineEvent} (main : event.byte? = none) :
    cmds.Spared (cmds.exec start event) := by
  have same : cmds.Spared cmds := ⟨keeps, rfl, rfl, rfl, id⟩
  cases event with
  | byte pch time => cases main
  | call idx =>
      unfold CmdQueue.exec
      dsimp only
      split
      · rename_i pushed
        exact keeps.calling pushed
      · exact same
  | finish idx answer =>
      unfold CmdQueue.exec
      dsimp only
      split
      · rename_i calling
        exact keeps.finishItem answer calling
      · exact same

theorem filling_none (full : cmds.pcmdItem = none) : cmds.filling = none := by
  unfold pcmdItem at full
  cases filling : cmds.filling with
  | none => rfl
  | some idx =>
      rw [filling] at full
      cases full

theorem Keeps.exec_keeps (keeps : cmds.Keeps) (event : LineEvent) :
    (cmds.exec start event).Keeps := by
  cases event with
  | byte pch time =>
      cases free : cmds.pcmdItem with
      | none =>
          unfold CmdQueue.exec
          dsimp only
          rw [hmCmdUartCk_none free]
          exact keeps
      | some idx => exact (exec_byte start pch time keeps (by rw [free]; rfl)).1
  | call idx => exact (keeps.exec start rfl).keeps
  | finish idx answer => exact (keeps.exec start rfl).keeps

theorem Since.exec {last : Option Nat} (keeps : cmds.Keeps) (since : cmds.Since start last)
    (event : LineEvent) :
    (cmds.exec start event).Since start ((event.byte?.map Prod.snd).or last) := by
  cases event with
  | byte pch time =>
      cases free : cmds.pcmdItem with
      | none =>
          unfold CmdQueue.exec
          dsimp only
          rw [hmCmdUartCk_none free]
          intro filling
          rw [filling_none free] at filling
          cases filling
      | some idx =>
          intro _
          exact ⟨time, rfl, (exec_byte start pch time keeps (by rw [free]; rfl)).2.1⟩
  | call idx =>
      intro filling
      have spared : cmds.Spared (cmds.exec start (.call idx)) := keeps.exec start rfl
      rw [spared.filling] at filling
      rw [spared.slLastTim]
      exact since filling
  | finish idx answer =>
      intro filling
      have spared : cmds.Spared (cmds.exec start (.finish idx answer)) := keeps.exec start rfl
      rw [spared.filling] at filling
      rw [spared.slLastTim]
      exact since filling

end Step

section Init
variable (start : UInt32) (memory : Vector HmCmdItem hmCmdMaxCmdItem)

def init : CmdQueue := (hmCmdInit Unit memory).1

theorem times_concat (events : List LineEvent) (event : LineEvent) :
    (times (events ++ [event])).getLast? = (event.byte?.map Prod.snd).or (times events).getLast? := by
  cases event <;> simp [times, LineEvent.byte?]

theorem after_since (prior : List LineEvent) :
    ((init memory).after start prior).Keeps ∧
      ((init memory).after start prior).Since start (times prior).getLast? := by
  induction prior using List.reverseRecOn with
  | nil => exact ⟨hmCmdInit_keeps Unit memory, fun filling => by cases filling⟩
  | append_singleton prior event ih =>
      obtain ⟨keeps, since⟩ := ih
      rw [times_concat, CmdQueue.after, List.foldl_append]
      exact ⟨keeps.exec_keeps event, since.exec keeps event⟩

end Init

section Frame
variable {start : UInt32} {cmds : CmdQueue}

def Prompt (start : UInt32) (cmds : CmdQueue) (l : Nat) (events : List LineEvent) : Prop :=
  (cmds.filling.isSome → cmds.slLastTim = clock start l) ∧
    (l :: times events).IsChain fun t u => t ≤ u ∧ u ≤ t + 300

theorem received_nil (empty : cmds.filling = none) : cmds.received = [] := by
  unfold received
  rw [empty]

theorem Keeps.received_length (keeps : cmds.Keeps) (filling : cmds.filling.isSome) :
    1 ≤ cmds.received.length ∧ cmds.received.length < HmCmdReq.size := by
  obtain ⟨idx, filling⟩ := Option.isSome_iff_exists.mp filling
  have count := keeps.started idx (filling_eq_some.mp filling).2
  unfold received
  rw [filling]
  dsimp only
  rw [List.length_take_of_le (by simp only [Vector.length_toList]; omega)]
  exact count

theorem pcmdItem_filling (filling : cmds.filling.isSome) : cmds.pcmdItem.isSome := by
  obtain ⟨idx, filling⟩ := Option.isSome_iff_exists.mp filling
  unfold pcmdItem
  rw [filling]
  rfl

theorem Prompt.extended {l time : Nat} {pch : UInt8} {events : List LineEvent}
    (prompt : cmds.Prompt start l (.byte pch time :: events)) :
    cmds.extended pch (clock start time) = cmds.received ++ [pch] := by
  obtain ⟨since, gaps⟩ := prompt
  obtain ⟨⟨le, soon⟩, -⟩ := List.isChain_cons_cons.mp gaps
  unfold CmdQueue.extended
  cases filling : cmds.filling with
  | none => simp [received_nil filling]
  | some idx =>
      rw [if_neg (not_expired (since (by rw [filling]; rfl)) le soon)]

theorem Prompt.byte {l time : Nat} {pch : UInt8} {events : List LineEvent}
    (prompt : cmds.Prompt start l (.byte pch time :: events))
    (since : (cmds.exec start (.byte pch time)).slLastTim = clock start time) :
    (cmds.exec start (.byte pch time)).Prompt start time events :=
  ⟨fun _ => since, (List.isChain_cons_cons.mp prompt.2).2⟩

theorem Prompt.other {l : Nat} {event : LineEvent} {events : List LineEvent}
    (prompt : cmds.Prompt start l (event :: events)) (main : event.byte? = none)
    (spared : cmds.Spared (cmds.exec start event)) :
    (cmds.exec start event).Prompt start l events := by
  obtain ⟨since, gaps⟩ := prompt
  have rest : times (event :: events) = times events := by simp [times, main]
  rw [rest] at gaps
  refine ⟨fun filling => ?_, gaps⟩
  rw [spared.filling] at filling
  exact spared.slLastTim.trans (since filling)

theorem pushes_nil {events : List LineEvent} (none_ : bytes events = []) :
    pushes start cmds events = [] := by
  induction events generalizing cmds with
  | nil => rfl
  | cons event events ih =>
      cases event with
      | byte pch time => simp [bytes, LineEvent.byte?] at none_
      | call idx => exact ih none_
      | finish idx answer => exact ih none_

theorem completes {l : Nat} {events : List LineEvent} (keeps : cmds.Keeps)
    (filling : cmds.filling.isSome) (prompt : cmds.Prompt start l events)
    (whole : cmds.received.length + (bytes events).length = HmCmdReq.size)
    (marked : Marked (cmds.received ++ bytes events)) :
    pushes start cmds events = List.replicate ((bytes events).length - 1) none ++
      [some (cmds.received ++ bytes events)] := by
  induction events generalizing cmds l with
  | nil =>
      have short := keeps.received_length filling
      simp [bytes] at whole
      omega
  | cons event events ih =>
      -- what the main loop does in between changes neither side
      have other (main : event.byte? = none) : pushes start (cmds.exec start event) events =
          List.replicate ((bytes (event :: events)).length - 1) none ++
            [some (cmds.received ++ bytes (event :: events))] := by
        have spared := keeps.exec start main
        have rest : bytes (event :: events) = bytes events := by simp [bytes, main]
        rw [rest] at whole marked ⊢
        rw [← spared.received] at whole marked ⊢
        exact ih spared.keeps (by rw [spared.filling]; exact filling) (prompt.other main spared)
          whole marked
      cases event with
      | byte pch time =>
          obtain ⟨keeps', since, reaches⟩ :=
            exec_byte start pch time keeps (pcmdItem_filling filling)
          rw [prompt.extended] at reaches
          have first : bytes (.byte pch time :: events) = pch :: bytes events := rfl
          have split : cmds.received ++ pch :: bytes events =
              (cmds.received ++ [pch]) ++ bytes events := by simp
          rw [first, List.length_cons] at whole
          rw [first, split] at marked
          rw [first, split]
          simp only [pushes]
          cases reaches with
          | more short filling' received push =>
              rw [List.length_append, List.length_singleton] at short
              rw [← received] at marked ⊢
              rw [push, ih keeps' filling' (prompt.byte since) (by
                rw [received, List.length_append, List.length_singleton]; omega) marked]
              obtain ⟨n, more⟩ : ∃ n, (bytes events).length = n + 1 :=
                ⟨(bytes events).length - 1, by omega⟩
              rw [List.length_cons, more]
              rfl
          | wrong full unmarked =>
              rw [List.length_append, List.length_singleton] at full
              have last : bytes events = [] := List.length_eq_zero_iff.mp (by omega)
              rw [last, List.append_nil] at marked
              exact (unmarked marked).elim
          | pushed full _ push =>
              rw [List.length_append, List.length_singleton] at full
              have last : bytes events = [] := List.length_eq_zero_iff.mp (by omega)
              rw [push, pushes_nil last, last]
              simp
      | call idx => exact other rfl
      | finish idx answer => exact other rfl

theorem pushes_length {l n : Nat} {events : List LineEvent} {frame : List UInt8}
    (keeps : cmds.Keeps) (free : cmds.pcmdItem.isSome) (prompt : cmds.Prompt start l events)
    (last : pushes start cmds events = List.replicate n none ++ [some frame]) :
    (cmds.received.length + n + 1) % HmCmdReq.size = 0 := by
  induction events generalizing cmds l n with
  | nil => simp [pushes] at last
  | cons event events ih =>
      have other (main : event.byte? = none)
          (last : pushes start (cmds.exec start event) events = List.replicate n none ++ [some frame]) :
          (cmds.received.length + n + 1) % HmCmdReq.size = 0 := by
        have spared := keeps.exec start main
        rw [← spared.received]
        exact ih spared.keeps (spared.available free) (prompt.other main spared) last
      cases event with
      | byte pch time =>
          obtain ⟨keeps', since, reaches⟩ :=
            exec_byte start pch time keeps free
          rw [prompt.extended] at reaches
          simp only [pushes] at last
          cases n with
          | zero =>
              cases reaches with
              | more _ _ _ push => simp [push] at last
              | wrong _ _ _ _ push => simp [push] at last
              | pushed full =>
                  rw [List.length_append, List.length_singleton] at full
                  rw [Nat.add_zero, full]
                  rfl
          | succ n =>
              rw [List.replicate_succ, List.cons_append, List.cons.injEq] at last
              obtain ⟨first, last⟩ := last
              cases reaches with
              | more short filling received push =>
                  have rest := ih keeps' (pcmdItem_filling filling) (prompt.byte since) last
                  rw [received, List.length_append, List.length_singleton] at rest
                  rw [← rest]
                  congr 1
                  omega
              | wrong full _ received free push =>
                  have rest := ih keeps' free (prompt.byte since) last
                  rw [received, List.length_nil] at rest
                  rw [List.length_append, List.length_singleton] at full
                  simp only [HmCmdReq.size] at *
                  omega
              | pushed _ _ push => cases push.symm.trans first
      | call idx => exact other rfl last
      | finish idx answer => exact other rfl last

theorem Frame.fresh {last : Option Nat} {pch : UInt8} {time : Nat} {events : List LineEvent}
    (keeps : cmds.Keeps) (free : cmds.pcmdItem.isSome)
    (frame : Frame last (.byte pch time :: events))
    (fresh : cmds.extended pch (clock start time) = [pch]) :
    pushes start cmds (.byte pch time :: events) =
      List.replicate (HmCmdReq.size - 1) none ++ [some (bytes (.byte pch time :: events))] := by
  obtain ⟨keeps', since, reaches⟩ :=
    exec_byte start pch time keeps free
  rw [fresh] at reaches
  have size := frame.size
  have first : bytes (.byte pch time :: events) = pch :: bytes events := rfl
  rw [first, List.length_cons] at size
  simp only [pushes]
  cases reaches with
  | more short filling received push =>
      have rest := completes (l := time) keeps' filling ⟨fun _ => since, frame.gaps⟩
        (by rw [received, List.length_singleton, Nat.add_comm]; exact size)
        (by rw [received]; exact frame.marked)
      rw [push, rest, received, first, Nat.succ.inj size]
      rfl
  | wrong full => cases full
  | pushed full => cases full

theorem Frame.stale {last : Option Nat} {pch : UInt8} {time : Nat} {events : List LineEvent}
    (keeps : cmds.Keeps) (filling : cmds.filling.isSome)
    (frame : Frame last (.byte pch time :: events))
    (stale : cmds.extended pch (clock start time) = cmds.received ++ [pch]) (bytes : List UInt8) :
    pushes start cmds (.byte pch time :: events) ≠
      List.replicate (HmCmdReq.size - 1) none ++ [some bytes] := by
  intro pushed
  obtain ⟨keeps', since, reaches⟩ :=
    exec_byte start pch time keeps (pcmdItem_filling filling)
  rw [stale] at reaches
  obtain ⟨first, rest⟩ := List.cons.inj pushed
  have prompt : (cmds.exec start (.byte pch time)).Prompt start time events :=
    ⟨fun _ => since, frame.gaps⟩
  obtain ⟨begun, room⟩ := keeps.received_length filling
  cases reaches with
  | more short filling' received push =>
      have length := pushes_length keeps' (pcmdItem_filling filling') prompt rest
      rw [received, List.length_append, List.length_singleton] at length
      simp only [HmCmdReq.size] at *
      omega
  | wrong full _ received free push =>
      have length := pushes_length keeps' free prompt rest
      rw [received] at length
      cases length
  | pushed _ _ push => cases push.symm.trans first

theorem frame_iff {last : Option Nat} {events : List LineEvent} (keeps : cmds.Keeps)
    (since : cmds.Since start last) (free : cmds.pcmdItem.isSome) (frame : Frame last events) :
    pushes start cmds events =
        List.replicate (HmCmdReq.size - 1) none ++ [some (bytes events)] ↔
      cmds.Noticed start last (times events).head? := by
  induction events generalizing cmds with
  | nil => cases frame.size
  | cons event events ih =>
      -- by induction to the first byte, which decides
      have other (main : event.byte? = none) :
          pushes start (cmds.exec start event) events =
              List.replicate (HmCmdReq.size - 1) none ++ [some (bytes (event :: events))] ↔
            cmds.Noticed start last (times (event :: events)).head? := by
        have spared := keeps.exec start main
        have bytes_ : bytes (event :: events) = bytes events := by simp [bytes, main]
        have times_ : times (event :: events) = times events := by simp [times, main]
        obtain ⟨size, marked, pause, gaps⟩ := frame
        rw [bytes_] at size marked
        rw [times_] at pause gaps
        rw [bytes_, times_, ih spared.keeps (fun filling => ?_) (spared.available free)
          ⟨size, marked, pause, gaps⟩]
        · unfold Noticed
          rw [spared.filling]
        · rw [spared.filling] at filling
          rw [spared.slLastTim]
          exact since filling
      cases event with
      | byte pch time =>
          cases filling : cmds.filling with
          | none =>
              have fresh : cmds.extended pch (clock start time) = [pch] := by
                simp [extended, received_nil filling]
              exact iff_of_true (frame.fresh keeps free fresh) (.inl filling)
          | some idx =>
              have begun : cmds.filling.isSome := by rw [filling]; rfl
              obtain ⟨l, known, slLastTim⟩ := since begun
              obtain ⟨late, short⟩ := frame.pause l known time rfl
              have noticed := expired_iff slLastTim late (Nat.lt_trans short (by omega))
              by_cases expired : cmds.expired (clock start time)
              · have fresh : cmds.extended pch (clock start time) = [pch] := by
                  simp [extended, expired]
                refine iff_of_true (frame.fresh keeps free fresh) (.inr ?_)
                intro l' known' t first
                cases known.symm.trans known'
                cases first
                exact noticed.mp expired
              · have stale : cmds.extended pch (clock start time) = cmds.received ++ [pch] := by
                  simp [extended, expired]
                refine iff_of_false (frame.stale keeps begun stale _) ?_
                rintro (empty | late)
                · cases filling.symm.trans empty
                · exact expired (noticed.mpr (late l known time rfl))
      | call idx => exact other rfl
      | finish idx answer => exact other rfl

end Frame

section Resynchronise
variable (memory : Vector HmCmdItem hmCmdMaxCmdItem) (start : UInt32)

/-- After any bytes and a pause of more than 300 ms, the 30 bytes of a request push just this
request, with the last of them, exactly when no request is unfinished or the pause is noticed. -/
theorem resynchronises_iff (prior events : List LineEvent)
    (free : ((init memory).after start prior).pcmdItem.isSome)
    (frame : Frame (times prior).getLast? events) :
    pushes start ((init memory).after start prior) events =
        List.replicate (HmCmdReq.size - 1) none ++ [some (bytes events)] ↔
      ((init memory).after start prior).Noticed start (times prior).getLast?
        (times events).head? := by
  obtain ⟨keeps, since⟩ := after_since start memory prior
  exact frame_iff keeps since free frame

def requestAt (time : Nat) : List LineEvent :=
  let request : List UInt8 := List.replicate 27 0 ++ [hmCmdMark1, hmCmdMark2, hmCmdOwerClient]
  request.zipIdx.map fun byte => .byte byte.1 (time + byte.2)

def blank : Vector HmCmdItem hmCmdMaxCmdItem :=
  Vector.replicate hmCmdMaxCmdItem ⟨0, Vector.replicate HmCmdReq.size 0, .hmCmdStIdle⟩

theorem requestAt_frame {time l : Nat} (late : l + 300 < time) (short : time < l + 2 ^ 31) :
    Frame (some l) (requestAt time) where
  size := rfl
  marked := by
    have request : bytes (requestAt time) =
        List.replicate 27 0 ++ [hmCmdMark1, hmCmdMark2, hmCmdOwerClient] := rfl
    rw [request]
    decide
  pause := by
    intro l' same first first'
    cases same
    cases first'
    exact ⟨late, short⟩
  gaps := by simp [requestAt, times, LineEvent.byte?]

theorem resynchronises_after_one :
    pushes 0 ((init blank).after 0 [.byte 0 1000]) (requestAt 2000) =
      List.replicate (HmCmdReq.size - 1) none ++ [some (bytes (requestAt 2000))] := by
  refine (resynchronises_iff blank 0 [.byte 0 1000] (requestAt 2000) (by decide +kernel)
    (requestAt_frame (by decide) (by decide))).mpr (.inr ?_)
  intro l last t first
  cases last
  cases first
  decide

theorem lost_after_invalid_count :
    Frame (times [.byte 0 0xffff]).getLast? (requestAt 66535) ∧
      ((init blank).after 0 [.byte 0 0xffff]).pcmdItem.isSome ∧
      pushes 0 ((init blank).after 0 [.byte 0 0xffff]) (requestAt 66535) ≠
        List.replicate (HmCmdReq.size - 1) none ++ [some (bytes (requestAt 66535))] := by
  refine ⟨requestAt_frame (by decide) (by decide), by decide +kernel, ?_⟩
  decide +kernel

end Resynchronise

end CmdQueue

end MotionBoard.Uart
