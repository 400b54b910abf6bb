import MotionBoard.Lib.Transition
import MotionBoard.Queue.Fifo

namespace MotionBoard
open Ring Transition

/-- A call of `hm_msg_queue_add` that has begun: past the full test, or past the reservation. -/
inductive AddCall (Func Param : Type)
  | tested (func : Func) (param : Param)
  | reserved (pmsg : Fin hmMsgMax) (func : Func) (param : Param)
  deriving DecidableEq, Repr

/-- How far `hm_msg_queue_main` is: it holds a message that it has not called yet, or is in its
callback. -/
inductive MainCall
  | idle
  | found (pmsg : Fin hmMsgMax)
  | called (pmsg : Fin hmMsgMax)
  deriving DecidableEq, Repr

structure Preempted (Func Param : Type) where
  pmsgs : MsgQueues Func Param
  adds : List (AddCall Func Param)
  main : MainCall

inductive QueuePart (Func Param : Type)
  | test (func : Option Func) (param : Param)
  | reserve
  | store
  | find
  | invoke
  | moveRead
  deriving DecidableEq, Repr

variable {Func Param : Type}

def AddCall.waits : AddCall Func Param → Bool
  | .tested .. => true
  | .reserved .. => false

namespace MsgQueues

/-- The part of `msg_get_move_next_write` with the interrupts disabled. -/
def reserve (pmsgs : MsgQueues Func Param) : MsgQueues Func Param :=
  { pmsgs with
    msgArray := pmsgs.msgArray.put pmsgs.nwrite { pmsgs.msgArray[pmsgs.nwrite] with busing := true }
    nwrite := pmsgs.nwrite + 1 }

def store (pmsgs : MsgQueues Func Param) (pmsg : Fin hmMsgMax) (func : Func) (param : Param) :
    MsgQueues Func Param :=
  let pmsgs :=
    if pmsgs.nmin > pmsgs.msgRemaining then { pmsgs with nmin := pmsgs.msgRemaining } else pmsgs
  { pmsgs with
    msgArray := pmsgs.msgArray.put pmsg { pmsgs.msgArray[pmsg] with func := some func, param } }

def used (pmsgs : MsgQueues Func Param) : Nat :=
  (pmsgs.nwrite + hmMsgMax - pmsgs.nread) % hmMsgMax

end MsgQueues

namespace Preempted

def init (memory : MsgQueues Func Param) : Preempted Func Param :=
  ⟨memory.hmMsgQueueInit, [], .idle⟩

def go (s : Preempted Func Param) :
    QueuePart Func Param → Option (Preempted Func Param × List (Note Func Param))
  | .test none param => some (s, [.refused none param])
  | .test (some func) param =>
      -- the interrupts are still enabled here, and the slot is not reserved yet
      if s.pmsgs.ismsgFull then some (s, [.refused (some func) param])
      else some ({ s with adds := .tested func param :: s.adds }, [])
  | .reserve =>
      match s.adds with
      | .tested func param :: adds => some ({ s with
          pmsgs := s.pmsgs.reserve
          adds := .reserved s.pmsgs.nwrite func param :: adds }, [.accepted func param])
      | _ => none
  | .store =>
      match s.adds with
      | .reserved pmsg func param :: adds =>
          some ({ s with pmsgs := s.pmsgs.store pmsg func param, adds }, [])
      | _ => none
  | .find =>
      match s.adds, s.main with
      | [], .idle => some ({ s with main := (s.pmsgs.msgGetRead.map .found).getD .idle }, [])
      | _, _ => none
  | .invoke =>
      match s.adds, s.main with
      | [], .found pmsg => s.pmsgs.msgArray[pmsg].func.map fun func =>
          ({ s with main := .called pmsg }, [.invoked func s.pmsgs.msgArray[pmsg].param])
      | _, _ => none
  | .moveRead =>
      match s.adds, s.main with
      | [], .called pmsg => (s.pmsgs.msgMoveNextRead pmsg).toOption.map fun pmsgs =>
          ({ s with pmsgs, main := .idle }, [.finished])
      | _, _ => none

def play (now : Preempted Func Param × List (Note Func Param)) (part : QueuePart Func Param) :
    Option (Preempted Func Param × List (Note Func Param)) :=
  (now.1.go part).map fun next => (next.1, now.2 ++ next.2)

abbrev Step (now : Preempted Func Param × List (Note Func Param)) (part : QueuePart Func Param)
    (next : Preempted Func Param × List (Note Func Param)) : Prop :=
  play now part = some next

def waiting (s : Preempted Func Param) : Nat := s.adds.countP AddCall.waits

/-- An add that finds the ring not full leaves a slot for every add that waits for one. -/
def Spare (s : Preempted Func Param) : QueuePart Func Param → Prop
  | .test (some _) _ => s.pmsgs.ismsgFull ∨ s.pmsgs.used + s.waiting < hmMsgMax - 1
  | _ => True

instance (s : Preempted Func Param) : (part : QueuePart Func Param) → Decidable (s.Spare part)
  | .test (some _) _ => inferInstanceAs
      (Decidable (s.pmsgs.ismsgFull = true ∨ s.pmsgs.used + s.waiting < hmMsgMax - 1))
  | .test none _ | .reserve | .store | .find | .invoke | .moveRead => isTrue trivial

def mainPart (s : Preempted Func Param) : QueuePart Func Param :=
  match s.main with
  | .idle => .find
  | .found _ => .invoke
  | .called _ => .moveRead

/-- The ring is not overfull: at most 79 slots are reserved, the write index is at the read index in
an empty ring only, each reserved slot holds its message or waits for the add that reserved it, the
messages are invoked in their order, and `hm_msg_queue_main` never stops for good. -/
structure Kept (s : Preempted Func Param) (notes : List (Note Func Param)) : Prop where
  room : (pending notes).length ≤ hmMsgMax - 1
  apart : s.pmsgs.nwrite = s.pmsgs.nread ↔ pending notes = []
  placed : ∀ k message, (pending notes)[k]? = some message →
    MsgQueues.read s.pmsgs.msgArray[after s.pmsgs.nread k] = (some message.1, message.2) ∨
      .reserved (after s.pmsgs.nread k) message.1 message.2 ∈ s.adds
  order : invokes notes <+: accepts notes
  goesOn : s.adds = [] → (s.go s.mainPart).isSome

structure Orderly (s : Preempted Func Param) (notes : List (Note Func Param)) : Prop where
  room : (pending notes).length + s.waiting ≤ hmMsgMax - 1
  write : s.pmsgs.nwrite = after s.pmsgs.nread (pending notes).length
  placed : ∀ k message, (pending notes)[k]? = some message →
    MsgQueues.read s.pmsgs.msgArray[after s.pmsgs.nread k] = (some message.1, message.2) ∨
      .reserved (after s.pmsgs.nread k) message.1 message.2 ∈ s.adds
  owed : ∀ pmsg func param, .reserved pmsg func param ∈ s.adds →
    ∃ k, (pending notes)[k]? = some (func, param) ∧ pmsg = after s.pmsgs.nread k
  finished : finishes notes ≤ (accepts notes).length
  order : invokes notes <+: accepts notes
  main : match s.main with
    | .idle => (invokes notes).length = finishes notes
    | .found pmsg => (invokes notes).length = finishes notes ∧ pmsg = s.pmsgs.nread ∧
        pending notes ≠ []
    | .called pmsg => (invokes notes).length = finishes notes + 1 ∧ pmsg = s.pmsgs.nread ∧
        pending notes ≠ []

section Orderly
variable {s t : Preempted Func Param} {notes more : List (Note Func Param)}
  {part : QueuePart Func Param}

theorem hmMsgQueueAdd_parts (pmsgs : MsgQueues Func Param) (func : Func) (param : Param) :
    pmsgs.hmMsgQueueAdd (some func) param =
      if pmsgs.ismsgFull then (false, pmsgs)
      else (true, pmsgs.reserve.store pmsgs.nwrite func param) := by
  by_cases full : pmsgs.ismsgFull
  · have none_ : pmsgs.msgGetMoveNextWrite = none := if_pos full
    unfold MsgQueues.hmMsgQueueAdd
    rw [none_, if_pos full]
  · have some_ : pmsgs.msgGetMoveNextWrite = some (pmsgs.nwrite, pmsgs.reserve) := if_neg full
    unfold MsgQueues.hmMsgQueueAdd
    rw [some_, if_neg full]
    rfl

theorem Orderly.used (orderly : s.Orderly notes) : s.pmsgs.used = (pending notes).length := by
  have room := orderly.room
  have value : s.pmsgs.nwrite.val = (s.pmsgs.nread.val + (pending notes).length) % hmMsgMax :=
    congrArg Fin.val orderly.write
  have nread := s.pmsgs.nread.isLt
  unfold MsgQueues.used
  simp only [hmMsgMax] at *
  omega

theorem Orderly.less (orderly : s.Orderly notes) : (pending notes).length < hmMsgMax := by
  have room := orderly.room
  simp only [hmMsgMax] at *
  omega

theorem Orderly.first (orderly : s.Orderly notes) (alone : s.adds = [])
    {message : Func × Param} {rest : List (Func × Param)}
    (next : pending notes = message :: rest) :
    MsgQueues.read s.pmsgs.msgArray[s.pmsgs.nread] = (some message.1, message.2) := by
  have placed := orderly.placed 0 message (by rw [next]; rfl)
  rw [after_zero, alone] at placed
  exact placed.resolve_right List.not_mem_nil

theorem Orderly.mainPart (orderly : s.Orderly notes) (alone : s.adds = []) :
    (s.go s.mainPart).isSome := by
  have main := orderly.main
  unfold Preempted.mainPart go
  rw [alone]
  cases doing : s.main with
  | idle => rfl
  | found pmsg =>
      rw [doing] at main
      obtain ⟨-, rfl, some_⟩ := main
      obtain ⟨message, rest, next⟩ := List.exists_cons_of_ne_nil some_
      have first := orderly.first alone next
      have func : s.pmsgs.msgArray[s.pmsgs.nread].func = some message.1 := congrArg Prod.fst first
      dsimp only
      rw [func]
      rfl
  | called pmsg =>
      rw [doing] at main
      obtain ⟨-, rfl, -⟩ := main
      have moves : s.pmsgs.msgMoveNextRead s.pmsgs.nread = .ok _ := if_neg (not_not_intro rfl)
      dsimp only
      rw [moves]
      rfl

theorem Orderly.kept (orderly : s.Orderly notes) : s.Kept notes := by
  have room := orderly.room
  refine ⟨by omega, ?_, orderly.placed, orderly.order, orderly.mainPart⟩
  rw [orderly.write, after_eq_iff orderly.less, List.length_eq_zero_iff]

theorem Orderly.refused (orderly : s.Orderly notes) (func : Option Func) (param : Param) :
    s.Orderly (notes ++ [.refused func param]) := by
  have same : pending (notes ++ [.refused func param]) = pending notes := pending_other rfl rfl
  have invoked : invokes (notes ++ [.refused func param]) = invokes notes := invokes_other rfl
  have done : finishes (notes ++ [.refused func param]) = finishes notes := finishes_other rfl
  have accepted : accepts (notes ++ [.refused func param]) = accepts notes := accepts_other rfl
  refine ⟨?_, ?_, ?_, ?_, ?_, ?_, ?_⟩
  · rw [same]; exact orderly.room
  · rw [same]; exact orderly.write
  · rw [same]; exact orderly.placed
  · rw [same]; exact orderly.owed
  · rw [done, accepted]; exact orderly.finished
  · rw [invoked, accepted]; exact orderly.order
  · rw [same, invoked, done]; exact orderly.main

theorem Orderly.test (orderly : s.Orderly notes) {func : Option Func} {param : Param}
    (spare : s.Spare (.test func param)) (action : s.go (.test func param) = some (t, more)) :
    t.Orderly (notes ++ more) := by
  cases func with
  | none =>
      obtain ⟨rfl, rfl⟩ := Prod.mk.inj (Option.some.inj action)
      exact orderly.refused none param
  | some func =>
      by_cases full : s.pmsgs.ismsgFull
      · obtain ⟨rfl, rfl⟩ := Prod.mk.inj (Option.some.inj ((if_pos full).symm.trans action))
        exact orderly.refused (some func) param
      · obtain ⟨rfl, rfl⟩ := Prod.mk.inj (Option.some.inj ((if_neg full).symm.trans action))
        have spare := spare.resolve_left full
        rw [orderly.used] at spare
        rw [List.append_nil]
        refine { orderly with room := ?_, placed := ?_, owed := ?_ }
        · unfold waiting at spare ⊢
          rw [List.countP_cons_of_pos rfl]
          omega
        · intro k message at_
          exact (orderly.placed k message at_).imp_right (List.mem_cons_of_mem _)
        · intro pmsg func' param' owed
          refine orderly.owed pmsg func' param' ?_
          simpa using owed

theorem read_put_busing (array : Vector (MsgQueue Func Param) hmMsgMax) (i j : Fin hmMsgMax)
    (busing : Bool) :
    MsgQueues.read (array.put i { array[i] with busing })[j] = MsgQueues.read array[j] := by
  rw [Vector.getElem_put]
  split
  · rename_i here
    rw [← here]
    rfl
  · rfl

theorem Orderly.reserve (orderly : s.Orderly notes) (action : s.go .reserve = some (t, more)) :
    t.Orderly (notes ++ more) := by
  unfold go at action
  dsimp only at action
  split at action
  · rename_i func param adds begun
    obtain ⟨rfl, rfl⟩ := Prod.mk.inj (Option.some.inj action)
    have room := orderly.room
    have longer := pending_accepted orderly.finished func param
    have invoked : invokes (notes ++ [Note.accepted func param]) = invokes notes :=
      invokes_other rfl
    have done : finishes (notes ++ [Note.accepted func param]) = finishes notes :=
      finishes_other rfl
    have accepted : accepts (notes ++ [Note.accepted func param]) = accepts notes ++ [(func, param)] :=
      accepts_concat
    refine ⟨?_, ?_, ?_, ?_, ?_, ?_, ?_⟩
    · unfold waiting at room ⊢
      rw [begun, List.countP_cons_of_pos rfl] at room
      rw [List.countP_cons_of_neg Bool.false_ne_true, longer, List.length_append,
        List.length_singleton]
      omega
    · rw [longer, List.length_append, List.length_singleton, after_succ]
      exact congrArg (· + 1) orderly.write
    · intro k message at_
      change MsgQueues.read s.pmsgs.reserve.msgArray[after s.pmsgs.nread k] = _ ∨
        .reserved (after s.pmsgs.nread k) _ _ ∈ AddCall.reserved s.pmsgs.nwrite func param :: adds
      rw [longer, List.getElem?_append] at at_
      -- a message from before, or the one that has just got its slot
      split at at_
      · unfold MsgQueues.reserve
        rw [read_put_busing]
        refine (orderly.placed k message at_).imp_right fun owed => ?_
        rw [begun] at owed
        exact List.mem_cons_of_mem _ (by simpa using owed)
      · rename_i above
        obtain ⟨inside, same⟩ := List.getElem?_eq_some_iff.mp at_
        rw [List.length_singleton] at inside
        obtain rfl : k = (pending notes).length := by omega
        obtain rfl : (func, param) = message := by simpa using same
        rw [← orderly.write]
        exact .inr List.mem_cons_self
    · intro pmsg func' param' owed
      rw [longer]
      rcases List.mem_cons.mp owed with same | owed
      · obtain ⟨rfl, rfl, rfl⟩ := AddCall.reserved.inj same
        exact ⟨(pending notes).length, by simp, orderly.write⟩
      · obtain ⟨k, at_, same⟩ := orderly.owed pmsg func' param' (by
          rw [begun]
          exact List.mem_cons_of_mem _ owed)
        exact ⟨k, List.getElem?_append_left (List.getElem?_eq_some_iff.mp at_).1 ▸ at_, same⟩
    · rw [done, accepted, List.length_append]
      exact orderly.finished.trans (Nat.le_add_right _ _)
    · rw [invoked, accepted]
      exact orderly.order.trans (List.prefix_append _ _)
    · have main := orderly.main
      rw [invoked, done, longer]
      cases doing : s.main with
      | idle => rw [doing] at main; exact main
      | found pmsg => rw [doing] at main; exact ⟨main.1, main.2.1, by simp⟩
      | called pmsg => rw [doing] at main; exact ⟨main.1, main.2.1, by simp⟩
  · cases action

theorem store_nwrite (pmsgs : MsgQueues Func Param) (pmsg : Fin hmMsgMax) (func : Func)
    (param : Param) : (pmsgs.store pmsg func param).nwrite = pmsgs.nwrite ∧
      (pmsgs.store pmsg func param).nread = pmsgs.nread ∧
      (pmsgs.store pmsg func param).msgArray =
        pmsgs.msgArray.put pmsg { pmsgs.msgArray[pmsg] with func := some func, param } := by
  unfold MsgQueues.store
  dsimp only
  split
  · exact ⟨rfl, rfl, rfl⟩
  · exact ⟨rfl, rfl, rfl⟩

theorem Orderly.store (orderly : s.Orderly notes) (action : s.go .store = some (t, more)) :
    t.Orderly (notes ++ more) := by
  unfold go at action
  dsimp only at action
  split at action
  · rename_i pmsg func param adds begun
    obtain ⟨rfl, rfl⟩ := Prod.mk.inj (Option.some.inj action)
    rw [List.append_nil]
    have less := orderly.less
    obtain ⟨nwrite, nread, array⟩ := store_nwrite s.pmsgs pmsg func param
    obtain ⟨l, own, same⟩ := orderly.owed pmsg func param (by rw [begun]; exact List.mem_cons_self)
    refine { orderly with room := ?_, write := ?_, placed := ?_, owed := ?_, main := ?_ }
    · have room := orderly.room
      unfold waiting at room ⊢
      rw [begun, List.countP_cons_of_neg Bool.false_ne_true] at room
      exact room
    · rw [nwrite, nread]
      exact orderly.write
    · intro k message at_
      rw [nread, array, Vector.getElem_put]
      split
      · rename_i here
        have inside := (List.getElem?_eq_some_iff.mp at_).1
        have inside' := (List.getElem?_eq_some_iff.mp own).1
        obtain rfl := after_inj (same.symm.trans here) (by omega) (by omega)
        rw [own] at at_
        obtain rfl := Option.some.inj at_
        exact .inl rfl
      · rename_i other
        refine (orderly.placed k message at_).imp_right fun owed => ?_
        rw [begun] at owed
        exact (List.mem_cons.mp owed).resolve_left fun here =>
          other (AddCall.reserved.inj here).1.symm
    · intro pmsg' func' param' owed
      rw [nread]
      exact orderly.owed pmsg' func' param' (by rw [begun]; exact List.mem_cons_of_mem _ owed)
    · rw [nread]
      exact orderly.main
  · cases action

theorem Orderly.find (orderly : s.Orderly notes) (action : s.go .find = some (t, more)) :
    t.Orderly (notes ++ more) := by
  unfold go at action
  dsimp only at action
  split at action
  · rename_i alone doing
    obtain ⟨rfl, rfl⟩ := Prod.mk.inj (Option.some.inj action)
    rw [List.append_nil]
    have main := orderly.main
    rw [doing] at main
    refine { orderly with main := ?_ }
    unfold MsgQueues.msgGetRead MsgQueues.ismsgEmpty
    by_cases empty : s.pmsgs.nwrite = s.pmsgs.nread
    · simpa [empty] using main
    · have some_ : pending notes ≠ [] := fun none_ => empty (orderly.kept.apart.mpr none_)
      simpa [empty] using ⟨main, some_⟩
  · cases action

theorem Orderly.invoke (orderly : s.Orderly notes) (action : s.go .invoke = some (t, more)) :
    t.Orderly (notes ++ more) := by
  unfold go at action
  dsimp only at action
  split at action
  · rename_i pmsg alone doing
    have main := orderly.main
    rw [doing] at main
    obtain ⟨done, rfl, some_⟩ := main
    obtain ⟨message, rest, next⟩ := List.exists_cons_of_ne_nil some_
    have first := orderly.first alone next
    have func : s.pmsgs.msgArray[s.pmsgs.nread].func = some message.1 := congrArg Prod.fst first
    have param : s.pmsgs.msgArray[s.pmsgs.nread].param = message.2 := congrArg Prod.snd first
    rw [func, param] at action
    obtain ⟨rfl, rfl⟩ := Prod.mk.inj (Option.some.inj action)
    have kept : pending (notes ++ [.invoked message.1 message.2]) = pending notes :=
      pending_other rfl rfl
    have invoked : invokes (notes ++ [.invoked message.1 message.2]) = invokes notes ++ [message] :=
      invokes_concat
    have still : finishes (notes ++ [.invoked message.1 message.2]) = finishes notes :=
      finishes_other rfl
    have accepted : accepts (notes ++ [.invoked message.1 message.2]) = accepts notes :=
      accepts_other rfl
    refine ⟨?_, ?_, ?_, ?_, ?_, ?_, ?_⟩
    · rw [kept]; exact orderly.room
    · rw [kept]; exact orderly.write
    · rw [kept]; exact orderly.placed
    · rw [kept]; exact orderly.owed
    · rw [still, accepted]; exact orderly.finished
    · rw [invoked, accepted]
      obtain ⟨later, same⟩ := orderly.order
      rw [pending, ← done, ← same, List.drop_left] at next
      exact ⟨rest, by rw [← same, next, List.append_assoc]; rfl⟩
    · rw [kept, invoked, still, List.length_append, done]
      exact ⟨rfl, rfl, some_⟩
  · cases action

theorem Orderly.moveRead (orderly : s.Orderly notes) (action : s.go .moveRead = some (t, more)) :
    t.Orderly (notes ++ more) := by
  unfold go at action
  dsimp only at action
  split at action
  · rename_i pmsg alone doing
    have main := orderly.main
    rw [doing] at main
    obtain ⟨done, rfl, some_⟩ := main
    obtain ⟨message, rest, next⟩ := List.exists_cons_of_ne_nil some_
    have moves : s.pmsgs.msgMoveNextRead s.pmsgs.nread = .ok _ := if_neg (not_not_intro rfl)
    rw [moves] at action
    obtain ⟨rfl, rfl⟩ := Prod.mk.inj (Option.some.inj action)
    have left : pending (notes ++ [Note.finished]) = rest := by rw [pending_finished, next]; rfl
    have invoked : invokes (notes ++ [Note.finished]) = invokes notes := invokes_other rfl
    have finished : finishes (notes ++ [Note.finished]) = finishes notes + 1 := by
      simp [finishes_concat, Note.finish]
    have accepted : accepts (notes ++ [Note.finished]) = accepts notes := accepts_other rfl
    refine ⟨?_, ?_, ?_, ?_, ?_, ?_, ?_⟩
    · have room := orderly.room
      rw [next, List.length_cons] at room
      rw [left]
      change rest.length + s.waiting ≤ _
      omega
    · have write := orderly.write
      rw [next, List.length_cons, after_succ'] at write
      rw [left]
      exact write
    · intro k message' at_
      rw [left] at at_
      have placed := orderly.placed (k + 1) message' (by rw [next]; exact at_)
      rw [after_succ'] at placed
      exact placed.imp_left (read_put_busing s.pmsgs.msgArray s.pmsgs.nread _ false).trans
    · intro pmsg func param owed
      change _ ∈ s.adds at owed
      rw [alone] at owed
      cases owed
    · rw [finished, accepted]
      have shorter := orderly.order.length_le
      omega
    · rw [invoked, accepted]
      exact orderly.order
    · rw [invoked, finished]
      exact done
  · cases action

theorem Orderly.step {now next : Preempted Func Param × List (Note Func Param)}
    (orderly : now.1.Orderly now.2) (spare : now.1.Spare part) (action : Step now part next) :
    next.1.Orderly next.2 := by
  obtain ⟨⟨t, more⟩, goes, rfl⟩ := Option.map_eq_some_iff.mp action
  cases part with
  | test func param => exact orderly.test spare goes
  | reserve => exact orderly.reserve goes
  | store => exact orderly.store goes
  | find => exact orderly.find goes
  | invoke => exact orderly.invoke goes
  | moveRead => exact orderly.moveRead goes

theorem orderly_init (memory : MsgQueues Func Param) : (init memory).Orderly [] where
  room := Nat.zero_le _
  write := after_zero.symm
  placed := fun _ _ at_ => by cases at_
  owed := fun _ _ _ owed => by cases owed
  finished := Nat.le_refl 0
  order := List.prefix_rfl
  main := rfl

def finishAdds : List (AddCall Func Param) → List (QueuePart Func Param)
  | [] => []
  | .tested .. :: adds => .reserve :: .store :: finishAdds adds
  | .reserved .. :: adds => .store :: finishAdds adds

theorem step_reserve {pmsgs : MsgQueues Func Param} {adds : List (AddCall Func Param)}
    {main : MainCall} {func : Func} {param : Param} :
    Step (⟨pmsgs, .tested func param :: adds, main⟩, notes) .reserve
      (⟨pmsgs.reserve, .reserved pmsgs.nwrite func param :: adds, main⟩,
        notes ++ [.accepted func param]) := rfl

theorem step_store {pmsgs : MsgQueues Func Param} {adds : List (AddCall Func Param)}
    {main : MainCall} {pmsg : Fin hmMsgMax} {func : Func} {param : Param} :
    Step (⟨pmsgs, .reserved pmsg func param :: adds, main⟩, notes) .store
      (⟨pmsgs.store pmsg func param, adds, main⟩, notes) :=
  congrArg some (Prod.ext rfl (List.append_nil notes))

theorem adds_finish (finished : finishes notes ≤ (accepts notes).length) :
    ∃ t notes', Run Step (s, notes) (finishAdds s.adds) (t, notes') ∧
      (pending notes').length = (pending notes).length + s.waiting := by
  obtain ⟨pmsgs, adds, main⟩ := s
  induction adds generalizing pmsgs notes with
  | nil => exact ⟨_, notes, .nil, rfl⟩
  | cons add adds ih =>
      cases add with
      | tested func param =>
          have finished' : finishes (notes ++ [Note.accepted func param]) ≤
              (accepts (notes ++ [Note.accepted func param])).length := by
            simp [finishes_concat, accepts_concat, Note.accept, Note.finish]
            omega
          obtain ⟨t, notes', run, length⟩ :=
            ih finished' (pmsgs.reserve.store pmsgs.nwrite func param)
          refine ⟨t, notes', .cons step_reserve (.cons step_store run), ?_⟩
          rw [length, pending_accepted finished func param, List.length_append]
          unfold waiting
          dsimp only
          rw [List.countP_cons_of_pos rfl, List.length_singleton]
          omega
      | reserved pmsg func param =>
          obtain ⟨t, notes', run, length⟩ := ih finished (pmsgs.store pmsg func param)
          refine ⟨t, notes', .cons step_store run, ?_⟩
          rw [length]
          unfold waiting
          rw [List.countP_cons_of_neg Bool.false_ne_true]

/-- While every add that finds the ring not full leaves a slot for each add that waits for one, the
ring is not overfull. An add that does not, and the adds it preempted, overfill it as soon as they
go on. -/
theorem ring_never_overfills (memory : MsgQueues Func Param) {parts : List (QueuePart Func Param)}
    (run : Run (Guarded (fun now part => now.1.Spare part) Step) (init memory, []) parts
      (s, notes)) :
    s.Kept notes ∧ ∀ part t notes', ¬ s.Spare part → Step (s, notes) part (t, notes') →
      ∃ u notes'', Run Step (t, notes') (finishAdds t.adds) (u, notes'') ∧ ¬ u.Kept notes'' := by
  have orderly : s.Orderly notes :=
    run.invariant (fun now => now.1.Orderly now.2) (orderly_init memory)
      fun _ _ _ orderly action => orderly.step action.1 action.2
  refine ⟨orderly.kept, fun part t notes' tight action => ?_⟩
  cases part with
  | test func param =>
      cases func with
      | none => exact absurd trivial tight
      | some func =>
          obtain ⟨free, full⟩ := not_or.mp tight
          rw [orderly.used] at full
          obtain ⟨⟨t', more⟩, goes, same⟩ := Option.map_eq_some_iff.mp action
          obtain ⟨rfl, rfl⟩ := Prod.mk.inj (Option.some.inj ((if_neg free).symm.trans goes))
          obtain ⟨rfl, rfl⟩ := Prod.mk.inj same
          rw [List.append_nil]
          obtain ⟨u, notes'', finish, length⟩ :=
            adds_finish (s := { s with adds := .tested func param :: s.adds }) orderly.finished
          refine ⟨u, notes'', finish, fun kept => ?_⟩
          have room := kept.room
          unfold waiting at full length
          rw [List.countP_cons_of_pos rfl] at length
          omega
  | _ => exact absurd trivial tight

theorem computes_step : Computes (@play Func Param) Step :=
  fun _ _ _ action => action

end Orderly

def numbers : MsgQueues Nat Unit := ⟨Vector.replicate hmMsgMax ⟨none, (), false⟩, 0, 0, 0⟩

def preemptedAdd : List (QueuePart Nat Unit) :=
  [.test (some 1) (), .test (some 2) (), .reserve, .store, .reserve, .store]

theorem preemptedAdd_keeps : ∃ s notes, Run (Guarded (fun now part => now.1.Spare part) Step)
    (init numbers, []) (preemptedAdd ++ [.find, .invoke]) (s, notes) ∧ s.Kept notes := by
  obtain ⟨⟨s, notes⟩, run⟩ := (computes_step.guarded fun now part => now.1.Spare part).run
    (init numbers, []) (preemptedAdd ++ [.find, .invoke]) (by decide +kernel)
  exact ⟨s, notes, run, (ring_never_overfills numbers run).1⟩

/-- With 78 messages pending, both adds find the ring not full. The 80th slot is reserved, and the
ring looks empty. -/
theorem preemptedAdd_overfills : ∃ s notes, Run Step (init numbers, [])
    ((List.replicate 78 [.test (some 0) (), .reserve, .store]).flatten ++ preemptedAdd) (s, notes) ∧
    s.adds = [] ∧ (pending notes).length = 80 ∧ s.pmsgs.ismsgEmpty ∧ ¬ s.Kept notes := by
  obtain ⟨⟨s, notes⟩, run, test⟩ := computes_step.run_any
    (show (((List.replicate 78 [QueuePart.test (some 0) (), .reserve, .store]).flatten ++
      preemptedAdd).foldlM play (init numbers, [])).any (fun (now : Preempted Nat Unit × List (Note Nat Unit)) =>
        now.1.adds.isEmpty && decide ((pending now.2).length = 80 ∧ now.1.pmsgs.ismsgEmpty)) by decide +kernel)
  obtain ⟨alone, test⟩ := Bool.and_eq_true_iff.mp test
  obtain ⟨full, empty⟩ := of_decide_eq_true test
  refine ⟨s, notes, run, List.isEmpty_iff.mp alone, full, empty, fun kept => ?_⟩
  exact absurd (full.symm.trans_le kept.room) (by decide)

end Preempted

end MotionBoard
