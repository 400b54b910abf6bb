import Mathlib.Order.Bounds.Basic
import MotionBoard.Lib.Ring
import MotionBoard.Queue.Defs

namespace MotionBoard
open Ring

variable {Func Param : Type}

namespace Note

def accept : Note Func Param → Option (Func × Param)
  | .accepted func param => some (func, param)
  | _ => none

def invoke : Note Func Param → Option (Func × Param)
  | .invoked func param => some (func, param)
  | _ => none

def finish : Note Func Param → Bool
  | .finished => true
  | _ => false

end Note

def accepts (notes : List (Note Func Param)) : List (Func × Param) := notes.filterMap Note.accept

def invokes (notes : List (Note Func Param)) : List (Func × Param) := notes.filterMap Note.invoke

def finishes (notes : List (Note Func Param)) : Nat := notes.countP Note.finish

def pending (notes : List (Note Func Param)) : List (Func × Param) :=
  (accepts notes).drop (finishes notes)

def Note.Fair (before : List (Note Func Param)) : Note Func Param → Prop
  | .accepted _ _ => (pending before).length < hmMsgMax - 1
  | .refused func _ => func = none ∨ (pending before).length = hmMsgMax - 1
  | _ => True

def Answered (notes : List (Note Func Param)) : Prop :=
  ∀ before note later, notes = before ++ note :: later → note.Fair before

/-- The free places after each accepted add. -/
def rooms (notes : List (Note Func Param)) : Set Nat :=
  {room | ∃ before func param later, notes = before ++ .accepted func param :: later ∧
    room = hmMsgMax - (pending (before ++ [.accepted func param])).length}

section Notes
variable {notes : List (Note Func Param)} {note : Note Func Param}

theorem split_concat {Item : Type} {items before later : List Item} {item last : Item}
    (split : items ++ [last] = before ++ item :: later) :
    (items = before ∧ last = item) ∨ ∃ later', items = before ++ item :: later' := by
  obtain rfl | ⟨later', last', rfl⟩ := later.eq_nil_or_concat
  · obtain ⟨same, last_⟩ := List.append_inj' split rfl
    exact .inl ⟨same, (List.cons.inj last_).1⟩
  · rw [List.concat_eq_append, ← List.cons_append, ← List.append_assoc] at split
    exact .inr ⟨later', (List.append_inj' split rfl).1⟩

theorem Answered.concat (answered : Answered notes) (fair : note.Fair notes) :
    Answered (notes ++ [note]) := by
  intro before note' later split
  obtain ⟨rfl, rfl⟩ | ⟨later', earlier⟩ := split_concat split
  · exact fair
  · exact answered _ _ _ earlier

theorem rooms_accepted (func : Func) (param : Param) :
    rooms (notes ++ [.accepted func param]) =
      insert (hmMsgMax - (pending (notes ++ [.accepted func param])).length) (rooms notes) := by
  ext room
  constructor
  · rintro ⟨before, func', param', later, split, rfl⟩
    obtain ⟨rfl, same⟩ | ⟨later', earlier⟩ := split_concat split
    · cases same
      exact .inl rfl
    · exact .inr ⟨before, func', param', later', earlier, rfl⟩
  · rintro (rfl | ⟨before, func', param', later, rfl, rfl⟩)
    · exact ⟨notes, func, param, [], rfl, rfl⟩
    · exact ⟨before, func', param', later ++ [.accepted func param], by simp, rfl⟩

theorem rooms_other (other : note.accept = none) : rooms (notes ++ [note]) = rooms notes := by
  ext room
  constructor
  · rintro ⟨before, func, param, later, split, rfl⟩
    obtain ⟨rfl, rfl⟩ | ⟨later', earlier⟩ := split_concat split
    · cases other
    · exact ⟨before, func, param, later', earlier, rfl⟩
  · rintro ⟨before, func, param, later, rfl, rfl⟩
    exact ⟨before, func, param, later ++ [note], by simp, rfl⟩

theorem accepts_concat : accepts (notes ++ [note]) = accepts notes ++ note.accept.toList := by
  unfold accepts
  rw [List.filterMap_append]
  cases accept : note.accept with
  | none => simp [accept]
  | some message => simp [accept]

theorem invokes_append (more : List (Note Func Param)) :
    invokes (notes ++ more) = invokes notes ++ invokes more :=
  List.filterMap_append

theorem invokes_concat : invokes (notes ++ [note]) = invokes notes ++ note.invoke.toList := by
  unfold invokes
  rw [List.filterMap_append]
  cases invoke : note.invoke with
  | none => simp [invoke]
  | some message => simp [invoke]

theorem finishes_concat :
    finishes (notes ++ [note]) = finishes notes + if note.finish then 1 else 0 := by
  simp [finishes]

theorem accepts_other (other : note.accept = none) :
    accepts (notes ++ [note]) = accepts notes := by
  rw [accepts_concat, other, Option.toList_none, List.append_nil]

theorem invokes_other (uninvoked : note.invoke = none) :
    invokes (notes ++ [note]) = invokes notes := by
  rw [invokes_concat, uninvoked, Option.toList_none, List.append_nil]

theorem finishes_other (unfinished : note.finish = false) :
    finishes (notes ++ [note]) = finishes notes := by
  simp [finishes_concat, unfinished]

theorem pending_accepted (finished : finishes notes ≤ (accepts notes).length) (func : Func)
    (param : Param) :
    pending (notes ++ [.accepted func param]) = pending notes ++ [(func, param)] := by
  unfold pending
  rw [accepts_concat, finishes_concat]
  exact List.drop_append_of_le_length finished

theorem pending_other (other : note.accept = none) (unfinished : note.finish = false) :
    pending (notes ++ [note]) = pending notes := by
  unfold pending
  rw [accepts_other other, finishes_other unfinished]

theorem pending_finished :
    pending (notes ++ [Note.finished]) = (pending notes).tail := by
  unfold pending
  simp [accepts_concat, finishes_concat, Note.accept, Note.finish]

end Notes

namespace MsgQueues

def read (pmsg : MsgQueue Func Param) : Option Func × Param := (pmsg.func, pmsg.param)

structure Holds (pmsgs : MsgQueues Func Param) (notes : List (Note Func Param)) : Prop where
  room : (pending notes).length < hmMsgMax
  write : pmsgs.nwrite = after pmsgs.nread (pending notes).length
  slots : (window pmsgs.msgArray pmsgs.nread (pending notes).length).map read =
    (pending notes).map fun message => (some message.1, message.2)
  finished : finishes notes ≤ (accepts notes).length
  answered : Answered notes
  lowest : accepts notes = [] ∧ pmsgs.nmin.toNat = hmMsgMax ∨
    IsLeast (rooms notes) pmsgs.nmin.toNat

section Holds
variable {pmsgs : MsgQueues Func Param} {notes : List (Note Func Param)}

theorem Holds.empty_iff (holds : pmsgs.Holds notes) : pmsgs.ismsgEmpty ↔ pending notes = [] := by
  unfold ismsgEmpty
  rw [decide_eq_true_iff, holds.write, after_eq_iff holds.room, List.length_eq_zero_iff]

theorem Holds.full_iff (holds : pmsgs.Holds notes) :
    pmsgs.ismsgFull ↔ (pending notes).length = hmMsgMax - 1 := by
  unfold ismsgFull
  rw [decide_eq_true_iff, holds.write, after_succ_eq_iff holds.room]
  simp only [hmMsgMax]
  omega

theorem msgRemaining_toNat {count : Nat} (some_ : 0 < count) (room : count < hmMsgMax)
    (write : pmsgs.nwrite = after pmsgs.nread count) :
    pmsgs.msgRemaining.toNat = hmMsgMax - count := by
  have value : pmsgs.nwrite.val = (pmsgs.nread.val + count) % hmMsgMax := congrArg Fin.val write
  have nread := pmsgs.nread.isLt
  have nwrite := pmsgs.nwrite.isLt
  have small (i : Fin hmMsgMax) : (UInt32.ofNat i).toNat = i := by
    have bound := i.isLt
    simp only [hmMsgMax] at bound
    exact UInt32.toNat_ofNat_of_lt' (by change i.val < 2 ^ 32; omega)
  simp only [hmMsgMax] at *
  unfold msgRemaining
  simp only [UInt32.lt_iff_toNat_lt, small]
  split
  · rw [UInt32.toNat_sub_of_le _ _ (by rw [UInt32.le_iff_toNat_le, small, small]; omega)]
    rw [small, small]
    omega
  · rw [UInt32.toNat_add, UInt32.toNat_sub_of_le _ _ (by
      rw [UInt32.le_iff_toNat_le, small]
      change pmsgs.nwrite.val ≤ 80
      omega), small, small]
    change (80 - pmsgs.nwrite.val + pmsgs.nread.val) % 4294967296 = 80 - count
    omega

theorem Holds.refused (holds : pmsgs.Holds notes) {func : Option Func} {param : Param}
    (fair : (Note.refused func param).Fair notes) :
    pmsgs.Holds (notes ++ [.refused func param]) where
  room := by rw [pending_other rfl rfl]; exact holds.room
  write := by rw [pending_other rfl rfl]; exact holds.write
  slots := by rw [pending_other rfl rfl]; exact holds.slots
  finished := by
    rw [accepts_concat, finishes_concat]
    simpa [Note.accept, Note.finish] using holds.finished
  answered := holds.answered.concat fair
  lowest := by
    rw [accepts_concat, rooms_other rfl]
    simpa [Note.accept] using holds.lowest

theorem hmMsgQueueAdd_free (free : ¬ pmsgs.ismsgFull) (func : Func) (param : Param) :
    ∃ pmsgs' : MsgQueues Func Param,
      pmsgs.hmMsgQueueAdd (some func) param = (true, pmsgs') ∧
      pmsgs'.msgArray = pmsgs.msgArray.put pmsgs.nwrite ⟨some func, param, true⟩ ∧
      pmsgs'.nwrite = pmsgs.nwrite + 1 ∧ pmsgs'.nread = pmsgs.nread ∧
      pmsgs'.nmin = (if pmsgs.nmin > pmsgs'.msgRemaining then pmsgs'.msgRemaining
        else pmsgs.nmin) := by
  unfold hmMsgQueueAdd msgGetMoveNextWrite
  rw [if_neg free]
  refine ⟨_, rfl, ?_, ?_, ?_, ?_⟩
  · dsimp only
    split <;> simp [Vector.put]
  · dsimp only
    split <;> rfl
  · dsimp only
    split <;> rfl
  · dsimp only
    split
    · rename_i above
      exact (if_pos above).symm
    · rename_i below
      exact (if_neg below).symm

theorem Holds.accepted (holds : pmsgs.Holds notes) (free : ¬ pmsgs.ismsgFull) (func : Func)
    (param : Param) {pmsgs' : MsgQueues Func Param}
    (array : pmsgs'.msgArray = pmsgs.msgArray.put pmsgs.nwrite ⟨some func, param, true⟩)
    (nwrite : pmsgs'.nwrite = pmsgs.nwrite + 1) (nread : pmsgs'.nread = pmsgs.nread)
    (nmin : pmsgs'.nmin = (if pmsgs.nmin > pmsgs'.msgRemaining then pmsgs'.msgRemaining
      else pmsgs.nmin)) :
    pmsgs'.Holds (notes ++ [.accepted func param]) := by
  have room := holds.room
  have more : (pending notes).length < hmMsgMax - 1 := by
    have full := holds.full_iff.not.mp free
    omega
  have longer := pending_accepted holds.finished func param
  have length : (pending (notes ++ [Note.accepted func param])).length =
      (pending notes).length + 1 := by rw [longer, List.length_append, List.length_singleton]
  have write : pmsgs'.nwrite =
      after pmsgs'.nread (pending (notes ++ [Note.accepted func param])).length := by
    rw [length, nwrite, nread, holds.write, after_succ]
  have remaining := msgRemaining_toNat (by omega) (by omega) write
  refine ⟨by omega, write, ?_, ?_, holds.answered.concat more, .inr ?_⟩
  · rw [length, array, nread, window_push holds.write room, List.map_append, holds.slots, longer,
      List.map_append]
    rfl
  · rw [accepts_concat, finishes_concat]
    have finished := holds.finished
    simp [Note.accept, Note.finish]
    omega
  · rw [rooms_accepted, ← remaining]
    have lower : pmsgs'.nmin.toNat = min pmsgs'.msgRemaining.toNat pmsgs.nmin.toNat := by
      rw [nmin]
      split
      · rename_i above
        rw [gt_iff_lt, UInt32.lt_iff_toNat_lt] at above
        omega
      · rename_i below
        rw [gt_iff_lt, UInt32.lt_iff_toNat_lt] at below
        omega
    rw [lower]
    obtain ⟨none_, start⟩ | least := holds.lowest
    · have first : rooms notes = ∅ := by
        ext room
        refine iff_of_false ?_ (Set.notMem_empty room)
        rintro ⟨before, func', param', later, rfl, -⟩
        simp [accepts, Note.accept] at none_
      rw [start, min_eq_left (by omega), first, insert_empty_eq]
      exact isLeast_singleton
    · exact least.insert _

structure Kept (pmsgs : MsgQueues Func Param) (notes : List (Note Func Param))
    (pmsgs' : MsgQueues Func Param) (notes' : List (Note Func Param)) : Prop where
  holds : pmsgs'.Holds notes'
  nread : pmsgs'.nread = pmsgs.nread
  accepts : accepts notes <+: accepts notes'
  invokes : invokes notes' = invokes notes
  finishes : finishes notes' = finishes notes

theorem Holds.add (holds : pmsgs.Holds notes) (func : Option Func) (param : Param) :
    Kept pmsgs notes (pmsgs.add func param).1 (notes ++ [(pmsgs.add func param).2]) := by
  have same {pmsgs' : MsgQueues Func Param} {note : Note Func Param}
      (holds : pmsgs'.Holds (notes ++ [note])) (nread : pmsgs'.nread = pmsgs.nread)
      (uninvoked : note.invoke = none) (unfinished : note.finish = false) :
      Kept pmsgs notes pmsgs' (notes ++ [note]) :=
    ⟨holds, nread, by rw [accepts_concat]; exact List.prefix_append _ _,
      invokes_other uninvoked, finishes_other unfinished⟩
  cases func with
  | none => exact same (holds.refused (.inl rfl)) rfl rfl rfl
  | some func =>
      by_cases full : pmsgs.ismsgFull
      · have refuse : pmsgs.add (some func) param = (pmsgs, .refused (some func) param) := by
          simp only [MsgQueues.add, hmMsgQueueAdd, msgGetMoveNextWrite, full, if_true]
        rw [refuse]
        exact same (holds.refused (.inr (holds.full_iff.mp full))) rfl rfl rfl
      · obtain ⟨pmsgs', add, array, nwrite, nread, nmin⟩ := hmMsgQueueAdd_free full func param
        have accept : pmsgs.add (some func) param = (pmsgs', .accepted func param) := by
          simp only [MsgQueues.add, add]
        rw [accept]
        exact same (holds.accepted full func param array nwrite nread nmin) nread rfl rfl

theorem Holds.addAll (holds : pmsgs.Holds notes) (adds : List (Option Func × Param)) :
    Kept pmsgs notes (pmsgs.addAll adds).1 (notes ++ (pmsgs.addAll adds).2) := by
  induction adds generalizing pmsgs notes with
  | nil =>
      rw [show notes ++ (pmsgs.addAll []).2 = notes from List.append_nil notes]
      exact ⟨holds, rfl, List.prefix_rfl, rfl, rfl⟩
  | cons add adds ih =>
      have first := holds.add add.1 add.2
      have rest := ih first.holds
      rw [List.append_assoc, List.singleton_append] at rest
      exact ⟨rest.holds, rest.nread.trans first.nread, first.accepts.trans rest.accepts,
        rest.invokes.trans first.invokes, rest.finishes.trans first.finishes⟩

theorem addAll_length (pmsgs : MsgQueues Func Param) (adds : List (Option Func × Param)) :
    (pmsgs.addAll adds).2.length = adds.length := by
  induction adds generalizing pmsgs with
  | nil => rfl
  | cons add adds ih => exact congrArg (· + 1) (ih _)

theorem Holds.invoked (holds : pmsgs.Holds notes) (func : Func) (param : Param) :
    pmsgs.Holds (notes ++ [.invoked func param]) where
  room := by rw [pending_other rfl rfl]; exact holds.room
  write := by rw [pending_other rfl rfl]; exact holds.write
  slots := by rw [pending_other rfl rfl]; exact holds.slots
  finished := by
    rw [accepts_concat, finishes_concat]
    simpa [Note.accept, Note.finish] using holds.finished
  answered := holds.answered.concat trivial
  lowest := by
    rw [accepts_concat, rooms_other rfl]
    simpa [Note.accept] using holds.lowest

theorem Holds.first (holds : pmsgs.Holds notes) {message : Func × Param}
    {rest : List (Func × Param)} (next : pending notes = message :: rest) :
    pmsgs.msgArray[pmsgs.nread].func = some message.1 ∧
      pmsgs.msgArray[pmsgs.nread].param = message.2 := by
  have slots := holds.slots
  rw [next, List.length_cons, window_succ, List.map_cons, List.map_cons] at slots
  have head := (List.cons.inj slots).1
  exact ⟨congrArg Prod.fst head, congrArg Prod.snd head⟩

theorem Holds.finish (holds : pmsgs.Holds notes) {message : Func × Param}
    {rest : List (Func × Param)} (next : pending notes = message :: rest) :
    ∃ pmsgs', pmsgs.msgMoveNextRead pmsgs.nread = .ok pmsgs' ∧
      pmsgs'.Holds (notes ++ [.finished]) := by
  have left : pending (notes ++ [Note.finished]) = rest := by rw [pending_finished, next]; rfl
  have room := holds.room
  have write := holds.write
  have slots := holds.slots
  rw [next, List.length_cons] at room write slots
  refine ⟨_, if_neg (not_not_intro rfl), ?_, ?_, ?_, ?_, holds.answered.concat trivial, ?_⟩
  · rw [left]
    omega
  · rw [left, write, after_succ']
  · rw [left]
    rw [window_succ, List.map_cons, List.map_cons] at slots
    refine (window_map read ?_).trans (List.cons.inj slots).2
    rfl
  · have length := congrArg List.length next
    rw [pending, List.length_drop, List.length_cons] at length
    rw [accepts_concat, finishes_concat]
    simp [Note.accept, Note.finish]
    omega
  · rw [accepts_concat, rooms_other rfl]
    simpa [Note.accept] using holds.lowest

structure Idle (pmsgs : MsgQueues Func Param) (notes : List (Note Func Param)) : Prop where
  holds : pmsgs.Holds notes
  order : invokes notes <+: accepts notes
  done : (invokes notes).length = finishes notes

theorem Idle.split (idle : pmsgs.Idle notes) : accepts notes = invokes notes ++ pending notes := by
  obtain ⟨tail, same⟩ := idle.order
  rw [pending, ← idle.done, ← same, List.drop_left]

theorem Idle.main (idle : pmsgs.Idle notes) (adds : List (Option Func × Param)) :
    ∃ pmsgs' more, pmsgs.hmMsgQueueMain adds = .ok (pmsgs', more) ∧
      pmsgs'.Idle (notes ++ more) ∧ invokes more = (pending notes).take 1 ∧
      (pending notes ≠ [] → more.length = adds.length + 2) := by
  cases next : pending notes with
  | nil =>
      have empty := idle.holds.empty_iff.mpr next
      refine ⟨pmsgs, [], ?_, (List.append_nil notes).symm ▸ idle, rfl, fun some_ => absurd rfl some_⟩
      simp [hmMsgQueueMain, msgGetRead, empty]
  | cons message rest =>
      have some_ : pmsgs.ismsgEmpty = false :=
        Bool.not_eq_true _ ▸ idle.holds.empty_iff.not.mpr (by simp [next])
      obtain ⟨func, param⟩ := idle.holds.first next
      have kept := (idle.holds.invoked message.1 message.2).addAll adds
      obtain ⟨later, accepts_⟩ := kept.accepts
      -- the callback adds behind the message that it was called for
      have still : ∃ rest', pending (notes ++ [.invoked message.1 message.2] ++
          (pmsgs.addAll adds).2) = message :: rest' := by
        refine ⟨rest ++ later, ?_⟩
        have before : pending (notes ++ [.invoked message.1 message.2]) = message :: rest :=
          (pending_other rfl rfl).trans next
        rw [pending, kept.finishes, ← accepts_, List.drop_append_of_le_length
          (idle.holds.invoked message.1 message.2).finished]
        exact congrArg (· ++ later) before
      obtain ⟨rest', still⟩ := still
      obtain ⟨pmsgs', finish, holds⟩ := kept.holds.finish still
      rw [kept.nread] at finish
      have invoked : invokes (notes ++ [.invoked message.1 message.2] ++
          (pmsgs.addAll adds).2 ++ [.finished]) = invokes notes ++ [message] := by
        rw [invokes_concat, kept.invokes, invokes_concat]
        simp [Note.invoke]
      have notes_ : notes ++ (Note.invoked message.1 message.2 :: (pmsgs.addAll adds).2 ++
          [Note.finished]) = notes ++ [.invoked message.1 message.2] ++
            (pmsgs.addAll adds).2 ++ [.finished] := by simp
      refine ⟨pmsgs', .invoked message.1 message.2 :: (pmsgs.addAll adds).2 ++ [.finished],
        ?_, ?_, ?_, fun _ => ?_⟩
      · simp only [hmMsgQueueMain, msgGetRead, some_, Bool.not_false, if_true, func, param, finish,
          bind, Except.bind]
      · rw [notes_]
        refine ⟨holds, ?_, ?_⟩
        · rw [invoked, accepts_concat, ← accepts_, accepts_concat, idle.split, next]
          exact ⟨rest ++ later, by simp [Note.accept]⟩
        · rw [invoked, finishes_concat, kept.finishes, finishes_concat, List.length_append,
            idle.done]
          rfl
      · rw [← notes_, invokes_append] at invoked
        exact List.append_cancel_left invoked
      · rw [List.cons_append, List.length_cons, List.length_append, addAll_length]
        rfl

theorem Idle.exec (idle : pmsgs.Idle notes) (call : QueueCall Func Param) :
    ∃ pmsgs' more, pmsgs.exec call = .ok (pmsgs', more) ∧ pmsgs'.Idle (notes ++ more) := by
  cases call with
  | add func param =>
      have kept := idle.holds.add func param
      refine ⟨(pmsgs.add func param).1, [(pmsgs.add func param).2], rfl, kept.holds, ?_, ?_⟩
      · rw [kept.invokes]
        exact idle.order.trans kept.accepts
      · rw [kept.invokes, kept.finishes]
        exact idle.done
  | main adds =>
      obtain ⟨pmsgs', more, action, idle', -⟩ := idle.main adds
      exact ⟨pmsgs', more, action, idle'⟩

theorem Idle.execAll (idle : pmsgs.Idle notes) (calls : List (QueueCall Func Param)) :
    ∃ pmsgs' more, pmsgs.execAll calls = .ok (pmsgs', more) ∧ pmsgs'.Idle (notes ++ more) := by
  induction calls generalizing pmsgs notes with
  | nil => exact ⟨pmsgs, [], rfl, (List.append_nil notes).symm ▸ idle⟩
  | cons call calls ih =>
      obtain ⟨next, first, action, idle'⟩ := idle.exec call
      obtain ⟨last, rest, actions, idle''⟩ := ih idle'
      refine ⟨last, first ++ rest, ?_, by rw [← List.append_assoc]; exact idle''⟩
      simp only [MsgQueues.execAll, action, actions, bind, Except.bind]

theorem idle_init (memory : MsgQueues Func Param) : memory.hmMsgQueueInit.Idle [] where
  holds := {
    room := Nat.zero_lt_succ 79
    write := after_zero.symm
    slots := rfl
    finished := Nat.le_refl 0
    answered := fun before _ _ split => by simp at split
    lowest := .inl ⟨rfl, rfl⟩ }
  order := List.prefix_rfl
  done := rfl

/-- Whatever the calls and the adds the callbacks make, the queue never stops, and the accepted
messages are those invoked so far, in their order, and then the pending ones. The next call of
`hm_msg_queue_main` invokes the oldest of these, with an answer to each of its adds in between, and
nothing if none is pending. An add is refused only for a null callback or with 79 messages pending,
a refused add changes nothing, and `nmin` is the least number of free places after an accepted
add. -/
theorem message_queue_fifo (memory : MsgQueues Func Param) (calls : List (QueueCall Func Param)) :
    ∃ pmsgs notes, memory.hmMsgQueueInit.execAll calls = .ok (pmsgs, notes) ∧
      invokes notes <+: accepts notes ∧ (invokes notes).length = finishes notes ∧
      accepts notes = invokes notes ++ pending notes ∧
      (∀ adds, ∃ pmsgs' more, pmsgs.hmMsgQueueMain adds = .ok (pmsgs', more) ∧
        invokes more = (pending notes).take 1 ∧
        (pending notes ≠ [] → more.length = adds.length + 2)) ∧
      Answered notes ∧
      (accepts notes = [] ∧ pmsgs.nmin.toNat = hmMsgMax ∨
        IsLeast (rooms notes) pmsgs.nmin.toNat) ∧
      ∀ (pmsgs : MsgQueues Func Param) func param,
        (pmsgs.hmMsgQueueAdd func param).1 = false →
          (pmsgs.hmMsgQueueAdd func param).2 = pmsgs := by
  obtain ⟨pmsgs, notes, action, idle⟩ := (idle_init memory).execAll calls
  refine ⟨pmsgs, notes, action, idle.order, idle.done, idle.split, fun adds => ?_,
    idle.holds.answered, idle.holds.lowest, fun pmsgs func param refused => ?_⟩
  · obtain ⟨pmsgs', more, main, -, oldest⟩ := idle.main adds
    exact ⟨pmsgs', more, main, oldest⟩
  · unfold hmMsgQueueAdd at refused ⊢
    cases func with
    | none => rfl
    | some func =>
        cases write : pmsgs.msgGetMoveNextWrite with
        | none => rfl
        | some found => simp [write] at refused

end Holds

end MsgQueues

end MotionBoard
