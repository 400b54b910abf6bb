import MotionBoard.Main.Loop

namespace MotionBoard
open Transition

section Log
variable (log : List LoopNote) (notes : List (Note LoopFunc Unit))

theorem queued_append (more : List LoopNote) :
    queued (log ++ more) = queued log ++ queued more := List.filterMap_append

theorem due_append (more : List LoopNote) : due (log ++ more) = due log + due more :=
  List.countP_append

theorem calls_append (more : List LoopNote) : calls (log ++ more) = calls log + calls more :=
  List.countP_append

theorem etharps_append (more : List LoopNote) :
    etharps (log ++ more) = etharps log + etharps more := List.count_append

theorem countP_map_queue {test : LoopNote → Bool} (other : ∀ note, test (.queue note) = false) :
    (notes.map LoopNote.queue).countP test = 0 := by
  rw [List.countP_eq_zero]
  intro note member
  obtain ⟨note', -, rfl⟩ := List.mem_map.mp member
  rw [other]
  exact Bool.false_ne_true

@[simp] theorem calls_map_queue : calls (notes.map .queue) = 0 :=
  countP_map_queue notes fun _ => rfl

@[simp] theorem etharps_map_queue : etharps (notes.map .queue) = 0 :=
  countP_map_queue notes fun _ => rfl

end Log

namespace Timers

def msAt (timers : Timers TimerFunc Unit) (slot : Nat) : Nat :=
  (timers.sTimers[slot]?.map fun timer => timer.ms.toNat).getD 0

section Tick
variable {timers : Timers TimerFunc Unit} {more : List (HmTimer TimerFunc Unit)}

def mainFirst : List (HmTimer TimerFunc Unit) :=
  [⟨some .ledCk, (), 500, 0, false, true⟩, ⟨some .netwkCk, (), 1000, 0, false, false⟩]

inductive TickOf (before after : Timers TimerFunc Unit) :
    Option (Expiry TimerFunc Unit) → Prop
  | led : before.msAt 0 = 1 → after.msAt 0 = 500 → after.msAt 1 = before.msAt 1 →
      TickOf before after (some ⟨0, .ledCk, (), true⟩)
  | network : after.msAt 0 + 1 = before.msAt 0 → before.msAt 1 = 1 → after.msAt 1 = 1000 →
      TickOf before after (some ⟨1, .netwkCk, (), false⟩)
  | other {expiry : Option (Expiry TimerFunc Unit)} : after.msAt 0 + 1 = before.msAt 0 →
      after.msAt 1 + 1 = before.msAt 1 → (∀ expired ∈ expiry, expired.direct) →
      TickOf before after expiry

theorem Holds.tickOf (holds : timers.Holds (mainFirst ++ more))
    (direct : ∀ timer ∈ more, timer.bcallDirect) :
    TickOf timers timers.sysTickHandler.1 timers.sysTickHandler.2 := by
  obtain ⟨going, -, free, slots, -, none_⟩ := holds
  obtain ⟨sTimers, sTimCount⟩ := timers
  obtain _ | ⟨led, _ | ⟨net, rest⟩⟩ := sTimers
  · cases slots
  · cases (List.cons.inj slots).2
  · obtain ⟨led_, later⟩ := List.cons.inj slots
    obtain ⟨net_, rest_⟩ := List.cons.inj later
    obtain ⟨ledFunc, ledParam, ledPeriod, ledMs, ledOnce, ledDirect⟩ := led
    obtain ⟨netFunc, netParam, netPeriod, netMs, netOnce, netDirect⟩ := net
    obtain ⟨rfl, rfl, rfl, -, rfl, rfl⟩ := HmTimer.mk.inj led_
    obtain ⟨rfl, rfl, rfl, -, rfl, rfl⟩ := HmTimer.mk.inj net_
    obtain ⟨ledGoing, going⟩ := List.forall_mem_cons.mp going
    obtain ⟨netGoing, going⟩ := List.forall_mem_cons.mp going
    obtain ⟨ledFirst, -, -⟩ := ledGoing rfl
    obtain ⟨netFirst, -, -⟩ := netGoing rfl
    dsimp only at ledFirst netFirst
    have ledPred : (ledMs - 1).toNat = ledMs.toNat - 1 :=
      UInt32.toNat_sub_of_le _ _ (UInt32.le_iff_toNat_le.mpr ledFirst)
    have netPred : (netMs - 1).toNat = netMs.toNat - 1 :=
      UInt32.toNat_sub_of_le _ _ (UInt32.le_iff_toNat_le.mpr netFirst)
    unfold sysTickHandler sysTickLoop
    dsimp only
    by_cases ledDue : ledMs - 1 = 0
    · rw [if_pos ledDue]
      rw [ledDue, UInt32.toNat_zero] at ledPred
      exact .led (show ledMs.toNat = 1 by omega) rfl rfl
    · rw [if_neg ledDue]
      have ledLater : (ledMs - 1).toNat ≠ 0 := fun zero => ledDue (UInt32.toNat_inj.mp zero)
      have ledNext : (ledMs - 1).toNat + 1 = ledMs.toNat := by omega
      unfold sysTickLoop
      dsimp only
      by_cases netDue : netMs - 1 = 0
      · rw [if_pos netDue]
        rw [netDue, UInt32.toNat_zero] at netPred
        exact .network ledNext (show netMs.toNat = 1 by omega) rfl
      · rw [if_neg netDue]
        have netLater : (netMs - 1).toNat ≠ 0 := fun zero => netDue (UInt32.toNat_inj.mp zero)
        refine .other ledNext (show (netMs - 1).toNat + 1 = netMs.toNat by omega) ?_
        intro expired expires
        obtain ⟨slot, timer, -, get, func, same⟩ := sysTickLoop_expiry expires
        have member : timer.settings ∈ rest.map HmTimer.settings :=
          List.mem_map_of_mem (List.mem_of_getElem? get)
        rw [rest_] at member
        rw [← same]
        rcases List.mem_append.mp member with used | unused
        · exact direct timer.settings used
        · have off : timer.func = none := none_ timer.settings unused
          rw [func] at off
          cases off

theorem Holds.msAt_bounds (holds : timers.Holds (mainFirst ++ more)) :
    timers.msAt 0 ≤ 500 ∧ 1 ≤ timers.msAt 1 ∧ timers.msAt 1 ≤ 1000 := by
  obtain ⟨ledMs, led⟩ := holds.get (show (mainFirst ++ more)[0]? = some _ from rfl)
  obtain ⟨netMs, net⟩ := holds.get (show (mainFirst ++ more)[1]? = some _ from rfl)
  obtain ⟨-, ledMost, -⟩ := holds.going _ (List.mem_of_getElem? led) rfl
  obtain ⟨netLeast, netMost, -⟩ := holds.going _ (List.mem_of_getElem? net) rfl
  unfold msAt
  rw [led, net]
  exact ⟨ledMost, netLeast, netMost⟩

theorem hmTimerRegister_msAt {ms : UInt32} {func : Option TimerFunc} {once direct : Bool}
    {pret slot : Nat} (taken : (timers.hmTimerRegister ms func () once direct).1 = some pret)
    (apart : pret ≠ slot) :
    (timers.hmTimerRegister ms func () once direct).2.msAt slot = timers.msAt slot := by
  unfold hmTimerRegister at taken ⊢
  split at taken
  · cases taken
  · rename_i fresh
    rw [if_neg fresh]
    split at taken
    · cases taken
    · obtain rfl := Option.some.inj taken
      unfold msAt
      dsimp only
      rw [List.getElem?_set_ne apart]

end Tick

end Timers

namespace Preempted
variable {Func Param : Type} {s : Preempted Func Param} {notes : List (Note Func Param)}

theorem Orderly.add (orderly : s.Orderly notes) (room : s.pmsgs.used + s.waiting < hmMsgMax - 1)
    (func : Func) (param : Param) :
    s.pmsgs.add (some func) param =
        (s.pmsgs.reserve.store s.pmsgs.nwrite func param, .accepted func param) ∧
      ({ s with pmsgs := s.pmsgs.reserve.store s.pmsgs.nwrite func param } :
        Preempted Func Param).Orderly (notes ++ [.accepted func param]) := by
  have free : ¬ s.pmsgs.ismsgFull := by
    unfold MsgQueues.ismsgFull
    rw [decide_eq_true_iff, orderly.write, Ring.after_succ_eq_iff orderly.less, ← orderly.used]
    omega
  have tested : s.go (.test (some func) param) =
      some ({ s with adds := .tested func param :: s.adds }, []) := if_neg free
  have spare : s.Spare (.test (some func) param) := Or.inr room
  have begun := orderly.test spare tested
  rw [List.append_nil] at begun
  have reserved := begun.reserve rfl
  have stored := reserved.store rfl
  rw [List.append_nil] at stored
  refine ⟨?_, stored⟩
  unfold MsgQueues.add
  rw [hmMsgQueueAdd_parts, if_neg free]

end Preempted

namespace MainLoop

def netwkMessage : LoopFunc × Unit := (.inl .netwkCk, ())

def registered : LoopBody → List (HmTimer TimerFunc Unit)
  | .starting => []
  | _ => [⟨some .hmMotorLimitLogicalCheck, (), 100, 0, false, true⟩]

def parts (s : MainLoop) : Nat :=
  match s.body, s.sMsgs.main with
  | .entered _, _ => 1
  | .returned, .found _ => 2
  | .returned, .idle => 3
  | _, _ => 4

/-- Where `main` is with so many messages called and so many finished. -/
def Place (s : MainLoop) (called finished : Nat) : Prop :=
  match s.body, s.sMsgs.main with
  | .starting, .idle | .returned, .idle | .returned, .found _ => finished = called
  | .entered func, .called _ => func = .inl .netwkCk ∧ finished = called
  | .returned, .called _ => finished + 1 = called
  | _, _ => False

structure Sound (s : MainLoop) (log : List LoopNote) : Prop where
  timers : s.timers.Holds (Timers.mainFirst ++ registered s.body)
  orderly : s.sMsgs.Orderly (queued log)
  alone : s.sMsgs.adds = []
  accepted : accepts (queued log) = List.replicate (due log) netwkMessage
  place : s.Place (calls log) (finishes (queued log))

inductive Advances (s : MainLoop) (log : List LoopNote) (t : MainLoop) (log' : List LoopNote) : Prop
  | nearer : due log' = due log → calls log' = calls log →
      (calls log < due log → t.parts + 1 ≤ s.parts) → Advances s log t log'
  | called : due log' = due log → calls log' = calls log + 1 → Advances s log t log'

section Sound
variable {s t : MainLoop} {log more : List LoopNote}

theorem registered_direct (body : LoopBody) : ∀ timer ∈ registered body, timer.bcallDirect := by
  cases body <;> simp [registered]

theorem parts_le (s : MainLoop) : s.parts ≤ 4 := by
  unfold parts
  split <;> decide

theorem parts_pos (s : MainLoop) : 1 ≤ s.parts := by
  unfold parts
  split <;> decide

theorem Place.finished_le {called finished : Nat} (place : s.Place called finished) :
    finished ≤ called ∧ called ≤ finished + 1 := by
  unfold Place at place
  split at place
  · omega
  · omega
  · omega
  · omega
  · omega
  · cases place

theorem Sound.pending_eq (sound : s.Sound log) : pending (queued log) =
    List.replicate (due log - finishes (queued log)) netwkMessage := by
  rw [pending, sound.accepted, List.drop_replicate]

theorem Sound.pending_ne_nil (sound : s.Sound log) :
    pending (queued log) ≠ [] ↔ finishes (queued log) < due log := by
  rw [sound.pending_eq, ne_eq, List.replicate_eq_nil_iff]
  omega

theorem Sound.finishes_le (sound : s.Sound log) : finishes (queued log) ≤ due log := by
  have finished := sound.orderly.finished
  rwa [sound.accepted, List.length_replicate] at finished

theorem Sound.calls_le (sound : s.Sound log) : calls log ≤ due log := by
  have finished := sound.finishes_le
  have place := sound.place
  have main := sound.orderly.main
  unfold Place at place
  split at place
  · omega
  · omega
  · omega
  · omega
  · rename_i called
    rw [called] at main
    have left := sound.pending_ne_nil.mp main.2.2
    omega
  · cases place

theorem Sound.expires {timers : Timers TimerFunc Unit} (sound : s.Sound log)
    (kept : timers.Holds (Timers.mainFirst ++ registered s.body)) (called : due log ≤ calls log) :
    ∃ pmsgs, s.sMsgs.pmsgs.add (some (.inl .netwkCk)) () =
        (pmsgs, .accepted (.inl .netwkCk) ()) ∧
      Sound { s with timers, sMsgs.pmsgs := pmsgs }
        (log ++ [.expired ⟨1, .netwkCk, (), false⟩, .queue (.accepted (.inl .netwkCk) ())]) := by
  have bounds : finishes (queued log) ≤ calls log ∧ calls log ≤ finishes (queued log) + 1 :=
    sound.place.finished_le
  have room : s.sMsgs.pmsgs.used + s.sMsgs.waiting < hmMsgMax - 1 := by
    rw [sound.orderly.used, Preempted.waiting, sound.alone, List.countP_nil, sound.pending_eq,
      List.length_replicate]
    simp only [hmMsgMax]
    omega
  obtain ⟨add, orderly⟩ := sound.orderly.add room (.inl .netwkCk) ()
  refine ⟨_, add, kept, ?_, sound.alone, ?_, ?_⟩
  · rw [queued_append]
    exact orderly
  · rw [queued_append, due_append]
    change accepts (queued log ++ [.accepted (.inl .netwkCk) ()]) = List.replicate (due log + 1) _
    rw [accepts_concat, List.replicate_succ', sound.accepted]
    rfl
  · rw [queued_append, calls_append]
    change Place s (calls log) (finishes (queued log ++ [.accepted (.inl .netwkCk) ()]))
    rw [finishes_other rfl]
    exact sound.place

theorem Sound.still {timers : Timers TimerFunc Unit} (sound : s.Sound log)
    (kept : timers.Holds (Timers.mainFirst ++ registered s.body))
    (unqueued : queued more = []) (undue : due more = 0) (uncalled : calls more = 0) :
    Sound { s with timers } (log ++ more) := by
  have queued_ : queued (log ++ more) = queued log := by
    rw [queued_append, unqueued, List.append_nil]
  have due_ : due (log ++ more) = due log := by rw [due_append, undue, Nat.add_zero]
  have calls_ : calls (log ++ more) = calls log := by rw [calls_append, uncalled, Nat.add_zero]
  refine ⟨kept, ?_, sound.alone, ?_, ?_⟩
  · rw [queued_]
    exact sound.orderly
  · rw [queued_, due_]
    exact sound.accepted
  · rw [queued_, calls_]
    exact sound.place

theorem Sound.starts (sound : s.Sound log) (body : s.body = .starting)
    (action : s.mainPart = some (t, more)) :
    t.Sound (log ++ more) ∧ s.Advances log t (log ++ more) := by
  have holds := sound.timers
  have place := sound.place
  unfold Place at place
  rw [body] at holds place
  unfold mainPart at action
  rw [body] at action
  obtain ⟨rfl, rfl⟩ := Prod.mk.inj (Option.some.inj action)
  have taken := holds.register (by decide) 100 .hmMotorLimitLogicalCheck () true (by decide)
    (by decide)
  rw [List.append_nil]
  cases doing : s.sMsgs.main with
  | idle =>
      rw [doing] at place
      refine ⟨⟨taken.2, sound.orderly, sound.alone, sound.accepted, ?_⟩, .nearer rfl rfl
        fun _ => ?_⟩
      · unfold Place
        dsimp only
        rw [doing]
        exact place
      · unfold parts
        dsimp only
        rw [doing, body]
  | found pmsg =>
      rw [doing] at place
      cases place
  | called pmsg =>
      rw [doing] at place
      cases place

theorem Sound.finds (sound : s.Sound log) (body : s.body = .returned)
    (doing : s.sMsgs.main = .idle) (action : s.onQueue .find = some (t, more)) :
    t.Sound (log ++ more) ∧ s.Advances log t (log ++ more) := by
  have goes : s.sMsgs.go .find =
      some ({ s.sMsgs with main := (s.sMsgs.pmsgs.msgGetRead.map .found).getD .idle }, []) := by
    unfold Preempted.go
    dsimp only
    rw [sound.alone, doing]
  have orderly := sound.orderly.find goes
  have place := sound.place
  unfold Place at place
  rw [body, doing] at place
  unfold onQueue at action
  rw [goes] at action
  obtain ⟨rfl, rfl⟩ := Prod.mk.inj (Option.some.inj action)
  rw [List.append_nil] at orderly
  rw [List.map_nil, List.append_nil]
  refine ⟨⟨sound.timers, orderly, sound.alone, sound.accepted, ?_⟩, .nearer rfl rfl
    fun waits => ?_⟩
  · unfold Place
    dsimp only
    rw [body]
    cases s.sMsgs.pmsgs.msgGetRead with
    | none => exact place
    | some pmsg => exact place
  · have left := sound.pending_ne_nil.mpr (by dsimp only at place; omega)
    have apart := mt sound.orderly.kept.apart.mp left
    have found : s.sMsgs.pmsgs.msgGetRead = some s.sMsgs.pmsgs.nread := by
      simp [MsgQueues.msgGetRead, MsgQueues.ismsgEmpty, apart]
    unfold parts
    dsimp only
    rw [body, doing, found]
    exact Nat.le_refl _

theorem log_queue (log : List LoopNote) (note : Note LoopFunc Unit) :
    queued (log ++ [.queue note]) = queued log ++ [note] ∧
      due (log ++ [.queue note]) = due log ∧ calls (log ++ [.queue note]) = calls log :=
  ⟨queued_append log _, due_append log _, calls_append log _⟩

theorem Sound.invokes (sound : s.Sound log) (body : s.body = .returned) {pmsg : Fin hmMsgMax}
    (doing : s.sMsgs.main = .found pmsg) (action : s.mainPart = some (t, more)) :
    t.Sound (log ++ more) ∧ s.Advances log t (log ++ more) := by
  have main := sound.orderly.main
  have holds := sound.timers
  have place := sound.place
  unfold Place at place
  rw [doing] at main
  rw [body] at holds
  rw [body, doing] at place
  obtain ⟨done, rfl, left⟩ := main
  obtain ⟨message, rest, next⟩ := List.exists_cons_of_ne_nil left
  have member : message ∈ pending (queued log) := by
    rw [next]
    exact List.mem_cons_self
  rw [sound.pending_eq] at member
  obtain rfl := List.eq_of_mem_replicate member
  have func : s.sMsgs.pmsgs.msgArray[s.sMsgs.pmsgs.nread].func = some (.inl .netwkCk) :=
    congrArg Prod.fst (sound.orderly.first sound.alone next)
  have goes : s.sMsgs.go .invoke = some ({ s.sMsgs with main := .called s.sMsgs.pmsgs.nread },
      [.invoked (.inl .netwkCk) ()]) := by
    unfold Preempted.go
    dsimp only
    rw [sound.alone, doing]
    dsimp only
    rw [func]
    rfl
  have orderly := sound.orderly.invoke goes
  obtain ⟨queued_, due_, calls_⟩ := log_queue log (.invoked (.inl .netwkCk) ())
  unfold mainPart at action
  rw [body] at action
  dsimp only at action
  rw [doing] at action
  dsimp only at action
  rw [func] at action
  dsimp only [onQueue, bind, Option.bind] at action
  rw [goes] at action
  obtain ⟨rfl, rfl⟩ := Prod.mk.inj (Option.some.inj action)
  rw [List.map_singleton]
  refine ⟨⟨holds, ?_, sound.alone, ?_, ?_⟩, .nearer due_ calls_ fun _ => ?_⟩
  · rw [queued_]
    exact orderly
  · rw [queued_, due_, accepts_other rfl]
    exact sound.accepted
  · rw [queued_, calls_, finishes_other rfl]
    exact ⟨rfl, place⟩
  · unfold parts
    rw [body, doing]

theorem lwipPeriodicHandle_frame (s : MainLoop) (localtime : UInt32) : ∃ arpTimer more,
    s.lwipPeriodicHandle localtime = ({ s with arpTimer }, more) ∧
      queued more = [] ∧ due more = 0 ∧ calls more = 1 := by
  unfold lwipPeriodicHandle
  split
  · exact ⟨_, _, rfl, rfl, rfl, rfl⟩
  · exact ⟨_, _, rfl, rfl, rfl, rfl⟩

theorem Sound.runs (sound : s.Sound log) {func : LoopFunc} (body : s.body = .entered func)
    (action : s.runBody func = (t, more)) :
    t.Sound (log ++ more) ∧ s.Advances log t (log ++ more) := by
  have holds := sound.timers
  have place := sound.place
  unfold Place at place
  rw [body] at holds place
  cases doing : s.sMsgs.main with
  | idle =>
      rw [doing] at place
      cases place
  | found pmsg =>
      rw [doing] at place
      cases place
  | called pmsg =>
      rw [doing] at place
      obtain ⟨rfl, place⟩ := place
      obtain ⟨arpTimer, notes, handle, unqueued, undue, once⟩ :=
        lwipPeriodicHandle_frame { s with body := .returned } s.timers.sTimCount
      obtain ⟨rfl, rfl⟩ := Prod.mk.inj (handle.symm.trans action)
      have queued_ : queued (log ++ notes) = queued log := by
        rw [queued_append, unqueued, List.append_nil]
      have due_ : due (log ++ notes) = due log := by rw [due_append, undue, Nat.add_zero]
      have calls_ : calls (log ++ notes) = calls log + 1 := by rw [calls_append, once]
      refine ⟨⟨holds, ?_, sound.alone, ?_, ?_⟩, .called due_ calls_⟩
      · rw [queued_]
        exact sound.orderly
      · rw [queued_, due_]
        exact sound.accepted
      · unfold Place
        dsimp only
        rw [doing, queued_, calls_, place]

theorem Sound.moves (sound : s.Sound log) (body : s.body = .returned) {pmsg : Fin hmMsgMax}
    (doing : s.sMsgs.main = .called pmsg) (action : s.onQueue .moveRead = some (t, more)) :
    t.Sound (log ++ more) ∧ s.Advances log t (log ++ more) := by
  have main := sound.orderly.main
  have place := sound.place
  unfold Place at place
  rw [doing] at main
  rw [body, doing] at place
  obtain ⟨done, rfl, left⟩ := main
  obtain ⟨pmsgs, moves⟩ : ∃ pmsgs, s.sMsgs.pmsgs.msgMoveNextRead s.sMsgs.pmsgs.nread = .ok pmsgs :=
    ⟨_, if_neg (not_not_intro rfl)⟩
  have goes : s.sMsgs.go .moveRead =
      some ({ s.sMsgs with pmsgs, main := .idle }, [.finished]) := by
    unfold Preempted.go
    dsimp only
    rw [sound.alone, doing]
    dsimp only
    rw [moves]
    rfl
  have orderly := sound.orderly.moveRead goes
  obtain ⟨queued_, due_, calls_⟩ := log_queue log .finished
  unfold onQueue at action
  rw [goes] at action
  obtain ⟨rfl, rfl⟩ := Prod.mk.inj (Option.some.inj action)
  rw [List.map_singleton]
  refine ⟨⟨sound.timers, ?_, sound.alone, ?_, ?_⟩, .nearer due_ calls_ fun _ => ?_⟩
  · rw [queued_]
    exact orderly
  · rw [queued_, due_, accepts_other rfl]
    exact sound.accepted
  · unfold Place
    dsimp only
    rw [body, queued_, calls_, finishes_concat]
    exact place
  · unfold parts
    rw [body, doing]

theorem Sound.main (sound : s.Sound log) (action : s.mainPart = some (t, more)) :
    t.Sound (log ++ more) ∧ s.Advances log t (log ++ more) := by
  cases body : s.body with
  | starting => exact sound.starts body action
  | returned =>
      have part := action
      unfold mainPart at part
      rw [body] at part
      dsimp only at part
      cases doing : s.sMsgs.main with
      | idle =>
          rw [doing] at part
          exact sound.finds body doing part
      | found pmsg => exact sound.invokes body doing action
      | called pmsg =>
          rw [doing] at part
          exact sound.moves body doing part
  | entered func =>
      unfold mainPart at action
      rw [body] at action
      exact sound.runs body (Option.some.inj action)
  | delaying delay =>
      have place := sound.place
      unfold Place at place
      rw [body] at place
      cases place
  | reset =>
      unfold mainPart at action
      rw [body] at action
      cases action

theorem Sound.main_msAt (sound : s.Sound log) (action : s.mainPart = some (t, more)) {slot : Nat}
    (first : slot < 2) : t.timers.msAt slot = s.timers.msAt slot := by
  have queue {s t : MainLoop} {part : QueuePart LoopFunc Unit} {more : List LoopNote}
      (action : s.onQueue part = some (t, more)) : t.timers = s.timers := by
    obtain ⟨next, -, same⟩ := Option.map_eq_some_iff.mp action
    obtain ⟨rfl, -⟩ := Prod.mk.inj same
    rfl
  unfold mainPart at action
  cases body : s.body with
  | starting =>
      have holds := sound.timers
      rw [body] at holds action
      obtain ⟨rfl, -⟩ := Prod.mk.inj (Option.some.inj action)
      have taken := holds.register (by decide) 100 .hmMotorLimitLogicalCheck () true (by decide)
        (by decide)
      exact Timers.hmTimerRegister_msAt taken.1 (Nat.ne_of_gt first)
  | returned =>
      rw [body] at action
      dsimp only at action
      split at action
      · rw [queue action]
      · obtain ⟨func, -, invoke⟩ := Option.bind_eq_some_iff.mp action
        rw [queue invoke]
      · rw [queue action]
  | entered func =>
      rw [body] at action
      have runs := Option.some.inj action
      unfold runBody at runs
      split at runs
      · obtain ⟨arpTimer, notes, handle, -⟩ :=
          lwipPeriodicHandle_frame { s with body := .returned } s.timers.sTimCount
        obtain ⟨rfl, -⟩ := Prod.mk.inj (handle.symm.trans runs)
        rfl
      · obtain ⟨rfl, -⟩ := Prod.mk.inj runs
        rfl
      · obtain ⟨rfl, -⟩ := Prod.mk.inj runs
        rfl
  | delaying delay =>
      rw [body] at action
      dsimp only at action
      split at action
      · obtain ⟨rfl, -⟩ := Prod.mk.inj (Option.some.inj action)
        rfl
      · obtain ⟨rfl, -⟩ := Prod.mk.inj (Option.some.inj action)
        rfl
  | reset =>
      rw [body] at action
      cases action

theorem Sound.step_cases (sound : s.Sound log) {e : LoopEvent} {log' : List LoopNote}
    (unasked : e ≠ .request) (action : Step (s, log) e (t, log')) :
    (e = .tick ∧ t = s.sysTickHandler.1 ∧ log' = log ++ s.sysTickHandler.2) ∨
      (e = .main ∧ ∃ more, s.mainPart = some (t, more) ∧ log' = log ++ more) := by
  obtain ⟨⟨t', more⟩, goes, same⟩ := Option.map_eq_some_iff.mp action
  obtain ⟨rfl, rfl⟩ := Prod.mk.inj same
  unfold exec at goes
  split at goes
  · cases goes
  · cases e with
    | tick =>
        obtain ⟨rfl, rfl⟩ := Prod.mk.inj (Option.some.inj goes)
        exact .inl ⟨rfl, rfl, rfl⟩
    | request => exact absurd rfl unasked
    | reserve =>
        dsimp only [onQueue, Preempted.go] at goes
        rw [sound.alone] at goes
        cases goes
    | store =>
        dsimp only [onQueue, Preempted.go] at goes
        rw [sound.alone] at goes
        cases goes
    | main =>
        dsimp only at goes
        rw [sound.alone] at goes
        exact .inr ⟨rfl, more, goes, rfl⟩

end Sound

/-- The parts of `main` up to a message that waits come in time before the timer expires again, `q`
ticks after the last part. -/
structure Serving (slack q : Nat) (now : MainLoop × List LoopNote) : Prop where
  sound : now.1.Sound now.2
  within : q ≤ slack
  inTime : calls now.2 < due now.2 → due now.2 = calls now.2 + 1 ∧
    now.1.parts * slack + 1 ≤ now.1.timers.msAt 1 + q

abbrev TimelyStep (slack : Nat) : Nat × MainLoop × List LoopNote → LoopEvent →
    Nat × MainLoop × List LoopNote → Prop :=
  PacedStep LoopEvent.isMain LoopEvent.isTick slack (Guarded (fun _ e => e ≠ .request) Step)

section Serving
variable {slack q : Nat} {s t : MainLoop} {log log' more : List LoopNote}
  {e : LoopEvent} {p p' : Nat × MainLoop × List LoopNote}

theorem Serving.called (serving : Serving slack q (s, log)) (soon : q + 1 ≤ slack)
    (expires : s.timers.msAt 1 = 1) : due log ≤ calls log := by
  by_contra waits
  obtain ⟨-, early⟩ := serving.inTime (Nat.not_le.mp waits)
  have least := Nat.mul_le_mul_right slack (parts_pos s)
  dsimp only at early
  omega

theorem Serving.still {timers : Timers TimerFunc Unit} (serving : Serving slack q (s, log))
    (kept : timers.Holds (Timers.mainFirst ++ registered s.body))
    (near : s.timers.msAt 1 ≤ timers.msAt 1 + 1) (soon : q + 1 ≤ slack)
    (unqueued : queued more = []) (undue : due more = 0) (uncalled : calls more = 0) :
    Serving slack (q + 1) ({ s with timers }, log ++ more) := by
  refine ⟨serving.sound.still kept unqueued undue uncalled, soon, ?_⟩
  rw [due_append, undue, calls_append, uncalled]
  intro waits
  obtain ⟨one, early⟩ := serving.inTime waits
  refine ⟨one, ?_⟩
  change s.parts * slack + 1 ≤ timers.msAt 1 + (q + 1)
  dsimp only at early
  omega

theorem Serving.expires {timers : Timers TimerFunc Unit} (serving : Serving slack q (s, log))
    (kept : timers.Holds (Timers.mainFirst ++ registered s.body)) (full : timers.msAt 1 = 1000)
    (soon : q + 1 ≤ slack) (fast : 4 * slack < 1000) (called : due log ≤ calls log) :
    ∃ pmsgs, s.sMsgs.pmsgs.add (some (.inl .netwkCk)) () =
        (pmsgs, .accepted (.inl .netwkCk) ()) ∧
      Serving slack (q + 1) ({ s with timers, sMsgs.pmsgs := pmsgs },
        log ++ [.expired ⟨1, .netwkCk, (), false⟩, .queue (.accepted (.inl .netwkCk) ())]) := by
  obtain ⟨pmsgs, add, sound⟩ := serving.sound.expires kept called
  refine ⟨pmsgs, add, sound, soon, fun _ => ?_⟩
  rw [due_append, calls_append]
  change due log + 1 = calls log + 1 ∧ s.parts * slack + 1 ≤ timers.msAt 1 + (q + 1)
  have most := Nat.mul_le_mul_right slack (parts_le s)
  have uncalled : calls log ≤ due log := serving.sound.calls_le
  omega

theorem Serving.tick (serving : Serving slack q (s, log)) (soon : q + 1 ≤ slack)
    (fast : 4 * slack < 1000) :
    Serving slack (q + 1) (s.sysTickHandler.1, log ++ s.sysTickHandler.2) := by
  have kept : Timers.Holds s.timers.sysTickHandler.1 _ := serving.sound.timers.ticks 1
  have tick := serving.sound.timers.tickOf (registered_direct s.body)
  unfold sysTickHandler
  generalize s.timers.sysTickHandler = result at kept tick
  obtain ⟨timers, expiry⟩ := result
  cases tick with
  | led due_ full same => exact serving.still kept (by dsimp only at same; omega) soon rfl rfl rfl
  | network next due_ full =>
      obtain ⟨pmsgs, add, later⟩ :=
        serving.expires kept full soon fast (serving.called soon due_)
      dsimp only
      rw [if_neg Bool.false_ne_true, add]
      exact later
  | other first next direct =>
      cases expiry with
      | none => exact serving.still kept (by dsimp only at next; omega) soon rfl rfl rfl
      | some expiry =>
          have direct_ := direct expiry rfl
          dsimp only
          rw [if_pos direct_]
          refine serving.still kept (by dsimp only at next; omega) soon rfl ?_ rfl
          simp [due, LoopNote.isDue, direct_]

theorem Serving.main (serving : Serving slack q (s, log)) (action : s.mainPart = some (t, more)) :
    Serving slack 0 (t, log ++ more) := by
  have before : s.Sound log := serving.sound
  obtain ⟨sound, advances⟩ := before.main action
  refine ⟨sound, Nat.zero_le _, fun waits => ?_⟩
  dsimp only at waits ⊢
  cases advances with
  | nearer due_ calls_ next =>
      have same := before.main_msAt action (show 1 < 2 by decide)
      rw [due_, calls_] at waits ⊢
      obtain ⟨one, early⟩ := serving.inTime waits
      have within : q ≤ slack := serving.within
      have less := Nat.mul_le_mul_right slack (next waits)
      rw [Nat.succ_mul] at less
      dsimp only at one early
      rw [same]
      omega
  | called due_ calls_ =>
      rw [due_, calls_] at waits
      obtain ⟨one, -⟩ := serving.inTime (Nat.lt_of_succ_lt waits)
      exact absurd waits (Nat.not_lt.mpr one.le)

theorem Serving.step (serving : Serving slack p.1 p.2) (fast : 4 * slack < 1000)
    (action : TimelyStep slack p e p') : Serving slack p'.1 p'.2 := by
  obtain ⟨q, s, log⟩ := p
  obtain ⟨q', t, log'⟩ := p'
  obtain ⟨⟨unasked, move⟩, quiet_, soon⟩ := action
  dsimp only at serving quiet_ soon ⊢
  rcases serving.sound.step_cases unasked move with ⟨rfl, rfl, rfl⟩ | ⟨rfl, more, part, rfl⟩
  · obtain rfl : q' = q + 1 := quiet_
    exact serving.tick soon fast
  · obtain rfl : q' = 0 := quiet_
    exact serving.main part

theorem sysTickHandler_frame (s : MainLoop) : ∃ timers pmsgs,
    s.sysTickHandler.1 = { s with timers, sMsgs.pmsgs := pmsgs } := by
  unfold sysTickHandler
  dsimp only
  split
  · exact ⟨_, _, rfl⟩
  · split
    · exact ⟨_, _, rfl⟩
    · exact ⟨_, _, rfl⟩

theorem sysTickHandler_calls (s : MainLoop) : calls s.sysTickHandler.2 = 0 := by
  unfold sysTickHandler
  dsimp only
  split
  · rfl
  · split <;> rfl

theorem Serving.progress {count : Nat} (serving : Serving slack p.1 p.2)
    (owed : calls p.2.2 < count ∧ count ≤ due p.2.2) (action : TimelyStep slack p e p') :
    count ≤ calls p'.2.2 ∨ (calls p'.2.2 < count ∧ count ≤ due p'.2.2) ∧
      p'.2.1.parts + (if e.isMain then 1 else 0) ≤ p.2.1.parts := by
  obtain ⟨q, s, log⟩ := p
  obtain ⟨q', t, log'⟩ := p'
  obtain ⟨⟨unasked, move⟩, -, -⟩ := action
  have sound : s.Sound log := serving.sound
  dsimp only at serving owed ⊢
  rcases sound.step_cases unasked move with ⟨rfl, rfl, rfl⟩ | ⟨rfl, more, part, rfl⟩
  · obtain ⟨timers, pmsgs, same⟩ := sysTickHandler_frame s
    have parts_ : s.sysTickHandler.1.parts = s.parts := by
      rw [same]
      rfl
    refine .inr ⟨⟨?_, ?_⟩, parts_.le⟩
    · rw [calls_append, sysTickHandler_calls]
      exact owed.1
    · rw [due_append]
      omega
  · obtain ⟨-, advances⟩ := sound.main part
    cases advances with
    | nearer due_ calls_ next =>
        rw [due_, calls_]
        exact .inr ⟨owed, next (by omega)⟩
    | called due_ calls_ =>
        obtain ⟨one, -⟩ := serving.inTime (show calls log < due log by omega)
        dsimp only at one
        rw [calls_]
        exact .inl (by omega)

end Serving

section Boot
variable {memory : Timers TimerFunc Unit}

theorem boot_sound (size : memory.sTimers.length = hmMaxTimer) (queue : MsgQueues LoopFunc Unit)
    (retries : Option Nat) (ticks : Nat × Nat) : (boot memory queue retries ticks).Sound [] := by
  have begun := (Timers.ethernetConfiguration_holds
    (Timers.hmTimerInit_holds memory size) retries).ticks ticks.1
  have led := (begun.register (by decide) 500 .ledCk () true (by decide) (by decide)).2.ticks
    ticks.2
  exact ⟨(led.register (by decide) 1000 .netwkCk () false (by decide) (by decide)).2,
    Preempted.orderly_init queue, rfl, rfl, rfl⟩

theorem boot_serving (size : memory.sTimers.length = hmMaxTimer) (queue : MsgQueues LoopFunc Unit)
    (retries : Option Nat) (ticks : Nat × Nat) (slack : Nat) :
    Serving slack 0 (boot memory queue retries ticks, []) :=
  ⟨boot_sound size queue retries ticks, Nat.zero_le _, fun waits => absurd waits (Nat.lt_irrefl 0)⟩

end Boot

section Served
variable {memory : Timers TimerFunc Unit} {slack q : Nat} {s t : MainLoop} {log log' : List LoopNote}
  {events later : List LoopEvent}

theorem Serving.run (serving : Serving slack q (s, log)) (fast : 4 * slack < 1000)
    (run : Run Step (s, log) events (t, log')) (unasked : .request ∉ events)
    (paced : Paced LoopEvent.isMain LoopEvent.isTick slack q (events ++ later)) :
    ∃ q', Run (TimelyStep slack) (q, s, log) events (q', t, log') ∧
      Serving slack q' (t, log') ∧
      Paced LoopEvent.isMain LoopEvent.isTick slack q' later := by
  have guarded : Run (Guarded (fun _ e => e ≠ .request) Step) (s, log) events (t, log') :=
    run.guarded fun e member same => unasked (same ▸ member)
  obtain ⟨q', timely, left⟩ := guarded.paced paced
  refine ⟨q', timely, ?_, left⟩
  exact timely.invariant (fun p => Serving slack p.1 p.2) serving
    fun _ _ _ serving action => serving.step fast action

theorem calls_mono {now next : MainLoop × List LoopNote} {e : LoopEvent} (action : Step now e next) :
    calls now.2 ≤ calls next.2 := by
  obtain ⟨⟨t, more⟩, -, rfl⟩ := Option.map_eq_some_iff.mp action
  rw [calls_append]
  exact Nat.le_add_right _ _

theorem Serving.window (serving : Serving slack q (s, log)) (fast : 4 * slack < 1000)
    (run : Run Step (s, log) events (t, log')) (unasked : .request ∉ events)
    (paced : Paced LoopEvent.isMain LoopEvent.isTick slack q events)
    (long : 4 * slack < events.countP LoopEvent.isTick) : due log ≤ calls log' := by
  have paced_ : Paced LoopEvent.isMain LoopEvent.isTick slack q (events ++ []) := by
    rw [List.append_nil]
    exact paced
  obtain ⟨q', timely, -, -⟩ := serving.run fast run unasked paced_
  have keeps (p : Nat × MainLoop × List LoopNote) (e : LoopEvent)
      (p' : Nat × MainLoop × List LoopNote) (done : due log ≤ calls p.2.2)
      (action : TimelyStep slack p e p') : due log ≤ calls p'.2.2 :=
    Nat.le_trans done (calls_mono action.1.2)
  by_cases done : due log ≤ calls log
  · exact timely.invariant (fun p => due log ≤ calls p.2.2) done
      fun p e p' done action => keeps p e p' done action
  · have owed : calls log < due log := Nat.not_le.mp done
    -- the call is four parts of `main` away at most, and three of them leave too few ticks
    have progress (p : Nat × MainLoop × List LoopNote) (e : LoopEvent)
        (p' : Nat × MainLoop × List LoopNote)
        (waits : Serving slack p.1 p.2 ∧ calls p.2.2 < due log ∧ due log ≤ due p.2.2)
        (action : TimelyStep slack p e p') : due log ≤ calls p'.2.2 ∨
          (Serving slack p'.1 p'.2 ∧ calls p'.2.2 < due log ∧ due log ≤ due p'.2.2) ∧
            p'.2.1.parts + (if e.isMain then 1 else 0) ≤
              p.2.1.parts + if (fun _ : LoopEvent => false) e then 1 else 0 :=
      (waits.1.progress waits.2 action).imp_right fun next =>
        ⟨⟨waits.1.step fast action, next.1⟩, next.2⟩
    rcases timely.bounded_wait progress keeps ⟨serving, owed, Nat.le_refl _⟩ with called | parts
    · exact called
    · have most := parts_le s
      have least := parts_pos t
      have few : events.countP LoopEvent.isMain ≤ 3 := by
        rw [List.countP_false] at parts
        dsimp only [Function.const] at parts
        omega
      have apart (e : LoopEvent) (main : e.isMain) : e.isTick = false := by
        cases e with
        | main => rfl
        | _ => cases main
      have beats := paced.few_beats serving.within apart few
      omega

theorem Sound.goesOn (sound : s.Sound log) : (s.exec .main).isSome := by
  have goes := sound.orderly.mainPart sound.alone
  have place := sound.place
  unfold Place at place
  unfold Preempted.mainPart at goes
  unfold exec mainPart
  rw [sound.alone]
  cases body : s.body with
  | starting => rfl
  | returned =>
      rw [if_neg LoopBody.noConfusion]
      dsimp only
      rw [List.isEmpty_nil, if_pos rfl]
      cases doing : s.sMsgs.main with
      | idle =>
          rw [doing] at goes
          dsimp only [onQueue]
          rw [Option.isSome_map]
          exact goes
      | found pmsg =>
          rw [doing] at goes
          dsimp only [Preempted.go] at goes
          rw [sound.alone, doing] at goes
          dsimp only at goes
          rw [Option.isSome_map] at goes
          obtain ⟨func, func_⟩ := Option.isSome_iff_exists.mp goes
          dsimp only [onQueue, Preempted.go]
          rw [sound.alone, doing]
          dsimp only
          rw [func_]
          rfl
      | called pmsg =>
          rw [doing] at goes
          dsimp only [onQueue]
          rw [Option.isSome_map]
          exact goes
  | entered func => rfl
  | delaying delay =>
      rw [body] at place
      cases place
  | reset =>
      rw [body] at place
      cases place

/-- While no more than `slack` ticks pass between two parts of `main`, and until a reset is
requested, `netwk_ck` is called once for each expiry of its timer and the loop never stops: at most
one message waits, and it is called within `4 * slack` ticks. -/
theorem network_served (size : memory.sTimers.length = hmMaxTimer)
    (queue : MsgQueues LoopFunc Unit) (retries : Option Nat) (ticks : Nat × Nat)
    (fast : 4 * slack < 1000) (run : Run Step (boot memory queue retries ticks, []) events (s, log))
    (steady : Steady LoopEvent.isMain LoopEvent.isTick slack events) (unasked : .request ∉ events) :
    calls log ≤ due log ∧ due log ≤ calls log + 1 ∧ (s.exec .main).isSome ∧
      ∀ later t log', Run Step (s, log) later (t, log') →
        Steady LoopEvent.isMain LoopEvent.isTick slack (events ++ later) → .request ∉ later →
          4 * slack < later.countP LoopEvent.isTick → due log ≤ calls log' := by
  have begun := boot_serving size queue retries ticks slack
  have nothing : Steady LoopEvent.isMain LoopEvent.isTick slack (events ++ []) := by
    rw [List.append_nil]
    exact steady
  obtain ⟨q, -, serving, -⟩ := begun.run fast run unasked nothing.paced_zero
  have sound : s.Sound log := serving.sound
  refine ⟨sound.calls_le, ?_, sound.goesOn, fun later t log' run' steady' unasked' long => ?_⟩
  · by_contra late
    obtain ⟨one, -⟩ := serving.inTime (show calls log < due log by omega)
    exact late one.le
  · obtain ⟨q, -, serving, paced⟩ := begun.run fast run unasked steady'.paced_zero
    exact serving.window fast run' unasked' paced long

theorem Serving.goesOn {now : MainLoop × List LoopNote} (serving : Serving slack q now)
    (fast : 4 * slack < 1000) (paced : Paced LoopEvent.isMain LoopEvent.isTick slack q events)
    (unasked : ∀ e ∈ events, e = .tick ∨ e = .main) : ∃ next, Run Step now events next := by
  induction events generalizing q now with
  | nil => exact ⟨now, .nil⟩
  | cons e events ih =>
      obtain ⟨first, rest⟩ := List.forall_mem_cons.mp unasked
      have goes : (now.1.exec e).isSome := by
        rcases first with rfl | rfl
        · have place := serving.sound.place
          unfold Place at place
          unfold exec
          split
          · rename_i reset
            rw [reset] at place
            cases place
          · rfl
        · exact serving.sound.goesOn
      obtain ⟨⟨t, more⟩, action⟩ := Option.isSome_iff_exists.mp goes
      have move : Step now e (t, now.2 ++ more) := by
        unfold Step play
        rw [action]
        rfl
      have asked : e ≠ .request := by rcases first with rfl | rfl <;> decide
      have timely : TimelyStep slack (q, now) e (quiet LoopEvent.isMain LoopEvent.isTick q e,
          t, now.2 ++ more) := ⟨⟨asked, move⟩, rfl, paced.1⟩
      have after : Serving slack _ (t, now.2 ++ more) := Serving.step serving fast timely
      obtain ⟨next, run⟩ := ih after paced.2 rest
      exact ⟨next, .cons move run⟩

def clearTimers : Timers TimerFunc Unit :=
  ⟨List.replicate hmMaxTimer ⟨none, (), 0, 0, false, false⟩, 0⟩

def clearQueue : MsgQueues LoopFunc Unit :=
  ⟨Vector.replicate hmMsgMax ⟨none, (), false⟩, 0, 0, 0⟩

def rounds : Nat → List LoopEvent
  | 0 => []
  | n + 1 => List.replicate 100 .tick ++ .main :: rounds n

theorem rounds_ticks (n : Nat) : (rounds n).countP LoopEvent.isTick = 100 * n := by
  induction n with
  | zero => rfl
  | succ n ih =>
      rw [rounds, List.countP_append, List.countP_replicate, List.countP_cons, ih]
      simp [LoopEvent.isTick]
      omega

theorem rounds_other (n : Nat) : ∀ e ∈ rounds n, e = .tick ∨ e = .main := by
  induction n with
  | zero => exact List.forall_mem_nil _
  | succ n ih =>
      intro e member
      rw [rounds, List.mem_append, List.mem_cons] at member
      rcases member with tick | main | later
      · exact .inl (List.eq_of_mem_replicate tick)
      · exact .inr main
      · exact ih e later

theorem rounds_paced (n : Nat) : Paced LoopEvent.isMain LoopEvent.isTick 100 0 (rounds n) := by
  induction n with
  | zero => trivial
  | succ n ih => exact ih.round rfl rfl rfl (by decide)

theorem rounds_unasked (n : Nat) : .request ∉ rounds n := by
  intro member
  rcases rounds_other n _ member with same | same <;> cases same

def firstSecond : List LoopEvent := rounds 10 ++ List.replicate 5 .tick

theorem computes_step : Computes play Step := fun _ _ _ move => move

theorem network_served_first : ∃ s log t log',
    Run Step (boot clearTimers clearQueue none (0, 0), []) firstSecond (s, log) ∧
      due log = 1 ∧ calls log = 0 ∧ Run Step (s, log) (rounds 5) (t, log') ∧ 1 ≤ calls log' := by
  have steady : Steady LoopEvent.isMain LoopEvent.isTick 105 firstSecond := by decide +kernel
  have steady' : Steady LoopEvent.isMain LoopEvent.isTick 105 (firstSecond ++ rounds 5) := by
    decide +kernel
  have unasked : .request ∉ firstSecond := by decide +kernel
  obtain ⟨⟨s, log⟩, run, test⟩ := computes_step.run_any
    (show (firstSecond.foldlM play (boot clearTimers clearQueue none (0, 0), [])).any
      fun now : MainLoop × List LoopNote => decide (due now.2 = 1 ∧ calls now.2 = 0)
      by decide +kernel)
  obtain ⟨one, none_⟩ := of_decide_eq_true test
  obtain ⟨q, -, serving, paced⟩ := (boot_serving rfl clearQueue none (0, 0) 105).run (by decide)
    run unasked steady'.paced_zero
  obtain ⟨⟨t, log'⟩, run'⟩ := serving.goesOn (by decide) paced (rounds_other 5)
  have served := (network_served rfl clearQueue none (0, 0) (by decide) run steady unasked).2.2.2
    (rounds 5) t log' run' steady' (rounds_unasked 5) (by rw [rounds_ticks]; decide)
  dsimp only at one
  rw [one] at served
  exact ⟨s, log, t, log', run, one, none_, run', served⟩

end Served

end MainLoop

end MotionBoard
