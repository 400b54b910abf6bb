import MotionBoard.Main.Served

namespace MotionBoard
open Transition

namespace MainLoop

def elapsed (s : MainLoop) : UInt32 := s.timers.sTimCount - s.arpTimer

section Aging
variable {s t : MainLoop} {log log' more : List LoopNote} {e : LoopEvent}

inductive Aging (s : MainLoop) (log : List LoopNote) : LoopEvent → MainLoop → List LoopNote → Prop
  | tick {t : MainLoop} {log' : List LoopNote} : t.elapsed = s.elapsed + 1 →
      calls log' = calls log → etharps log' = etharps log → Aging s log .tick t log'
  | early {t : MainLoop} {log' : List LoopNote} : s.elapsed < arpTmrInterval →
      t.elapsed = s.elapsed → etharps log' = etharps log → Aging s log .main t log'
  | due {t : MainLoop} {log' : List LoopNote} : s.elapsed ≥ arpTmrInterval → t.elapsed = 0 →
      etharps log' = etharps log + 1 → Aging s log .main t log'
  | other {e : LoopEvent} {t : MainLoop} {log' : List LoopNote} : e.isTick = false →
      t.elapsed = s.elapsed → calls log' = calls log → etharps log' = etharps log →
      Aging s log e t log'

theorem sysTickHandler_etharps (s : MainLoop) : etharps s.sysTickHandler.2 = 0 := by
  unfold sysTickHandler
  dsimp only
  split
  · rfl
  · split <;> rfl

theorem sysTickHandler_elapsed (s : MainLoop) :
    s.sysTickHandler.1.elapsed = s.elapsed + 1 := by
  have time : s.timers.sysTickHandler.1.sTimCount = s.timers.sTimCount + 1 := rfl
  have later : s.timers.sTimCount + 1 - s.arpTimer = s.timers.sTimCount - s.arpTimer + 1 := by
    rw [UInt32.sub_eq_add_neg, UInt32.sub_eq_add_neg, UInt32.add_assoc, UInt32.add_comm 1,
      ← UInt32.add_assoc]
  unfold sysTickHandler
  dsimp only
  split
  · exact (congrArg (· - s.arpTimer) time).trans later
  · split
    · exact (congrArg (· - s.arpTimer) time).trans later
    · exact (congrArg (· - s.arpTimer) time).trans later

theorem onQueue_still {part : QueuePart LoopFunc Unit} (action : s.onQueue part = some (t, more)) :
    t.elapsed = s.elapsed ∧ calls (log ++ more) = calls log ∧ etharps (log ++ more) = etharps log := by
  obtain ⟨next, -, same⟩ := Option.map_eq_some_iff.mp action
  obtain ⟨rfl, rfl⟩ := Prod.mk.inj same
  refine ⟨rfl, ?_, ?_⟩
  · rw [calls_append, calls_map_queue, Nat.add_zero]
  · rw [etharps_append, etharps_map_queue, Nat.add_zero]

theorem onQueue_aging {part : QueuePart LoopFunc Unit} (other : e.isTick = false)
    (action : s.onQueue part = some (t, more)) : s.Aging log e t (log ++ more) := by
  obtain ⟨elapsed_, calls_, etharps_⟩ := onQueue_still action
  exact .other other elapsed_ calls_ etharps_

theorem runBody_aging (s : MainLoop) (log : List LoopNote) (func : LoopFunc) :
    s.Aging log .main (s.runBody func).1 (log ++ (s.runBody func).2) := by
  cases func with
  | inl func =>
      cases func with
      | netwkCk =>
          unfold runBody lwipPeriodicHandle
          dsimp only
          split
          · rename_i late
            exact .due late (UInt32.sub_self _) (etharps_append log _)
          · rename_i early
            exact .early (UInt32.not_le.mp early) rfl (etharps_append log _)
      | _ => exact .other rfl rfl (by rw [calls_append]; rfl) (by rw [etharps_append]; rfl)
  | inr func =>
      cases func with
      | hmCmdRebootCk => exact .other rfl rfl (by rw [calls_append]; rfl) (by rw [etharps_append]; rfl)

theorem hmTimerRegister_sTimCount (timers : Timers TimerFunc Unit) (ms : UInt32)
    (func : Option TimerFunc) (once direct : Bool) :
    (timers.hmTimerRegister ms func () once direct).2.sTimCount = timers.sTimCount := by
  unfold Timers.hmTimerRegister
  split
  · rfl
  · split <;> rfl

theorem mainPart_aging (action : s.mainPart = some (t, more)) :
    s.Aging log .main t (log ++ more) := by
  unfold mainPart at action
  cases body : s.body with
  | starting =>
      rw [body] at action
      obtain ⟨rfl, rfl⟩ := Prod.mk.inj (Option.some.inj action)
      rw [List.append_nil]
      refine .other rfl ?_ rfl rfl
      exact congrArg (· - s.arpTimer) (hmTimerRegister_sTimCount _ _ _ _ _)
  | returned =>
      rw [body] at action
      dsimp only at action
      cases doing : s.sMsgs.main with
      | idle =>
          rw [doing] at action
          exact onQueue_aging rfl action
      | found pmsg =>
          rw [doing] at action
          obtain ⟨func, -, invoke⟩ := Option.bind_eq_some_iff.mp action
          obtain ⟨elapsed_, calls_, etharps_⟩ := onQueue_still invoke
          exact .other rfl elapsed_ calls_ etharps_
      | called pmsg =>
          rw [doing] at action
          exact onQueue_aging rfl action
  | entered func =>
      rw [body] at action
      have runs := runBody_aging s log func
      rw [Option.some.inj action] at runs
      exact runs
  | delaying delay =>
      rw [body] at action
      dsimp only at action
      split at action
      · obtain ⟨rfl, rfl⟩ := Prod.mk.inj (Option.some.inj action)
        exact .other rfl rfl (calls_append log _) (etharps_append log _)
      · obtain ⟨rfl, rfl⟩ := Prod.mk.inj (Option.some.inj action)
        exact .other rfl rfl (calls_append log _) (etharps_append log _)
  | reset =>
      rw [body] at action
      cases action

theorem Step.aging (action : Step (s, log) e (t, log')) : s.Aging log e t log' := by
  obtain ⟨⟨t', more⟩, goes, same⟩ := Option.map_eq_some_iff.mp action
  obtain ⟨rfl, rfl⟩ := Prod.mk.inj same
  unfold exec at goes
  split at goes
  · cases goes
  · cases e with
    | tick =>
        have elapsed_ := sysTickHandler_elapsed s
        have calls_ := sysTickHandler_calls s
        have etharps_ := sysTickHandler_etharps s
        rw [Option.some.inj goes] at elapsed_ calls_ etharps_
        refine .tick elapsed_ ?_ ?_
        · rw [calls_append, calls_, Nat.add_zero]
        · rw [etharps_append, etharps_, Nat.add_zero]
    | request =>
        dsimp only at goes
        split at goes
        · exact onQueue_aging rfl goes
        · cases goes
    | reserve => exact onQueue_aging rfl goes
    | store => exact onQueue_aging rfl goes
    | main =>
        dsimp only at goes
        split at goes
        · exact mainPart_aging goes
        · cases goes

end Aging

section Runs
variable {now next : MainLoop × List LoopNote} {e : LoopEvent} {events : List LoopEvent}

theorem etharps_step (action : Step now e next) : etharps now.2 ≤ etharps next.2 := by
  obtain ⟨⟨t, more⟩, -, rfl⟩ := Option.map_eq_some_iff.mp action
  rw [etharps_append]
  exact Nat.le_add_right _ _

theorem etharps_mono (run : Run Step now events next) : etharps now.2 ≤ etharps next.2 := by
  have grows (now : MainLoop × List LoopNote) (e : LoopEvent) (next : MainLoop × List LoopNote)
      (action : Step now e next) : etharps now.2 ≤ etharps next.2 := etharps_step action
  exact run.grows grows

theorem toNat_succ {time : UInt32} (room : time.toNat + 1 < 2 ^ 32) :
    (time + 1).toNat = time.toNat + 1 := by
  rw [UInt32.toNat_add]
  exact Nat.mod_eq_of_lt room

theorem etharps_young (run : Run Step now events next)
    (short : now.1.elapsed.toNat + events.countP LoopEvent.isTick < 5000) :
    etharps next.2 = etharps now.2 := by
  induction run with
  | nil => rfl
  | @cons now next last e events move _ ih =>
      rw [List.countP_cons] at short
      cases Step.aging move with
      | tick later _ same =>
          have later_ := toNat_succ (show now.1.elapsed.toNat + 1 < 2 ^ 32 by omega)
          rw [if_pos (show LoopEvent.tick.isTick from rfl)] at short
          rw [← same]
          exact ih (by rw [later, later_]; omega)
      | early _ same none_ =>
          rw [← none_]
          exact ih (by rw [same]; omega)
      | due late _ _ =>
          have over_ := UInt32.le_iff_toNat_le.mp late
          change 5000 ≤ now.1.elapsed.toNat at over_
          omega
      | other _ same _ none_ =>
          rw [← none_]
          exact ih (by rw [same]; omega)

theorem etharps_spaced (run : Run Step now events next)
    (short : events.countP LoopEvent.isTick < 5000) : etharps next.2 ≤ etharps now.2 + 1 := by
  induction run with
  | nil => exact Nat.le_succ _
  | @cons now next last e events move rest ih =>
      rw [List.countP_cons] at short
      have later := ih (Nat.lt_of_le_of_lt (Nat.le_add_right _ _) short)
      cases Step.aging move with
      | tick _ _ same => rwa [same] at later
      | early _ _ none_ => rwa [none_] at later
      | due _ zero once =>
          rw [← once]
          refine (etharps_young rest ?_).le
          rw [zero]
          exact Nat.lt_of_le_of_lt (Nat.zero_add _ ▸ Nat.le_add_right _ _) short
      | other _ _ _ none_ => rwa [none_] at later

theorem elapsed_run (run : Run Step now events next) (none_ : etharps next.2 = etharps now.2)
    (room : now.1.elapsed.toNat + events.countP LoopEvent.isTick < 2 ^ 32) :
    next.1.elapsed.toNat = now.1.elapsed.toNat + events.countP LoopEvent.isTick := by
  induction run with
  | nil => rfl
  | @cons now next last e events move rest ih =>
      have first := etharps_step move
      have later := etharps_mono rest
      have ih := ih (by omega)
      rw [List.countP_cons] at room ⊢
      cases Step.aging move with
      | tick more _ _ =>
          rw [if_pos (show LoopEvent.tick.isTick from rfl)] at room ⊢
          rw [more, toNat_succ (by omega)] at ih
          rw [ih (by omega)]
          omega
      | early _ same _ =>
          rw [same] at ih
          exact ih room
      | due _ _ once => omega
      | other still same _ _ =>
          rw [if_neg (by simp [still])] at room ⊢
          rw [same] at ih
          exact ih room

theorem elapsed_called (run : Run Step now events next) (none_ : etharps next.2 = etharps now.2)
    (room : 5000 + events.countP LoopEvent.isTick < 2 ^ 32) :
    calls next.2 = calls now.2 ∨
      next.1.elapsed.toNat < 5000 + events.countP LoopEvent.isTick := by
  induction run with
  | nil => exact .inl rfl
  | @cons now next last e events move rest ih =>
      have first := etharps_step move
      have later := etharps_mono rest
      have ih := ih (by omega)
      rw [List.countP_cons] at room ⊢
      cases Step.aging move with
      | tick _ same _ =>
          rw [same] at ih
          exact (ih (by omega)).imp_right fun young => by omega
      | early young same _ =>
          have young_ := UInt32.lt_iff_toNat_lt.mp young
          change now.1.elapsed.toNat < 5000 at young_
          have time := elapsed_run rest (by omega) (by rw [same]; omega)
          rw [same] at time
          exact .inr (by omega)
      | due _ _ once => omega
      | other _ _ same _ =>
          rw [same] at ih
          exact (ih (by omega)).imp_right fun young => by omega

theorem elapsed_over (run : Run Step now events next) (none_ : etharps next.2 = etharps now.2)
    (over_ : 5000 ≤ now.1.elapsed.toNat)
    (room : now.1.elapsed.toNat + events.countP LoopEvent.isTick < 2 ^ 32) :
    calls next.2 = calls now.2 := by
  induction run with
  | nil => rfl
  | @cons now next last e events move rest ih =>
      have first := etharps_step move
      have later := etharps_mono rest
      have ih := ih (by omega)
      rw [List.countP_cons] at room
      cases Step.aging move with
      | tick more same _ =>
          rw [if_pos (show LoopEvent.tick.isTick from rfl)] at room
          rw [more, toNat_succ (by omega)] at ih
          rw [← same]
          exact ih (by omega) (by omega)
      | early young _ _ =>
          have young_ := UInt32.lt_iff_toNat_lt.mp young
          change now.1.elapsed.toNat < 5000 at young_
          omega
      | due _ _ once => omega
      | other still same calls_ _ =>
          rw [same] at ih
          rw [← calls_]
          exact ih over_ (by omega)

end Runs

section Calls
variable {slack q : Nat} {s t : MainLoop} {log log' : List LoopNote} {e : LoopEvent}
  {events : List LoopEvent} {p p' : Nat × MainLoop × List LoopNote}

/-- What is left up to the next expiry, where a tick that ends at the LED counts almost as much as
one that comes to the timer of the network. -/
def distance (s : MainLoop) : Nat := 499 * s.timers.msAt 1 + (500 - s.timers.msAt 0)

theorem due_mono {now next : MainLoop × List LoopNote} (action : Step now e next) :
    due now.2 ≤ due next.2 := by
  obtain ⟨⟨t, more⟩, -, rfl⟩ := Option.map_eq_some_iff.mp action
  rw [due_append]
  exact Nat.le_add_right _ _

theorem Sound.tick_distance (sound : s.Sound log) :
    due log < due (log ++ s.sysTickHandler.2) ∨ s.sysTickHandler.1.distance + 498 ≤ s.distance := by
  obtain ⟨ledMost, netLeast, netMost⟩ := sound.timers.msAt_bounds
  have tick := sound.timers.tickOf (registered_direct s.body)
  rw [due_append]
  unfold sysTickHandler distance
  generalize s.timers.sysTickHandler = result at tick
  obtain ⟨timers, expiry⟩ := result
  cases tick with
  | led ledDue full same =>
      right
      dsimp only at full same ⊢
      change 499 * timers.msAt 1 + (500 - timers.msAt 0) + 498 ≤ _
      omega
  | network next netDue full =>
      left
      dsimp only
      rw [if_neg Bool.false_ne_true]
      exact Nat.lt_succ_of_le (Nat.le_refl _)
  | other first next direct =>
      right
      dsimp only at first next ⊢
      have nearer : 499 * timers.msAt 1 + (500 - timers.msAt 0) + 498 ≤
          499 * s.timers.msAt 1 + (500 - s.timers.msAt 0) := by omega
      cases expiry with
      | none => exact nearer
      | some expiry =>
          dsimp only
          rw [if_pos (direct expiry rfl)]
          exact nearer

theorem Serving.run_distance (run : Run (TimelyStep slack) p events p')
    (serving : Serving slack p.1 p.2) (fast : 4 * slack < 1000) : due p.2.2 < due p'.2.2 ∨
      p'.2.1.distance + 498 * events.countP LoopEvent.isTick ≤ p.2.1.distance := by
  induction run with
  | nil => exact .inr (Nat.le_refl _)
  | @cons p p' last e events move rest ih =>
      have grows := due_mono move.1.2
      rcases ih (serving.step fast move) with expired | nearer
      · exact .inl (Nat.lt_of_le_of_lt grows expired)
      · have grow (p : Nat × MainLoop × List LoopNote) (e : LoopEvent)
            (p' : Nat × MainLoop × List LoopNote) (move : TimelyStep slack p e p') :
            due p.2.2 ≤ due p'.2.2 := due_mono move.1.2
        have grows' : due p'.2.2 ≤ due last.2.2 := rest.grows grow
        obtain ⟨⟨unasked, action⟩, -, -⟩ := move
        obtain ⟨q, s, log⟩ := p
        obtain ⟨q', t, log'⟩ := p'
        have sound : s.Sound log := serving.sound
        rw [List.countP_cons]
        dsimp only at nearer grows' ⊢
        -- only a tick comes nearer
        rcases sound.step_cases unasked action with ⟨rfl, rfl, rfl⟩ | ⟨rfl, more, part, rfl⟩
        · rw [if_pos (show LoopEvent.tick.isTick from rfl), Nat.mul_add 498, Nat.mul_one,
            ← Nat.add_assoc]
          exact sound.tick_distance.imp (fun expired => Nat.lt_of_lt_of_le expired grows')
            (Nat.le_trans (Nat.add_le_add_right nearer 498))
        · have same : t.distance = s.distance := by
            unfold distance
            rw [sound.main_msAt part (show 1 < 2 by decide),
              sound.main_msAt part (show 0 < 2 by decide)]
          rw [if_neg (show ¬ LoopEvent.main.isTick from Bool.false_ne_true)]
          exact .inr (by omega)

theorem Serving.expires_within (serving : Serving slack q (s, log)) (fast : 4 * slack < 1000)
    (run : Run (TimelyStep slack) (q, s, log) events p')
    (long : 1003 ≤ events.countP LoopEvent.isTick) : due log < due p'.2.2 := by
  have after : Serving slack p'.1 p'.2 :=
    run.invariant (fun p => Serving slack p.1 p.2) serving
      fun _ _ _ serving action => serving.step fast action
  refine (Serving.run_distance run serving fast).resolve_right fun nearer => ?_
  obtain ⟨-, -, most⟩ := serving.sound.timers.msAt_bounds
  obtain ⟨-, least, -⟩ := after.sound.timers.msAt_bounds
  unfold distance at nearer
  dsimp only at nearer most
  omega

theorem Serving.calls_within (serving : Serving slack q (s, log)) (fast : 4 * slack < 1000)
    (run : Run Step (s, log) events (t, log')) (unasked : .request ∉ events)
    (paced : Paced LoopEvent.isMain LoopEvent.isTick slack q events)
    (long : 1004 + 4 * slack ≤ events.countP LoopEvent.isTick) : calls log < calls log' := by
  have enough : 1003 ≤ events.countP LoopEvent.isTick := by omega
  obtain ⟨first, rest, rfl, count⟩ := exists_prefix_countP enough
  obtain ⟨⟨u, log₁⟩, run₁, run₂⟩ := run.split
  rw [List.mem_append, not_or] at unasked
  rw [List.countP_append, count] at long
  obtain ⟨q', timely, serving', paced'⟩ := serving.run fast run₁ unasked.1 paced
  have expired : due log < due log₁ := serving.expires_within fast timely (Nat.le_of_eq count.symm)
  have called := serving'.window fast run₂ unasked.2 paced' (by omega)
  have before : calls log ≤ due log := serving.sound.calls_le
  omega

end Calls

section Aged
variable {memory : Timers TimerFunc Unit} {slack q : Nat} {s t : MainLoop}
  {log log' : List LoopNote} {events later : List LoopEvent}

theorem Serving.ages (serving : Serving slack q (s, log)) (fast : 4 * slack < 1000)
    (run : Run Step (s, log) events (t, log')) (unasked : .request ∉ events)
    (paced : Paced LoopEvent.isMain LoopEvent.isTick slack q events)
    (long : 7008 + 8 * slack ≤ events.countP LoopEvent.isTick) : etharps log < etharps log' := by
  have enough : 1004 + 4 * slack ≤ events.countP LoopEvent.isTick := by omega
  obtain ⟨first, events, rfl, count₁⟩ := exists_prefix_countP enough
  rw [List.countP_append, count₁] at long
  have enough : 5000 ≤ events.countP LoopEvent.isTick := by omega
  obtain ⟨second, events, rfl, count₂⟩ := exists_prefix_countP enough
  rw [List.countP_append, count₂] at long
  have enough : 1004 + 4 * slack ≤ events.countP LoopEvent.isTick := by omega
  obtain ⟨third, events, rfl, count₃⟩ := exists_prefix_countP enough
  simp only [List.mem_append, not_or] at unasked
  obtain ⟨unasked₁, unasked₂, unasked₃, -⟩ := unasked
  obtain ⟨⟨s₁, log₁⟩, run₁, run⟩ := run.split
  obtain ⟨⟨s₂, log₂⟩, run₂, run⟩ := run.split
  obtain ⟨⟨s₃, log₃⟩, run₃, run⟩ := run.split
  obtain ⟨q₁, -, serving₁, paced₁⟩ := serving.run fast run₁ unasked₁ paced
  obtain ⟨q₂, -, serving₂, paced₂⟩ := serving₁.run fast run₂ unasked₂ paced₁
  by_contra none_
  have grows₁ := etharps_mono run₁
  have grows₂ := etharps_mono run₂
  have grows₃ := etharps_mono run₃
  have grows := etharps_mono run
  dsimp only at grows₁ grows₂ grows₃ grows
  have called₁ : calls log < calls log₁ :=
    serving.calls_within fast run₁ unasked₁ paced.first (Nat.le_of_eq count₁.symm)
  have young : s₁.elapsed.toNat < 5000 + first.countP LoopEvent.isTick :=
    (elapsed_called run₁ (by dsimp only; omega) (by omega)).resolve_left (Nat.ne_of_gt called₁)
  have time : s₂.elapsed.toNat = s₁.elapsed.toNat + second.countP LoopEvent.isTick :=
    elapsed_run run₂ (by dsimp only; omega) (by dsimp only; omega)
  have uncalled : calls log₃ = calls log₂ :=
    elapsed_over run₃ (by dsimp only; omega) (by dsimp only; omega) (by dsimp only; omega)
  have called₃ : calls log₂ < calls log₃ :=
    serving₂.calls_within fast run₃ unasked₃ paced₂.first (Nat.le_of_eq count₃.symm)
  omega

/-- While no more than `slack` ticks pass between two parts of `main`, and until a reset is
requested, `etharp_tmr` is called no more than once in less than 5000 ticks, and at least once in
any `7008 + 8 * slack`, whatever the tick counter has come to. -/
theorem arp_aged (size : memory.sTimers.length = hmMaxTimer) (queue : MsgQueues LoopFunc Unit)
    (retries : Option Nat) (ticks : Nat × Nat) (fast : 4 * slack < 1000)
    (run : Run Step (boot memory queue retries ticks, []) events (s, log))
    (run' : Run Step (s, log) later (t, log'))
    (steady : Steady LoopEvent.isMain LoopEvent.isTick slack (events ++ later))
    (unasked : .request ∉ events ++ later) :
    (later.countP LoopEvent.isTick < 5000 → etharps log' ≤ etharps log + 1) ∧
      (7008 + 8 * slack ≤ later.countP LoopEvent.isTick → etharps log < etharps log') := by
  rw [List.mem_append, not_or] at unasked
  obtain ⟨q, -, serving, paced⟩ :=
    (boot_serving size queue retries ticks slack).run fast run unasked.1 steady.paced_zero
  exact ⟨etharps_spaced run', serving.ages fast run' unasked.2 paced⟩

theorem arp_aged_boot : ∃ t log,
    Run Step (boot clearTimers clearQueue none (0, 0), []) (rounds 79) (t, log) ∧
      1 ≤ etharps log := by
  have begun : Serving 100 0 (boot clearTimers clearQueue none (0, 0), []) :=
    boot_serving rfl clearQueue none (0, 0) 100
  obtain ⟨⟨t, log⟩, run⟩ := begun.goesOn (by decide) (rounds_paced 79) (rounds_other 79)
  exact ⟨t, log, run, (arp_aged rfl clearQueue none (0, 0) (by decide) .nil run
    (steady_iff_paced.mpr (rounds_paced 79)) (rounds_unasked 79)).2 (by rw [rounds_ticks]; decide)⟩

end Aged

end MainLoop

end MotionBoard
