import MotionBoard.StepMotor.LimitStop
import MotionBoard.StepMotor.Position
import MotionBoard.Timer.Boot

namespace MotionBoard
open Transition

def hmMotorHit (io : Pins) : RunDir → Bool
  | .rdCW => hmMotorHitCW io
  | .rdCCW => hmMotorHitCCW io

def Event.pins : Event → Option Pins
  | .move io _ _ _ _ => some io
  | .startHoming io _ _ => some io
  | .startFreeRun io _ _ => some io
  | .startRun io _ _ => some io
  | .limitCheck io => some io
  | .externIrq _ _ io => some io
  | _ => none

namespace StepInfo

def Away (psrd : StepInfo) (dir : RunDir) : Prop := ¬ (psrd.running ∧ psrd.dir = dir)

def Drives (psrd : StepInfo) (dir : RunDir) : Prop :=
  psrd.playing ∧ psrd.motor.dirPin = decide (dir = .rdCW)

section Away
variable {psrd t : StepInfo} {e : Event} {dir : RunDir} {io : Pins}

theorem Outcome.clear {amount : Int32} {request : UInt32} {home answer : Bool}
    (outcome : Outcome psrd amount io request home answer t)
    (stopped : psrd.axisState = .asStoped) (running : t.running) : hmMotorHit io t.dir = false := by
  rcases outcome with ⟨moving, -⟩ | ⟨-, -, -, rfl⟩ | ⟨-, -, free, launched⟩
  · exact absurd stopped moving
  · exact absurd running (not_running_of_stopped stopped)
  · have turned : t.dir = (psrd.towards amount).dir := launched.prepared.dir
    rw [← Bool.not_eq_true, turned]
    intro hit
    apply free
    cases way : (psrd.towards amount).dir with
    | rdCW => exact .inl ⟨by rw [way] at hit; exact hit, way⟩
    | rdCCW => exact .inr (.inl ⟨by rw [way] at hit; exact hit, way⟩)

theorem starts_clear (starts : psrd.starts e) (action : psrd.exec e = .ok t) (running : t.running) :
    ∃ io, e.pins = some io ∧ hmMotorHit io t.dir = false := by
  cases e with
  | move io step accel decel speed =>
      obtain ⟨answer, result⟩ := map_snd_ok action
      exact ⟨io, rfl, (hmStepMotorMove_ok result).clear (goes_ahead_iff.mp starts).1 running⟩
  | startHoming io accel speed =>
      obtain ⟨answer, result⟩ := map_snd_ok action
      exact ⟨io, rfl, (hmStepMotorStartRun_ok result).clear (goes_ahead_iff.mp starts).1 running⟩
  | startFreeRun io accel speed =>
      obtain ⟨answer, result⟩ := map_snd_ok action
      exact ⟨io, rfl, (hmStepMotorStartRun_ok result).clear (goes_ahead_iff.mp starts).1 running⟩
  | startRun io accel speed =>
      obtain ⟨answer, result⟩ := map_snd_ok action
      exact ⟨io, rfl, (hmStepMotorStartRun_ok result).clear (goes_ahead_iff.mp starts).1 running⟩
  | _ => cases starts

theorem Tuned.away (tuned : psrd.Tuned t) (away : psrd.Away dir) : t.Away dir := by
  rintro ⟨running, rfl⟩
  rw [tuned.running] at running
  obtain ⟨_, _, _, _, _, _, rfl, keep⟩ := tuned
  have moving : psrd.axisState ≠ .asStoped := fun stopped =>
    not_running_of_stopped stopped running
  exact away ⟨running, (keep moving).symm⟩

theorem Away.step (away : psrd.Away dir) (held : ∀ io, e.pins = some io → hmMotorHit io dir)
    (regular : psrd.Regular) (action : psrd.exec e = .ok t) : t.Away dir := by
  have effect := exec_effect action
  cases effect with
  | pulse =>
      obtain ⟨tim, motor, pdma, same, -⟩ := psrd.burst_frame
      rw [same]
      exact away
  | refill fill =>
      obtain ⟨r, taken, n, buf, rfl⟩ := (hmDmaFillNextBuf_ok regular.whole fill).frame
      exact away
  | complete check =>
      rw [hmDmaCk_eq] at check
      split at check
      · split at check
        · cases check
        · obtain rfl := Except.ok.inj check
          exact away
      · obtain rfl := Except.ok.inj check
        exact fun into => not_running_of_stopped rfl into.1
  | launch starts =>
      rintro ⟨running, rfl⟩
      obtain ⟨io, pins, clear⟩ := starts_clear starts action running
      rw [held io pins] at clear
      cases clear
  | @smooth _ s₀ accepted tuned =>
      have kept := tuned.away away
      obtain ⟨_, _, _, _, _, _, _, same⟩ := s₀.stopSmooth_frame
      rw [same]
      exact kept
  | sudden => exact fun into => not_running_of_stopped rfl into.1
  | place => exact away
  | tune _ _ tuned => exact tuned.away away

theorem hmMotorLimitLogicalCheck_away (regular : psrd.Regular) (hit : hmMotorHit io dir)
    (sudden : psrd.motorHwConfig.bStopImmediatelyCW ≠ 0) :
    (psrd.hmMotorLimitLogicalCheck io).Away dir := by
  by_cases into : psrd.running ∧ psrd.dir = dir
  · obtain ⟨running, rfl⟩ := into
    have found : ∃ limit, psrd.CheckFinds io limit := by
      cases way : psrd.dir with
      | rdCW =>
          rw [way] at hit
          exact ⟨.cw, running, way, hit⟩
      | rdCCW =>
          rw [way] at hit
          exact ⟨.ccw, running, way, hit⟩
    obtain ⟨limit, found⟩ := found
    have mode : (psrd.markLastHitHome io).stopMode .cw ≠ 0 := by
      rw [markLastHitHome_stopMode]
      exact sudden
    rw [hmMotorLimitLogicalCheck_stops found,
      (limitStop_eq_sudden_iff (by rw [markLastHitHome_running]; exact running)).mpr mode]
    exact fun into => not_running_of_stopped rfl into.1
  · have away : psrd.Away dir := into
    exact away.step (e := .limitCheck io) (fun _ pins => Option.some.inj pins ▸ hit) regular rfl

theorem Away.shaft (away : psrd.Away dir) (coupled : psrd.Coupled) (action : psrd.exec e = .ok t) :
    (if dir = .rdCW then (1 : Int) else -1) * t.motor.shaft ≤
      (if dir = .rdCW then 1 else -1) * psrd.motor.shaft := by
  obtain ⟨-, shaft⟩ := (exec_effect action).consumed coupled.regular
  rw [coupled.shaft_heading] at shaft
  rw [shaft]
  by_cases consumes : psrd.consumes e
  · have running := coupled.running_of_consumes consumes
    have other : psrd.dir ≠ dir := fun same => away ⟨running, same⟩
    rw [if_pos consumes]
    unfold heading
    cases dir with
    | rdCW =>
        rw [if_pos rfl, if_neg other]
        omega
    | rdCCW =>
        have cw : psrd.dir = .rdCW := by
          cases way : psrd.dir with
          | rdCW => rfl
          | rdCCW => exact absurd way other
        rw [if_neg (by decide), if_pos cw]
        omega
  · rw [if_neg consumes, Int.add_zero]

theorem Away.undriven (away : psrd.Away dir) (coupled : psrd.Coupled) : ¬ psrd.Drives dir := by
  rintro ⟨playing, pin⟩
  have running := coupled.running_of_playing playing
  rw [coupled.dirPin running, decide_eq_decide] at pin
  refine away ⟨running, ?_⟩
  cases way : psrd.dir with
  | rdCW => exact (pin.mp way).symm
  | rdCCW =>
      cases dir with
      | rdCW => exact absurd (pin.mpr rfl) (by rw [way]; decide)
      | rdCCW => rfl

end Away

end StepInfo

structure Watch where
  timers : Timers TimerFunc Unit
  board : Board

inductive WatchEvent
  | tick (io : Fin hmMaxAxis → Pins)
  | axis (idx : Fin hmMaxAxis) (e : Event)

def WatchEvent.isTick : WatchEvent → Bool
  | .tick _ => true
  | .axis .. => false

def TimerFunc.call (func : TimerFunc) (io : Fin hmMaxAxis → Pins) (board : Board) : Board :=
  if func = .hmMotorLimitLogicalCheck then board.hmMotorLimitLogicalCheck io else board

namespace Watch

/-- The callbacks that the tick calls. Those that it passes to the message queue leave the axes as
they are. -/
def expire (board : Board) (io : Fin hmMaxAxis → Pins) :
    Option (Expiry TimerFunc Unit) → Board
  | some expiry => if expiry.direct then expiry.func.call io board else board
  | none => board

def exec (watch : Watch) : WatchEvent → Except Halt Watch
  | .tick io =>
      .ok ⟨watch.timers.sysTickHandler.1, expire watch.board io watch.timers.sysTickHandler.2⟩
  | .axis idx e =>
      (watch.board[idx].exec e).map fun psrd => { watch with board := watch.board.put idx psrd }

abbrev WatchStep : Watch → WatchEvent → Watch → Prop := Fires exec

/-- The switch in direction `dir` of axis `idx` is hit whenever it is read, and the axis is set to
stop at once at a switch. -/
def Held (idx : Fin hmMaxAxis) (dir : RunDir) (watch : Watch) : WatchEvent → Prop
  | .tick io => hmMotorHit (io idx) dir ∧
      watch.board[idx].motorHwConfig.bStopImmediatelyCW ≠ 0
  | .axis other e => other = idx → e.pins.all fun io => hmMotorHit io dir

instance (idx : Fin hmMaxAxis) (dir : RunDir) (watch : Watch) (e : WatchEvent) :
    Decidable (Held idx dir watch e) :=
  match e with
  | .tick _ => inferInstanceAs (Decidable (_ ∧ _))
  | .axis _ _ => inferInstanceAs (Decidable (_ → _))

abbrev HeldStep (idx : Fin hmMaxAxis) (dir : RunDir) : Watch → WatchEvent → Watch → Prop :=
  Guarded (Held idx dir) WatchStep

def Prompt (idx : Fin hmMaxAxis) (watch : Watch) : WatchEvent → Prop
  | .tick io => watch.board[idx].Quiet (.limitCheck (io idx))
  | .axis other e => other = idx → watch.board[idx].Quiet e ∧ watch.board[idx].Raised e

instance (idx : Fin hmMaxAxis) (watch : Watch) (e : WatchEvent) : Decidable (Prompt idx watch e) :=
  match e with
  | .tick io => inferInstanceAs (Decidable (watch.board[idx].Quiet (.limitCheck (io idx))))
  | .axis _ _ => inferInstanceAs (Decidable (_ → _))

abbrev PromptStep (idx : Fin hmMaxAxis) : Watch → WatchEvent → Watch → Prop :=
  Guarded (Prompt idx) WatchStep

section Watch
variable {watch watch' : Watch} {idx : Fin hmMaxAxis} {dir : RunDir} {e : WatchEvent}
  {es before : List WatchEvent}

theorem expire_get (board : Board) (io : Fin hmMaxAxis → Pins)
    (expiry : Option (Expiry TimerFunc Unit)) : (expire board io expiry)[idx] = board[idx] ∨
      (expire board io expiry)[idx] = board[idx].hmMotorLimitLogicalCheck (io idx) := by
  cases expiry with
  | none => exact .inl rfl
  | some expiry =>
      unfold expire TimerFunc.call
      dsimp only
      by_cases direct : expiry.direct
      · rw [if_pos direct]
        by_cases check : expiry.func = .hmMotorLimitLogicalCheck
        · rw [if_pos check]
          exact .inr Board.hmMotorLimitLogicalCheck_get
        · rw [if_neg check]
          exact .inl rfl
      · rw [if_neg direct]
        exact .inl rfl

theorem exec_axis (action : WatchStep watch e watch') :
    watch'.board[idx] = watch.board[idx] ∨
      ∃ e', watch.board[idx].exec e' = .ok watch'.board[idx] ∧
        (e = .axis idx e' ∨ ∃ io, e = .tick io ∧ e' = .limitCheck (io idx)) := by
  cases e with
  | tick io =>
      obtain rfl := Except.ok.inj action
      rcases expire_get watch.board io watch.timers.sysTickHandler.2 with same | check
      · exact .inl same
      · exact .inr ⟨.limitCheck (io idx), congrArg Except.ok check.symm, .inr ⟨io, rfl, rfl⟩⟩
  | axis other e' =>
      obtain ⟨psrd, result, rfl⟩ := Except.ok_of_map action
      have get := Vector.getElem_put watch.board other idx psrd
      by_cases same : other = idx
      · subst same
        rw [if_pos rfl] at get
        exact .inr ⟨e', result.trans (congrArg Except.ok get.symm), .inl rfl⟩
      · rw [if_neg same] at get
        exact .inl get

theorem exec_timers (action : WatchStep watch e watch') :
    watch'.timers = if e.isTick then watch.timers.sysTickHandler.1 else watch.timers := by
  cases e with
  | tick io =>
      obtain rfl := Except.ok.inj action
      rfl
  | axis other e' =>
      obtain ⟨psrd, result, rfl⟩ := Except.ok_of_map action
      rfl

theorem exec_regular (action : WatchStep watch e watch') (regular : watch.board[idx].Regular) :
    watch'.board[idx].Regular := by
  rcases exec_axis action with same | ⟨e', step, -⟩
  · rw [same]
    exact regular
  · exact regular.step step

theorem Held.pins (held : Held idx dir watch e) {e' : Event}
    (event : e = .axis idx e' ∨ ∃ io, e = .tick io ∧ e' = .limitCheck (io idx)) :
    ∀ io, e'.pins = some io → hmMotorHit io dir := by
  intro io' pins
  rcases event with rfl | ⟨io, rfl, rfl⟩
  · have all : e'.pins.all fun io => hmMotorHit io dir := held rfl
    rw [pins] at all
    exact all
  · obtain rfl := Option.some.inj pins
    exact held.1

theorem exec_away (action : WatchStep watch e watch') (regular : watch.board[idx].Regular)
    (held : Held idx dir watch e) (away : watch.board[idx].Away dir) :
    watch'.board[idx].Away dir := by
  rcases exec_axis action with same | ⟨e', step, event⟩
  · rw [same]
    exact away
  · exact away.step (held.pins event) regular step

theorem tick_checks {io : Fin hmMaxAxis → Pins} (action : WatchStep watch (.tick io) watch')
    (holds : watch.timers.Holds Timers.mainUsed)
    (due : Timers.expires watch.timers.sysTickHandler.2 2) :
    watch'.board[idx] = watch.board[idx].hmMotorLimitLogicalCheck (io idx) := by
  obtain ⟨expiry, expires, third⟩ := (Option.any_eq_true _ _).mp due
  obtain ⟨check, direct⟩ := Timers.main_expiry holds expires (of_decide_eq_true third)
  obtain rfl := Except.ok.inj action
  have called : expire watch.board io watch.timers.sysTickHandler.2 =
      watch.board.hmMotorLimitLogicalCheck io := by
    rw [expires]
    unfold expire TimerFunc.call
    dsimp only
    rw [direct, check]
    rfl
  change (expire watch.board io watch.timers.sysTickHandler.2)[idx] = _
  rw [called]
  exact Board.hmMotorLimitLogicalCheck_get

/-- Since the timers were `timers`, `n` ticks came, and at the first limit check among them the
axis turned away from the switch. -/
structure Turned (start : Timers TimerFunc Unit) (idx : Fin hmMaxAxis) (dir : RunDir)
    (watch : Watch) (n : Nat) : Prop where
  timers : watch.timers = (start.ticks n).1
  regular : watch.board[idx].Regular
  away : 1 ≤ Timers.expired (start.ticks n).2 2 → watch.board[idx].Away dir

theorem Turned.step {timers : Timers TimerFunc Unit} {n : Nat}
    (turned : Turned timers idx dir watch n) (holds : timers.Holds Timers.mainUsed)
    (action : HeldStep idx dir watch e watch') :
    Turned timers idx dir watch' (n + if e.isTick then 1 else 0) := by
  obtain ⟨held, action⟩ := action
  have kept := exec_timers action
  have regular := exec_regular action turned.regular
  have away := exec_away action turned.regular held
  rw [turned.timers] at kept
  cases e with
  | axis other e' => exact ⟨kept, regular, fun due => away (turned.away due)⟩
  | tick io =>
      refine ⟨kept, regular, fun due => ?_⟩
      change 1 ≤ Timers.expired ((timers.ticks n).2 ++
        Option.toList (timers.ticks n).1.sysTickHandler.2) 2 at due
      rw [Timers.expired_append_expires] at due
      by_cases before : 1 ≤ Timers.expired (timers.ticks n).2 2
      · exact away (turned.away before)
      · have now : Timers.expires (timers.ticks n).1.sysTickHandler.2 2 := by
          by_contra none_
          rw [if_neg none_] at due
          exact before due
        rw [← turned.timers] at now
        rw [tick_checks action (turned.timers ▸ holds.ticks n) now]
        exact StepInfo.hmMotorLimitLogicalCheck_away turned.regular held.1 held.2

theorem Turned.run {timers : Timers TimerFunc Unit} {n : Nat}
    (turned : Turned timers idx dir watch n) (holds : timers.Holds Timers.mainUsed)
    (run : Run (HeldStep idx dir) watch es watch') :
    Turned timers idx dir watch' (n + es.countP WatchEvent.isTick) := by
  induction run generalizing n with
  | nil => exact turned
  | @cons s m u e es action _ ih =>
      have after := ih (turned.step holds action)
      rw [List.countP_cons, Nat.add_comm (es.countP _), ← Nat.add_assoc]
      exact after

theorem expired_mono (timers : Timers TimerFunc Unit) {m n slot : Nat} (le : m ≤ n) :
    Timers.expired (timers.ticks m).2 slot ≤ Timers.expired (timers.ticks n).2 slot := by
  induction n, le using Nat.le_induction with
  | base => exact Nat.le_refl _
  | succ n _ ih =>
      change _ ≤ Timers.expired ((timers.ticks n).2 ++ Option.toList _) slot
      rw [Timers.expired_append_expires]
      exact Nat.le_trans ih (Nat.le_add_right _ _)

theorem reachable_holds {memory : Timers TimerFunc Unit}
    (size : memory.sTimers.length = hmMaxTimer) {retries : Option Nat} {ticks : Nat × Nat × Nat}
    (reached : Run WatchStep ⟨memory.main retries ticks, Board.hmStepMotorInit⟩ before watch) :
    watch.timers.Holds Timers.mainUsed ∧ ∀ idx : Fin hmMaxAxis, watch.board[idx].Regular := by
  refine reached.invariant (fun watch => watch.timers.Holds Timers.mainUsed ∧
    ∀ idx : Fin hmMaxAxis, watch.board[idx].Regular) ⟨Timers.main_holds size retries ticks, ?_⟩ ?_
  · intro idx
    have get : Board.hmStepMotorInit[idx] = MotionBoard.hmStepMotorInit idx :=
      Vector.getElem_ofFn idx.isLt
    rw [get]
    exact StepInfo.regular_init idx
  · rintro watch e watch' ⟨holds, regular⟩ action
    refine ⟨?_, fun idx => exec_regular action (regular idx)⟩
    rw [exec_timers action]
    split
    · exact holds.ticks 1
    · exact holds

theorem held_away (holds : watch.timers.Holds Timers.mainUsed)
    (regular : watch.board[idx].Regular) (run : Run (HeldStep idx dir) watch es watch')
    (long : 102 ≤ es.countP WatchEvent.isTick) : watch'.board[idx].Away dir := by
  have turned : Turned watch.timers idx dir watch 0 := ⟨rfl, regular, by
    intro none_
    cases none_⟩
  have after := turned.run holds run
  rw [Nat.zero_add] at after
  exact after.away (Nat.le_trans (Timers.main_checks holds) (expired_mono watch.timers long))

abbrev PromptHeldStep (idx : Fin hmMaxAxis) (dir : RunDir) : Watch → WatchEvent → Watch → Prop :=
  Guarded (Held idx dir) (PromptStep idx)

theorem exec_coupled (action : PromptStep idx watch e watch')
    (coupled : watch.board[idx].Coupled) : watch'.board[idx].Coupled := by
  obtain ⟨prompt, action⟩ := action
  rcases exec_axis action with same | ⟨e', step, event⟩
  · rw [same]
    exact coupled
  · have quiet : StepInfo.QuietStep watch.board[idx] e' watch'.board[idx] := by
      rcases event with rfl | ⟨io, rfl, rfl⟩
      · obtain ⟨quiet, raised⟩ := prompt rfl
        exact ⟨quiet, raised, step⟩
      · exact ⟨prompt, trivial, step⟩
    exact coupled.step quiet

theorem reachable_axis_coupled {timers : Timers TimerFunc Unit}
    (reached : Run (PromptStep idx) ⟨timers, Board.hmStepMotorInit⟩ before watch) :
    watch.board[idx].Coupled := by
  refine reached.invariant (fun watch => watch.board[idx].Coupled) ?_
    fun _ _ _ coupled action => exec_coupled action coupled
  have get : Board.hmStepMotorInit[idx] = MotionBoard.hmStepMotorInit idx :=
    Vector.getElem_ofFn idx.isLt
  rw [get]
  exact StepInfo.coupled_init idx

/-- However the events of the axes, the commands and the ticks come, once a switch is hit and stays
so it takes at most 102 ticks until its axis no longer runs into it and its motor is not driven
there, and it does not set out for it again, while the axis is set to stop at once and no interrupt
waits when it is stopped. -/
theorem limit_reaction {memory : Timers TimerFunc Unit}
    (size : memory.sTimers.length = hmMaxTimer) {retries : Option Nat} {ticks : Nat × Nat × Nat}
    (reached : Run (PromptStep idx) ⟨memory.main retries ticks, Board.hmStepMotorInit⟩ before watch)
    (run : Run (PromptHeldStep idx dir) watch es watch')
    (long : 102 ≤ es.countP WatchEvent.isTick) :
    watch'.board[idx].Away dir ∧ ¬ watch'.board[idx].Drives dir := by
  have coupled := reachable_axis_coupled (reached.append (run.mono fun _ _ _ action => action.2))
  obtain ⟨holds, regular⟩ := reachable_holds size (reached.mono fun _ _ _ action => action.2)
  have away := held_away holds (regular idx)
    (run.mono fun _ _ _ action => ⟨action.1, action.2.2⟩) long
  exact ⟨away, away.undriven coupled⟩

structure Retreats (idx : Fin hmMaxAxis) (dir : RunDir) (from_ : Int) (watch : Watch) : Prop where
  coupled : watch.board[idx].Coupled
  away : watch.board[idx].Away dir
  shaft : (if dir = .rdCW then 1 else -1) * watch.board[idx].motor.shaft ≤
    (if dir = .rdCW then 1 else -1) * from_

theorem Retreats.step {from_ : Int} (retreats : Retreats idx dir from_ watch)
    (action : PromptHeldStep idx dir watch e watch') : Retreats idx dir from_ watch' := by
  obtain ⟨held, action⟩ := action
  have coupled := exec_coupled action retreats.coupled
  have away := exec_away action.2 retreats.coupled.regular held retreats.away
  refine ⟨coupled, away, ?_⟩
  rcases exec_axis action.2 with same | ⟨e', step, -⟩
  · rw [same]
    exact retreats.shaft
  · exact Int.le_trans (retreats.away.shaft retreats.coupled step) retreats.shaft

/-- Once 102 ticks have come with a switch hit, the motor does not turn any further into it for as
long as it is hit. -/
theorem limit_shaft {memory : Timers TimerFunc Unit} {watch'' : Watch} {es' : List WatchEvent}
    (size : memory.sTimers.length = hmMaxTimer) {retries : Option Nat} {ticks : Nat × Nat × Nat}
    (reached : Run (PromptStep idx) ⟨memory.main retries ticks, Board.hmStepMotorInit⟩ before watch)
    (run : Run (PromptHeldStep idx dir) watch es watch')
    (long : 102 ≤ es.countP WatchEvent.isTick)
    (rest : Run (PromptHeldStep idx dir) watch' es' watch'') :
    (if dir = .rdCW then 1 else -1) * watch''.board[idx].motor.shaft ≤
      (if dir = .rdCW then 1 else -1) * watch'.board[idx].motor.shaft := by
  have begun := reachable_axis_coupled reached
  have coupled : watch'.board[idx].Coupled := run.invariant (fun watch => watch.board[idx].Coupled)
    begun fun _ _ _ coupled action => exec_coupled action.2 coupled
  have holds := (reachable_holds size (reached.mono fun _ _ _ action => action.2)).1
  have away := held_away holds begun.regular
    (run.mono fun _ _ _ action => ⟨action.1, action.2.2⟩) long
  have retreats := rest.invariant (Retreats idx dir watch'.board[idx].motor.shaft)
    ⟨coupled, away, Int.le_refl _⟩ fun _ _ _ retreats action => retreats.step action
  exact retreats.shaft

def hitCW : Pins := { Pins.clear with cw := (true, true) }

def blankTimers : Timers TimerFunc Unit :=
  ⟨List.replicate hmMaxTimer ⟨none, (), 0, 0, false, false⟩, 0⟩

def playPrompt : Watch → WatchEvent → Option Watch := playGuarded (Prompt 0) (playFires exec)

theorem computes_prompt : Computes playPrompt (PromptStep 0) := computes_fires.guarded (Prompt 0)

theorem limit_reaction_free_run : ∃ watch watch',
    Run (PromptStep 0) ⟨blankTimers.main none (0, 0, 0), Board.hmStepMotorInit⟩
      [.axis 0 (.startFreeRun .clear 1000 1000)] watch ∧
    watch.board[(0 : Fin hmMaxAxis)].Drives .rdCW ∧
    Run (PromptHeldStep 0 .rdCW) watch (List.replicate 102 (.tick fun _ => hitCW)) watch' ∧
    ¬ watch'.board[(0 : Fin hmMaxAxis)].Drives .rdCW := by
  obtain ⟨watch, start, test⟩ := computes_prompt.run_any
    (show ([WatchEvent.axis 0 (.startFreeRun .clear 1000 1000)].foldlM playPrompt
      ⟨blankTimers.main none (0, 0, 0), Board.hmStepMotorInit⟩).any fun watch : Watch =>
        decide (watch.board[(0 : Fin hmMaxAxis)].playing ∧
          watch.board[(0 : Fin hmMaxAxis)].motor.dirPin) &&
        ((List.replicate 102 (WatchEvent.tick fun _ => hitCW)).foldlM
          (playGuarded (Held 0 .rdCW) playPrompt) watch).isSome by
      decide +kernel)
  obtain ⟨going, played⟩ := Bool.and_eq_true_iff.mp test
  obtain ⟨playing, pin⟩ := of_decide_eq_true going
  obtain ⟨watch', run⟩ := (computes_prompt.guarded (Held 0 .rdCW)).run watch _ played
  obtain ⟨-, undriven⟩ :=
    limit_reaction (by decide) start run (by rw [List.countP_replicate]; exact Nat.le_refl 102)
  exact ⟨watch, watch', start, ⟨playing, pin⟩, run, undriven⟩

theorem limit_shaft_back : ∃ watch watch' watch'',
    Run (PromptStep 0) ⟨blankTimers.main none (0, 0, 0), Board.hmStepMotorInit⟩
      [.axis 0 (.startFreeRun .clear 1000 1000), .axis 0 .burst] watch ∧
    Run (PromptHeldStep 0 .rdCW) watch (List.replicate 102 (.tick fun _ => hitCW)) watch' ∧
    Run (PromptHeldStep 0 .rdCW) watch' [.axis 0 (.startFreeRun hitCW 1000 (-1000)),
      .axis 0 .burst, .axis 0 .burst] watch'' ∧
    watch''.board[(0 : Fin hmMaxAxis)].motor.shaft ≤
      watch'.board[(0 : Fin hmMaxAxis)].motor.shaft := by
  obtain ⟨watch, start, test⟩ := computes_prompt.run_any
    (show ([WatchEvent.axis 0 (.startFreeRun .clear 1000 1000), .axis 0 .burst].foldlM playPrompt
      ⟨blankTimers.main none (0, 0, 0), Board.hmStepMotorInit⟩).any fun watch : Watch =>
        ((List.replicate 102 (WatchEvent.tick fun _ => hitCW)).foldlM
          (playGuarded (Held 0 .rdCW) playPrompt) watch).any fun watch' : Watch =>
        ([WatchEvent.axis 0 (.startFreeRun hitCW 1000 (-1000)), .axis 0 .burst,
          .axis 0 .burst].foldlM (playGuarded (Held 0 .rdCW) playPrompt) watch').isSome by
      decide +kernel)
  have sound := computes_prompt.guarded (Held 0 .rdCW)
  obtain ⟨watch', run, played⟩ := sound.run_any test
  obtain ⟨watch'', rest⟩ := sound.run _ _ played
  have shaft := limit_shaft (by decide) start run (by rw [List.countP_replicate]; exact Nat.le_refl 102)
    rest
  rw [if_pos rfl, Int.one_mul, Int.one_mul] at shaft
  exact ⟨watch, watch', watch'', start, run, rest, shaft⟩

end Watch

end Watch

end MotionBoard
