import MotionBoard.StepMotor.Home

namespace MotionBoard
open Transition

def Event.Undisturbed : Event → Prop
  | .burst | .halfTransfer | .transferComplete => True
  | .limitCheck io => hmMotorHitCW io = false ∧ hmMotorHitCCW io = false
  | _ => False

def samples (es : List Event) : List Bool :=
  es.filterMap fun e =>
    match e with
    | .limitCheck io => some (hmMotorHitHome io)
    | _ => none

def edges (last : Bool) (hits : List Bool) : List Bool :=
  List.zipWith (fun before hit => hit && !before) (last :: hits) hits

/-- The samples that stop a homing, by level or by edge. -/
def triggers (blowtriger : UInt32) (last : Bool) (hits : List Bool) : List Bool :=
  if blowtriger ≠ 0 then hits else edges last hits

namespace StepInfo

def noteCheck (psrd : StepInfo) (e : Event) (requests : List Bool) : List Bool :=
  match e with
  | .limitCheck io => requests ++ [psrd.limitStops (.limitCheck io)]
  | _ => requests

/-- The axis stands after a stop, or it has begun the hundred steps of its last ramp. -/
def Stops (psrd t : StepInfo) : Prop :=
  if psrd.motorHwConfig.bStopImmediatelyCW ≠ 0 then
    t.axisState = .asStoped ∧ t.ptim.enabled = false ∧ t.pdma.enabled = false
  else
    t.axisState = .asRuning ∧ t.bstopping = true ∧ t.runState = .rsDecel ∧ t.accelCount = -100 ∧
      t.stepsRequest = 100 ∧ t.stepsTaken = 0 ∧ t.stepsActual = 0

structure Homing (psrd : StepInfo) (blowtriger : UInt32) (last : Bool) : Prop where
  running : psrd.axisState = .asRuning
  going : psrd.bstopping = false
  home : psrd.bdoHome = true
  lowTriger : psrd.bhomeStopLowTriger = blowtriger
  endless : psrd.stepsRequest = hmInvalidStep
  lastHit : psrd.motorHwConfig.blastHitHome = last
  whole : psrd.Whole

section Homing
variable {psrd s t : StepInfo} {e : Event} {blowtriger : UInt32} {last : Bool} {io : Pins}

theorem limitStops_check : psrd.limitStops (.limitCheck io) =
    (psrd.running && (psrd.hitTravelLimit io || psrd.hitHomeTrigger io)) := rfl

theorem Homing.dma (homing : psrd.Homing blowtriger last) (dma : e.dma)
    (action : Step psrd e t) : t.Homing blowtriger last := by
  cases e with
  | burst =>
      obtain rfl := Except.ok.inj action
      obtain ⟨tim, motor, pdma, same, -⟩ := psrd.burst_frame
      rw [same]
      exact { homing with }
  | halfTransfer =>
      obtain ⟨u, fill, rfl⟩ := Except.ok_of_map action
      have filled := hmDmaFillNextBuf_ok homing.whole fill
      have whole := filled.whole
      obtain ⟨_, _, _, _, rfl⟩ := filled.frame
      exact { homing with whole := whole }
  | transferComplete =>
      obtain ⟨u, check, rfl⟩ := Except.ok_of_map action
      have more : psrd.completeBuf.stepsActual < psrd.completeBuf.stepsRequest ∨
          psrd.completeBuf.stepsRequest = hmInvalidStep := .inr homing.endless
      rw [hmDmaCk_eq, if_pos more] at check
      split at check
      · cases check
      · obtain rfl := Except.ok.inj check
        exact { homing with whole := homing.whole.completed }
  | _ => cases dma

theorem Homing.limitStops (homing : psrd.Homing blowtriger last)
    (undisturbed : Event.Undisturbed (.limitCheck io)) :
    psrd.limitStops (.limitCheck io) =
      if blowtriger ≠ 0 then hmMotorHitHome io else hmMotorHitHome io && !last := by
  rw [limitStops_check]
  unfold hitTravelLimit hitHomeTrigger StepInfo.running
  rw [homing.running, homing.home, homing.lowTriger, homing.lastHit, undisturbed.1, undisturbed.2]
  by_cases level : blowtriger = 0
  · simp [level]
  · simp [level]

theorem Homing.check (homing : psrd.Homing blowtriger last)
    (goes : psrd.limitStops (.limitCheck io) = false) (action : Step psrd (.limitCheck io) t) :
    t.Homing blowtriger (hmMotorHitHome io) := by
  have running : psrd.running = true := decide_eq_true homing.running
  obtain rfl := Except.ok.inj action
  rw [limitStops_check, running, Bool.true_and] at goes
  unfold hmMotorLimitLogicalCheck markLastHitHome
  simp only [running, goes, homing.home, Bool.not_true, Bool.false_eq_true, if_false, if_true]
  exact ⟨homing.running, homing.going, rfl, homing.lowTriger, homing.endless, rfl, homing.whole⟩

theorem Homing.stops (homing : psrd.Homing blowtriger last)
    (stops : psrd.limitStops (.limitCheck io)) (action : Step psrd (.limitCheck io) t) :
    psrd.Stops t := by
  have running : psrd.running = true := decide_eq_true homing.running
  obtain rfl := Except.ok.inj action
  rw [limitStops_check, running, Bool.true_and] at stops
  have check : psrd.hmMotorLimitLogicalCheck io = (psrd.markLastHitHome io).limitStop := by
    unfold hmMotorLimitLogicalCheck
    simp only [running, stops, Bool.not_true, Bool.false_eq_true, if_false, if_true]
  have marked : psrd.markLastHitHome io =
      { psrd with motorHwConfig.blastHitHome := hmMotorHitHome io } := if_pos homing.home
  rw [check, marked]
  unfold Stops limitStop
  by_cases sudden : psrd.motorHwConfig.bStopImmediatelyCW ≠ 0
  · rw [if_pos sudden, if_pos (by exact sudden)]
    exact ⟨rfl, rfl, rfl⟩
  · rw [if_neg sudden, if_neg (by exact sudden), stopSmooth_accepted _ (by exact homing.going)]
    · exact ⟨homing.running, rfl, rfl, rfl, rfl, rfl, rfl⟩
    · rw [homing.running]
      decide

theorem triggers_cons (hit : Bool) (hits : List Bool) :
    triggers blowtriger last (hit :: hits) =
      (if blowtriger ≠ 0 then hit else hit && !last) :: triggers blowtriger hit hits := by
  unfold triggers
  split <;> rfl

theorem noteCheck_grows (psrd : StepInfo) (e : Event) (requests : List Bool) :
    ∃ more, psrd.noteCheck e requests = requests ++ more := by
  cases e with
  | limitCheck io => exact ⟨[psrd.limitStops (.limitCheck io)], rfl⟩
  | _ => exact ⟨[], requests.append_nil.symm⟩

theorem requests_grow {es : List Event} {requests : List Bool} {after : StepInfo × List Bool}
    (run : Run (Watched Step noteCheck) (psrd, requests) es after) :
    ∃ more, after.2 = requests ++ more := by
  refine run.invariant (fun now => ∃ more, now.2 = requests ++ more)
    ⟨[], requests.append_nil.symm⟩ fun now e next grown action => ?_
  obtain ⟨more, same⟩ := grown
  obtain ⟨further, grows⟩ := now.1.noteCheck_grows e now.2
  exact ⟨more ++ further, by rw [action.2, grows, same, List.append_assoc]⟩

theorem Homing.first_request (homing : psrd.Homing blowtriger last) {es : List Event}
    (undisturbed : ∀ e ∈ es, e.Undisturbed) {requests : List Bool}
    {after : StepInfo × List Bool}
    (run : Run (Watched Step noteCheck) (psrd, requests) es after) :
    ∃ more, after.2 = requests ++ more ∧
      more.findIdx? id = (triggers blowtriger last (samples es)).findIdx? id := by
  induction es generalizing psrd last requests with
  | nil =>
      cases run with
      | nil =>
          refine ⟨[], requests.append_nil.symm, ?_⟩
          unfold triggers
          split <;> rfl
  | cons e es ih =>
      obtain ⟨first, others⟩ := List.forall_mem_cons.mp undisturbed
      cases run with
      | @cons _ next _ _ _ move rest =>
          obtain ⟨t, noted⟩ := next
          obtain ⟨action, note⟩ := move
          cases e with
          | limitCheck io =>
              obtain rfl : noted = requests ++ [psrd.limitStops (.limitCheck io)] := note
              -- the request of this check is the head of the triggers
              have found : triggers blowtriger last (samples (.limitCheck io :: es)) =
                  psrd.limitStops (.limitCheck io) ::
                    triggers blowtriger (hmMotorHitHome io) (samples es) := by
                rw [homing.limitStops first]
                exact triggers_cons _ _
              rw [found]
              cases stops : psrd.limitStops (.limitCheck io) with
              | true =>
                  obtain ⟨more, grown⟩ := requests_grow rest
                  exact ⟨true :: more, by simp [grown, stops], rfl⟩
              | false =>
                  obtain ⟨more, grown, same⟩ := ih (homing.check stops action) others rest
                  refine ⟨false :: more, by simp [grown, stops], ?_⟩
                  simp only [List.findIdx?_cons, id_eq, same]
          | burst | halfTransfer | transferComplete =>
              obtain rfl : noted = requests := note
              exact ih (homing.dma rfl action) others rest
          | _ => cases first

theorem Homing.goes (homing : psrd.Homing blowtriger last) {es : List Event}
    (undisturbed : ∀ e ∈ es, e.Undisturbed)
    (none_ : (triggers blowtriger last (samples es)).findIdx? id = none) (run : Run Step psrd es t) :
    ∃ last', t.Homing blowtriger last' := by
  induction run generalizing last with
  | nil => exact ⟨last, homing⟩
  | @cons psrd t last_ e es action _ ih =>
      obtain ⟨first, others⟩ := List.forall_mem_cons.mp undisturbed
      cases e with
      | limitCheck io =>
          have found : triggers blowtriger last (samples (.limitCheck io :: es)) =
              psrd.limitStops (.limitCheck io) ::
                triggers blowtriger (hmMotorHitHome io) (samples es) := by
            rw [homing.limitStops first]
            exact triggers_cons _ _
          rw [found, List.findIdx?_cons] at none_
          cases stops : psrd.limitStops (.limitCheck io) with
          | true => simp [stops] at none_
          | false => exact ih (homing.check stops action) others (by simpa [stops] using none_)
      | burst | halfTransfer | transferComplete =>
          exact ih (homing.dma rfl action) others none_
      | _ => cases first

theorem Homing.request (homing : psrd.Homing blowtriger last) {before : List Event}
    {hits : List Bool} (undisturbed : ∀ e ∈ before, e.Undisturbed)
    (now : Event.Undisturbed (.limitCheck io)) (run : Run Step psrd before t)
    (first : (triggers blowtriger last (samples before ++ hmMotorHitHome io :: hits)).findIdx? id =
      some (samples before).length) :
    (∃ last', t.Homing blowtriger last') ∧ t.limitStops (.limitCheck io) := by
  induction run generalizing last with
  | nil =>
      refine ⟨⟨last, homing⟩, ?_⟩
      have found : triggers blowtriger last (samples [] ++ hmMotorHitHome io :: hits) = _ :=
        triggers_cons (hmMotorHitHome io) hits
      rw [found, ← homing.limitStops now, List.findIdx?_cons] at first
      by_contra goes
      simp [goes, samples] at first
  | @cons psrd t last_ e es action _ ih =>
      obtain ⟨early, others⟩ := List.forall_mem_cons.mp undisturbed
      cases e with
      | limitCheck io' =>
          have found : triggers blowtriger last
              (samples (.limitCheck io' :: es) ++ hmMotorHitHome io :: hits) =
              psrd.limitStops (.limitCheck io') ::
                triggers blowtriger (hmMotorHitHome io') (samples es ++ hmMotorHitHome io :: hits) := by
            rw [homing.limitStops early]
            exact triggers_cons _ _
          have longer : (samples (.limitCheck io' :: es)).length = (samples es).length + 1 := rfl
          rw [found, longer, List.findIdx?_cons] at first
          cases stops : psrd.limitStops (.limitCheck io') with
          | true => simp [stops] at first
          | false => exact ih (homing.check stops action) others (by simpa [stops] using first)
      | burst | halfTransfer | transferComplete =>
          exact ih (homing.dma rfl action) others first
      | _ => cases early

theorem resetRun_lastHit (speed : Int32) (home : psrd.bdoHome = true) :
    (psrd.resetRun io speed).motorHwConfig.blastHitHome = hmMotorHitHome io := by
  obtain ⟨enaPin, benabled, enable⟩ := hmMotorEnableAxis_frame
    ((psrd.hmMarkAxisState .asPreparing).markLastHitHome io) true
  unfold resetRun
  dsimp only
  rw [enable]
  unfold markLastHitHome
  rw [if_pos (by exact home)]
  rfl

theorem startHoming_homing {accel : UInt32} {speed : Int32}
    (starts : psrd.starts (.startHoming io accel speed))
    (action : Step psrd (.startHoming io accel speed) t) :
    t.Homing psrd.bhomeStopLowTriger (hmMotorHitHome io) := by
  obtain ⟨⟨answer, u⟩, start, result⟩ := Except.ok_of_map action
  obtain rfl : t = u := result
  obtain ⟨state, free⟩ := Bool.and_eq_true_iff.mp starts
  have stopped : psrd.axisState = .asStoped := of_decide_eq_true state
  generalize asked : ({ psrd with bdoHome := true } : StepInfo) = p at *
  have rest : p.axisState = .asStoped := by rw [← asked]; exact stopped
  have open_ : ¬ (p.towards speed).blocked io := by simpa using free
  have home : p.bdoHome = true := by rw [← asked]
  have trigger : p.bhomeStopLowTriger = psrd.bhomeStopLowTriger := by rw [← asked]
  rw [← trigger]
  have begun : p.hmStepMotorStartRun io accel speed = .ok (answer, t) := asked ▸ start
  rw [hmStepMotorStartRun_guarded, guardedStart_ahead rest open_] at begun
  obtain ⟨q, fill, result⟩ := Except.ok_of_map begun
  obtain ⟨-, rfl⟩ := Prod.mk.inj result
  have ready := runBufs_ready fill
  have launched := ready.launched ((p.towards speed).resetRun_prepared io (magnitude speed))
  refine ⟨launched.axisState, launched.prepared.bstopping, launched.prepared.bdoHome.trans home,
    launched.prepared.lowTriger, launched.prepared.stepsRequest, ?_, launched.whole⟩
  have sampled : ((p.towards speed).resetRun io (magnitude speed)).motorHwConfig.blastHitHome =
      hmMotorHitHome io := resetRun_lastHit (magnitude speed) home
  obtain ⟨psc, launch⟩ := q.launch_frame
  obtain ⟨_, _, _, _, _, _, _, _, rfl⟩ := ready.planned
  rw [launch, hmDmaSetup_true]
  exact sampled

/-- By level, the first check of a homing that requests a stop is the first that samples a hit; by
edge it is the first that samples a hit after a miss, the sample at the start counted as the one
before the first check. Up to this check the axis runs, and the check makes it stop. -/
theorem homing_stops_first {accel : UInt32} {speed : Int32} {es : List Event}
    {requests : List Bool} (starts : psrd.starts (.startHoming io accel speed))
    (action : Step psrd (.startHoming io accel speed) s)
    (undisturbed : ∀ e ∈ es, e.Undisturbed)
    (run : Run (Watched Step noteCheck) (s, []) es (t, requests)) :
    requests.findIdx? id =
      (triggers psrd.bhomeStopLowTriger (hmMotorHitHome io) (samples es)).findIdx? id ∧
    (requests.findIdx? id = none → t.axisState = .asRuning ∧ t.bstopping = false) ∧
    ∀ before io' later u v, es = before ++ .limitCheck io' :: later →
      requests.findIdx? id = some (samples before).length →
      Run Step s before u → Step u (.limitCheck io') v →
      u.axisState = .asRuning ∧ u.bstopping = false ∧ u.Stops v := by
  have homing := startHoming_homing starts action
  obtain ⟨more, grown, found⟩ := homing.first_request undisturbed run
  obtain rfl : requests = more := grown
  refine ⟨found, fun none_ => ?_, fun before io' later u v split first earlier check => ?_⟩
  · have plain : Run Step s es t := run.map Prod.fst fun _ _ _ move => move.1
    obtain ⟨last, still⟩ := homing.goes undisturbed (found.symm.trans none_) plain
    exact ⟨still.running, still.going⟩
  · subst split
    obtain ⟨before_, now⟩ := List.forall_mem_append.mp undisturbed
    have sampled : samples (before ++ .limitCheck io' :: later) =
        samples before ++ hmMotorHitHome io' :: samples later := List.filterMap_append
    rw [found, sampled] at first
    obtain ⟨⟨last, still⟩, stops⟩ :=
      homing.request before_ (List.forall_mem_cons.mp now).1 earlier first
    exact ⟨still.running, still.going, still.stops stops check⟩

theorem homing_stops_returning : ∃ psrd s u v t requests,
    Run Step (hmStepMotorInit 0) [.setHomeStopMode 0] psrd ∧
    Step psrd (.startHoming .atHome 1000 1000) s ∧
    Run Step s [.limitCheck .atHome, .burst, .limitCheck .clear] u ∧
    Step u (.limitCheck .atHome) v ∧
    Run (Watched Step noteCheck) (s, [])
      [.limitCheck .atHome, .burst, .limitCheck .clear, .limitCheck .atHome] (t, requests) ∧
    requests.findIdx? id = (triggers psrd.bhomeStopLowTriger true
      [true, false, true]).findIdx? id ∧
    requests.findIdx? id = some 2 ∧ u.axisState = .asRuning ∧ u.Stops v := by
  obtain ⟨psrd, run, test⟩ := computes_fires.run_any
    (show ([Event.setHomeStopMode 0].foldlM (playFires exec) (hmStepMotorInit 0)).any
      (fun psrd => decide (psrd.starts (.startHoming .atHome 1000 1000)) &&
        (playFires exec psrd (.startHoming .atHome 1000 1000)).any fun s =>
          (([Event.limitCheck .atHome, .burst, .limitCheck .clear, .limitCheck .atHome].foldlM
            (playWatched noteCheck (playFires exec)) (s, [])).any fun after =>
              decide (after.2.findIdx? id = some 2)) &&
          (([Event.limitCheck .atHome, .burst, .limitCheck .clear].foldlM (playFires exec) s).any
            fun u => (playFires exec u (.limitCheck .atHome)).any fun _ => true)) by
      decide +kernel)
  obtain ⟨starts, test⟩ := Bool.and_eq_true_iff.mp test
  obtain ⟨s, start, test⟩ := computes_fires.step_any test
  obtain ⟨watched, plain⟩ := Bool.and_eq_true_iff.mp test
  obtain ⟨⟨t, requests⟩, checks, test⟩ := (computes_fires.watched noteCheck).run_any watched
  obtain ⟨u, earlier, plain⟩ := computes_fires.run_any plain
  obtain ⟨v, check, -⟩ := computes_fires.step_any plain
  have second : requests.findIdx? id = some 2 := of_decide_eq_true test
  obtain ⟨found, -, stops⟩ := homing_stops_first (of_decide_eq_true starts) start
    (by simp [Event.Undisturbed, hmMotorHitCW, hmMotorHitCCW, Pins.atHome, Pins.clear]) checks
  obtain ⟨running, -, stopped⟩ := stops [.limitCheck .atHome, .burst, .limitCheck .clear]
    .atHome [] u v rfl second earlier check
  exact ⟨psrd, s, u, v, t, requests, run, start, earlier, check, checks, found, second, running,
    stopped⟩

end Homing

end StepInfo

end MotionBoard
