import MotionBoard.StepMotor.Machine
import MotionBoard.StepMotor.StartSpec

namespace MotionBoard

def Event.request : Event → UInt32
  | .move _ step _ _ _ => (magnitude step).toUInt32
  | _ => hmInvalidStep

namespace StepInfo

/-- Only settings differ, and the direction of a stopped axis. -/
def Tuned (psrd t : StepInfo) : Prop :=
  ∃ hw method low home enaPin dir,
    t = { psrd with
      motorHwConfig := hw, method := method, bhomeStopLowTriger := low, bdoHome := home
      motor.enaPin := enaPin, dir := dir } ∧
    (psrd.axisState ≠ .asStoped → dir = psrd.dir)

def homeAfter (psrd : StepInfo) : Event → Bool
  | .startHoming .. => true
  | .startFreeRun .. => false
  | _ => psrd.bdoHome

inductive Effect (psrd : StepInfo) : Event → StepInfo → Prop
  | pulse : Effect psrd .burst psrd.burst
  | refill {u : StepInfo} : psrd.hmDmaFillNextBuf = .ok u →
      Effect psrd .halfTransfer { u with pdma.htif := false }
  | complete {u : StepInfo} : psrd.hmDmaCk = .ok u →
      Effect psrd .transferComplete { u with pdma.tcif := false }
  | launch {e : Event} {s₀ t : StepInfo} {home : Bool} :
      psrd.starts e → psrd.axisState = .asStoped → psrd.Tuned s₀ →
        Launched s₀ e.request home t → Effect psrd e t
  | smooth {e : Event} {s₀ : StepInfo} : psrd.smoothStops e → psrd.Tuned s₀ →
      Effect psrd e s₀.hmStepMotorStopSmooth
  | sudden {e : Event} {s₀ : StepInfo} : psrd.suddenStops e → psrd.Tuned s₀ →
      s₀.dir = psrd.dir → Effect psrd e s₀.hmStepMotorStopSundden
  | place {newpos : Int32} : Effect psrd (.setCurPos newpos) (psrd.hmStepMotorSetCurPos newpos)
  | tune {e : Event} {t : StepInfo} : !e.dma → !psrd.acts e → psrd.Tuned t →
      t.bdoHome = psrd.homeAfter e → Effect psrd e t

section Command
variable {psrd : StepInfo} {e : Event}

theorem command_of_limitStops (limit : psrd.limitStops e) : !e.dma := by
  cases e <;> first | rfl | cases limit

theorem starts_of_limitStops (limit : psrd.limitStops e) : psrd.starts e = false := by
  cases e <;> first | rfl | cases limit

theorem state_eq_stop : psrd.hmStepMotorState = .rsStop ↔ psrd.axisState = .asStoped :=
  not_iff_not.mp hmStepMotorState_ne

theorem starts_of_smoothStops (stops : psrd.smoothStops e) : psrd.starts e = false := by
  cases e <;> first | rfl | cases stops

theorem starts_of_suddenStops (stops : psrd.suddenStops e) : psrd.starts e = false := by
  cases e <;> first | rfl | cases stops

theorem suddenStops_of_smoothStops (stops : psrd.smoothStops e) : psrd.suddenStops e = false := by
  simp only [smoothStops, Bool.and_eq_true, Bool.or_eq_true, decide_eq_true_eq,
    Bool.not_eq_true'] at stops
  obtain ⟨⟨rfl | ⟨limit, slowly⟩, -⟩, -⟩ := stops
  · rfl
  · cases e <;> first | cases limit | simp [suddenStops, slowly]

theorem smoothStops_refused (refused : psrd.axisState = .asStoped ∨ psrd.bstopping) :
    psrd.smoothStops e = false := by
  unfold smoothStops
  rcases refused with stopped | stopping
  · simp [stopped]
  · simp [stopping]

theorem command_of_starts (starts : psrd.starts e) : !e.dma := by
  cases e <;> first | rfl | cases starts

theorem command_of_suddenStops (stops : psrd.suddenStops e) : !e.dma := by
  cases e <;> first | rfl | cases stops

theorem command_of_smoothStops (stops : psrd.smoothStops e) : !e.dma := by
  cases e <;> first | rfl | cases stops

end Command

theorem Tuned.refl (psrd : StepInfo) : psrd.Tuned psrd :=
  ⟨_, _, _, _, _, _, rfl, fun _ => rfl⟩

section Tuned
variable {psrd t : StepInfo} (tuned : psrd.Tuned t)
include tuned

theorem Tuned.axisState : t.axisState = psrd.axisState := by
  obtain ⟨_, _, _, _, _, _, rfl, -⟩ := tuned
  rfl

theorem Tuned.running : t.running = psrd.running := by
  obtain ⟨_, _, _, _, _, _, rfl, -⟩ := tuned
  rfl

theorem Tuned.bstopping : t.bstopping = psrd.bstopping := by
  obtain ⟨_, _, _, _, _, _, rfl, -⟩ := tuned
  rfl

theorem Tuned.dmaBuf : t.dmaBuf = psrd.dmaBuf := by
  obtain ⟨_, _, _, _, _, _, rfl, -⟩ := tuned
  rfl

theorem Tuned.curBuf : t.curBuf = psrd.curBuf := by
  obtain ⟨_, _, _, _, _, _, rfl, -⟩ := tuned
  rfl

theorem Tuned.feed : t.feed = psrd.feed := by
  obtain ⟨_, _, _, _, _, _, rfl, -⟩ := tuned
  rfl

theorem Tuned.nextBuf : t.nextBuf = psrd.nextBuf := by
  obtain ⟨_, _, _, _, _, _, rfl, -⟩ := tuned
  rfl

theorem Tuned.accepted {e : Event} (stops : psrd.smoothStops e) :
    t.axisState ≠ .asStoped ∧ t.bstopping = false := by
  rw [tuned.axisState, tuned.bstopping]
  simp only [smoothStops, Bool.and_eq_true, decide_eq_true_eq, Bool.not_eq_true'] at stops
  exact ⟨stops.1.2, stops.2⟩

end Tuned

section Exec
variable {psrd t : StepInfo}

theorem goes_ahead_iff {stopped blocked : Prop} [Decidable stopped] [Decidable blocked] :
    (decide stopped && !decide blocked) = true ↔ stopped ∧ ¬ blocked := by
  simp

theorem starts_effect {e : Event} (command : !e.dma)
    (other : psrd.suddenStops e = false ∧ psrd.smoothStops e = false) {amount : Int32} {io : Pins}
    {s₀ : StepInfo} {home answer : Bool} (tuned : psrd.Tuned s₀)
    (state : s₀.axisState = psrd.axisState)
    (keep : s₀.bdoHome = psrd.homeAfter e)
    (starts : psrd.starts e =
      (decide (psrd.axisState = .asStoped) && !decide ((s₀.towards amount).blocked io)))
    (outcome : Outcome s₀ amount io e.request home answer t) : Effect psrd e t := by
  have turned (stopped : s₀.axisState = .asStoped) : psrd.Tuned (s₀.towards amount) := by
    obtain ⟨hw, method, low, home, enaPin, dir, rfl, -⟩ := tuned
    exact ⟨hw, method, low, home, enaPin, _, rfl, fun running => absurd stopped running⟩
  rcases outcome with ⟨refused, -, rfl⟩ | ⟨stopped, -, blocked, rfl⟩ |
    ⟨stopped, -, free, launched⟩
  · rw [state] at refused
    exact .tune command (by simp [acts, starts, refused, other]) tuned keep
  · exact .tune command (by simp [acts, starts, blocked, other]) (turned stopped) keep
  · rw [state] at stopped
    exact .launch (by rw [starts]; simp [stopped, free]) stopped (turned (state.trans stopped))
      launched

theorem limitStop_effect {e : Event} {s₀ : StepInfo} (limit : psrd.limitStops e)
    (tuned : psrd.Tuned s₀) (dir : s₀.dir = psrd.dir) (keep : s₀.bdoHome = psrd.homeAfter e)
    (immediately : s₀.motorHwConfig.bStopImmediatelyCW =
      psrd.motorHwConfig.bStopImmediatelyCW)
    (state : s₀.axisState = psrd.axisState) (stopping : s₀.bstopping = psrd.bstopping) :
    Effect psrd e s₀.limitStop := by
  unfold limitStop
  rw [immediately]
  split
  · rename_i now
    exact .sudden (by simp [suddenStops, limit, now]) tuned dir
  · rename_i slowly
    have slowly : psrd.motorHwConfig.bStopImmediatelyCW = 0 := Decidable.not_not.mp slowly
    by_cases refused : s₀.hmStepMotorState = .rsStop ∨ s₀.bstopping
    · have same : s₀.hmStepMotorStopSmooth = s₀ := if_pos refused
      have inert : psrd.smoothStops e = false := by
        rw [state_eq_stop, state, stopping] at refused
        exact smoothStops_refused refused
      have slow : psrd.suddenStops e = false := by
        cases e <;> first | cases limit | simp [suddenStops, slowly]
      rw [same]
      exact .tune (command_of_limitStops limit)
        (by simp [acts, inert, slow, starts_of_limitStops limit]) tuned keep
    · rw [not_or, ← ne_eq, hmStepMotorState_ne, state, stopping] at refused
      exact .smooth (by simp [smoothStops, limit, slowly, refused]) tuned

theorem map_snd_ok {action : Except Halt (Bool × StepInfo)} (result : action.map Prod.snd = .ok t) :
    ∃ answer, action = .ok (answer, t) := by
  cases action with
  | error failure => cases result
  | ok value =>
      obtain rfl := Except.ok.inj result
      exact ⟨value.1, rfl⟩

theorem map_snd_error {start : Except Halt (Bool × StepInfo)} {failure : Halt}
    (result : start.map Prod.snd = .error failure) : start = .error failure := by
  cases start with
  | error other => exact congrArg _ (Except.error.inj result)
  | ok value => cases result

theorem exec_effect {e : Event} (action : psrd.exec e = .ok t) : Effect psrd e t := by
  cases e with
  | burst =>
      obtain rfl := Except.ok.inj action
      exact .pulse
  | halfTransfer =>
      obtain ⟨u, fill, rfl⟩ := Except.ok_of_map action
      exact .refill fill
  | transferComplete =>
      obtain ⟨u, check, rfl⟩ := Except.ok_of_map action
      exact .complete check
  | move io step accel decel speed =>
      obtain ⟨answer, result⟩ := map_snd_ok action
      exact starts_effect rfl ⟨rfl, rfl⟩ (.refl psrd) rfl rfl rfl (hmStepMotorMove_ok result)
  | startHoming io accel speed =>
      obtain ⟨answer, result⟩ := map_snd_ok action
      exact starts_effect rfl ⟨rfl, rfl⟩ ⟨_, _, _, true, _, _, rfl, fun _ => rfl⟩ rfl rfl rfl
        (hmStepMotorStartRun_ok result)
  | startFreeRun io accel speed =>
      obtain ⟨answer, result⟩ := map_snd_ok action
      exact starts_effect rfl ⟨rfl, rfl⟩ ⟨_, _, _, false, _, _, rfl, fun _ => rfl⟩ rfl rfl rfl
        (hmStepMotorStartRun_ok result)
  | startRun io accel speed =>
      obtain ⟨answer, result⟩ := map_snd_ok action
      exact starts_effect rfl ⟨rfl, rfl⟩ (.refl psrd) rfl rfl rfl (hmStepMotorStartRun_ok result)
  | stopSmooth =>
      obtain rfl := Except.ok.inj action
      by_cases refused : psrd.hmStepMotorState = .rsStop ∨ psrd.bstopping
      · have same : psrd.hmStepMotorStopSmooth = psrd := if_pos refused
        rw [state_eq_stop] at refused
        rw [same]
        exact .tune rfl (by simp [acts, starts, suddenStops, limitStops, smoothStops_refused refused])
          (.refl psrd) rfl
      · rw [not_or, ← ne_eq, hmStepMotorState_ne] at refused
        exact .smooth (by simp [smoothStops, refused]) (.refl psrd)
  | stopSundden =>
      obtain rfl := Except.ok.inj action
      exact .sudden rfl (.refl psrd) rfl
  | limitCheck io =>
      obtain rfl := Except.ok.inj action
      obtain ⟨last, mark⟩ := psrd.markLastHitHome_frame io
      have tuned : psrd.Tuned (psrd.markLastHitHome io) := by
        rw [mark]
        exact ⟨_, _, _, _, _, _, rfl, fun _ => rfl⟩
      unfold hmMotorLimitLogicalCheck
      split
      · rename_i idle
        have idle : psrd.running = false := by simpa using idle
        exact .tune rfl (by simp [acts, starts, suddenStops, smoothStops, limitStops, idle])
          (.refl psrd) rfl
      · rename_i running
        dsimp only
        split
        · rename_i hit
          have limit : psrd.limitStops (.limitCheck io) := by
            simp only [limitStops, Bool.and_eq_true]
            exact ⟨by simpa using running, hit⟩
          exact limitStop_effect limit tuned (by rw [mark]) (by rw [mark]; rfl) (by rw [mark])
            (by rw [mark]) (by rw [mark])
        · rename_i miss
          have miss := Bool.eq_false_iff.mpr miss
          exact .tune rfl (by simp [acts, starts, suddenStops, smoothStops, limitStops, miss])
            tuned (by rw [mark]; rfl)
  | externIrq func extline io =>
      obtain rfl := Except.ok.inj action
      unfold handlerExternIrq
      split
      · rename_i hit
        exact limitStop_effect hit (.refl psrd) rfl rfl rfl rfl rfl
      · rename_i miss
        have miss := Bool.eq_false_iff.mpr miss
        exact .tune rfl (by simp [acts, starts, suddenStops, smoothStops, limitStops, miss])
          (.refl psrd) rfl
  | setCurPos newpos =>
      obtain rfl := Except.ok.inj action
      exact .place
  | setHomeStopMode blowtriger =>
      obtain rfl := Except.ok.inj action
      exact .tune rfl rfl ⟨_, _, _, _, _, _, rfl, fun _ => rfl⟩ rfl
  | setStopMode bsudCW bsudCCW bsudHome bTcurve =>
      obtain rfl := Except.ok.inj action
      exact .tune rfl rfl ⟨_, _, _, _, _, _, rfl, fun _ => rfl⟩ rfl
  | setAxisCurve e =>
      obtain rfl := Except.ok.inj action
      unfold hmStepMotorSetAxisCurve
      split
      · exact .tune rfl rfl (.refl psrd) rfl
      · exact .tune rfl rfl ⟨_, _, _, _, _, _, rfl, fun _ => rfl⟩ rfl
  | enableAxis benable =>
      obtain rfl := Except.ok.inj action
      obtain ⟨enaPin, benabled, enable⟩ := psrd.hmMotorEnableAxis_frame benable
      rw [enable]
      exact .tune rfl rfl ⟨_, _, _, _, _, _, rfl, fun _ => rfl⟩ rfl

theorem Effect.of_starts {e : Event} (effect : Effect psrd e t) (starts : psrd.starts e) :
    ∃ s₀ home, Launched s₀ e.request home t := by
  cases effect with
  | pulse | refill | complete | place => cases starts
  | launch _ _ _ launched => exact ⟨_, _, launched⟩
  | smooth smooth => exact absurd (starts_of_smoothStops smooth) (by simp [starts])
  | sudden sudden => exact absurd (starts_of_suddenStops sudden) (by simp [starts])
  | tune _ inert => simp [acts, starts] at inert

theorem Effect.of_smoothStops {e : Event} (effect : Effect psrd e t) (stops : psrd.smoothStops e) :
    ∃ s₀, psrd.Tuned s₀ ∧ t = s₀.hmStepMotorStopSmooth := by
  cases effect with
  | pulse | refill | complete | place => cases stops
  | launch starts => exact absurd (starts_of_smoothStops stops) (by simp [starts])
  | smooth _ tuned => exact ⟨_, tuned, rfl⟩
  | sudden sudden => exact absurd (suddenStops_of_smoothStops stops) (by simp [sudden])
  | tune _ inert => simp [acts, stops] at inert

theorem Effect.of_suddenStops {e : Event} (effect : Effect psrd e t)
    (stops : psrd.suddenStops e) : ∃ s₀, psrd.Tuned s₀ ∧ t = s₀.hmStepMotorStopSundden := by
  cases effect with
  | pulse | refill | complete | place => cases stops
  | launch starts => exact absurd (starts_of_suddenStops stops) (by simp [starts])
  | smooth smooth => exact absurd (suddenStops_of_smoothStops smooth) (by simp [stops])
  | sudden _ tuned => exact ⟨_, tuned, rfl⟩
  | tune _ inert => simp [acts, stops] at inert

end Exec

end StepInfo

end MotionBoard
