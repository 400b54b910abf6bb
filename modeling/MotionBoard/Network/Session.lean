import MotionBoard.Command.Separate
import MotionBoard.Network.Service
import MotionBoard.StepMotor.Duration
import MotionBoard.StepMotor.Position
import MotionBoard.StepMotor.Wiring

namespace MotionBoard
open Transition Bytes

namespace AxisCall

def plain : AxisCall → Bool
  | .event .halfTransfer | .event .transferComplete | .event .stopSundden | .event (.limitCheck _)
  | .event (.externIrq ..) => false
  | _ => true

def places : AxisCall → Bool
  | .event e => e.places
  | .ledAct _ => false

end AxisCall

namespace StepInfo

def Prompt (psrd : StepInfo) : AxisCall → Prop
  | .event e => psrd.Quiet e ∧ psrd.Raised e
  | .ledAct _ => True

instance (psrd : StepInfo) (c : AxisCall) : Decidable (psrd.Prompt c) :=
  match c with
  | .event _ => inferInstanceAs (Decidable (_ ∧ _))
  | .ledAct _ => inferInstanceAs (Decidable True)

structure Tracked (idx : Fin hmMaxAxis) (shift : Int) (psrd : StepInfo) : Prop where
  located : psrd.Located (shift + psrd.motor.shaft)
  wired : psrd.Wired idx

section Calls
variable {idx : Fin hmMaxAxis} {shift p : Int} {psrd t : StepInfo} {c : AxisCall}
  {made : List AxisCall}

theorem plain_prompt (plain : c.plain) : psrd.Prompt c := by
  cases c with
  | ledAct bon => trivial
  | event e =>
      cases e with
      | halfTransfer | transferComplete | stopSundden | limitCheck | externIrq => cases plain
      | _ => exact ⟨fun stops => Bool.noConfusion stops, trivial⟩

theorem Coupled.led (coupled : psrd.Coupled) (bon : Bool) :
    { psrd with motor.led := bon }.Coupled where
  regular := { coupled.regular with }
  resting stopped := { coupled.resting stopped with }
  playing running := (coupled.playing running).imp fun _ play => { play with }
  dirPin := coupled.dirPin

theorem Located.led (located : psrd.Located p) (bon : Bool) :
    { psrd with motor.led := bon }.Located p where
  coupled := located.coupled.led bon
  standing := located.standing
  moving left running play := located.moving left running { play with }

theorem Wired.call (wired : psrd.Wired idx) (regular : psrd.Regular) (step : CallStep psrd c t) :
    t.Wired idx := by
  cases c with
  | event e => exact wired.step regular step
  | ledAct bon =>
      obtain rfl := Except.ok.inj step
      exact ⟨wired.wiring, wired.ena⟩

theorem Coupled.tracked (coupled : psrd.Coupled) (wired : psrd.Wired idx) :
    psrd.Tracked idx (psrd.hmStepMotorGetCurPos.toInt - psrd.motor.shaft) := by
  refine ⟨?_, wired⟩
  rw [Int.sub_add_cancel]
  exact coupled.located

/-- Only a call that sets the position changes how far it is from the turns of the motor. -/
theorem Tracked.call (tracked : psrd.Tracked idx shift) (prompt : psrd.Prompt c)
    (step : CallStep psrd c t) :
    ∃ shift', t.Tracked idx shift' ∧ (c.places = false → shift' = shift) := by
  have wired := tracked.wired.call tracked.located.coupled.regular step
  cases c with
  | ledAct bon =>
      obtain rfl := Except.ok.inj step
      exact ⟨shift, ⟨tracked.located.led bon, wired⟩, fun _ => rfl⟩
  | event e =>
      have quiet : QuietStep psrd e t := ⟨prompt.1, prompt.2, step⟩
      have coupled := tracked.located.coupled
      by_cases placed : e.places
      · exact ⟨_, (coupled.step quiet).tracked wired, fun kept => by
          rw [show AxisCall.places (.event e) = e.places from rfl, placed] at kept
          cases kept⟩
      · have located := tracked.located.step quiet (by simpa using placed)
        obtain ⟨-, shaft⟩ := (exec_effect step).consumed coupled.regular
        rw [coupled.shaft_heading] at shaft
        rw [Int.add_assoc, ← shaft] at located
        exact ⟨shift, ⟨located, wired⟩, fun _ => rfl⟩

theorem prompt_calls (run : Run CallStep psrd made t)
    (shape : made.length ≤ 1 ∨ ∀ c ∈ made, c.plain) (prompt : ∀ c ∈ made, psrd.Prompt c) :
    Run (Guarded Prompt CallStep) psrd made t := by
  induction run with
  | nil => exact .nil
  | @cons s u t c made step rest ih =>
      obtain ⟨first, -⟩ := List.forall_mem_cons.mp prompt
      refine .cons ⟨first, step⟩ ?_
      rcases shape with short | plain
      · obtain rfl := List.length_eq_zero_iff.mp (Nat.le_zero.mp (Nat.le_of_succ_le_succ short))
        exact ih (.inl (Nat.zero_le 1)) (by simp)
      · obtain ⟨-, others⟩ := List.forall_mem_cons.mp plain
        exact ih (.inr others) fun c member => plain_prompt (others c member)

theorem Tracked.calls (tracked : psrd.Tracked idx shift)
    (run : Run (Guarded Prompt CallStep) psrd made t) :
    ∃ shift', t.Tracked idx shift' ∧ ((∀ c ∈ made, c.places = false) → shift' = shift) := by
  induction run generalizing shift with
  | nil => exact ⟨shift, tracked, fun _ => rfl⟩
  | cons step _ ih =>
      obtain ⟨middle, after, same⟩ := tracked.call step.1 step.2
      obtain ⟨last, ends, kept⟩ := ih after
      refine ⟨last, ends, fun unplaced => ?_⟩
      obtain ⟨first, others⟩ := List.forall_mem_cons.mp unplaced
      rw [kept others, same first]

theorem tracked_init (idx : Fin hmMaxAxis) : (MotionBoard.hmStepMotorInit idx).Tracked idx 0 :=
  ⟨(coupled_init idx).located, wired_init idx⟩

end Calls

end StepInfo

theorem HmCmdReq.calls_shape (inputs : Inputs) (preq : HmCmdReq) (old : AxisSetting)
    (idx : Fin hmMaxAxis) : (preq.calls inputs old idx).length ≤ 1 ∨
      ∀ c ∈ preq.calls inputs old idx, c.plain := by
  unfold HmCmdReq.calls callsOn
  split
  · exact .inl (by dsimp only; split_ifs <;> simp)
  · exact .inl (by dsimp only; split_ifs <;> simp)
  · exact .inl (by dsimp only; split_ifs <;> simp)
  · exact .inl (by dsimp only; split_ifs <;> simp)
  · right
    dsimp only
    split_ifs <;> simp [AxisSetting.calls, AxisCall.plain]
  · exact .inl (by dsimp only; split_ifs <;> simp)
  · exact .inl (by dsimp only; split_ifs <;> simp)
  · right
    simp [AxisCall.plain]
  · exact .inl (Nat.zero_le 1)

def BoardEvent.calls (sys : System) (idx : Fin hmMaxAxis) : BoardEvent → List AxisCall
  | .datagram inputs d =>
      if acceptsRequest d.p.payload then
        (HmCmdReq.ofBytes d.p.payload).calls inputs sys.sAxisInfo[idx].setting idx
      else []
  | .axis i e => if i = idx then [.event e] else []

theorem BoardEvent.calls_shape (sys : System) (idx : Fin hmMaxAxis) (e : BoardEvent) :
    (e.calls sys idx).length ≤ 1 ∨ ∀ c ∈ e.calls sys idx, c.plain := by
  cases e with
  | datagram inputs d =>
      unfold BoardEvent.calls
      dsimp only
      split
      · exact HmCmdReq.calls_shape _ _ _ _
      · exact .inl (Nat.zero_le 1)
  | axis i e =>
      left
      unfold BoardEvent.calls
      dsimp only
      split
      · exact Nat.le_refl 1
      · exact Nat.zero_le 1

namespace Server

def axis (s : Server) (idx : Fin hmMaxAxis) : StepInfo := s.sys.sAxisInfo[idx]

/-- The event is in order for an axis: its interrupts are served as their flags ask, and none is
pending when it is stopped suddenly. -/
def Prompt (idx : Fin hmMaxAxis) (s : Server) (e : BoardEvent) : Prop :=
  e.Known ∧ ∀ c ∈ e.calls s.sys idx, (s.axis idx).Prompt c

abbrev PromptStep (idx : Fin hmMaxAxis) : Server → BoardEvent → Server → Prop :=
  Guarded (Prompt idx) ServeStep

def Unplaced (idx : Fin hmMaxAxis) (s : Server) (e : BoardEvent) : Prop :=
  ∀ c ∈ e.calls s.sys idx, c.places = false

abbrev UnplacedStep (idx : Fin hmMaxAxis) : Server → BoardEvent → Server → Prop :=
  Guarded (Unplaced idx) (PromptStep idx)

instance (e : BoardEvent) : Decidable e.Known :=
  match e with
  | .datagram _ _ => inferInstanceAs (Decidable (_ → _))
  | .axis _ _ => inferInstanceAs (Decidable True)

instance (idx : Fin hmMaxAxis) (s : Server) (e : BoardEvent) : Decidable (Prompt idx s e) :=
  inferInstanceAs (Decidable (_ ∧ ∀ c ∈ e.calls s.sys idx, (s.axis idx).Prompt c))

instance (idx : Fin hmMaxAxis) (s : Server) (e : BoardEvent) : Decidable (Unplaced idx s e) :=
  inferInstanceAs (Decidable (∀ c ∈ e.calls s.sys idx, c.places = false))

structure Follows (idx : Fin hmMaxAxis) (shift : Int) (s : Server) : Prop where
  serves : ∃ service, s.Serves service
  tracked : (s.axis idx).Tracked idx shift

section Follows
variable {idx : Fin hmMaxAxis} {shift : Int} {s t : Server} {service : Service} {e : BoardEvent}
  {before es : List BoardEvent}

theorem Serves.calls (serves : s.Serves service) (known : e.Known) (action : s.serve e = .ok t)
    (idx : Fin hmMaxAxis) : Run CallStep (s.axis idx) (e.calls s.sys idx) (t.axis idx) := by
  obtain ⟨u, done, related⟩ := (serves.step known).1 t action
  unfold axis
  rw [serves.sys, related.sys]
  cases e with
  | datagram inputs d =>
      unfold BoardEvent.calls
      dsimp only
      by_cases accepted : acceptsRequest d.p.payload
      · rw [if_pos accepted]
        rw [Service.exec_accepted accepted] at done
        obtain ⟨⟨sys, answer⟩, called, result⟩ := Except.ok_of_bind done
        obtain rfl := Except.ok.inj result
        exact System.hmCmdExcCk_follows called idx
      · rw [if_neg accepted]
        obtain rfl := Except.ok.inj ((if_neg accepted).symm.trans done)
        exact .nil
  | axis i e =>
      obtain ⟨sys, moved, rfl⟩ := Except.ok_of_map done
      exact System.exec_follows moved idx

theorem Follows.step (follows : Follows idx shift s) (action : PromptStep idx s e t) :
    ∃ shift', Follows idx shift' t ∧ (Unplaced idx s e → shift' = shift) := by
  obtain ⟨⟨known, prompt⟩, action⟩ := action
  obtain ⟨service, serves⟩ := follows.serves
  obtain ⟨u, -, related⟩ := (serves.step known).1 t action
  have run := StepInfo.prompt_calls (serves.calls known action idx) (e.calls_shape s.sys idx) prompt
  obtain ⟨shift', tracked, kept⟩ := follows.tracked.calls run
  exact ⟨shift', ⟨⟨u, related⟩, tracked⟩, kept⟩

theorem follows_init (idx : Fin hmMaxAxis) : Follows idx 0 init := by
  refine ⟨⟨_, init_serves⟩, ?_⟩
  have fresh : init.axis idx = hmStepMotorInit idx := init_axis idx
  rw [fresh]
  exact StepInfo.tracked_init idx

theorem reachable_follows (reached : Run (PromptStep idx) init before s) :
    ∃ shift, Follows idx shift s :=
  reached.invariant (fun s => ∃ shift, Follows idx shift s) ⟨0, follows_init idx⟩
    fun _ _ _ ⟨_, follows⟩ action => (follows.step action).imp fun _ => And.left

theorem Follows.run (follows : Follows idx shift s) (run : Run (UnplacedStep idx) s es t) :
    Follows idx shift t :=
  run.invariant (Follows idx shift) follows fun _ _ _ follows action => by
    obtain ⟨shift', after, same⟩ := follows.step action.2
    rw [same action.1] at after
    exact after

end Follows

end Server

structure HmCmdReq.AsksStatus (preq : HmCmdReq) (idx : Fin hmMaxAxis) : Prop where
  code : HmCmds.ofCode preq.ncmd = some .hmCmdGetAxisStatus
  size : preq.inputLen = 16
  axis : (HmCmdGetAxisStatuse.ofInput preq.input).axis.toNat = idx

structure HmCmdGetAxisStatuse.Tells (pin : HmCmdGetAxisStatuse) (psrd : StepInfo) (io : Pins) :
    Prop where
  stopped : pin.axisStatus &&& 0x01 ≠ 0 ↔ psrd.Resting
  hitCW : pin.axisStatus &&& 0x02 ≠ 0 ↔ hmMotorHitCW io
  hitCCW : pin.axisStatus &&& 0x04 ≠ 0 ↔ hmMotorHitCCW io
  hitHome : pin.axisStatus &&& 0x08 ≠ 0 ↔ hmMotorHitHome io
  enabled : pin.axisStatus &&& 0x10 ≠ 0 ↔ psrd.motor.enaPin = false

section Status
variable {idx : Fin hmMaxAxis} {shift : Int} {psrd : StepInfo} {preq : HmCmdReq}

theorem HmCmdGetAxisStatuse.ofInput_store (input : Vector UInt8 hmCmdMaxInputSize)
    (pin : HmCmdGetAxisStatuse) :
    ofInput (pin.store input) = { pin with axis := (ofInput input).axis } := by
  have axis : word (pin.store input) 0 = word input 0 := by
    unfold store
    rw [word_putWord_ne _ (by omega), word_putWord_ne _ (by omega), word_putWord_ne _ (by omega)]
  have pos : word (pin.store input) 4 = pin.pos.toUInt32 := by
    unfold store
    rw [word_putWord_ne _ (by omega), word_putWord_ne _ (by omega), word_putWord _ (by decide)]
  have axisStatus : word (pin.store input) 8 = pin.axisStatus := by
    unfold store
    rw [word_putWord_ne _ (by omega), word_putWord _ (by decide)]
  have speed : word (pin.store input) 12 = pin.speed := word_putWord _ (by decide)
  unfold ofInput
  rw [axis, pos, axisStatus, speed]
  rfl

theorem axisStatus_bits (stop cw ccw home benabled : Bool) :
    let axisStatus : UInt32 := (if stop then 0x01 else 0) ||| (if cw then 0x02 else 0) |||
      (if ccw then 0x04 else 0) ||| (if home then 0x08 else 0) ||| (if benabled then 0x10 else 0)
    (axisStatus &&& 0x01 ≠ 0 ↔ stop) ∧ (axisStatus &&& 0x02 ≠ 0 ↔ cw) ∧
      (axisStatus &&& 0x04 ≠ 0 ↔ ccw) ∧ (axisStatus &&& 0x08 ≠ 0 ↔ home) ∧
      (axisStatus &&& 0x10 ≠ 0 ↔ benabled) := by
  cases stop <;> cases cw <;> cases ccw <;> cases home <;> cases benabled <;> decide

theorem StepInfo.Coupled.stopped_iff_resting (coupled : psrd.Coupled) :
    psrd.axisState = .asStoped ↔ psrd.Resting := by
  refine ⟨coupled.resting, fun rest => ?_⟩
  rw [coupled.regular.stopped_iff]
  intro running
  obtain ⟨left, play⟩ := coupled.playing running
  exact Bool.noConfusion (rest.timer.symm.trans play.timer)

theorem System.status_answer {sys : System} {inputs : Inputs} (asks : preq.AsksStatus idx)
    (tracked : sys.sAxisInfo[idx].Tracked idx shift) :
    ∃ answer, sys.hmCmdExcCk inputs preq = .ok (sys, answer) ∧ answer.ret = 1 ∧
      (HmCmdGetAxisStatuse.ofInput answer.input).pos =
        sys.sAxisInfo[idx].hmStepMotorGetCurPos ∧
      (HmCmdGetAxisStatuse.ofInput answer.input).Tells sys.sAxisInfo[idx] inputs.axes[idx] := by
  have io : inputs.io (HmCmdGetAxisStatuse.ofInput preq.input).axis = inputs.axes[idx] := by
    unfold Inputs.io
    rw [asks.axis, Vector.getElem?_eq_getElem idx.isLt]
    rfl
  unfold hmCmdExcCk
  rw [asks.code]
  dsimp only
  unfold getAxisStatus
  rw [sized_eq asks.size]
  unfold Board.hmStepMotorState Board.hmMotorHitCW Board.hmMotorHitCCW Board.hmMotorHitHome
    Board.hmMotorHit Board.hmMotorIsEnable Board.hmStepMotorGetCurPos
  simp only [Board.axisInfo_named asks.axis, Board.ask_named _ _ asks.axis, io]
  refine ⟨_, rfl, rfl, ?_, ?_⟩
  · exact congrArg HmCmdGetAxisStatuse.pos (HmCmdGetAxisStatuse.ofInput_store _ _)
  · rw [HmCmdGetAxisStatuse.ofInput_store]
    have bits := axisStatus_bits (decide (sys.sAxisInfo[idx].hmStepMotorState = .rsStop))
      (MotionBoard.hmMotorHitCW inputs.axes[idx]) (MotionBoard.hmMotorHitCCW inputs.axes[idx])
      (MotionBoard.hmMotorHitHome inputs.axes[idx]) sys.sAxisInfo[idx].motorHwConfig.benabled
    simp only [decide_eq_true_eq] at bits
    obtain ⟨stopped, cw, ccw, home, benabled⟩ := bits
    refine ⟨?_, cw, ccw, home, benabled.trans ?_⟩
    · rw [← tracked.located.coupled.stopped_iff_resting, ← StepInfo.state_eq_stop]
      exact stopped
    · rw [tracked.wired.ena, Bool.not_eq_false']

end Status

structure Datagram.AsksStatus (d : Datagram) (idx : Fin hmMaxAxis) : Prop where
  accepted : acceptsRequest d.p.payload
  asks : (HmCmdReq.ofBytes d.p.payload).AsksStatus idx

namespace Server

def Replies (s : Server) (inputs : Inputs) (d : Datagram) (answer : HmCmdReq) : Prop :=
  ∃ t, s.serve (.datagram inputs d) = .ok t ∧
    t.sent = s.sent ++ [⟨.udpConnect d.addr d.port, answer.bytes⟩] ∧
    t.sys.sAxisInfo = s.sys.sAxisInfo

section Replies
variable {idx : Fin hmMaxAxis} {shift : Int} {s t : Server} {service : Service}
  {inputs inputs' : Inputs} {d d' : Datagram} {before es : List BoardEvent}

theorem Serves.executes {sys : System} {answer : HmCmdReq} (serves : s.Serves service)
    (accepted : acceptsRequest d.p.payload) (registered : d.ncmd < 14)
    (called : System.hmCmdExcCk { s.sys with sDebug.paddr := d.addr } inputs
      (.ofBytes d.p.payload) = .ok (sys, answer)) :
    ∃ t, s.serve (.datagram inputs d) = .ok t ∧ t.sys = sys ∧
      t.sent = s.sent ++ [⟨.udpConnect d.addr d.port, answer.bytes⟩] := by
  have known : (BoardEvent.datagram inputs d).Known := fun _ => registered
  have action : service.exec (.datagram inputs d) =
      .ok ⟨sys, service.replies ++ [⟨d.addr, d.port, answer.bytes⟩]⟩ := by
    rw [Service.exec_accepted accepted, ← serves.sys, called]
    rfl
  obtain ⟨t, done, related⟩ := (serves.step known).2 _ action
  refine ⟨t, done, related.sys, ?_⟩
  rw [related.sent, serves.sent, List.map_append]
  rfl

theorem Follows.status (follows : Follows idx shift s) (asks : d.AsksStatus idx) :
    ∃ answer, s.Replies inputs d answer ∧ answer.ret = 1 ∧
      (HmCmdGetAxisStatuse.ofInput answer.input).pos =
        Int32.ofInt (shift + (s.axis idx).motor.shaft) ∧
      (HmCmdGetAxisStatuse.ofInput answer.input).Tells (s.axis idx) inputs.axes[idx] := by
  obtain ⟨service, serves⟩ := follows.serves
  have registered : d.ncmd < 14 := by
    unfold Datagram.ncmd
    rw [← HmCmds.code_of_ofCode asks.asks.code]
    decide
  obtain ⟨answer, called, ret, pos, tells⟩ :=
    @System.status_answer _ shift _ { s.sys with sDebug.paddr := d.addr } inputs asks.asks
      follows.tracked
  obtain ⟨t, done, sys, sent⟩ := serves.executes asks.accepted registered called
  refine ⟨answer, ⟨t, done, sent, by rw [sys]⟩, ret, ?_, tells⟩
  rw [pos]
  exact follows.tracked.located.getCurPos

/-- The board never lies about an axis: each status is true of it, and from one status to another the
position changes by what the motor turned in between, whatever happened meanwhile but that the
position was set. TIM1 repeats units, so the first axis may have turned further. -/
theorem status_displacement (reached : Run (PromptStep idx) init before s)
    (run : Run (UnplacedStep idx) s es t) (asks : d.AsksStatus idx) (asks' : d'.AsksStatus idx) :
    ∃ answer answer', s.Replies inputs d answer ∧ t.Replies inputs' d' answer' ∧
      answer.ret = 1 ∧ answer'.ret = 1 ∧
      (HmCmdGetAxisStatuse.ofInput answer.input).Tells (s.axis idx) inputs.axes[idx] ∧
      (HmCmdGetAxisStatuse.ofInput answer'.input).Tells (t.axis idx) inputs'.axes[idx] ∧
      (idx ≠ 0 → (HmCmdGetAxisStatuse.ofInput answer'.input).pos =
        (HmCmdGetAxisStatuse.ofInput answer.input).pos +
          Int32.ofInt ((t.axis idx).motor.shaft - (s.axis idx).motor.shaft)) := by
  obtain ⟨shift, follows⟩ := reachable_follows reached
  obtain ⟨answer, replies, ret, pos, tells⟩ := follows.status asks
  obtain ⟨answer', replies', ret', pos', tells'⟩ := (follows.run run).status asks'
  refine ⟨answer, answer', replies, replies', ret, ret', tells, tells', fun _ => ?_⟩
  rw [pos, pos', ← Int32.ofInt_add]
  apply congrArg Int32.ofInt
  omega

def statusRequest (axis : UInt32) : HmCmdReq :=
  ⟨putWord (Vector.replicate hmCmdMaxInputSize 0) 0 axis, 16, HmCmds.hmCmdGetAxisStatus.code, 0,
    hmCmdMark1, hmCmdMark2, hmCmdOwerClient⟩

def datagramOf (preq : HmCmdReq) (addr : UInt32) : Datagram := ⟨⟨0, preq.bytes⟩, addr, 5000⟩

theorem status_displacement_two :
    let es := [.datagram .clear (datagramOf (moveRequest 1 3) 0x6401a8c0), .axis 1 .burst,
      .axis 0 .burst, .axis 1 .burst]
    let d := datagramOf (statusRequest 1) 0x6501a8c0
    ∃ t answer answer', Run (UnplacedStep 1) init es t ∧ init.Replies .clear d answer ∧
      t.Replies .clear d answer' ∧ (HmCmdGetAxisStatuse.ofInput answer'.input).pos =
        (HmCmdGetAxisStatuse.ofInput answer.input).pos + 2 := by
  intro es d
  have sound : Computes (playGuarded (Unplaced 1) (playGuarded (Prompt 1) (playFires serve)))
      (UnplacedStep 1) := (computes_fires.guarded (Prompt 1)).guarded (Unplaced 1)
  obtain ⟨t, run, test⟩ := sound.run_any
    (show (es.foldlM (playGuarded (Unplaced 1) (playGuarded (Prompt 1) (playFires serve))) init).any
      (fun t => decide ((t.axis 1).motor.shaft - (init.axis 1).motor.shaft = 2)) by
      decide +kernel)
  have asks : d.AsksStatus 1 :=
    ⟨by decide +kernel, by decide +kernel, by decide +kernel, by decide +kernel⟩
  obtain ⟨answer, answer', replies, replies', -, -, -, -, pos⟩ :=
    status_displacement .nil run asks asks
  have pos := pos (by decide)
  rw [of_decide_eq_true test] at pos
  exact ⟨t, answer, answer', run, replies, replies', pos⟩

end Replies

end Server

def BoardEvent.hardware (idx : Fin hmMaxAxis) : BoardEvent → Option Event
  | .datagram .. => none
  | .axis i e => if i = idx then some e else none

namespace Server

/-- An event that leaves an axis to its updates and interrupts: requests do not call it, and the
checks of its switches find nothing to stop it for. -/
def Alone (idx : Fin hmMaxAxis) (s : Server) (e : BoardEvent) : Prop :=
  e.Known ∧ match e.hardware idx with
    | some e => (s.axis idx).Passive e
    | none => e.calls s.sys idx = []

instance (idx : Fin hmMaxAxis) (s : Server) (e : BoardEvent) : Decidable (Alone idx s e) :=
  have : Decidable (match e.hardware idx with
      | some e => (s.axis idx).Passive e
      | none => e.calls s.sys idx = []) :=
    match e.hardware idx with
    | some e => inferInstanceAs (Decidable ((s.axis idx).Passive e))
    | none => inferInstanceAs (Decidable (e.calls s.sys idx = []))
  inferInstanceAs (Decidable (_ ∧ _))

section Move
variable {idx : Fin hmMaxAxis} {shift : Int} {s s' t : Server} {inputs inputs' : Inputs}
  {d d' : Datagram} {before es : List BoardEvent} {e : BoardEvent} {pinf : HmCmdFixMove}

theorem passive_prompt {psrd : StepInfo} {e : Event} (passive : psrd.Passive e) :
    psrd.Quiet e ∧ psrd.Raised e := by
  obtain due | ⟨checks, goes⟩ := passive
  case inr =>
    have going : psrd.suddenStops e = false := by
      unfold StepInfo.suddenStops
      rw [goes, Bool.false_and, Bool.or_false]
      cases e <;> first | rfl | cases checks
    refine ⟨fun stops => absurd (going.symm.trans stops) Bool.false_ne_true, ?_⟩
    cases e <;> trivial
  cases e with
  | burst => exact ⟨fun stops => Bool.noConfusion stops, trivial⟩
  | halfTransfer => exact ⟨fun stops => Bool.noConfusion stops, due⟩
  | transferComplete => exact ⟨fun stops => Bool.noConfusion stops, due⟩
  | _ => exact due.elim

theorem hardware_calls {e' : Event} (sys : System) (seen : e.hardware idx = some e') :
    e.calls sys idx = [.event e'] := by
  cases e with
  | datagram inputs d => cases seen
  | axis i e =>
      unfold BoardEvent.hardware at seen
      unfold BoardEvent.calls
      dsimp only at seen ⊢
      split at seen
      · rename_i same
        obtain rfl := Option.some.inj seen
        exact if_pos same
      · cases seen

theorem Alone.prompt (alone : Alone idx s e) : Prompt idx s e := by
  obtain ⟨known, alone⟩ := alone
  refine ⟨known, fun c member => ?_⟩
  cases seen : e.hardware idx with
  | none =>
      rw [seen] at alone
      rw [show e.calls s.sys idx = [] from alone] at member
      cases member
  | some e' =>
      rw [seen] at alone
      rw [hardware_calls s.sys seen] at member
      obtain rfl := List.mem_singleton.mp member
      exact passive_prompt alone

end Move

end Server

end MotionBoard
