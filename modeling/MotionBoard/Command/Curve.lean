import MotionBoard.Command.Firmware
import MotionBoard.StepMotor.History

namespace MotionBoard
open Transition

def FirmwareEvent.Recurves (sys : System) (idx : Fin hmMaxAxis) : FirmwareEvent → Prop
  | .request _ preq =>
      let pin := HmCmdGetAxisSetting.ofInput preq.input
      HmCmds.ofCode preq.ncmd = some .hmCmdGetAxisSetting ∧ preq.inputLen = 24 ∧ pin.bget = 0 ∧
        pin.axis.toNat = idx ∧ pin.flag &&& 0x10 ≠ 0 ∧
        (if pin.tcurve ≠ 0 then Method.tCurve else .sCurve) ≠ sys.sAxisInfo[idx].method
  | .axis i e => i = idx ∧ sys.sAxisInfo[idx].recurves e

def FirmwareEvent.Permitted (sys : System) (event : FirmwareEvent) : Prop :=
  ∀ idx : Fin hmMaxAxis, sys.sAxisInfo[idx].axisState ≠ .asStoped → ¬event.Recurves sys idx

def KeepsCurve (sys : System) (event : FirmwareEvent) (sys' : System) : Prop :=
  FirmwareStep sys event sys' ∧ ∀ idx : Fin hmMaxAxis, sys.sAxisInfo[idx].axisState ≠ .asStoped →
    sys'.sAxisInfo[idx].method = sys.sAxisInfo[idx].method

/-- The curve each axis had when it was last seen stopped. -/
def curveAtStart (sys : System) (_event : FirmwareEvent) (curves : Vector Method hmMaxAxis) :
    Vector Method hmMaxAxis :=
  Vector.ofFn fun idx =>
    if sys.sAxisInfo[idx].axisState = .asStoped then sys.sAxisInfo[idx].method else curves[idx]

section Curve
variable {sys sys' : System} {event : FirmwareEvent} {events : List FirmwareEvent}
  {idx : Fin hmMaxAxis} {psrd t : StepInfo}

def AxisCall.straight : AxisCall → Bool
  | .event (.setStopMode ..) | .event (.setAxisCurve _) => false
  | _ => true

theorem call_method {c : AxisCall} (regular : psrd.Regular) (straight : c.straight)
    (move : CallStep psrd c t) : t.method = psrd.method := by
  cases c with
  | event e =>
      refine StepInfo.exec_method regular ?_ move
      cases e <;> first | rfl | cases straight
  | ledAct bon =>
      cases move
      rfl

theorem calls_method {calls : List AxisCall} (regular : psrd.Regular)
    (straight : ∀ c ∈ calls, c.straight) (run : Run CallStep psrd calls t) :
    t.method = psrd.method := by
  induction run with
  | nil => rfl
  | cons move _ ih =>
      obtain ⟨first, others⟩ := List.forall_mem_cons.mp straight
      exact (ih (regular.call move) others).trans (call_method regular first move)

theorem callsOn_straight {axis : UInt32} {c : AxisCall} (straight : c.straight) :
    ∀ made ∈ callsOn axis [c] idx, made.straight := by
  unfold callsOn
  split
  · simpa using straight
  · exact List.forall_mem_nil _

theorem if_straight {right : Prop} [Decidable right] {made : List AxisCall}
    (straight : ∀ c ∈ made, c.straight) : ∀ c ∈ if right then made else [], c.straight := by
  split
  · exact straight
  · exact List.forall_mem_nil _

theorem request_straight {inputs : Inputs} {preq : HmCmdReq} {old : AxisSetting}
    (other : HmCmds.ofCode preq.ncmd ≠ some .hmCmdGetAxisSetting) :
    ∀ c ∈ preq.calls inputs old idx, c.straight := by
  unfold HmCmdReq.calls
  cases named : HmCmds.ofCode preq.ncmd with
  | none => exact List.forall_mem_nil _
  | some cmd =>
      cases cmd with
      | hmCmdGetAxisSetting => exact absurd named other
      | hmCmdFixMove => exact if_straight (callsOn_straight rfl)
      | hmCmdKeepMove =>
          refine if_straight (callsOn_straight ?_)
          split <;> rfl
      | hmCmdStopMove =>
          refine if_straight (callsOn_straight ?_)
          split <;> rfl
      | hmCmdEnableAxis | hmCmdSetPos => exact callsOn_straight rfl
      | hmCmdCmdLed => exact if_straight (if_straight (List.forall_mem_singleton.mpr rfl))
      | hmResetBoard => exact List.forall_mem_cons.mpr ⟨rfl, List.forall_mem_singleton.mpr rfl⟩
      | _ => exact List.forall_mem_nil _

theorem overwrite_tcurve (old : AxisSetting) (pin : HmCmdGetAxisSetting) :
    (old.overwrite pin).tcurve =
      if pin.flag &&& 0x10 ≠ 0 then decide (pin.tcurve ≠ 0) else old.tcurve := by
  unfold AxisSetting.overwrite
  dsimp only
  split_ifs <;> rfl

theorem withSetting_method (psrd : StepInfo) (pin : HmCmdGetAxisSetting) :
    (psrd.withSetting (psrd.setting.overwrite pin)).method =
      if pin.flag &&& 0x10 ≠ 0 then if pin.tcurve ≠ 0 then .tCurve else .sCurve
      else psrd.method := by
  unfold StepInfo.withSetting
  dsimp only
  rw [overwrite_tcurve]
  split
  · simp
  · unfold StepInfo.setting
    cases psrd.method <;> rfl

theorem getAxisSetting_get {preq answer : HmCmdReq}
    (action : sys.getAxisSetting preq = .ok (sys', answer)) :
    let pin := HmCmdGetAxisSetting.ofInput preq.input
    sys'.sAxisInfo[idx] =
      if preq.inputLen = 24 ∧ pin.bget = 0 ∧ pin.axis.toNat = idx then
        sys.sAxisInfo[idx].withSetting (sys.sAxisInfo[idx].setting.overwrite pin)
      else sys.sAxisInfo[idx] := by
  intro pin
  by_cases right : preq.inputLen = 24
  · have action := (System.sized_eq right).symm.trans action
    by_cases set : pin.bget = 0
    · rw [if_neg (not_not.mpr set)] at action
      obtain ⟨rfl, -⟩ := Prod.mk.inj (Except.ok.inj action)
      simp only [right, set, true_and]
      exact System.writeSetting_get pin idx
    · rw [if_pos set] at action
      obtain ⟨rfl, -⟩ := Prod.mk.inj (Except.ok.inj action)
      simp only [set, false_and, and_false, if_false]
  · have action := (System.sized_ne right).symm.trans action
    obtain ⟨rfl, -⟩ := Prod.mk.inj (Except.ok.inj action)
    simp only [right, false_and, if_false]

theorem request_curve {inputs : Inputs} {preq answer : HmCmdReq}
    (regular : sys.sAxisInfo[idx].Regular)
    (action : sys.hmCmdExcCk inputs preq = .ok (sys', answer)) :
    let pin := HmCmdGetAxisSetting.ofInput preq.input
    if HmCmds.ofCode preq.ncmd = some .hmCmdGetAxisSetting ∧ preq.inputLen = 24 ∧ pin.bget = 0 ∧
        pin.axis.toNat = idx then
      sys'.sAxisInfo[idx] = sys.sAxisInfo[idx].withSetting (sys.sAxisInfo[idx].setting.overwrite pin)
    else sys'.sAxisInfo[idx].method = sys.sAxisInfo[idx].method := by
  intro pin
  have follows := System.hmCmdExcCk_follows action idx
  by_cases settings : HmCmds.ofCode preq.ncmd = some .hmCmdGetAxisSetting
  · unfold System.hmCmdExcCk at action
    rw [settings] at action
    have get : sys'.sAxisInfo[idx] = if _ then _ else _ := getAxisSetting_get action
    rw [get]
    simp only [settings, true_and]
    split
    · rfl
    · rfl
  · rw [if_neg fun writes => settings writes.1]
    exact calls_method regular (request_straight settings) follows

theorem recurves_iff {e : Event} (regular : psrd.Regular) (action : psrd.exec e = .ok t) :
    t.method ≠ psrd.method ↔ psrd.recurves e := by
  by_cases recurves : psrd.recurves e
  · refine iff_of_true ?_ recurves
    cases e with
    | setStopMode bsudCW bsudCCW bsudHome bTcurve =>
        obtain rfl := Except.ok.inj action
        exact of_decide_eq_true recurves
    | setAxisCurve m =>
        obtain rfl := Except.ok.inj action
        exact of_decide_eq_true recurves
    | _ => cases recurves
  · refine iff_of_false (not_not.mpr ?_) recurves
    exact StepInfo.exec_method regular (Bool.eq_false_iff.mpr recurves) action

theorem method_ne_iff (regular : sys.sAxisInfo[idx].Regular) (move : FirmwareStep sys event sys') :
    sys'.sAxisInfo[idx].method ≠ sys.sAxisInfo[idx].method ↔ event.Recurves sys idx := by
  cases event with
  | request inputs preq =>
      obtain ⟨answer, action⟩ := System.map_fst_ok move
      have curve := request_curve regular action
      dsimp only at curve
      unfold FirmwareEvent.Recurves
      split at curve
      · rename_i writes
        rw [curve, withSetting_method]
        simp only [writes, true_and]
        split
        · rename_i flagged
          exact (and_iff_right flagged).symm
        · rename_i plain
          exact iff_of_false (not_not.mpr rfl) fun asks => plain asks.1
      · rename_i other
        exact iff_of_false (not_not.mpr curve) fun asks =>
          other ⟨asks.1, asks.2.1, asks.2.2.1, asks.2.2.2.1⟩
  | axis i e =>
      obtain ⟨psrd, result, rfl⟩ := Except.ok_of_map move
      change (sys.sAxisInfo.put i psrd)[idx].method ≠ _ ↔ i = idx ∧ _
      rw [Vector.getElem_put]
      split
      · rename_i same
        subst same
        rw [and_iff_right rfl]
        exact recurves_iff regular result
      · rename_i apart
        exact iff_of_false (not_not.mpr rfl) fun asks => apart asks.1

theorem recurves_axisState (regular : sys.sAxisInfo[idx].Regular)
    (move : FirmwareStep sys event sys') (asks : event.Recurves sys idx) :
    sys'.sAxisInfo[idx].axisState = sys.sAxisInfo[idx].axisState := by
  cases event with
  | request inputs preq =>
      obtain ⟨answer, action⟩ := System.map_fst_ok move
      have curve := request_curve regular action
      dsimp only at curve
      rw [if_pos ⟨asks.1, asks.2.1, asks.2.2.1, asks.2.2.2.1⟩] at curve
      rw [curve]
      rfl
  | axis i e =>
      obtain ⟨psrd, result, rfl⟩ := Except.ok_of_map move
      obtain ⟨rfl, recurves⟩ := asks
      change (sys.sAxisInfo.put i psrd)[i].axisState = _
      rw [Vector.getElem_put, if_pos rfl]
      cases e with
      | setStopMode bsudCW bsudCCW bsudHome bTcurve =>
          cases result
          rfl
      | setAxisCurve m =>
          cases result
          unfold StepInfo.hmStepMotorSetAxisCurve
          split <;> rfl
      | _ => cases recurves

def System.Regular (sys : System) : Prop := ∀ idx : Fin hmMaxAxis, sys.sAxisInfo[idx].Regular

theorem System.Regular.step (regular : sys.Regular) (move : FirmwareStep sys event sys') :
    sys'.Regular := fun idx =>
  (System.exec_follows move idx).invariant StepInfo.Regular (regular idx)
    fun _ _ _ => StepInfo.Regular.call

theorem System.regular_init : System.init.Regular :=
  firmware_regular (.nil : Run FirmwareStep System.init [] System.init)

abbrev PermittedStep : System → FirmwareEvent → System → Prop :=
  Guarded (fun sys event => event.Permitted sys) FirmwareStep

theorem keepsCurve_iff (regular : sys.Regular) :
    KeepsCurve sys event sys' ↔ PermittedStep sys event sys' := by
  unfold KeepsCurve PermittedStep Guarded FirmwareEvent.Permitted
  rw [and_comm]
  refine and_congr_left fun move => forall_congr' fun idx => imp_congr_right fun _ => ?_
  rw [← method_ne_iff (regular idx) move]
  exact not_not.symm

structure CurveHeld (note : System × Vector Method hmMaxAxis) : Prop where
  regular : note.1.Regular
  held : ∀ idx : Fin hmMaxAxis, note.1.sAxisInfo[idx].axisState ≠ .asStoped →
    note.1.sAxisInfo[idx].method = note.2[idx]

theorem CurveHeld.step {before after : System × Vector Method hmMaxAxis}
    (inv : CurveHeld before) (move : Watched KeepsCurve curveAtStart before event after) :
    CurveHeld after := by
  obtain ⟨⟨step, keeps⟩, note⟩ := move
  refine ⟨inv.regular.step step, fun idx moving => ?_⟩
  have noted : after.2[idx] =
      if before.1.sAxisInfo[idx].axisState = .asStoped then before.1.sAxisInfo[idx].method
      else before.2[idx] := by
    rw [note]
    simp [curveAtStart]
  rw [noted]
  split
  · rename_i stopped
    -- a step that gives a stopped axis another curve leaves it stopped
    by_contra other
    have asks := (method_ne_iff (inv.regular idx) step).mp other
    exact moving ((recurves_axisState (inv.regular idx) step asks).trans stopped)
  · rename_i before
    rw [keeps idx before]
    exact inv.held idx before

/-- The runs of the firmware in which the curve of an axis changes only while the axis is stopped are
those that ask no axis under way for another curve, and in them every axis under way has the curve
with which its motion was planned. -/
theorem curve_kept_iff (events : List FirmwareEvent) (sys : System) :
    (Run KeepsCurve System.init events sys ↔ Run PermittedStep System.init events sys) ∧
    ∀ curves curves', Run (Watched KeepsCurve curveAtStart) (System.init, curves) events
        (sys, curves') →
      ∀ idx : Fin hmMaxAxis, sys.sAxisInfo[idx].axisState ≠ .asStoped →
        sys.sAxisInfo[idx].method = curves'[idx] := by
  refine ⟨⟨fun run => ?_, fun run => ?_⟩, fun curves curves' run => ?_⟩
  · exact run.refine System.Regular System.regular_init (fun _ _ _ regular move =>
      regular.step move.1) fun _ _ _ regular => (keepsCurve_iff regular).mp
  · exact run.refine System.Regular System.regular_init (fun _ _ _ regular move =>
      regular.step move.2) fun _ _ _ regular => (keepsCurve_iff regular).mpr
  · refine (run.invariant CurveHeld ⟨System.regular_init, fun idx moving => ?_⟩
      fun _ _ _ => CurveHeld.step).held
    rw [init_axis] at moving
    exact absurd rfl moving

theorem freeRun_curve : ∃ sys curves,
    Run (Watched KeepsCurve curveAtStart) (System.init, Vector.replicate hmMaxAxis .sCurve)
        [.axis 0 (.startFreeRun .clear 1000 1000)] (sys, curves) ∧
      sys.sAxisInfo[(0 : Fin hmMaxAxis)].axisState = .asRuning ∧
      sys.sAxisInfo[(0 : Fin hmMaxAxis)].method = curves[(0 : Fin hmMaxAxis)] := by
  obtain ⟨sys, action, test⟩ := ok_of_any
    (show (System.init.exec (.axis 0 (.startFreeRun .clear 1000 1000))).toOption.any
      (fun (sys : System) => decide (sys.sAxisInfo[(0 : Fin hmMaxAxis)].axisState = .asRuning)) by
      decide +kernel)
  have running := of_decide_eq_true test
  have permitted : PermittedStep System.init (.axis 0 (.startFreeRun .clear 1000 1000)) sys := by
    refine ⟨fun idx moving => ?_, action⟩
    rw [init_axis] at moving
    exact absurd rfl moving
  obtain ⟨kept, held⟩ := curve_kept_iff [.axis 0 (.startFreeRun .clear 1000 1000)] sys
  obtain ⟨curves, run⟩ := (kept.mpr (.cons permitted .nil)).watched
    (Vector.replicate hmMaxAxis Method.sCurve)
  refine ⟨sys, curves, run, running, held _ curves run 0 ?_⟩
  rw [running]
  decide

theorem curve_changed_under_way : ∃ sys sys',
    FirmwareStep System.init (.axis 0 (.startFreeRun .clear 1000 1000)) sys ∧
      FirmwareStep sys (.request .clear (clearSettings 0x10)) sys' ∧
      sys.sAxisInfo[(0 : Fin hmMaxAxis)].axisState = .asRuning ∧
      sys.sAxisInfo[(0 : Fin hmMaxAxis)].method = .tCurve ∧
      sys'.sAxisInfo[(0 : Fin hmMaxAxis)].method = .sCurve ∧
      ¬Run KeepsCurve System.init [.axis 0 (.startFreeRun .clear 1000 1000),
        .request .clear (clearSettings 0x10)] sys' := by
  obtain ⟨sys, start, test⟩ := ok_of_any
    (show (System.init.exec (.axis 0 (.startFreeRun .clear 1000 1000))).toOption.any
      (fun (sys : System) => decide (sys.sAxisInfo[(0 : Fin hmMaxAxis)].axisState = .asRuning ∧
          sys.sAxisInfo[(0 : Fin hmMaxAxis)].method = .tCurve) &&
        (sys.exec (.request .clear (clearSettings 0x10))).toOption.any fun (sys' : System) =>
          decide (sys'.sAxisInfo[(0 : Fin hmMaxAxis)].method = .sCurve)) by
      decide +kernel)
  obtain ⟨before, after⟩ := Bool.and_eq_true_iff.mp test
  obtain ⟨running, straight⟩ := of_decide_eq_true before
  obtain ⟨sys', set, bent⟩ := ok_of_any after
  have bent := of_decide_eq_true bent
  refine ⟨sys, sys', start, set, running, straight, bent, fun kept => ?_⟩
  cases kept with
  | cons first rest =>
      obtain rfl := Except.ok.inj (start.symm.trans first.1)
      cases rest with
      | cons second last =>
          cases last
          have same := second.2 0 (by rw [running]; decide)
          cases straight.symm.trans (same.symm.trans bent)

end Curve

end MotionBoard
