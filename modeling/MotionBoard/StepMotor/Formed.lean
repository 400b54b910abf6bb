import MotionBoard.StepMotor.FirstDelay
import MotionBoard.StepMotor.Passes

namespace MotionBoard
open Transition

def FormedUnit (unit : DmaUnit) : Prop := ∃ delay : UInt16, 2 ≤ delay ∧ unit = stepUnit delay

def Event.FormsUnits : Event → Prop
  | .move _ step accel _ speed =>
      magnitude step = 0 ∨ magnitude step ≠ 1 ∧ LongStart accel speed.toNat
  | _ => False

namespace StepInfo

def Formed (psrd : StepInfo) : Prop :=
  ∀ i : Fin hmDmaBufBlockSz, ∀ unit ∈ psrd.dmaBuf[i].content, FormedUnit unit

section Unit
variable {psrd p t : StepInfo} {e : Event} {rcr : UInt16}

theorem firstUnit_formed_iff {delay : UInt16} :
    FormedUnit (delay - 1, rcr, delay / 2) ↔ 2 ≤ delay ∧ rcr = 0 := by
  constructor
  · rintro ⟨other, long, same⟩
    have repetition : rcr = 0 := congrArg (fun unit : DmaUnit => unit.2.1) same
    subst repetition
    obtain rfl := stepUnit_inj (show stepUnit delay = stepUnit other from same)
    exact ⟨long, rfl⟩
  · rintro ⟨long, rfl⟩
    exact ⟨delay, long, rfl⟩

theorem delays_formed {delays : List UInt16} (long : ∀ delay ∈ delays, 2 ≤ delay) :
    ∀ unit ∈ delays.map stepUnit, FormedUnit unit := by
  rw [List.forall_mem_map]
  intro delay member
  exact ⟨delay, long delay member, rfl⟩

theorem formed_iff :
    psrd.Formed ↔ ∀ unit ∈ psrd.curBuf.content ++ psrd.nextBuf.content, FormedUnit unit := by
  have either (i j : Fin hmDmaBufBlockSz) : j = i ∨ j = i + 1 := by
    revert i j
    decide
  rw [List.forall_mem_append]
  constructor
  · intro formed
    exact ⟨formed psrd.dmaBufIdx, formed (psrd.dmaBufIdx + 1)⟩
  · rintro ⟨cur, next⟩ i
    rcases either psrd.dmaBufIdx i with rfl | rfl
    · exact cur
    · exact next

theorem Formed.setBuf {i : Fin hmDmaBufBlockSz} {buf : DmaBufInfo} (formed : psrd.Formed)
    (filled : ∀ unit ∈ buf.content, FormedUnit unit) : (psrd.setBuf i buf).Formed := by
  intro j
  by_cases same : i = j
  · subst same
    rw [setBuf_get]
    exact filled
  · rw [setBuf_get_ne _ _ _ same]
    exact formed j

theorem formed_of_dmaBuf (formed : psrd.Formed) (same : t.dmaBuf = psrd.dmaBuf) : t.Formed := by
  unfold Formed
  rw [same]
  exact formed

theorem formed_init (idx : Fin hmMaxAxis) : (hmStepMotorInit idx).Formed := by
  intro i
  have empty : (hmStepMotorInit idx).dmaBuf[i].units = 0 := by
    unfold hmStepMotorInit
    simp [DmaBufInfo.units]
  rw [DmaBufInfo.content_of_units empty]
  exact List.forall_mem_nil _

end Unit

section Step
variable {psrd p t : StepInfo} {e : Event} {rcr : UInt16}

theorem Formed.refill (regular : psrd.Regular) (formed : psrd.Formed)
    (action : psrd.exec .halfTransfer = .ok t) : t.Formed := by
  obtain ⟨u, fill, rfl⟩ := Except.ok_of_map action
  by_cases empty : psrd.nextBuf.valid = 0
  · rw [hmDmaFillNextBuf_emptied empty] at fill
    obtain ⟨v, update, rfl⟩ := Except.ok_of_map fill
    have phase : psrd.emptied.InPhase psrd.emptied.stepsTaken := regular.phase
    have long := (hmDmaUpdate_returns_iff phase emptied_whole).mp ⟨v, update⟩
    have content := hmDmaUpdate_content emptied_whole update
    rw [DmaBufInfo.content_of_units emptied_units, List.nil_append] at content
    have cleared : psrd.emptied.Formed := by
      refine formed.setBuf ?_
      rw [DmaBufInfo.content_of_units (by simp [DmaBufInfo.units])]
      exact List.forall_mem_nil _
    obtain ⟨r, taken, buf, same⟩ := (hmDmaUpdate_ok emptied_whole update).frame
    have bufs : v.dmaBuf = (psrd.emptied.setBuf (psrd.dmaBufIdx + 1) buf).dmaBuf := by
      rw [same]
      rfl
    rw [same, setBuf_get] at content
    refine formed_of_dmaBuf (cleared.setBuf ?_) bufs
    rw [content]
    exact delays_formed long
  · obtain rfl := Except.ok.inj ((hmDmaFillNextBuf_full empty).symm.trans fill)
    exact formed_of_dmaBuf formed rfl

theorem Formed.complete (formed : psrd.Formed) (check : psrd.hmDmaCk = .ok t) : t.Formed := by
  have cleared : (psrd.setBuf psrd.dmaBufIdx { psrd.curBuf with valid := 0 }).Formed :=
    formed.setBuf (formed psrd.dmaBufIdx)
  rw [hmDmaCk_eq] at check
  split at check
  · split at check
    · cases check
    · obtain rfl := Except.ok.inj check
      exact formed_of_dmaBuf cleared rfl
  · obtain rfl := Except.ok.inj check
    exact formed_of_dmaBuf cleared rfl

theorem Formed.step (regular : psrd.Regular) (formed : psrd.Formed) (idle : psrd.starts e = false)
    (action : psrd.exec e = .ok t) : t.Formed := by
  cases exec_effect action with
  | pulse =>
      obtain ⟨tim, motor, pdma, same, -⟩ := psrd.burst_frame
      exact formed_of_dmaBuf formed (by rw [same])
  | refill => exact formed.refill regular action
  | complete check => exact formed_of_dmaBuf (formed.complete check) rfl
  | launch starts => cases idle.symm.trans starts
  | smooth _ tuned => exact formed_of_dmaBuf formed ((stopSmooth_dmaBuf _).trans tuned.dmaBuf)
  | sudden _ tuned =>
      obtain ⟨pos, same⟩ := stopSundden_frame _
      exact formed_of_dmaBuf formed ((congrArg StepInfo.dmaBuf same).trans tuned.dmaBuf)
  | place => exact formed_of_dmaBuf formed rfl
  | tune _ _ tuned => exact formed_of_dmaBuf formed tuned.dmaBuf

theorem starts_formed_iff (starts : psrd.starts e) (action : psrd.exec e = .ok t) :
    t.Formed ↔ e.FormsUnits := by
  have wrote : psrd.wrote e = t.curBuf.content ++ t.nextBuf.content := by
    unfold wrote
    rw [action]
    simp only [starts, if_true]
  rw [formed_iff, ← wrote]
  cases plan : psrd.planned e with
  | none =>
      rw [wrote, (unplanned_writes starts plan action).1]
      cases e with
      | move io step accel decel speed =>
          have few : magnitude step = 1 ∨ magnitude step = 0 := by
            by_contra many
            cases (if_neg many).symm.trans plan
          change (∀ unit ∈ (if magnitude step = 1 then [(999, 1, 500)] else []), FormedUnit unit) ↔
            magnitude step = 0 ∨ magnitude step ≠ 1 ∧ LongStart accel speed.toNat
          rcases few with one | none_
          · rw [if_pos one, one, List.forall_mem_singleton]
            refine iff_of_false (fun formed => ?_) (by simp)
            have repeated : (1 : UInt16) = 0 :=
              (firstUnit_formed_iff.mp (show FormedUnit (1000 - 1, 1, 1000 / 2) from formed)).2
            exact absurd repeated (by decide)
          · rw [if_neg (by rw [none_]; decide)]
            exact iff_of_true (List.forall_mem_nil _) (.inl none_)
      | startHoming | startFreeRun | startRun => cases plan
      | _ => cases starts
  | some begins =>
      obtain ⟨p, rcr⟩ := begins
      obtain ⟨q, fill, -⟩ := starts_prefill starts plan action
      obtain ⟨cleared, phase⟩ := planned_ready plan
      have long := (prefill_returns_iff cleared phase).mp ⟨q, fill⟩
      rw [planned_wrote starts plan action, List.forall_mem_cons,
        and_iff_left (delays_formed long), firstUnit_formed_iff]
      obtain ⟨io, step, accel, decel, speed, rfl, few, -, rfl⟩ |
        ⟨_, io, accel, speed, event, -, rfl⟩ := planned_cases plan
      · rw [stepDelay_long_iff plan rfl]
        obtain ⟨many, some_⟩ := not_or.mp few
        simp [Event.FormsUnits, many, some_]
      · have run : ¬ e.FormsUnits := by
          obtain ⟨rfl, -⟩ | ⟨rfl, -⟩ | ⟨rfl, -⟩ := event <;> exact id
        exact iff_of_false (fun formed => absurd formed.2 (by decide)) run

end Step

/-- In a run in which every start that goes ahead is a move of no steps or of at least two steps with
a first delay that makes a pulse, every unit in the buffers is well formed, and the first start that
is not leaves one that is not. -/
theorem units_formed {idx : Fin hmMaxAxis} {es : List Event} {psrd : StepInfo}
    (run : Run (Guarded (fun psrd e => psrd.starts e → e.FormsUnits) Step) (hmStepMotorInit idx) es
      psrd) :
    psrd.Formed ∧ ∀ e t, Step psrd e t → (t.Formed ↔ (psrd.starts e → e.FormsUnits)) := by
  have steps {s t : StepInfo} {e : Event} (regular : s.Regular) (formed : s.Formed)
      (action : Step s e t) : t.Formed ↔ (s.starts e → e.FormsUnits) := by
    cases starts : s.starts e with
    | false => exact iff_of_true (formed.step regular starts action) nofun
    | true =>
        rw [starts_formed_iff starts action]
        exact ⟨fun forms _ => forms, fun forms => forms rfl⟩
  obtain ⟨regular, formed⟩ : psrd.Regular ∧ psrd.Formed := by
    refine run.invariant (fun psrd => psrd.Regular ∧ psrd.Formed)
      ⟨regular_init idx, formed_init idx⟩ ?_
    rintro s e t ⟨regular, formed⟩ ⟨forms, action⟩
    exact ⟨regular.step action, (steps regular formed action).mpr forms⟩
  exact ⟨formed, fun e t action => steps regular formed action⟩

theorem move_formed : ∃ t,
    Run Step (hmStepMotorInit 0) [.move .clear 10 20000 20000 1000] t ∧ t.Formed := by
  obtain ⟨t, action, -⟩ := ok_of_any
    (show ((hmStepMotorInit 0).exec (.move .clear 10 20000 20000 1000)).toOption.any
      fun _ => true by decide +kernel)
  have forms : (Event.move .clear 10 20000 20000 1000).FormsUnits :=
    .inr ⟨by decide, .inl (by decide)⟩
  exact ⟨t, .cons action .nil, (units_formed (.cons ⟨fun _ => forms, action⟩ .nil)).1⟩

theorem single_step_repeats : ∃ t, Run Step (hmStepMotorInit 0) [.move .clear 1 20000 20000 1000] t ∧
    t.curBuf.content = [(999, 1, 500)] ∧ ¬t.Formed := by
  obtain ⟨t, action, units⟩ := ok_of_any
    (show ((hmStepMotorInit 0).exec (.move .clear 1 20000 20000 1000)).toOption.any
      fun t => decide (t.curBuf.content = [(999, 1, 500)]) by decide +kernel)
  have starts : (hmStepMotorInit 0).starts (.move .clear 1 20000 20000 1000) := by decide +kernel
  refine ⟨t, .cons action .nil, of_decide_eq_true units, ?_⟩
  rw [starts_formed_iff starts action]
  rintro (none_ | ⟨many, -⟩)
  · exact absurd none_ (by decide)
  · exact many rfl

end StepInfo

end MotionBoard
