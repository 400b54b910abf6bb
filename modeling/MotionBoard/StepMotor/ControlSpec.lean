import MotionBoard.Lib.TwoBuffer
import MotionBoard.StepMotor.Control
import MotionBoard.StepMotor.RampSpec
import Mathlib.Algebra.Ring.Int.Defs

namespace MotionBoard
open TwoBuffer

namespace StepInfo

/-- What the step counters ask for; `HM_INVALID_STEP` steps never end. -/
def order (psrd : StepInfo) : Option Order :=
  if psrd.stepsRequest = hmInvalidStep then none
  else some ⟨psrd.stepsRequest.toNat, psrd.stepsTaken.toNat, psrd.stepsActual.toNat⟩

def feed (psrd : StepInfo) : Feed where
  order := psrd.order
  cur := psrd.curBuf.units
  next := if psrd.nextBuf.valid = 0 then none else some psrd.nextBuf.units

def Whole (psrd : StepInfo) : Prop := ∀ i : Fin hmDmaBufBlockSz, psrd.dmaBuf[i].Whole

section Buffers
variable {psrd : StepInfo} {i : Fin hmDmaBufBlockSz} {buf : DmaBufInfo}

@[simp] theorem setBuf_self : psrd.setBuf i psrd.dmaBuf[i] = psrd := by
  simp [setBuf]

theorem Whole.setBuf (whole : psrd.Whole) (buffer : buf.Whole) : (psrd.setBuf i buf).Whole := by
  intro j
  by_cases same : i = j
  · subst same
    rw [setBuf_get]
    exact buffer
  · rw [setBuf_get_ne _ _ _ same]
    exact whole j

theorem feed_next_eq_none : psrd.feed.next = none ↔ psrd.nextBuf.valid = 0 := by
  unfold feed
  dsimp only
  split <;> simp [*]

theorem feed_next_of_valid (valid : psrd.nextBuf.valid ≠ 0) :
    psrd.feed.next = some psrd.nextBuf.units := if_neg valid

end Buffers

section FillNextBuf
variable {psrd psrd' : StepInfo}

structure FilledNext (psrd psrd' : StepInfo) : Prop where
  frame : ∃ (r : StepInfo) (taken : UInt32) (fill : UInt16) (buf : DmaBufInfo),
    psrd' = { psrd.withRamp r with stepsTaken := taken, dmaFill := fill }.setBuf
      (psrd.dmaBufIdx + 1) buf
  whole : psrd'.Whole
  valid : psrd'.nextBuf.valid ≠ 0
  feed : psrd'.feed =
    if psrd.nextBuf.valid = 0 then psrd.feed.fill hmDmaBufSize else psrd.feed
  phase : psrd.InPhase psrd.stepsTaken → psrd'.InPhase psrd'.stepsTaken

def emptied (psrd : StepInfo) : StepInfo :=
  psrd.setBuf (psrd.dmaBufIdx + 1) { psrd.nextBuf with dmaBufLen := 0 }

theorem emptied_get : psrd.emptied.dmaBuf[psrd.dmaBufIdx + 1] =
    { psrd.nextBuf with dmaBufLen := 0 } := setBuf_get _ _ _

theorem emptied_units : (psrd.emptied.dmaBuf[psrd.dmaBufIdx + 1]).units = 0 := by
  rw [emptied_get]
  simp [DmaBufInfo.units]

theorem emptied_whole : (psrd.emptied.dmaBuf[psrd.dmaBufIdx + 1]).Whole := by
  rw [emptied_get]
  simp [DmaBufInfo.Whole, DmaBufInfo.units]

theorem emptied_refill :
    psrd.emptied.refill (psrd.dmaBufIdx + 1) = psrd.feed.quota hmDmaBufSize := by
  unfold refill produced Feed.quota
  have order' : psrd.feed.order = psrd.order := rfl
  rw [emptied_units, order']
  unfold order
  change (if psrd.stepsRequest = _ then _ else _) = _
  split <;> rfl

theorem hmDmaFillNextBuf_emptied (empty : psrd.nextBuf.valid = 0) : psrd.hmDmaFillNextBuf =
    psrd.emptied.hmDmaUpdate (psrd.dmaBufIdx + 1) >>= fun next =>
      .ok { next with dmaFill := next.dmaFill + 1 } :=
  if_pos empty

theorem hmDmaFillNextBuf_full (full : psrd.nextBuf.valid ≠ 0) : psrd.hmDmaFillNextBuf = .ok psrd :=
  if_neg full

theorem hmDmaFillNextBuf_ok (whole : psrd.Whole) (action : psrd.hmDmaFillNextBuf = .ok psrd') :
    FilledNext psrd psrd' := by
  by_cases empty : psrd.nextBuf.valid = 0
  · rw [hmDmaFillNextBuf_emptied empty] at action
    obtain ⟨next, update, filled⟩ := Except.ok_of_map action
    have updated := hmDmaUpdate_ok emptied_whole update
    obtain ⟨⟨r, taken, buf, rfl⟩, whole', valid, units, count, phase⟩ := updated
    rw [emptied_units, emptied_refill, Nat.zero_add, setBuf_get] at units
    rw [emptied_refill] at count
    rw [setBuf_get] at whole' valid
    have same : psrd' = { psrd.withRamp r with
        stepsTaken := taken, dmaFill := psrd.dmaFill + 1 }.setBuf
          (psrd.dmaBufIdx + 1) buf := by
      rw [filled]
      simp [emptied, setBuf, withRamp]
    have next : psrd'.nextBuf = buf := by rw [same]; exact setBuf_get _ _ _
    have cur : psrd'.curBuf = psrd.curBuf := by
      rw [same]; exact setBuf_get_ne _ _ _ (succ_idx_ne _)
    refine ⟨⟨r, taken, _, buf, same⟩, ?_, ?_, ?_, ?_⟩
    · rw [same]
      have ramped : { psrd.withRamp r with
          stepsTaken := taken, dmaFill := psrd.dmaFill + 1 }.Whole := whole
      exact ramped.setBuf whole'
    · rw [next, valid]
      decide
    · have order' : psrd'.order = (psrd.feed.fill hmDmaBufSize).order := by
        have same' : psrd'.order = { psrd with stepsTaken := taken }.order := by rw [same]; rfl
        rw [same']
        change _ = psrd.order.map _
        change taken.toNat = if psrd.stepsRequest = hmInvalidStep then _ else _ at count
        unfold order
        dsimp only
        split
        · rfl
        · rename_i finite
          rw [if_neg finite] at count
          simp only [Option.map_some, count]
          rfl
      rw [if_pos empty]
      unfold feed
      rw [cur, next, order', units, if_neg (by rw [valid]; decide)]
      rfl
    · rw [filled]
      exact phase
  · rw [hmDmaFillNextBuf_full empty] at action
    obtain rfl := Except.ok.inj action
    exact ⟨⟨psrd, psrd.stepsTaken, psrd.dmaFill, psrd.nextBuf, setBuf_self.symm⟩, whole, empty,
      (if_neg empty).symm, id⟩

theorem hmDmaFillNextBuf_error {failure : Halt}
    (action : psrd.hmDmaFillNextBuf = .error failure) :
    failure ≠ .outOfBounds ∧ (psrd.InPhase psrd.stepsTaken → failure = .badDelay) := by
  by_cases empty : psrd.nextBuf.valid = 0
  · rw [hmDmaFillNextBuf_emptied empty] at action
    obtain update | ⟨_, -, done⟩ := Except.error_of_bind action
    · exact hmDmaUpdate_error emptied_whole update
    · cases done
  · cases (hmDmaFillNextBuf_full empty).symm.trans action

end FillNextBuf

section Position
variable (psrd : StepInfo)

def heading (psrd : StepInfo) : Int := if psrd.dir = .rdCW then 1 else -1

theorem promote_eq_ofInt (value : UInt16) : promote value = Int32.ofInt value.toNat := by
  rw [← promote_toInt, Int32.ofInt_toInt]

theorem movePos_eq (steps : UInt16) :
    psrd.movePos steps = psrd.pos + Int32.ofInt (psrd.heading * steps.toNat) := by
  unfold movePos heading
  rw [promote_eq_ofInt]
  split
  · rw [one_mul]
  · rw [neg_one_mul, Int32.ofInt_neg, Int32.sub_eq_add_neg]

end Position

section DmaCk
variable {psrd psrd' : StepInfo}

/-- The completion of a buffer does not let `steps_actual` wrap around. -/
def NoWrap (psrd : StepInfo) : Prop := ∀ o ∈ psrd.feed.order, o.done + psrd.feed.cur < 2 ^ 32

theorem completeBuf_curBuf (psrd : StepInfo) : psrd.completeBuf.curBuf = { psrd.curBuf with valid := 0 } :=
  curBuf_setBuf_cur _ _

theorem completeBuf_nextBuf (psrd : StepInfo) : psrd.completeBuf.nextBuf = psrd.nextBuf := nextBuf_setBuf_cur _ _

theorem units_toNat : (psrd.curBuf.dmaBufLen / 3).toNat = psrd.feed.cur := rfl

theorem completeBuf_stepsActual_toNat (room : psrd.NoWrap)
    (finite : psrd.stepsRequest ≠ hmInvalidStep) :
    psrd.completeBuf.stepsActual.toNat = psrd.stepsActual.toNat + psrd.feed.cur := by
  have bound := room _ (if_neg finite)
  change (psrd.stepsActual + (psrd.curBuf.dmaBufLen / 3).toUInt32).toNat = _
  rw [UInt32.toNat_add, UInt16.toNat_toUInt32, units_toNat]
  exact Nat.mod_eq_of_lt bound

theorem continues_iff (room : psrd.NoWrap) :
    psrd.completeBuf.stepsActual < psrd.completeBuf.stepsRequest ∨
      psrd.completeBuf.stepsRequest = hmInvalidStep ↔ psrd.feed.More := by
  have requested : psrd.completeBuf.stepsRequest = psrd.stepsRequest := rfl
  have order' : psrd.feed.order = psrd.order := rfl
  unfold Feed.More
  rw [requested, order']
  by_cases endless : psrd.stepsRequest = hmInvalidStep
  · simp [endless, order]
  · rw [UInt32.lt_iff_toNat_lt, completeBuf_stepsActual_toNat room endless]
    simp [endless, order]

theorem hmDmaSetup_false : psrd.hmDmaSetup false =
    { psrd with
      pdma.enabled := false
      pdma.cndtr := if psrd.pdma.enabled then psrd.pdma.cndtr else psrd.curBuf.dmaBufLen
      pdma.cmar := psrd.dmaBufIdx } := by
  unfold hmDmaSetup DmaChannel.writeCndtr
  split <;> rfl

def switched (psrd : StepInfo) : StepInfo :=
  { psrd with
    ptim.enabled := true
    pdma := { psrd.pdma with
      enabled := true
      cndtr := psrd.nextBuf.dmaBufLen
      cmar := psrd.dmaBufIdx + 1
      reload := psrd.nextBuf.dmaBufLen
      handed := psrd.pdma.handed + psrd.nextBuf.units }
    pos := psrd.movePos (psrd.curBuf.dmaBufLen / 3)
    stepsActual := psrd.stepsActual + (psrd.curBuf.dmaBufLen / 3).toUInt32
    dmaBuf := psrd.dmaBuf.set psrd.dmaBufIdx { psrd.curBuf with valid := 0 }
    dmaBufIdx := psrd.dmaBufIdx + 1
    dmaIrqIdx := psrd.dmaIrqIdx + 1 }

def finished (psrd : StepInfo) : StepInfo :=
  { psrd with
    ptim.enabled := false
    pdma.enabled := false
    pdma.cndtr := if psrd.pdma.enabled then psrd.pdma.cndtr else psrd.curBuf.dmaBufLen
    pdma.cmar := psrd.dmaBufIdx
    motor.led := false
    bstopping := false
    bdoHome := false
    axisState := .asStoped
    pos := psrd.movePos (psrd.curBuf.dmaBufLen / 3)
    stepsActual := psrd.stepsActual + (psrd.curBuf.dmaBufLen / 3).toUInt32
    dmaBuf := psrd.dmaBuf.set psrd.dmaBufIdx { psrd.curBuf with valid := 0 }
    dmaIrqIdx := psrd.dmaIrqIdx + 1 }

theorem switched_eq : psrd.completeBuf.switchBuf.countIrq = psrd.switched := by
  have next := psrd.completeBuf_nextBuf
  have frame (c : StepInfo) : c.switchBuf.countIrq =
      { c with
        ptim.enabled := true
        pdma := { c.pdma with
          enabled := true
          cndtr := c.nextBuf.dmaBufLen
          cmar := c.dmaBufIdx + 1
          reload := c.nextBuf.dmaBufLen
          handed := c.pdma.handed + c.nextBuf.units }
        dmaBufIdx := c.dmaBufIdx + 1
        dmaIrqIdx := c.dmaIrqIdx + 1 } := rfl
  rw [frame, next]
  rfl

theorem finished_eq : psrd.completeBuf.finishMotion.countIrq = psrd.finished := by
  have cur := psrd.completeBuf_curBuf
  have frame (c : StepInfo) : c.finishMotion.countIrq =
      { c with
        ptim.enabled := false
        pdma.enabled := false
        pdma.cndtr := if c.pdma.enabled then c.pdma.cndtr else c.curBuf.dmaBufLen
        pdma.cmar := c.dmaBufIdx
        motor.led := false
        bstopping := false
        bdoHome := false
        axisState := .asStoped
        dmaIrqIdx := c.dmaIrqIdx + 1 } := by
    unfold finishMotion
    rw [hmDmaSetup_false]
    rfl
  rw [frame, cur]
  rfl

theorem switched_feed (room : psrd.NoWrap) :
    psrd.switched.feed = psrd.feed.advance psrd.nextBuf.units := by
  have order' : psrd.switched.order =
      psrd.order.map fun o => { o with done := o.done + psrd.feed.cur } := by
    change StepInfo.order { psrd with stepsActual := psrd.completeBuf.stepsActual } = _
    unfold order
    dsimp only
    split
    · rfl
    · rename_i finite
      simp only [completeBuf_stepsActual_toNat room finite, Option.map_some]
  have cur : psrd.switched.curBuf = psrd.nextBuf := psrd.completeBuf_nextBuf
  have next : psrd.switched.nextBuf = { psrd.curBuf with valid := 0 } := by
    refine Eq.trans ?_ psrd.completeBuf_curBuf
    change psrd.completeBuf.dmaBuf[psrd.dmaBufIdx + 1 + 1] = _
    simp only [succ_succ_idx]
    rfl
  unfold feed
  rw [order', cur, next]
  rfl

theorem hmDmaCk_eq : psrd.hmDmaCk =
    if psrd.completeBuf.stepsActual < psrd.completeBuf.stepsRequest ∨
        psrd.completeBuf.stepsRequest = hmInvalidStep then
      if psrd.nextBuf.valid = 0 then .error .nextInvalid
      else .ok psrd.switched
    else .ok psrd.finished := by
  rw [← switched_eq, ← finished_eq]
  unfold hmDmaCk
  dsimp only
  rw [completeBuf_nextBuf]
  split
  · split <;> rfl
  · rfl

theorem hmDmaCk_ok (room : psrd.NoWrap) (action : psrd.hmDmaCk = .ok psrd') :
    (psrd.feed.More ∧ psrd.nextBuf.valid ≠ 0 ∧ psrd' = psrd.switched) ∨
    (¬ psrd.feed.More ∧ psrd' = psrd.finished) := by
  rw [← continues_iff room]
  rw [hmDmaCk_eq] at action
  split at action
  · rename_i more
    split at action
    · cases action
    · rename_i valid
      exact .inl ⟨more, valid, (Except.ok.inj action).symm⟩
  · rename_i last
    exact .inr ⟨last, (Except.ok.inj action).symm⟩

theorem hmDmaCk_error {failure : Halt} (action : psrd.hmDmaCk = .error failure) :
    failure = .nextInvalid ∧ psrd.nextBuf.valid = 0 := by
  rw [hmDmaCk_eq] at action
  split at action
  · split at action
    · rename_i valid
      exact ⟨(Except.error.inj action).symm, valid⟩
    · cases action
  · cases action

end DmaCk

end StepInfo

end MotionBoard
