import MotionBoard.StepMotor.Hang

namespace MotionBoard
open Transition

namespace StepInfo

/-- The passes of the loop of `hm_dma_update` that event `e` makes in state `psrd`, by the generator
and the step count before them. -/
def Executes (psrd : StepInfo) (e : Event) (r : StepInfo) (stepCount : UInt32) : Prop :=
  ∃ p i n buf, psrd.Generates e p i ∧ n < p.dmaBuf[i].passes ∧
    fillLoop n p p.dmaBuf[i] p.stepsTaken = .ok (r, buf, stepCount) ∧ ¬ r.Exhausted stepCount

/-- An invariant of the generator in passes that meet `Fit`, and a property of the delays they
arrive at. It is about nothing but the fields the generator reads and writes. -/
structure Keeps (Fit Inv : StepInfo → UInt32 → Prop) (Long : UInt16 → Prop) : Prop where
  shape : ∀ (o psrd : StepInfo) stepCount, Inv psrd stepCount → Inv (o.generating psrd) stepCount
  pass : ∀ (psrd : StepInfo) stepCount next, psrd.InPhase stepCount → ¬ psrd.Exhausted stepCount →
    Fit psrd stepCount → Inv psrd stepCount →
    psrd.nextDelay (psrd.countStep stepCount) = .ok next →
    Inv (next.1.recordDelay next.2) (psrd.countStep stepCount) ∧ Long next.2

section Loop
variable {Fit Inv : StepInfo → UInt32 → Prop} {Long : UInt16 → Prop}
  {psrd p q t r a : StepInfo} {e : Event} {rcr : UInt16} {stepCount : UInt32}
  {buf buf' : DmaBufInfo} {count : UInt32} {i : Fin hmDmaBufBlockSz} {n : Nat}

theorem Executes.inPhase (executes : psrd.Executes e r stepCount) (regular : psrd.Regular) :
    r.InPhase stepCount := by
  obtain ⟨p, i, n, buf, generates, le, loop, -⟩ := executes
  obtain ⟨whole, phase⟩ := generates.ready regular
  have room := fill_room whole
  exact (fillLoop_filled n whole (by omega) loop).phase phase

theorem Executes.more (executes : psrd.Executes e r stepCount) : ¬ r.Exhausted stepCount := by
  obtain ⟨_, _, _, _, -, -, -, more⟩ := executes
  exact more

theorem fillLoop_step (more : ¬ psrd.Exhausted stepCount) {next : StepInfo × UInt16}
    {buf' : DmaBufInfo} (step : psrd.nextDelay (psrd.countStep stepCount) = .ok next)
    (emit : next.1.emitDelay buf next.2 = .ok (next.1.recordDelay next.2, buf')) (n : Nat) :
    fillLoop (n + 1) psrd buf stepCount =
      fillLoop n (next.1.recordDelay next.2) buf' (psrd.countStep stepCount) := by
  rw [fillLoop, if_neg more]
  simp only [step, emit, bind, Except.bind]

theorem Keeps.fillLoop (keeps : Keeps Fit Inv Long) (n : Nat) (phase : psrd.InPhase stepCount)
    (inv : Inv psrd stepCount)
    (fits : ∀ k < n, ∀ r buf' count, StepInfo.fillLoop k psrd buf stepCount = .ok (r, buf', count) →
      ¬ r.Exhausted count → Fit r count)
    {result : StepInfo × DmaBufInfo × UInt32}
    (loop : StepInfo.fillLoop n psrd buf stepCount = .ok result) :
    Inv result.1 result.2.2 ∧ ∀ delay ∈ delays n psrd stepCount, Long delay := by
  induction n generalizing psrd buf stepCount with
  | zero =>
      obtain rfl := Except.ok.inj loop
      exact ⟨inv, nofun⟩
  | succ n ih =>
      by_cases ended : psrd.Exhausted stepCount
      · obtain rfl := Except.ok.inj ((fillLoop_ended ended).symm.trans loop)
        rw [delays_exhausted ended]
        exact ⟨inv, nofun⟩
      · obtain ⟨next, buf', step, emit, rest⟩ := fillLoop_pass ended loop
        -- the first pass fits, and the others are those of a loop with one pass less
        have fit := fits 0 (Nat.succ_pos n) psrd buf stepCount rfl ended
        obtain ⟨inv', long⟩ := keeps.pass psrd stepCount next phase ended fit inv step
        obtain ⟨last, step', phase'⟩ := nextDelay_inPhase phase ended
        obtain rfl := Except.ok.inj (step.symm.trans step')
        obtain ⟨inv'', long'⟩ := ih (phase'.recordDelay next.2) inv' (fun k less r b count loop =>
          fits (k + 1) (Nat.succ_lt_succ less) r b count ((fillLoop_step ended step emit k).trans loop))
          rest
        rw [delays_succ ended step, List.forall_mem_cons]
        exact ⟨inv'', long, long'⟩

theorem Keeps.of_generating (keeps : Keeps Fit Inv Long) (shape : t = t.generating q)
    (taken : t.stepsTaken = q.stepsTaken) (inv : Inv q q.stepsTaken) : Inv t t.stepsTaken := by
  rw [taken, shape]
  exact keeps.shape t q q.stepsTaken inv

theorem Keeps.hmDmaUpdate (keeps : Keeps Fit Inv Long) (whole : p.dmaBuf[i].Whole)
    (phase : p.InPhase p.stepsTaken) (inv : Inv p p.stepsTaken)
    (generates : psrd.Generates e p i) (fits : ∀ r count, psrd.Executes e r count → Fit r count)
    (update : p.hmDmaUpdate i = .ok q) :
    Inv q q.stepsTaken ∧
      ∀ delay ∈ delays (hmDmaBufSize - p.dmaBuf[i].units) p p.stepsTaken, Long delay := by
  obtain ⟨r, buf, count, loop, same⟩ := hmDmaUpdate_withBufs whole update
  have kept := keeps.fillLoop _ phase inv (fun k less r buf count loop more =>
    fits r count ⟨p, i, k, buf, generates, less, loop, more⟩) loop
  rw [DmaBufInfo.passes_of_whole whole] at kept
  have taken : q.stepsTaken = count := congrArg StepInfo.stepsTaken same
  rw [taken, same]
  exact ⟨keeps.shape (r.withBufs q.dmaBuf count) r count kept.1, kept.2⟩

theorem Keeps.starts (keeps : Keeps Fit Inv Long) (starts : psrd.starts e)
    (plan : psrd.planned e = some (p, rcr)) (inv : Inv p 1)
    (fits : ∀ r count, psrd.Executes e r count → Fit r count) (action : psrd.exec e = .ok t) :
    Inv t t.stepsTaken ∧ ∀ delay ∈ delays 199 p 1, Long delay := by
  obtain ⟨q, fill, rfl⟩ := starts_prefill starts plan action
  obtain ⟨cleared, phase⟩ := planned_ready plan
  obtain ⟨a, b, first, update, rest⟩ := prefill_steps fill
  have begun := firstUnit_begun cleared first
  have inv_a : Inv a a.stepsTaken := by
    obtain ⟨buf, rfl, -⟩ := firstUnit_ok cleared first
    exact keeps.shape (p.withBufs (p.dmaBuf.set 0 buf) 1) p 1 inv
  obtain ⟨inv_b, long₀⟩ := keeps.hmDmaUpdate begun.whole (begun.phase phase) inv_a
    (.first starts plan first) fits update
  obtain ⟨-, -, -, other, -, phase'⟩ := firstBuf_ok cleared first update
  have empty : b.dmaBuf[(1 : Fin hmDmaBufBlockSz)].units = 0 := by
    rw [other]
    exact cleared.units 1
  obtain ⟨shape, taken, -⟩ := q.launch_generating
  rw [begun.units, begun.same] at long₀
  rw [show 199 = 99 + 100 from rfl, begun.first update 100, List.forall_mem_append]
  rcases rest with ⟨more, second⟩ | ⟨stop, rfl⟩
  · have whole₁ : b.dmaBuf[(1 : Fin hmDmaBufBlockSz)].Whole := by
      rw [other]
      exact cleared.whole 1
    obtain ⟨inv_q, long₁⟩ := keeps.hmDmaUpdate whole₁ (phase' phase) inv_b
      (.second starts plan first update more) fits second
    rw [empty] at long₁
    exact ⟨keeps.of_generating shape taken inv_q, long₀, long₁⟩
  · rw [delays_of_rsStop (phase' phase) stop]
    exact ⟨keeps.of_generating shape taken inv_b, long₀, nofun⟩

theorem Keeps.refill (keeps : Keeps Fit Inv Long) (regular : psrd.Regular)
    (inv : Inv psrd psrd.stepsTaken)
    (fits : ∀ r count, psrd.Executes .halfTransfer r count → Fit r count)
    (action : psrd.exec .halfTransfer = .ok t) :
    Inv t t.stepsTaken ∧ ∀ unit ∈ psrd.wrote .halfTransfer, Long (unit.1 + 1) := by
  obtain ⟨u, fill, rfl⟩ := Except.ok_of_map action
  by_cases empty : psrd.nextBuf.valid = 0
  · rw [hmDmaFillNextBuf_emptied empty] at fill
    obtain ⟨v, update, rfl⟩ := Except.ok_of_map fill
    obtain ⟨inv_v, long⟩ := keeps.hmDmaUpdate emptied_whole regular.phase
      (keeps.shape psrd.emptied psrd psrd.stepsTaken inv) (.refill empty) fits update
    refine ⟨keeps.shape { v with dmaFill := v.dmaFill + 1, pdma.htif := false } v v.stepsTaken inv_v,
      ?_⟩
    rcases refill_writes regular action with ⟨full, -⟩ | ⟨some_, -, -⟩
    · exact absurd empty full
    · rw [emptied_units] at long
      rw [some_, List.forall_mem_map]
      intro delay member
      change Long (delay - 1 + 1)
      rw [UInt16.sub_add_cancel]
      exact long delay ((delays_generating psrd.emptied psrd psrd.stepsTaken _).symm ▸ member)
  · obtain rfl := Except.ok.inj ((hmDmaFillNextBuf_full empty).symm.trans fill)
    refine ⟨keeps.shape { psrd with pdma.htif := false } psrd psrd.stepsTaken inv, ?_⟩
    have nothing : psrd.wrote .halfTransfer = [] := by
      unfold wrote
      rw [action]
      simp [StepInfo.starts, empty]
    rw [nothing]
    exact List.forall_mem_nil _

theorem wrote_of_other (other : e ≠ .halfTransfer) (idle : psrd.starts e = false) :
    psrd.wrote e = [] := by
  unfold wrote
  split
  · rfl
  · simp [idle, other]

structure Undisturbed (Fit : StepInfo → UInt32 → Prop) (psrd : StepInfo) (e : Event) : Prop where
  idle : psrd.starts e = false
  curve : psrd.recurves e = false
  fits : ∀ r stepCount, psrd.Executes e r stepCount → Fit r stepCount

abbrev PassStep (Guard : StepInfo → Event → Prop) :
    StepInfo × List DmaUnit → Event → StepInfo × List DmaUnit → Prop :=
  Guarded (fun s e => Guard s.1 e) (Watched Step fun psrd e units => units ++ psrd.wrote e)

theorem passStep {Guard : StepInfo → Event → Prop} (guard : Guard psrd e)
    (action : psrd.exec e = .ok t) (units : List DmaUnit) :
    PassStep Guard (psrd, units) e (t, units ++ psrd.wrote e) :=
  ⟨guard, action, rfl⟩

theorem Keeps.step (keeps : Keeps Fit Inv Long) (regular : psrd.Regular)
    (inv : Inv psrd psrd.stepsTaken) (undisturbed : psrd.Undisturbed Fit e)
    (stop : psrd.smoothStops e → Inv psrd.hmStepMotorStopSmooth 0)
    (action : psrd.exec e = .ok t) :
    Inv t t.stepsTaken ∧ ∀ unit ∈ psrd.wrote e, Long (unit.1 + 1) := by
  by_cases half : e = .halfTransfer
  · subst half
    exact keeps.refill regular inv undisturbed.fits action
  · rw [wrote_of_other half undisturbed.idle]
    refine ⟨?_, nofun⟩
    by_cases smooth : psrd.smoothStops e
    · obtain ⟨shape, taken⟩ := smooth_generating regular smooth action
      rw [taken, shape]
      exact keeps.shape t _ 0 (stop smooth)
    by_cases sudden : psrd.suddenStops e
    · obtain ⟨shape, taken, -⟩ := sudden_generating regular sudden action
      exact keeps.of_generating shape taken inv
    · have inert : !psrd.acts e := by simp [acts, undisturbed.idle, smooth, sudden]
      obtain ⟨shape, taken⟩ := quiet_generating regular inert (by simp [undisturbed.curve]) half action
      exact keeps.of_generating shape taken inv

/-- The rule of a motion: what its passes keep holds after every run, and all units are long. -/
theorem Keeps.run (keeps : Keeps Fit Inv Long) {Guard : StepInfo → Event → Prop}
    (undisturbed : ∀ psrd e, Guard psrd e → psrd.Undisturbed Fit e)
    (stop : ∀ psrd e, Guard psrd e → Inv psrd psrd.stepsTaken → psrd.smoothStops e →
      Inv psrd.hmStepMotorStopSmooth 0)
    {es : List Event} {units₀ units : List DmaUnit} (regular : t.Regular) (inv : Inv t t.stepsTaken)
    (long : ∀ unit ∈ units₀, Long (unit.1 + 1)) (run : Run (PassStep Guard) (t, units₀) es (q, units)) :
    q.Regular ∧ Inv q q.stepsTaken ∧ ∀ unit ∈ units, Long (unit.1 + 1) := by
  refine run.invariant
    (fun s => s.1.Regular ∧ Inv s.1 s.1.stepsTaken ∧ ∀ unit ∈ s.2, Long (unit.1 + 1))
    ⟨regular, inv, long⟩ ?_
  rintro ⟨psrd, before⟩ e ⟨next, after⟩ ⟨regular, inv, long⟩ ⟨guard, action, note⟩
  dsimp only at *
  obtain ⟨inv', long'⟩ := keeps.step regular inv (undisturbed psrd e guard)
    (stop psrd e guard inv) action
  refine ⟨regular.step action, inv', ?_⟩
  rw [note, List.forall_mem_append]
  exact ⟨long, long'⟩

theorem Keeps.executes (keeps : Keeps Fit Inv Long) (regular : psrd.Regular)
    (inv : psrd.starts e = false → Inv psrd psrd.stepsTaken)
    (begun : psrd.starts e → ∀ p rcr, psrd.planned e = some (p, rcr) → Inv p 1)
    (fits : ∀ r count, psrd.Executes e r count → Fit r count)
    (executes : psrd.Executes e r stepCount) : Inv r stepCount := by
  obtain ⟨p, i, n, buf, generates, less, loop, -⟩ := executes
  obtain ⟨-, phase⟩ := generates.ready regular
  have first_unit {p a : StepInfo} {rcr : UInt16} (starts : psrd.starts e)
      (plan : psrd.planned e = some (p, rcr)) (first : p.firstUnit rcr = .ok a) :
      Inv a a.stepsTaken := by
    obtain ⟨buf, rfl, -⟩ := firstUnit_ok (planned_ready plan).1 first
    exact keeps.shape (p.withBufs (p.dmaBuf.set 0 buf) 1) p 1 (begun starts p rcr plan)
  have inv_p : Inv p p.stepsTaken := by
    cases generates with
    | refill => exact keeps.shape psrd.emptied psrd psrd.stepsTaken (inv rfl)
    | first starts plan first => exact first_unit starts plan first
    | second starts plan first update =>
        obtain ⟨cleared, phase⟩ := planned_ready plan
        have unit := firstUnit_begun cleared first
        exact (keeps.hmDmaUpdate unit.whole (unit.phase phase) (first_unit starts plan first)
          (.first starts plan first) fits update).1
  exact (keeps.fillLoop n phase inv_p (fun k before r buf count loop more =>
    fits r count ⟨p, i, k, buf, generates, before.trans less, loop, more⟩) loop).1

theorem exhausted_of_delays (phase : t.InPhase t.stepsTaken)
    (none_ : delays 1 t t.stepsTaken = []) : t.Exhausted t.stepsTaken := by
  by_contra more
  obtain ⟨next, step, -⟩ := nextDelay_inPhase phase more
  rw [delays_succ more step] at none_
  cases none_

theorem planned_wrote (starts : psrd.starts e) (plan : psrd.planned e = some (p, rcr))
    (action : psrd.exec e = .ok t) : psrd.wrote e =
      (p.stepDelay - 1, rcr, p.stepDelay / 2) :: (delays 199 p 1).map stepUnit := by
  obtain ⟨q, fill, rfl⟩ := starts_prefill starts plan action
  obtain ⟨cleared, phase⟩ := planned_ready plan
  obtain ⟨-, -, cur, next⟩ := q.launch_generating
  unfold wrote
  rw [action]
  simp only [starts, if_true, cur, next]
  exact (prefill_writes cleared phase fill).1

theorem stepUnit_delay (delay : UInt16) : (stepUnit delay).1 + 1 = delay :=
  UInt16.sub_add_cancel delay 1

theorem not_executes (other : e ≠ .halfTransfer) (idle : psrd.starts e = false) :
    ¬ psrd.Executes e r stepCount := by
  rintro ⟨p, i, n, buf, generates, -⟩
  cases generates with
  | refill => exact other rfl
  | first starts => simp [idle] at starts
  | second starts => simp [idle] at starts

def passTest (psrd : StepInfo) (e : Event) (n : Nat) (test : StepInfo → Bool) : Bool :=
  (psrd.planned e).any fun plan => (plan.1.firstUnit plan.2).toOption.any fun a =>
    (StepInfo.fillLoop n a a.dmaBuf[(0 : Fin hmDmaBufBlockSz)] a.stepsTaken).toOption.any
      fun result => decide (n < a.dmaBuf[(0 : Fin hmDmaBufBlockSz)].passes ∧
        ¬ result.1.Exhausted result.2.2) && test result.1

theorem executes_of_passTest {test : StepInfo → Bool} (starts : psrd.starts e)
    (found : psrd.passTest e n test) : ∃ r stepCount, psrd.Executes e r stepCount ∧ test r := by
  obtain ⟨⟨p, rcr⟩, plan, found⟩ := (Option.any_eq_true _ _).mp found
  obtain ⟨a, first, found⟩ := ok_of_any found
  obtain ⟨⟨r, buf, stepCount⟩, loop, found⟩ := ok_of_any found
  obtain ⟨pass, passed⟩ := Bool.and_eq_true_iff.mp found
  obtain ⟨less, more⟩ := of_decide_eq_true pass
  exact ⟨r, stepCount, ⟨a, 0, n, buf, .first starts plan first, less, loop, more⟩, passed⟩

end Loop

end StepInfo

end MotionBoard
