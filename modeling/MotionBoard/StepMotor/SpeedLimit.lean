import MotionBoard.StepMotor.Slowing
import MotionBoard.StepMotor.StartUp

namespace MotionBoard
open Transition

def speedDelay (speed : ℕ) : ℕ := (timBaseFre speed.toUInt32).toNat / speed

namespace Ramp

/-- A step whose words fit and that keeps to the limit where the code does not ask for it: where the
deceleration begins, and in the deceleration. -/
def Respects (limit : Int) (r : Ramp) : Prop :=
  r.Flat ∨ (r.WordsFit ∧ match r.phase with
    | .rsAccel => r.countStep.Due → limit ≤ (r.countAccel.change r.countAccel.climb).delay
    | .rsRun => r.countStep.Due → limit ≤ r.lastAccelDelay
    | .rsDecel => r.countDecel.Stays limit
    | .rsStop => True)

structure Level (limit : Int) (r : Ramp) : Prop where
  delay : limit ≤ r.pace.delay
  least : r.phase = .rsAccel ∨ r.phase = .rsRun → r.minDelay = limit

instance (limit : Int) : DecidablePred (Respects limit) :=
  fun ⟨_, _, _, _, _, _, phase, _, _, _, _⟩ => by
    unfold Respects
    cases phase <;> infer_instance

section Step
variable {r : Ramp} {limit : Int}

theorem checks_respects : Checks (Respects limit) where
  words _ respects := respects.imp_right And.left
  flat _ flat := .inl flat

theorem Respects.mild (respects : r.Respects limit) (least : 0 ≤ limit) : r.Mild limit := by
  refine respects.imp_right fun ⟨words, held⟩ => ⟨words, fun phase => ?_⟩
  rw [phase] at held
  exact held.near least

theorem countAccel_due : r.countAccel.Due ↔ r.Due := by
  unfold countAccel
  dsimp only
  split <;> exact Iff.rfl

theorem countAccel_minDelay : r.countAccel.minDelay = r.minDelay := by
  unfold countAccel
  dsimp only
  split <;> rfl

theorem leaveAccel_limit_iff (least : r.minDelay = limit) :
    limit ≤ r.leaveAccel.pace.delay ↔ (r.Due → limit ≤ r.pace.delay) := by
  unfold leaveAccel
  by_cases due : r.Due
  · rw [if_pos due]
    exact ⟨fun long _ => long, fun long => long due⟩
  · rw [if_neg due]
    refine iff_of_true ?_ fun ends => absurd ends due
    split
    · exact least.ge
    · rename_i above
      exact least.ge.trans (Int.not_le.mp above).le

theorem accel_limit_iff (level : r.Level limit) (phase : r.phase = .rsAccel) :
    limit ≤ r.next.pace.delay ↔
      (r.countStep.Due → limit ≤ (r.countAccel.change r.countAccel.climb).delay) := by
  have due : r.countAccel.countStep.Due ↔ r.countStep.Due := by
    rw [← countAccel_countStep]
    exact countAccel_due
  have next : r.next = { r.countAccel.countStep with
      pace := r.countAccel.change r.countAccel.climb }.leaveAccel := by
    unfold Ramp.next
    rw [phase]
    change { r.countStep.countAccel with
      pace := r.countStep.countAccel.change r.countStep.countAccel.climb }.leaveAccel = _
    rw [countAccel_countStep]
    rfl
  rw [next, ← due]
  exact leaveAccel_limit_iff (countAccel_minDelay.trans (level.least (.inl phase)))

theorem run_limit_iff (level : r.Level limit) (phase : r.phase = .rsRun) :
    limit ≤ r.next.pace.delay ↔ (r.countStep.Due → limit ≤ r.lastAccelDelay) := by
  have next : r.next = r.countStep.run := by
    unfold Ramp.next
    rw [phase]
  rw [next]
  unfold run
  split
  · rename_i due
    exact ⟨fun long _ => long, fun long => long due⟩
  · rename_i early
    exact iff_of_true (level.least (.inr phase)).ge fun due => absurd due early

theorem limit_iff (level : r.Level limit) (least : 0 ≤ limit) (carried : r.Carried) (n2 : 0 ≤ r.n2)
    (slowing : r.phase = .rsDecel → r.count < 0) (curved : ¬ r.Flat) (mild : r.Mild limit) :
    limit ≤ r.next.pace.delay ↔ r.Respects limit := by
  obtain ⟨words, near⟩ := mild.resolve_left curved
  unfold Respects
  simp only [curved, false_or, words, true_and]
  cases phase : r.phase with
  | rsAccel => exact accel_limit_iff level phase
  | rsRun => exact run_limit_iff level phase
  | rsDecel =>
      exact decel_limit_iff least level.delay carried.rest n2 phase (slowing phase) words (near phase)
  | rsStop =>
      refine iff_of_true ?_ trivial
      unfold Ramp.next
      rw [phase]
      exact level.delay

end Step

end Ramp

namespace StepInfo

def Limited (limit : ℕ) (psrd : StepInfo) (stepCount : UInt32) : Prop :=
  psrd.Exhausted stepCount ∨ (psrd.ramp stepCount).Level limit

structure Unhurried (limit : ℕ) (psrd : StepInfo) (e : Event) : Prop where
  single : e.unplanned ≠ [] → limit ≤ 1000
  ramp : ∀ p rcr, psrd.planned e = some (p, rcr) →
    ∀ n, Ramp.Along (Ramp.Respects limit) n (p.ramp 1)

structure Steady (limit : ℕ) (psrd : StepInfo) (e : Event) : Prop where
  undisturbed : psrd.Undisturbed (fun _ _ => True) e
  slow : psrd.smoothStops e → limit ≤ psrd.stepDelay.toNat
  stops : psrd.smoothStops e →
    ∀ n, Ramp.Along (Ramp.Respects limit) n (psrd.hmStepMotorStopSmooth.ramp 0)

section Limit
variable {psrd p t q : StepInfo} {e : Event} {rcr : UInt16} {stepCount : UInt32} {limit : ℕ}
  {accel : UInt32} {speed : ℕ}

theorem Limited.long_iff (limited : psrd.Limited limit stepCount) (phase : psrd.InPhase stepCount)
    (more : ¬ psrd.Exhausted stepCount)
    (carried : (psrd.ramp stepCount).Flat ∨ (psrd.ramp stepCount).Carried)
    (mild : (psrd.ramp stepCount).Mild limit) {next : StepInfo × UInt16}
    (step : psrd.nextDelay (psrd.countStep stepCount) = .ok next) :
    limit ≤ next.2.toNat ↔ (psrd.ramp stepCount).Respects limit := by
  have level := limited.resolve_left more
  by_cases flat : (psrd.ramp stepCount).Flat
  · rw [(flat_delay flat step).2.1]
    exact iff_of_true (Int.ofNat_le.mp level.delay) (.inl flat)
  · have carried := carried.resolve_left flat
    have follows := nextDelay_ramp phase more carried (mild.resolve_left flat).1 step
    rw [← Ramp.limit_iff level (Int.natCast_nonneg _) carried (Int.natCast_nonneg _)
      (phase.slowing more) flat mild, ← follows, recordDelay_pace, Int.ofNat_le]

theorem Limited.after (limited : psrd.Limited limit stepCount) (more : ¬ psrd.Exhausted stepCount)
    {next : StepInfo × UInt16} {count : UInt32} (step : psrd.nextDelay count = .ok next)
    (long : limit ≤ next.2.toNat) : (next.1.recordDelay next.2).Limited limit count := by
  obtain ⟨-, least⟩ := limited.resolve_left more
  have ramp := (psrd.nextDelay_rampStep _ step).trans (next.1.recordDelay_rampStep next.2)
  refine .inr ⟨?_, fun state => ?_⟩
  · rw [recordDelay_pace]
    exact Int.ofNat_le.mpr long
  · have state : next.1.runState = .rsAccel ∨ next.1.runState = .rsRun := by
      rw [← recordDelay_runState next.2]
      exact state
    change ((next.1.recordDelay next.2).minDelay.toNat : Int) = limit
    rw [ramp.minDelay]
    refine least ?_
    cases before : psrd.runState with
    | rsAccel => exact .inl before
    | rsRun => exact .inr before
    | rsDecel =>
        rw [nextDelay_decel before step] at state
        dsimp only at state
        split at state
        · rcases state with state | state <;> cases state
        · rcases state with state | state <;> cases state
    | rsStop =>
        unfold nextDelay at step
        rw [before] at step
        cases step

theorem limit_keeps (limit : ℕ) :
    Keeps (fun _ _ => True)
      (fun psrd c => psrd.Tracks (Ramp.Respects limit) c ∧ psrd.Limited limit c)
      fun delay => limit ≤ delay.toNat where
  shape _ _ _ inv := inv
  pass _ _ _ phase more _ inv step := by
    obtain ⟨tracks, limited⟩ := inv
    obtain ⟨carried, respects, -⟩ := tracks.first more
    have mild := respects.mild (Int.natCast_nonneg _)
    have long := (limited.long_iff phase more carried mild step).mpr respects
    exact ⟨⟨tracks.after Ramp.checks_respects phase more step, limited.after more step long⟩, long⟩

/-- By induction on the steps: up to the first that comes below the limit, the motion is on its
ramp. -/
theorem delays_limit_iff (n : Nat) (phase : psrd.InPhase stepCount)
    (limited : psrd.Limited limit stepCount)
    (carried : (psrd.ramp stepCount).Flat ∨ (psrd.ramp stepCount).Carried)
    (mild : Ramp.Along (Ramp.Mild limit) n (psrd.ramp stepCount)) :
    (∀ delay ∈ delays n psrd stepCount, limit ≤ delay.toNat) ↔
      Ramp.Along (Ramp.Respects limit) n (psrd.ramp stepCount) := by
  induction n generalizing psrd stepCount with
  | zero => exact iff_of_true nofun trivial
  | succ n ih =>
      by_cases ended : psrd.Exhausted stepCount
      · rw [delays_exhausted ended]
        exact iff_of_true nofun (.inl (ramp_over_iff.mpr ended))
      · obtain ⟨next, step, phase'⟩ := nextDelay_inPhase phase ended
        have goes := mt ramp_over_iff.mp ended
        obtain ⟨mild, mild'⟩ := mild.resolve_left goes
        have one := limited.long_iff phase ended carried mild step
        rw [delays_succ ended step, List.forall_mem_cons, one]
        refine Iff.trans (and_congr_right fun respects => ?_) (or_iff_right goes).symm
        have limited' := limited.after ended step (one.mpr respects)
        have phase' := phase'.recordDelay next.2
        -- a flat ramp stays as it is, any other one goes on with a remainder of its own
        by_cases flat : (psrd.ramp stepCount).Flat
        · obtain ⟨-, -, still⟩ := flat_delay flat step
          rw [ih phase' limited' (.inl still) (still.along (fun _ flat => .inl flat) n)]
          exact iff_of_true (still.along Ramp.checks_respects.flat n)
            (flat.next.along Ramp.checks_respects.flat n)
        · have carried := carried.resolve_left flat
          have words := (mild.resolve_left flat).1
          have follows := nextDelay_ramp phase ended carried words step
          have carried' := carried.next (Int.natCast_nonneg _) (Int.natCast_nonneg _) words
          rw [← follows] at mild' carried' ⊢
          exact ih phase' limited' (.inr carried') mild'

theorem planned_limit (plan : psrd.planned e = some (p, rcr))
    (asks : e.asks = some (accel, speed)) (slow : 2 ≤ speedDelay speed) :
    p.minDelay.toNat = speedDelay speed ∧ speedDelay speed ≤ p.stepDelay.toNat := by
  obtain ⟨wide, signed, values⟩ := planned_values plan asks
  have positive : 0 < speed := by
    rw [Nat.pos_iff_ne_zero]
    rintro rfl
    cases slow
  have most (n : UInt32) : (timBaseFre n).toNat ≤ 1000000 := by
    rw [toNat_timBaseFre]
    split
    · decide
    · decide
  have few : speed ≤ 500000 := by
    have bound := (Nat.le_div_iff_mul_le positive).mp slow
    have := most speed.toUInt32
    omega
  have small : speed.toUInt32.toNat = speed := UInt32.toNat_ofNat_of_lt' (show speed < 2 ^ 32 by omega)
  have fre : p.hmStepFre.toNat = (timBaseFre speed.toUInt32).toNat := by
    rw [values.fre, toNat_timBaseFre, small]
  have sized : ¬ e.unsized := by
    intro unsized
    have := (values.unsized unsized).1
    omega
  have delay : speedDelay speed < 2 ^ 16 := by
    unfold speedDelay
    rw [toNat_timBaseFre, small, Nat.div_lt_iff_lt_mul positive]
    split
    · omega
    · omega
  have minDelay : p.minDelay.toNat = speedDelay speed := by
    rw [values.minDelay, UInt64.toNat_toUInt16, UInt64.toNat_div, (values.sized sized).1, fre]
    exact Nat.mod_eq_of_lt delay
  have above : p.minDelay ≤ p.stepDelay := by
    rw [values.stepDelay]
    change p.minDelay ≤ if firstDelay p.hmStepFre accel ≤ p.minDelay then p.minDelay
      else firstDelay p.hmStepFre accel
    split
    · exact UInt16.le_refl _
    · rename_i faster
      exact UInt16.le_of_lt (UInt16.not_le.mp faster)
  rw [UInt16.le_iff_toNat_le, minDelay] at above
  exact ⟨minDelay, above⟩

theorem unplanned_unit {unit : DmaUnit} (member : unit ∈ e.unplanned) : unit = (999, 1, 500) := by
  unfold Event.unplanned at member
  split at member
  · split at member
    · exact List.mem_singleton.mp member
    · cases member
  · cases member

theorem planned_unplanned (plan : psrd.planned e = some (p, rcr)) : e.unplanned = [] := by
  obtain ⟨io, step, accel, decel, speed, rfl, few, -⟩ |
    ⟨_, io, accel, speed, ⟨rfl, -⟩ | ⟨rfl, -⟩ | ⟨rfl, -⟩, -⟩ := planned_cases plan
  · exact if_neg fun single => few (.inl single)
  · rfl
  · rfl
  · rfl

theorem planned_ramp_level (plan : psrd.planned e = some (p, rcr))
    (asks : e.asks = some (accel, speed)) (slow : 2 ≤ speedDelay speed) :
    (p.ramp 1).Level (speedDelay speed) := by
  obtain ⟨least, first⟩ := planned_limit plan asks slow
  exact ⟨Int.ofNat_le.mpr first, fun _ => congrArg Int.ofNat least⟩

theorem untilHang_long_iff (two : 2 ≤ limit) (delays : List UInt16) :
    (∀ delay ∈ untilHang delays, limit ≤ delay.toNat) ↔ ∀ delay ∈ delays, limit ≤ delay.toNat := by
  induction delays with
  | nil => exact Iff.rfl
  | cons delay delays ih =>
      unfold untilHang
      split
      · rename_i short
        have below : ¬ limit ≤ delay.toNat := fun long =>
          UInt16.not_le.mpr short (UInt16.le_iff_toNat_le.mpr (two.trans long))
        exact iff_of_false (fun long => below (long delay (List.mem_singleton.mpr rfl)))
          fun long => below (long delay List.mem_cons_self)
      · rw [List.forall_mem_cons, List.forall_mem_cons, ih]

theorem motion_long_iff (plan : psrd.planned e = some (p, rcr)) (two : 2 ≤ limit)
    (first : limit ≤ p.stepDelay.toNat) (n : Nat) :
    (∀ unit ∈ psrd.motion e n, limit ≤ (unit.1 + 1).toNat) ↔
      ∀ delay ∈ delays n p 1, limit ≤ delay.toNat := by
  unfold motion
  rw [plan]
  dsimp only
  rw [List.forall_mem_cons, List.forall_mem_map]
  dsimp only
  rw [UInt16.sub_add_cancel]
  simp only [stepUnit_delay, first, true_and]
  exact untilHang_long_iff two _

theorem unhurried_iff_motion (asks : e.asks = some (accel, speed))
    (slow : 2 ≤ speedDelay speed) (mild : ∀ p rcr, psrd.planned e = some (p, rcr) →
      ∀ n, Ramp.Along (Ramp.Mild (speedDelay speed)) n (p.ramp 1)) :
    (∀ n, ∀ unit ∈ psrd.motion e n, speedDelay speed ≤ (unit.1 + 1).toNat) ↔
      psrd.Unhurried (speedDelay speed) e := by
  cases plan : psrd.planned e with
  | none =>
      have motion (n : Nat) : psrd.motion e n = e.unplanned := by
        unfold StepInfo.motion
        rw [plan]
      simp only [motion]
      constructor
      · intro long
        refine ⟨fun single => ?_, fun p rcr plan' => by cases plan.symm.trans plan'⟩
        obtain ⟨unit, member⟩ := List.exists_mem_of_ne_nil _ single
        have delay := long 0 unit member
        rw [unplanned_unit member] at delay
        exact delay
      · intro unhurried _ unit member
        rw [unplanned_unit member]
        exact unhurried.single (List.ne_nil_of_mem member)
  | some begins =>
      obtain ⟨p, rcr⟩ := begins
      have first := (planned_limit plan asks slow).2
      have limited : p.Limited (speedDelay speed) 1 := .inr (planned_ramp_level plan asks slow)
      have along (n : Nat) := (motion_long_iff plan slow first n).trans
        (delays_limit_iff n (planned_ready plan).2 limited (.inr (planned_carried plan))
          (mild p rcr plan n))
      rw [forall_congr' along]
      constructor
      · intro along
        refine ⟨fun single => absurd (planned_unplanned plan) single, fun p' rcr' plan' => ?_⟩
        obtain ⟨rfl, rfl⟩ := Prod.mk.inj (Option.some.inj (plan.symm.trans plan'))
        exact along
      · exact fun unhurried => unhurried.ramp p rcr plan

theorem Unhurried.begins (unhurried : psrd.Unhurried (speedDelay speed) e)
    (asks : e.asks = some (accel, speed)) (slow : 2 ≤ speedDelay speed)
    (plan : psrd.planned e = some (p, rcr)) :
    p.Tracks (Ramp.Respects (speedDelay speed)) 1 ∧ p.Limited (speedDelay speed) 1 :=
  ⟨.inr ⟨.inr (planned_carried plan), unhurried.ramp p rcr plan⟩, .inr (planned_ramp_level plan asks slow)⟩

theorem Unhurried.starts (unhurried : psrd.Unhurried (speedDelay speed) e) (regular : psrd.Regular)
    (starts : psrd.starts e) (asks : e.asks = some (accel, speed)) (slow : 2 ≤ speedDelay speed)
    (action : psrd.exec e = .ok t) :
    (t.Tracks (Ramp.Respects (speedDelay speed)) t.stepsTaken ∧
        t.Limited (speedDelay speed) t.stepsTaken) ∧
      ∀ unit ∈ psrd.wrote e, speedDelay speed ≤ (unit.1 + 1).toNat := by
  cases plan : psrd.planned e with
  | none =>
      have ended := unplanned_exhausted regular starts plan action
      have wrote : psrd.wrote e = e.unplanned := by
        unfold StepInfo.wrote
        rw [action]
        simp only [starts, if_true]
        exact (unplanned_writes starts plan action).1
      refine ⟨⟨.inl ended, .inl ended⟩, fun unit member => ?_⟩
      rw [wrote] at member
      rw [unplanned_unit member]
      exact unhurried.single (List.ne_nil_of_mem member)
  | some begins =>
      obtain ⟨p, rcr⟩ := begins
      have begun := unhurried.begins asks slow plan
      obtain ⟨inv, long⟩ :=
        (limit_keeps (speedDelay speed)).starts starts plan begun (fun _ _ _ => trivial) action
      refine ⟨inv, ?_⟩
      rw [planned_wrote starts plan action, List.forall_mem_cons, List.forall_mem_map]
      dsimp only
      rw [UInt16.sub_add_cancel]
      simp only [stepUnit_delay]
      exact ⟨(planned_limit plan asks slow).2, long⟩

theorem Steady.stopped (steady : psrd.Steady limit e) (stops : psrd.smoothStops e) :
    psrd.hmStepMotorStopSmooth.Tracks (Ramp.Respects limit) 0 ∧
      psrd.hmStepMotorStopSmooth.Limited limit 0 := by
  refine ⟨.inr ⟨.inr (smooth_carried stops), steady.stops stops⟩, .inr ?_⟩
  obtain ⟨running, first⟩ := (Tuned.refl psrd).accepted stops
  have slow := steady.slow stops
  rw [stopSmooth_accepted running first]
  exact ⟨Int.ofNat_le.mpr slow, by rintro (state | state) <;> cases state⟩

/-- The units that a start plans are not below the delay of its speed exactly when its exact ramp
keeps to it where the code does not: with the step that begins the deceleration, and in it. Such a
motion keeps to it through whatever interrupts and stops. -/
theorem speed_kept_iff {idx : Fin hmMaxAxis} {es : List Event}
    (run : Run Step (hmStepMotorInit idx) es psrd) (starts : psrd.starts e)
    (asks : e.asks = some (accel, speed)) (slow : 2 ≤ speedDelay speed) :
    ((∀ p rcr, psrd.planned e = some (p, rcr) →
        ∀ n, Ramp.Along (Ramp.Mild (speedDelay speed)) n (p.ramp 1)) →
      ((∀ n, ∀ unit ∈ psrd.motion e n, speedDelay speed ≤ (unit.1 + 1).toNat) ↔
        psrd.Unhurried (speedDelay speed) e)) ∧
    (psrd.Unhurried (speedDelay speed) e → ∀ t, psrd.exec e = .ok t → ∀ es q units,
      Run (PassStep (Steady (speedDelay speed))) (t, psrd.wrote e) es (q, units) →
      ∀ unit ∈ units, speedDelay speed ≤ (unit.1 + 1).toNat) := by
  have regular := reachable_regular run
  refine ⟨unhurried_iff_motion asks slow, fun unhurried t action es q units motion => ?_⟩
  obtain ⟨inv, long⟩ := unhurried.starts regular starts asks slow action
  exact ((limit_keeps (speedDelay speed)).run (fun _ _ steady => steady.undisturbed)
    (fun _ _ steady _ stops => steady.stopped stops) (regular.step action) inv long motion).2.2

theorem speed_kept_short :
    (∀ n, ∀ unit ∈ (hmStepMotorInit 0).motion (.move .clear 10 20000 20000 1000) n,
      1000 ≤ (unit.1 + 1).toNat) ∧
    ∃ t, (hmStepMotorInit 0).exec (.move .clear 10 20000 20000 1000) = .ok t ∧
      ∀ unit ∈ (hmStepMotorInit 0).wrote (.move .clear 10 20000 20000 1000),
        1000 ≤ (unit.1 + 1).toNat := by
  have starts : (hmStepMotorInit 0).starts (.move .clear 10 20000 20000 1000) := by decide +kernel
  have asks : Event.asks (.move .clear 10 20000 20000 1000) = some (20000, 1000) := rfl
  have begins := (hmStepMotorInit 0).planned_move .clear 20000 20000 1000
    (show ¬ (magnitude 10 = 1 ∨ magnitude 10 = 0) by decide)
  have along {pass : Ramp → Prop} [DecidablePred pass]
      (some_ : Ramp.Along pass 9 (((hmStepMotorInit 0).movePlan 10 20000 1000).ramp 1)) (p rcr)
      (plan : (hmStepMotorInit 0).planned (.move .clear 10 20000 20000 1000) = some (p, rcr))
      (n : Nat) : Ramp.Along pass n (p.ramp 1) := by
    obtain ⟨rfl, -⟩ := Prod.mk.inj (Option.some.inj (begins.symm.trans plan))
    exact Ramp.along_of_finite 9 (show _ = some 10 by decide +kernel) (by decide +kernel) some_ n
  obtain ⟨exact_, kept⟩ := speed_kept_iff .nil starts asks (by decide)
  have unhurried : (hmStepMotorInit 0).Unhurried (speedDelay 1000)
      (.move .clear 10 20000 20000 1000) :=
    ⟨fun single => absurd (by decide) single, along (by decide +kernel)⟩
  obtain ⟨t, action, -⟩ := ok_of_any
    (show ((hmStepMotorInit 0).exec (.move .clear 10 20000 20000 1000)).toOption.any
      (fun _ => true) by decide +kernel)
  exact ⟨(exact_ (along (by decide +kernel))).mpr unhurried,
    t, action, kept unhurried t action [] t _ .nil⟩

/-- The second step of a move of three begins the deceleration. It comes after 4056 ticks, the
delay of the speed being 6666. -/
theorem speed_exceeded_short : (hmStepMotorInit 0).method = .tCurve ∧ speedDelay 150 = 6666 ∧
    (hmStepMotorInit 0).starts (.move .clear 3 20000 20000 150) ∧
    ∃ t, (hmStepMotorInit 0).exec (.move .clear 3 20000 20000 150) = .ok t ∧
      (4055, 0, 2028) ∈ (hmStepMotorInit 0).wrote (.move .clear 3 20000 20000 150) := by
  have starts : (hmStepMotorInit 0).starts (.move .clear 3 20000 20000 150) := by decide +kernel
  obtain ⟨t, action, unit⟩ := ok_of_any
    (show ((hmStepMotorInit 0).exec (.move .clear 3 20000 20000 150)).toOption.any
      (fun _ => decide ((4055, 0, 2028) ∈
        (hmStepMotorInit 0).wrote (.move .clear 3 20000 20000 150))) by
      decide +kernel)
  exact ⟨rfl, by decide, starts, t, action, of_decide_eq_true unit⟩

end Limit

end StepInfo

end MotionBoard
