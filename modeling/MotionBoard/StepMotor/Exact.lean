import MotionBoard.Lib.Pace
import MotionBoard.StepMotor.Defs

namespace MotionBoard

/-- Where a motion is on its plan. `request` is none for a motion without an end, `decelStart` for
one without a deceleration. -/
structure Ramp where
  method : Method
  n2 : Int
  minDelay : Int
  decelVal : Int
  request : Option Nat
  decelStart : Option Nat
  phase : RunState
  count : Int
  pace : Pace
  lastAccelDelay : Int
  taken : Nat
  deriving DecidableEq, Repr

namespace Ramp

def Over (r : Ramp) : Prop := ∃ k ∈ r.request, k ≤ r.taken

instance (r : Ramp) : Decidable r.Over := by
  unfold Over
  cases r.request with
  | none => exact isFalse nofun
  | some k => exact decidable_of_iff (k ≤ r.taken) (by simp)

def Due (r : Ramp) : Prop := ∃ k ∈ r.decelStart, k ≤ r.taken

instance (r : Ramp) : Decidable r.Due := by
  unfold Due
  cases r.decelStart with
  | none => exact isFalse nofun
  | some k => exact decidable_of_iff (k ≤ r.taken) (by simp)

def Slows (r : Ramp) : Prop := ∃ k ∈ r.decelStart, ∀ n ∈ r.request, k ≤ n

def countStep (r : Ramp) : Ramp :=
  { r with taken := if r.request = none then r.taken else r.taken + 1 }

def countAccel (r : Ramp) : Ramp :=
  let r := { r with count := r.count + 1 }
  if r.method = .sCurve ∧ (r.n2 = r.count ∨ r.n2 + 1 = r.count) then { r with pace.rest := 0 }
  else r

def climb (r : Ramp) : Int × Int :=
  if r.method = .sCurve ∧ r.count < r.n2 then (r.n2 - r.count, r.n2) else (1, 1)

def fall (r : Ramp) : Int × Int :=
  if r.method = .sCurve then (r.n2 + r.count, r.n2) else (1, 1)

def change (r : Ramp) (slope : Int × Int) : Pace :=
  r.pace.change slope.1 ((4 * r.count + 1) * slope.2)

def leaveAccel (r : Ramp) : Ramp :=
  if r.Due then { r with count := r.decelVal, phase := .rsDecel }
  else if r.pace.delay ≤ r.minDelay then
    { r with lastAccelDelay := r.pace.delay, pace := ⟨r.minDelay, 0⟩, phase := .rsRun }
  else r

def accel (r : Ramp) : Ramp :=
  let r := r.countAccel
  { r with pace := r.change r.climb }.leaveAccel

def run (r : Ramp) : Ramp :=
  if r.Due then
    { r with count := r.decelVal, phase := .rsDecel, pace.delay := r.lastAccelDelay }
  else { r with pace.delay := r.minDelay }

def countDecel (r : Ramp) : Ramp := { r with count := r.count + 1 }

/-- The new pace of a deceleration. The divisor of its last step is positive, so the delay is
negative there, and is kept in 16 bits. -/
def slow (r : Ramp) : Ramp :=
  let pace := r.change r.fall
  { r with
    pace := { pace with delay := pace.delay % 2 ^ 16 }
    phase := if r.count ≥ 0 then .rsStop else r.phase }

def decel (r : Ramp) : Ramp := r.countDecel.slow

def next (r : Ramp) : Ramp :=
  match r.phase with
  | .rsAccel => r.countStep.accel
  | .rsRun => r.countStep.run
  | .rsDecel => r.countStep.decel
  | .rsStop => r.countStep

def AccelFits (r : Ramp) : Prop :=
  r.pace.dividend r.climb.1 < 2 ^ 31 ∧ (4 * r.count + 1) * r.climb.2 < 2 ^ 31

def DecelFits (r : Ramp) : Prop :=
  0 ≤ r.fall.1 ∧ r.pace.dividend r.fall.1 < 2 ^ 31 ∧ -2 ^ 31 ≤ (4 * r.count + 1) * r.fall.2 ∧
    2 - 2 ^ 16 ≤ (r.change r.fall).delay ∧ (r.change r.fall).delay < 2 ^ 16

def DecelWordsFit (r : Ramp) : Prop :=
  0 ≤ r.fall.1 ∧ r.pace.dividend r.fall.1 < 2 ^ 31 ∧ -2 ^ 31 ≤ (4 * r.count + 1) * r.fall.2 ∧
    (4 * r.count + 1) * r.fall.2 < 2 ^ 31

/-- Sixteen bits keep the delay of a deceleration step, and the last one does not take it below
`limit`: it comes out negative there, and is stored `2 ^ 16` above. -/
def Stays (limit : Int) (r : Ramp) : Prop :=
  limit - 2 ^ 16 ≤ (r.change r.fall).delay ∧ (r.change r.fall).delay < 2 ^ 16

def Near (limit : Int) (r : Ramp) : Prop :=
  -2 ^ 16 ≤ (r.change r.fall).delay ∧ (r.change r.fall).delay < 2 ^ 16 + limit

def WordsFit (r : Ramp) : Prop :=
  match r.phase with
  | .rsAccel => r.countAccel.AccelFits
  | .rsDecel => r.countDecel.DecelWordsFit
  | _ => True

def StepFits (r : Ramp) : Prop :=
  match r.phase with
  | .rsAccel => r.countAccel.AccelFits
  | .rsDecel => r.countDecel.DecelFits
  | _ => True

def Fits : Nat → Ramp → Prop
  | 0, _ => True
  | n + 1, r => r.Over ∨ (r.StepFits ∧ Fits n r.next)

instance (r : Ramp) : Decidable r.StepFits := by
  unfold StepFits AccelFits DecelFits
  split <;> infer_instance

instance decidableFits : (n : Nat) → (r : Ramp) → Decidable (Fits n r)
  | 0, _ => isTrue trivial
  | n + 1, r =>
      let := decidableFits n r.next
      inferInstanceAs (Decidable (r.Over ∨ (r.StepFits ∧ Fits n r.next)))

def Along (pass : Ramp → Prop) : Nat → Ramp → Prop
  | 0, _ => True
  | n + 1, r => r.Over ∨ (pass r ∧ Along pass n r.next)

def Flat (r : Ramp) : Prop :=
  r.method = .sCurve ∧ r.n2 = 0 ∧ (r.phase = .rsDecel ∨ r.phase = .rsStop)

/-- A condition on the steps of a ramp under which their words fit, where they matter. -/
structure Checks (pass : Ramp → Prop) : Prop where
  words : ∀ r, pass r → r.Flat ∨ r.WordsFit
  flat : ∀ r, r.Flat → pass r

instance (r : Ramp) : Decidable r.Flat := by
  unfold Flat
  infer_instance

instance (r : Ramp) : Decidable r.DecelWordsFit := by
  unfold DecelWordsFit
  infer_instance

instance (r : Ramp) : Decidable r.WordsFit := by
  unfold WordsFit AccelFits
  split <;> infer_instance

instance (limit : Int) (r : Ramp) : Decidable (r.Stays limit) := by
  unfold Stays
  infer_instance

instance (limit : Int) (r : Ramp) : Decidable (r.Near limit) := by
  unfold Near
  infer_instance

instance decidableAlong (pass : Ramp → Prop) [DecidablePred pass] :
    (n : Nat) → (r : Ramp) → Decidable (Along pass n r)
  | 0, _ => isTrue trivial
  | n + 1, r =>
      let := decidableAlong pass n r.next
      inferInstanceAs (Decidable (r.Over ∨ (pass r ∧ Along pass n r.next)))

structure Carried (r : Ramp) : Prop where
  rest : 0 ≤ r.pace.rest
  climbing : r.phase = .rsAccel → 0 ≤ r.count ∧ r.pace.rest < (4 * r.count + 1) * r.climb.2

structure Armed (r : Ramp) : Prop where
  delay : 2 ≤ r.pace.delay
  rest : 0 ≤ r.pace.rest
  n2 : 0 ≤ r.n2
  climbing : r.phase = .rsAccel →
    0 ≤ r.count ∧ r.pace.rest < (4 * r.count + 1) * r.climb.2
  cruising : r.phase = .rsRun → 2 ≤ r.minDelay ∧ (r.Slows → 2 ≤ r.lastAccelDelay)

section Step
variable {r : Ramp}

theorem countStep_within (more : ¬ r.Over) (due : r.countStep.Due) : r.Slows := by
  obtain ⟨k, start, le⟩ := due
  refine ⟨k, start, fun n request => ?_⟩
  have request : r.request = some n := request
  have left : r.taken < n := Nat.lt_of_not_le fun ended => more ⟨n, request, ended⟩
  have taken : r.countStep.taken = r.taken + 1 := if_neg (by rw [request]; nofun)
  omega

theorem climb_scale (r : Ramp) (n2 : 0 ≤ r.n2) (first : 0 ≤ r.count) :
    0 ≤ r.climb.1 ∧ r.climb.1 ≤ r.climb.2 ∧ 0 < r.climb.2 := by
  unfold climb
  split
  · dsimp only
    omega
  · decide

theorem countAccel_carried (carried : r.Carried) (phase : r.phase = .rsAccel) :
    1 ≤ r.countAccel.count ∧ 0 ≤ r.countAccel.pace.rest ∧
      r.countAccel.pace.rest < (4 * r.countAccel.count - 3) * r.countAccel.climb.2 := by
  have rest := carried.rest
  obtain ⟨first, carried⟩ := carried.climbing phase
  unfold climb at carried
  unfold countAccel
  dsimp only
  split
  · rename_i bend
    unfold climb
    rw [if_neg (by dsimp only; omega)]
    dsimp only
    omega
  · rename_i straight
    refine ⟨by dsimp only; omega, rest, ?_⟩
    unfold climb
    dsimp only
    by_cases curve : r.method = .sCurve
    · simp only [curve, true_and] at straight carried ⊢
      split
      · rw [if_pos (by omega)] at carried
        dsimp only at carried ⊢
        rw [show 4 * (r.count + 1) - 3 = 4 * r.count + 1 by ring]
        exact carried
      · rw [if_neg (by omega)] at carried
        dsimp only at carried ⊢
        omega
    · simp only [curve, false_and, if_false] at carried ⊢
      omega

theorem Armed.carried (armed : r.Armed) : r.Carried := ⟨armed.rest, armed.climbing⟩

theorem Armed.countStep (armed : r.Armed) : r.countStep.Armed := { armed with }

theorem Armed.leaveAccel (armed : r.Armed) : r.leaveAccel.Armed := by
  unfold Ramp.leaveAccel
  split
  · exact ⟨armed.delay, armed.rest, armed.n2, nofun, nofun⟩
  · split
    · rename_i fast
      have long : 2 ≤ r.minDelay := armed.delay.trans fast
      exact ⟨long, le_refl 0, armed.n2, nofun, fun _ => ⟨long, fun _ => armed.delay⟩⟩
    · exact armed

theorem countAccel_countStep (r : Ramp) : r.countStep.countAccel = r.countAccel.countStep := by
  unfold countAccel countStep
  dsimp only
  split <;> rfl

theorem countAccel_keeps :
    r.countAccel.phase = r.phase ∧ r.countAccel.n2 = r.n2 ∧
      r.countAccel.pace.delay = r.pace.delay := by
  unfold countAccel
  dsimp only
  split <;> exact ⟨rfl, rfl, rfl⟩

theorem Carried.climb (carried : r.Carried) (delay : 0 ≤ r.pace.delay) (n2 : 0 ≤ r.n2)
    (phase : r.phase = .rsAccel) :
    1 ≤ r.countAccel.count ∧ 0 < r.countAccel.climb.2 ∧
      0 ≤ r.countAccel.pace.dividend r.countAccel.climb.1 ∧
      0 ≤ (r.countAccel.change r.countAccel.climb).delay ∧
      (r.countAccel.change r.countAccel.climb).delay ≤ r.pace.delay := by
  obtain ⟨first, rest, small⟩ := countAccel_carried carried phase
  obtain ⟨-, sameN2, same⟩ := r.countAccel_keeps
  have scale := climb_scale r.countAccel (by rw [sameN2]; exact n2) (by omega)
  have least : 0 ≤ r.countAccel.pace.delay := by
    rw [same]
    exact delay
  have dividend := r.countAccel.pace.dividend_nonneg least rest scale.1
  refine ⟨first, scale.2.2, dividend, Pace.nonneg_change least rest small first scale.1 scale.2.1, ?_⟩
  rw [← same]
  exact Pace.change_speeds dividend (Int.mul_nonneg (by omega) scale.2.2.le)

theorem Armed.climb (armed : r.Armed) (phase : r.phase = .rsAccel) :
    2 ≤ (r.countAccel.change r.countAccel.climb).delay := by
  obtain ⟨first, rest, small⟩ := countAccel_carried armed.carried phase
  obtain ⟨-, n2, delay⟩ := r.countAccel_keeps
  have scale := climb_scale r.countAccel (by rw [n2]; exact armed.n2) (by omega)
  have long : 2 ≤ r.countAccel.pace.delay := by
    rw [delay]
    exact armed.delay
  exact Pace.two_le_change long rest small first scale.1 scale.2.1

theorem Armed.accel (armed : r.Armed) (phase : r.phase = .rsAccel) : r.accel.Armed := by
  obtain ⟨first, scale, dividend, -, -⟩ :=
    armed.carried.climb (Int.le_trans (by decide) armed.delay) armed.n2 phase
  obtain ⟨phase', n2, -⟩ := r.countAccel_keeps
  refine Armed.leaveAccel ⟨armed.climb phase, Pace.change_rest_nonneg dividend, ?_,
    fun _ => ⟨?_, ?_⟩, fun run => ?_⟩
  · exact n2.symm ▸ armed.n2
  · exact Int.le_trans (by decide) first
  · exact Pace.change_rest_lt (Int.mul_pos (by omega) scale)
  · cases (phase'.trans phase).symm.trans run

theorem Armed.run (armed : r.Armed) (phase : r.phase = .rsRun) (slows : r.Due → r.Slows) :
    r.run.Armed := by
  obtain ⟨long, last⟩ := armed.cruising phase
  unfold Ramp.run
  split
  · rename_i due
    exact ⟨last (slows due), armed.rest, armed.n2, nofun, nofun⟩
  · exact ⟨long, armed.rest, armed.n2, fun climb => (by cases phase.symm.trans climb),
      fun _ => ⟨long, last⟩⟩

theorem fall_last (r : Ramp) (last : r.count = 0) : r.fall.1 = r.fall.2 := by
  unfold fall
  split
  · dsimp only
    omega
  · rfl

theorem fall_scale (r : Ramp) (n2 : 0 ≤ r.n2) : 0 ≤ r.fall.2 := by
  unfold fall
  split
  · exact n2
  · decide

theorem divisor_lt (r : Ramp) (delay : 2 ≤ r.pace.delay) (rest : 0 ≤ r.pace.rest) (n2 : 0 ≤ r.n2)
    (slowing : r.count ≤ 0) (pull : 0 ≤ r.fall.1)
    (fits : r.pace.dividend r.fall.1 < 2 ^ 31) : (4 * r.count + 1) * r.fall.2 < 2 ^ 31 := by
  by_cases last : r.count = 0
  · unfold Pace.dividend at fits
    rw [r.fall_last last] at fits pull
    rw [last]
    nlinarith
  · have divisor : (4 * r.count + 1) * r.fall.2 ≤ 0 :=
      Int.mul_nonpos_of_nonpos_of_nonneg (by omega) (r.fall_scale n2)
    omega

theorem Near.slow_iff {limit : Int} (near : r.Near limit) (least : 0 ≤ limit)
    (above : limit ≤ r.pace.delay) (rest : 0 ≤ r.pace.rest) (n2 : 0 ≤ r.n2)
    (slowing : r.count ≤ 0) (pull : 0 ≤ r.fall.1) :
    limit ≤ r.slow.pace.delay ↔ r.Stays limit := by
  obtain ⟨low, high⟩ := near
  have scale := r.fall_scale n2
  have dividend := r.pace.dividend_nonneg (by omega) rest pull
  change limit ≤ (r.change r.fall).delay % 2 ^ 16 ↔ _
  unfold Stays
  by_cases last : r.count = 0
  · by_cases flat : r.fall.2 = 0
    · have same : (r.change r.fall).delay = r.pace.delay := by
        unfold change Pace.change
        rw [flat, Int.mul_zero, Int.tdiv_zero, Int.sub_zero]
      rw [same] at low high ⊢
      omega
    · have turned : (r.change r.fall).delay ≤ -r.pace.delay := by
        unfold change
        rw [last, r.fall_last last, Int.mul_zero, Int.zero_add, Int.one_mul]
        exact Pace.change_turns (by omega) rest (by omega)
      omega
  · have slower : r.pace.delay ≤ (r.change r.fall).delay :=
      Pace.change_slows dividend (Int.mul_nonpos_of_nonpos_of_nonneg (by omega) scale)
    omega

theorem Stays.near {limit : Int} (stays : r.Stays limit) (least : 0 ≤ limit) : r.Near limit := by
  obtain ⟨low, high⟩ := stays
  exact ⟨by omega, by omega⟩

theorem Armed.decel (armed : r.Armed) (phase : r.phase = .rsDecel) (slowing : r.count < 0)
    (fits : r.countDecel.DecelFits) : r.decel.Armed := by
  have counted : r.countDecel.count ≤ 0 := Int.add_one_le_of_lt slowing
  have phase' : r.decel.phase = .rsStop ∨ r.decel.phase = .rsDecel := by
    change (if _ then _ else r.phase) = _ ∨ (if _ then _ else r.phase) = _
    rw [phase]
    split
    · exact .inl rfl
    · exact .inr rfl
  have stays : r.countDecel.Stays 2 := fits.2.2.2
  have long := ((stays.near (by decide)).slow_iff (by decide) armed.delay armed.rest armed.n2 counted
    fits.1).mpr stays
  refine ⟨long, ?_, armed.n2, fun climb => ?_, fun cruise => ?_⟩
  · exact Pace.change_rest_nonneg
      (Pace.dividend_nonneg (Int.le_trans (by decide) armed.delay) armed.rest fits.1)
  · rw [climb] at phase'
    exact absurd phase' (by decide)
  · rw [cruise] at phase'
    exact absurd phase' (by decide)

theorem Armed.next (armed : r.Armed) (more : ¬ r.Over) (fits : r.StepFits)
    (slowing : r.phase = .rsDecel → r.count < 0) : r.next.Armed := by
  unfold Ramp.next
  unfold StepFits at fits
  cases phase : r.phase with
  | rsAccel => exact armed.countStep.accel phase
  | rsRun => exact armed.countStep.run phase (countStep_within more)
  | rsDecel =>
      rw [phase] at fits
      exact armed.countStep.decel phase (slowing phase) fits
  | rsStop => exact armed.countStep

theorem StepFits.words (fits : r.StepFits) (armed : r.Armed)
    (slowing : r.phase = .rsDecel → r.count < 0) : r.WordsFit := by
  unfold StepFits at fits
  unfold WordsFit
  cases phase : r.phase with
  | rsAccel =>
      rw [phase] at fits
      exact fits
  | rsDecel =>
      rw [phase] at fits
      obtain ⟨pull, high, least, -, -⟩ := fits
      have counted : r.countDecel.count ≤ 0 := Int.add_one_le_of_lt (slowing phase)
      exact ⟨pull, high, least,
        r.countDecel.divisor_lt armed.delay armed.rest armed.n2 counted pull high⟩
  | _ => trivial

theorem Carried.leaveAccel (carried : r.Carried) : r.leaveAccel.Carried := by
  unfold Ramp.leaveAccel
  split
  · exact ⟨carried.rest, nofun⟩
  · split
    · exact ⟨le_refl 0, nofun⟩
    · exact carried

theorem Carried.next (carried : r.Carried) (delay : 0 ≤ r.pace.delay) (n2 : 0 ≤ r.n2)
    (words : r.WordsFit) : r.next.Carried := by
  unfold Ramp.next
  unfold WordsFit at words
  cases phase : r.phase with
  | rsAccel =>
      have counted : r.countStep.Carried := ⟨carried.rest, carried.climbing⟩
      obtain ⟨first, scale, dividend, -, -⟩ := counted.climb delay n2 phase
      refine Carried.leaveAccel ⟨Pace.change_rest_nonneg dividend, fun _ => ⟨?_, ?_⟩⟩
      · exact Int.le_trans (by decide) first
      · exact Pace.change_rest_lt (Int.mul_pos (by omega) scale)
  | rsRun =>
      dsimp only
      unfold Ramp.run
      split
      · exact ⟨carried.rest, nofun⟩
      · exact ⟨carried.rest, fun climb => (by cases phase.symm.trans climb)⟩
  | rsDecel =>
      rw [phase] at words
      have phase' : r.countStep.decel.phase ≠ .rsAccel := by
        change (if _ then _ else r.phase) ≠ _
        rw [phase]
        split <;> nofun
      exact ⟨Pace.change_rest_nonneg (Pace.dividend_nonneg delay carried.rest words.1),
        fun climb => absurd climb phase'⟩
  | rsStop => exact ⟨carried.rest, carried.climbing⟩

def order (r : Ramp) : Option Nat × Nat := (r.request, r.taken)

theorem countAccel_order (r : Ramp) : r.countAccel.order = r.order := by
  unfold countAccel
  dsimp only
  split <;> rfl

theorem leaveAccel_order (r : Ramp) : r.leaveAccel.order = r.order := by
  unfold leaveAccel
  split
  · rfl
  · split <;> rfl

theorem run_order (r : Ramp) : r.run.order = r.order := by
  unfold run
  split <;> rfl

theorem next_order (r : Ramp) : r.next.order = r.countStep.order := by
  unfold next
  split
  · exact (leaveAccel_order _).trans (countAccel_order _)
  · exact run_order _
  · rfl
  · rfl

theorem Flat.next (flat : r.Flat) : r.next.Flat := by
  obtain ⟨curve, n2, slow | stop⟩ := flat
  · unfold Ramp.next
    rw [slow]
    refine ⟨curve, n2, ?_⟩
    change (if _ then _ else r.phase) = _ ∨ (if _ then _ else r.phase) = _
    rw [slow]
    split
    · exact .inr rfl
    · exact .inl rfl
  · unfold Ramp.next
    rw [stop]
    exact ⟨curve, n2, .inr stop⟩

theorem Flat.along {pass : Ramp → Prop} (flat : r.Flat) (passes : ∀ r, r.Flat → pass r) (n : Nat) :
    Along pass n r := by
  induction n generalizing r with
  | zero => trivial
  | succ n ih => exact .inr ⟨passes r flat, ih flat.next⟩

theorem along_of_finite {pass : Ramp → Prop} (m : Nat) {k : Nat} (request : r.request = some k)
    (left : k ≤ r.taken + m) (along : Along pass m r) (n : Nat) : Along pass n r := by
  induction m generalizing r n with
  | zero =>
      cases n with
      | zero => trivial
      | succ n => exact .inl ⟨k, request, left⟩
  | succ m ih =>
      cases n with
      | zero => trivial
      | succ n =>
          refine along.imp_right fun ⟨step, rest⟩ => ⟨step, ?_⟩
          obtain ⟨request', taken⟩ := Prod.mk.inj r.next_order
          have counted : r.countStep.taken = r.taken + 1 := if_neg (by rw [request]; nofun)
          exact ih (request'.trans request) (by omega) rest n

theorem fits_iff_along (n : Nat) (r : Ramp) : r.Fits n ↔ Along StepFits n r := by
  induction n generalizing r with
  | zero => exact Iff.rfl
  | succ n ih => exact or_congr_right (and_congr_right fun _ => ih r.next)

theorem fits_of_finite (m : Nat) {k : Nat} (request : r.request = some k) (left : k ≤ r.taken + m)
    (fits : r.Fits m) (n : Nat) : r.Fits n :=
  (fits_iff_along n r).mpr (along_of_finite m request left ((fits_iff_along m r).mp fits) n)

end Step

end Ramp

end MotionBoard
