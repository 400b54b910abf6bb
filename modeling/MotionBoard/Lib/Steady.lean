import Mathlib.Data.List.Infix
import MotionBoard.Lib.Transition

namespace Transition
variable {State Event : Type*}

def Steady (works beats : Event → Bool) (bound : Nat) (es : List Event) : Prop :=
  ∀ stretch, stretch <:+: es → (∀ e ∈ stretch, works e = false) → stretch.countP beats ≤ bound

def quiet (works beats : Event → Bool) (q : Nat) (e : Event) : Nat :=
  if works e then 0 else if beats e then q + 1 else q

def Paced (works beats : Event → Bool) (bound : Nat) : Nat → List Event → Prop
  | _, [] => True
  | q, e :: es => quiet works beats q e ≤ bound ∧ Paced works beats bound (quiet works beats q e) es

section Steady
variable {works beats : Event → Bool} {bound q : Nat} {es later : List Event} {e : Event}

theorem Steady.tail (steady : Steady works beats bound (e :: es)) : Steady works beats bound es :=
  fun stretch inside => steady stretch (inside.trans (List.suffix_cons e es).isInfix)

theorem Steady.paced (steady : Steady works beats bound es)
    (start : ∀ stretch, stretch <+: es → (∀ e ∈ stretch, works e = false) →
      q + stretch.countP beats ≤ bound) : Paced works beats bound q es := by
  induction es generalizing q with
  | nil => trivial
  | cons e es ih =>
      by_cases work : works e
      · have zero : quiet works beats q e = 0 := if_pos work
        refine ⟨by rw [zero]; exact Nat.zero_le _, ih steady.tail fun stretch inside idle => ?_⟩
        rw [zero, Nat.zero_add]
        exact steady stretch (inside.isInfix.trans (List.suffix_cons e es).isInfix) idle
      · rw [Bool.not_eq_true] at work
        -- the stretch that is under way becomes longer by `e`
        have later (stretch : List Event) (inside : stretch <+: es)
            (idle : ∀ e ∈ stretch, works e = false) :
            quiet works beats q e + stretch.countP beats ≤ bound := by
          have longer := start (e :: stretch) (List.cons_prefix_cons.mpr ⟨rfl, inside⟩)
            (List.forall_mem_cons.mpr ⟨work, idle⟩)
          rw [List.countP_cons] at longer
          unfold quiet
          rw [if_neg (by simp [work])]
          split at longer
          · rename_i beat
            rw [if_pos beat]
            omega
          · rename_i beat
            rw [if_neg beat]
            omega
        refine ⟨?_, ih steady.tail later⟩
        simpa using later [] List.nil_prefix (List.forall_mem_nil _)

theorem Steady.paced_zero (steady : Steady works beats bound es) :
    Paced works beats bound 0 es :=
  steady.paced fun stretch inside idle => by
    rw [Nat.zero_add]
    exact steady stretch inside.isInfix idle

theorem Paced.round {beat work : Event} {n : Nat} (paced : Paced works beats bound 0 es)
    (still : works beat = false) (counts : beats beat) (ends : works work)
    (few : q + n ≤ bound) : Paced works beats bound q (List.replicate n beat ++ work :: es) := by
  induction n generalizing q with
  | zero =>
      have zero : quiet works beats q work = 0 := if_pos ends
      refine ⟨?_, ?_⟩
      · rw [zero]
        exact Nat.zero_le _
      · rw [zero]
        exact paced
  | succ n ih =>
      have next : quiet works beats q beat = q + 1 := by simp [quiet, still, counts]
      refine ⟨?_, ?_⟩
      · rw [next]
        omega
      · rw [next]
        exact ih (by omega)

theorem Paced.first (paced : Paced works beats bound q (es ++ later)) :
    Paced works beats bound q es := by
  induction es generalizing q with
  | nil => trivial
  | cons e es ih => exact ⟨paced.1, ih paced.2⟩

theorem Paced.append (paced : Paced works beats bound q (es ++ later)) :
    ∃ q', Paced works beats bound q' later ∧ (q ≤ bound → q' ≤ bound) := by
  induction es generalizing q with
  | nil => exact ⟨q, paced, id⟩
  | cons e es ih =>
      obtain ⟨q', rest, within⟩ := ih paced.2
      exact ⟨q', rest, fun _ => within paced.1⟩

theorem Paced.idle (paced : Paced works beats bound q (es ++ later)) (within : q ≤ bound)
    (idle : ∀ e ∈ es, works e = false) : q + es.countP beats ≤ bound := by
  induction es generalizing q with
  | nil => exact within
  | cons e es ih =>
      obtain ⟨first, rest⟩ := List.forall_mem_cons.mp idle
      obtain ⟨next, paced⟩ := paced
      have bound_ := ih paced next rest
      rw [List.countP_cons]
      unfold quiet at bound_
      rw [if_neg (by simp [first])] at bound_
      split at bound_
      · rename_i beat
        rw [if_pos beat]
        omega
      · rename_i beat
        rw [if_neg beat]
        omega

theorem steady_iff_paced : Steady works beats bound es ↔ Paced works beats bound 0 es := by
  refine ⟨Steady.paced_zero, fun paced stretch inside idle => ?_⟩
  obtain ⟨before, after, rfl⟩ := inside
  rw [List.append_assoc] at paced
  obtain ⟨q, rest, within⟩ := paced.append
  exact Nat.le_trans (Nat.le_add_left _ _) (rest.idle (within (Nat.zero_le _)) idle)

instance decidablePaced : (q : Nat) → (es : List Event) → Decidable (Paced works beats bound q es)
  | _, [] => isTrue trivial
  | q, e :: es =>
      have := decidablePaced (quiet works beats q e) es
      inferInstanceAs (Decidable (_ ∧ _))

instance : Decidable (Steady works beats bound es) := decidable_of_iff' _ steady_iff_paced

/-- With `n` works there are at most `n + 1` stretches of beats. -/
theorem Paced.count_le (paced : Paced works beats bound q es) (within : q ≤ bound)
    (apart : ∀ e, works e → beats e = false) :
    q + es.countP beats ≤ bound * (es.countP works + 1) := by
  induction es generalizing q with
  | nil => simpa using within
  | cons e es ih =>
      obtain ⟨next, rest⟩ := paced
      have rest_ := ih rest next
      rw [List.countP_cons, List.countP_cons]
      unfold quiet at rest_
      by_cases work : works e
      · simp only [work, apart e work, if_true, Bool.false_eq_true, if_false] at rest_ ⊢
        rw [Nat.mul_add bound _ 1, Nat.mul_one]
        omega
      · by_cases beat : beats e
        · simp only [work, beat, if_true, Bool.false_eq_true, if_false, Nat.add_zero] at rest_ ⊢
          omega
        · simp only [work, beat, Bool.false_eq_true, if_false, Nat.add_zero] at rest_ ⊢
          omega

end Steady

def PacedStep (works beats : Event → Bool) (bound : Nat) (step : State → Event → State → Prop)
    (before : Nat × State) (e : Event) (after : Nat × State) : Prop :=
  step before.2 e after.2 ∧ after.1 = quiet works beats before.1 e ∧ after.1 ≤ bound

section Run
variable {works beats : Event → Bool} {bound q : Nat} {es later : List Event}
  {step : State → Event → State → Prop} {s t : State}

theorem Run.paced (run : Run step s es t) (paced : Paced works beats bound q (es ++ later)) :
    ∃ q', Run (PacedStep works beats bound step) (q, s) es (q', t) ∧
      Paced works beats bound q' later := by
  induction run generalizing q with
  | nil => exact ⟨q, .nil, paced⟩
  | cons move _ ih =>
      obtain ⟨next, paced⟩ := paced
      obtain ⟨q', rest, left⟩ := ih paced
      exact ⟨q', .cons ⟨move, rfl, next⟩ rest, left⟩

theorem Paced.few_beats (paced : Paced works beats bound q es) (within : q ≤ bound)
    (apart : ∀ e, works e → beats e = false) {most : Nat} (few : es.countP works ≤ most) :
    es.countP beats ≤ bound * (most + 1) := by
  have count := paced.count_le within apart
  have grows := Nat.mul_le_mul_left bound (Nat.add_le_add_right few 1)
  omega

end Run

theorem exists_prefix_countP {test : Event → Bool} {es : List Event} {n : Nat}
    (enough : n ≤ es.countP test) : ∃ first rest, es = first ++ rest ∧ first.countP test = n := by
  induction es generalizing n with
  | nil => exact ⟨[], [], rfl, (Nat.le_zero.mp enough).symm⟩
  | cons e es ih =>
      cases n with
      | zero => exact ⟨[], e :: es, rfl, rfl⟩
      | succ n =>
          rw [List.countP_cons] at enough
          by_cases counts : test e
          · rw [if_pos counts] at enough
            obtain ⟨first, rest, rfl, count⟩ := ih (Nat.le_of_succ_le_succ enough)
            exact ⟨e :: first, rest, rfl, by rw [List.countP_cons_of_pos counts, count]⟩
          · rw [if_neg counts] at enough
            obtain ⟨first, rest, rfl, count⟩ := ih enough
            exact ⟨e :: first, rest, rfl, by rw [List.countP_cons_of_neg counts, count]⟩

end Transition
