import Mathlib.Logic.Function.Iterate
import MotionBoard.Timer.Period

namespace MotionBoard

inductive DelayLoop
  | wrapping
  | waiting
  | returned
  deriving DecidableEq, Repr

structure Delay where
  despire : UInt32
  loop : DelayLoop
  deriving DecidableEq, Repr

namespace Delay
variable (sTimCount : UInt32) (delay : Delay)

def read : Delay :=
  match delay.loop with
  | .wrapping => if sTimCount > delay.despire then delay else { delay with loop := .waiting }
  | .waiting => if sTimCount ≤ delay.despire then delay else { delay with loop := .returned }
  | .returned => delay

def reads (count : Nat) : Delay := (read sTimCount)^[count] delay

theorem read_read : (delay.read sTimCount).read sTimCount = delay.read sTimCount := by
  obtain ⟨despire, loop⟩ := delay
  cases loop with
  | wrapping =>
      by_cases high : sTimCount > despire
      · simp [read, high]
      · simp [read, high, UInt32.not_lt.mp high]
  | waiting =>
      by_cases low : sTimCount ≤ despire
      · simp [read, low]
      · simp [read, low]
  | returned => rfl

theorem reads_eq {count : Nat} (positive : 1 ≤ count) :
    delay.reads sTimCount count = delay.read sTimCount := by
  induction count, positive using Nat.le_induction with
  | base => rfl
  | succ count _ ih =>
      rw [reads, Function.iterate_succ_apply']
      rw [reads] at ih
      rw [ih, read_read]

end Delay

namespace Timers
variable {Func Param : Type} (timers : Timers Func Param) (ms : UInt32) (count : Nat → Nat)

def hmDelay : Delay := ⟨timers.sTimCount + ms, .wrapping⟩

/-- The call when `n` ticks are over and the counter has been read `count` times after each. -/
def delayed : Nat → Delay
  | 0 => (timers.hmDelay ms).reads timers.sTimCount (count 0)
  | n + 1 => (delayed n).reads (timers.ticks (n + 1)).1.sTimCount (count (n + 1))

def Returned (n : Nat) : Prop := (timers.delayed ms count n).loop = .returned

theorem ticks_sTimCount (n : Nat) :
    (timers.ticks n).1.sTimCount.toNat = (timers.sTimCount.toNat + n) % 2 ^ 32 := by
  induction n with
  | zero => exact (Nat.mod_eq_of_lt timers.sTimCount.toNat_lt).symm
  | succ n ih =>
      change ((timers.ticks n).1.sTimCount + 1).toNat = _
      rw [UInt32.toNat_add, ih]
      exact Nat.mod_add_mod _ _ _

def wraps : Nat :=
  if timers.sTimCount.toNat + ms.toNat < 2 ^ 32 then 0 else 2 ^ 32 - timers.sTimCount.toNat

section Loops
variable {timers ms count} {n : Nat}

theorem ticks_gt_iff (early : n ≤ ms.toNat) :
    (timers.ticks n).1.sTimCount > timers.sTimCount + ms ↔ n < timers.wraps ms := by
  have start := timers.sTimCount.toNat_lt
  have length := ms.toNat_lt
  rw [gt_iff_lt, UInt32.lt_iff_toNat_lt, UInt32.toNat_add, ticks_sTimCount]
  unfold wraps
  split <;> omega

theorem wraps_le : timers.wraps ms ≤ ms.toNat := by
  have length := ms.toNat_lt
  unfold wraps
  split <;> omega

theorem ticks_end (last : timers.sTimCount + ms ≠ 0xFFFFFFFF) :
    (timers.ticks (ms.toNat + 1)).1.sTimCount > timers.sTimCount + ms := by
  have below : (timers.sTimCount + ms).toNat ≠ 2 ^ 32 - 1 := fun same =>
    last (UInt32.toNat_inj.mp same)
  rw [gt_iff_lt, UInt32.lt_iff_toNat_lt, ticks_sTimCount]
  rw [UInt32.toNat_add] at below ⊢
  omega

variable (each : ∀ n, 1 ≤ count n)
include each

theorem delayed_succ (n : Nat) :
    timers.delayed ms count (n + 1) =
      (timers.delayed ms count n).read (timers.ticks (n + 1)).1.sTimCount :=
  Delay.reads_eq _ _ (each _)

theorem delayed_early (early : n ≤ ms.toNat) :
    timers.delayed ms count n =
      ⟨timers.sTimCount + ms, if n < timers.wraps ms then .wrapping else .waiting⟩ := by
  have above : (timers.ticks n).1.sTimCount > _ ↔ _ := ticks_gt_iff early
  induction n with
  | zero =>
      change (timers.hmDelay ms).reads timers.sTimCount (count 0) = _
      rw [Delay.reads_eq _ _ (each 0)]
      change timers.sTimCount > _ ↔ _ at above
      simp only [Delay.read, hmDelay, above]
      split <;> rfl
  | succ n ih =>
      rw [delayed_succ each, ih (by omega) (ticks_gt_iff (by omega))]
      by_cases wrapping : n < timers.wraps ms
      · simp only [Delay.read, wrapping, if_true, above]
        split <;> rfl
      · have low : ¬ n + 1 < timers.wraps ms := fun less => wrapping (by omega)
        have waits := UInt32.not_lt.mp (mt above.mp low)
        simp only [Delay.read, wrapping, low, if_false, waits, if_true]

theorem delayed_late (last : timers.sTimCount + ms ≠ 0xFFFFFFFF) (late : ms.toNat + 1 ≤ n) :
    timers.delayed ms count n = ⟨timers.sTimCount + ms, .returned⟩ := by
  induction n, late using Nat.le_induction with
  | base =>
      have low : ¬ ms.toNat < timers.wraps ms := Nat.not_lt.mpr wraps_le
      have ends := UInt32.not_le.mpr (ticks_end last)
      rw [delayed_succ each, delayed_early each (Nat.le_refl _)]
      simp only [Delay.read, low, if_false, ends]
  | succ n _ ih =>
      rw [delayed_succ each, ih]
      rfl

theorem delayed_endless (last : timers.sTimCount + ms = 0xFFFFFFFF) :
    timers.delayed ms count n = ⟨timers.sTimCount + ms, .waiting⟩ := by
  have low (m : Nat) : (timers.ticks m).1.sTimCount ≤ timers.sTimCount + ms := by
    have bound := (timers.ticks m).1.sTimCount.toNat_lt
    rw [last, UInt32.le_iff_toNat_le]
    exact Nat.le_of_lt_succ bound
  induction n with
  | zero =>
      have unwrapped : ¬ 0 < timers.wraps ms := mt (ticks_gt_iff (Nat.zero_le _)).mpr
        (UInt32.not_lt.mpr (low 0))
      rw [delayed_early each (Nat.zero_le _), if_neg unwrapped]
  | succ n ih =>
      rw [delayed_succ each, ih]
      simp only [Delay.read, low, if_true]

theorem returned_iff (last : timers.sTimCount + ms ≠ 0xFFFFFFFF) :
    timers.Returned ms count n ↔ ms.toNat + 1 ≤ n := by
  constructor
  · intro returned
    by_contra early
    rw [Returned, delayed_early each (by omega)] at returned
    dsimp only at returned
    split at returned <;> cases returned
  · intro late
    rw [Returned, delayed_late each last late]

theorem not_returned (last : timers.sTimCount + ms = 0xFFFFFFFF) :
    ¬ timers.Returned ms count n := by
  intro returned
  rw [Returned, delayed_endless each last] at returned
  cases returned

end Loops

/-- However often the counter is read at each of its values, `hm_delay` returns when one tick more
than `ms` is over, and at all, exactly when it is not to wait for the last value of the counter. -/
theorem delay_returns_iff (each : ∀ n, 1 ≤ count n) :
    ((∀ n, timers.Returned ms count n ↔ ms.toNat + 1 ≤ n) ↔
        timers.sTimCount + ms ≠ 0xFFFFFFFF) ∧
      ((∃ n, timers.Returned ms count n) ↔ timers.sTimCount + ms ≠ 0xFFFFFFFF) := by
  refine ⟨⟨fun exactly last => ?_, fun last n => returned_iff each last⟩,
    fun ⟨n, returned⟩ last => not_returned each last returned,
    fun last => ⟨_, (returned_iff each last).mpr (Nat.le_refl _)⟩⟩
  exact not_returned each last ((exactly _).mpr (Nat.le_refl _))

theorem delay_returns_wrapping :
    Timers.Returned { blank with sTimCount := 0xFFFFFFFE } 500 (fun _ => 1) 501 ∧
      ¬Timers.Returned { blank with sTimCount := 0xFFFFFFFE } 500 (fun _ => 1) 500 := by
  have exactly := (delay_returns_iff { blank with sTimCount := 0xFFFFFFFE } 500 (fun _ => 1)
    fun _ => Nat.le_refl 1).1.mpr (by decide)
  exact ⟨(exactly 501).mpr (Nat.le_refl _), fun early => absurd ((exactly 500).mp early) (by decide)⟩

theorem delay_never_returns :
    ¬ ∃ n, Timers.Returned { blank with sTimCount := 4294966795 } 500 (fun _ => 1) n :=
  fun ⟨_, returned⟩ => not_returned (fun _ => Nat.le_refl 1) (by decide) returned

end Timers

end MotionBoard
