import MotionBoard.Timer.Period

namespace MotionBoard

variable {Func Param : Type}

namespace HmTimer

def Going (timer : HmTimer Func Param) : Prop :=
  timer.func.isSome →
    1 ≤ timer.ms.toNat ∧ timer.ms.toNat ≤ timer.period.toNat ∧ timer.once = false

def tick (timer : HmTimer Func Param) : HmTimer Func Param :=
  { timer with ms := if timer.ms - 1 = 0 then timer.period else timer.ms - 1 }

theorem Going.tick {timer : HmTimer Func Param} (going : timer.Going) : timer.tick.Going := by
  intro registered
  obtain ⟨positive, within, periodic⟩ := going registered
  have pred : (timer.ms - 1).toNat = timer.ms.toNat - 1 :=
    UInt32.toNat_sub_of_le _ _ (UInt32.le_iff_toNat_le.mpr positive)
  refine ⟨?_, ?_, periodic⟩
  · unfold HmTimer.tick
    dsimp only
    split
    · exact Nat.le_trans positive within
    · rename_i early
      have more : (timer.ms - 1).toNat ≠ 0 := fun zero => early (UInt32.toNat_inj.mp zero)
      omega
  · unfold HmTimer.tick
    dsimp only
    split
    · exact Nat.le_refl _
    · omega

end HmTimer

namespace Timers

def cutBefore (expiry : Option (Expiry Func Param)) (slot : Nat) : Bool :=
  expiry.any fun expiry => expiry.slot < slot

def expiredBefore (expiries : List (Expiry Func Param)) (slot : Nat) : Nat :=
  expiries.countP fun expiry => expiry.slot < slot

def Going (timers : Timers Func Param) : Prop := ∀ timer ∈ timers.sTimers, timer.Going

def expires (expiry : Option (Expiry Func Param)) (slot : Nat) : Bool :=
  expiry.any fun expiry => expiry.slot = slot

section Tick
variable {timers : List (HmTimer Func Param)} {timer : HmTimer Func Param} {idx slot : Nat}

theorem expires_eq_false {expiry : Option (Expiry Func Param)}
    (later : ∀ expiry' ∈ expiry, idx + 1 ≤ expiry'.slot) : expires expiry idx = false := by
  cases expiry with
  | none => rfl
  | some expiry =>
      have := later expiry rfl
      exact decide_eq_false (by omega)

theorem cutBefore_eq_false {expiry : Option (Expiry Func Param)}
    (later : ∀ expiry' ∈ expiry, idx ≤ expiry'.slot) : cutBefore expiry idx = false := by
  cases expiry with
  | none => rfl
  | some expiry => exact decide_eq_false (Nat.not_lt.mpr (later expiry rfl))

def TickAt (timer : HmTimer Func Param) (after : Option (HmTimer Func Param))
    (expiry : Option (Expiry Func Param)) (slot : Nat) : Prop :=
  if timer.func.isSome ∧ cutBefore expiry slot = false then
    after = some timer.tick ∧ expires expiry slot = decide (timer.ms - 1 = 0)
  else after = some timer ∧ expires expiry slot = false

theorem tickAt (going : ∀ timer ∈ timers, timer.Going) (get : timers[slot]? = some timer) :
    TickAt timer (sysTickLoop timers idx).1[slot]? (sysTickLoop timers idx).2 (idx + slot) := by
  induction timers generalizing idx slot with
  | nil => cases get
  | cons first rest ih =>
      have later : ∀ expiry ∈ (sysTickLoop rest (idx + 1)).2, idx + 1 ≤ expiry.slot :=
        fun _ expires => sysTickLoop_slot expires
      have early : ∀ expiry ∈ (sysTickLoop rest (idx + 1)).2, idx ≤ expiry.slot :=
        fun expiry member => Nat.le_of_succ_le (later expiry member)
      obtain ⟨firstGoing, restGoing⟩ := List.forall_mem_cons.mp going
      obtain ⟨func, param, period, ms, once, direct⟩ := first
      unfold sysTickLoop
      cases slot with
      | zero =>
          obtain rfl := Option.some.inj get
          cases func with
          | none => exact ⟨rfl, expires_eq_false later⟩
          | some func =>
              obtain ⟨-, -, periodic⟩ := firstGoing rfl
              dsimp only at periodic
              subst periodic
              dsimp only
              split
              · rename_i due
                have here : cutBefore (some (⟨idx, func, param, direct⟩ : Expiry Func Param))
                    (idx + 0) = false := cutBefore_eq_false (by simp)
                unfold TickAt
                rw [if_pos ⟨rfl, here⟩]
                refine ⟨?_, ?_⟩
                · simp [HmTimer.tick, due]
                · simp [expires, due]
              · rename_i wait
                unfold TickAt
                rw [if_pos ⟨rfl, cutBefore_eq_false early⟩]
                refine ⟨?_, (expires_eq_false later).trans (decide_eq_false wait).symm⟩
                simp [HmTimer.tick, wait]
      | succ slot =>
          have rest_ : TickAt timer (sysTickLoop rest (idx + 1)).1[slot]?
              (sysTickLoop rest (idx + 1)).2 (idx + 1 + slot) := ih restGoing get
          rw [Nat.add_right_comm, Nat.add_assoc] at rest_
          cases func with
          | none => exact rest_
          | some func =>
              obtain ⟨-, -, periodic⟩ := firstGoing rfl
              dsimp only at periodic
              subst periodic
              dsimp only
              split
              · have cut : cutBefore (some (⟨idx, func, param, direct⟩ : Expiry Func Param))
                    (idx + (slot + 1)) = true := decide_eq_true (by dsimp only; omega)
                unfold TickAt
                rw [if_neg (by simp [cut])]
                exact ⟨get, decide_eq_false (by dsimp only; omega)⟩
              · exact rest_

theorem sysTickLoop_going (going : ∀ timer ∈ timers, timer.Going) :
    ∀ timer ∈ (sysTickLoop timers idx).1, timer.Going := by
  intro after member
  obtain ⟨slot, get⟩ := List.mem_iff_getElem?.mp member
  have length : (sysTickLoop timers idx).1.length = timers.length := by
    have plan : (sysTickLoop timers idx).1.map HmTimer.plan = timers.map HmTimer.plan :=
      sysTickLoop_plan fun timer member registered => (going timer member registered).2.2
    simpa using congrArg List.length plan
  obtain ⟨inside, -⟩ := List.getElem?_eq_some_iff.mp get
  rw [length] at inside
  have before := List.getElem?_eq_getElem inside
  have at_ : TickAt _ (sysTickLoop timers idx).1[slot]? (sysTickLoop timers idx).2 (idx + slot) :=
    tickAt going before
  have kept := going _ (List.getElem_mem inside)
  unfold TickAt at at_
  rw [get] at at_
  split at at_
  · obtain rfl := Option.some.inj at_.1
    exact kept.tick
  · obtain rfl := Option.some.inj at_.1
    exact kept

end Tick

section Ticks
variable {timers : Timers Func Param} {timer : HmTimer Func Param} {slot n : Nat}

theorem expiredBefore_append (expiries : List (Expiry Func Param))
    (expiry : Option (Expiry Func Param)) : expiredBefore (expiries ++ expiry.toList) slot =
      expiredBefore expiries slot + if cutBefore expiry slot then 1 else 0 := by
  cases expiry with
  | none => simp [expiredBefore, cutBefore]
  | some expiry =>
      simp [expiredBefore, cutBefore, List.countP_append, List.countP_singleton]

theorem expired_append_expires (expiries : List (Expiry Func Param))
    (expiry : Option (Expiry Func Param)) : expired (expiries ++ expiry.toList) slot =
      expired expiries slot + if expires expiry slot then 1 else 0 := by
  cases expiry with
  | none => simp [expired, expires]
  | some expiry => simp [expired, expires, List.countP_append, List.countP_singleton]

def Passed (timer : HmTimer Func Param) (expiries : List (Expiry Func Param)) (slot n : Nat)
    (ms : UInt32) : Prop :=
  if timer.func.isSome then
    timer.period.toNat * expired expiries slot + (timer.period.toNat - ms.toNat) +
      expiredBefore expiries slot = (timer.period.toNat - timer.ms.toNat) + n
  else expired expiries slot = 0

theorem ticks_going (going : timers.Going) (n : Nat) : (timers.ticks n).1.Going := by
  induction n with
  | zero => exact going
  | succ n ih => exact sysTickLoop_going ih

theorem ticks_passed (going : timers.Going) (get : timers.sTimers[slot]? = some timer) (n : Nat) :
    ∃ ms, (timers.ticks n).1.sTimers[slot]? = some { timer with ms := ms } ∧
      Passed timer (timers.ticks n).2 slot n ms := by
  induction n with
  | zero =>
      refine ⟨timer.ms, get, ?_⟩
      unfold Passed
      split <;> simp [ticks, expired, expiredBefore]
  | succ n ih =>
      obtain ⟨ms, before, passed⟩ := ih
      have kept := ticks_going going n
      have bounds := kept _ (List.mem_of_getElem? before)
      have at_ : TickAt { timer with ms := ms } (sysTickLoop (timers.ticks n).1.sTimers 0).1[slot]?
          (sysTickLoop (timers.ticks n).1.sTimers 0).2 (0 + slot) := tickAt kept before
      rw [Nat.zero_add] at at_
      change ∃ ms, (sysTickLoop _ 0).1[slot]? = _ ∧
        Passed timer ((timers.ticks n).2 ++ Option.toList (sysTickLoop _ 0).2) slot (n + 1) ms
      -- what the tick does to the other slots is of no importance any more
      generalize sysTickLoop (timers.ticks n).1.sTimers 0 = result at at_ ⊢
      unfold TickAt at at_
      unfold Passed at passed ⊢
      simp only [expiredBefore_append, expired_append_expires]
      by_cases registered : timer.func.isSome
      · obtain ⟨positive, within, -⟩ := bounds registered
        dsimp only at positive within
        have pred : (ms - 1).toNat = ms.toNat - 1 :=
          UInt32.toNat_sub_of_le _ _ (UInt32.le_iff_toNat_le.mpr positive)
        simp only [registered, if_true, true_and] at at_ passed ⊢
        by_cases cut : cutBefore result.2 slot = false
        · rw [if_pos cut] at at_
          refine ⟨_, at_.1, ?_⟩
          simp only [at_.2, cut, Bool.false_eq_true, if_false, decide_eq_true_eq]
          by_cases due : ms - 1 = 0
          · rw [due, UInt32.toNat_zero] at pred
            simp only [due, if_true, Nat.mul_succ, Nat.add_zero]
            omega
          · have more : (ms - 1).toNat ≠ 0 := fun zero => due (UInt32.toNat_inj.mp zero)
            simp only [due, if_false, Nat.add_zero]
            omega
        · rw [if_neg cut] at at_
          rw [Bool.not_eq_false] at cut
          refine ⟨ms, at_.1, ?_⟩
          simp only [at_.2, cut, Bool.false_eq_true, if_false, if_true, Nat.add_zero]
          omega
      · simp only [registered, false_and, Bool.false_eq_true, if_false] at at_ passed ⊢
        refine ⟨ms, at_.1, ?_⟩
        rw [passed, at_.2]
        rfl

theorem expiredBefore_zero (expiries : List (Expiry Func Param)) : expiredBefore expiries 0 = 0 := by
  simp [expiredBefore]

theorem expiredBefore_succ (expiries : List (Expiry Func Param)) (slot : Nat) :
    expiredBefore expiries (slot + 1) = expiredBefore expiries slot + expired expiries slot := by
  induction expiries with
  | nil => rfl
  | cons expiry expiries ih =>
      simp only [expiredBefore, expired, List.countP_cons, decide_eq_true_eq] at ih ⊢
      split <;> split <;> split <;> omega

/-- The ticks of `n` that come past the slots `timers`, each of which takes one for each of its
periods. -/
def pass : List (HmTimer Func Param) → Nat → Nat
  | [], n => n
  | timer :: rest, n =>
      pass rest (if timer.func.isSome then n - n / timer.period.toNat else n)

theorem pass_append (first second : List (HmTimer Func Param)) (n : Nat) :
    pass (first ++ second) n = pass second (pass first n) := by
  induction first generalizing n with
  | nil => rfl
  | cons timer first ih => exact ih _

theorem Fresh.going (fresh : timers.Fresh) : timers.Going := by
  intro timer member registered
  obtain ⟨full, positive, periodic⟩ := fresh timer member registered
  rw [full]
  exact ⟨UInt32.le_iff_toNat_le.mp positive, Nat.le_refl _, periodic⟩

theorem Passed.expired_eq {ms : UInt32} {expiries : List (Expiry Func Param)}
    (passed : Passed timer expiries slot n ms) (registered : timer.func.isSome)
    (full : timer.ms = timer.period) (positive : 1 ≤ ms.toNat)
    (within : ms.toNat ≤ timer.period.toNat) :
    expired expiries slot = (n - expiredBefore expiries slot) / timer.period.toNat := by
  unfold Passed at passed
  rw [if_pos registered, full, Nat.sub_self, Nat.zero_add] at passed
  refine (Nat.div_eq_of_lt_le ?_ ?_).symm
  · rw [Nat.mul_comm]
    omega
  · rw [Nat.mul_comm, Nat.mul_succ]
    omega

theorem Fresh.expired_eq (fresh : timers.Fresh) (get : timers.sTimers[slot]? = some timer)
    (registered : timer.func.isSome) (n : Nat) :
    expired (timers.ticks n).2 slot =
      (n - expiredBefore (timers.ticks n).2 slot) / timer.period.toNat := by
  obtain ⟨ms, after, passed⟩ := ticks_passed fresh.going get n
  obtain ⟨positive, within, -⟩ :=
    ticks_going fresh.going n _ (List.mem_of_getElem? after) registered
  obtain ⟨full, -, -⟩ := fresh timer (List.mem_of_getElem? get) registered
  exact passed.expired_eq registered full positive within

theorem ticks_pass (fresh : timers.Fresh) (n : Nat) (inside : slot ≤ timers.sTimers.length) :
    expiredBefore (timers.ticks n).2 slot + pass (timers.sTimers.take slot) n = n := by
  induction slot with
  | zero =>
      rw [expiredBefore_zero, List.take_zero, Nat.zero_add]
      rfl
  | succ slot ih =>
      have before := ih (Nat.le_of_succ_le inside)
      have get := List.getElem?_eq_getElem inside
      rw [List.take_succ_eq_append_getElem inside, pass_append, expiredBefore_succ]
      unfold pass pass
      by_cases registered : timers.sTimers[slot].func.isSome
      · have count : expired (timers.ticks n).2 slot = _ := fresh.expired_eq get registered n
        have reach : n - expiredBefore (timers.ticks n).2 slot = pass (timers.sTimers.take slot) n := by
          omega
        rw [reach] at count
        have most := Nat.div_le_self (pass (timers.sTimers.take slot) n)
          timers.sTimers[slot].period.toNat
        rw [if_pos registered, count]
        omega
      · obtain ⟨ms, -, passed⟩ := ticks_passed fresh.going get n
        unfold Passed at passed
        rw [if_neg registered] at passed ⊢
        rw [passed]
        exact before

theorem Fresh.reach_eq (fresh : timers.Fresh) (get : timers.sTimers[slot]? = some timer)
    (n : Nat) :
    n - expiredBefore (timers.ticks n).2 slot = pass (timers.sTimers.take slot) n := by
  obtain ⟨inside, -⟩ := List.getElem?_eq_some_iff.mp get
  have reach := ticks_pass fresh n (Nat.le_of_lt inside)
  omega

/-- A periodic timer expires once in each of its periods, counted in the ticks that the timers
registered before it let pass. -/
theorem expired_pass (fresh : timers.Fresh) (get : timers.sTimers[slot]? = some timer)
    (registered : timer.func.isSome) (n : Nat) :
    expired (timers.ticks n).2 slot =
      pass (timers.sTimers.take slot) n / timer.period.toNat := by
  rw [fresh.expired_eq get registered, fresh.reach_eq get]

theorem twins_second :
    twins.sTimers[1]? = some ⟨some 2, (), 2, 2, false, false⟩ := by decide

theorem expired_pass_twins : expired (twins.ticks 4).2 1 = 1 :=
  expired_pass twins_fresh twins_second rfl 4

theorem pass_zero (sTimers : List (HmTimer Func Param)) : pass sTimers 0 = 0 := by
  induction sTimers with
  | nil => rfl
  | cons timer rest ih =>
      unfold pass
      split
      · rw [Nat.zero_sub]
        exact ih
      · exact ih

theorem pass_of_one {sTimers : List (HmTimer Func Param)} (member : timer ∈ sTimers)
    (registered : timer.func.isSome) (one : timer.period = 1) : pass sTimers n = 0 := by
  induction sTimers generalizing n with
  | nil => cases member
  | cons first rest ih =>
      unfold pass
      rcases List.mem_cons.mp member with rfl | later
      · rw [if_pos registered, one, UInt32.toNat_one, Nat.div_one, Nat.sub_self]
        exact pass_zero rest
      · exact ih later

theorem le_pass {sTimers : List (HmTimer Func Param)}
    (slow : ∀ timer ∈ sTimers, timer.func.isSome → 2 ≤ timer.period.toNat) :
    n ≤ 2 ^ sTimers.length * pass sTimers n := by
  induction sTimers generalizing n with
  | nil => exact Nat.le_of_eq (Nat.one_mul n).symm
  | cons first rest ih =>
      obtain ⟨firstSlow, restSlow⟩ := List.forall_mem_cons.mp slow
      have half : n ≤ 2 * (if first.func.isSome then n - n / first.period.toNat else n) := by
        split
        · rename_i registered
          have less : n / first.period.toNat ≤ n / 2 :=
            Nat.div_le_div_left (firstSlow registered) (by decide)
          omega
        · omega
      have rest_ := ih restSlow (n := if first.func.isSome then n - n / first.period.toNat else n)
      calc n ≤ 2 * _ := half
        _ ≤ 2 * _ := Nat.mul_le_mul_left 2 rest_
        _ = 2 ^ (rest.length + 1) * _ := by rw [Nat.pow_succ']; exact (Nat.mul_assoc _ _ _).symm

/-- A periodic timer goes on expiring exactly when no timer of 1 ms is registered before it.
Otherwise it never expires. -/
theorem expires_forever_iff (fresh : timers.Fresh) (get : timers.sTimers[slot]? = some timer)
    (registered : timer.func.isSome) :
    ((∀ m, ∃ n, m ≤ expired (timers.ticks n).2 slot) ↔
        ∀ before ∈ timers.sTimers.take slot, before.func.isSome → before.period ≠ 1) ∧
      ((∃ before ∈ timers.sTimers.take slot, before.func.isSome ∧ before.period = 1) →
        ∀ n, expired (timers.ticks n).2 slot = 0) := by
  have positive : 1 ≤ timer.period.toNat :=
    UInt32.le_iff_toNat_le.mp (fresh timer (List.mem_of_getElem? get) registered).2.1
  have starved {before : HmTimer Func Param} (member : before ∈ timers.sTimers.take slot)
      (used : before.func.isSome) (one : before.period = 1) (n : Nat) :
      expired (timers.ticks n).2 slot = 0 := by
    rw [fresh.expired_eq get registered, fresh.reach_eq get, pass_of_one member used one,
      Nat.zero_div]
  refine ⟨⟨fun forever before member used one => ?_, fun slow m => ?_⟩,
    fun ⟨before, member, used, one⟩ => starved member used one⟩
  · obtain ⟨n, some_⟩ := forever 1
    rw [starved member used one] at some_
    exact absurd some_ (by decide)
  · have slow' : ∀ before ∈ timers.sTimers.take slot, before.func.isSome →
        2 ≤ before.period.toNat := by
      intro before member used
      have least := (fresh before (List.mem_of_mem_take member) used).2.1
      have other := slow before member used
      rw [UInt32.le_iff_toNat_le, UInt32.toNat_one] at least
      rw [ne_eq, ← UInt32.toNat_inj, UInt32.toNat_one] at other
      omega
    refine ⟨2 ^ (timers.sTimers.take slot).length * (m * timer.period.toNat), ?_⟩
    have enough := le_pass slow'
      (n := 2 ^ (timers.sTimers.take slot).length * (m * timer.period.toNat))
    rw [fresh.expired_eq get registered, fresh.reach_eq get, Nat.le_div_iff_mul_le positive]
    exact Nat.le_of_mul_le_mul_left enough (Nat.two_pow_pos _)

def hog : Timers Nat Unit :=
  ((blank.hmTimerInit.hmTimerRegister 1 (some 1) () false true).2.hmTimerRegister 2 (some 2) ()
    false false).2

theorem hog_fresh : hog.Fresh :=
  hmTimerRegister_fresh (hmTimerRegister_fresh (hmTimerInit_fresh blank) (by decide) _ _ _)
    (by decide) _ _ _

theorem hog_second : hog.sTimers[1]? = some ⟨some 2, (), 2, 2, false, false⟩ := by decide

theorem expires_forever_twins :
    (∀ m, ∃ n, m ≤ expired (twins.ticks n).2 1) ∧ ∀ n, expired (hog.ticks n).2 1 = 0 :=
  ⟨(expires_forever_iff twins_fresh twins_second rfl).1.mpr (by decide),
    (expires_forever_iff hog_fresh hog_second rfl).2 (by decide)⟩

def crowd : List (HmTimer Func Param) → Nat → Nat
  | [], _ => 0
  | timer :: rest, n =>
      crowd rest n +
        if timer.func.isSome then (n + (timer.period.toNat - 1)) / timer.period.toNat else 0

theorem crowd_append (first : List (HmTimer Func Param)) (last : HmTimer Func Param) (n : Nat) :
    crowd (first ++ [last]) n = crowd first n +
      if last.func.isSome then (n + (last.period.toNat - 1)) / last.period.toNat else 0 := by
  induction first with
  | nil => rfl
  | cons timer first ih =>
      rw [List.cons_append, crowd, ih, crowd]
      omega

theorem Going.window_le (going : timers.Going) (get : timers.sTimers[slot]? = some timer)
    (registered : timer.func.isSome) (n : Nat) :
    expired (timers.ticks n).2 slot ≤
      (n + (timer.period.toNat - 1)) / timer.period.toNat := by
  obtain ⟨first, most, -⟩ := going timer (List.mem_of_getElem? get) registered
  obtain ⟨ms, after, passed⟩ := ticks_passed going get n
  unfold Passed at passed
  rw [if_pos registered] at passed
  rw [Nat.le_div_iff_mul_le (by omega), Nat.mul_comm]
  omega

theorem Going.before_le (going : timers.Going) (n : Nat) (inside : slot ≤ timers.sTimers.length) :
    expiredBefore (timers.ticks n).2 slot ≤ crowd (timers.sTimers.take slot) n := by
  induction slot with
  | zero => rw [expiredBefore_zero]; exact Nat.zero_le _
  | succ slot ih =>
      have before := ih (Nat.le_of_succ_le inside)
      have get := List.getElem?_eq_getElem inside
      rw [List.take_succ_eq_append_getElem inside, crowd_append, expiredBefore_succ]
      refine Nat.add_le_add before ?_
      split
      · rename_i registered
        exact going.window_le get registered n
      · rename_i unused
        obtain ⟨ms, -, passed⟩ := ticks_passed going get n
        unfold Passed at passed
        rw [if_neg unused] at passed
        exact Nat.le_of_eq passed

theorem Going.le_window (going : timers.Going) (get : timers.sTimers[slot]? = some timer)
    (registered : timer.func.isSome) (n : Nat) :
    (n - crowd (timers.sTimers.take slot) n) / timer.period.toNat ≤
      expired (timers.ticks n).2 slot := by
  obtain ⟨inside, -⟩ := List.getElem?_eq_some_iff.mp get
  obtain ⟨first, most, -⟩ := going timer (List.mem_of_getElem? get) registered
  have before := going.before_le n (Nat.le_of_lt inside)
  obtain ⟨ms, after, passed⟩ := ticks_passed going get n
  obtain ⟨positive, within, -⟩ := ticks_going going n _ (List.mem_of_getElem? after) registered
  dsimp only at positive within
  unfold Passed at passed
  rw [if_pos registered] at passed
  refine Nat.lt_succ_iff.mp ((Nat.div_lt_iff_lt_mul (by omega)).mpr ?_)
  rw [Nat.succ_mul, Nat.mul_comm]
  omega

/-- In any `n` ticks in a row, a timer expires at most once in each period begun, and at least once
in each period that the timers registered before it leave it, however far all of them are in their
periods. -/
theorem window_bounds (going : timers.Going) (get : timers.sTimers[slot]? = some timer)
    (registered : timer.func.isSome) (n : Nat) :
    (n - crowd (timers.sTimers.take slot) n) / timer.period.toNat ≤
        expired (timers.ticks n).2 slot ∧
      expired (timers.ticks n).2 slot ≤
        (n + (timer.period.toNat - 1)) / timer.period.toNat :=
  ⟨going.le_window get registered n, going.window_le get registered n⟩

theorem window_bounds_twins :
    1 ≤ expired ((twins.ticks 3).1.ticks 4).2 1 ∧ expired ((twins.ticks 3).1.ticks 4).2 1 ≤ 2 :=
  window_bounds (ticks_going twins_fresh.going 3)
    (show (twins.ticks 3).1.sTimers[1]? = some ⟨some 2, (), 2, 2, false, false⟩ by decide) rfl 4

end Ticks

end Timers

end MotionBoard
