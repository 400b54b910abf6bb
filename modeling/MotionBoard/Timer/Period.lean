import Mathlib.Algebra.GroupWithZero.Nat
import Mathlib.Algebra.Order.BigOperators.Group.List
import Mathlib.Algebra.Order.Group.Nat
import MotionBoard.Timer.Defs

namespace MotionBoard

variable {Func Param : Type}

namespace HmTimer

def dueBy (n : Nat) (timer : HmTimer Func Param) : Nat :=
  if timer.func.isSome then n / timer.period.toNat else 0

def Fresh (timer : HmTimer Func Param) : Prop :=
  timer.func.isSome → timer.ms = timer.period ∧ 1 ≤ timer.period ∧ timer.once = false

def plan (timer : HmTimer Func Param) : Bool × Nat × Bool :=
  (timer.func.isSome, timer.period.toNat, timer.once)

structure Counts (timer : HmTimer Func Param) (expired n : Nat) : Prop where
  ticks : timer.period.toNat * expired + (timer.period.toNat - timer.ms.toNat) = n
  positive : 1 ≤ timer.ms.toNat
  within : timer.ms.toNat ≤ timer.period.toNat
  periodic : timer.once = false

section Counts
variable {timer : HmTimer Func Param} {expired n : Nat} (counts : timer.Counts expired n)
include counts

theorem Counts.le : expired ≤ n := by
  have positive := Nat.le_trans counts.positive counts.within
  have ticks := counts.ticks
  have grows := Nat.le_mul_of_pos_left expired positive
  omega

theorem Counts.pred_ms : (timer.ms - 1).toNat = timer.ms.toNat - 1 :=
  UInt32.toNat_sub_of_le _ _ (UInt32.le_iff_toNat_le.mpr counts.positive)

theorem Counts.expire (due : timer.ms - 1 = 0) :
    { timer with ms := timer.period }.Counts (expired + 1) (n + 1) := by
  have last : timer.ms.toNat - 1 = 0 := counts.pred_ms.symm.trans (congrArg UInt32.toNat due)
  obtain ⟨ticks, positive, within, periodic⟩ := counts
  refine ⟨?_, Nat.le_trans positive within, Nat.le_refl _, periodic⟩
  dsimp only
  rw [Nat.mul_succ, Nat.sub_self]
  omega

theorem Counts.wait (early : timer.ms - 1 ≠ 0) :
    { timer with ms := timer.ms - 1 }.Counts expired (n + 1) := by
  have pred := counts.pred_ms
  have more : timer.ms.toNat - 1 ≠ 0 := fun none_ =>
    early (UInt32.toNat_inj.mp (pred.trans none_))
  obtain ⟨ticks, positive, within, periodic⟩ := counts
  refine ⟨?_, ?_, ?_, periodic⟩
  · dsimp only
    rw [pred]
    omega
  · dsimp only
    rw [pred]
    omega
  · dsimp only
    rw [pred]
    omega

theorem Counts.expired_eq : expired = n / timer.period.toNat := by
  obtain ⟨ticks, positive, within, -⟩ := counts
  refine (Nat.div_eq_of_lt_le ?_ ?_).symm
  · rw [Nat.mul_comm]
    omega
  · rw [Nat.mul_comm, Nat.mul_succ]
    omega

end Counts

end HmTimer

theorem sub_div_eq_iff {n missed period : Nat} (positive : 0 < period) (le : missed ≤ n) :
    (n - missed) / period = n / period ↔ missed ≤ n % period := by
  have whole := Nat.div_add_mod n period
  have small := Nat.mod_lt n positive
  constructor
  · intro same
    have low := Nat.div_mul_le_self (n - missed) period
    rw [same, Nat.mul_comm] at low
    omega
  · intro within
    refine Nat.div_eq_of_lt_le ?_ ?_
    · rw [Nat.mul_comm]
      omega
    · rw [Nat.mul_comm, Nat.mul_succ]
      omega

namespace Timers

def expired (expiries : List (Expiry Func Param)) (slot : Nat) : Nat :=
  expiries.countP fun expiry => expiry.slot = slot

/-- The timers counted `n` ticks, without those on which a slot before them expired. -/
def Owes : List (HmTimer Func Param) → (Nat → Nat) → Nat → Prop
  | [], _, _ => True
  | timer :: rest, expired, n =>
      (timer.func.isSome → timer.Counts (expired 0) n) ∧
        (timer.func = none → expired 0 = 0) ∧
        Owes rest (fun slot => expired (slot + 1)) (n - expired 0)

def bump (expired : Nat → Nat) (idx : Nat) (expiry : Option (Expiry Func Param)) (slot : Nat) :
    Nat :=
  expired slot + if expiry.any (fun expiry => expiry.slot = idx + slot) then 1 else 0

section Tick
variable {timers : List (HmTimer Func Param)} {count : Nat → Nat} {n idx : Nat}

theorem sysTickLoop_slot {expiry : Expiry Func Param}
    (expires : (sysTickLoop timers idx).2 = some expiry) : idx ≤ expiry.slot := by
  induction timers generalizing idx with
  | nil => cases expires
  | cons timer rest ih =>
      unfold sysTickLoop at expires
      split at expires
      · have later := ih expires
        omega
      · dsimp only at expires
        split at expires
        · cases expires
          exact Nat.le_refl _
        · have later := ih expires
          omega

theorem bump_later (count : Nat → Nat) {expiry : Option (Expiry Func Param)}
    (later : ∀ expiry' ∈ expiry, idx + 1 ≤ expiry'.slot) : bump count idx expiry 0 = count 0 := by
  cases expiry with
  | none => rfl
  | some expiry =>
      have apart : ¬ expiry.slot = idx := fun same => absurd (later expiry rfl) (by omega)
      simp [bump, apart]

theorem bump_succ (count : Nat → Nat) (expiry : Option (Expiry Func Param)) :
    (fun slot => bump count idx expiry (slot + 1)) =
      bump (fun slot => count (slot + 1)) (idx + 1) expiry := by
  funext slot
  simp only [bump, Nat.add_left_comm, Nat.add_comm]

theorem Owes.tick (owes : Owes timers count n) :
    Owes (sysTickLoop timers idx).1 (bump count idx (sysTickLoop timers idx).2) (n + 1) := by
  induction timers generalizing count n idx with
  | nil => trivial
  | cons timer rest ih =>
      obtain ⟨counts, unused, owes⟩ := owes
      have later : bump count idx (sysTickLoop rest (idx + 1)).2 0 = count 0 :=
        bump_later count fun _ expires => sysTickLoop_slot expires
      obtain ⟨func, param, period, ms, once, direct⟩ := timer
      unfold sysTickLoop
      cases func with
      | none =>
          have zero := unused rfl
          rw [zero] at owes
          refine ⟨nofun, fun _ => later.trans zero, ?_⟩
          dsimp only
          rw [later, bump_succ, zero]
          exact ih owes
      | some func =>
          have counts := counts rfl
          have bound := counts.le
          obtain rfl : once = false := counts.periodic
          dsimp only
          split
          · rename_i due
            -- the loop breaks off here, and the slots behind owe this tick
            have here : bump count idx (some ⟨idx, func, param, direct⟩) 0 = count 0 + 1 := by
              simp [bump]
            have others : (fun slot => bump count idx
                (some (⟨idx, func, param, direct⟩ : Expiry Func Param)) (slot + 1)) =
                  fun slot => count (slot + 1) := by
              funext slot
              simp [bump]
            refine ⟨fun _ => ?_, nofun, ?_⟩
            · rw [here]
              exact counts.expire due
            · rw [here, others, Nat.add_sub_add_right]
              exact owes
          · rename_i early
            refine ⟨fun _ => ?_, nofun, ?_⟩
            · rw [later]
              exact counts.wait early
            · rw [later, bump_succ, show n + 1 - count 0 = n - count 0 + 1 by omega]
              exact ih owes

theorem sysTickLoop_plan (periodic : ∀ timer ∈ timers, timer.func.isSome → timer.once = false) :
    (sysTickLoop timers idx).1.map HmTimer.plan = timers.map HmTimer.plan := by
  induction timers generalizing idx with
  | nil => rfl
  | cons timer rest ih =>
      have rest_ : (sysTickLoop rest (idx + 1)).1.map HmTimer.plan = rest.map HmTimer.plan :=
        ih fun timer member => periodic timer (List.mem_cons_of_mem _ member)
      unfold sysTickLoop
      cases func : timer.func with
      | none => simp only [List.map_cons, rest_]
      | some func' =>
          have once := periodic timer List.mem_cons_self (by simp [func])
          dsimp only
          split
          · simp [once, HmTimer.plan, func]
          · simp [rest_, HmTimer.plan, func]

end Tick

section Ticks
variable {timers : Timers Func Param}

def Fresh (timers : Timers Func Param) : Prop := ∀ timer ∈ timers.sTimers, timer.Fresh

theorem owes_fresh {sTimers : List (HmTimer Func Param)}
    (fresh : ∀ timer ∈ sTimers, timer.Fresh) : Owes sTimers (fun _ => 0) 0 := by
  induction sTimers with
  | nil => trivial
  | cons timer rest ih =>
      refine ⟨fun registered => ?_, fun _ => rfl,
        ih fun timer member => fresh timer (List.mem_cons_of_mem _ member)⟩
      obtain ⟨full, positive, periodic⟩ := fresh timer List.mem_cons_self registered
      refine ⟨?_, ?_, ?_, periodic⟩
      · rw [full, Nat.mul_zero, Nat.sub_self]
      · rw [full]
        exact UInt32.le_iff_toNat_le.mp positive
      · exact Nat.le_of_eq (congrArg UInt32.toNat full)

theorem expired_append (expiries : List (Expiry Func Param))
    (expiry : Option (Expiry Func Param)) :
    expired (expiries ++ expiry.toList) = bump (expired expiries) 0 expiry := by
  funext slot
  cases expiry with
  | none => simp [expired, bump]
  | some expiry => simp [expired, bump, List.countP_append, List.countP_singleton]

theorem ticks_owes (fresh : timers.Fresh) (n : Nat) :
    Owes (timers.ticks n).1.sTimers (expired (timers.ticks n).2) n ∧
      (timers.ticks n).1.sTimers.map HmTimer.plan = timers.sTimers.map HmTimer.plan := by
  induction n with
  | zero => exact ⟨owes_fresh fresh, rfl⟩
  | succ n ih =>
      obtain ⟨owes, plan⟩ := ih
      have periodic : ∀ timer ∈ (timers.ticks n).1.sTimers,
          timer.func.isSome → timer.once = false := by
        intro timer member registered
        have planned : timer.plan ∈ timers.sTimers.map HmTimer.plan :=
          plan ▸ List.mem_map_of_mem member
        obtain ⟨first, member', same⟩ := List.mem_map.mp planned
        have once := (fresh first member' ((congrArg Prod.fst same).trans registered)).2.2
        exact (congrArg (fun plan => plan.2.2) same).symm.trans once
      refine ⟨?_, (sysTickLoop_plan periodic).trans plan⟩
      change Owes _ (expired ((timers.ticks n).2 ++ Option.toList _)) (n + 1)
      rw [expired_append]
      exact owes.tick

def Registered (sTimers : List (HmTimer Func Param)) (slot period : Nat) : Prop :=
  ∃ timer, sTimers[slot]? = some timer ∧ timer.func.isSome ∧ timer.period.toNat = period

def missed (sTimers : List (HmTimer Func Param)) (n slot : Nat) : Nat :=
  ((sTimers.take slot).map (HmTimer.dueBy n)).sum

theorem forall_registered {timer : HmTimer Func Param} {rest : List (HmTimer Func Param)}
    {property : Nat → Nat → Prop} :
    (∀ slot period, Registered (timer :: rest) slot period → property slot period) ↔
      (timer.func.isSome → property 0 timer.period.toNat) ∧
        ∀ slot period, Registered rest slot period → property (slot + 1) period := by
  constructor
  · exact fun all => ⟨fun registered => all 0 _ ⟨timer, rfl, registered, rfl⟩,
      fun slot period registered => all (slot + 1) period registered⟩
  · rintro ⟨first, later⟩ slot period registered
    cases slot with
    | zero =>
        obtain ⟨timer', get, registered, rfl⟩ := registered
        obtain rfl := Option.some.inj get
        exact first registered
    | succ slot => exact later slot period registered

theorem owes_right_iff {sTimers : List (HmTimer Func Param)} {count : Nat → Nat} {late n : Nat}
    (owes : Owes sTimers count (n - late)) (le : late ≤ n) :
    (∀ slot period, Registered sTimers slot period → count slot = n / period) ↔
      ∀ slot period, Registered sTimers slot period →
        late + missed sTimers n slot ≤ n % period := by
  induction sTimers generalizing count late with
  | nil => simp [Registered]
  | cons timer rest ih =>
      obtain ⟨counts, unused, owes⟩ := owes
      rw [forall_registered, forall_registered]
      simp only [missed, List.take_zero, List.map_nil, List.sum_nil, Nat.add_zero,
        List.take_succ_cons, List.map_cons, List.sum_cons, HmTimer.dueBy]
      cases registered : timer.func.isSome with
      | false =>
          have zero := unused (Option.not_isSome_iff_eq_none.mp (by simp [registered]))
          rw [zero] at owes
          simp only [Bool.false_eq_true, false_implies, true_and, if_false, Nat.zero_add]
          exact ih owes le
      | true =>
          have counts := counts registered
          have positive := Nat.lt_of_lt_of_le counts.positive counts.within
          rw [counts.expired_eq] at owes ⊢
          have first := sub_div_eq_iff positive le
          simp only [true_implies, if_true]
          rw [first]
          refine and_congr_right fun within => ?_
          rw [first.mpr within, Nat.sub_sub] at owes
          have bound : late + n / timer.period.toNat ≤ n := by
            have whole := Nat.div_add_mod n timer.period.toNat
            have grows := Nat.le_mul_of_pos_left (n / timer.period.toNat) positive
            omega
          -- what this timer has kept from the others is added to what they were late before
          have later := ih owes bound
          simp only [Nat.add_assoc] at later
          exact later

section Plan
variable {sTimers sTimers' : List (HmTimer Func Param)}
  (plan : sTimers'.map HmTimer.plan = sTimers.map HmTimer.plan)
include plan

theorem missed_congr (n slot : Nat) : missed sTimers' n slot = missed sTimers n slot := by
  let due (plan : Bool × Nat × Bool) : Nat := if plan.1 then n / plan.2.1 else 0
  have planned (timers : List (HmTimer Func Param)) :
      missed timers n slot = (((timers.map HmTimer.plan).take slot).map due).sum := by
    rw [← List.map_take, List.map_map]
    rfl
  rw [planned, planned, plan]

theorem registered_congr {slot period : Nat} (registered : Registered sTimers slot period) :
    Registered sTimers' slot period := by
  obtain ⟨timer, get, registered, rfl⟩ := registered
  have planned : (sTimers'.map HmTimer.plan)[slot]? = some timer.plan := by
    rw [plan, List.getElem?_map, get]
    rfl
  obtain ⟨timer', get', same⟩ := Option.map_eq_some_iff.mp (List.getElem?_map.symm.trans planned)
  exact ⟨timer', get', (congrArg Prod.fst same).trans registered,
    congrArg (fun plan => plan.2.1) same⟩

end Plan

def OnTime (timers : Timers Func Param) (n : Nat) : Prop :=
  ∀ slot period, Registered timers.sTimers slot period →
    expired (timers.ticks n).2 slot = n / period

theorem onTime_iff (fresh : timers.Fresh) (n : Nat) :
    timers.OnTime n ↔ ∀ slot period, Registered timers.sTimers slot period →
      missed timers.sTimers n slot ≤ n % period := by
  obtain ⟨owes, plan⟩ := ticks_owes fresh n
  have right := owes_right_iff (show Owes _ _ (n - 0) from owes) (Nat.zero_le n)
  simp only [missed_congr plan, Nat.zero_add] at right
  exact ⟨fun all slot period registered =>
      right.mp (fun slot period registered => all slot period (registered_congr plan.symm registered))
        slot period (registered_congr plan registered),
    fun all slot period registered =>
      right.mpr (fun slot period registered => all slot period (registered_congr plan.symm registered))
        slot period (registered_congr plan registered)⟩

theorem Fresh.positive (fresh : timers.Fresh) {slot period : Nat}
    (registered : Registered timers.sTimers slot period) : 0 < period := by
  obtain ⟨timer, get, registered, rfl⟩ := registered
  exact UInt32.le_iff_toNat_le.mp (fresh timer (List.mem_of_getElem? get) registered).2.1

theorem missed_registered {sTimers : List (HmTimer Func Param)} {slot slot' period n : Nat}
    (registered : Registered sTimers slot period) (before : slot < slot') :
    n / period ≤ missed sTimers n slot' := by
  obtain ⟨timer, get, registered, rfl⟩ := registered
  have member : timer.dueBy n ∈ (sTimers.take slot').map (HmTimer.dueBy n) :=
    List.mem_map_of_mem (List.mem_of_getElem? ((List.getElem?_take_of_lt before).trans get))
  have due : timer.dueBy n = n / timer.period.toNat := if_pos registered
  rw [← due]
  exact List.le_sum_of_mem member

theorem missed_alone {sTimers : List (HmTimer Func Param)} {slot n : Nat}
    (alone : ∀ slot' period, Registered sTimers slot' period → slot' = slot) :
    missed sTimers n slot = 0 := by
  refine List.sum_eq_zero_iff_forall_eq_nat.mpr fun due member => ?_
  obtain ⟨timer, taken, rfl⟩ := List.mem_map.mp member
  obtain ⟨slot', get⟩ := List.mem_iff_getElem?.mp taken
  have before : slot' < slot := by
    have bound := (List.getElem?_eq_some_iff.mp get).1
    rw [List.length_take] at bound
    omega
  rw [List.getElem?_take_of_lt before] at get
  refine if_neg fun registered => ?_
  have same := alone slot' _ ⟨timer, get, registered, rfl⟩
  omega

/-- After `n` ticks every timer has expired as often as its period asks for exactly when the
expiries of the slots before it fit into what has passed of its last period. That is so for every
`n` only if no other timer is registered. -/
theorem timers_on_time_iff (fresh : timers.Fresh) :
    (∀ n, timers.OnTime n ↔ ∀ slot period, Registered timers.sTimers slot period →
      missed timers.sTimers n slot ≤ n % period) ∧
    ((∀ n, timers.OnTime n) ↔
      ∀ slot slot' period period', Registered timers.sTimers slot period →
        Registered timers.sTimers slot' period' → slot = slot') := by
  refine ⟨onTime_iff fresh, fun always slot slot' period period' registered registered' => ?_,
    fun alone n => (onTime_iff fresh n).mpr fun slot period registered => ?_⟩
  · by_contra apart
    wlog before : slot < slot' generalizing slot slot' period period'
    · exact this slot' slot period' period registered' registered (Ne.symm apart) (by omega)
    -- the two are due at the same tick, which only counts for the first
    have fits := (onTime_iff fresh (period * period')).mp (always _) slot' period' registered'
    have early : period * period' / period ≤ _ := missed_registered registered before
    rw [Nat.mul_mod_left] at fits
    rw [Nat.mul_div_cancel_left _ (fresh.positive registered)] at early
    have late := fresh.positive registered'
    omega
  · rw [missed_alone fun slot' period' registered' =>
      alone slot' slot period' period registered' registered]
    exact Nat.zero_le _

section Register

theorem hmTimerInit_fresh (memory : Timers Func Param) : memory.hmTimerInit.Fresh := by
  intro timer member
  obtain ⟨_, -, rfl⟩ := List.mem_map.mp member
  nofun

theorem hmTimerRegister_fresh [DecidableEq Func] (fresh : timers.Fresh) {ms : UInt32} (positive : 1 ≤ ms)
    (func : Option Func) (param : Param) (direct : Bool) :
    (timers.hmTimerRegister ms func param false direct).2.Fresh := by
  unfold hmTimerRegister
  split
  · exact fresh
  · split
    · exact fresh
    · intro timer member
      obtain member | rfl := List.mem_or_eq_of_mem_set member
      · exact fresh timer member
      · exact fun _ => ⟨rfl, positive, rfl⟩

theorem hmTimerUnregister_fresh (fresh : timers.Fresh) (hand : Option Nat) :
    (timers.hmTimerUnregister hand).Fresh := by
  unfold hmTimerUnregister
  split
  · exact fresh
  · rename_i ptm
    intro timer member
    obtain ⟨slot, get⟩ := List.mem_iff_getElem?.mp member
    rw [List.getElem?_modify] at get
    obtain ⟨old, get', rfl⟩ := Option.map_eq_some_iff.mp get
    split
    · nofun
    · exact fresh old (List.mem_of_getElem? get')

end Register

def blank : Timers Nat Unit := ⟨List.replicate hmMaxTimer ⟨none, (), 0, 0, false, false⟩, 0⟩

def twins : Timers Nat Unit :=
  ((blank.hmTimerInit.hmTimerRegister 2 (some 1) () false true).2.hmTimerRegister 2 (some 2) ()
    false false).2

theorem twins_fresh : twins.Fresh :=
  hmTimerRegister_fresh (hmTimerRegister_fresh (hmTimerInit_fresh blank) (by decide) _ _ _)
    (by decide) _ _ _

theorem twins_late : twins.Fresh ∧ Registered twins.sTimers 1 2 ∧
    expired (twins.ticks 2).2 1 = 0 ∧ ¬ twins.OnTime 2 := by
  have second : Registered twins.sTimers 1 2 := ⟨⟨some 2, (), 2, 2, false, false⟩, by decide⟩
  refine ⟨twins_fresh, second, by decide, fun onTime => ?_⟩
  exact absurd (onTime 1 2 second) (by decide)

theorem twins_on_time_one : Registered twins.sTimers 1 2 ∧ twins.OnTime 1 := by
  have second : Registered twins.sTimers 1 2 := ⟨⟨some 2, (), 2, 2, false, false⟩, by decide⟩
  refine ⟨second, ((timers_on_time_iff twins_fresh).1 1).mpr fun slot period registered => ?_⟩
  obtain ⟨timer, get, registered, rfl⟩ := registered
  match slot, get with
  | 0, get =>
      cases get
      decide
  | 1, get =>
      cases get
      decide
  | n + 2, get =>
      have unused : ∀ timer ∈ twins.sTimers.drop 2, timer.func = none := by decide
      have member : timer ∈ twins.sTimers.drop 2 :=
        List.mem_of_getElem? ((List.getElem?_drop.trans (by rw [Nat.add_comm])).trans get)
      simp [unused timer member] at registered

end Ticks

end Timers

end MotionBoard
