import MotionBoard.Timer.Window

namespace MotionBoard

inductive TimerFunc
  | ledCkNet
  | ledCk
  | netwkCk
  | hmMotorLimitLogicalCheck
  deriving DecidableEq, Repr

namespace HmTimer
variable {Func Param : Type}

def settings (timer : HmTimer Func Param) : HmTimer Func Param := { timer with ms := 0 }

end HmTimer

namespace Timers
section Settings
variable {Func Param : Type} {timers : Timers Func Param}
  {used : List (HmTimer Func Param)} {timer : HmTimer Func Param}

structure Holds (timers : Timers Func Param) (used : List (HmTimer Func Param)) : Prop where
  going : timers.Going
  size : timers.sTimers.length = hmMaxTimer
  slots : ∃ free, timers.sTimers.map HmTimer.settings = used ++ free ∧
    (∀ timer ∈ used, timer.func.isSome) ∧ ∀ timer ∈ free, timer.func = none

theorem sysTickLoop_settings {sTimers : List (HmTimer Func Param)} {idx : Nat}
    (going : ∀ timer ∈ sTimers, timer.Going) :
    (sysTickLoop sTimers idx).1.map HmTimer.settings = sTimers.map HmTimer.settings := by
  induction sTimers generalizing idx with
  | nil => rfl
  | cons timer rest ih =>
      obtain ⟨first, later⟩ := List.forall_mem_cons.mp going
      have rest_ : (sysTickLoop rest (idx + 1)).1.map HmTimer.settings = _ := ih later
      unfold sysTickLoop
      cases func : timer.func with
      | none => simp only [List.map_cons, rest_]
      | some func' =>
          obtain ⟨-, -, once⟩ := first (by simp [func])
          dsimp only
          split
          · simp [once, HmTimer.settings, func]
          · simp [rest_, HmTimer.settings, func]

theorem ticks_settings (going : timers.Going) (n : Nat) :
    (timers.ticks n).1.sTimers.map HmTimer.settings = timers.sTimers.map HmTimer.settings := by
  induction n with
  | zero => rfl
  | succ n ih => exact (sysTickLoop_settings (ticks_going going n)).trans ih

theorem Holds.ticks (holds : timers.Holds used) (n : Nat) : (timers.ticks n).1.Holds used := by
  have kept := ticks_settings holds.going n
  refine ⟨ticks_going holds.going n, ?_, by rw [kept]; exact holds.slots⟩
  have length := congrArg List.length kept
  rw [List.length_map, List.length_map] at length
  exact length.trans holds.size

theorem hmTimerInit_holds (memory : Timers Func Param)
    (size : memory.sTimers.length = hmMaxTimer) : memory.hmTimerInit.Holds [] := by
  have unused : ∀ timer ∈ memory.hmTimerInit.sTimers, timer.func = none := by
    intro timer member
    obtain ⟨_, -, rfl⟩ := List.mem_map.mp member
    rfl
  refine ⟨(hmTimerInit_fresh memory).going, (List.length_map _).trans size, _, rfl,
    List.forall_mem_nil _, fun timer member => ?_⟩
  obtain ⟨before, inside, rfl⟩ := List.mem_map.mp member
  exact unused before inside

theorem Holds.unregister {first : HmTimer Func Param} (holds : timers.Holds [first]) :
    (timers.hmTimerUnregister (some 0)).Holds [] := by
  obtain ⟨going, size, free, slots, -, none_⟩ := holds
  obtain ⟨sTimers, sTimCount⟩ := timers
  cases sTimers with
  | nil => cases size
  | cons timer rest =>
      obtain ⟨-, rest_⟩ := List.forall_mem_cons.mp going
      obtain ⟨-, same⟩ := List.cons.inj slots
      refine ⟨List.forall_mem_cons.mpr ⟨nofun, rest_⟩, size, _, rfl, List.forall_mem_nil _, ?_⟩
      exact List.forall_mem_cons.mpr ⟨rfl, by rw [same]; exact none_⟩

variable [DecidableEq Func]

theorem Holds.register (holds : timers.Holds used) (room : used.length < hmMaxTimer)
    (ms : UInt32) (func : Func) (param : Param) (direct : Bool) (positive : 1 ≤ ms)
    (unknown : ∀ timer ∈ used, timer.func ≠ some func) :
    (timers.hmTimerRegister ms (some func) param false direct).1 = some used.length ∧
      (timers.hmTimerRegister ms (some func) param false direct).2.Holds
        (used ++ [⟨some func, param, ms, 0, false, direct⟩]) := by
  obtain ⟨free, slots, all, none_⟩ := holds.slots
  have funcs : timers.sTimers.map HmTimer.func = used.map HmTimer.func ++ free.map HmTimer.func := by
    have same := congrArg (List.map HmTimer.func) slots
    rw [List.map_map, List.map_append] at same
    exact same
  have size := congrArg List.length slots
  rw [List.length_map, holds.size, List.length_append] at size
  obtain ⟨next, free, rfl⟩ := List.exists_cons_of_length_pos (show 0 < free.length by omega)
  obtain ⟨first, later⟩ := List.forall_mem_cons.mp none_
  have fresh : ¬ timers.sTimers.any fun timer => timer.func = some func ∧ timer.ms = ms := by
    simp only [List.any_eq_true, decide_eq_true_eq, not_exists, not_and]
    intro timer member same
    have listed : timer.func ∈ used.map HmTimer.func ++ (next :: free).map HmTimer.func :=
      funcs ▸ List.mem_map_of_mem member
    rw [← List.map_append] at listed
    obtain ⟨timer', member', same'⟩ := List.mem_map.mp listed
    rcases List.mem_append.mp member' with old | new
    · exact fun _ => unknown timer' old (same'.trans same)
    · rw [← same', none_ timer' new] at same
      cases same
  have slot : (timers.sTimers.findIdx? fun timer => timer.func.isNone) = some used.length := by
    have taken : (used.map HmTimer.func).findIdx? Option.isNone = none := by
      rw [List.findIdx?_eq_none_iff]
      intro func' member
      obtain ⟨timer, inside, rfl⟩ := List.mem_map.mp member
      simpa using all timer inside
    have mapped : (timers.sTimers.map HmTimer.func).findIdx? Option.isNone =
        timers.sTimers.findIdx? fun timer => timer.func.isNone := List.findIdx?_map
    rw [← mapped, funcs, List.findIdx?_append, taken]
    simp [first, List.findIdx?_cons]
  unfold hmTimerRegister
  rw [if_neg fresh, slot]
  refine ⟨rfl, ?_, ?_, free, ?_, ?_, later⟩
  · intro timer member
    rcases List.mem_or_eq_of_mem_set member with old | rfl
    · exact holds.going timer old
    · exact fun _ => ⟨UInt32.le_iff_toNat_le.mp positive, Nat.le_refl _, rfl⟩
  · exact (List.length_set).trans holds.size
  · rw [List.map_set, slots, List.set_append_right _ _ (Nat.le_refl _), Nat.sub_self]
    simp [HmTimer.settings]
  · intro timer member
    rcases List.mem_append.mp member with old | new
    · exact all timer old
    · rw [List.mem_singleton.mp new]
      rfl

end Settings

section Main
variable (timers memory : Timers TimerFunc Unit)

/-- The timers around the loop of `Ethernet_Configuration`: without `retries` the first `ETH_Init`
finds the PHY. -/
def ethernetConfiguration (retries : Option Nat) : Timers TimerFunc Unit :=
  match retries with
  | none => timers.hmTimerUnregister none
  | some n =>
      let (tmer, timers) := timers.hmTimerRegister 100 (some .ledCkNet) () false true
      (timers.ticks n).1.hmTimerUnregister tmer

def main (retries : Option Nat) (ticks : Nat × Nat × Nat) : Timers TimerFunc Unit :=
  let timers := memory.hmTimerInit.ethernetConfiguration retries
  let timers := (timers.ticks ticks.1).1
  let timers := (timers.hmTimerRegister 500 (some .ledCk) () false true).2
  let timers := (timers.ticks ticks.2.1).1
  let timers := (timers.hmTimerRegister 1000 (some .netwkCk) () false false).2
  let timers := (timers.ticks ticks.2.2).1
  (timers.hmTimerRegister 100 (some .hmMotorLimitLogicalCheck) () false true).2

def mainUsed : List (HmTimer TimerFunc Unit) :=
  [⟨some .ledCk, (), 500, 0, false, true⟩, ⟨some .netwkCk, (), 1000, 0, false, false⟩,
    ⟨some .hmMotorLimitLogicalCheck, (), 100, 0, false, true⟩]

variable {timers memory} {used : List (HmTimer TimerFunc Unit)}

theorem ethernetConfiguration_holds (holds : timers.Holds []) (retries : Option Nat) :
    (timers.ethernetConfiguration retries).Holds [] := by
  cases retries with
  | none => exact holds
  | some n =>
      obtain ⟨slot, registered⟩ := holds.register (by decide) 100 .ledCkNet () true (by decide)
        (List.forall_mem_nil _)
      unfold ethernetConfiguration
      dsimp only
      rw [slot]
      exact (registered.ticks n).unregister

theorem main_holds (size : memory.sTimers.length = hmMaxTimer) (retries : Option Nat)
    (ticks : Nat × Nat × Nat) : (memory.main retries ticks).Holds mainUsed := by
  have begun := (ethernetConfiguration_holds (hmTimerInit_holds memory size) retries).ticks ticks.1
  have led := (begun.register (by decide) 500 .ledCk () true (by decide) (by decide)).2.ticks
    ticks.2.1
  have net := (led.register (by decide) 1000 .netwkCk () false (by decide) (by decide)).2.ticks
    ticks.2.2
  exact (net.register (by decide) 100 .hmMotorLimitLogicalCheck () true (by decide)
    (by decide)).2

theorem crowd_settings (sTimers : List (HmTimer TimerFunc Unit)) (n : Nat) :
    crowd (sTimers.map HmTimer.settings) n = crowd sTimers n := by
  induction sTimers with
  | nil => rfl
  | cons timer rest ih =>
      rw [List.map_cons, crowd, crowd, ih]
      rfl

theorem Holds.get (holds : timers.Holds used) {slot : Nat} {timer : HmTimer TimerFunc Unit}
    (get : used[slot]? = some timer) :
    ∃ ms, timers.sTimers[slot]? = some { timer with ms := ms } := by
  obtain ⟨free, slots, -⟩ := holds.slots
  obtain ⟨inside, -⟩ := List.getElem?_eq_some_iff.mp get
  have mapped : (timers.sTimers.map HmTimer.settings)[slot]? = some timer := by
    rw [slots, List.getElem?_append_left inside]
    exact get
  rw [List.getElem?_map] at mapped
  obtain ⟨timer', get', rfl⟩ := Option.map_eq_some_iff.mp mapped
  exact ⟨timer'.ms, get'⟩

/-- Within any 102 ticks the axes are checked at their switches. -/
theorem main_checks (holds : timers.Holds mainUsed) : 1 ≤ expired (timers.ticks 102).2 2 := by
  obtain ⟨ms, get⟩ := holds.get (show mainUsed[2]? = some _ from rfl)
  obtain ⟨free, slots, -⟩ := holds.slots
  have before : crowd (timers.sTimers.take 2) 102 = 2 := by
    rw [← crowd_settings, List.map_take, slots]
    rfl
  have bound := holds.going.le_window get rfl 102
  rw [before] at bound
  exact Nat.le_trans (show 1 ≤ (102 - 2) / (100 : UInt32).toNat by decide) bound

theorem sysTickLoop_expiry {sTimers : List (HmTimer TimerFunc Unit)} {idx : Nat}
    {expiry : Expiry TimerFunc Unit} (expires : (sysTickLoop sTimers idx).2 = some expiry) :
    ∃ slot timer, expiry.slot = idx + slot ∧ sTimers[slot]? = some timer ∧
      timer.func = some expiry.func ∧ timer.bcallDirect = expiry.direct := by
  induction sTimers generalizing idx with
  | nil => cases expires
  | cons timer rest ih =>
      have later (expires : (sysTickLoop rest (idx + 1)).2 = some expiry) :
          ∃ slot timer', expiry.slot = idx + slot ∧ (timer :: rest)[slot]? = some timer' ∧
            timer'.func = some expiry.func ∧ timer'.bcallDirect = expiry.direct := by
        obtain ⟨slot, timer', at_, get, func, direct⟩ := ih expires
        exact ⟨slot + 1, timer', by omega, get, func, direct⟩
      unfold sysTickLoop at expires
      split at expires
      · exact later expires
      · rename_i func used
        dsimp only at expires
        split at expires
        · obtain rfl := Option.some.inj expires
          exact ⟨0, timer, rfl, rfl, used, rfl⟩
        · exact later expires

theorem main_expiry (holds : timers.Holds mainUsed) {expiry : Expiry TimerFunc Unit}
    (expires : timers.sysTickHandler.2 = some expiry) (third : expiry.slot = 2) :
    expiry.func = .hmMotorLimitLogicalCheck ∧ expiry.direct = true := by
  obtain ⟨slot, timer, at_, get, func, direct⟩ := sysTickLoop_expiry expires
  obtain rfl : slot = 2 := by omega
  obtain ⟨ms, get'⟩ := holds.get (show mainUsed[2]? = some _ from rfl)
  obtain rfl := Option.some.inj (get.symm.trans get')
  exact ⟨(Option.some.inj func).symm, direct.symm⟩

end Main

end Timers

end MotionBoard
