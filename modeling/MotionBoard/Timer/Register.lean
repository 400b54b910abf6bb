import Mathlib.Data.List.Induction
import MotionBoard.Timer.Period

namespace MotionBoard

variable {Func Param : Type}

inductive TimerCall (Func Param : Type)
  | register (ms : UInt32) (func : Option Func) (param : Param) (once bcallDirect : Bool)
  | unregister (hand : Option Nat)
  | tick
  deriving DecidableEq, Repr

namespace Timers

def Active (timers : Timers Func Param) (slot : Nat) (func : Func) (period : UInt32) : Prop :=
  ∃ timer, timers.sTimers[slot]? = some timer ∧ timer.func = some func ∧ timer.period = period

def Apart (timers : Timers Func Param) : Prop :=
  ∀ slot slot' func period,
    timers.Active slot func period → timers.Active slot' func period → slot = slot'

theorem hmTimerInit_apart (memory : Timers Func Param) : memory.hmTimerInit.Apart := by
  intro slot slot' func period active
  obtain ⟨timer, get, active, -⟩ := active
  simp only [hmTimerInit, List.getElem?_map] at get
  obtain ⟨_, -, rfl⟩ := Option.map_eq_some_iff.mp get
  cases active

section Loop
variable {timers : List (HmTimer Func Param)} {idx slot : Nat} {timer : HmTimer Func Param}
  {func : Func}

theorem sysTickLoop_active (get : (sysTickLoop timers idx).1[slot]? = some timer)
    (active : timer.func = some func) :
    ∃ timer', timers[slot]? = some timer' ∧ timer'.func = some func ∧
      timer'.period = timer.period := by
  induction timers generalizing idx slot with
  | nil => simp [sysTickLoop] at get
  | cons first rest ih =>
      cases slot with
      | zero =>
          refine ⟨first, rfl, ?_⟩
          simp only [sysTickLoop] at get
          split at get
          · simp at get
            simp [get, active]
          · split at get
            · simp at get
              subst get
              split at active
              · cases active
              · exact ⟨active, by split <;> rfl⟩
            · simp at get
              subst get
              exact ⟨active, rfl⟩
      | succ slot =>
          simp only [sysTickLoop] at get
          split at get
          · exact ih get
          · split at get
            · exact ⟨timer, get, active, rfl⟩
            · exact ih get

end Loop

section Register
variable [DecidableEq Func] (timers : Timers Func Param) (ms : UInt32) (func : Option Func)
  (param : Param) (once bcallDirect : Bool)

def Refuses : Prop :=
  (∃ timer ∈ timers.sTimers, timer.func = func ∧ timer.ms = ms) ∨
    ∀ timer ∈ timers.sTimers, timer.func.isSome

theorem hmTimerRegister_cases :
    timers.Refuses ms func ∧
        timers.hmTimerRegister ms func param once bcallDirect = (none, timers) ∨
      ¬ timers.Refuses ms func ∧
        ∃ pret, timers.hmTimerRegister ms func param once bcallDirect =
          (some pret, { timers with
            sTimers := timers.sTimers.set pret ⟨func, param, ms, ms, once, bcallDirect⟩ }) := by
  unfold hmTimerRegister
  split
  · rename_i found
    exact .inl ⟨.inl (by simpa using found), rfl⟩
  · rename_i unknown
    split
    · rename_i full
      refine .inl ⟨.inr fun timer member => ?_, rfl⟩
      simpa [Option.isSome_iff_ne_none] using List.findIdx?_eq_none_iff.mp full timer member
    · rename_i pret free
      refine .inr ⟨?_, pret, rfl⟩
      rintro (found | full)
      · exact unknown (by simpa using found)
      · obtain ⟨inside, empty, -⟩ := List.findIdx?_eq_some_iff_getElem.mp free
        have used := full _ (List.getElem_mem inside)
        simp only [Option.isNone_iff_eq_none] at empty
        simp [empty] at used

end Register

section Calls
variable [DecidableEq Func] (timers : Timers Func Param)

def exec (timers : Timers Func Param) : TimerCall Func Param → Timers Func Param
  | .register ms func param once bcallDirect =>
      (timers.hmTimerRegister ms func param once bcallDirect).2
  | .unregister hand => timers.hmTimerUnregister hand
  | .tick => timers.sysTickHandler.1

def after (calls : List (TimerCall Func Param)) : Timers Func Param :=
  calls.foldl exec timers

def Rejects : TimerCall Func Param → Prop
  | .register ms (some func) param once bcallDirect =>
      (∃ slot, timers.Active slot func ms) →
        timers.hmTimerRegister ms (some func) param once bcallDirect = (none, timers)
  | _ => True

/-- When a pair that is active is to be registered, some slot of the callback has all of the
period left, or none is free. -/
def Spots : TimerCall Func Param → Prop
  | .register ms (some func) _ _ _ =>
      (∃ slot, timers.Active slot func ms) → timers.Refuses ms (some func)
  | _ => True

def Single (calls : List (TimerCall Func Param)) : Prop :=
  ∀ done rest, calls = done ++ rest →
    (timers.after done).Apart ∧ ∀ call, rest.head? = some call → (timers.after done).Rejects call

variable {timers}

theorem rejects_iff {call : TimerCall Func Param} : timers.Rejects call ↔ timers.Spots call := by
  cases call with
  | register ms func param once bcallDirect =>
      cases func with
      | none => exact Iff.rfl
      | some func =>
          apply imp_congr_right
          intro active
          obtain ⟨refuses, result⟩ | ⟨accepts, pret, result⟩ :=
            timers.hmTimerRegister_cases ms (some func) param once bcallDirect
          · exact iff_of_true result refuses
          · simp [result, accepts]
  | unregister hand => exact Iff.rfl
  | tick => exact Iff.rfl

theorem exec_active {call : TimerCall Func Param} {slot : Nat} {func : Func} {period : UInt32}
    (active : (timers.exec call).Active slot func period) :
    timers.Active slot func period ∨
      ∃ param once bcallDirect, call = .register period (some func) param once bcallDirect ∧
        (timers.hmTimerRegister period (some func) param once bcallDirect).1 = some slot := by
  obtain ⟨timer, get, active, rfl⟩ := active
  cases call with
  | register ms func' param once bcallDirect =>
      obtain ⟨-, result⟩ | ⟨-, pret, result⟩ :=
        timers.hmTimerRegister_cases ms func' param once bcallDirect
      · simp only [exec, result] at get
        exact .inl ⟨timer, get, active, rfl⟩
      · simp only [exec, result, List.getElem?_set] at get
        split at get
        · rename_i here
          split at get
          · cases get
            cases active
            exact .inr ⟨param, once, bcallDirect, rfl, by rw [result, here]⟩
          · cases get
        · exact .inl ⟨timer, get, active, rfl⟩
  | unregister hand =>
      cases hand with
      | none => exact .inl ⟨timer, get, active, rfl⟩
      | some ptm =>
          simp only [exec, hmTimerUnregister, List.getElem?_modify] at get
          obtain ⟨timer', get', rfl⟩ := Option.map_eq_some_iff.mp get
          split at active
          · cases active
          · rename_i other
            exact .inl ⟨timer', get', active, by rw [if_neg other]⟩
  | tick =>
      obtain ⟨timer', get', active', period⟩ := sysTickLoop_active get active
      exact .inl ⟨timer', get', active', period⟩

theorem Apart.exec {call : TimerCall Func Param} (apart : timers.Apart)
    (spots : timers.Spots call) : (timers.exec call).Apart := by
  -- a slot that has become active holds a pair that no slot held before
  have fresh {slot slot' func period} (old : timers.Active slot' func period)
      (new : ∃ param once bcallDirect, call = .register period (some func) param once bcallDirect ∧
        (timers.hmTimerRegister period (some func) param once bcallDirect).1 = some slot) :
      False := by
    obtain ⟨param, once, bcallDirect, rfl, result⟩ := new
    have rejected := rejects_iff.mpr spots ⟨slot', old⟩
    simp [rejected] at result
  intro slot slot' func period active active'
  obtain old | new := exec_active active
  · obtain old' | new' := exec_active active'
    · exact apart slot slot' func period old old'
    · exact (fresh old new').elim
  · obtain old' | new' := exec_active active'
    · exact (fresh old' new).elim
    · obtain ⟨param, once, bcallDirect, rfl, result⟩ := new
      obtain ⟨_, _, _, same, result'⟩ := new'
      cases same
      exact Option.some.inj (result.symm.trans result')

theorem after_concat (done : List (TimerCall Func Param)) (call : TimerCall Func Param) :
    timers.after (done ++ [call]) = (timers.after done).exec call := by
  simp [after]

theorem Apart.after (apart : timers.Apart) (done : List (TimerCall Func Param))
    (spots : ∀ done' call rest, done = done' ++ call :: rest → (timers.after done').Spots call) :
    (timers.after done).Apart := by
  induction done using List.reverseRecOn with
  | nil => exact apart
  | append_singleton done call ih =>
      rw [after_concat]
      apply Apart.exec
      · apply ih
        rintro done' call' rest rfl
        exact spots done' call' (rest ++ [call]) (by simp)
      · exact spots done call [] rfl

/-- No timer is ever registered twice exactly when, each time an active callback is registered
with its period again, a slot of the callback has just this time left, or no slot is free. -/
theorem registered_once_iff (memory : Timers Func Param) (calls : List (TimerCall Func Param)) :
    memory.hmTimerInit.Single calls ↔
      ∀ done call rest, calls = done ++ call :: rest →
        (memory.hmTimerInit.after done).Spots call := by
  constructor
  · intro single done call rest split
    obtain ⟨-, rejects⟩ := single done (call :: rest) split
    exact rejects_iff.mp (rejects call rfl)
  · rintro spots done rest rfl
    refine ⟨(hmTimerInit_apart memory).after done ?_, ?_⟩
    · rintro done' call rest' rfl
      exact spots done' call (rest' ++ rest) (by simp)
    · intro call next
      cases rest with
      | nil => cases next
      | cons call' rest =>
          cases next
          exact rejects_iff.mpr (spots done call rest rfl)

def twice : List (TimerCall Nat Unit) :=
  [.register 500 (some 1) () false true, .tick, .register 500 (some 1) () false true]

theorem registered_twice : ¬ blank.hmTimerInit.Single twice := by
  intro single
  obtain ⟨apart, -⟩ := single twice [] (List.append_nil _).symm
  have slots := apart 0 1 1 500 ⟨⟨some 1, (), 500, 499, false, true⟩, by decide⟩
    ⟨⟨some 1, (), 500, 500, false, true⟩, by decide⟩
  cases slots

end Calls

end Timers

end MotionBoard
