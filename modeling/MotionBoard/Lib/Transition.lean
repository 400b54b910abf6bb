import Mathlib.Logic.Basic

namespace Transition
variable {State Event Note : Type*}

inductive Run (step : State → Event → State → Prop) : State → List Event → State → Prop
  | nil {s : State} : Run step s [] s
  | cons {s t u : State} {e : Event} {es : List Event} :
      step s e t → Run step t es u → Run step s (e :: es) u

def Guarded (guard : State → Event → Prop) (step : State → Event → State → Prop)
    (s : State) (e : Event) (t : State) : Prop :=
  guard s e ∧ step s e t

/-- The steps of a system together with the notes of a monitor. -/
def Watched (step : State → Event → State → Prop) (next : State → Event → Note → Note)
    (before : State × Note) (e : Event) (after : State × Note) : Prop :=
  step before.1 e after.1 ∧ after.2 = next before.1 e before.2

def Fires {Failure : Type*} (exec : State → Event → Except Failure State)
    (s : State) (e : Event) (t : State) : Prop :=
  exec s e = .ok t

section Run
variable {step : State → Event → State → Prop} {s t u : State} {es es' : List Event}

theorem Run.split (run : Run step s (es ++ es') u) :
    ∃ t, Run step s es t ∧ Run step t es' u := by
  induction es generalizing s with
  | nil => exact ⟨s, .nil, run⟩
  | cons e es ih =>
      cases run with
      | cons move rest =>
          obtain ⟨t, first, second⟩ := ih rest
          exact ⟨t, .cons move first, second⟩

theorem Run.append (first : Run step s es t) (second : Run step t es' u) :
    Run step s (es ++ es') u := by
  induction first with
  | nil => exact second
  | cons move _ ih => exact .cons move (ih second)

theorem Run.invariant (run : Run step s es t) (inv : State → Prop) (start : inv s)
    (preserve : ∀ s e t, inv s → step s e t → inv t) : inv t := by
  induction run with
  | nil => exact start
  | cons move _ ih => exact ih (preserve _ _ _ start move)

theorem Run.grows {measure : State → Nat} (run : Run step s es t)
    (grows : ∀ s e t, step s e t → measure s ≤ measure t) : measure s ≤ measure t := by
  induction run with
  | nil => exact Nat.le_refl _
  | cons move _ ih => exact Nat.le_trans (grows _ _ _ move) ih

theorem Run.mono {step' : State → Event → State → Prop} (run : Run step s es t)
    (le : ∀ s e t, step s e t → step' s e t) : Run step' s es t := by
  induction run with
  | nil => exact .nil
  | cons move _ ih => exact .cons (le _ _ _ move) ih

theorem Run.guarded {allowed : Event → Prop} (run : Run step s es t) (all : ∀ e ∈ es, allowed e) :
    Run (Guarded (fun _ e => allowed e) step) s es t := by
  induction run with
  | nil => exact .nil
  | cons move _ ih =>
      obtain ⟨first, rest⟩ := List.forall_mem_cons.mp all
      exact .cons ⟨first, move⟩ (ih rest)

theorem Run.map {State' : Type*} {step' : State' → Event → State' → Prop} (image : State → State')
    (run : Run step s es t) (le : ∀ s e t, step s e t → step' (image s) e (image t)) :
    Run step' (image s) es (image t) := by
  induction run with
  | nil => exact .nil
  | cons move _ ih => exact .cons (le _ _ _ move) ih

theorem Run.refine {step' : State → Event → State → Prop} (run : Run step s es t)
    (inv : State → Prop) (start : inv s) (preserve : ∀ s e t, inv s → step s e t → inv t)
    (le : ∀ s e t, inv s → step s e t → step' s e t) : Run step' s es t := by
  induction run with
  | nil => exact .nil
  | cons move _ ih => exact .cons (le _ _ _ start move) (ih (preserve _ _ _ start move))

theorem Run.simulate {State' : Type*} {step' : State' → Event → State' → Prop}
    {sim : State → State' → Prop} {allowed : Event → Prop}
    (follows : ∀ s s' e t, sim s s' → allowed e → step s e t → ∃ t', step' s' e t' ∧ sim t t')
    (run : Run step s es t) {s' : State'} (start : sim s s') (all : ∀ e ∈ es, allowed e) :
    ∃ t', Run step' s' es t' ∧ sim t t' := by
  induction run generalizing s' with
  | nil => exact ⟨s', .nil, start⟩
  | cons move _ ih =>
      obtain ⟨first, rest⟩ := List.forall_mem_cons.mp all
      obtain ⟨u', move', related⟩ := follows _ _ _ _ start first move
      obtain ⟨t', run', last⟩ := ih related rest
      exact ⟨t', .cons move' run', last⟩

/-- Events that a view of the state does not concern can be left out of a run, where every other
event does to the view what it finds in the view. -/
theorem Run.purge {View : Type*} {view : State → View} {concerns : Event → Bool}
    (silent : ∀ s e t, step s e t → concerns e = false → view t = view s)
    (responds : ∀ s e t s', step s e t → concerns e → view s' = view s →
      ∃ t', step s' e t' ∧ view t' = view t)
    (run : Run step s es t) {s' : State} (same : view s' = view s) :
    ∃ t', Run step s' (es.filter concerns) t' ∧ view t' = view t := by
  induction run generalizing s' with
  | nil => exact ⟨s', .nil, same⟩
  | @cons s u t e es move rest ih =>
      by_cases own : concerns e
      · obtain ⟨u', move', same'⟩ := responds s e u s' move own same
        obtain ⟨t', run', last⟩ := ih same'
        rw [List.filter_cons_of_pos own]
        exact ⟨t', .cons move' run', last⟩
      · rw [List.filter_cons_of_neg own]
        exact ih (same.trans (silent s e u move (Bool.eq_false_iff.mpr own)).symm)

/-- What waits is done before the events that lower its rank outnumber its rank and the events that
raise it. -/
theorem Run.bounded_wait {waits done : State → Prop} {rank : State → Nat}
    {works delays : Event → Bool}
    (progress : ∀ s e t, waits s → step s e t →
      done t ∨ (waits t ∧
        rank t + (if works e then 1 else 0) ≤ rank s + if delays e then 1 else 0))
    (keeps : ∀ s e t, done s → step s e t → done t) (run : Run step s es t) (start : waits s) :
    done t ∨ rank t + es.countP works ≤ rank s + es.countP delays := by
  induction run with
  | nil => exact .inr (Nat.le_refl _)
  | @cons s u t e es move rest ih =>
      rcases progress s e u start move with now | ⟨later, drop⟩
      · exact .inl (rest.invariant done now keeps)
      · apply (ih later).imp_right
        intro bound
        rw [List.countP_cons, List.countP_cons]
        omega

end Run

theorem Run.last_write {View : Type*} {view : State → View} {writes : Event → Option View}
    (keeps : ∀ s e t, step s e t → view t = (writes e).getD (view s)) (run : Run step s es t) :
    view t = (es.filterMap writes).getLast?.getD (view s) := by
  induction run with
  | nil => rfl
  | @cons s u _ e es move _ ih =>
      rw [ih, keeps s e u move]
      cases written : writes e with
      | none => rw [List.filterMap_cons_none written, Option.getD_none]
      | some value =>
          rw [List.filterMap_cons_some written, Option.getD_some, List.getLast?_cons]
          rfl

theorem Run.fires_unique {Failure : Type*} {exec : State → Event → Except Failure State}
    {s t t' : State} {es : List Event} (run : Run (Fires exec) s es t)
    (run' : Run (Fires exec) s es t') : t = t' := by
  induction run with
  | nil =>
      cases run'
      rfl
  | cons move _ ih =>
      cases run' with
      | cons move' rest' =>
          obtain rfl := Except.ok.inj (move.symm.trans move')
          exact ih rest'

section Watched
variable {step : State → Event → State → Prop} {next : State → Event → Note → Note}
  {s t : State} {m n : Note} {es : List Event}

theorem Run.watched (run : Run step s es t) (m : Note) :
    ∃ n, Run (Watched step next) (s, m) es (t, n) := by
  induction run generalizing m with
  | nil => exact ⟨m, .nil⟩
  | @cons s _ _ e _ move _ ih =>
      obtain ⟨n, rest⟩ := ih (next s e m)
      exact ⟨n, .cons ⟨move, rfl⟩ rest⟩

end Watched

section Play

def Computes (play : State → Event → Option State) (step : State → Event → State → Prop) : Prop :=
  ∀ s e t, play s e = some t → step s e t

variable {step : State → Event → State → Prop} {play : State → Event → Option State}

theorem Computes.step_any (sound : Computes play step) {s : State} {e : Event}
    {test : State → Bool} (passed : (play s e).any test) : ∃ t, step s e t ∧ test t := by
  cases move : play s e with
  | none => simp [move] at passed
  | some t => exact ⟨t, sound _ _ _ move, by simpa [move] using passed⟩

theorem Computes.run_any (sound : Computes play step) {s : State} {es : List Event}
    {test : State → Bool} (passed : (es.foldlM play s).any test) :
    ∃ t, Run step s es t ∧ test t := by
  induction es generalizing s with
  | nil => exact ⟨s, .nil, by simpa using passed⟩
  | cons e es ih =>
      rw [List.foldlM_cons, Option.bind_eq_bind, Option.any_bind] at passed
      obtain ⟨t, move, passed⟩ := sound.step_any passed
      obtain ⟨u, rest, pass⟩ := ih passed
      exact ⟨u, .cons move rest, pass⟩

theorem Computes.run (sound : Computes play step) (s : State) (es : List Event)
    (played : (es.foldlM play s).isSome) : ∃ t, Run step s es t := by
  have passed : (es.foldlM play s).any fun _ => true := by simpa using played
  obtain ⟨t, run, -⟩ := sound.run_any passed
  exact ⟨t, run⟩

theorem ok_of_any {Failure Value : Type*} {result : Except Failure Value} {test : Value → Bool}
    (passed : result.toOption.any test) : ∃ value, result = .ok value ∧ test value := by
  cases result with
  | error failure => simp [Except.toOption] at passed
  | ok value => exact ⟨value, rfl, by simpa [Except.toOption] using passed⟩

def playFires {Failure : Type*} (exec : State → Event → Except Failure State)
    (s : State) (e : Event) : Option State := (exec s e).toOption

theorem computes_fires {Failure : Type*} {exec : State → Event → Except Failure State} :
    Computes (playFires exec) (Fires exec) := by
  intro s e t move
  unfold playFires at move
  unfold Fires
  cases action : exec s e with
  | error failure => simp [action, Except.toOption] at move
  | ok u => simpa [action, Except.toOption] using move

def playGuarded (guard : State → Event → Prop) [∀ s e, Decidable (guard s e)]
    (play : State → Event → Option State) (s : State) (e : Event) : Option State :=
  if guard s e then play s e else none

theorem Computes.guarded (sound : Computes play step) (guard : State → Event → Prop)
    [∀ s e, Decidable (guard s e)] : Computes (playGuarded guard play) (Guarded guard step) := by
  intro s e t move
  unfold playGuarded at move
  split at move
  · rename_i allowed
    exact ⟨allowed, sound s e t move⟩
  · cases move

def playWatched (next : State → Event → Note → Note) (play : State → Event → Option State)
    (before : State × Note) (e : Event) : Option (State × Note) :=
  (play before.1 e).map fun t => (t, next before.1 e before.2)

theorem Computes.watched (sound : Computes play step) (next : State → Event → Note → Note) :
    Computes (playWatched next play) (Watched step next) := by
  intro s e t move
  unfold playWatched at move
  obtain ⟨u, found, rfl⟩ := Option.map_eq_some_iff.mp move
  exact ⟨sound _ _ _ found, rfl⟩

end Play

end Transition
