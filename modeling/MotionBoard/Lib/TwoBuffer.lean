import Mathlib.Data.Nat.Basic
import Mathlib.Order.Lattice
import Mathlib.Order.Defs.LinearOrder

namespace TwoBuffer

structure Order where
  request : Nat
  made : Nat
  done : Nat
  deriving DecidableEq, Repr

/-- `cur` is the length of the buffer being played, `next` that of the other one once filled. -/
structure Feed where
  order : Option Order
  cur : Nat
  next : Option Nat
  deriving DecidableEq, Repr

namespace Feed
variable (cap : Nat) (f : Feed)

def quota : Nat :=
  match f.order with
  | none => cap
  | some o => min cap (o.request - o.made)

def fill : Feed :=
  { f with
    order := f.order.map fun o => { o with made := o.made + f.quota cap }
    next := some (f.quota cap) }

def More : Prop :=
  match f.order with
  | none => True
  | some o => o.done + f.cur < o.request

def advance (n : Nat) : Feed :=
  { order := f.order.map fun o => { o with done := o.done + f.cur }
    cur := n
    next := none }

/-- A new order in the middle of playing, which counts from here on. -/
def reorder (request : Nat) : Feed := { f with order := some ⟨request, 0, 0⟩ }

/-- More is wanted, but an empty buffer is being played or comes next: a player that never completes
an empty buffer does not come to an end. -/
def Stuck : Prop := f.More ∧ (f.cur = 0 ∨ f.next = some 0)

def Fair : Prop :=
  match f.order with
  | none => f.cur = cap ∧ ∀ n ∈ f.next, n = cap
  | some o =>
      o.done ≤ o.request ∧ f.cur = min cap (o.request - o.done) ∧
        o.made = o.done + f.cur + f.next.getD 0 ∧
        ∀ n ∈ f.next, n = min cap (o.request - (o.done + f.cur))

def Busy : Prop := 0 < f.cur ∧ (f.next = some 0 → ¬ f.More)

/-- The stages of an order for one buffer, `cap` units, that takes over while a short buffer is
played: nothing is made for it yet, its units are in the other buffer, its units are played. -/
inductive Stage
  | waiting | filled | ramping
  deriving DecidableEq, Repr

def Winding (lead : Nat) : Stage → Prop
  | .waiting => ∃ done, f.order = some ⟨cap, 0, done⟩ ∧ done + f.cur = lead ∧ lead < cap ∧
      ∀ n ∈ f.next, n = 0
  | .filled => ∃ done, f.order = some ⟨cap, cap, done⟩ ∧ done + f.cur = lead ∧ lead < cap ∧
      f.next = some cap
  | .ramping => f.order = some ⟨cap, cap, lead⟩ ∧ lead < cap ∧ f.cur = cap ∧ ∀ n ∈ f.next, n = 0

def Overtaken : Prop := ∃ made, f.order = some ⟨cap, made, 0⟩ ∧ f.cur = cap

variable {cap f}

section Fair

theorem Fair.cur_le (fair : f.Fair cap) : f.cur ≤ cap := by
  unfold Fair at fair
  cases order : f.order with
  | none =>
      simp only [order] at fair
      omega
  | some o =>
      simp only [order] at fair
      omega

theorem Fair.fill (fair : f.Fair cap) (empty : f.next = none) : (f.fill cap).Fair cap := by
  unfold Fair at fair ⊢
  cases order : f.order with
  | none =>
      simp only [order] at fair
      simpa [Feed.fill, quota, order] using fair.1
  | some o =>
      simp only [order, empty, Option.getD_none] at fair
      simp only [Feed.fill, quota, order, Option.map_some, Option.getD_some, Option.mem_def,
        Option.some.injEq]
      refine ⟨fair.1, fair.2.1, ?_, ?_⟩
      · omega
      · intro n length
        rw [← length]
        congr 1
        omega

theorem Fair.advance {n : Nat} (fair : f.Fair cap) (more : f.More) (next : f.next = some n) :
    (f.advance n).Fair cap := by
  unfold Fair at fair ⊢
  unfold More at more
  cases order : f.order with
  | none =>
      simp only [order] at fair
      simpa [Feed.advance, order] using fair.2 n next
  | some o =>
      simp only [order, next, Option.getD_some] at fair more
      simp only [Feed.advance, order, Option.map_some, Option.getD_none]
      have length := fair.2.2.2 n rfl
      refine ⟨by omega, length, ?_, fun m empty => by cases empty⟩
      omega

theorem Fair.played_le {o : Order} (fair : f.Fair cap) (order : f.order = some o) :
    o.done + f.cur ≤ o.request := by
  simp only [Fair, order] at fair
  omega

theorem Fair.finished {o : Order} (fair : f.Fair cap) (order : f.order = some o)
    (last : ¬ f.More) : o.done + f.cur = o.request := by
  have most := fair.played_le order
  simp only [More, order] at last
  omega

theorem Fair.next_of_finished (fair : f.Fair cap) (last : ¬ f.More) : ∀ n ∈ f.next, n = 0 := by
  cases order : f.order with
  | none =>
      unfold More at last
      rw [order] at last
      exact absurd trivial last
  | some o =>
      intro n next
      have ended := fair.finished order last
      simp only [Fair, order] at fair
      have := fair.2.2.2 n next
      omega

theorem Fair.last_of_short (fair : f.Fair cap) (short : f.cur < cap) :
    ∃ o, f.order = some o ∧ o.done + f.cur = o.request ∧ ∀ n ∈ f.next, n = 0 := by
  unfold Fair at fair
  cases order : f.order with
  | none =>
      simp only [order] at fair
      omega
  | some o =>
      simp only [order] at fair
      refine ⟨o, rfl, by omega, fun n next => ?_⟩
      have := fair.2.2.2 n next
      omega

theorem fair_start {request made : Nat} {next : Option Nat}
    (count : made = min cap request + next.getD 0)
    (length : ∀ n ∈ next, n = min cap (request - min cap request)) :
    Fair cap ⟨some ⟨request, made, 0⟩, min cap request, next⟩ := by
  refine ⟨by simp, by simp, by simpa using count, fun n member => ?_⟩
  simpa using length n member

end Fair

section Winding
variable {stage : Stage} {lead : Nat}

theorem Fair.reorder_winding (fair : f.Fair cap) (short : f.cur < cap) :
    (f.reorder cap).Winding cap f.cur .waiting := by
  obtain ⟨o, -, -, empty⟩ := fair.last_of_short short
  exact ⟨0, rfl, Nat.zero_add _, short, empty⟩

theorem reorder_overtaken (full : f.cur = cap) : (f.reorder cap).Overtaken cap := ⟨0, rfl, full⟩

theorem Winding.fill (winding : f.Winding cap lead stage) (empty : f.next = none) :
    (f.fill cap).Winding cap lead (if stage = .waiting then .filled else stage) := by
  cases stage with
  | waiting =>
      obtain ⟨done, order, before, room, -⟩ := winding
      exact ⟨done, by simp [Feed.fill, quota, order], before, room,
        by simp [Feed.fill, quota, order]⟩
  | filled =>
      obtain ⟨done, -, -, -, next⟩ := winding
      rw [empty] at next
      cases next
  | ramping =>
      obtain ⟨order, room, full, -⟩ := winding
      exact ⟨by simp [Feed.fill, quota, order], room, full, by simp [Feed.fill, quota, order]⟩

theorem Winding.more_iff (winding : f.Winding cap lead stage) : f.More ↔ stage ≠ .ramping := by
  cases stage with
  | waiting =>
      obtain ⟨done, order, before, room, -⟩ := winding
      simp only [More, order, before, room, ne_eq, reduceCtorEq, not_false_eq_true]
  | filled =>
      obtain ⟨done, order, before, room, -⟩ := winding
      simp only [More, order, before, room, ne_eq, reduceCtorEq, not_false_eq_true]
  | ramping =>
      obtain ⟨order, room, full, -⟩ := winding
      simp [More, order, full]

theorem Winding.advance {n : Nat} (winding : f.Winding cap lead stage) (more : f.More)
    (next : f.next = some n) :
    (f.advance n).Winding cap lead (if stage = .filled then .ramping else stage) := by
  cases stage with
  | waiting =>
      obtain ⟨done, order, before, room, empty⟩ := winding
      obtain rfl := empty n next
      exact ⟨done + f.cur, by simp [Feed.advance, order], before, room, by simp [Feed.advance]⟩
  | filled =>
      obtain ⟨done, order, before, room, full⟩ := winding
      obtain rfl := Option.some.inj (next.symm.trans full)
      exact ⟨by simp [Feed.advance, order, before], room, rfl, by simp [Feed.advance]⟩
  | ramping => exact absurd rfl (winding.more_iff.mp more)

theorem Overtaken.fill (ended : f.Overtaken cap) : (f.fill cap).Overtaken cap := by
  obtain ⟨made, order, full⟩ := ended
  exact ⟨made + f.quota cap, by simp [Feed.fill, order], full⟩

theorem Overtaken.not_more (ended : f.Overtaken cap) : ¬ f.More := by
  obtain ⟨made, order, full⟩ := ended
  simp [More, order, full]

end Winding

section Stuck

theorem Stuck.fill (stuck : f.Stuck) (empty : f.next = none) : (f.fill cap).Stuck := by
  obtain ⟨more, idle | next⟩ := stuck
  · refine ⟨?_, .inl idle⟩
    unfold More at more ⊢
    cases order : f.order with
    | none => simp [Feed.fill, order]
    | some o => simpa [Feed.fill, order] using more
  · rw [empty] at next
    cases next

theorem Stuck.advance {n : Nat} (stuck : f.Stuck) (some_ : 0 < f.cur) (next : f.next = some n) :
    (f.advance n).Stuck := by
  obtain ⟨more, idle | empty⟩ := stuck
  · omega
  · obtain rfl := Option.some.inj (next.symm.trans empty)
    refine ⟨?_, .inl rfl⟩
    unfold More at more ⊢
    cases order : f.order with
    | none => simp [Feed.advance, order]
    | some o => simpa [Feed.advance, order] using more

end Stuck

section Busy
variable {stage : Stage} {lead : Nat}

theorem Fair.busy (fair : f.Fair cap) (room : 0 < cap)
    (wanted : ∀ o ∈ f.order, o.done < o.request) : f.Busy := by
  unfold Fair at fair
  unfold Busy More
  cases order : f.order with
  | none =>
      simp only [order] at fair
      refine ⟨by omega, fun empty => ?_⟩
      have := fair.2 0 empty
      omega
  | some o =>
      simp only [order] at fair
      have := wanted o order
      refine ⟨by omega, fun empty => ?_⟩
      have := fair.2.2.2 0 empty
      dsimp only
      omega

theorem Fair.busy_fill (fair : f.Fair cap) (room : 0 < cap) (busy : f.Busy)
    (empty : f.next = none) : (f.fill cap).Busy := by
  refine ⟨busy.1, fun next => ?_⟩
  unfold Fair at fair
  unfold More
  cases order : f.order with
  | none =>
      simp only [Feed.fill, quota, order, Option.some.injEq] at next
      omega
  | some o =>
      simp only [order, empty, Option.getD_none] at fair
      simp only [Feed.fill, quota, order, Option.map_some, Option.some.injEq] at next ⊢
      omega

theorem Winding.busy_fill (winding : f.Winding cap lead stage) (room : 0 < cap) (busy : f.Busy)
    (empty : f.next = none) : (f.fill cap).Busy := by
  refine ⟨busy.1, fun next => ?_⟩
  have filled := winding.fill empty
  rw [filled.more_iff]
  cases stage with
  | waiting =>
      obtain ⟨done, -, -, -, full⟩ := filled
      have : 0 = cap := Option.some.inj (next.symm.trans full)
      omega
  | filled =>
      obtain ⟨done, -, -, -, full⟩ := winding
      rw [empty] at full
      cases full
  | ramping => simp

theorem Busy.advance {n : Nat} (busy : f.Busy) (more : f.More) (next : f.next = some n) :
    (f.advance n).Busy := by
  refine ⟨?_, fun empty => by simp [Feed.advance] at empty⟩
  by_contra zero
  obtain rfl : n = 0 := by simpa [Feed.advance] using zero
  exact busy.2 next more

theorem Busy.reorder (busy : f.Busy) (ready : f.next = none ∨ f.cur = cap) :
    (f.reorder cap).Busy := by
  refine ⟨busy.1, fun next => ?_⟩
  rcases ready with empty | full
  · rw [show (f.reorder cap).next = f.next from rfl, empty] at next
    cases next
  · exact (reorder_overtaken full).not_more

end Busy

section Going
variable {overruled : Bool}

def Going (cap : Nat) (f : Feed) (overruled : Bool) : Prop :=
  if overruled then (∃ lead stage, f.Winding cap lead stage) ∨ f.Overtaken cap else f.Fair cap

theorem Going.fill (going : f.Going cap overruled) (empty : f.next = none) :
    (f.fill cap).Going cap overruled := by
  cases overruled with
  | false =>
      have fair : f.Fair cap := going
      exact fair.fill empty
  | true =>
      rcases going with ⟨lead, stage, winding⟩ | ended
      · exact .inl ⟨_, _, winding.fill empty⟩
      · exact .inr ended.fill

theorem Going.advance {n : Nat} (going : f.Going cap overruled) (more : f.More)
    (next : f.next = some n) : (f.advance n).Going cap overruled := by
  cases overruled with
  | false =>
      have fair : f.Fair cap := going
      exact fair.advance more next
  | true =>
      rcases going with ⟨lead, stage, winding⟩ | ended
      · exact .inl ⟨_, _, winding.advance more next⟩
      · exact absurd more ended.not_more

theorem Going.reorder (going : f.Going cap false) : (f.reorder cap).Going cap true := by
  have fair : f.Fair cap := going
  by_cases short : f.cur < cap
  · exact .inl ⟨_, _, fair.reorder_winding short⟩
  · exact .inr (reorder_overtaken (Nat.le_antisymm fair.cur_le (Nat.not_lt.mp short)))

theorem Going.played_le {o : Order} (going : f.Going cap overruled) (order : f.order = some o) :
    o.done + f.cur ≤ max o.request (cap + cap) := by
  cases overruled with
  | false =>
      have fair : f.Fair cap := going
      exact Nat.le_trans (fair.played_le order) (Nat.le_max_left _ _)
  | true =>
      refine Nat.le_trans ?_ (Nat.le_max_right _ _)
      rcases going with ⟨lead, stage, winding⟩ | ⟨made, same, full⟩
      · cases stage with
        | waiting =>
            obtain ⟨done, same, before, room, -⟩ := winding
            obtain rfl := Option.some.inj (order.symm.trans same)
            dsimp only
            omega
        | filled =>
            obtain ⟨done, same, before, room, -⟩ := winding
            obtain rfl := Option.some.inj (order.symm.trans same)
            dsimp only
            omega
        | ramping =>
            obtain ⟨same, room, full, -⟩ := winding
            obtain rfl := Option.some.inj (order.symm.trans same)
            dsimp only
            omega
      · obtain rfl := Option.some.inj (order.symm.trans same)
        dsimp only
        omega

theorem Going.busy_fill (going : f.Going cap overruled) (room : 0 < cap) (busy : f.Busy)
    (empty : f.next = none) : (f.fill cap).Busy := by
  cases overruled with
  | false =>
      have fair : f.Fair cap := going
      exact fair.busy_fill room busy empty
  | true =>
      rcases going with ⟨lead, stage, winding⟩ | ended
      · exact winding.busy_fill room busy empty
      · exact ⟨busy.1, fun _ => ended.fill.not_more⟩

end Going

section Kept

structure Kept (cap : Nat) (inv : Feed → Prop) : Prop where
  fill : ∀ f, inv f → f.next = none → inv (f.fill cap)
  advance : ∀ f n, inv f → f.More → 0 < f.cur → f.next = some n → inv (f.advance n)

theorem kept_fair (request : Nat) :
    Kept cap fun f => f.Fair cap ∧ ∃ o, f.order = some o ∧ o.request = request where
  fill f := by
    rintro ⟨fair, o, order, wanted⟩ empty
    exact ⟨fair.fill empty, _, congrArg (Option.map _) order, wanted⟩
  advance f n := by
    rintro ⟨fair, o, order, wanted⟩ more - next
    exact ⟨fair.advance more next, _, congrArg (Option.map _) order, wanted⟩

theorem kept_winding (lead : Nat) : Kept cap fun f => ∃ stage, f.Winding cap lead stage where
  fill := fun _ ⟨_, winding⟩ empty => ⟨_, winding.fill empty⟩
  advance := fun _ _ ⟨_, winding⟩ more _ next => ⟨_, winding.advance more next⟩

theorem kept_overtaken : Kept cap (Overtaken cap) where
  fill _ ended _ := ended.fill
  advance _ _ ended more := absurd more ended.not_more

theorem kept_stuck : Kept cap Stuck where
  fill _ stuck empty := stuck.fill empty
  advance _ _ stuck _ some_ next := stuck.advance some_ next

end Kept

end Feed

end TwoBuffer
