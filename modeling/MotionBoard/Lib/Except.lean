import Mathlib.Logic.Basic

namespace Except
universe u v
variable {Failure : Type u} {α β : Type v} {first : Except Failure α} {next : α → Except Failure β}

theorem ok_of_bind {result : β} (action : (first >>= next) = .ok result) :
    ∃ value, first = .ok value ∧ next value = .ok result := by
  cases first with
  | error failure => cases action
  | ok value => exact ⟨value, rfl, action⟩

theorem ok_of_map {g : α → β} {result : β} (action : (first >>= fun value => .ok (g value)) = .ok result) :
    ∃ value, first = .ok value ∧ result = g value := by
  obtain ⟨value, done, mapped⟩ := ok_of_bind action
  exact ⟨value, done, (Except.ok.inj mapped).symm⟩

theorem error_of_bind {failure : Failure} (action : (first >>= next) = .error failure) :
    first = .error failure ∨ ∃ value, first = .ok value ∧ next value = .error failure := by
  cases first with
  | error failure' =>
      cases action
      exact .inl rfl
  | ok value => exact .inr ⟨value, rfl, action⟩

end Except
