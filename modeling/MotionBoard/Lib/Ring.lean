import Mathlib.Data.Nat.ModEq
import MotionBoard.Lib.Index

namespace Ring
variable {Slot : Type*} {size : Nat}

def after (first : Fin size) (count : Nat) : Fin size :=
  ⟨(first + count) % size, Nat.mod_lt _ first.pos⟩

def window (slots : Vector Slot size) (first : Fin size) (count : Nat) : List Slot :=
  (List.range count).map fun k => slots[after first k]

section Window
variable {slots : Vector Slot size} {first : Fin size} {count : Nat}

@[simp] theorem after_zero : after first 0 = first :=
  Fin.ext (Nat.mod_eq_of_lt first.isLt)

theorem after_succ [NeZero size] : after first (count + 1) = after first count + 1 := by
  apply Fin.ext
  change (first + (count + 1)) % size = ((first + count) % size + 1 % size) % size
  rw [← Nat.add_mod, Nat.add_assoc]

theorem after_succ' [NeZero size] : after first (count + 1) = after (first + 1) count := by
  apply Fin.ext
  change (first + (count + 1)) % size = ((first + 1 % size) % size + count) % size
  rw [Nat.mod_add_mod, Nat.add_right_comm, Nat.add_mod_mod, Nat.add_right_comm, Nat.add_assoc,
    Nat.add_comm 1]

theorem after_inj {k l : Nat} (same : after first k = after first l) (left : k < size)
    (right : l < size) : k = l := by
  have congruent : first + k ≡ first + l [MOD size] := congrArg Fin.val same
  exact (congruent.add_left_cancel' _).eq_of_lt_of_lt left right

theorem window_succ [NeZero size] :
    window slots first (count + 1) = slots[first] :: window slots (first + 1) count := by
  unfold window
  rw [List.range_succ_eq_map, List.map_cons, List.map_map]
  simp only [after_zero, Function.comp_def, Nat.succ_eq_add_one, after_succ']

theorem window_push {i : Fin size} (behind : i = after first count) (room : count < size)
    (slot : Slot) :
    window (slots.put i slot) first (count + 1) = window slots first count ++ [slot] := by
  subst behind
  unfold window
  rw [List.range_succ, List.map_append]
  congr 1
  · refine List.map_congr_left fun k member => ?_
    have before := List.mem_range.mp member
    have apart : after first count ≠ after first k := fun same =>
      before.ne' (after_inj same room (before.trans room))
    rw [Vector.getElem_put, if_neg apart]
  · simp only [List.map_cons, List.map_nil, Vector.getElem_put, if_true]

theorem window_map {Value : Type*} (read : Slot → Value) {i : Fin size} {slot : Slot}
    (same : read slot = read slots[i]) :
    (window (slots.put i slot) first count).map read = (window slots first count).map read := by
  unfold window
  rw [List.map_map, List.map_map]
  refine List.map_congr_left fun k _ => ?_
  rw [Function.comp_apply, Function.comp_apply, Vector.getElem_put]
  split
  · rename_i here
    rw [same, here]
  · rfl

end Window

/-- The write index meets the read index only in an empty ring, and is right behind it only in a
full one. -/
theorem after_eq_iff {first : Fin size} {count : Nat} (room : count < size) :
    after first count = first ↔ count = 0 := by
  constructor
  · intro same
    exact after_inj (same.trans after_zero.symm) room first.pos
  · rintro rfl
    exact after_zero

theorem after_succ_eq_iff [NeZero size] {first : Fin size} {count : Nat} (room : count < size) :
    after first count + 1 = first ↔ count + 1 = size := by
  rw [← after_succ]
  constructor
  · intro same
    by_contra more
    exact absurd ((after_eq_iff (by omega)).mp same) (by omega)
  · rintro full
    apply Fin.ext
    change (first + (count + 1)) % size = first
    rw [full, Nat.add_mod_right]
    exact Nat.mod_eq_of_lt first.isLt

end Ring
