import Mathlib.Algebra.Group.Int.Defs
import Mathlib.Algebra.Group.Nat.Defs

namespace Words

theorem toInt_toInt32 (x : UInt32) : x.toInt32.toInt = (x.toNat : Int).bmod (2 ^ 32) :=
  BitVec.toInt_eq_toNat_bmod x.toBitVec

theorem bmod_of_fits {x : Int} (low : -2 ^ 31 ≤ x) (high : x < 2 ^ 31) : x.bmod (2 ^ 32) = x :=
  Int.bmod_eq_of_le (by omega) (by omega)

theorem bmod_emod (x : Int) : x.bmod (2 ^ 32) % 2 ^ 16 = x % 2 ^ 16 := by
  have congruent : ((2 ^ 32 : Nat) : Int) ∣ x.bmod (2 ^ 32) - x := Int.dvd_bmod_sub_self
  obtain ⟨k, difference⟩ := congruent
  omega

theorem toNat_toUInt16 (x : Int32) : (x.toUInt32.toUInt16.toNat : Int) = x.toInt % 2 ^ 16 := by
  have word := toInt_toInt32 x.toUInt32
  rw [Int32.toInt32_toUInt32] at word
  rw [UInt32.toNat_toUInt16, word, bmod_emod]
  omega

section Congruent
variable {a b : UInt32} {x y : Int}

theorem toInt_mul (left : a.toInt32.toInt = x.bmod (2 ^ 32))
    (right : b.toInt32.toInt = y.bmod (2 ^ 32)) :
    (a * b).toInt32.toInt = (x * y).bmod (2 ^ 32) := by
  rw [UInt32.toInt32_mul, Int32.toInt_mul, left, right, Int.bmod_mul_bmod, Int.mul_bmod_bmod]

theorem toInt_add (left : a.toInt32.toInt = x.bmod (2 ^ 32))
    (right : b.toInt32.toInt = y.bmod (2 ^ 32)) :
    (a + b).toInt32.toInt = (x + y).bmod (2 ^ 32) := by
  rw [UInt32.toInt32_add, Int32.toInt_add, left, right, Int.bmod_add_bmod, Int.add_bmod_bmod]

theorem toInt_sub (left : a.toInt32.toInt = x.bmod (2 ^ 32))
    (right : b.toInt32.toInt = y.bmod (2 ^ 32)) :
    (a - b).toInt32.toInt = (x - y).bmod (2 ^ 32) := by
  rw [UInt32.toInt32_sub, Int32.toInt_sub, left, right, Int.bmod_sub_bmod, Int.sub_bmod_bmod]

end Congruent

theorem toInt_bmod (x : Int32) : x.toInt = x.toInt.bmod (2 ^ 32) :=
  (bmod_of_fits x.le_toInt x.toInt_lt).symm

end Words
