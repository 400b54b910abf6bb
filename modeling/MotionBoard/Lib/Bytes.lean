import Mathlib.Algebra.Group.Nat.Defs
import Mathlib.Data.Nat.Basic

namespace Bytes
variable {size : Nat}

theorem forall_byte {P : UInt8 → Prop} (values : ∀ n < 2 ^ 8, P (UInt8.ofNat n)) (b : UInt8) :
    P b := by
  have value := values b.toNat b.toNat_lt
  rwa [UInt8.ofNat_toNat] at value

def byte (block : Vector UInt8 size) (i : Nat) : UInt8 := block[i]?.getD 0

def putByte (block : Vector UInt8 size) (i : Nat) (value : UInt8) : Vector UInt8 size :=
  block.setIfInBounds i value

def half (block : Vector UInt8 size) (i : Nat) : UInt16 :=
  UInt16.ofNat ((byte block i).toNat + 2 ^ 8 * (byte block (i + 1)).toNat)

def putHalf (block : Vector UInt8 size) (i : Nat) (value : UInt16) : Vector UInt8 size :=
  putByte (putByte block i (UInt8.ofNat value.toNat)) (i + 1) (UInt8.ofNat (value.toNat / 2 ^ 8))

def word (block : Vector UInt8 size) (i : Nat) : UInt32 :=
  UInt32.ofNat ((byte block i).toNat + 2 ^ 8 * (byte block (i + 1)).toNat +
    2 ^ 16 * (byte block (i + 2)).toNat + 2 ^ 24 * (byte block (i + 3)).toNat)

def putWord (block : Vector UInt8 size) (i : Nat) (value : UInt32) : Vector UInt8 size :=
  putByte (putByte (putByte (putByte block i (UInt8.ofNat value.toNat))
    (i + 1) (UInt8.ofNat (value.toNat / 2 ^ 8)))
    (i + 2) (UInt8.ofNat (value.toNat / 2 ^ 16)))
    (i + 3) (UInt8.ofNat (value.toNat / 2 ^ 24))

section Fields
variable {block : Vector UInt8 size} {i j : Nat}

theorem byte_putByte (value : UInt8) (room : i < size) : byte (putByte block i value) i = value := by
  simp [byte, putByte, room]

theorem byte_putByte_ne (value : UInt8) (apart : i ≠ j) :
    byte (putByte block i value) j = byte block j := by
  simp [byte, putByte, Vector.getElem?_setIfInBounds_ne apart]

theorem byte_putWord_ne (value : UInt32) (apart : j < i ∨ i + 4 ≤ j) :
    byte (putWord block i value) j = byte block j := by
  unfold putWord
  rw [byte_putByte_ne _ (by omega), byte_putByte_ne _ (by omega), byte_putByte_ne _ (by omega),
    byte_putByte_ne _ (by omega)]

theorem word_congr {block' : Vector UInt8 size}
    (same : ∀ k < 4, byte block' (i + k) = byte block (i + k)) :
    word block' i = word block i := by
  have first := same 0 (by omega)
  have second := same 1 (by omega)
  have third := same 2 (by omega)
  have fourth := same 3 (by omega)
  rw [Nat.add_zero] at first
  unfold word
  rw [first, second, third, fourth]

theorem word_putByte_ne (value : UInt8) (apart : i < j ∨ j + 4 ≤ i) :
    word (putByte block i value) j = word block j :=
  word_congr fun _ _ => byte_putByte_ne value (by omega)

theorem word_putWord_ne (value : UInt32) (apart : i + 4 ≤ j ∨ j + 4 ≤ i) :
    word (putWord block i value) j = word block j :=
  word_congr fun _ _ => byte_putWord_ne value (by omega)

theorem word_putWord (value : UInt32) (room : i + 4 ≤ size) :
    word (putWord block i value) i = value := by
  have first : byte (putWord block i value) i = UInt8.ofNat value.toNat := by
    unfold putWord
    rw [byte_putByte_ne _ (by omega), byte_putByte_ne _ (by omega), byte_putByte_ne _ (by omega),
      byte_putByte _ (by omega)]
  have second : byte (putWord block i value) (i + 1) = UInt8.ofNat (value.toNat / 2 ^ 8) := by
    unfold putWord
    rw [byte_putByte_ne _ (by omega), byte_putByte_ne _ (by omega), byte_putByte _ (by omega)]
  have third : byte (putWord block i value) (i + 2) = UInt8.ofNat (value.toNat / 2 ^ 16) := by
    unfold putWord
    rw [byte_putByte_ne _ (by omega), byte_putByte _ (by omega)]
  have fourth : byte (putWord block i value) (i + 3) = UInt8.ofNat (value.toNat / 2 ^ 24) :=
    byte_putByte _ (by omega)
  have bound := value.toNat_lt
  unfold word
  rw [first, second, third, fourth]
  simp only [UInt8.toNat_ofNat']
  rw [show value.toNat % 2 ^ 8 + 2 ^ 8 * (value.toNat / 2 ^ 8 % 2 ^ 8) +
    2 ^ 16 * (value.toNat / 2 ^ 16 % 2 ^ 8) + 2 ^ 24 * (value.toNat / 2 ^ 24 % 2 ^ 8) =
      value.toNat by omega]
  exact UInt32.ofNat_toNat

end Fields

end Bytes
