import Mathlib.Algebra.Group.Nat.Defs

/-!
# Binary64 arithmetic on rationals

The numbers are the rationals with at most 53 significant bits. Every operation is the exact one
followed by rounding to the nearest such number, ties to even. Overflow and subnormal results do
not occur in the programs this is used for and are left out.
-/

namespace Binary64

def scale (q : Rat) : Int → Rat
  | .ofNat n => q * ((2 ^ n : Nat) : Rat)
  | .negSucc n => q / ((2 ^ (n + 1) : Nat) : Rat)

def exponent (q : Rat) : Int :=
  let k : Int := q.num.toNat.log2 - q.den.log2
  if scale 1 k ≤ q then k else k - 1

def roundEven (q : Rat) : Int :=
  let below := q.floor
  let rest := q - below
  if rest < 1 / 2 then below
  else if 1 / 2 < rest then below + 1
  else if below % 2 = 0 then below else below + 1

def roundPos (q : Rat) : Rat :=
  let ulp := exponent q - 52
  scale (roundEven (scale q (-ulp))) ulp

def round (q : Rat) : Rat :=
  if q = 0 then 0 else if q < 0 then -roundPos (-q) else roundPos q

def ofInt (n : Int) : Rat := round n

def mul (a b : Rat) : Rat := round (a * b)

def div (a b : Rat) : Rat := round (a / b)

/-- Truncation toward zero, saturating at the ends of the 32-bit range. -/
def toUInt32 (q : Rat) : UInt32 :=
  if q < 0 then 0
  else if q.floor.toNat < 2 ^ 32 then UInt32.ofNat q.floor.toNat
  else UInt32.ofNat (2 ^ 32 - 1)

example : toUInt32 (mul (mul (ofInt 100) (round (676 / 1000))) (ofInt 14142)) = 955999 := by
  decide +kernel

end Binary64
