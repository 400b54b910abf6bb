import Mathlib.Algebra.Group.Int.Defs
import Mathlib.Algebra.GroupWithZero.Nat
import Mathlib.Algebra.NeZero

namespace Vector
variable {Value : Type*} {n : Nat}

instance getElemFin : GetElem (Vector Value n) (Fin n) Value fun _ _ => True where
  getElem xs i _ := xs.get i

@[simp] theorem getElem_fin (xs : Vector Value n) (i : Fin n) : xs[i] = getElem xs i.val i.isLt :=
  rfl

def put (xs : Vector Value n) (i : Fin n) (x : Value) : Vector Value n := xs.set i x

theorem getElem_put (xs : Vector Value n) (i j : Fin n) (x : Value) :
    (xs.put i x)[j] = if i = j then x else xs[j] := by
  unfold put
  simp only [getElem_fin, getElem_set, Fin.ext_iff]

end Vector
