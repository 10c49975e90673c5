/-
The XOR of a list of words: a summary that does not depend on the order, and in which
an element counted twice cancels.
-/
import Mathlib.Data.UInt

namespace XorSum

def xorSum (l : List UInt64) : UInt64 := l.foldr (· ^^^ ·) 0

@[simp] theorem xorSum_nil : xorSum [] = 0 := rfl

@[simp] theorem xorSum_cons (a : UInt64) (l : List UInt64) : xorSum (a :: l) = a ^^^ xorSum l := rfl

theorem xorSum_append (l l' : List UInt64) : xorSum (l ++ l') = xorSum l ^^^ xorSum l' := by
  induction l with
  | nil => simp
  | cons a l ih => rw [List.cons_append, xorSum_cons, ih, xorSum_cons, UInt64.xor_assoc]

theorem xorSum_perm {l l' : List UInt64} (h : l.Perm l') : xorSum l = xorSum l' :=
  h.foldr_eq' (fun a _ b _ c => by
    rw [← UInt64.xor_assoc, UInt64.xor_comm b a, UInt64.xor_assoc]) 0

theorem xor_cancel_right (a b : UInt64) : a ^^^ b ^^^ b = a := by
  rw [UInt64.xor_assoc, UInt64.xor_self, UInt64.xor_zero]

theorem xorSum_filter {α : Type} (f : α → UInt64) (p : α → Bool) (l : List α) :
    xorSum (l.map f) = xorSum ((l.filter p).map f) ^^^ xorSum ((l.filter fun a => !p a).map f) := by
  rw [← xorSum_append, ← List.map_append]
  exact xorSum_perm ((List.filter_append_perm p l).symm.map f)

end XorSum
