import Mathlib.Algebra.Order.Group.Nat
import Mathlib.Logic.Function.Iterate

/-!
This module contains what happens if neighbours in a list are combined again and again until there is
only one element left, where an element without a neighbour is kept as it is.
-/

namespace Pairing

variable {α : Type} (f : α → α → α)

def pairs : List α → List α
  | [] => []
  | [a] => [a]
  | a :: b :: as => f a b :: pairs as

variable {as bs : List α}

theorem length_pairs : (pairs f as).length = (as.length + 1) / 2 := by
  fun_induction pairs f as with
  | case1 => simp
  | case2 a => simp
  | case3 a b as ih =>
    simp only [List.length_cons, ih]
    omega

theorem pairs_append (h : as.length % 2 = 0) : pairs f (as ++ bs) = pairs f as ++ pairs f bs := by
  fun_induction pairs f as with
  | case1 => rfl
  | case2 a => simp at h
  | case3 a b as ih =>
    have hlen : as.length % 2 = 0 := by
      simp only [List.length_cons] at h
      omega
    simp only [List.cons_append, pairs]
    rw [ih hlen]

theorem iterate_pairs_append {m : Nat} (h : 2 ^ m ∣ as.length)
    : (pairs f)^[m] (as ++ bs) = (pairs f)^[m] as ++ (pairs f)^[m] bs := by
  induction m generalizing as bs with
  | zero => rfl
  | succ m ih =>
    obtain ⟨k, hk⟩ := h
    rw [Nat.pow_succ, Nat.mul_right_comm] at hk
    have hlen : (pairs f as).length = 2 ^ m * k := by
      rw [length_pairs]
      omega
    rw [Function.iterate_succ_apply, pairs_append f (by omega), ih ⟨k, hlen⟩]
    rfl

theorem iterate_pairs_singleton (a : α) (m : Nat) : (pairs f)^[m] [a] = [a] := by
  apply Function.iterate_fixed
  rfl

/--
The last step combines what has become of the elements in front, of which there are as many as the
largest power of two allows, with what has become of the rest.
-/
theorem iterate_pairs_split {a b : α} {m r : Nat} (has : as.length = 2 ^ m)
    (ha : (pairs f)^[m] as = [a]) (hb : (pairs f)^[m] bs = [b]) (hr : m < r)
    : (pairs f)^[r] (as ++ bs) = [f a b] := by
  obtain ⟨k, rfl⟩ := Nat.exists_eq_add_of_lt hr
  have hlast : (pairs f)^[m + 1] (as ++ bs) = [f a b] := by
    rw [Function.iterate_succ_apply', iterate_pairs_append f ⟨1, by rw [has, Nat.mul_one]⟩, ha, hb]
    rfl
  rw [Nat.add_right_comm, Nat.add_comm, Function.iterate_add_apply, hlast]
  exact iterate_pairs_singleton f _ k

end Pairing
