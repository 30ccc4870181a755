import Mathlib.Data.List.Flatten
import Mathlib.Data.List.Perm.Basic

/-!
This module contains the walk through a tree with a queue, where a node is taken from the front of the queue
and its children are put at the end of it.
-/

namespace BreadthFirst

variable {α : Type} (children : α → List α)

-- The nodes in the order of the walk, if it is over before the fuel is used up
def walk : Nat → List α → Option (List α)
  | 0, _ => none
  | _ + 1, [] => some []
  | fuel + 1, a :: queue => (walk fuel (queue ++ children a)).map (a :: ·)

variable {children} {as bs nodes : List α}

/-
All that is in the queue comes before the children of it.
-/
theorem walk_append (fuel : Nat) (as bs : List α)
    : walk children (as.length + fuel) (as ++ bs)
        = (walk children fuel (bs ++ as.flatMap children)).map (as ++ ·) := by
  induction as generalizing bs with
  | nil => simp
  | cons a as ih =>
    have hlen : (a :: as).length + fuel = as.length + fuel + 1 := by
      rw [List.length_cons]
      omega
    rw [hlen, List.cons_append, walk, List.append_assoc, ih, List.append_assoc, Option.map_map]
    rfl

theorem walk_layer {fuel : Nat} (h : walk children fuel (as.flatMap children) = some nodes)
    : walk children (as.length + fuel) as = some (as ++ nodes) := by
  have hlayer := @walk_append α children fuel as []
  rw [List.append_nil, List.nil_append, h] at hlayer
  exact hlayer

theorem walk_mono {fuel fuel' : Nat} (hle : fuel ≤ fuel') (h : walk children fuel as = some nodes)
    : walk children fuel' as = some nodes := by
  induction fuel generalizing fuel' as nodes with
  | zero => cases h
  | succ fuel ih =>
    obtain ⟨fuel', rfl⟩ := Nat.exists_eq_add_of_le' (show 1 ≤ fuel' by omega)
    cases as with
    | nil => exact h
    | cons a queue =>
      rw [walk, Option.map_eq_some_iff] at h
      obtain ⟨rest, hrest, rfl⟩ := h
      rw [walk, ih (by omega) hrest]
      rfl

/-
It is the same nodes as in any other order in which each node comes with all that is below it.
-/
theorem walk_perm {preorder : α → List α}
    (hpre : ∀ a, preorder a = a :: (children a).flatMap preorder) {fuel : Nat}
    (h : walk children fuel as = some nodes)
    : nodes.Perm (as.flatMap preorder) := by
  induction fuel generalizing as nodes with
  | zero => cases h
  | succ fuel ih =>
    cases as with
    | nil =>
      cases h
      exact List.Perm.refl []
    | cons a queue =>
      rw [walk, Option.map_eq_some_iff] at h
      obtain ⟨rest, hrest, rfl⟩ := h
      rw [List.flatMap_cons, hpre, List.cons_append]
      apply List.Perm.cons
      apply (ih hrest).trans
      rw [List.flatMap_append]
      exact List.perm_append_comm

end BreadthFirst
