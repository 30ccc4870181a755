import Mathlib.Data.List.Basic

/-!
This module contains binary trees in which each node has a label, and is found by the bits on the way to it.
-/

inductive BitTrie (α : Type) where
  | null
  | node (label : α) (zero one : BitTrie α)
deriving Repr, DecidableEq

namespace BitTrie

variable {α : Type}

def child (bit : Bool) : BitTrie α → BitTrie α
  | null => null
  | node _ zero one => if bit then one else zero

def label : BitTrie α → Option α
  | null => none
  | node label _ _ => some label

def walk : List Bool → BitTrie α → BitTrie α
  | [], t => t
  | bit :: path, t => walk path (t.child bit)

-- The label at the end of a path
def find (path : List Bool) (t : BitTrie α) : Option α := (t.walk path).label

/-
Change the label at the end of a path, with fresh nodes where there are none.
-/
def modify (fresh : α) (f : α → α) : List Bool → BitTrie α → BitTrie α
  | [], null => node (f fresh) null null
  | [], node label zero one => node (f label) zero one
  | true :: path, null => node fresh null (modify fresh f path null)
  | false :: path, null => node fresh (modify fresh f path null) null
  | true :: path, node label zero one => node label zero (modify fresh f path one)
  | false :: path, node label zero one => node label (modify fresh f path zero) one

variable {t : BitTrie α} {fresh : α} {f : α → α} {path q : List Bool}

@[simp]
theorem walk_null (path : List Bool) : walk path (null : BitTrie α) = null := by
  induction path with
  | nil => rfl
  | cons bit path ih => exact ih

@[simp]
theorem find_null (path : List Bool) : find path (null : BitTrie α) = none := by
  unfold find
  rw [walk_null]
  rfl

theorem find_cons (bit : Bool) (path : List Bool) (t : BitTrie α)
    : find (bit :: path) t = find path (t.child bit) := rfl

theorem child_modify (bit b : Bool) (path : List Bool) (t : BitTrie α)
    : (modify fresh f (bit :: path) t).child b
        =
      if b = bit then modify fresh f path (t.child b) else t.child b := by
  cases t with
  | null => cases bit <;> cases b <;> rfl
  | node label zero one => cases bit <;> cases b <;> rfl

theorem find_nil_modify_cons (bit : Bool) (path : List Bool) (t : BitTrie α)
    : find [] (modify fresh f (bit :: path) t) = some ((find [] t).getD fresh) := by
  cases t with
  | null => cases bit <;> rfl
  | node label zero one => cases bit <;> rfl

theorem find_modify_self (path : List Bool) (t : BitTrie α)
    : find path (modify fresh f path t) = some (f ((find path t).getD fresh)) := by
  induction path generalizing t with
  | nil => cases t <;> rfl
  | cons bit path ih =>
    rw [find_cons, find_cons, child_modify, if_pos rfl]
    exact ih (t.child bit)

-- On the way there is a node then
theorem find_modify_of_prefix (h : q <+: path) (hne : q ≠ path) (t : BitTrie α)
    : find q (modify fresh f path t) = some ((find q t).getD fresh) := by
  induction path generalizing q t with
  | nil => exact absurd (List.prefix_nil.mp h) hne
  | cons bit path ih =>
    cases q with
    | nil => exact find_nil_modify_cons bit path t
    | cons b q =>
      obtain ⟨rfl, hstart⟩ := List.cons_prefix_cons.mp h
      rw [find_cons, find_cons, child_modify, if_pos rfl]
      exact ih hstart (fun heq => hne (congrArg _ heq)) (t.child b)

theorem find_modify_of_not_prefix (h : ¬q <+: path) (t : BitTrie α)
    : find q (modify fresh f path t) = find q t := by
  induction path generalizing q t with
  | nil =>
    cases q with
    | nil => exact absurd List.prefix_rfl h
    | cons b q =>
      rw [find_cons, find_cons]
      cases t with
      | null => cases b <;> rfl
      | node label zero one => rfl
  | cons bit path ih =>
    cases q with
    | nil => exact absurd List.nil_prefix h
    | cons b q =>
      rw [find_cons, find_cons, child_modify]
      split
      . next heq =>
        have hnot : ¬q <+: path := fun hstart => h (List.cons_prefix_cons.mpr ⟨heq, hstart⟩)
        exact ih hnot (t.child b)
      . rfl

end BitTrie
