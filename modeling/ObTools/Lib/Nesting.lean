import Mathlib.Data.List.Basic

/-!
This module contains tags that open and close elements, and what it means that each of them is closed by
the tag of its own name.
-/

namespace Nesting

inductive Tag (α : Type) where
  | start (name : α)
  | empty (name : α)
  | stop (name : α)
deriving Repr, DecidableEq

variable {α : Type}

-- Some elements, one after another
inductive Nested : List (Tag α) → Prop
  | nil : Nested []
  | empty (name : α) {rest : List (Tag α)} (nested : Nested rest) : Nested (.empty name :: rest)
  | element (name : α) {inner rest : List (Tag α)} (nested : Nested inner) (after : Nested rest)
    : Nested (.start name :: (inner ++ .stop name :: rest))

-- A single element
inductive Document : List (Tag α) → Prop
  | empty (name : α) : Document [.empty name]
  | element (name : α) {inner : List (Tag α)} (nested : Nested inner)
    : Document (.start name :: (inner ++ [.stop name]))

/-
The elements that are still open after some tags, the innermost one first.
-/
inductive Open : List α → List (Tag α) → Prop
  | nil : Open [] []
  | cons {names : List α} {tags inner : List (Tag α)} (name : α) (outer : Open names tags) (nested : Nested inner)
    : Open (name :: names) (tags ++ .start name :: inner)

variable {names : List α} {tags tags' : List (Tag α)} {name : α}

theorem Nested.append (h : Nested tags) (h' : Nested tags') : Nested (tags ++ tags') := by
  induction h with
  | nil => exact h'
  | empty name _ ih => exact .empty name ih
  | element name hinner _ _ ih =>
    rw [List.cons_append, List.append_assoc, List.cons_append]
    exact .element name hinner ih

namespace Open

theorem eq_nil_iff (h : Open names tags) : names = [] ↔ tags = [] := by
  cases h with
  | nil => simp
  | cons => simp

theorem start (h : Open names tags) (name : α) : Open (name :: names) (tags ++ [.start name]) :=
  h.cons name .nil

-- More elements inside of the innermost open one
theorem append (h : Open (name :: names) tags) (hinner : Nested tags') : Open (name :: names) (tags ++ tags') := by
  cases h with
  | cons _ houter hnested =>
    rw [List.append_assoc, List.cons_append]
    exact houter.cons name (hnested.append hinner)

theorem empty (h : Open (name :: names) tags) (other : α) : Open (name :: names) (tags ++ [.empty other]) :=
  h.append (.empty other .nil)

-- The innermost open element becomes a part of the next one
theorem stop {outer : α} (h : Open (name :: outer :: names) tags)
    : Open (outer :: names) (tags ++ [.stop name]) := by
  cases h with
  | cons _ houter hnested =>
    rw [List.append_assoc, List.cons_append]
    exact houter.append (.element name hnested .nil)

-- The outermost element is open since the first tag
theorem head (h : Open names tags) : names = [] ∨ ∃ name, names.getLast? = some name ∧ tags.head? = some (.start name) := by
  induction h with
  | nil => exact Or.inl rfl
  | @cons names tags inner name outer nested ih =>
    refine Or.inr ?_
    rcases ih with hnil | ⟨first, hlast, hhead⟩
    . have htags := outer.eq_nil_iff.mp hnil
      rw [hnil, htags]
      exact ⟨name, rfl, rfl⟩
    . refine ⟨first, ?_, ?_⟩
      . rw [List.getLast?_cons, hlast]
        rfl
      . rw [List.head?_append, hhead]
        rfl

theorem document (h : Open [name] tags) : Document (tags ++ [.stop name]) := by
  cases h with
  | cons _ houter hnested =>
    cases houter
    exact .element name hnested

end Open

end Nesting
