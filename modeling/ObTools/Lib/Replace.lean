import Mathlib.Data.List.Infix

/-!
This module contains the search for a list in another one, and the replacement of all its occurrences.
-/

namespace Replace

variable {α : Type}

section Before

variable {old before after : List α}

-- Everywhere before the end of the list nothing is found
def Before (old before after : List α) : Prop := ∀ k < before.length, ¬old <+: (before ++ after).drop k

theorem before_nil : Before old [] after := fun _ hk => absurd hk (Nat.not_lt_zero _)

theorem before_cons {c : α} (hc : ¬old <+: c :: (before ++ after)) (h : Before old before after)
    : Before old (c :: before) after := by
  intro k hk
  cases k with
  | zero => exact hc
  | succ k => exact h k (Nat.lt_of_succ_lt_succ hk)

theorem Before.head {c : α} (h : Before old (c :: before) after) : ¬old <+: c :: (before ++ after) :=
  h 0 (Nat.zero_lt_succ _)

theorem Before.tail {c : α} (h : Before old (c :: before) after) : Before old before after :=
  fun k hk => h (k + 1) (Nat.succ_lt_succ hk)

theorem before_of_head (h : ∀ c ∈ before, old.head? ≠ some c) (hold : old ≠ []) (after : List α)
    : Before old before after := by
  induction before with
  | nil => exact before_nil
  | cons c before ih =>
    rw [List.forall_mem_cons] at h
    refine before_cons ?_ (ih h.2)
    rintro ⟨rest, hrest⟩
    cases old with
    | nil => exact hold rfl
    | cons d old => exact h.1 (congrArg some (List.cons.inj hrest).1)

end Before

variable [DecidableEq α]

-- The first position from `p`, at which the list starts, at which the other one is found
def findFrom (old text : List α) (p : Nat) : Option Nat :=
  if old <+: text then
    some p
  else
    match text with
    | [] => none
    | _ :: text => findFrom old text (p + 1)

def find (text old : List α) (p : Nat) : Option Nat :=
  if p ≤ text.length then findFrom old (text.drop p) p else none

/-
The occurrences are found from the left, and what is put in place of one is not looked at again.
-/
def replaceAll (old rep text : List α) : List α :=
  if old ≠ [] ∧ old <+: text then
    rep ++ replaceAll old rep (text.drop old.length)
  else
    match text with
    | [] => []
    | c :: text => c :: replaceAll old rep text
termination_by text.length
decreasing_by
  . rename_i h
    have hold := List.length_pos_of_ne_nil h.1
    have hprefix := h.2.length_le
    rw [List.length_drop]
    omega
  . simp

variable {old rep text before after : List α}

/-
The search.
-/

theorem findFrom_eq (old text : List α) (p : Nat)
    : (∃ before after, text = before ++ (old ++ after) ∧ Before old before (old ++ after)
          ∧ findFrom old text p = some (p + before.length))
        ∨
      (¬old <+: [] ∧ Before old text [] ∧ findFrom old text p = none) := by
  induction text generalizing p with
  | nil =>
    rw [findFrom]
    by_cases hold : old <+: []
    . refine Or.inl ⟨[], [], ?_, before_nil, by rw [if_pos hold]; rfl⟩
      rw [List.prefix_nil.mp hold]
      rfl
    . exact Or.inr ⟨hold, before_nil, if_neg hold⟩
  | cons c text ih =>
    rw [findFrom]
    by_cases hold : old <+: c :: text
    . obtain ⟨after, hafter⟩ := hold
      exact Or.inl ⟨[], after, hafter.symm, before_nil, if_pos ⟨after, hafter⟩⟩
    . rw [if_neg hold]
      rcases ih (p + 1) with ⟨before, after, rfl, hbefore, hfind⟩ | ⟨hnil, hbefore, hfind⟩
      . refine Or.inl ⟨c :: before, after, rfl, before_cons hold hbefore, ?_⟩
        rw [hfind, List.length_cons, Nat.add_right_comm, Nat.add_assoc]
      . refine Or.inr ⟨hnil, before_cons ?_ hbefore, hfind⟩
        rw [List.append_nil]
        exact hold

theorem find_nil (h : p ≤ text.length) : find text [] p = some p := by
  unfold find
  rw [if_pos h, findFrom.eq_def, if_pos List.nil_prefix]

/-
The replacement.
-/

theorem replaceAll_nil (hold : old ≠ []) : replaceAll old rep [] = [] := by
  rw [replaceAll, if_neg fun h => hold (List.prefix_nil.mp h.2)]

theorem replaceAll_match (hold : old ≠ []) (after : List α)
    : replaceAll old rep (old ++ after) = rep ++ replaceAll old rep after := by
  rw [replaceAll.eq_def, if_pos ⟨hold, List.prefix_append old after⟩, List.drop_left]

theorem replaceAll_append (rep : List α) (h : Before old before after)
    : replaceAll old rep (before ++ after) = before ++ replaceAll old rep after := by
  induction before with
  | nil => rfl
  | cons c before ih =>
    rw [List.cons_append, replaceAll, if_neg fun hc => h.head hc.2, ih h.tail]
    rfl

/--
In a list of pieces that are what is replaced or have nothing of its head, nothing is found across their bounds.
-/
theorem replaceAll_flatMap {β : Type} (rep : List α) (hold : old ≠ []) {f : β → List α} (l : List β)
    (h : ∀ b ∈ l, f b = old ∨ ∀ c ∈ f b, old.head? ≠ some c)
    : replaceAll old rep (l.flatMap f) = l.flatMap fun b => if f b = old then rep else f b := by
  induction l with
  | nil => exact replaceAll_nil hold
  | cons b l ih =>
    rw [List.forall_mem_cons] at h
    rw [List.flatMap_cons, List.flatMap_cons, ← ih h.2]
    by_cases hb : f b = old
    . rw [if_pos hb, hb, replaceAll_match hold]
    . rw [if_neg hb, replaceAll_append rep (before_of_head (h.1.resolve_left hb) hold _)]

end Replace
