import Mathlib.Data.Set.Basic

/-!
This module contains the theory of ordered lists of half open intervals of natural numbers. The
intervals are elements of an arbitrary type, `lo` and `hi` read off where they start and end.
-/

namespace Intervals

variable {α : Type} {lo hi : α → Nat} {l l1 l2 : List α} {i : α} {x : Nat}

def points (lo hi : α → Nat) (l : List α) : Set Nat := { x | ∃ i ∈ l, lo i ≤ x ∧ x < hi i }

/-
The intervals are not empty, in order, and there is at least one point between any two of them.
-/
structure Separated (lo hi : α → Nat) (l : List α) : Prop where
  lt : ∀ i ∈ l, lo i < hi i
  apart : l.Pairwise fun a b => hi a < lo b

theorem mem_points : x ∈ points lo hi l ↔ ∃ i ∈ l, lo i ≤ x ∧ x < hi i := Iff.rfl

@[simp]
theorem mem_points_nil : x ∈ points lo hi ([] : List α) ↔ False := by
  simp [mem_points]

@[simp]
theorem mem_points_cons
    : x ∈ points lo hi (i :: l) ↔ (lo i ≤ x ∧ x < hi i) ∨ x ∈ points lo hi l := by
  simp [mem_points]

@[simp]
theorem mem_points_append
    : x ∈ points lo hi (l1 ++ l2) ↔ x ∈ points lo hi l1 ∨ x ∈ points lo hi l2 := by
  simp only [mem_points, List.mem_append, or_and_right, exists_or]

theorem mem_points_of_mem (hi' : i ∈ l) (h1 : lo i ≤ x) (h2 : x < hi i) : x ∈ points lo hi l :=
  ⟨i, hi', h1, h2⟩

/--
Two intervals that overlap or touch can be replaced with the one they form together.
-/
theorem mem_points_merge {j k : α} (hlo : lo k = min (lo i) (lo j)) (hhi : hi k = max (hi i) (hi j))
    (hij : lo i ≤ hi j) (hji : lo j ≤ hi i)
    : x ∈ points lo hi (k :: l) ↔ x ∈ points lo hi (i :: j :: l) := by
  simp only [mem_points_cons, ← or_assoc]
  apply or_congr_left
  omega

@[simp]
theorem separated_nil : Separated lo hi ([] : List α) := by
  constructor <;> simp

theorem separated_cons
    : Separated lo hi (i :: l)
        ↔
      lo i < hi i ∧ (∀ j ∈ l, hi i < lo j) ∧ Separated lo hi l := by
  constructor
  . intro h
    have := List.pairwise_cons.mp h.apart
    refine ⟨h.lt i (by simp), this.1, ?_, this.2⟩
    intro j hj
    exact h.lt j (by simp [hj])
  . intro h
    constructor
    . intro j hj
      cases List.mem_cons.mp hj with
      | inl heq => rw [heq]; exact h.1
      | inr hj => exact h.2.2.lt j hj
    . rw [List.pairwise_cons]
      exact ⟨h.2.1, h.2.2.apart⟩

theorem separated_append
    : Separated lo hi (l1 ++ l2)
        ↔
      Separated lo hi l1 ∧ Separated lo hi l2 ∧ ∀ a ∈ l1, ∀ b ∈ l2, hi a < lo b := by
  induction l1 with
  | nil => simp
  | cons i l1 ih =>
    simp only [List.cons_append, separated_cons, ih, List.mem_append, List.mem_cons]
    grind

theorem Separated.lo_lt (h : Separated lo hi (i :: l)) {j : α} (hj : j ∈ l) : lo i < lo j := by
  rw [separated_cons] at h
  have := h.2.1 j hj
  omega

theorem Separated.lt_of_mem_points (h : Separated lo hi (i :: l)) (hx : x ∈ points lo hi l)
    : hi i < x := by
  obtain ⟨j, hj, h1, h2⟩ := hx
  rw [separated_cons] at h
  have := h.2.1 j hj
  omega

theorem Separated.eq_of_touching (h : Separated lo hi l) {j : α} (hil : i ∈ l) (hjl : j ∈ l)
    (hij : lo i ≤ hi j) (hji : lo j ≤ hi i)
    : i = j := by
  induction l with
  | nil => simp at hil
  | cons k l ih =>
    rw [separated_cons] at h
    cases List.mem_cons.mp hil with
    | inl hik =>
      cases List.mem_cons.mp hjl with
      | inl hjk => rw [hik, hjk]
      | inr hjl =>
        have := h.2.1 j hjl
        rw [hik] at hji
        omega
    | inr hil =>
      cases List.mem_cons.mp hjl with
      | inl hjk =>
        have := h.2.1 i hil
        rw [hjk] at hij
        omega
      | inr hjl => exact ih h.2.2 hil hjl

theorem Separated.hi_not_mem (h : Separated lo hi l) (hil : i ∈ l) : hi i ∉ points lo hi l := by
  rintro ⟨j, hjl, h1, h2⟩
  have := h.lt i hil
  have := h.eq_of_touching hil hjl (by omega) (by omega)
  rw [← this] at h2
  omega

theorem Separated.pred_lo_not_mem (h : Separated lo hi l) (hil : i ∈ l) (hpos : 0 < lo i)
    : lo i - 1 ∉ points lo hi l := by
  rintro ⟨j, hjl, h1, h2⟩
  have := h.lt i hil
  have := h.eq_of_touching hil hjl (by omega) (by omega)
  rw [← this] at h1
  omega

/--
An interval that is covered by the points of a separated list lies within one of its intervals.
-/
theorem Separated.covers_iff (h : Separated lo hi l) {a b : Nat} (hab : a < b)
    : (∀ x, a ≤ x → x < b → x ∈ points lo hi l) ↔ ∃ i ∈ l, lo i ≤ a ∧ b ≤ hi i := by
  constructor
  . intro hcover
    obtain ⟨i, hil, hi1, hi2⟩ := hcover a (by omega) hab
    refine ⟨i, hil, hi1, ?_⟩
    by_contra hlt
    -- The end of this interval is in the gap behind it.
    obtain ⟨j, hjl, hj1, hj2⟩ := hcover (hi i) (by omega) (by omega)
    have heq := h.eq_of_touching hil hjl (by omega) hj1
    rw [heq] at hj2
    omega
  . intro hin x hx1 hx2
    obtain ⟨i, hil, hi1, hi2⟩ := hin
    exact mem_points_of_mem hil (by omega) (by omega)

theorem Separated.head_lo_le (h : Separated lo hi (i :: l)) (hx : x ∈ points lo hi (i :: l))
    : lo i ≤ x := by
  rw [mem_points_cons] at hx
  cases hx with
  | inl hx => exact hx.1
  | inr hx =>
    have := h.lt_of_mem_points hx
    have := h.lt i List.mem_cons_self
    omega

theorem Separated.head_hi_le {j : α} (h : Separated lo hi (i :: l1))
    (hpoints : ∀ x, x ∈ points lo hi (i :: l1) ↔ x ∈ points lo hi (j :: l2)) (hlo : lo i = lo j)
    : hi j ≤ hi i := by
  by_contra hlt
  have hlt' := h.lt i List.mem_cons_self
  -- The end of the first interval would be a point.
  have hmem : hi i ∈ points lo hi (j :: l2) :=
    mem_points_of_mem List.mem_cons_self (by omega) (by omega)
  rw [← hpoints, mem_points_cons] at hmem
  cases hmem with
  | inl hin => omega
  | inr hin =>
    have := h.lt_of_mem_points hin
    omega

/--
There is only one such list for a set of points.
-/
theorem Separated.eq_of_points (hinj : ∀ a b, lo a = lo b → hi a = hi b → a = b)
    (h1 : Separated lo hi l1) (h2 : Separated lo hi l2)
    (hpoints : ∀ x, x ∈ points lo hi l1 ↔ x ∈ points lo hi l2)
    : l1 = l2 := by
  induction l1 generalizing l2 with
  | nil =>
    cases l2 with
    | nil => rfl
    | cons j l2 =>
      have hj := h2.lt j List.mem_cons_self
      have := (hpoints (lo j)).mpr (mem_points_of_mem List.mem_cons_self (Nat.le_refl _) hj)
      rw [mem_points_nil] at this
      exact this.elim
  | cons i l1 ih =>
    cases l2 with
    | nil =>
      have hi' := h1.lt i List.mem_cons_self
      have := (hpoints (lo i)).mp (mem_points_of_mem List.mem_cons_self (Nat.le_refl _) hi')
      rw [mem_points_nil] at this
      exact this.elim
    | cons j l2 =>
      have hi' := h1.lt i List.mem_cons_self
      have hj := h2.lt j List.mem_cons_self
      have hmemi : lo i ∈ points lo hi (i :: l1) :=
        mem_points_of_mem List.mem_cons_self (Nat.le_refl _) hi'
      have hmemj : lo j ∈ points lo hi (j :: l2) :=
        mem_points_of_mem List.mem_cons_self (Nat.le_refl _) hj
      have hlo : lo i = lo j := by
        have := h2.head_lo_le ((hpoints _).mp hmemi)
        have := h1.head_lo_le ((hpoints _).mpr hmemj)
        omega
      have hhi : hi i = hi j := by
        have := h1.head_hi_le hpoints hlo
        have := h2.head_hi_le (fun x => (hpoints x).symm) hlo.symm
        omega
      have htail : ∀ x, x ∈ points lo hi l1 ↔ x ∈ points lo hi l2 := by
        intro x
        have hx := hpoints x
        rw [mem_points_cons, mem_points_cons] at hx
        constructor
        . intro hmem
          have := h1.lt_of_mem_points hmem
          exact (hx.mp (.inr hmem)).resolve_left (by omega)
        . intro hmem
          have := h2.lt_of_mem_points hmem
          exact (hx.mpr (.inr hmem)).resolve_left (by omega)
      rw [separated_cons] at h1 h2
      rw [hinj i j hlo hhi, ih h1.2.2 h2.2.2 htail]

end Intervals
