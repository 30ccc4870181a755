import Mathlib.Data.List.Basic
import Mathlib.Data.List.Nodup
import Mathlib.Logic.Function.Iterate

/-!
This module contains the theory of doubly linked lists whose nodes live in a table and whose links
are read through two functions `next` and `prev`. Nothing is said about how the table is stored:
an update is described by how it changes the two functions on the nodes of a list.
-/

namespace DoublyLinked

variable {ι : Type}

/--
The nodes `l` are chained in this order: the first one points back to `p`, the last one points
forward to `e` and in between `next` and `prev` are inverse to each other.
-/
def Linked (next prev : ι → ι) (p e : ι) : List ι → Prop
  | [] => True
  | i :: l => prev i = p ∧ next i = l.headD e ∧ Linked next prev i e l

variable {next prev next' prev' : ι → ι} {p e : ι}

@[simp]
theorem linked_nil : Linked next prev p e [] := trivial

@[simp]
theorem linked_cons {i : ι} {l : List ι}
    : Linked next prev p e (i :: l)
        ↔
      prev i = p ∧ next i = l.headD e ∧ Linked next prev i e l := Iff.rfl

theorem Linked.congr {l : List ι} (h : Linked next prev p e l)
    (hnext : ∀ j ∈ l, next' j = next j) (hprev : ∀ j ∈ l, prev' j = prev j)
    : Linked next' prev' p e l := by
  induction l generalizing p with
  | nil => trivial
  | cons i l ih =>
    rcases h with ⟨h1, h2, h3⟩
    refine ⟨?_, ?_, ?_⟩
    . rw [hprev i (by simp), h1]
    . rw [hnext i (by simp), h2]
    . apply ih h3
      . intro j hj
        apply hnext
        simp [hj]
      . intro j hj
        apply hprev
        simp [hj]

theorem linked_append {l1 l2 : List ι}
    : Linked next prev p e (l1 ++ l2)
        ↔
      Linked next prev p (l2.headD e) l1 ∧ Linked next prev (l1.getLastD p) e l2 := by
  induction l1 generalizing p with
  | nil => simp
  | cons i l1 ih =>
    simp only [List.cons_append, linked_cons, ih]
    have hhead : (l1 ++ l2).headD e = l1.headD (l2.headD e) := by
      cases l1 <;> simp
    rw [hhead, List.getLastD_cons]
    tauto

theorem Linked.prev_mid {l1 l2 : List ι} {i : ι} (h : Linked next prev p e (l1 ++ i :: l2))
    : prev i = l1.getLastD p := by
  rw [linked_append] at h
  exact h.2.1

theorem Linked.next_mid {l1 l2 : List ι} {i : ι} (h : Linked next prev p e (l1 ++ i :: l2))
    : next i = l2.headD e := by
  rw [linked_append] at h
  exact h.2.2.1

theorem headD_mem_or_eq (l : List ι) (e : ι) : l.headD e ∈ l ∨ l.headD e = e := by
  cases l <;> simp

theorem getLastD_cons_mem (i : ι) (l : List ι) (p : ι) : (i :: l).getLastD p ∈ i :: l := by
  induction l generalizing i p with
  | nil => simp
  | cons j l ih =>
    rw [List.getLastD_cons]
    apply List.mem_cons_of_mem
    apply ih

theorem getLastD_mem_or_eq (l : List ι) (p : ι) : l.getLastD p ∈ l ∨ l.getLastD p = p := by
  cases l with
  | nil => simp
  | cons i l => exact Or.inl (getLastD_cons_mem i l p)

/--
Redirecting both neighbours of `i` to each other takes `i` out of the list.
-/
theorem Linked.splice {l1 l2 : List ι} {i : ι} (h : Linked next prev p e (l1 ++ i :: l2))
    (hnodup : (l1 ++ i :: l2).Nodup) (hp : p ∉ l1 ++ l2) (he : e ∉ l1 ++ l2)
    (hnext1 : ∀ j ∈ l1 ++ l2, j = prev i → next' j = next i)
    (hnext2 : ∀ j ∈ l1 ++ l2, j ≠ prev i → next' j = next j)
    (hprev1 : ∀ j ∈ l1 ++ l2, j = next i → prev' j = prev i)
    (hprev2 : ∀ j ∈ l1 ++ l2, j ≠ next i → prev' j = prev j)
    : Linked next' prev' p e (l1 ++ l2) := by
  have hi1 := h.prev_mid
  have hi2 := h.next_mid
  -- The induction walks up to `i`; behind `i` only the first `prev` link differs.
  induction l1 generalizing p with
  | nil =>
    cases l2 with
    | nil => trivial
    | cons k l =>
      simp only [List.nil_append, linked_cons, List.headD_cons] at h hi1 hi2 ⊢
      simp only [List.nil_append, List.nodup_cons, List.mem_cons, not_or] at *
      refine ⟨?_, ?_, ?_⟩
      . rw [hprev1 k (by simp) (by simp [hi2]), h.1]
      . rw [hnext2 k (by simp) (by rw [h.1]; exact fun hk => hp.1 hk.symm), h.2.2.2.1]
      . apply h.2.2.2.2.congr
        . intro j hj
          apply hnext2 j (by simp [hj])
          rintro rfl
          rw [h.1] at hj
          exact hp.2 hj
        . intro j hj
          apply hprev2 j (by simp [hj])
          rintro rfl
          rw [hi2] at hj
          exact hnodup.2.1 hj
  | cons a l1 ih =>
    simp only [List.cons_append, linked_cons] at h ⊢
    simp only [List.cons_append, List.nodup_cons, List.mem_append, List.mem_cons, not_or] at *
    have hal2 : a ∉ l2 := hnodup.1.2.2
    have hal1 : a ∉ l1 := hnodup.1.1
    have hane : a ≠ next i := by
      rw [hi2]
      cases headD_mem_or_eq l2 e with
      | inl hm => exact fun heq => hal2 (heq ▸ hm)
      | inr hm => rw [hm]; exact fun heq => he.1 heq.symm
    refine ⟨?_, ?_, ?_⟩
    . rw [hprev2 a (by simp) hane, h.1]
    . cases l1 with
      | nil =>
        rw [hnext1 a (by simp) (by simp [hi1]), hi2]
        simp
      | cons b l1 =>
        rw [hnext2 a (by simp), h.2.1]
        . simp
        . rw [hi1, List.getLastD_cons]
          intro heq
          apply hal1
          rw [heq]
          apply getLastD_cons_mem
    . apply ih h.2.2 hnodup.2 ⟨hal1, hal2⟩ he.2
      . intro j hj
        exact hnext1 j (by tauto)
      . intro j hj
        exact hnext2 j (by tauto)
      . intro j hj
        exact hprev1 j (by tauto)
      . intro j hj
        exact hprev2 j (by tauto)
      . exact h.2.2.prev_mid

/--
A node that points back to `s`, and forward to what followed `s`, joins the list behind `s`.
-/
theorem Linked.insertAfter {l1 l2 : List ι} {s q : ι}
    (h : Linked next prev p e (l1 ++ s :: l2)) (hnodup : (l1 ++ s :: l2).Nodup)
    (he : e ∉ l1 ++ s :: l2) (hnext1 : next' s = q)
    (hnext2 : ∀ j ∈ l1 ++ s :: l2, j ≠ s → next' j = next j)
    (hprev1 : ∀ j ∈ l1 ++ s :: l2, j = next s → prev' j = q)
    (hprev2 : ∀ j ∈ l1 ++ s :: l2, j ≠ next s → prev' j = prev j)
    (hq1 : next' q = next s) (hq2 : prev' q = s)
    : Linked next' prev' p e (l1 ++ s :: q :: l2) := by
  have hs := h.next_mid
  rw [linked_append] at h ⊢
  rcases h with ⟨h1, h2, h3, h4⟩
  simp only [List.nodup_append, List.nodup_cons] at hnodup
  -- Everything up to `s` keeps its links but `next s`, everything behind it but one `prev`.
  have hbefore : ∀ j ∈ l1 ++ [s], j ≠ next s := by
    intro j hj heq
    rw [hs] at heq
    subst heq
    cases headD_mem_or_eq l2 e with
    | inl hm => grind
    | inr hm => grind
  refine ⟨?_, ?_, ?_, ?_, ?_, ?_⟩
  . apply h1.congr
    . intro j hj
      apply hnext2 j (by simp [hj])
      rintro rfl
      grind
    . intro j hj
      exact hprev2 j (by simp [hj]) (hbefore j (by simp [hj]))
  . rw [hprev2 s (by simp) (hbefore s (by simp)), h2]
  . simpa using hnext1
  . exact hq2
  . rw [hq1, hs]
  . cases l2 with
    | nil => trivial
    | cons k l =>
      simp only [List.headD_cons] at hs
      refine ⟨?_, ?_, ?_⟩
      . exact hprev1 k (by simp) hs.symm
      . rw [hnext2 k (by simp) (by grind), h4.2.1]
      . apply h4.2.2.congr
        . intro j hj
          exact hnext2 j (by simp [hj]) (by grind)
        . intro j hj
          exact hprev2 j (by simp [hj]) (by grind)

/--
A node that points forward to the first node joins the list in front of it.
-/
theorem Linked.push {l : List ι} {d : ι} (h : Linked next prev p e l) (hnodup : l.Nodup)
    (hnext : ∀ j ∈ l, next' j = next j)
    (hprev1 : ∀ j ∈ l, j = l.headD e → prev' j = d)
    (hprev2 : ∀ j ∈ l, j ≠ l.headD e → prev' j = prev j)
    (hd1 : next' d = l.headD e) (hd2 : prev' d = p)
    : Linked next' prev' p e (d :: l) := by
  refine ⟨hd2, hd1, ?_⟩
  cases l with
  | nil => trivial
  | cons k l =>
    simp only [List.headD_cons] at *
    refine ⟨?_, ?_, ?_⟩
    . exact hprev1 k (by simp) rfl
    . rw [hnext k (by simp), h.2.1]
    . apply h.2.2.congr
      . intro j hj
        exact hnext j (by simp [hj])
      . intro j hj
        exact hprev2 j (by simp [hj]) (by rintro rfl; simp_all)

/--
Every node of a list is reached from each of the nodes before it by following `next`.
-/
theorem Linked.exists_iterate {s : ι} {l : List ι} (h : Linked next prev p e (s :: l))
    : ∀ i ∈ s :: l, ∃ k, k ≤ l.length ∧ next^[k] s = i := by
  induction l generalizing p s with
  | nil =>
    intro i hi
    simp only [List.mem_singleton] at hi
    exact ⟨0, by simp, hi.symm⟩
  | cons t l ih =>
    intro i hi
    rcases h with ⟨_, h2, h3⟩
    simp only [List.headD_cons] at h2
    cases List.mem_cons.mp hi with
    | inl hi => exact ⟨0, by simp, hi.symm⟩
    | inr hi =>
      rcases ih h3 i hi with ⟨k, hk1, hk2⟩
      refine ⟨k + 1, by simp; omega, ?_⟩
      rw [Function.iterate_succ_apply, h2, hk2]

end DoublyLinked
