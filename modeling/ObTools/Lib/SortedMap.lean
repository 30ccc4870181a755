import Mathlib.Data.List.Basic
import Mathlib.Data.List.Induction

/-!
This module contains maps that are lists of entries in the order of their keys, and scopes that are kept as a stack of
them, where each map is a copy of the one around it with the declarations of its own scope.
-/

namespace SortedMap

variable {κ ν : Type} [LT κ] [DecidableLT κ] [DecidableEq κ]

def set (key : κ) (v : ν) : List (κ × ν) → List (κ × ν)
  | [] => [(key, v)]
  | (k, w) :: m =>
    if key < k then
      (key, v) :: (k, w) :: m
    else if key = k then
      (key, v) :: m
    else
      (k, w) :: set key v m

omit [LT κ] [DecidableLT κ] in
def erase (key : κ) (m : List (κ × ν)) : List (κ × ν) := m.filter fun e => e.1 ≠ key

omit [LT κ] [DecidableLT κ] in
def find (key : κ) (m : List (κ × ν)) : Option ν :=
  (m.find? fun e => e.1 = key).map Prod.snd

-- The keys are different and in order
def Sorted (m : List (κ × ν)) : Prop := m.Pairwise fun e f => e.1 < f.1

variable {key : κ} {v : ν} {m : List (κ × ν)}

/--
A key behind all others is added at the end.
-/
theorem set_last (hirrefl : ∀ k : κ, ¬k < k) (hasymm : ∀ k l : κ, k < l → ¬l < k)
    (h : ∀ e ∈ m, e.1 < key)
    : set key v m = m ++ [(key, v)] := by
  induction m with
  | nil => rfl
  | cons e m ih =>
    rw [List.forall_mem_cons] at h
    have hne : key ≠ e.1 := by
      intro heq
      rw [← heq] at h
      exact hirrefl key h.1
    unfold set
    rw [if_neg (hasymm _ _ h.1), if_neg hne, ih h.2, List.cons_append]

theorem find_set_self (key : κ) (v : ν) (m : List (κ × ν)) : find key (set key v m) = some v := by
  induction m with
  | nil => simp [find, set]
  | cons e m ih =>
    unfold set
    split
    . simp [find]
    . split
      . simp [find]
      . next hne =>
        unfold find at ih ⊢
        rw [List.find?_cons_of_neg (by simpa using Ne.symm hne)]
        exact ih

theorem find_set_of_ne {k : κ} (h : k ≠ key) (v : ν) (m : List (κ × ν)) : find k (set key v m) = find k m := by
  induction m with
  | nil => simp [find, set, h.symm]
  | cons e m ih =>
    unfold set
    split
    . unfold find
      rw [List.find?_cons_of_neg (by simpa using h.symm)]
    . split
      . next heq =>
        unfold find
        rw [List.find?_cons_of_neg (by simpa using h.symm), List.find?_cons_of_neg (by simpa [← heq] using h.symm)]
      . unfold find at ih ⊢
        by_cases heq : e.1 = k
        . rw [List.find?_cons_of_pos (by simpa using heq), List.find?_cons_of_pos (by simpa using heq)]
        . rw [List.find?_cons_of_neg (by simpa using heq), List.find?_cons_of_neg (by simpa using heq), ih]

omit [DecidableLT κ] in
theorem find_eq_none (hirrefl : ∀ k : κ, ¬k < k) (h : ∀ e ∈ m, e.1 < key) : find key m = none := by
  unfold find
  rw [Option.map_eq_none_iff, List.find?_eq_none]
  intro e he
  have hlt := h e he
  simp only [decide_eq_true_eq]
  intro heq
  rw [heq] at hlt
  exact hirrefl key hlt

theorem length_set_le (key : κ) (v : ν) (m : List (κ × ν)) : (set key v m).length ≤ m.length + 1 := by
  induction m with
  | nil => exact Nat.le_refl _
  | cons e m ih =>
    unfold set
    split
    . exact Nat.le_refl _
    . split
      . exact Nat.le_succ _
      . exact Nat.succ_le_succ ih

omit [LT κ] [DecidableLT κ] in
theorem mem_of_find (h : find key m = some v) : (key, v) ∈ m := by
  obtain ⟨e, he, rfl⟩ := Option.map_eq_some_iff.mp h
  have heq : e.1 = key := by simpa using List.find?_some he
  rw [← heq]
  exact List.mem_of_find?_eq_some he

omit [LT κ] [DecidableLT κ] in
theorem erase_of_find (h : find key m = none) : erase key m = m := by
  unfold find at h
  rw [Option.map_eq_none_iff, List.find?_eq_none] at h
  unfold erase
  rw [List.filter_eq_self]
  intro e he
  have hne := h e he
  simpa using hne

section Order

variable (hirrefl : ∀ k : κ, ¬k < k) (htrans : ∀ k l n : κ, k < l → l < n → k < n)
include hirrefl htrans

theorem mem_set (hm : Sorted m) {e : κ × ν} : e ∈ set key v m ↔ e = (key, v) ∨ (e ∈ m ∧ e.1 ≠ key) := by
  have hne {k l : κ} (hlt : k < l) : l ≠ k := by
    rintro rfl
    exact hirrefl _ hlt
  induction m with
  | nil => simp [set]
  | cons f m ih =>
    obtain ⟨hfirst, hrest⟩ := List.pairwise_cons.mp hm
    unfold set
    split
    . next hlt =>
      have hall : ∀ e ∈ f :: m, e.1 ≠ key := by
        rw [List.forall_mem_cons]
        exact ⟨hne hlt, fun e he => hne (htrans _ _ _ hlt (hfirst e he))⟩
      rw [List.mem_cons]
      exact or_congr_right ⟨fun he => ⟨he, hall e he⟩, And.left⟩
    . split
      . next heq =>
        have hall : ∀ e ∈ m, e.1 ≠ key := fun e he => heq ▸ hne (hfirst e he)
        rw [List.mem_cons, List.mem_cons]
        refine or_congr_right ⟨fun he => ⟨Or.inr he, hall e he⟩, ?_⟩
        rintro ⟨rfl | he, hkey⟩
        . exact absurd heq.symm hkey
        . exact he
      . next hkey =>
        rw [List.mem_cons, List.mem_cons]
        refine (or_congr_right (ih hrest)).trans ⟨?_, ?_⟩
        . rintro (rfl | rfl | ⟨he, hne⟩)
          . exact Or.inr ⟨Or.inl rfl, fun heq => hkey heq.symm⟩
          . exact Or.inl rfl
          . exact Or.inr ⟨Or.inr he, hne⟩
        . rintro (rfl | ⟨rfl | he, hne⟩)
          . exact Or.inr (Or.inl rfl)
          . exact Or.inl rfl
          . exact Or.inr (Or.inr ⟨he, hne⟩)

theorem sorted_set (htotal : ∀ k l : κ, ¬k < l → k ≠ l → l < k) (hm : Sorted m) : Sorted (set key v m) := by
  induction m with
  | nil => exact List.pairwise_singleton _ _
  | cons f m ih =>
    obtain ⟨hfirst, hrest⟩ := List.pairwise_cons.mp hm
    unfold set
    split
    . next hlt =>
      refine List.pairwise_cons.mpr ⟨?_, hm⟩
      rw [List.forall_mem_cons]
      exact ⟨hlt, fun e he => htrans _ _ _ hlt (hfirst e he)⟩
    . next hle =>
      split
      . next heq => exact List.pairwise_cons.mpr ⟨fun e he => heq ▸ hfirst e he, hrest⟩
      . next hkey =>
        refine List.pairwise_cons.mpr ⟨?_, ih hrest⟩
        intro e he
        rcases (mem_set hirrefl htrans hrest).mp he with rfl | ⟨he, -⟩
        . exact htotal _ _ hle hkey
        . exact hfirst e he

omit htrans [DecidableLT κ] in
theorem find_of_mem (hm : Sorted m) (h : (key, v) ∈ m) : find key m = some v := by
  induction m with
  | nil => cases h
  | cons f m ih =>
    obtain ⟨hfirst, hrest⟩ := List.pairwise_cons.mp hm
    unfold find at ih ⊢
    rcases List.mem_cons.mp h with rfl | h
    . rw [List.find?_cons_of_pos (by simp), Option.map_some]
    . have hne : f.1 ≠ key := by
        intro heq
        have hlt := hfirst _ h
        rw [heq] at hlt
        exact hirrefl key hlt
      rw [List.find?_cons_of_neg (by simpa using hne)]
      exact ih hrest h

omit htrans [DecidableLT κ] in
/--
A key is there once.
-/
theorem length_erase (hm : Sorted m) {e : κ × ν} (h : e ∈ m) : (erase e.1 m).length + 1 = m.length := by
  induction m with
  | nil => cases h
  | cons f m ih =>
    obtain ⟨hfirst, hrest⟩ := List.pairwise_cons.mp hm
    unfold erase at ih ⊢
    rcases List.mem_cons.mp h with rfl | h
    . have hothers : m.filter (fun f => f.1 ≠ e.1) = m := by
        rw [List.filter_eq_self]
        intro f hf
        apply decide_eq_true
        intro heq
        have hlt := hfirst f hf
        rw [heq] at hlt
        exact hirrefl e.1 hlt
      rw [List.filter_cons_of_neg (by simp), hothers, List.length_cons]
    . have hne : f.1 ≠ e.1 := by
        intro heq
        have hlt := hfirst _ h
        rw [heq] at hlt
        exact hirrefl e.1 hlt
      rw [List.filter_cons_of_pos (by simpa using hne), List.length_cons, List.length_cons, ih hrest h]

/--
To set what a key has already changes nothing.
-/
theorem set_of_find (hm : Sorted m) (h : find key m = some v) : set key v m = m := by
  induction m with
  | nil => cases h
  | cons f m ih =>
    obtain ⟨hfirst, hrest⟩ := List.pairwise_cons.mp hm
    rcases List.mem_cons.mp (mem_of_find h) with rfl | hmem
    . unfold set
      rw [if_neg (hirrefl key), if_pos rfl]
    . have hlt := hfirst _ hmem
      unfold set
      rw [if_neg fun hgt => hirrefl key (htrans _ _ _ hgt hlt), if_neg, ih hrest]
      . exact find_of_mem hirrefl hrest hmem
      . intro heq
        rw [← heq] at hlt
        exact hirrefl key hlt

theorem length_set_of_find (hm : Sorted m) {w : ν} (h : find key m = some w) : (set key v m).length = m.length := by
  induction m with
  | nil => cases h
  | cons f m ih =>
    obtain ⟨hfirst, hrest⟩ := List.pairwise_cons.mp hm
    unfold set
    rcases List.mem_cons.mp (mem_of_find h) with rfl | hmem
    . rw [if_neg (hirrefl key), if_pos rfl, List.length_cons, List.length_cons]
    . have hlt := hfirst _ hmem
      rw [if_neg fun hgt => hirrefl key (htrans _ _ _ hgt hlt), if_neg, List.length_cons, List.length_cons,
        ih hrest (find_of_mem hirrefl hrest hmem)]
      intro heq
      rw [← heq] at hlt
      exact hirrefl key hlt

end Order

end SortedMap

namespace Scopes

variable {α κ ν : Type} [LT κ] [DecidableLT κ] [DecidableEq κ]
variable (key : α → Option κ) (v : α → ν)

-- The map with some declarations, of which the last one of a key counts
def declare (m : List (κ × ν)) (decls : List α) : List (κ × ν) :=
  decls.foldl (fun m decl =>
    match key decl with
    | some k => SortedMap.set k (v decl) m
    | none => m) m

-- The maps of nested scopes, the innermost one first
def maps : List (List α) → List (List (κ × ν))
  | [] => []
  | decls :: scopes => declare key v ((maps scopes).headD []) decls :: maps scopes

omit [LT κ] [DecidableLT κ] in
def declared (k : κ) (decls : List α) : Option ν := (decls.reverse.find? fun decl => key decl = some k).map v

omit [LT κ] [DecidableLT κ] in
-- What a key is bound to by the innermost declaration of it
def binding (k : κ) (scopes : List (List α)) : Option ν := scopes.findSome? (declared key v k)

variable {key v} {k : κ} {m : List (κ × ν)} {decls : List α} {scopes : List (List α)}

omit [LT κ] [DecidableLT κ] in
theorem declared_concat (decl : α)
    : declared key v k (decls ++ [decl]) = if key decl = some k then some (v decl) else declared key v k decls := by
  unfold declared
  rw [List.reverse_append, List.reverse_singleton, List.singleton_append]
  split
  . next heq => rw [List.find?_cons_of_pos (by simpa using heq), Option.map_some]
  . next hne => rw [List.find?_cons_of_neg (by simpa using hne)]

theorem find_declare : SortedMap.find k (declare key v m decls) = (declared key v k decls).or (SortedMap.find k m) := by
  induction decls using List.reverseRecOn with
  | nil => rfl
  | append_singleton decls decl ih =>
    rw [declared_concat]
    unfold declare at ih ⊢
    rw [List.foldl_append, List.foldl_cons, List.foldl_nil]
    cases hkey : key decl with
    | none =>
      rw [if_neg (by simp)]
      exact ih
    | some l =>
      dsimp only
      split
      . next heq =>
        cases heq
        exact SortedMap.find_set_self k (v decl) _
      . next hne =>
        rw [SortedMap.find_set_of_ne (by simpa using Ne.symm hne)]
        exact ih

/--
A key is looked up in the innermost map only.
-/
theorem find_maps : SortedMap.find k ((maps key v scopes).headD []) = binding key v k scopes := by
  induction scopes with
  | nil => rfl
  | cons decls scopes ih =>
    unfold binding
    rw [maps, List.headD_cons, find_declare, ih, List.findSome?_cons]
    cases declared key v k decls <;> rfl

theorem maps_length : (maps key v scopes).length = scopes.length := by
  induction scopes with
  | nil => rfl
  | cons decls scopes ih => rw [maps, List.length_cons, List.length_cons, ih]

end Scopes
