import Mathlib.Data.List.Basic

/-!
This module contains lists whose entries are known by keys, and what a list becomes if the entries of
another list are laid over the first ones with their keys, and put behind all if there are none.
-/

namespace Overlay

variable {α σ κ : Type} [DecidableEq κ]

-- The first entry with a key
def first (key : α → κ) (k : κ) (entries : List α) : Option α := entries.find? fun x => key x = k

-- The place of that entry
def place (key : α → κ) (k : κ) (entries : List α) : Option Nat := entries.findIdx? fun x => key x = k

section First

variable {key : α → κ} {k l : κ} {x y : α} {i j : Nat} {before after entries : List α}

theorem first_eq_some (h : first key k entries = some x) : key x = k ∧ x ∈ entries :=
  ⟨by simpa using List.find?_some h, List.mem_of_find?_eq_some h⟩

theorem first_eq_none : first key k entries = none ↔ ∀ x ∈ entries, key x ≠ k := by
  unfold first
  simp

theorem first_split (h : first key k entries = some x)
    : ∃ before after, entries = before ++ x :: after ∧ ∀ y ∈ before, key y ≠ k := by
  unfold first at h
  rw [List.find?_eq_some_iff_append] at h
  obtain ⟨-, before, after, heq, hbefore⟩ := h
  exact ⟨before, after, heq, by simpa using hbefore⟩

theorem first_of_before (hx : key x = k) (hbefore : ∀ y ∈ before, key y ≠ k)
    : first key k (before ++ x :: after) = some x := by
  unfold first
  rw [List.find?_append, List.find?_eq_none.mpr (by simpa using hbefore),
    List.find?_cons_of_pos (by simpa using hx)]
  rfl

theorem first_of_ne (hx : key x ≠ k)
    : first key k (before ++ x :: after) = first key k (before ++ after) := by
  unfold first
  rw [List.find?_append, List.find?_append, List.find?_cons_of_neg (by simpa using hx)]

theorem place_eq (key : α → κ) (k : κ) (entries : List α)
    : place key k entries = (entries.map key).findIdx? fun l => l = k := by
  unfold place
  rw [List.findIdx?_map]
  rfl

theorem place_of_before (hx : key x = k) (hbefore : ∀ y ∈ before, key y ≠ k)
    : place key k (before ++ x :: after) = some before.length := by
  unfold place
  rw [List.findIdx?_append, List.findIdx?_eq_none_iff.mpr (by simpa using hbefore), List.findIdx?_cons]
  simp [hx]

theorem place_concat (hx : key x ≠ k) : place key k (entries ++ [x]) = place key k entries := by
  unfold place
  rw [List.findIdx?_append, List.findIdx?_cons, List.findIdx?_nil]
  simp [hx]

theorem place_eq_none (h : ∀ y ∈ entries, key y ≠ k) : place key k entries = none := by
  unfold place
  rw [List.findIdx?_eq_none_iff]
  simpa using h

-- What is at a place has the key
theorem place_key (h : place key k entries = some i) (hx : entries[i]? = some x) : key x = k := by
  unfold place at h
  rw [List.findIdx?_eq_some_iff_getElem] at h
  obtain ⟨hi, hkey, -⟩ := h
  rw [List.getElem?_eq_getElem hi] at hx
  rw [← Option.some.inj hx]
  simpa using hkey

/--
Each entry is the first one with its key if all keys are different.
-/
theorem first_of_nodup (hnodup : (entries.map key).Nodup) (hx : x ∈ entries)
    : first key (key x) entries = some x := by
  obtain ⟨before, after, rfl⟩ := List.append_of_mem hx
  refine first_of_before rfl ?_
  intro y hy
  rw [List.map_append, List.map_cons, List.nodup_append] at hnodup
  exact hnodup.2.2 (key y) (List.mem_map_of_mem hy) (key x) List.mem_cons_self

end First

variable (key : α → κ) (want : σ → κ) (Over : σ → α → Prop) (Kept : α → σ → α → Prop)

/-
One entry is laid over the first one with its key, or put behind all.
-/
inductive Laid (s : σ) : List α → List α → Prop
  | onto {before after : List α} {x y : α} (before_ne : ∀ z ∈ before, key z ≠ want s) (same : key x = want s)
      (key_eq : key y = want s) (covers : Over s y) (kept : Kept x s y)
    : Laid s (before ++ x :: after) (before ++ y :: after)
  | behind {entries : List α} {y : α} (ne : ∀ z ∈ entries, key z ≠ want s) (key_eq : key y = want s)
      (covers : Over s y)
    : Laid s entries (entries ++ [y])

/-
What becomes of a list under all entries of another one: each of these is found by its key, and the
entries that are not the first ones with such keys have stayed at their places.
-/
structure Overlaid (sources : List σ) (base result : List α) : Prop where
  covers : ∀ s ∈ sources, ∃ y, first key (want s) result = some y ∧ Over s y
  others : ∀ k, (∀ s ∈ sources, want s ≠ k) → first key k result = first key k base
  unchanged : ∀ (i : Nat) x, base[i]? = some x → (∀ s ∈ sources, place key (want s) base ≠ some i)
    → result[i]? = some x
  kept : ∀ s ∈ sources, ∀ (i : Nat) x, place key (want s) base = some i → base[i]? = some x
    → ∃ y, result[i]? = some y ∧ Kept x s y
  length : base.length ≤ result.length

variable {key want Over Kept} {s : σ} {sources : List σ} {base mid result : List α} {k : κ} {i : Nat}
  {x : α}

namespace Laid

theorem first_self (h : Laid key want Over Kept s base mid)
    : ∃ y, first key (want s) mid = some y ∧ Over s y := by
  cases h with
  | onto before_ne same key_eq covers kept => exact ⟨_, first_of_before key_eq before_ne, covers⟩
  | behind ne key_eq covers => exact ⟨_, first_of_before key_eq ne, covers⟩

theorem first_of_ne (h : Laid key want Over Kept s base mid) (hk : want s ≠ k)
    : first key k mid = first key k base := by
  cases h with
  | onto before_ne same key_eq covers kept =>
    rw [Overlay.first_of_ne (by rw [key_eq]; exact hk), Overlay.first_of_ne (by rw [same]; exact hk)]
  | behind ne key_eq covers => rw [Overlay.first_of_ne (by rw [key_eq]; exact hk), List.append_nil]

theorem place_of_ne (h : Laid key want Over Kept s base mid) (hk : want s ≠ k)
    : place key k mid = place key k base := by
  cases h with
  | onto before_ne same key_eq covers kept =>
    rw [place_eq, place_eq, List.map_append, List.map_append, List.map_cons, List.map_cons, key_eq, same]
  | behind ne key_eq covers => exact place_concat (by rw [key_eq]; exact hk)

theorem getElem?_of_ne (h : Laid key want Over Kept s base mid) (hi : place key (want s) base ≠ some i)
    (hx : base[i]? = some x)
    : mid[i]? = some x := by
  cases h with
  | @onto before after x y before_ne same key_eq covers kept =>
    rw [place_of_before same before_ne] at hi
    have hne : before.length ≠ i := fun heq => hi (congrArg some heq)
    rw [← hx, List.getElem?_append, List.getElem?_append]
    split
    . rfl
    . rw [List.getElem?_cons, List.getElem?_cons, if_neg (by omega), if_neg (by omega)]
  | behind ne key_eq covers =>
    obtain ⟨hlt, -⟩ := List.getElem?_eq_some_iff.mp hx
    rw [List.getElem?_append_left hlt]
    exact hx

theorem getElem?_self (h : Laid key want Over Kept s base mid) (hi : place key (want s) base = some i)
    (hx : base[i]? = some x)
    : ∃ y, mid[i]? = some y ∧ Kept x s y ∧ key y = want s := by
  cases h with
  | @onto before after z y before_ne same key_eq covers kept =>
    rw [place_of_before same before_ne] at hi
    cases hi
    rw [List.getElem?_append_right (Nat.le_refl _), Nat.sub_self, List.getElem?_cons_zero] at hx ⊢
    cases hx
    exact ⟨y, rfl, kept, key_eq⟩
  | behind ne key_eq covers =>
    rw [place_eq_none ne] at hi
    cases hi

omit [DecidableEq κ] in
theorem length_le (h : Laid key want Over Kept s base mid) : base.length ≤ mid.length := by
  cases h with
  | onto before_ne same key_eq covers kept => simp
  | behind ne key_eq covers =>
    rw [List.length_append]
    omega

end Laid

theorem Overlaid.nil : Overlaid key want Over Kept [] base base where
  covers := fun _ hs => absurd hs List.not_mem_nil
  others := fun _ _ => rfl
  unchanged := fun _ _ hx _ => hx
  kept := fun _ hs => absurd hs List.not_mem_nil
  length := Nat.le_refl _

/--
An entry stays as it is under later ones with other keys.
-/
theorem Overlaid.cons (hlaid : Laid key want Over Kept s base mid)
    (hrest : Overlaid key want Over Kept sources mid result) (hne : ∀ t ∈ sources, want s ≠ want t)
    : Overlaid key want Over Kept (s :: sources) base result := by
  refine ⟨?_, ?_, ?_, ?_, ?_⟩
  . rw [List.forall_mem_cons]
    refine ⟨?_, hrest.covers⟩
    rw [hrest.others (want s) fun t ht => (hne t ht).symm]
    exact hlaid.first_self
  . intro k hk
    rw [List.forall_mem_cons] at hk
    rw [hrest.others k hk.2, hlaid.first_of_ne hk.1]
  . intro i x hx hi
    rw [List.forall_mem_cons] at hi
    refine hrest.unchanged i x (hlaid.getElem?_of_ne hi.1 hx) ?_
    intro t ht
    rw [hlaid.place_of_ne (hne t ht)]
    exact hi.2 t ht
  . rw [List.forall_mem_cons]
    constructor
    . intro i x hi hx
      obtain ⟨y, hy, hkept, hkey⟩ := hlaid.getElem?_self hi hx
      refine ⟨y, hrest.unchanged i y hy ?_, hkept⟩
      intro t ht hplace
      exact hne t ht (hkey.symm.trans (place_key hplace hy))
    . intro t ht i x hi hx
      have hi' : place key (want s) base ≠ some i := by
        intro hplace
        exact hne t ht ((place_key hplace hx).symm.trans (place_key hi hx))
      refine hrest.kept t ht i x ?_ (hlaid.getElem?_of_ne hi' hx)
      rw [hlaid.place_of_ne (hne t ht)]
      exact hi
  . exact Nat.le_trans hlaid.length_le hrest.length

end Overlay
