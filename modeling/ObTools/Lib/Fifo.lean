import Mathlib.Data.List.Basic

/-!
This module contains what is needed to talk about queues in a circular buffer: what becomes of the
elements of a queue in the order in which they leave it, and counters that are only known modulo the
size of the buffer.

It also contains how messages are found in a stream again that they were put in one after another, if
none of them is written as the beginning of another one.
-/

namespace Fifo

variable {α : Type} {as bs : List α} {fs : List Bool}

/-
The elements that are delivered, given for each one that has left the queue whether it is.
-/
def select : List α → List Bool → List α
  | a :: as, f :: fs => if f then a :: select as fs else select as fs
  | _, _ => []

theorem select_cons (a : α) (as : List α) (f : Bool) (fs : List Bool)
    : select (a :: as) (f :: fs) = if f then a :: select as fs else select as fs := rfl

theorem select_nil_right (as : List α) : select as [] = [] := by
  cases as <;> rfl

theorem select_append_left (h : fs.length ≤ as.length) : select (as ++ bs) fs = select as fs := by
  induction as generalizing fs with
  | nil =>
    have : fs = [] := by simpa using h
    rw [this, select_nil_right, select_nil_right]
  | cons a as ih =>
    cases fs with
    | nil => rfl
    | cons f fs =>
      rw [List.cons_append, select_cons, select_cons, ih]
      simpa using h

theorem select_snoc_true {a : α} (h : as[fs.length]? = some a)
    : select as (fs ++ [true]) = select as fs ++ [a] := by
  induction as generalizing fs with
  | nil => simp at h
  | cons b as ih =>
    cases fs with
    | nil =>
      have hba : b = a := by simpa using h
      simp [select_cons, select_nil_right, hba]
    | cons f fs =>
      have ih := @ih fs (by simpa using h)
      cases f with
      | false => simpa [select_cons] using ih
      | true => simpa [select_cons] using ih

theorem select_append_false (k : Nat)
    : select as (fs ++ List.replicate k false) = select as fs := by
  induction as generalizing fs k with
  | nil => cases fs <;> cases k <;> rfl
  | cons a as ih =>
    cases fs with
    | nil =>
      cases k with
      | zero => rfl
      | succ k =>
        have ih := @ih [] k
        rw [select_nil_right] at ih
        simpa [select_nil_right, select_cons, List.replicate_succ] using ih
    | cons f fs => rw [List.cons_append, select_cons, select_cons, ih]

theorem select_sublist : (select as fs).Sublist as := by
  induction as generalizing fs with
  | nil => cases fs <;> exact List.Sublist.refl _
  | cons a as ih =>
    cases fs with
    | nil => exact List.nil_sublist _
    | cons f fs =>
      rw [select_cons]
      split
      . exact ih.cons_cons a
      . exact ih.cons a

theorem mod_eq_iff {a b m : Nat} (hle : a ≤ b) (hlt : b < a + m) : a % m = b % m ↔ a = b := by
  constructor
  . intro h
    have hzero := Nat.sub_mod_eq_zero_of_mod_eq h.symm
    rw [Nat.mod_eq_of_lt (by omega)] at hzero
    omega
  . intro h
    rw [h]

theorem mod_distance {a b m : Nat} (hle : a ≤ b) (hlt : b < a + m)
    : (b % m + m - a % m) % m = b - a := by
  obtain ⟨d, rfl⟩ := Nat.exists_eq_add_of_le hle
  have ha := Nat.mod_lt a (show 0 < m by omega)
  have hd : d < m := by omega
  rw [Nat.add_mod, Nat.mod_eq_of_lt hd]
  by_cases h : a % m + d < m
  . rw [Nat.mod_eq_of_lt h]
    have : a % m + d + m - a % m = d + m := by omega
    rw [this, Nat.add_mod_right, Nat.mod_eq_of_lt hd]
    omega
  . have hwrap : (a % m + d) % m = a % m + d - m := by
      rw [Nat.mod_eq_sub_mod (by omega), Nat.mod_eq_of_lt (by omega)]
    have : a % m + d - m + m - a % m = d := by omega
    rw [hwrap, this, Nat.mod_eq_of_lt hd]
    omega

theorem succ_mod (a m : Nat) (hm : 0 < m)
    : (if m ≤ a % m + 1 then 0 else a % m + 1) = (a + 1) % m := by
  have ha := Nat.mod_lt a hm
  have hmod : (a % m + 1) % m = (a + 1) % m := Nat.mod_add_mod a m 1
  rw [← hmod]
  split
  . next h =>
    have : a % m + 1 = m := by omega
    rw [this, Nat.mod_self]
  . next h => rw [Nat.mod_eq_of_lt (show a % m + 1 < m by omega)]

end Fifo

namespace Frames

variable {α β : Type} {P : α → Prop} {code : α → List β}

/-
Of the messages of one kind, none is empty in the stream, and none is the beginning of another.
-/
structure PrefixFree (P : α → Prop) (code : α → List β) : Prop where
  ne_nil : ∀ a, P a → code a ≠ []
  eq_of_prefix : ∀ a b, P a → P b → code a <+: code b → a = b

-- No whole message has arrived yet
def Incomplete (P : α → Prop) (code : α → List β) (q : List β) : Prop := ∀ a, P a → ¬code a <+: q

theorem PrefixFree.incomplete_nil (h : PrefixFree P code) : Incomplete P code [] := by
  intro a ha hbegins
  exact h.ne_nil a ha (List.prefix_nil.mp hbegins)

theorem PrefixFree.incomplete_of_part (h : PrefixFree P code) {a : α} {q : List β} (ha : P a)
    (hbegins : q <+: code a) (hne : q ≠ code a)
    : Incomplete P code q := by
  intro b hb hcode
  have hba : b = a := h.eq_of_prefix b a hb ha (hcode.trans hbegins)
  rw [hba] at hcode
  exact hne (hbegins.eq_of_length_le hcode.length_le)

/--
What has been taken from the stream is the beginning of what was put in.
-/
theorem PrefixFree.prefix_of_append (h : PrefixFree P code) {xs ys : List α} {t q : List β}
    (hxs : ∀ a ∈ xs, P a) (hys : ∀ a ∈ ys, P a) (hq : Incomplete P code q)
    (heq : xs.flatMap code ++ t = ys.flatMap code ++ q)
    : xs <+: ys := by
  induction xs generalizing ys with
  | nil => exact List.nil_prefix
  | cons x xs ih =>
    have hx := hxs x List.mem_cons_self
    rw [List.flatMap_cons, List.append_assoc] at heq
    cases ys with
    | nil =>
      rw [List.flatMap_nil, List.nil_append] at heq
      exact absurd (heq ▸ List.prefix_append _ _) (hq x hx)
    | cons y ys =>
      have hy := hys y List.mem_cons_self
      rw [List.flatMap_cons, List.append_assoc] at heq
      have hxy : x = y := by
        have hpx := List.prefix_append (code x) (xs.flatMap code ++ t)
        have hpy := List.prefix_append (code y) (ys.flatMap code ++ q)
        rw [heq] at hpx
        rcases List.prefix_or_prefix_of_prefix hpx hpy with hp | hp
        . exact h.eq_of_prefix x y hx hy hp
        . exact (h.eq_of_prefix y x hy hx hp).symm
      rw [hxy] at heq ⊢
      rw [List.append_cancel_left_eq] at heq
      have ih := ih (fun a ha => hxs a (List.mem_cons_of_mem x ha)) (fun a ha => hys a (List.mem_cons_of_mem y ha)) heq
      exact List.cons_prefix_cons.mpr ⟨rfl, ih⟩

/--
If nothing is on the way, all that was put in whole has been taken.
-/
theorem PrefixFree.eq_of_append (h : PrefixFree P code) {xs ys : List α} {p q : List β}
    (hxs : ∀ a ∈ xs, P a) (hys : ∀ a ∈ ys, P a) (hp : Incomplete P code p) (hq : Incomplete P code q)
    (heq : xs.flatMap code ++ p = ys.flatMap code ++ q)
    : xs = ys :=
  let hxy := h.prefix_of_append hxs hys hq heq
  let hyx := h.prefix_of_append hys hxs hp heq.symm
  hxy.eq_of_length_le hyx.length_le

end Frames
