import Mathlib.Data.List.TakeWhile
import ObTools.Lib.Intervals
import ObTools.Misc.RangeSet

/-!
This module contains what the operations on a single `Range` do, in terms of the natural numbers
`lo` and `hi` it extends over. The unsigned arithmetic of the source agrees with them as long as a
range ends below `2 ^ 64`.
-/

namespace ObTools
namespace Misc
namespace Range

def lo (a : Range) : Nat := a.start.toNat

def hi (a : Range) : Nat := a.start.toNat + a.length.toNat

def Bounded (a : Range) : Prop := a.hi < 2 ^ 64

variable {a b : Range}

theorem toNat_start (a : Range) : a.start.toNat = a.lo := rfl

theorem lo_mk (start length : UInt64) : lo { start, length } = start.toNat := rfl

theorem hi_mk (start length : UInt64) : hi { start, length } = start.toNat + length.toNat := rfl

theorem lo_le_hi (a : Range) : a.lo ≤ a.hi := Nat.le_add_right ..

theorem end_toNat (h : a.Bounded) : a.end.toNat = a.hi := by
  unfold «end»
  rw [UInt64.toNat_add]
  exact Nat.mod_eq_of_lt h

theorem overlapsWith_iff (ha : a.Bounded) (hb : b.Bounded)
    : a.overlapsWith b = true ↔ a.lo ≤ b.hi ∧ b.lo ≤ a.hi := by
  have h1 := a.lo_le_hi
  have h2 := b.lo_le_hi
  unfold overlapsWith
  simp only [ge_iff_le, Bool.or_eq_true, Bool.and_eq_true, decide_eq_true_eq,
    UInt64.le_iff_toNat_le, end_toNat ha, end_toNat hb, toNat_start]
  omega

theorem containedBy_iff (ha : a.Bounded) (hb : b.Bounded)
    : a.containedBy b = true ↔ b.lo ≤ a.lo ∧ a.hi ≤ b.hi := by
  unfold containedBy
  simp only [ge_iff_le, Bool.and_eq_true, decide_eq_true_eq, UInt64.le_iff_toNat_le, end_toNat ha,
    end_toNat hb]
  rfl

theorem startOverlappedBy_iff (hb : b.Bounded)
    : a.startOverlappedBy b = true ↔ b.lo ≤ a.lo ∧ a.lo < b.hi := by
  unfold startOverlappedBy
  simp only [ge_iff_le, Bool.and_eq_true, decide_eq_true_eq, UInt64.le_iff_toNat_le,
    UInt64.lt_iff_toNat_lt, end_toNat hb]
  rfl

theorem endOverlappedBy_iff (ha : a.Bounded) (hb : b.Bounded)
    : a.endOverlappedBy b = true ↔ b.lo < a.hi ∧ a.hi ≤ b.hi := by
  unfold endOverlappedBy
  simp only [gt_iff_lt, Bool.and_eq_true, decide_eq_true_eq, UInt64.le_iff_toNat_le,
    UInt64.lt_iff_toNat_lt, end_toNat ha, end_toNat hb]
  rfl

theorem min_toNat (x y : UInt64) : (min x y).toNat = min x.toNat y.toNat := by
  change (if x ≤ y then x else y).toNat = _
  split
  . next h =>
    rw [UInt64.le_iff_toNat_le] at h
    omega
  . next h =>
    rw [UInt64.le_iff_toNat_le] at h
    omega

theorem max_toNat (x y : UInt64) : (max x y).toNat = max x.toNat y.toNat := by
  change (if x ≤ y then y else x).toNat = _
  split
  . next h =>
    rw [UInt64.le_iff_toNat_le] at h
    omega
  . next h =>
    rw [UInt64.le_iff_toNat_le] at h
    omega

theorem sub_toNat {x y : UInt64} (h : y.toNat ≤ x.toNat) : (x - y).toNat = x.toNat - y.toNat := by
  have := x.toNat_lt
  rw [UInt64.toNat_sub]
  omega

theorem merge_lo : (a.merge b).lo = min a.lo b.lo := by
  unfold merge
  rw [lo_mk, min_toNat, toNat_start, toNat_start]

theorem merge_hi (ha : a.Bounded) (hb : b.Bounded) : (a.merge b).hi = max a.hi b.hi := by
  have h1 := a.lo_le_hi
  have hsub : (max a.end b.end - min a.start b.start).toNat = max a.hi b.hi - min a.lo b.lo := by
    rw [sub_toNat]
    . rw [max_toNat, min_toNat, end_toNat ha, end_toNat hb]
      rfl
    . rw [max_toNat, min_toNat, end_toNat ha, end_toNat hb, toNat_start, toNat_start]
      omega
  unfold merge
  rw [hi_mk, hsub, min_toNat, toNat_start, toNat_start]
  omega

theorem removeFromStart_lo (hb : b.Bounded) : (a.removeFromStart b).lo = max a.lo b.hi := by
  unfold removeFromStart
  rw [lo_mk, max_toNat, end_toNat hb, toNat_start]

theorem removeFromStart_hi (ha : a.Bounded) (hb : b.Bounded) (h : b.hi ≤ a.hi)
    : (a.removeFromStart b).hi = a.hi := by
  have h1 := a.lo_le_hi
  have hmax : (max a.start b.end).toNat = max a.lo b.hi := by
    rw [max_toNat, end_toNat hb]
    rfl
  have hsub : (a.end - max a.start b.end).toNat = a.hi - max a.lo b.hi := by
    rw [sub_toNat, end_toNat ha, hmax]
    rw [hmax, end_toNat ha]
    omega
  unfold removeFromStart
  rw [hi_mk, hsub, hmax]
  omega

theorem removeFromEnd_lo : (a.removeFromEnd b).lo = a.lo := rfl

theorem removeFromEnd_hi (ha : a.Bounded) (h : a.lo ≤ b.lo)
    : (a.removeFromEnd b).hi = min a.hi b.lo := by
  have h1 := a.lo_le_hi
  have hsub : (min a.end b.start - a.start).toNat = min a.hi b.lo - a.lo := by
    rw [sub_toNat]
    . rw [min_toNat, end_toNat ha]
      rfl
    . rw [min_toNat, end_toNat ha, toNat_start, toNat_start]
      omega
  unfold removeFromEnd
  rw [hi_mk, hsub, toNat_start]
  omega

theorem removeFromMiddle_fst_lo : (a.removeFromMiddle b).1.lo = a.lo := rfl

theorem removeFromMiddle_fst_hi (h : a.lo ≤ b.lo) : (a.removeFromMiddle b).1.hi = b.lo := by
  unfold removeFromMiddle
  rw [hi_mk, sub_toNat h, toNat_start, toNat_start]
  omega

theorem removeFromMiddle_snd_lo (hb : b.Bounded) : (a.removeFromMiddle b).2.lo = b.hi := by
  unfold removeFromMiddle
  rw [lo_mk, end_toNat hb]

theorem removeFromMiddle_snd_hi (ha : a.Bounded) (hb : b.Bounded) (h : b.hi ≤ a.hi)
    : (a.removeFromMiddle b).2.hi = a.hi := by
  have hsub : (a.end - b.end).toNat = a.hi - b.hi := by
    rw [sub_toNat]
    . rw [end_toNat ha, end_toNat hb]
    . rw [end_toNat ha, end_toNat hb]
      exact h
  unfold removeFromMiddle
  rw [hi_mk, hsub, end_toNat hb]
  omega

end Range

section SetInsert

variable {r x : Range} {l l1 l2 : List Range}

theorem setInsert_cons (r a : Range) (l : List Range)
    : setInsert r (a :: l)
        = if r.start < a.start then r :: a :: l
          else if r.start = a.start then a :: l
          else a :: setInsert r l :=
  rfl

theorem setInsert_cons_of_lt (h : x.lo < r.lo) : setInsert r (x :: l) = x :: setInsert r l := by
  have hlt : ¬(r.start < x.start) := by
    rw [UInt64.lt_iff_toNat_lt, Range.toNat_start, Range.toNat_start]
    omega
  have hne : ¬(r.start = x.start) := by
    rw [← UInt64.toNat_inj, Range.toNat_start, Range.toNat_start]
    omega
  rw [setInsert_cons, if_neg hlt, if_neg hne]

theorem setInsert_append (h1 : ∀ a ∈ l1, a.lo < r.lo) (h2 : ∀ a ∈ l2, r.lo < a.lo)
    : setInsert r (l1 ++ l2) = l1 ++ r :: l2 := by
  induction l1 with
  | nil =>
    cases l2 with
    | nil => rfl
    | cons a l2 =>
      have : r.start < a.start := by
        rw [UInt64.lt_iff_toNat_lt]
        exact h2 a (by simp)
      exact if_pos this
  | cons a l1 ih =>
    rw [List.cons_append, setInsert_cons_of_lt (h1 a (by simp)), ih]
    . rfl
    . intro b hb
      exact h1 b (by simp [hb])

theorem setInsert_present (h1 : ∀ a ∈ l1, a.lo < r.lo) (hx : x.lo = r.lo)
    : setInsert r (l1 ++ x :: l2) = l1 ++ x :: l2 := by
  induction l1 with
  | nil =>
    have heq : r.start = x.start := by
      rw [← UInt64.toNat_inj]
      exact hx.symm
    rw [List.nil_append, setInsert_cons, if_neg (by simp [heq]), if_pos heq]
  | cons a l1 ih =>
    rw [List.cons_append, setInsert_cons_of_lt (h1 a (by simp)), ih]
    intro b hb
    exact h1 b (by simp [hb])

theorem setInsert_of_mem (hs : Intervals.Separated Range.lo Range.hi l) (hx : x ∈ l)
    (h : x.lo = r.lo)
    : setInsert r l = l := by
  obtain ⟨l1, l2, rfl⟩ := List.append_of_mem hx
  apply setInsert_present _ h
  intro a ha
  have := (Intervals.separated_append.mp hs).2.2 a ha x (by simp)
  have := a.lo_le_hi
  omega

theorem mem_setInsert {a : Range} (ha : a ∈ setInsert r l) : a = r ∨ a ∈ l := by
  induction l with
  | nil => exact .inl (List.mem_singleton.mp ha)
  | cons b l ih =>
    rw [setInsert_cons] at ha
    split at ha
    . exact List.mem_cons.mp ha
    . split at ha
      . exact .inr ha
      . rw [List.mem_cons] at ha
        cases ha with
        | inl heq => exact .inr (List.mem_cons.mpr (.inl heq))
        | inr ha => exact (ih ha).imp_right (List.mem_cons_of_mem b)

theorem mem_setInsert_of_mem {a : Range} (ha : a ∈ l) : a ∈ setInsert r l := by
  induction l with
  | nil => cases ha
  | cons b l ih =>
    rw [setInsert_cons]
    split
    . exact List.mem_cons_of_mem r ha
    . split
      . exact ha
      . rw [List.mem_cons] at ha ⊢
        exact ha.imp_right ih

end SetInsert

namespace Cursor

open Intervals

variable {ranges : List Range} {r : Range}

theorem lowerBound_ranges : (lowerBound ranges r).before ++ (lowerBound ranges r).rest = ranges :=
  List.takeWhile_append_dropWhile

theorem lo_lt_of_mem_before {a : Range} (ha : a ∈ (lowerBound ranges r).before)
    : a.lo < r.lo := by
  have := List.mem_takeWhile_imp ha
  rw [decide_eq_true_eq, UInt64.lt_iff_toNat_lt] at this
  exact this

theorem le_lo_of_mem_rest (hs : Separated Range.lo Range.hi ranges) {a : Range}
    (ha : a ∈ (lowerBound ranges r).rest)
    : r.lo ≤ a.lo := by
  unfold lowerBound at ha
  dsimp only at ha
  induction ranges with
  | nil => simp at ha
  | cons b l ih =>
    rw [List.dropWhile_cons] at ha
    split at ha
    . exact ih (separated_cons.mp hs).2.2 ha
    . next hb =>
      rw [decide_eq_true_eq, UInt64.lt_iff_toNat_lt] at hb
      have hb : r.lo ≤ b.lo := Nat.le_of_not_lt hb
      cases List.mem_cons.mp ha with
      | inl heq => rw [heq]; exact hb
      | inr ha =>
        have := hs.lo_lt ha
        omega

variable {it : Cursor} {start : UInt64}

theorem stepBack_of_pastStart (h : it.pastStart start = true)
    : ∃ before p,
        it.before = before ++ [p] ∧ it.stepBack = { before := before, rest := p :: it.rest } := by
  have hne : it.before ≠ [] := by
    intro hnil
    simp [pastStart, hnil] at h
  refine ⟨it.before.dropLast, it.before.getLast hne, ?_, ?_⟩
  . rw [List.dropLast_concat_getLast]
  . unfold stepBack
    rw [List.getLast?_eq_some_getLast hne]
    rfl

theorem lt_lo_of_pastStart (h : it.pastStart start = true)
    (hs : Separated Range.lo Range.hi it.rest)
    : ∀ a ∈ it.rest, start.toNat < a.lo := by
  intro a ha
  cases hrest : it.rest with
  | nil => simp [hrest] at ha
  | cons b rest =>
    rw [hrest] at ha hs
    have hb : start < b.start := by
      simp only [pastStart, hrest, List.head?_cons, Option.all_some, gt_iff_lt, Bool.and_eq_true,
        decide_eq_true_eq] at h
      exact h.2
    rw [UInt64.lt_iff_toNat_lt] at hb
    cases List.mem_cons.mp ha with
    | inl heq =>
      rw [heq]
      exact hb
    | inr ha =>
      have := hs.lo_lt ha
      exact Nat.lt_trans hb this

theorem of_not_pastStart (h : ¬it.pastStart start = true)
    : it.before = [] ∨ ∃ b rest, it.rest = b :: rest ∧ b.start ≤ start := by
  unfold pastStart at h
  cases hrest : it.rest with
  | nil => simpa [hrest] using h
  | cons b rest =>
    by_cases hbefore : it.before = []
    . exact Or.inl hbefore
    . have : b.start ≤ start := by simpa [hrest, hbefore] using h
      exact Or.inr ⟨b, rest, rfl, this⟩

end Cursor

namespace RangeSet

open Intervals

/-
Every range ends where an offset can still say so, none is empty, and no two overlap or touch.
-/
structure WellFormed (rs : RangeSet) : Prop where
  bounded : ∀ r ∈ rs.ranges, r.Bounded
  separated : Separated Range.lo Range.hi rs.ranges

def points (rs : RangeSet) : Set Nat := Intervals.points Range.lo Range.hi rs.ranges

theorem WellFormed.sorted {rs : RangeSet} (h : rs.WellFormed)
    : rs.ranges.Pairwise fun a b => a.start < b.start := by
  apply h.separated.apart.imp_of_mem
  intro a b ha hb hab
  have := h.separated.lt a ha
  rw [UInt64.lt_iff_toNat_lt, Range.toNat_start, Range.toNat_start]
  omega

theorem contains_iff {rs : RangeSet} (h : rs.WellFormed) {start length : UInt64}
    (hlen : 1 ≤ length.toNat) (hb : start.toNat + length.toNat < 2 ^ 64)
    : rs.contains start length = true
        ↔
      ∀ x, start.toNat ≤ x → x < start.toNat + length.toNat → x ∈ rs.points := by
  have hb : Range.Bounded { start, length } := hb
  unfold points
  rw [h.separated.covers_iff (by omega)]
  unfold contains
  rw [List.any_eq_true]
  constructor
  . intro hany
    obtain ⟨r, hr, hc⟩ := hany
    rw [Range.containedBy_iff hb (h.bounded r hr)] at hc
    exact ⟨r, hr, hc.1, hc.2⟩
  . intro hex
    obtain ⟨r, hr, h1, h2⟩ := hex
    refine ⟨r, hr, ?_⟩
    rw [Range.containedBy_iff hb (h.bounded r hr)]
    exact ⟨h1, h2⟩

end RangeSet

end Misc
end ObTools
