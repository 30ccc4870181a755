import ObTools.Misc.RangeLemmas

/-!
This module contains what the loop of `RangeSet.remove` does from an iterator on whose ranges all
start within or behind the removed one.

A range is also taken for an overlapping one when it only touches the removed one at an edge. It then
counts as containing the removed range, and splitting it gives a range that starts at the end of the
removed one and extends over its start modulo `2 ^ 64`: this is called the remainder here.
-/

namespace ObTools
namespace Misc

open Intervals

namespace Range

variable {a range : Range}

def remainder (range : Range) : Range :=
  { start := range.end, length := range.start - range.end }

theorem remainder_lo (hr : range.Bounded) : range.remainder.lo = range.hi := end_toNat hr

theorem remainder_hi (hr : range.Bounded) (hne : range.lo < range.hi)
    : range.remainder.hi = 2 ^ 64 + range.lo := by
  have hlt := range.start.toNat_lt
  have hbound : range.hi < 2 ^ 64 := hr
  unfold remainder
  rw [hi_mk, UInt64.toNat_sub, end_toNat hr, toNat_start]
  rw [toNat_start] at hlt
  omega

theorem not_bounded_remainder (hr : range.Bounded) (hne : range.lo < range.hi)
    : ¬range.remainder.Bounded := by
  unfold Bounded
  rw [remainder_hi hr hne]
  omega

theorem remainder_end : range.remainder.end = range.start := by
  unfold remainder
  rw [«end»]
  dsimp only
  rw [UInt64.add_comm, UInt64.sub_add_cancel]

theorem remainder_containedBy (hr : range.Bounded) : range.remainder.containedBy range = true := by
  have h1 := end_toNat hr
  have h2 := range.lo_le_hi
  unfold containedBy
  rw [remainder_end]
  unfold remainder
  simp only [ge_iff_le, Bool.and_eq_true, decide_eq_true_eq, UInt64.le_iff_toNat_le, h1]
  exact ⟨h2, h2⟩

theorem remainder_overlapsWith (hr : range.Bounded)
    : range.remainder.overlapsWith range = true := by
  have h := remainder_containedBy hr
  unfold containedBy at h
  unfold overlapsWith
  dsimp only
  rw [h, Bool.or_true]

theorem removeFromMiddle_fst_of_touching (h : a.start = range.end)
    : (a.removeFromMiddle range).1 = range.remainder := by
  unfold removeFromMiddle remainder
  rw [h]

theorem removeFromMiddle_snd_of_touching (h : a.end = range.start)
    : (a.removeFromMiddle range).2 = range.remainder := by
  unfold removeFromMiddle remainder
  rw [h]

end Range

namespace Cursor

variable {before rest : List Range} {r x : Range}

theorem insert_before (h : ∀ a ∈ rest, r.lo < a.lo)
    : Cursor.insert { before, rest } r = { before := setInsert r before, rest } := by
  unfold insert
  cases rest with
  | nil => rfl
  | cons it rest =>
    have : r.start < it.start := by
      rw [UInt64.lt_iff_toNat_lt]
      exact h it (by simp)
    simp [this]

theorem insert_between (h1 : ∀ a ∈ before, a.lo < r.lo) (h2 : ∀ a ∈ rest, r.lo < a.lo)
    : Cursor.insert { before, rest } r = { before := before ++ [r], rest } := by
  have hset := @setInsert_append r before [] h1 (by simp)
  rw [List.append_nil] at hset
  rw [insert_before h2, hset]

theorem insert_present (h1 : ∀ a ∈ before, a.lo < r.lo) (hx : x.lo = r.lo)
    (h2 : ∀ a ∈ rest, r.lo < a.lo)
    : Cursor.insert { before := before ++ [x], rest } r = { before := before ++ [x], rest } := by
  rw [insert_before h2, setInsert_present h1 hx]

theorem insert_rest (hs : Separated Range.lo Range.hi rest) (hx : x ∈ rest) (h : x.lo ≤ r.lo)
    : Cursor.insert { before, rest } r = { before, rest := setInsert r rest } := by
  cases rest with
  | nil => simp at hx
  | cons it rest =>
    have hle : it.lo ≤ r.lo := by
      cases List.mem_cons.mp hx with
      | inl heq => rw [← heq]; exact h
      | inr hx =>
        have := hs.lo_lt hx
        omega
    have : ¬(r.start < it.start) := by
      rw [UInt64.lt_iff_toNat_lt]
      exact Nat.not_lt.mpr hle
    simp [insert, this]

end Cursor

namespace RangeSet

section Step

variable {range it : Range} {before rest : List Range} {fuel : Nat}
variable (hr : range.Bounded) (hb : it.Bounded)
include hr hb

theorem removeLoop_not_overlapping (h : range.hi < it.lo ∨ it.hi < range.lo)
    : removeLoop range (fuel + 1) { before, rest := it :: rest }
        =
      some (before ++ it :: rest) := by
  have hover : ¬(it.overlapsWith range = true) := by
    rw [Range.overlapsWith_iff hb hr]
    omega
  simp only [removeLoop, hover, Cursor.ranges]
  rfl

theorem removeLoop_contained (hlo : range.lo ≤ it.lo) (hhi : it.hi ≤ range.hi)
    : removeLoop range (fuel + 1) { before, rest := it :: rest }
        =
      removeLoop range fuel { before, rest } := by
  have hover : it.overlapsWith range = true := by
    have := it.lo_le_hi
    rw [Range.overlapsWith_iff hb hr]
    omega
  have hcont : it.containedBy range = true := by
    rw [Range.containedBy_iff hb hr]
    omega
  rw [removeLoop]
  simp only [hover, hcont, ↓reduceIte]

theorem removeLoop_start_overlapped (hlo : range.lo ≤ it.lo) (hlt : it.lo < range.hi)
    (hhi : range.hi < it.hi)
    : removeLoop range (fuel + 1) { before, rest := it :: rest }
        =
      removeLoop range fuel (Cursor.insert { before, rest } (it.removeFromStart range)) := by
  have hover : it.overlapsWith range = true := by
    rw [Range.overlapsWith_iff hb hr]
    omega
  have hcont : ¬(it.containedBy range = true) := by
    rw [Range.containedBy_iff hb hr]
    omega
  have hstart : it.startOverlappedBy range = true := by
    rw [Range.startOverlappedBy_iff hr]
    omega
  rw [removeLoop]
  simp only [hover, hcont, hstart, ↓reduceIte, Bool.false_eq_true]

theorem removeLoop_end_overlapped (hlo : it.lo < range.lo) (hlt : range.lo < it.hi)
    (hhi : it.hi ≤ range.hi)
    : removeLoop range (fuel + 1) { before, rest := it :: rest }
        =
      removeLoop range fuel (Cursor.insert { before, rest } (it.removeFromEnd range)) := by
  have hover : it.overlapsWith range = true := by
    rw [Range.overlapsWith_iff hb hr]
    omega
  have hcont : ¬(it.containedBy range = true) := by
    rw [Range.containedBy_iff hb hr]
    omega
  have hstart : ¬(it.startOverlappedBy range = true) := by
    rw [Range.startOverlappedBy_iff hr]
    omega
  have hend : it.endOverlappedBy range = true := by
    rw [Range.endOverlappedBy_iff hb hr]
    omega
  rw [removeLoop]
  simp only [hover, hcont, hstart, hend, ↓reduceIte, Bool.false_eq_true]

theorem removeLoop_containing (h1 : it.lo ≤ range.hi) (h2 : range.lo ≤ it.hi)
    (hlo : it.lo < range.lo ∨ range.hi ≤ it.lo) (hhi : range.hi < it.hi ∨ it.hi ≤ range.lo)
    (hit : it.lo < it.hi)
    : removeLoop range (fuel + 1) { before, rest := it :: rest }
        =
      removeLoop range fuel
        ((Cursor.insert { before, rest } (it.removeFromMiddle range).1).insert
          (it.removeFromMiddle range).2) := by
  have hover : it.overlapsWith range = true := by
    rw [Range.overlapsWith_iff hb hr]
    omega
  have hcont : ¬(it.containedBy range = true) := by
    rw [Range.containedBy_iff hb hr]
    omega
  have hstart : ¬(it.startOverlappedBy range = true) := by
    rw [Range.startOverlappedBy_iff hr]
    omega
  have hend : ¬(it.endOverlappedBy range = true) := by
    rw [Range.endOverlappedBy_iff hb hr]
    omega
  rw [removeLoop]
  simp only [hover, hcont, hstart, hend, ↓reduceIte, Bool.false_eq_true]

end Step

variable {range : Range} {before rest : List Range} {fuel : Nat}

/-
The ranges that are left of those the iterator comes across.
-/
def sweep (range : Range) : List Range → List Range
  | [] => []
  | it :: rest =>
    if range.hi < it.lo then
      it :: rest
    else if it.lo = range.hi then
      range.remainder :: rest
    else if it.hi ≤ range.hi then
      sweep range rest
    else
      it.removeFromStart range :: rest

theorem removeLoop_stop (hr : range.Bounded) (hb : ∀ a ∈ rest, a.Bounded)
    (hgt : ∀ a ∈ rest, range.hi < a.lo) (hf : 0 < fuel)
    : removeLoop range fuel { before, rest } = some (before ++ rest) := by
  obtain ⟨fuel, rfl⟩ := Nat.exists_eq_succ_of_ne_zero (Nat.ne_of_gt hf)
  cases rest with
  | nil => simp [removeLoop, Cursor.ranges]
  | cons it rest =>
    apply removeLoop_not_overlapping hr
    . exact hb it (by simp)
    . exact Or.inl (hgt it (by simp))

theorem removeLoop_sweep (hr : range.Bounded) (hne : range.lo < range.hi)
    (hbefore : ∀ a ∈ before, a.lo < range.hi) (hb : ∀ a ∈ rest, a.Bounded)
    (hs : Separated Range.lo Range.hi rest) (hge : ∀ a ∈ rest, range.lo ≤ a.lo)
    (hf : rest.length < fuel)
    : removeLoop range fuel { before, rest } = some (before ++ sweep range rest) := by
  induction rest generalizing fuel with
  | nil =>
    rw [removeLoop_stop hr (by simp) (by simp) hf]
    rfl
  | cons it rest ih =>
    have hitb := hb it (by simp)
    have hitge := hge it (by simp)
    have hrb : ∀ a ∈ rest, a.Bounded := fun a ha => hb a (by simp [ha])
    have hrge : ∀ a ∈ rest, range.lo ≤ a.lo := fun a ha => hge a (by simp [ha])
    rw [separated_cons] at hs
    rw [List.length_cons] at hf
    obtain ⟨fuel, rfl⟩ := Nat.exists_eq_succ_of_ne_zero (Nat.ne_of_gt (Nat.zero_lt_of_lt hf))
    unfold sweep
    split
    . next hgt =>
      exact removeLoop_not_overlapping hr hitb (Or.inl hgt)
    . next hgt =>
      split
      . next heq =>
        -- The range only touches the removed one, and both parts it is split into start there.
        have hrest : ∀ a ∈ rest, range.hi < a.lo := by
          intro a ha
          have := hs.2.1 a ha
          omega
        have hrem : (it.removeFromMiddle range).1 = range.remainder := by
          apply Range.removeFromMiddle_fst_of_touching
          rw [← UInt64.toNat_inj, Range.end_toNat hr]
          exact heq
        have h1 := Range.remainder_lo hr
        have h2 := Range.removeFromMiddle_snd_lo (a := it) hr
        have hins : Cursor.insert { before, rest } range.remainder
            = { before := before ++ [range.remainder], rest } := by
          apply Cursor.insert_between
          . rw [h1]
            exact hbefore
          . rw [h1]
            exact hrest
        rw [removeLoop_containing hr hitb (by omega) (by omega) (by omega) (by omega) hs.1]
        rw [hrem, hins, Cursor.insert_present, removeLoop_stop hr hrb hrest (by omega)]
        . simp
        . rw [h2]
          exact hbefore
        . rw [h1, h2]
        . rw [h2]
          exact hrest
      . next heq =>
        split
        . next hle =>
          rw [removeLoop_contained hr hitb hitge hle]
          apply ih hrb hs.2.2 hrge
          omega
        . next hle =>
          have hlo := Range.removeFromStart_lo (a := it) hr
          have hrest : ∀ a ∈ rest, range.hi < a.lo := by
            intro a ha
            have := hs.2.1 a ha
            omega
          rw [removeLoop_start_overlapped hr hitb hitge (by omega) (by omega)]
          rw [Cursor.insert_between, removeLoop_stop hr hrb hrest (by omega)]
          . simp
          . intro a ha
            have := hbefore a ha
            omega
          . intro a ha
            have := hrest a ha
            omega

/-
The part of the set from the iterator on when nothing in it starts at the end of the removed range.
-/
theorem sweep_spec (hr : range.Bounded) (hb : ∀ a ∈ rest, a.Bounded)
    (hs : Separated Range.lo Range.hi rest) (hne : ∀ a ∈ rest, a.lo ≠ range.hi)
    : (∀ a ∈ sweep range rest, a.Bounded)
        ∧
      Separated Range.lo Range.hi (sweep range rest)
        ∧
      (∀ a ∈ sweep range rest, range.hi ≤ a.lo)
        ∧
      ∀ x, x ∈ Intervals.points Range.lo Range.hi (sweep range rest)
        ↔ x ∈ Intervals.points Range.lo Range.hi rest ∧ range.hi ≤ x := by
  induction rest with
  | nil => simp [sweep]
  | cons it rest ih =>
    have hitb := hb it (by simp)
    have hitne := hne it (by simp)
    have hrb : ∀ a ∈ rest, a.Bounded := fun a ha => hb a (by simp [ha])
    have hrne : ∀ a ∈ rest, a.lo ≠ range.hi := fun a ha => hne a (by simp [ha])
    have hsep := separated_cons.mp hs
    have hbehind : ∀ a ∈ rest, range.hi ≤ it.hi → range.hi < a.lo := by
      intro a ha hle
      have := hsep.2.1 a ha
      omega
    have hpoints : ∀ x ∈ Intervals.points Range.lo Range.hi rest, it.hi < x := by
      intro x hx
      exact hs.lt_of_mem_points hx
    unfold sweep
    split
    . next hgt =>
      refine ⟨hb, hs, ?_, ?_⟩
      . intro a ha
        cases List.mem_cons.mp ha with
        | inl heq => rw [heq]; omega
        | inr ha =>
          have := hbehind a ha (by omega)
          omega
      . intro x
        rw [mem_points_cons, iff_self_and]
        intro hx
        cases hx with
        | inl hx => omega
        | inr hx =>
          have := hpoints x hx
          omega
    . next hgt =>
      split
      . next hle =>
        have ih := ih hrb hsep.2.2 hrne
        refine ⟨ih.1, ih.2.1, ih.2.2.1, ?_⟩
        intro x
        rw [ih.2.2.2, mem_points_cons]
        constructor
        . intro hx
          exact ⟨Or.inr hx.1, hx.2⟩
        . intro hx
          cases hx.1 with
          | inl h => omega
          | inr h => exact ⟨h, hx.2⟩
      . next hle =>
        have hlo : (it.removeFromStart range).lo = range.hi := by
          rw [Range.removeFromStart_lo hr]
          omega
        have hhi : (it.removeFromStart range).hi = it.hi := by
          apply Range.removeFromStart_hi hitb hr
          omega
        refine ⟨?_, ?_, ?_, ?_⟩
        . intro a ha
          cases List.mem_cons.mp ha with
          | inl heq =>
            rw [heq]
            unfold Range.Bounded at *
            omega
          | inr ha => exact hrb a ha
        . rw [separated_cons, hlo, hhi]
          exact ⟨by omega, hsep.2.1, hsep.2.2⟩
        . intro a ha
          cases List.mem_cons.mp ha with
          | inl heq => rw [heq]; omega
          | inr ha =>
            have := hbehind a ha (by omega)
            omega
        . intro x
          rw [mem_points_cons, mem_points_cons, hlo, hhi]
          constructor
          . intro hx
            cases hx with
            | inl hx => exact ⟨Or.inl (by omega), hx.1⟩
            | inr hx =>
              have := hpoints x hx
              exact ⟨Or.inr hx, by omega⟩
          . intro hx
            cases hx.1 with
            | inl h => exact Or.inl (by omega)
            | inr h => exact Or.inr h

/-
When there is such a range it gives way to the remainder.
-/
theorem remainder_mem_sweep (hs : Separated Range.lo Range.hi rest)
    (hex : ∃ a ∈ rest, a.lo = range.hi)
    : range.remainder ∈ sweep range rest := by
  induction rest with
  | nil => simp at hex
  | cons it rest ih =>
    obtain ⟨a, ha, heq⟩ := hex
    have hsep := separated_cons.mp hs
    unfold sweep
    cases List.mem_cons.mp ha with
    | inl hait =>
      rw [hait] at heq
      simp [heq]
    | inr ha =>
      have hlt := hsep.2.1 a ha
      have h1 : ¬(range.hi < it.lo) := by omega
      have h2 : ¬(it.lo = range.hi) := by omega
      have h3 : it.hi ≤ range.hi := by omega
      simp only [h1, h2, h3, ↓reduceIte]
      exact ih hsep.2.2 ⟨a, ha, heq⟩

theorem removeLoop_remainder (hr : range.Bounded) (hb : ∀ a ∈ rest, a.Bounded)
    (hgt : ∀ a ∈ rest, range.hi < a.lo) (hf : 1 < fuel)
    : removeLoop range fuel { before, rest := range.remainder :: rest }
        =
      some (before ++ rest) := by
  obtain ⟨fuel, rfl⟩ := Nat.exists_eq_succ_of_ne_zero (Nat.ne_of_gt (Nat.zero_lt_of_lt hf))
  rw [removeLoop]
  simp only [Range.remainder_overlapsWith hr, Range.remainder_containedBy hr, ↓reduceIte]
  exact removeLoop_stop hr hb hgt (by omega)

theorem setInsert_remainder_of_gt (hr : range.Bounded) (hgt : ∀ a ∈ rest, range.hi < a.lo)
    : setInsert range.remainder rest = range.remainder :: rest := by
  rw [← Range.remainder_lo hr] at hgt
  have hnone : ∀ a ∈ [], Range.lo a < range.remainder.lo := by simp
  exact setInsert_append hnone hgt

/-
With the remainder among the ranges the iterator still has to visit, it is erased again. This only
works out if no range has a part behind the removed one that would have to take its place.
-/
theorem removeLoop_setInsert_remainder (hr : range.Bounded) (hb : ∀ a ∈ rest, a.Bounded)
    (hs : Separated Range.lo Range.hi rest) (hge : ∀ a ∈ rest, range.lo ≤ a.lo)
    (hmem : range.hi ∉ Intervals.points Range.lo Range.hi rest) (hf : rest.length + 1 < fuel)
    : removeLoop range fuel { before, rest := setInsert range.remainder rest }
        =
      some (before ++ sweep range rest) := by
  induction rest generalizing fuel with
  | nil => exact removeLoop_remainder hr (by simp) (by simp) hf
  | cons it rest ih =>
    rw [List.length_cons] at hf
    rw [mem_points_cons, not_or] at hmem
    have hsep := separated_cons.mp hs
    have hitb := hb it (by simp)
    have hlo := Range.remainder_lo hr
    unfold sweep
    split
    . next hgt =>
      have hall : ∀ a ∈ it :: rest, range.hi < a.lo := by
        intro a ha
        cases List.mem_cons.mp ha with
        | inl heq => rw [heq]; exact hgt
        | inr ha =>
          have := hs.lo_lt ha
          omega
      rw [setInsert_remainder_of_gt hr hall]
      exact removeLoop_remainder hr hb hall (by omega)
    . next hgt =>
      obtain ⟨fuel, rfl⟩ := Nat.exists_eq_succ_of_ne_zero (Nat.ne_of_gt (Nat.zero_lt_of_lt hf))
      have h1 : ¬(it.lo = range.hi) := by omega
      have h2 : it.hi ≤ range.hi := by omega
      simp only [h1, h2, ↓reduceIte]
      rw [setInsert_cons_of_lt (by omega), removeLoop_contained hr hitb (hge it (by simp)) h2]
      apply ih
      . intro a ha
        exact hb a (by simp [ha])
      . exact hsep.2.2
      . intro a ha
        exact hge a (by simp [ha])
      . exact hmem.2
      . omega

theorem removeLoop_setInsert_remainder_straddling (hr : range.Bounded) (hb : ∀ a ∈ rest, a.Bounded)
    (hs : Separated Range.lo Range.hi rest) (hge : ∀ a ∈ rest, range.lo ≤ a.lo)
    (hex : ∃ a ∈ rest, a.lo < range.hi ∧ range.hi < a.hi) (hf : rest.length + 1 < fuel)
    : ∃ rest',
        removeLoop range fuel { before, rest := setInsert range.remainder rest }
          =
        some (before ++ rest')
          ∧
        ∀ a ∈ rest', range.hi < a.lo := by
  induction rest generalizing fuel with
  | nil => simp at hex
  | cons it rest ih =>
    obtain ⟨a, ha, h1, h2⟩ := hex
    rw [List.length_cons] at hf
    obtain ⟨fuel, rfl⟩ := Nat.exists_eq_succ_of_ne_zero (Nat.ne_of_gt (Nat.zero_lt_of_lt hf))
    have hsep := separated_cons.mp hs
    have hitb := hb it (by simp)
    have hitge := hge it (by simp)
    have hrb : ∀ a ∈ rest, a.Bounded := fun a ha => hb a (by simp [ha])
    have hlo := Range.remainder_lo hr
    cases List.mem_cons.mp ha with
    | inl heq =>
      rw [heq] at h1 h2
      have hrest : ∀ a ∈ rest, range.hi < a.lo := by
        intro a ha
        have := hsep.2.1 a ha
        omega
      have hcut := Range.removeFromStart_lo (a := it) hr
      refine ⟨rest, ?_, hrest⟩
      -- What is left of the range is not inserted because the remainder starts there already.
      have hpresent : setInsert (it.removeFromStart range) (range.remainder :: rest)
          = range.remainder :: rest := by
        have hnone : ∀ a ∈ [], Range.lo a < (it.removeFromStart range).lo := by simp
        apply setInsert_present hnone
        omega
      have hins : Cursor.insert { before, rest := range.remainder :: rest }
          (it.removeFromStart range) = { before, rest := range.remainder :: rest } := by
        have : ¬((it.removeFromStart range).start < range.remainder.start) := by
          rw [UInt64.lt_iff_toNat_lt]
          unfold Range.lo at *
          omega
        simp [Cursor.insert, this, hpresent]
      rw [setInsert_cons_of_lt (by omega), removeLoop_start_overlapped hr hitb hitge h1 h2]
      rw [setInsert_remainder_of_gt hr hrest, hins]
      exact removeLoop_remainder hr hrb hrest (by omega)
    | inr ha =>
      have := hsep.2.1 a ha
      rw [setInsert_cons_of_lt (by omega), removeLoop_contained hr hitb hitge (by omega)]
      apply ih hrb hsep.2.2
      . intro a ha
        exact hge a (by simp [ha])
      . exact ⟨a, ha, h1, h2⟩
      . omega

end RangeSet
end Misc
end ObTools
