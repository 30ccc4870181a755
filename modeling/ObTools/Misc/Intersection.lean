import ObTools.Misc.Remove
import ObTools.Misc.Sweep

/-!
This module contains the exact condition under which the two intersections of `RangeSet` agree. The
one that subtracts an inverse removes the holes of the other set one by one. A removal that goes wrong
leaves something behind that those of the holes further on do not touch any more, whatever the set
looks like by then.
-/

namespace ObTools
namespace Misc
namespace RangeSet

open Intervals

/-
When the points from `s` to `e` can be removed from a set: `Removable` in terms of its points.
-/
structure RemovablePoints (points : Set Nat) (s e : Nat) : Prop where
  inGap : s ∉ points → s - 1 ∉ points → (∃ x ∈ points, x < s) → ∀ x ∈ points, ¬(s < x ∧ x < e)
  atEnd : s ∉ points → s - 1 ∈ points → (∃ x ∈ points, s < x ∧ x < e) ∧ e ∉ points
  touching : (s ∈ points ∨ ∀ x ∈ points, s ≤ x) → ¬(e ∈ points ∧ e - 1 ∉ points)

section Points

variable {ranges : List Range} {range : Range} (hs : Separated Range.lo Range.hi ranges)
include hs

theorem startsInGap_iff
    : StartsInGap ranges range
        ↔
      (∃ x ∈ Intervals.points Range.lo Range.hi ranges, x < range.lo) ∧ range.lo ∉ Intervals.points Range.lo Range.hi ranges
        ∧ range.lo - 1 ∉ Intervals.points Range.lo Range.hi ranges := by
  constructor
  . rintro ⟨⟨p, hp, hlt⟩, hgap⟩
    refine ⟨⟨p.lo, mem_points_of_mem hp (Nat.le_refl _) (hs.lt p hp), hlt⟩, ?_, ?_⟩
    . rintro ⟨r, hr, h1, h2⟩
      exact hgap r hr ⟨h1, Nat.le_of_lt h2⟩
    . rintro ⟨r, hr, h1, h2⟩
      exact hgap r hr (by omega)
  . rintro ⟨⟨x, ⟨p, hp, h1, h2⟩, hlt⟩, hlo, hbefore⟩
    refine ⟨⟨p, hp, by omega⟩, ?_⟩
    rintro r hr ⟨h3, h4⟩
    have hlt' := hs.lt r hr
    by_cases heq : range.lo = r.hi
    . exact hbefore (mem_points_of_mem hr (by omega) (by omega))
    . exact hlo (mem_points_of_mem hr h3 (by omega))

theorem startsAtEnd_iff
    : StartsAtEnd ranges range
        ↔
      range.lo ∉ Intervals.points Range.lo Range.hi ranges ∧ range.lo - 1 ∈ Intervals.points Range.lo Range.hi ranges := by
  constructor
  . rintro ⟨p, hp, hlt, heq⟩
    refine ⟨?_, mem_points_of_mem hp (by omega) (by omega)⟩
    rw [← heq]
    exact hs.hi_not_mem hp
  . rintro ⟨hlo, p, hp, h1, h2⟩
    have hhi : p.hi ≤ range.lo := by
      by_contra hgt
      exact hlo (mem_points_of_mem hp (by omega) (by omega))
    have hpos : p.lo < range.lo := by
      by_contra hge
      have := hs.lt p hp
      exact hlo (mem_points_of_mem hp (by omega) (by omega))
    exact ⟨p, hp, hpos, by omega⟩

theorem starts_at_iff {e : Nat} (he : 0 < e)
    : (∃ r ∈ ranges, r.lo = e) ↔ e ∈ Intervals.points Range.lo Range.hi ranges ∧ e - 1 ∉ Intervals.points Range.lo Range.hi ranges := by
  constructor
  . rintro ⟨r, hr, heq⟩
    have hlt := hs.lt r hr
    refine ⟨mem_points_of_mem hr (by omega) (by omega), ?_⟩
    rw [← heq]
    exact hs.pred_lo_not_mem hr (by omega)
  . rintro ⟨⟨r, hr, h1, h2⟩, hbefore⟩
    refine ⟨r, hr, ?_⟩
    by_contra hne
    exact hbefore (mem_points_of_mem hr (by omega) (by omega))

theorem starts_within_iff (hlo : range.lo ∉ Intervals.points Range.lo Range.hi ranges)
    : (∃ r ∈ ranges, range.lo < r.lo ∧ r.lo < range.hi)
        ↔ ∃ x ∈ Intervals.points Range.lo Range.hi ranges, range.lo < x ∧ x < range.hi := by
  constructor
  . rintro ⟨r, hr, h1, h2⟩
    exact ⟨r.lo, mem_points_of_mem hr (Nat.le_refl _) (hs.lt r hr), h1, h2⟩
  . rintro ⟨x, ⟨r, hr, h1, h2⟩, h3, h4⟩
    refine ⟨r, hr, ?_, by omega⟩
    by_contra hle
    exact hlo (mem_points_of_mem hr (by omega) (by omega))

theorem removable_iff_points (hne : range.lo < range.hi)
    : Removable ranges range
        ↔ RemovablePoints (Intervals.points Range.lo Range.hi ranges) range.lo range.hi := by
  have hgap := @startsInGap_iff ranges range hs
  have hend := @startsAtEnd_iff ranges range hs
  have htouching : (∀ r ∈ ranges, r.lo ≠ range.hi)
      ↔ ¬(range.hi ∈ Intervals.points Range.lo Range.hi ranges
        ∧ range.hi - 1 ∉ Intervals.points Range.lo Range.hi ranges) := by
    rw [← starts_at_iff hs (by omega)]
    simp only [not_exists, not_and, ne_eq]
  by_cases hlo : range.lo ∈ Intervals.points Range.lo Range.hi ranges
  . rw [removable_iff_of_not (fun h => (hgap.mp h).2.1 hlo) (fun h => (hend.mp h).1 hlo), htouching]
    constructor
    . intro h
      exact ⟨fun hnot => absurd hlo hnot, fun hnot => absurd hlo hnot, fun _ => h⟩
    . intro h
      exact h.touching (.inl hlo)
  . by_cases hbefore : range.lo - 1 ∈ Intervals.points Range.lo Range.hi ranges
    . rw [removable_iff_of_atEnd (hend.mpr ⟨hlo, hbefore⟩), starts_within_iff hs hlo]
      constructor
      . intro h
        refine ⟨fun _ hnot => absurd hbefore hnot, fun _ _ => h, ?_⟩
        intro hcase
        cases hcase with
        | inl hmem => exact absurd hmem hlo
        | inr hall =>
          have hle := hall _ hbefore
          have hzero : range.lo - 1 = range.lo := by omega
          rw [hzero] at hbefore
          exact absurd hbefore hlo
      . intro h
        exact h.atEnd hlo hbefore
    . by_cases hex : ∃ x ∈ Intervals.points Range.lo Range.hi ranges, x < range.lo
      . rw [removable_iff_of_inGap (hgap.mpr ⟨hex, hlo, hbefore⟩)]
        have hwithin := not_congr (starts_within_iff hs hlo)
        simp only [not_exists, not_and, not_lt] at hwithin
        rw [hwithin]
        constructor
        . intro h
          refine ⟨fun _ _ _ x hx hin => ?_, fun _ hmem => absurd hmem hbefore, ?_⟩
          . have := h x hx hin.1
            omega
          . intro hcase
            cases hcase with
            | inl hmem => exact absurd hmem hlo
            | inr hall =>
              obtain ⟨x, hx, hlt⟩ := hex
              have := hall x hx
              omega
        . intro h x hx hlt
          have := h.inGap hlo hbefore hex x hx
          omega
      . rw [removable_iff_of_not (fun h => hex (hgap.mp h).1) (fun h => hbefore (hend.mp h).2), htouching]
        have hall : ∀ x ∈ Intervals.points Range.lo Range.hi ranges, range.lo ≤ x := by
          intro x hx
          by_contra hlt
          exact hex ⟨x, hx, by omega⟩
        constructor
        . intro h
          exact ⟨fun _ _ hsome => absurd hsome hex, fun _ hmem => absurd hmem hbefore, fun _ => h⟩
        . intro h
          exact h.touching (.inr hall)

end Points

-- In the order of `operator<`, whatever the ranges are otherwise
def Sorted (ranges : List Range) : Prop := ranges.Pairwise fun a b => a.lo < b.lo

theorem Sorted.of_separated {ranges : List Range} (h : Separated Range.lo Range.hi ranges)
    : Sorted ranges := by
  apply h.apart.imp_of_mem
  intro a b ha _ hab
  have := h.lt a ha
  omega

section Sorted

variable {l before rest : List Range} {r a : Range}

theorem sorted_setInsert (h : Sorted l) : Sorted (setInsert r l) := by
  induction l with
  | nil => exact List.pairwise_singleton _ _
  | cons b l ih =>
    obtain ⟨hb, hl⟩ := List.pairwise_cons.mp h
    unfold Sorted setInsert
    split
    . next hlt =>
      rw [UInt64.lt_iff_toNat_lt] at hlt
      refine List.pairwise_cons.mpr ⟨?_, h⟩
      intro a ha
      cases List.mem_cons.mp ha with
      | inl heq => rw [heq]; exact hlt
      | inr ha => exact Nat.lt_trans hlt (hb a ha)
    . next hge =>
      split
      . exact h
      . next hne =>
        refine List.pairwise_cons.mpr ⟨?_, ih hl⟩
        intro a ha
        cases mem_setInsert ha with
        | inl heq =>
          rw [UInt64.lt_iff_toNat_lt] at hge
          rw [← UInt64.toNat_inj] at hne
          rw [heq]
          unfold Range.lo
          omega
        | inr ha => exact hb a ha

/-
The iterator has got on to another place of the set, which now has other ranges from the start of the
removed one on.
-/
structure Onward (range : Range) (c c' : Cursor) : Prop where
  sorted : Sorted c'.ranges
  rest_ge : ∀ a ∈ c'.rest, range.lo ≤ a.lo
  keeps : ∀ a ∈ c.before, a ∈ c'.before
  origin : ∀ a ∈ c'.before, a ∈ c.before ∨ range.lo ≤ a.lo

theorem Onward.trans {range : Range} {c c' c'' : Cursor} (h : Onward range c c')
    (h' : Onward range c' c'')
    : Onward range c c'' where
  sorted := h'.sorted
  rest_ge := h'.rest_ge
  keeps := fun a ha => h'.keeps a (h.keeps a ha)
  origin := fun a ha => (h'.origin a ha).elim (h.origin a) .inr

theorem sorted_append
    : Sorted (before ++ rest)
        ↔
      Sorted before ∧ Sorted rest ∧ ∀ a ∈ before, ∀ b ∈ rest, a.lo < b.lo :=
  List.pairwise_append

theorem onward_insert {range : Range} {c : Cursor} (hs : Sorted c.ranges)
    (hrest : ∀ a ∈ c.rest, range.lo ≤ a.lo) (hr : range.lo ≤ r.lo)
    : Onward range c (c.insert r) := by
  obtain ⟨before, rest⟩ := c
  have hsep := sorted_append.mp hs
  have hbefore (hlt : ∀ b ∈ rest, r.lo < b.lo)
      : Onward range { before, rest } { before := setInsert r before, rest } := by
    refine ⟨?_, hrest, fun a ha => mem_setInsert_of_mem ha, ?_⟩
    . apply sorted_append.mpr
      refine ⟨sorted_setInsert hsep.1, hsep.2.1, ?_⟩
      intro a ha b hb
      cases mem_setInsert ha with
      | inl heq => rw [heq]; exact hlt b hb
      | inr ha => exact hsep.2.2 a ha b hb
    . intro a ha
      cases mem_setInsert ha with
      | inl heq => exact .inr (by rw [heq]; exact hr)
      | inr ha => exact .inl ha
  unfold Cursor.insert
  cases rest with
  | nil => exact hbefore (by simp)
  | cons it rest =>
    dsimp only
    split
    . next hlt =>
      rw [UInt64.lt_iff_toNat_lt] at hlt
      apply hbefore
      intro b hb
      cases List.mem_cons.mp hb with
      | inl heq => rw [heq]; exact hlt
      | inr hb => exact Nat.lt_trans hlt ((List.pairwise_cons.mp hsep.2.1).1 b hb)
    . next hge =>
      rw [UInt64.lt_iff_toNat_lt] at hge
      have hle : it.lo ≤ r.lo := Nat.le_of_not_lt hge
      refine ⟨?_, ?_, fun a ha => ha, fun a ha => .inl ha⟩
      . apply sorted_append.mpr
        refine ⟨hsep.1, sorted_setInsert hsep.2.1, ?_⟩
        intro a ha b hb
        cases mem_setInsert hb with
        | inl heq =>
          have := hsep.2.2 a ha it List.mem_cons_self
          rw [heq]
          omega
        | inr hb => exact hsep.2.2 a ha b hb
      . intro a ha
        cases mem_setInsert ha with
        | inl heq => rw [heq]; exact hr
        | inr ha => exact hrest a ha

-- What the loop does to the set once the iterator is on a range that starts within the removed one
theorem removeLoop_onward {range : Range} {fuel : Nat} {c : Cursor} {res : List Range}
    (hr : range.Bounded) (hs : Sorted c.ranges) (hrest : ∀ a ∈ c.rest, range.lo ≤ a.lo)
    (h : removeLoop range fuel c = some res)
    : Sorted res ∧ (∀ a ∈ c.before, a ∈ res) ∧ ∀ a ∈ res, a ∈ c.before ∨ range.lo ≤ a.lo := by
  induction fuel generalizing c with
  | zero => cases h
  | succ fuel ih =>
    have hstop : res = c.ranges → Sorted res ∧ (∀ a ∈ c.before, a ∈ res)
        ∧ ∀ a ∈ res, a ∈ c.before ∨ range.lo ≤ a.lo := by
      rintro rfl
      refine ⟨hs, fun a ha => List.mem_append_left c.rest ha, ?_⟩
      intro a ha
      exact (List.mem_append.mp ha).imp_right (hrest a)
    have hnext (c' : Cursor) (hc : Onward range c c') (h : removeLoop range fuel c' = some res)
        : Sorted res ∧ (∀ a ∈ c.before, a ∈ res) ∧ ∀ a ∈ res, a ∈ c.before ∨ range.lo ≤ a.lo := by
      obtain ⟨hsorted, hkeeps, horigin⟩ := ih hc.sorted hc.rest_ge h
      refine ⟨hsorted, fun a ha => hkeeps a (hc.keeps a ha), ?_⟩
      intro a ha
      exact (horigin a ha).elim (hc.origin a) .inr
    obtain ⟨before, rest⟩ := c
    cases rest with
    | nil => exact hstop (Option.some.inj h).symm
    | cons it rest =>
      have hit : range.lo ≤ it.lo := hrest it List.mem_cons_self
      have hsep := sorted_append.mp hs
      have htail : Onward range { before, rest := it :: rest } { before, rest } := by
        refine ⟨?_, fun a ha => hrest a (List.mem_cons_of_mem it ha), fun a ha => ha, fun a ha => .inl ha⟩
        apply sorted_append.mpr
        exact ⟨hsep.1, (List.pairwise_cons.mp hsep.2.1).2,
          fun a ha b hb => hsep.2.2 a ha b (List.mem_cons_of_mem it hb)⟩
      have hend : range.lo ≤ range.end.toNat := by
        rw [Range.end_toNat hr]
        exact range.lo_le_hi
      have hinsert (c' : Cursor) (hc : Onward range { before, rest := it :: rest } c') (piece : Range)
          (hpiece : range.lo ≤ piece.lo)
          : Onward range { before, rest := it :: rest } (c'.insert piece) :=
        hc.trans (onward_insert hc.sorted hc.rest_ge hpiece)
      rw [removeLoop] at h
      dsimp only at h
      split at h
      . split at h
        . exact hnext _ htail h
        . split at h
          . apply hnext _ (hinsert _ htail _ _) h
            unfold Range.removeFromStart Range.lo
            dsimp only
            rw [Range.max_toNat]
            unfold Range.lo at hit
            omega
          . split at h
            . exact hnext _ (hinsert _ htail (it.removeFromEnd range) hit) h
            . have hfst := hinsert _ htail (it.removeFromMiddle range).1 hit
              exact hnext _ (hinsert _ hfst (it.removeFromMiddle range).2 hend) h
      . exact hstop (Option.some.inj h).symm

/-
A removal does next to nothing to the ranges that start before the removed one: one of them can be
cut.
-/
structure Below (range : Range) (ranges res : List Range) : Prop where
  sorted : Sorted res
  starts : ∀ a ∈ ranges, a.lo < range.lo → a.lo < a.hi → ∃ a' ∈ res, a'.lo = a.lo ∧ a'.lo < a'.hi
  unreached : ∀ a ∈ ranges, a.lo < range.lo → a.end.toNat < range.lo → a ∈ res
  points : ∀ z < range.lo, z ∈ Intervals.points Range.lo Range.hi res →
    z ∈ Intervals.points Range.lo Range.hi ranges

theorem below_of_onward {range : Range} {fuel : Nat} {res : List Range} (hr : range.Bounded)
    (hs : Sorted (before ++ rest)) (hrest : ∀ a ∈ rest, range.lo ≤ a.lo)
    (h : removeLoop range fuel { before, rest } = some res)
    : Below range (before ++ rest) res := by
  obtain ⟨hsorted, hkeeps, horigin⟩ := @removeLoop_onward range fuel { before, rest } res hr hs hrest h
  have hbefore : ∀ a ∈ before ++ rest, a.lo < range.lo → a ∈ res := by
    intro a ha hlt
    cases List.mem_append.mp ha with
    | inl ha => exact hkeeps a ha
    | inr ha =>
      have := hrest a ha
      omega
  refine ⟨hsorted, ?_, ?_, ?_⟩
  . intro a ha hlt hpos
    exact ⟨a, hbefore a ha hlt, rfl, hpos⟩
  . intro a ha hlt _
    exact hbefore a ha hlt
  . rintro z hz ⟨a, ha, h1, h2⟩
    cases horigin a ha with
    | inl ha => exact mem_points_of_mem (List.mem_append_left rest ha) h1 h2
    | inr hge => omega

theorem end_toNat_le (a : Range) : a.end.toNat ≤ a.hi := by
  unfold Range.end Range.hi
  rw [UInt64.toNat_add]
  exact Nat.mod_le _ _

theorem reaches_of_overlapsWith {p range : Range} (hr : range.Bounded) (hp : p.lo < range.lo)
    (h : p.overlapsWith range = true)
    : range.lo ≤ p.end.toNat := by
  have hend := Range.end_toNat hr
  have hle := range.lo_le_hi
  unfold Range.overlapsWith at h
  simp only [ge_iff_le, Bool.or_eq_true, Bool.and_eq_true, decide_eq_true_eq,
    UInt64.le_iff_toNat_le, hend] at h
  unfold Range.lo at *
  omega

theorem removeFromEnd_hi_of_reaches {p range : Range} (hp : p.lo < range.lo)
    (h : range.lo ≤ p.end.toNat)
    : (p.removeFromEnd range).hi = range.lo := by
  have hmin : (min p.end range.start).toNat = range.lo := by
    rw [Range.min_toNat]
    exact Nat.min_eq_right h
  have hlength : (min p.end range.start - p.start).toNat = range.lo - p.lo := by
    rw [Range.sub_toNat]
    . rw [hmin]
      rfl
    . rw [hmin]
      exact Nat.le_of_lt hp
  unfold Range.removeFromEnd
  rw [Range.hi]
  dsimp only
  rw [hlength]
  unfold Range.lo at *
  omega

-- The range before the removed one is not touched, or it is cut where that starts.
theorem removeLoop_predecessor {range p : Range} {fuel : Nat} {res : List Range} (hr : range.Bounded)
    (hs : Sorted (before ++ p :: rest)) (hp : p.lo < range.lo)
    (hrest : ∀ a ∈ rest, range.lo ≤ a.lo)
    (h : removeLoop range fuel { before, rest := p :: rest } = some res)
    : res = before ++ p :: rest
        ∨
      range.lo ≤ p.end.toNat ∧ ∃ r c fuel',
        r.lo = p.lo ∧ r.hi = range.lo ∧ Onward range { before := before ++ [r], rest } c
          ∧ removeLoop range fuel' c = some res := by
  obtain ⟨fuel, rfl⟩ : ∃ k, fuel = k + 1 := by
    cases fuel with
    | zero => cases h
    | succ k => exact ⟨k, rfl⟩
  have hsep := sorted_append.mp hs
  have hsepr := List.pairwise_cons.mp hsep.2.1
  have hcut (r : Range) (hlo : r.lo = p.lo)
      : Cursor.insert { before, rest } r = { before := before ++ [r], rest }
        ∧ Onward range { before := before ++ [r], rest } { before := before ++ [r], rest } := by
    constructor
    . apply Cursor.insert_between
      . intro a ha
        have := hsep.2.2 a ha p List.mem_cons_self
        omega
      . intro a ha
        have := hsepr.1 a ha
        omega
    . refine ⟨?_, hrest, fun a ha => ha, fun a ha => .inl ha⟩
      apply sorted_append.mpr
      refine ⟨sorted_append.mpr ⟨hsep.1, List.pairwise_singleton _ _, ?_⟩, hsepr.2, ?_⟩
      . intro a ha b hb
        rw [List.mem_singleton.mp hb, hlo]
        exact hsep.2.2 a ha p List.mem_cons_self
      . intro a ha b hb
        cases List.mem_append.mp ha with
        | inl ha => exact hsep.2.2 a ha b (List.mem_cons_of_mem p hb)
        | inr ha =>
          rw [List.mem_singleton.mp ha, hlo]
          exact hsepr.1 b hb
  rw [removeLoop] at h
  dsimp only at h
  split at h
  . next hover =>
    have hlt : ¬range.start ≤ p.start := by
      rw [UInt64.le_iff_toNat_le]
      exact Nat.not_le.mpr hp
    have hend : range.lo ≤ p.end.toNat := reaches_of_overlapsWith hr hp hover
    have hcontained : ¬p.containedBy range = true := by
      unfold Range.containedBy
      simp [hlt]
    have hstart : ¬p.startOverlappedBy range = true := by
      unfold Range.startOverlappedBy
      simp [hlt]
    rw [if_neg hcontained, if_neg hstart] at h
    refine .inr ⟨hend, ?_⟩
    split at h
    . have hlo := Range.removeFromEnd_lo (a := p) (b := range)
      obtain ⟨hins, hon⟩ := hcut (p.removeFromEnd range) hlo
      rw [hins] at h
      exact ⟨p.removeFromEnd range, _, fuel, hlo, removeFromEnd_hi_of_reaches hp hend, hon, h⟩
    . have hlo := Range.removeFromMiddle_fst_lo (a := p) (b := range)
      have hhi := Range.removeFromMiddle_fst_hi (a := p) (b := range) (by omega)
      obtain ⟨hins, hon⟩ := hcut (p.removeFromMiddle range).1 hlo
      rw [hins] at h
      refine ⟨(p.removeFromMiddle range).1, _, fuel, hlo, hhi, ?_, h⟩
      apply onward_insert hon.sorted hon.rest_ge
      rw [Range.removeFromMiddle_snd_lo hr]
      exact range.lo_le_hi
  . exact .inl (Option.some.inj h).symm

theorem below_of_predecessor {range p : Range} {fuel : Nat} {res : List Range} (hr : range.Bounded)
    (hs : Sorted (before ++ p :: rest)) (hp : p.lo < range.lo)
    (hrest : ∀ a ∈ rest, range.lo ≤ a.lo)
    (h : removeLoop range fuel { before, rest := p :: rest } = some res)
    : Below range (before ++ p :: rest) res := by
  cases removeLoop_predecessor hr hs hp hrest h with
  | inl heq =>
    rw [heq]
    exact ⟨hs, fun a ha _ hpos => ⟨a, ha, rfl, hpos⟩, fun a ha _ _ => ha, fun z _ hz => hz⟩
  | inr hcut =>
    obtain ⟨hend, r, c, fuel', hlo, hhi, hon, h⟩ := hcut
    obtain ⟨hsorted, hkeeps, horigin⟩ := removeLoop_onward hr hon.sorted hon.rest_ge h
    have hbefore : ∀ a ∈ before ++ [r], a ∈ res := fun a ha => hkeeps a (hon.keeps a ha)
    have hmem : ∀ a ∈ before ++ p :: rest, a.lo < range.lo → a ∈ before ∨ a = p := by
      intro a ha hlt
      rw [List.mem_append, List.mem_cons] at ha
      rcases ha with ha | ha | ha
      . exact .inl ha
      . exact .inr ha
      . have := hrest a ha
        omega
    refine ⟨hsorted, ?_, ?_, ?_⟩
    . intro a ha hlt hpos
      cases hmem a ha hlt with
      | inl ha => exact ⟨a, hbefore a (List.mem_append_left [r] ha), rfl, hpos⟩
      | inr heq =>
        refine ⟨r, hbefore r (List.mem_append_right before List.mem_cons_self), ?_, by omega⟩
        rw [heq]
        exact hlo
    . intro a ha hlt hshort
      cases hmem a ha hlt with
      | inl ha => exact hbefore a (List.mem_append_left [r] ha)
      | inr heq =>
        rw [heq] at hshort
        omega
    . rintro z hz ⟨a, ha, h1, h2⟩
      have horigin : a ∈ before ++ [r] ∨ range.lo ≤ a.lo := (horigin a ha).elim (hon.origin a) .inr
      cases horigin with
      | inr hge => omega
      | inl ha =>
        cases List.mem_append.mp ha with
        | inl ha => exact mem_points_of_mem (List.mem_append_left _ ha) h1 h2
        | inr ha =>
          -- What is cut off is not below the removed range.
          rw [List.mem_singleton.mp ha] at h1 h2
          have := end_toNat_le p
          exact mem_points_of_mem (List.mem_append_right before List.mem_cons_self) (by omega) (by omega)

end Sorted

theorem le_lo_of_mem_dropWhile {ranges : List Range} {r a : Range} (hs : Sorted ranges)
    (ha : a ∈ ranges.dropWhile (·.start < r.start))
    : r.lo ≤ a.lo := by
  induction ranges with
  | nil => cases ha
  | cons b ranges ih =>
    obtain ⟨hb, hrest⟩ := List.pairwise_cons.mp hs
    rw [List.dropWhile_cons] at ha
    split at ha
    . exact ih hrest ha
    . next hge =>
      rw [decide_eq_true_iff, UInt64.lt_iff_toNat_lt] at hge
      have hle : r.lo ≤ b.lo := Nat.le_of_not_lt hge
      cases List.mem_cons.mp ha with
      | inl heq => rw [heq]; exact hle
      | inr ha => exact Nat.le_trans hle (Nat.le_of_lt (hb a ha))

theorem remove_below {rs rs' : RangeSet} {r : Range} (hr : r.Bounded) (hne : r.lo < r.hi)
    (hs : Sorted rs.ranges) (h : rs.remove r.start r.length = some rs')
    : Below r rs.ranges rs'.ranges := by
  have hlength : ¬r.length = 0 := by
    intro hzero
    unfold Range.lo Range.hi at hne
    rw [hzero, UInt64.toNat_zero] at hne
    omega
  have hranges : _ = rs.ranges := Cursor.lowerBound_ranges (r := r)
  have hbefore : ∀ a ∈ (Cursor.lowerBound rs.ranges r).before, a.lo < r.lo :=
    fun a ha => Cursor.lo_lt_of_mem_before ha
  have hrest : ∀ a ∈ (Cursor.lowerBound rs.ranges r).rest, r.lo ≤ a.lo :=
    fun a ha => le_lo_of_mem_dropWhile hs ha
  unfold remove removeCursor at h
  rw [if_neg hlength] at h
  dsimp only at h
  generalize Cursor.lowerBound rs.ranges r = it at h hranges hbefore hrest
  rw [← hranges] at hs ⊢
  split at h
  . next res hloop =>
    rw [← Option.some.inj h]
    split at hloop
    . next hpast =>
      obtain ⟨before, p, hp, hprev⟩ := Cursor.stepBack_of_pastStart hpast
      rw [hprev] at hloop
      rw [hp, List.append_assoc] at hs ⊢
      exact below_of_predecessor hr hs (hbefore p (by simp [hp])) hrest hloop
    . exact below_of_onward hr hs hrest hloop
  . cases h

/-
What has gone wrong stays so.
-/
theorem spoiled_remove {ranges : List Range} {range r : Range} {rs rs' : RangeSet}
    (hrange : range.Bounded) (hlt : range.lo < range.hi) (hr : r.Bounded) (hne : r.lo < r.hi)
    (hbehind : range.hi < r.lo)
    (hs : Sorted rs.ranges) (h : Spoiled ranges range rs.ranges)
    (hremove : rs.remove r.start r.length = some rs')
    : Spoiled ranges range rs'.ranges := by
  have hbelow := remove_below hr hne hs hremove
  cases h with
  | kept a mem le lt pos =>
    obtain ⟨a', ha', hlo, hpos⟩ := hbelow.starts a mem (by omega) pos
    exact .kept a' ha' (by omega) (by omega) hpos
  | remainder mem =>
    apply Spoiled.remainder
    apply hbelow.unreached _ mem
    . rw [Range.remainder_lo hrange]
      exact hbehind
    . rw [Range.remainder_end]
      exact Nat.lt_trans hlt hbehind
  | lost before after =>
    refine .lost before ?_
    intro hmem
    exact after (hbelow.points range.hi hbehind hmem)

theorem spoiled_foldlM {ranges l : List Range} {range : Range} {rs rs' : RangeSet}
    (hrange : range.Bounded) (hlt : range.lo < range.hi) (hb : ∀ r ∈ l, r.Bounded)
    (hsl : Separated Range.lo Range.hi (range :: l)) (hs : Sorted rs.ranges)
    (h : Spoiled ranges range rs.ranges)
    (hremove : l.foldlM (fun rs r => rs.remove r.start r.length) rs = some rs')
    : Spoiled ranges range rs'.ranges := by
  induction l generalizing rs with
  | nil =>
    rw [← Option.some.inj hremove]
    exact h
  | cons r l ih =>
    have hsep := separated_cons.mp hsl
    have hne := (separated_cons.mp hsep.2.2).1
    have hbehind := hsep.2.1 r List.mem_cons_self
    have hr := hb r List.mem_cons_self
    rw [List.foldlM_cons] at hremove
    cases hfirst : rs.remove r.start r.length with
    | none =>
      rw [hfirst] at hremove
      cases hremove
    | some rs1 =>
      rw [hfirst] at hremove
      apply ih (fun a ha => hb a (List.mem_cons_of_mem r ha)) _ (remove_below hr hne hs hfirst).sorted
        (spoiled_remove hrange hlt hr hne hbehind hs h hfirst) hremove
      apply separated_cons.mpr
      exact ⟨hlt, fun a ha => hsep.2.1 a (List.mem_cons_of_mem r ha), (separated_cons.mp hsep.2.2).2.2⟩

-- Every one of the ranges can be removed when it is its turn.
def RemovableAll (points : Set Nat) : List Range → Prop
  | [] => True
  | r :: l =>
    RemovablePoints points r.lo r.hi
      ∧
    RemovableAll { x | x ∈ points ∧ ¬(r.lo ≤ x ∧ x < r.hi) } l

-- The points of a spoiled set are never the right ones.
theorem Spoiled.points_ne {rs rs' : RangeSet} {range : Range} {l : List Range}
    (h : Spoiled rs.ranges range rs'.ranges) (hb : ∀ a ∈ rs.ranges, a.Bounded) (hrange : range.Bounded)
    (hs : Separated Range.lo Range.hi (range :: l))
    : ¬∀ x, x ∈ rs'.points ↔ x ∈ rs.points ∧ x ∉ Intervals.points Range.lo Range.hi (range :: l) := by
  intro hpoints
  have hsep := separated_cons.mp hs
  cases h with
  | kept a mem le lt pos =>
    have hmem : a.lo ∈ rs'.points := mem_points_of_mem mem (Nat.le_refl _) pos
    apply ((hpoints a.lo).mp hmem).2
    exact mem_points_of_mem List.mem_cons_self le lt
  | remainder mem =>
    -- The remainder goes on to the end of all numbers.
    have hlo := Range.remainder_lo hrange
    have hhi := Range.remainder_hi hrange hsep.1
    have hlast : 2 ^ 64 - 1 ∈ rs'.points := by
      unfold Range.Bounded at hrange
      exact mem_points_of_mem mem (by omega) (by omega)
    obtain ⟨a, ha, _, hlt⟩ := ((hpoints _).mp hlast).1
    have := hb a ha
    unfold Range.Bounded at this
    omega
  | lost before after =>
    apply after
    apply (hpoints range.hi).mpr
    refine ⟨before, ?_⟩
    rw [mem_points_cons, not_or]
    refine ⟨by omega, ?_⟩
    intro hmem
    have := hs.lt_of_mem_points hmem
    omega

theorem foldlM_remove_iff {l : List Range} {rs : RangeSet} (h : rs.WellFormed)
    (hb : ∀ r ∈ l, r.Bounded) (hs : Separated Range.lo Range.hi l)
    : (∃ rs', l.foldlM (fun rs r => rs.remove r.start r.length) rs = some rs'
        ∧ ∀ x, x ∈ rs'.points ↔ x ∈ rs.points ∧ x ∉ Intervals.points Range.lo Range.hi l)
        ↔
      RemovableAll rs.points l := by
  induction l generalizing rs with
  | nil => exact iff_of_true ⟨rs, rfl, by simp⟩ trivial
  | cons r l ih =>
    have hsep := separated_cons.mp hs
    have hr := hb r List.mem_cons_self
    have hlen : 1 ≤ r.length.toNat := by
      have := hsep.1
      unfold Range.lo Range.hi at this
      omega
    have hremovable : Removable rs.ranges r ↔ RemovablePoints rs.points r.lo r.hi :=
      removable_iff_points h.separated hsep.1
    obtain ⟨res, hres, hiff, hspoiled⟩ : ∃ res, rs.remove r.start r.length = some { rs with ranges := res }
        ∧ (Removed rs.ranges r res ↔ Removable rs.ranges r)
        ∧ (¬Removable rs.ranges r → Spoiled rs.ranges r res) := remove_eq h hlen hr
    have hfold : (r :: l).foldlM (fun rs r => rs.remove r.start r.length) rs
        = l.foldlM (fun rs r => rs.remove r.start r.length) { rs with ranges := res } := by
      rw [List.foldlM_cons, hres]
      rfl
    unfold RemovableAll
    rw [← hremovable, hfold]
    by_cases hok : Removable rs.ranges r
    . have hremoved := hiff.mpr hok
      have hpoints : points { rs with ranges := res }
          = { x | x ∈ rs.points ∧ ¬(r.lo ≤ x ∧ x < r.hi) } := by
        ext x
        exact hremoved.points_iff x
      have ih := @ih { rs with ranges := res } ⟨hremoved.bounded, hremoved.separated⟩
        (fun a ha => hb a (List.mem_cons_of_mem r ha)) hsep.2.2
      rw [and_iff_right hok, ← hpoints, ← ih, hpoints]
      simp only [mem_points_cons, not_or, Set.mem_setOf_eq, and_assoc]
    . refine iff_of_false ?_ fun hall => hok hall.1
      rintro ⟨rs', hrs', hpoints⟩
      have hsorted := (remove_below hr hsep.1 (.of_separated h.separated) hres).sorted
      have hwrong := spoiled_foldlM hr hsep.1 (fun a ha => hb a (List.mem_cons_of_mem r ha)) hs hsorted
        (hspoiled hok) hrs'
      exact hwrong.points_ne h.bounded hr hs hpoints

theorem removableAll_iff {l : List Range} {P : Set Nat} (hs : Separated Range.lo Range.hi l)
    : RemovableAll P l
        ↔
      ∀ r ∈ l,
        RemovablePoints { x | x ∈ P ∧ (x ∉ Intervals.points Range.lo Range.hi l ∨ r.lo ≤ x) } r.lo r.hi := by
  induction l generalizing P with
  | nil => exact iff_of_true trivial (by simp)
  | cons r l ih =>
    have hsep := separated_cons.mp hs
    have hfirst : { x | x ∈ P ∧ (x ∉ Intervals.points Range.lo Range.hi (r :: l) ∨ r.lo ≤ x) } = P := by
      ext x
      rw [Set.mem_setOf_eq, and_iff_left_iff_imp]
      intro _
      by_cases hx : x ∈ Intervals.points Range.lo Range.hi (r :: l)
      . exact .inr (hs.head_lo_le hx)
      . exact .inl hx
    have hnext : ∀ a ∈ l,
        { x | x ∈ { x | x ∈ P ∧ ¬(r.lo ≤ x ∧ x < r.hi) }
          ∧ (x ∉ Intervals.points Range.lo Range.hi l ∨ a.lo ≤ x) }
          = { x | x ∈ P ∧ (x ∉ Intervals.points Range.lo Range.hi (r :: l) ∨ a.lo ≤ x) } := by
      intro a ha
      have hlt := hsep.2.1 a ha
      ext x
      simp only [Set.mem_setOf_eq, mem_points_cons]
      constructor
      . grind
      . grind
    unfold RemovableAll
    rw [ih hsep.2.2, List.forall_mem_cons, hfirst]
    apply and_congr_right
    intro _
    apply forall₂_congr
    intro a ha
    rw [hnext a ha]

/-
A gap between the points of a set, of those before `n`.
-/
structure Hole (points : Set Nat) (n s e : Nat) : Prop where
  lt : s < e
  le : e ≤ n
  free : ∀ x, s ≤ x → x < e → x ∉ points
  start : s = 0 ∨ s - 1 ∈ points
  stop : e = n ∨ e ∈ points

-- The inverse is made of the holes.
theorem forall_hole_iff {l : List Range} {P : Set Nat} {n : Nat} {Q : Nat → Nat → Prop}
    (hs : Separated Range.lo Range.hi l)
    (hl : ∀ x, x ∈ Intervals.points Range.lo Range.hi l ↔ x < n ∧ x ∉ P)
    : (∀ r ∈ l, Q r.lo r.hi) ↔ ∀ s e, Hole P n s e → Q s e := by
  constructor
  . intro hall s e hhole
    obtain ⟨r, hr, h1, h2⟩ := (hs.covers_iff hhole.lt).mp fun x hx1 hx2 =>
      (hl x).mpr ⟨Nat.lt_of_lt_of_le hx2 hhole.le, hhole.free x hx1 hx2⟩
    have hlt := hhole.lt
    have hlo : r.lo = s := by
      by_contra hne
      have hmem := (hl (s - 1)).mp (mem_points_of_mem hr (by omega) (by omega))
      cases hhole.start with
      | inl hzero => omega
      | inr hbefore => exact hmem.2 hbefore
    have hhi : r.hi = e := by
      by_contra hne
      have hmem := (hl e).mp (mem_points_of_mem hr (by omega) (by omega))
      cases hhole.stop with
      | inl heq => omega
      | inr hbehind => exact hmem.2 hbehind
    rw [← hlo, ← hhi]
    exact hall r hr
  . intro hall r hr
    have hlt := hs.lt r hr
    have hmem := fun x h1 h2 => (hl x).mp (mem_points_of_mem hr h1 h2)
    have hn := (hmem (r.hi - 1) (by omega) (by omega)).1
    refine hall r.lo r.hi ⟨hlt, by omega, fun x h1 h2 => (hmem x h1 h2).2, ?_, ?_⟩
    . by_cases hzero : r.lo = 0
      . exact .inl hzero
      . have hbefore := hs.pred_lo_not_mem hr (by omega)
        rw [hl, not_and_not_right] at hbefore
        exact .inr (hbefore (by omega))
    . by_cases heq : r.hi = n
      . exact .inl heq
      . have hbehind := hs.hi_not_mem hr
        rw [hl, not_and_not_right] at hbehind
        exact .inr (hbehind (by omega))

theorem intersection_points_iff {a b : RangeSet} (ha : a.Optimal) (hb : b.WellFormed)
    : (∃ r, a.intersection b = some r ∧ ∀ x, x ∈ r.points ↔ x ∈ a.points ∧ x ∈ b.points)
        ↔
      ∀ s e, Hole b.points (max a.endOffset.toNat (lastEnd b.ranges.getLast?)) s e →
        RemovablePoints { x | x ∈ a.points ∧ (x ∈ b.points ∨ s ≤ x) } s e := by
  have hb2 : WellFormed { b with endOffset := a.endOffset } := ⟨hb.bounded, hb.separated⟩
  obtain ⟨hwf, hpoints, _⟩ := inverse_spec hb2
  have hinverse : ∀ x, x ∈ Intervals.points Range.lo Range.hi (inverse { b with endOffset := a.endOffset }).ranges
      ↔ x < max a.endOffset.toNat (lastEnd b.ranges.getLast?) ∧ x ∉ b.points := hpoints
  have hin : ∀ x ∈ a.points,
      x ∉ Intervals.points Range.lo Range.hi (inverse { b with endOffset := a.endOffset }).ranges
        ↔ x ∈ b.points := by
    rintro x ⟨r, hr, _, hlt⟩
    have hle := ha.hi_le r hr
    rw [hinverse, not_and_not_right]
    exact ⟨fun h => h (by omega), fun h _ => h⟩
  have hfold := foldlM_remove_iff ha.toWellFormed hwf.bounded hwf.separated
  rw [removableAll_iff hwf.separated,
    @forall_hole_iff _ b.points _ (fun s e => RemovablePoints { x | x ∈ a.points
      ∧ (x ∉ Intervals.points Range.lo Range.hi (inverse { b with endOffset := a.endOffset }).ranges
        ∨ s ≤ x) } s e) hwf.separated hinverse] at hfold
  have hset (s : Nat) : { x | x ∈ a.points
      ∧ (x ∉ Intervals.points Range.lo Range.hi (inverse { b with endOffset := a.endOffset }).ranges
        ∨ s ≤ x) } = { x | x ∈ a.points ∧ (x ∈ b.points ∨ s ≤ x) } := by
    ext x
    apply and_congr_right
    intro hx
    rw [hin x hx]
  simp only [hset] at hfold
  rw [← hfold]
  apply exists_congr
  intro r
  apply and_congr Iff.rfl
  apply forall_congr'
  intro x
  apply iff_congr Iff.rfl
  apply and_congr_right
  intro hx
  exact (hin x hx).symm

/--
The two intersections agree if and only if each hole of the other set can be removed from what is left
when it is its turn.
-/
theorem intersection_iff (a b : RangeSet) (ha : a.Optimal) (hb : b.Optimal) (currentStart : UInt64)
    : (∃ r r', a.intersection b = some r ∧ intersectionList currentStart [a, b] = some r'
        ∧ ∀ x, x ∈ r.points ↔ x ∈ r'.points)
        ↔
      ∀ s e, Hole b.points (max a.endOffset.toNat (lastEnd b.ranges.getLast?)) s e →
        RemovablePoints { x | x ∈ a.points ∧ (x ∈ b.points ∨ s ≤ x) } s e := by
  have hwf : ∀ rs ∈ [a, b], rs.WellFormed := by
    intro rs hrs
    cases List.mem_pair.mp hrs with
    | inl heq => rw [heq]; exact ha.toWellFormed
    | inr heq => rw [heq]; exact hb.toWellFormed
  obtain ⟨r', hr', _, hpoints⟩ := intersectionList_spec currentStart hwf (List.cons_ne_nil _ _)
  have hboth : ∀ x, x ∈ r'.points ↔ x ∈ a.points ∧ x ∈ b.points := by
    intro x
    rw [hpoints, and_iff_right (by simp)]
    simp
  rw [← intersection_points_iff ha hb.toWellFormed]
  constructor
  . rintro ⟨r, r'', hr, hr'', hsame⟩
    obtain rfl := Option.some.inj (hr'.symm.trans hr'')
    exact ⟨r, hr, fun x => (hsame x).trans (hboth x)⟩
  . rintro ⟨r, hr, hsame⟩
    exact ⟨r, r', hr, hr', fun x => (hsame x).trans (hboth x).symm⟩

theorem optimal_single {n e : UInt64} (hn : 0 < n.toNat) (he : n.toNat ≤ e.toNat)
    : Optimal { ranges := [⟨0, n⟩], endOffset := e } := by
  have hlo : Range.lo ⟨0, n⟩ = 0 := rfl
  have hhi : Range.hi ⟨0, n⟩ = n.toNat := Nat.zero_add _
  have hlt := n.toNat_lt
  refine ⟨⟨?_, ?_⟩, ?_⟩
  . intro r hr
    rw [List.mem_singleton.mp hr, Range.Bounded, hhi]
    exact hlt
  . apply separated_cons.mpr
    refine ⟨?_, by simp, separated_nil⟩
    rw [hlo, hhi]
    exact hn
  . intro r hr
    rw [List.mem_singleton.mp hr, hhi]
    exact he

theorem points_single {n e : UInt64} (x : Nat)
    : x ∈ points { ranges := [⟨0, n⟩], endOffset := e } ↔ x < n.toNat := by
  unfold points
  rw [mem_points_cons, mem_points_nil, or_false]
  unfold Range.lo Range.hi
  simp

-- `[0, 4)` and `[0, 2)`, where there is a single hole
theorem intersection_iff_hole
    : let a : RangeSet := { ranges := [⟨0, 4⟩], endOffset := 4 }
      let b : RangeSet := { ranges := [⟨0, 2⟩], endOffset := 2 }
      ∃ r r', a.intersection b = some r ∧ intersectionList 0 [a, b] = some r'
        ∧ ∀ x, x ∈ r.points ↔ x ∈ r'.points := by
  intro a b
  have ha : ∀ x, x ∈ a.points ↔ x < 4 := points_single
  have hb : ∀ x, x ∈ b.points ↔ x < 2 := points_single
  apply (intersection_iff a b (optimal_single (by decide) (by decide))
    (optimal_single (by decide) (by decide)) 0).mpr
  intro s e hhole
  have hlt := hhole.lt
  have hfree := hhole.free s (Nat.le_refl s) hlt
  have hstart := hhole.start
  have hstop : e = 4 ∨ e ∈ b.points := hhole.stop
  rw [hb] at hfree hstart hstop
  have hs : s = 2 := by omega
  have he : e = 4 := by omega
  rw [hs, he]
  simp only [ha, hb]
  refine ⟨?_, ?_, ?_⟩
  . intro hnot
    exact absurd ⟨by decide, .inr (Nat.le_refl 2)⟩ hnot
  . intro hnot
    exact absurd ⟨by decide, .inr (Nat.le_refl 2)⟩ hnot
  . rintro _ ⟨⟨hcontra, _⟩, _⟩
    exact absurd hcontra (Nat.lt_irrefl 4)

-- What ends where the hole starts gets a range behind it that goes on to the end of all numbers.
theorem intersection_touching
    : ¬∀ a b : RangeSet, a.Optimal → b.Optimal → ∀ currentStart,
        ∃ r r', a.intersection b = some r ∧ intersectionList currentStart [a, b] = some r'
          ∧ ∀ x, x ∈ r.points ↔ x ∈ r'.points := by
  intro h
  let a : RangeSet := { ranges := [⟨0, 5⟩], endOffset := 10 }
  have ha : a.Optimal := optimal_single (by decide) (by decide)
  obtain ⟨r, r', hr, hr', hsame⟩ := h a a ha ha 0
  have hwf : ∀ rs ∈ [a, a], rs.WellFormed := by
    intro rs hrs
    cases List.mem_pair.mp hrs with
    | inl heq => rw [heq]; exact ha.toWellFormed
    | inr heq => rw [heq]; exact ha.toWellFormed
  obtain ⟨r'', hr'', _, hpoints⟩ := intersectionList_spec 0 hwf (List.cons_ne_nil _ _)
  obtain rfl := Option.some.inj (hr'.symm.trans hr'')
  have hresult : a.intersection a
      = some { ranges := [⟨0, 5⟩, ⟨10, 18446744073709551611⟩], endOffset := 10 } := by
    decide
  have hmem : 10 ∈ r.points := by
    rw [← Option.some.inj (hresult.symm.trans hr)]
    exact ⟨⟨10, 18446744073709551611⟩, by simp, by decide, by decide⟩
  have hin : 10 ∈ a.points := ((hpoints 10).mp ((hsame 10).mp hmem)).2 a List.mem_cons_self
  have := (points_single 10).mp hin
  exact absurd this (by decide)

end RangeSet
end Misc
end ObTools
