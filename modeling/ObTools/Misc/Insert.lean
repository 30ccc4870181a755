import ObTools.Misc.RangeLemmas

/-!
This module contains the proof that `RangeSet.insert` computes unions. The iterator it starts from
cuts the set at the last range that ends before the new one, and what `eat` leaves behind is out of
reach of the range that has grown.
-/

namespace ObTools
namespace Misc
namespace RangeSet

open Intervals

variable {ranges l : List Range} {range : Range}

structure InsertCut (ranges : List Range) (range : Range) (it : Cursor) : Prop where
  ranges_eq : it.before ++ it.rest = ranges
  before_lt : ∀ a ∈ it.before, a.hi < range.lo
  rest_ge : ∀ a ∈ it.rest, range.lo ≤ a.hi

theorem insertCursor_cut (hb : ∀ r ∈ ranges, r.Bounded)
    (hs : Separated Range.lo Range.hi ranges)
    : InsertCut ranges range (insertCursor ranges range) := by
  have hranges : _ = ranges := Cursor.lowerBound_ranges (r := range)
  have hbefore : ∀ a ∈ (Cursor.lowerBound ranges range).before, a.lo < range.lo := by
    intro a ha
    exact Cursor.lo_lt_of_mem_before ha
  have hrest : ∀ a ∈ (Cursor.lowerBound ranges range).rest, range.lo ≤ a.lo := by
    intro a ha
    exact Cursor.le_lo_of_mem_rest hs ha
  have hge : ∀ a ∈ (Cursor.lowerBound ranges range).rest, range.lo ≤ a.hi := by
    intro a ha
    have := hrest a ha
    have := a.lo_le_hi
    omega
  unfold insertCursor
  generalize Cursor.lowerBound ranges range = it at *
  dsimp only
  rw [← hranges, separated_append] at hs
  split
  . next hpast =>
    obtain ⟨before, p, hp, hprev⟩ := Cursor.stepBack_of_pastStart hpast
    rw [hp] at hranges hbefore hs
    rw [hprev]
    dsimp only
    have hpend : p.end.toNat = p.hi := by
      apply Range.end_toNat
      apply hb
      simp [← hranges]
    have hpsep := (separated_append.mp hs.1).2.2
    split
    . next hlt =>
      rw [UInt64.lt_iff_toNat_lt, hpend] at hlt
      refine ⟨by rw [hp]; exact hranges, ?_, hge⟩
      intro a ha
      rw [hp] at ha
      cases List.mem_append.mp ha with
      | inl ha =>
        have := hpsep a ha p (by simp)
        have := p.lo_le_hi
        unfold Range.lo at *
        omega
      | inr ha =>
        rw [List.mem_singleton.mp ha]
        exact hlt
    . next hlt =>
      rw [UInt64.lt_iff_toNat_lt, hpend] at hlt
      refine ⟨by simpa using hranges, ?_, ?_⟩
      . intro a ha
        have := hpsep a ha p (by simp)
        have := hbefore p (by simp)
        omega
      . intro a ha
        cases List.mem_cons.mp ha with
        | inl heq =>
          rw [heq]
          exact Nat.le_of_not_lt hlt
        | inr ha => exact hge a ha
  . next hpast =>
    refine ⟨hranges, ?_, hge⟩
    intro a ha
    cases Cursor.of_not_pastStart hpast with
    | inl hnil => simp [hnil] at ha
    | inr hex =>
      -- There is a range that starts where the new one does.
      obtain ⟨b, rest, hit, hbs⟩ := hex
      rw [UInt64.le_iff_toNat_le] at hbs
      have := hs.2.2 a ha b (by simp [hit])
      unfold Range.lo at *
      omega

/-
What is known of the result of eating ranges of `l` with `range`.
-/
structure Eaten (range : Range) (l : List Range) (range' : Range) (rest : List Range) : Prop where
  lo_le : range'.lo ≤ range.lo
  le_hi : range.hi ≤ range'.hi
  lo_eq : range'.lo = range.lo ∨ ∃ r ∈ l, range'.lo = r.lo
  hi_eq : range'.hi = range.hi ∨ ∃ r ∈ l, range'.hi = r.hi
  rest_suffix : rest <:+ l
  rest_gt : ∀ r ∈ rest, range'.hi < r.lo
  points_iff : ∀ x,
    x ∈ Intervals.points Range.lo Range.hi (range' :: rest)
      ↔
    x ∈ Intervals.points Range.lo Range.hi (range :: l)

theorem eat_eaten (hr : range.Bounded) (hb : ∀ r ∈ l, r.Bounded)
    (hs : Separated Range.lo Range.hi l) (hge : ∀ r ∈ l, range.lo ≤ r.hi)
    : Eaten range l (eat range l).1 (eat range l).2 := by
  induction l generalizing range with
  | nil =>
    constructor <;> simp [eat]
  | cons it l ih =>
    have hitb := hb it (by simp)
    have hitge := hge it (by simp)
    rw [separated_cons] at hs
    unfold eat
    split
    . next hover =>
      rw [Range.overlapsWith_iff hitb hr] at hover
      have hlo := Range.merge_lo (a := range) (b := it)
      have hhi := Range.merge_hi hr hitb
      have ih := @ih (range.merge it) ?_ ?_ hs.2.2 ?_
      . constructor
        . have := ih.lo_le
          omega
        . have := ih.le_hi
          omega
        . cases ih.lo_eq with
          | inl heq =>
            simp only [List.mem_cons, exists_eq_or_imp]
            omega
          | inr hex =>
            obtain ⟨r, hrl, heq⟩ := hex
            exact Or.inr ⟨r, by simp [hrl], heq⟩
        . cases ih.hi_eq with
          | inl heq =>
            simp only [List.mem_cons, exists_eq_or_imp]
            omega
          | inr hex =>
            obtain ⟨r, hrl, heq⟩ := hex
            exact Or.inr ⟨r, by simp [hrl], heq⟩
        . exact ih.rest_suffix.trans (List.suffix_cons it l)
        . exact ih.rest_gt
        . intro x
          rw [ih.points_iff]
          exact mem_points_merge hlo hhi hover.2 hover.1
      . unfold Range.Bounded at *
        omega
      . intro r hrl
        exact hb r (by simp [hrl])
      . intro r hrl
        have := hs.2.1 r hrl
        have := r.lo_le_hi
        have := it.lo_le_hi
        omega
    . next hover =>
      rw [Range.overlapsWith_iff hitb hr] at hover
      have hgt : range.hi < it.lo := by omega
      constructor
      . exact Nat.le_refl _
      . exact Nat.le_refl _
      . exact Or.inl rfl
      . exact Or.inl rfl
      . exact List.suffix_refl _
      . intro r hrl
        cases List.mem_cons.mp hrl with
        | inl heq => rw [heq]; exact hgt
        | inr hrl =>
          have := hs.2.1 r hrl
          have := it.lo_le_hi
          change range.hi < r.lo
          omega
      . intro x
        exact Iff.rfl

namespace Eaten

variable {before l0 rest : List Range} {r r' : Range} (h : Eaten r l0 r' rest)
include h

theorem mem_of_mem_rest {a : Range} (ha : a ∈ rest) : a ∈ l0 := h.rest_suffix.subset ha

-- The ranges before the iterator keep their distance, whatever has been eaten.
theorem before_lt (hs : Separated Range.lo Range.hi (before ++ l0))
    (hlt : ∀ a ∈ before, a.hi < r.lo)
    : ∀ a ∈ before, a.hi < r'.lo := by
  intro a ha
  rw [separated_append] at hs
  cases h.lo_eq with
  | inl heq =>
    rw [heq]
    exact hlt a ha
  | inr hex =>
    obtain ⟨b, hb, heq⟩ := hex
    rw [heq]
    exact hs.2.2 a ha b hb

theorem separated (hs : Separated Range.lo Range.hi (before ++ l0))
    (hlt : ∀ a ∈ before, a.hi < r.lo) (hr : r.lo < r.hi)
    : Separated Range.lo Range.hi (before ++ r' :: rest) := by
  have hbefore := h.before_lt hs hlt
  have hlo := h.lo_le
  have hhi := h.le_hi
  rw [separated_append] at hs
  rw [separated_append, separated_cons]
  refine ⟨hs.1, ⟨by omega, h.rest_gt, ?_⟩, ?_⟩
  . obtain ⟨eaten, heaten⟩ := h.rest_suffix
    rw [← heaten, separated_append] at hs
    exact hs.2.1.2.1
  . intro a ha b hb
    cases List.mem_cons.mp hb with
    | inl heq =>
      rw [heq]
      exact hbefore a ha
    | inr hb => exact hs.2.2 a ha b (h.mem_of_mem_rest hb)

theorem setInsert_eq (hs : Separated Range.lo Range.hi (before ++ l0))
    (hlt : ∀ a ∈ before, a.hi < r.lo)
    : setInsert r' (before ++ rest) = before ++ r' :: rest := by
  apply setInsert_append
  . intro a ha
    have := h.before_lt hs hlt a ha
    have := a.lo_le_hi
    omega
  . intro a ha
    have := h.rest_gt a ha
    have := r'.lo_le_hi
    omega

theorem hi_le_max {n : Nat} (hn : ∀ a ∈ l0, a.hi ≤ n) : r'.hi ≤ max n r.hi := by
  cases h.hi_eq with
  | inl heq => omega
  | inr hex =>
    obtain ⟨a, ha, heq⟩ := hex
    have := hn a ha
    omega

theorem mem_points_iff {x : Nat}
    : x ∈ Intervals.points Range.lo Range.hi (before ++ r' :: rest)
        ↔
      x ∈ Intervals.points Range.lo Range.hi (before ++ l0) ∨ (r.lo ≤ x ∧ x < r.hi) := by
  rw [mem_points_append, h.points_iff, mem_points_append, mem_points_cons, or_left_comm, or_comm]

end Eaten

/-
On top of being well formed, what holds in a set that only ever had ranges inserted.
-/
structure Optimal (rs : RangeSet) : Prop extends WellFormed rs where
  hi_le : ∀ r ∈ rs.ranges, r.hi ≤ rs.endOffset.toNat

variable {rs : RangeSet} {start length : UInt64}

theorem insert_of_length_zero : rs.insert start 0 = rs := by
  simp [insert]

theorem insert_endOffset_toNat {e : UInt64} (hb : range.Bounded)
    : (if range.end > e then range.end else e).toNat = max e.toNat range.hi := by
  split
  . next hgt =>
    rw [gt_iff_lt, UInt64.lt_iff_toNat_lt, Range.end_toNat hb] at hgt
    rw [Range.end_toNat hb]
    omega
  . next hgt =>
    rw [gt_iff_lt, UInt64.lt_iff_toNat_lt, Range.end_toNat hb] at hgt
    omega

theorem insert_spec (h : rs.Optimal) (hlen : length ≠ 0) (hb : Range.Bounded { start, length })
    : (rs.insert start length).Optimal
        ∧
      (∀ x, x ∈ (rs.insert start length).points
        ↔ x ∈ rs.points ∨ (start.toNat ≤ x ∧ x < start.toNat + length.toNat))
        ∧
      (rs.insert start length).endOffset.toNat
        = max rs.endOffset.toNat (start.toNat + length.toNat) := by
  have hcut : InsertCut rs.ranges { start, length } _ := insertCursor_cut h.bounded h.separated
  unfold insert
  rw [if_neg hlen]
  dsimp only
  generalize insertCursor rs.ranges { start, length } = it at *
  have hsep := h.separated
  rw [← hcut.ranges_eq] at hsep
  have hmem : ∀ r ∈ it.rest, r ∈ rs.ranges := by
    intro r hr
    simp [← hcut.ranges_eq, hr]
  have heat := eat_eaten hb ?_ (separated_append.mp hsep).2.1 hcut.rest_ge
  case refine_1 =>
    intro r hr
    exact h.bounded r (hmem r hr)
  generalize eat { start, length } it.rest = res at *
  obtain ⟨range, rest⟩ := res
  dsimp only at *
  have hne : Range.lo { start, length } < Range.hi { start, length } := by
    have : length.toNat ≠ 0 := by
      intro heq
      exact hlen (UInt64.toNat_inj.mp heq)
    unfold Range.lo Range.hi
    dsimp only
    omega
  have hmax : range.hi ≤ max rs.endOffset.toNat (start.toNat + length.toNat) := by
    apply heat.hi_le_max
    intro r hr
    exact h.hi_le r (hmem r hr)
  have hle : start.toNat + length.toNat ≤ range.hi := heat.le_hi
  have hrange : range.Bounded := by
    have := rs.endOffset.toNat_lt
    unfold Range.Bounded Range.hi at *
    dsimp only at hb
    omega
  have hend := insert_endOffset_toNat (e := rs.endOffset) hrange
  rw [heat.setInsert_eq hsep hcut.before_lt]
  refine ⟨⟨⟨?_, heat.separated hsep hcut.before_lt hne⟩, ?_⟩, ?_, ?_⟩
  . intro r hr
    simp only [List.mem_append, List.mem_cons] at hr
    rcases hr with hr | hr | hr
    . exact h.bounded r (by simp [← hcut.ranges_eq, hr])
    . rw [hr]
      exact hrange
    . exact h.bounded r (hmem r (heat.mem_of_mem_rest hr))
  . intro r hr
    simp only [List.mem_append, List.mem_cons] at hr
    dsimp only
    rw [hend]
    rcases hr with hr | hr | hr
    . have := h.hi_le r (by simp [← hcut.ranges_eq, hr])
      omega
    . rw [hr]
      omega
    . have := h.hi_le r (hmem r (heat.mem_of_mem_rest hr))
      omega
  . intro x
    unfold points
    rw [← hcut.ranges_eq]
    exact heat.mem_points_iff
  . omega

-- What a call inserts, given as the ranges it goes through.
inductive InsertOp where
  | insert (start length : UInt64)
  | insertSet (o : RangeSet)

def InsertOp.intervals : InsertOp → List Range
  | .insert start length => [{ start, length }]
  | .insertSet o => o.ranges

def InsertOp.apply (rs : RangeSet) : InsertOp → RangeSet
  | .insert start length => rs.insert start length
  | .insertSet o => rs.insertSet o

def runInserts (rs : RangeSet) (ops : List InsertOp) : RangeSet := ops.foldl InsertOp.apply rs

def maxEnd (e : Nat) (intervals : List Range) : Nat :=
  (intervals.filter (·.length ≠ 0)).foldl (fun e r => max e r.hi) e

theorem runInserts_eq_foldl (ops : List InsertOp)
    : rs.runInserts ops
        =
      (ops.flatMap InsertOp.intervals).foldl (fun rs r => rs.insert r.start r.length) rs := by
  unfold runInserts
  rw [List.foldl_flatMap]
  congr
  funext rs op
  cases op <;> rfl

theorem foldl_insert_spec (h : rs.Optimal) (hb : ∀ r ∈ l, r.Bounded)
    : (l.foldl (fun rs r => rs.insert r.start r.length) rs).Optimal
        ∧
      (∀ x, x ∈ (l.foldl (fun rs r => rs.insert r.start r.length) rs).points
        ↔ x ∈ rs.points ∨ x ∈ Intervals.points Range.lo Range.hi l)
        ∧
      (l.foldl (fun rs r => rs.insert r.start r.length) rs).endOffset.toNat
        = maxEnd rs.endOffset.toNat l := by
  induction l generalizing rs with
  | nil => simp [h, maxEnd]
  | cons r l ih =>
    have hl : ∀ a ∈ l, a.Bounded := fun a ha => hb a (by simp [ha])
    rw [List.foldl_cons]
    by_cases hlen : r.length = 0
    . rw [hlen, insert_of_length_zero]
      have ih := ih h hl
      refine ⟨ih.1, ?_, ?_⟩
      . intro x
        rw [ih.2.1, mem_points_cons]
        have : ¬(r.lo ≤ x ∧ x < r.hi) := by
          unfold Range.lo Range.hi
          rw [hlen]
          simp
        simp only [this, false_or]
      . rw [ih.2.2]
        simp [maxEnd, hlen]
    . have hr : Range.Bounded { start := r.start, length := r.length } := hb r (by simp)
      have hspec := insert_spec h hlen hr
      have ih := ih hspec.1 hl
      refine ⟨ih.1, ?_, ?_⟩
      . intro x
        rw [ih.2.1, hspec.2.1, mem_points_cons, or_assoc]
        rfl
      . rw [ih.2.2, hspec.2.2]
        simp [maxEnd, hlen]
        rfl

theorem new_optimal (e : UInt64) : (new e).Optimal := by
  refine ⟨⟨?_, ?_⟩, ?_⟩ <;> simp [new]

theorem runInserts_spec (e : UInt64) (ops : List InsertOp)
    (hb : ∀ op ∈ ops, ∀ r ∈ op.intervals, r.Bounded)
    : let rs := (new e).runInserts ops
      rs.WellFormed
        ∧
      rs.ranges.Pairwise (fun a b => a.start < b.start)
        ∧
      rs.points = Intervals.points Range.lo Range.hi (ops.flatMap InsertOp.intervals)
        ∧
      rs.endOffset.toNat = maxEnd e.toNat (ops.flatMap InsertOp.intervals)
        ∧
      ∀ start length : UInt64,
        1 ≤ length.toNat → start.toNat + length.toNat < 2 ^ 64 →
          (rs.contains start length = true
            ↔ ∀ x, start.toNat ≤ x → x < start.toNat + length.toNat → x ∈ rs.points) := by
  intro rs
  have hspec := foldl_insert_spec (l := ops.flatMap InsertOp.intervals) (new_optimal e) ?_
  . rw [← runInserts_eq_foldl] at hspec
    refine ⟨hspec.1.toWellFormed, hspec.1.sorted, ?_, hspec.2.2, ?_⟩
    . ext x
      rw [hspec.2.1]
      simp [points, new]
    . intro start length hlen hend
      exact contains_iff hspec.1.toWellFormed hlen hend
  . intro r hr
    obtain ⟨op, hop, hr⟩ := List.mem_flatMap.mp hr
    exact hb op hop r hr

theorem runInserts_spec_touching
    : let ops := [.insert 3 2, .insert 8 0, .insert 0 1, .insertSet ((new 0).insert 1 2)]
      (new 0).runInserts ops = { ranges := [{ start := 0, length := 5 }], endOffset := 5 }
        ∧
      ((new 0).runInserts ops).WellFormed := by
  have hb : ∀ op ∈ [.insert 3 2, .insert 8 0, .insert 0 1, .insertSet ((new 0).insert 1 2)],
      ∀ r ∈ InsertOp.intervals op, r.hi < 2 ^ 64 := by
    decide
  exact ⟨by decide, (runInserts_spec 0 _ hb).1⟩

-- An empty range is ignored, even if it lies beyond the end of everything else.
theorem insert_empty_keeps_endOffset
    : ¬∀ (e : UInt64) (ops : List InsertOp),
        (∀ op ∈ ops, ∀ r ∈ op.intervals, r.Bounded) →
          ((new e).runInserts ops).endOffset.toNat
            = (ops.flatMap InsertOp.intervals).foldl (fun e r => max e r.hi) e.toNat := by
  intro h
  have hb : ∀ op ∈ [InsertOp.insert 5 0], ∀ r ∈ op.intervals, r.hi < 2 ^ 64 := by
    decide
  have := h 0 [.insert 5 0] hb
  revert this
  decide

end RangeSet
end Misc
end ObTools
