import ObTools.Misc.Insert

/-!
This module contains the proof that `RangeSet.inverse` gives the holes of a set. The loop keeps those found so
far, which reach up to the end of the last range.
-/

namespace ObTools
namespace Misc

open Intervals

theorem Range.ext_lo_hi {a b : Range} (hlo : a.lo = b.lo) (hhi : a.hi = b.hi) : a = b := by
  obtain ⟨start, length⟩ := a
  obtain ⟨start', length'⟩ := b
  unfold Range.lo at hlo
  unfold Range.hi at hhi
  dsimp only at hlo hhi
  have hstart : start = start' := UInt64.toNat_inj.mp hlo
  have hlength : length = length' := UInt64.toNat_inj.mp (by omega)
  rw [hstart, hlength]

namespace RangeSet

/-
A well formed set is determined by its points.
-/
theorem WellFormed.ranges_eq {rs rs' : RangeSet} (h : rs.WellFormed) (h' : rs'.WellFormed)
    (hpoints : ∀ x, x ∈ rs.points ↔ x ∈ rs'.points)
    : rs.ranges = rs'.ranges :=
  h.separated.eq_of_points (fun _ _ => Range.ext_lo_hi) h'.separated hpoints

-- The holes in some points up to a position
structure Holes (inverse : List Range) (pos : Nat) (covered : Set Nat) : Prop where
  bounded : ∀ a ∈ inverse, a.Bounded
  separated : Separated Range.lo Range.hi inverse
  before : ∀ a ∈ inverse, a.hi < pos
  points : ∀ x, x ∈ Intervals.points Range.lo Range.hi inverse ↔ x < pos ∧ x ∉ covered

section Holes

variable {inverse : List Range} {pos : Nat} {covered : Set Nat} {hole : Range}

theorem Holes.setInsert_eq (h : Holes inverse pos covered) (hlo : hole.lo = pos)
    : setInsert hole inverse = inverse ++ [hole] := by
  have hlt : ∀ a ∈ inverse, a.lo < hole.lo := by
    intro a ha
    have := h.before a ha
    have := a.lo_le_hi
    omega
  have := @setInsert_append hole inverse [] hlt (by simp)
  rw [List.append_nil] at this
  exact this

/-
There is another hole up to where the next points are.
-/
theorem Holes.insert (h : Holes inverse pos covered) (hlo : hole.lo = pos) (hlt : hole.lo < hole.hi)
    (hb : hole.Bounded) (hfree : ∀ x, hole.lo ≤ x → x < hole.hi → x ∉ covered)
    : (∀ a ∈ setInsert hole inverse, a.Bounded)
        ∧ Separated Range.lo Range.hi (setInsert hole inverse)
        ∧ (∀ a ∈ setInsert hole inverse, a.hi ≤ hole.hi)
        ∧ ∀ x, x ∈ Intervals.points Range.lo Range.hi (setInsert hole inverse)
          ↔ x < hole.hi ∧ x ∉ covered := by
  rw [h.setInsert_eq hlo]
  refine ⟨?_, ?_, ?_, ?_⟩
  . intro a ha
    cases List.mem_append.mp ha with
    | inl ha => exact h.bounded a ha
    | inr ha => rw [List.mem_singleton.mp ha]; exact hb
  . rw [separated_append, separated_cons]
    refine ⟨h.separated, ⟨hlt, by simp, separated_nil⟩, ?_⟩
    intro a ha b hb'
    rw [List.mem_singleton.mp hb', hlo]
    exact h.before a ha
  . intro a ha
    cases List.mem_append.mp ha with
    | inl ha =>
      have := h.before a ha
      omega
    | inr ha => rw [List.mem_singleton.mp ha]
  . intro x
    rw [mem_points_append, h.points, mem_points_cons, mem_points_nil, or_false]
    constructor
    . intro hx
      cases hx with
      | inl hx => exact ⟨by omega, hx.2⟩
      | inr hx => exact ⟨hx.2, hfree x hx.1 hx.2⟩
    . intro hx
      by_cases hpos : x < pos
      . exact .inl ⟨hpos, hx.2⟩
      . exact .inr ⟨by omega, hx.1⟩

-- The range behind the hole has no holes in it
theorem Holes.next (h : Holes inverse pos covered) {r : Range} (hlo : hole.lo = pos)
    (hhi : hole.hi = r.lo) (hlt : pos < r.lo) (hr : r.lo < r.hi) (hb : r.Bounded)
    (hfree : ∀ x, pos ≤ x → x < r.lo → x ∉ covered) (hin : ∀ x, r.lo ≤ x → x < r.hi → x ∈ covered)
    : Holes (setInsert hole inverse) r.hi covered := by
  have hbounded : hole.Bounded := by
    unfold Range.Bounded at *
    omega
  obtain ⟨hb', hsep, hbefore, hpoints⟩ := h.insert hlo (by omega) hbounded (by rw [hlo, hhi]; exact hfree)
  refine ⟨hb', hsep, ?_, ?_⟩
  . intro a ha
    have := hbefore a ha
    omega
  . intro x
    rw [hpoints, hhi]
    constructor
    . intro hx
      exact ⟨by omega, hx.2⟩
    . intro hx
      refine ⟨?_, hx.2⟩
      by_contra hge
      exact hx.2 (hin x (by omega) hx.1)

end Holes

-- Where the hole behind the last range starts
def lastEnd (last : Option Range) : Nat := (last.map Range.hi).getD 0

theorem hi_le_lastEnd {ranges : List Range} (hs : Separated Range.lo Range.hi ranges)
    : ∀ a ∈ ranges, a.hi ≤ lastEnd ranges.getLast? := by
  intro a ha
  cases hlast : ranges.getLast? with
  | none =>
    rw [List.getLast?_eq_none_iff.mp hlast] at ha
    cases ha
  | some b =>
    obtain ⟨front, rfl⟩ := List.getLast?_eq_some_iff.mp hlast
    change a.hi ≤ b.hi
    cases List.mem_append.mp ha with
    | inl ha =>
      have := (separated_append.mp hs).2.2 a ha b List.mem_cons_self
      have := b.lo_le_hi
      omega
    | inr ha => rw [List.mem_singleton.mp ha]

theorem hole_hi {pos s : UInt64} (h : pos.toNat ≤ s.toNat)
    : Range.hi { start := pos, length := s - pos } = s.toNat := by
  unfold Range.hi
  dsimp only
  rw [Range.sub_toNat h]
  omega

theorem inverseLoop_spec {inverse before rest : List Range} (hb : ∀ r ∈ before ++ rest, r.Bounded)
    (hs : Separated Range.lo Range.hi (before ++ rest))
    (h : Holes inverse (lastEnd before.getLast?) (Intervals.points Range.lo Range.hi (before ++ rest)))
    : ∃ inverse',
        inverseLoop inverse before.getLast? rest = (inverse', (before ++ rest).getLast?)
          ∧
        Holes inverse' (lastEnd (before ++ rest).getLast?)
          (Intervals.points Range.lo Range.hi (before ++ rest)) := by
  induction rest generalizing inverse before with
  | nil =>
    rw [List.append_nil] at *
    exact ⟨inverse, rfl, h⟩
  | cons r rest ih =>
    have hsplit : before ++ r :: rest = (before ++ [r]) ++ rest := by simp
    have hlast : (before ++ [r]).getLast? = some r := List.getLast?_concat
    have hr : r.lo < r.hi := hs.lt r (by simp)
    have hrb : r.Bounded := hb r (by simp)
    have hmem : r ∈ before ++ r :: rest := by simp
    have hin : ∀ x, r.lo ≤ x → x < r.hi → x ∈ Intervals.points Range.lo Range.hi (before ++ r :: rest) :=
      fun x h1 h2 => mem_points_of_mem hmem h1 h2
    have hsep := separated_append.mp hs
    have hpos := hi_le_lastEnd hsep.1
    have hfree : ∀ x, lastEnd before.getLast? ≤ x → x < r.lo →
        x ∉ Intervals.points Range.lo Range.hi (before ++ r :: rest) := by
      intro x h1 h2 hx
      rw [mem_points_append] at hx
      cases hx with
      | inl hx =>
        obtain ⟨a, ha, _, h3⟩ := hx
        have := hpos a ha
        omega
      | inr hx =>
        have := hsep.2.1.head_lo_le hx
        omega
    have hnext : ∀ inverse', Holes inverse' r.hi
        (Intervals.points Range.lo Range.hi (before ++ r :: rest)) → ∃ inverse'',
          inverseLoop inverse' (some r) rest = (inverse'', (before ++ r :: rest).getLast?)
            ∧
          Holes inverse'' (lastEnd (before ++ r :: rest).getLast?)
            (Intervals.points Range.lo Range.hi (before ++ r :: rest)) := by
      intro inverse' hinverse'
      have := @ih inverse' (before ++ [r])
      rw [← hsplit, hlast] at this
      exact this hb hs hinverse'
    cases hlast' : before.getLast? with
    | none =>
      rw [hlast'] at h hfree
      unfold inverseLoop
      dsimp only
      split
      . next hpositive =>
        rw [gt_iff_lt, UInt64.lt_iff_toNat_lt] at hpositive
        apply hnext
        refine @Holes.next inverse 0 _ { start := 0, length := r.start } h r rfl ?_ hpositive hr hrb
          hfree hin
        simp [Range.hi, Range.lo]
      . next hzero =>
        have hstart : r.lo = 0 := by
          rw [gt_iff_lt, UInt64.lt_iff_toNat_lt] at hzero
          change ¬ 0 < r.lo at hzero
          omega
        apply hnext
        -- There is no hole in front of the first range.
        have hnil : inverse = [] := by
          cases inverse with
          | nil => rfl
          | cons a inverse =>
            have : a.hi < 0 := h.before a List.mem_cons_self
            omega
        rw [hnil]
        refine ⟨by simp, separated_nil, by simp, ?_⟩
        intro x
        rw [mem_points_nil, false_iff, not_and_not_right]
        exact hin x (by omega)
    | some last =>
      rw [hlast'] at h hfree
      have hmemlast : last ∈ before := List.mem_of_getLast? hlast'
      have hlt : last.hi < r.lo := hsep.2.2 last hmemlast r List.mem_cons_self
      have hend : last.end.toNat = last.hi := Range.end_toNat (hb last (by simp [hmemlast]))
      have hlo : Range.lo { start := last.end, length := r.start - last.end } = last.hi := hend
      have hhi : Range.hi { start := last.end, length := r.start - last.end } = r.lo := by
        apply hole_hi
        unfold Range.lo at hlt
        omega
      apply hnext
      exact h.next hlo hhi hlt hr hrb hfree hin

/-
Behind the last range there are holes up to the end offset only, but those before it are all there.
-/
theorem inverse_spec {rs : RangeSet} (h : rs.WellFormed)
    : rs.inverse.WellFormed
        ∧ (∀ x, x ∈ rs.inverse.points
          ↔ x < max rs.endOffset.toNat (lastEnd rs.ranges.getLast?) ∧ x ∉ rs.points)
        ∧ rs.inverse.endOffset = rs.endOffset := by
  have hstart : Holes [] (lastEnd ([] : List Range).getLast?)
      (Intervals.points Range.lo Range.hi ([] ++ rs.ranges)) := by
    refine ⟨by simp, separated_nil, by simp, ?_⟩
    intro x
    simp [lastEnd]
  obtain ⟨inverse, hloop, hholes⟩ := @inverseLoop_spec [] [] rs.ranges h.bounded h.separated hstart
  have hloop : inverseLoop [] none rs.ranges = (inverse, rs.ranges.getLast?) := hloop
  rw [List.nil_append] at hholes
  have hfree : ∀ x, lastEnd rs.ranges.getLast? ≤ x → x ∉ rs.points := by
    intro x hx hmem
    obtain ⟨a, ha, _, h2⟩ := hmem
    have := hi_le_lastEnd h.separated a ha
    omega
  have hunchanged : rs.endOffset.toNat ≤ lastEnd rs.ranges.getLast? →
      WellFormed { ranges := inverse, endOffset := rs.endOffset }
        ∧ ∀ x, x ∈ points { ranges := inverse, endOffset := rs.endOffset }
          ↔ x < max rs.endOffset.toNat (lastEnd rs.ranges.getLast?) ∧ x ∉ rs.points := by
    intro hle
    refine ⟨⟨hholes.bounded, hholes.separated⟩, ?_⟩
    intro x
    rw [Nat.max_eq_right hle]
    exact hholes.points x
  have hextended : ∀ hole : Range, hole.lo = lastEnd rs.ranges.getLast? →
      hole.hi = rs.endOffset.toNat → hole.lo < hole.hi →
        WellFormed { ranges := setInsert hole inverse, endOffset := rs.endOffset }
          ∧ ∀ x, x ∈ points { ranges := setInsert hole inverse, endOffset := rs.endOffset }
            ↔ x < max rs.endOffset.toNat (lastEnd rs.ranges.getLast?) ∧ x ∉ rs.points := by
    intro hole hlo hhi hlt
    have hb : hole.Bounded := by
      unfold Range.Bounded
      rw [hhi]
      exact rs.endOffset.toNat_lt
    obtain ⟨hbounded, hsep, _, hpoints⟩ := hholes.insert hlo hlt hb
      fun x h1 _ => hfree x (by omega)
    refine ⟨⟨hbounded, hsep⟩, ?_⟩
    intro x
    rw [Nat.max_eq_left (by omega), ← hhi]
    exact hpoints x
  unfold RangeSet.inverse
  rw [hloop]
  cases hlast : rs.ranges.getLast? with
  | none =>
    rw [hlast] at hunchanged hextended
    dsimp only
    split
    . next hpositive =>
      rw [gt_iff_lt, UInt64.lt_iff_toNat_lt] at hpositive
      have hhi : Range.hi { start := 0, length := rs.endOffset } = rs.endOffset.toNat := by
        simp [Range.hi]
      obtain ⟨hwf, hpoints⟩ := hextended { start := 0, length := rs.endOffset } rfl hhi
        (by rw [hhi]; exact hpositive)
      exact ⟨hwf, hpoints, rfl⟩
    . next hzero =>
      rw [gt_iff_lt, UInt64.lt_iff_toNat_lt] at hzero
      have hzero : rs.endOffset.toNat = 0 := Nat.le_zero.mp (Nat.le_of_not_lt hzero)
      obtain ⟨hwf, hpoints⟩ := hunchanged (by omega)
      exact ⟨hwf, hpoints, rfl⟩
  | some last =>
    rw [hlast] at hunchanged hextended
    have hend : last.end.toNat = last.hi := Range.end_toNat (h.bounded last (List.mem_of_getLast? hlast))
    dsimp only
    split
    . next hgt =>
      rw [gt_iff_lt, UInt64.lt_iff_toNat_lt] at hgt
      have hhi : Range.hi { start := last.end, length := rs.endOffset - last.end }
          = rs.endOffset.toNat := hole_hi hgt.le
      have hlo : Range.lo { start := last.end, length := rs.endOffset - last.end } = last.hi := hend
      obtain ⟨hwf, hpoints⟩ := hextended { start := last.end, length := rs.endOffset - last.end } hlo hhi
        (by rw [hlo, hhi, ← hend]; exact hgt)
      exact ⟨hwf, hpoints, rfl⟩
    . next hle =>
      rw [gt_iff_lt, UInt64.lt_iff_toNat_lt] at hle
      have hle : rs.endOffset.toNat ≤ last.hi := by omega
      obtain ⟨hwf, hpoints⟩ := hunchanged hle
      exact ⟨hwf, hpoints, rfl⟩

theorem lastEnd_le {rs : RangeSet} (h : ∀ r ∈ rs.ranges, r.hi ≤ rs.endOffset.toNat)
    : lastEnd rs.ranges.getLast? ≤ rs.endOffset.toNat := by
  cases hlast : rs.ranges.getLast? with
  | none => exact Nat.zero_le _
  | some last => exact h last (List.mem_of_getLast? hlast)

/--
The inverse of the inverse has the same points up to the end offset, which are all points of the set.
-/
theorem inverse_holes (rs : RangeSet) (h : rs.WellFormed)
    (hend : ∀ r ∈ rs.ranges, r.hi ≤ rs.endOffset.toNat)
    : rs.inverse.WellFormed
        ∧ (∀ x, x ∈ rs.inverse.points ↔ x < rs.endOffset.toNat ∧ x ∉ rs.points)
        ∧ rs.inverse.endOffset = rs.endOffset
        ∧ rs.inverse.inverse.ranges = rs.ranges := by
  obtain ⟨hwf, hpoints, hoffset⟩ := inverse_spec h
  rw [Nat.max_eq_left (lastEnd_le hend)] at hpoints
  refine ⟨hwf, hpoints, hoffset, ?_⟩
  obtain ⟨hwf2, hpoints2, _⟩ := inverse_spec hwf
  have hend2 : ∀ r ∈ rs.inverse.ranges, r.hi ≤ rs.inverse.endOffset.toNat := by
    intro r hr
    have hlt := hwf.separated.lt r hr
    have hmem : r.hi - 1 ∈ rs.inverse.points := mem_points_of_mem hr (by omega) (by omega)
    have := (hpoints _).mp hmem
    rw [hoffset]
    omega
  rw [Nat.max_eq_left (lastEnd_le hend2), hoffset] at hpoints2
  apply hwf2.ranges_eq h
  intro x
  rw [hpoints2, hpoints, not_and_not_right]
  constructor
  . intro hx
    exact hx.2 hx.1
  . intro hx
    refine ⟨?_, fun _ => hx⟩
    obtain ⟨r, hr, _, h2⟩ := hx
    have := hend r hr
    omega

theorem inverse_holes_pair
    : let rs : RangeSet := { ranges := [⟨2, 3⟩, ⟨10, 10⟩], endOffset := 25 }
      (∀ x, x ∈ rs.inverse.points ↔ x < 25 ∧ x ∉ rs.points) ∧ rs.inverse.inverse.ranges = rs.ranges := by
  have hb : ∀ r ∈ [Range.mk 2 3, Range.mk 10 10], r.hi < 2 ^ 64 ∧ r.hi ≤ 25 := by decide
  have hwf : WellFormed { ranges := [⟨2, 3⟩, ⟨10, 10⟩], endOffset := 25 } :=
    ⟨fun r hr => (hb r hr).1, by decide, by decide⟩
  obtain ⟨_, hpoints, _, hinverse⟩ := inverse_holes _ hwf fun r hr => (hb r hr).2
  exact ⟨hpoints, hinverse⟩

end RangeSet
end Misc
end ObTools
