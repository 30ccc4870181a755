import ObTools.Misc.RemoveLoop

/-!
This module contains the exact condition under which `RangeSet.remove` computes a difference. It
depends on where the removed range starts, because the iterator is put on the range before it
without a look at whether that range reaches it.
-/

namespace ObTools
namespace Misc
namespace RangeSet

open Intervals

def StartsInGap (ranges : List Range) (range : Range) : Prop :=
  (∃ p ∈ ranges, p.lo < range.lo) ∧ ∀ r ∈ ranges, ¬(r.lo ≤ range.lo ∧ range.lo ≤ r.hi)

def StartsAtEnd (ranges : List Range) (range : Range) : Prop :=
  ∃ p ∈ ranges, p.lo < range.lo ∧ p.hi = range.lo

/-
In a gap the loop stops at once. At the end of a range it leaves a remainder behind that the next
overlapping range has to get rid of. Otherwise only a range that starts at the end of the removed
one goes wrong.
-/
structure Removable (ranges : List Range) (range : Range) : Prop where
  inGap : StartsInGap ranges range → ∀ r ∈ ranges, range.lo < r.lo → range.hi ≤ r.lo
  atEnd : StartsAtEnd ranges range →
    (∃ r ∈ ranges, range.lo < r.lo ∧ r.lo < range.hi)
      ∧ range.hi ∉ Intervals.points Range.lo Range.hi ranges
  touching : ¬StartsInGap ranges range → ¬StartsAtEnd ranges range →
    ∀ r ∈ ranges, r.lo ≠ range.hi

structure Removed (ranges : List Range) (range : Range) (res : List Range) : Prop where
  bounded : ∀ r ∈ res, r.Bounded
  separated : Separated Range.lo Range.hi res
  points_iff : ∀ x,
    x ∈ Intervals.points Range.lo Range.hi res
      ↔
    x ∈ Intervals.points Range.lo Range.hi ranges ∧ ¬(range.lo ≤ x ∧ x < range.hi)

/-
What a removal that goes wrong does: it keeps a range that starts within the removed one, it makes a
remainder, or it loses what comes right behind the removed range.
-/
inductive Spoiled (ranges : List Range) (range : Range) (res : List Range) : Prop where
  | kept (a : Range) (mem : a ∈ res) (le : range.lo ≤ a.lo) (lt : a.lo < range.hi) (pos : a.lo < a.hi)
  | remainder (mem : range.remainder ∈ res)
  | lost (before : range.hi ∈ Intervals.points Range.lo Range.hi ranges)
    (after : range.hi ∉ Intervals.points Range.lo Range.hi res)

def RemovedIff (range : Range) (fuel : Nat) (before rest : List Range) : Prop :=
  ∃ res,
    removeLoop range fuel { before, rest } = some res
      ∧
    (Removed (before ++ rest) range res ↔ Removable (before ++ rest) range)
      ∧
    (¬Removable (before ++ rest) range → Spoiled (before ++ rest) range res)

section Removable

variable {ranges : List Range} {range : Range}

theorem removable_iff_of_inGap (h1 : StartsInGap ranges range)
    : Removable ranges range ↔ ∀ r ∈ ranges, range.lo < r.lo → range.hi ≤ r.lo := by
  constructor
  . intro h
    exact h.inGap h1
  . intro h
    refine ⟨fun _ => h, ?_, fun hne => absurd h1 hne⟩
    intro hend
    obtain ⟨p, hp, hlt, heq⟩ := hend
    exact absurd ⟨Nat.le_of_lt hlt, Nat.le_of_eq heq.symm⟩ (h1.2 p hp)

theorem removable_iff_of_atEnd (h1 : StartsAtEnd ranges range)
    : Removable ranges range
        ↔
      (∃ r ∈ ranges, range.lo < r.lo ∧ r.lo < range.hi)
        ∧ range.hi ∉ Intervals.points Range.lo Range.hi ranges := by
  constructor
  . intro h
    exact h.atEnd h1
  . intro h
    refine ⟨?_, fun _ => h, fun _ hne => absurd h1 hne⟩
    intro hgap
    obtain ⟨p, hp, hlt, heq⟩ := h1
    exact absurd ⟨Nat.le_of_lt hlt, Nat.le_of_eq heq.symm⟩ (hgap.2 p hp)

theorem removable_iff_of_not (h1 : ¬StartsInGap ranges range) (h2 : ¬StartsAtEnd ranges range)
    : Removable ranges range ↔ ∀ r ∈ ranges, r.lo ≠ range.hi := by
  constructor
  . intro h
    exact h.touching h1 h2
  . intro h
    exact ⟨fun hgap => absurd hgap h1, fun hend => absurd hend h2, fun _ _ => h⟩

theorem removable_iff_of_covering {p : Range} (hs : Separated Range.lo Range.hi ranges)
    (hp : p ∈ ranges) (h1 : p.lo ≤ range.lo) (h2 : range.lo < p.hi)
    : Removable ranges range ↔ ∀ r ∈ ranges, r.lo ≠ range.hi := by
  apply removable_iff_of_not
  . intro hgap
    apply hgap.2 p hp
    omega
  . intro hend
    obtain ⟨q, hq, hlt, heq⟩ := hend
    have := hs.eq_of_touching hp hq (by omega) (by omega)
    rw [this] at h2
    omega

end Removable

section Cases

variable {ranges before rest : List Range} {range p : Range} {fuel : Nat}
variable (hr : range.Bounded) (hne : range.lo < range.hi)
include hr hne

theorem not_removed_of_remainder_mem {res : List Range} (h : range.remainder ∈ res)
    : ¬Removed ranges range res := by
  intro hres
  exact Range.not_bounded_remainder hr hne (hres.bounded _ h)

theorem removed_sweep_iff (hbefore : ∀ a ∈ before, a.Bounded)
    (hbs : Separated Range.lo Range.hi before) (hble : ∀ a ∈ before, a.hi ≤ range.lo)
    (hrest : ∀ a ∈ rest, a.Bounded) (hrs : Separated Range.lo Range.hi rest)
    (hpoints : ∀ x,
      x ∈ Intervals.points Range.lo Range.hi ranges ∧ ¬(range.lo ≤ x ∧ x < range.hi)
        ↔
      x ∈ Intervals.points Range.lo Range.hi before
        ∨ x ∈ Intervals.points Range.lo Range.hi rest ∧ range.hi ≤ x)
    : Removed ranges range (before ++ sweep range rest) ↔ ∀ a ∈ rest, a.lo ≠ range.hi := by
  constructor
  . intro hres a ha heq
    apply not_removed_of_remainder_mem hr hne _ hres
    apply List.mem_append_right
    exact remainder_mem_sweep hrs ⟨a, ha, heq⟩
  . intro hlo
    have hsweep := sweep_spec hr hrest hrs hlo
    constructor
    . intro a ha
      cases List.mem_append.mp ha with
      | inl ha => exact hbefore a ha
      | inr ha => exact hsweep.1 a ha
    . rw [separated_append]
      refine ⟨hbs, hsweep.2.1, ?_⟩
      intro a ha b hb
      have := hble a ha
      have := hsweep.2.2.1 b hb
      omega
    . intro x
      rw [hpoints, mem_points_append, hsweep.2.2.2]

theorem not_removed_of_spoiled {res : List Range} (h : Spoiled ranges range res)
    : ¬Removed ranges range res := by
  intro hres
  cases h with
  | kept a mem le lt pos =>
    have hmem : a.lo ∈ Intervals.points Range.lo Range.hi res :=
      mem_points_of_mem mem (Nat.le_refl _) pos
    exact ((hres.points_iff a.lo).mp hmem).2 ⟨le, lt⟩
  | remainder mem => exact not_removed_of_remainder_mem hr hne mem hres
  | lost before after => exact after ((hres.points_iff range.hi).mpr ⟨before, by omega⟩)

theorem outcome_of_spoiled {res : List Range} {Q : Prop} (h : Spoiled ranges range res) (hq : ¬Q)
    : (Removed ranges range res ↔ Q) ∧ (¬Q → Spoiled ranges range res) :=
  ⟨iff_of_false (not_removed_of_spoiled hr hne h) hq, fun _ => h⟩

omit hr hne in
theorem outcome_of_removed {res : List Range} {Q : Prop} (h : Removed ranges range res) (hq : Q)
    : (Removed ranges range res ↔ Q) ∧ (¬Q → Spoiled ranges range res) :=
  ⟨iff_of_true h hq, fun hnot => absurd hq hnot⟩

omit hr hne in
theorem spoiled_sweep (hs : Separated Range.lo Range.hi rest)
    (h : ¬∀ a ∈ rest, a.lo ≠ range.hi)
    : Spoiled ranges range (before ++ sweep range rest) := by
  simp only [ne_eq, not_forall, not_not] at h
  obtain ⟨a, ha, heq⟩ := h
  exact .remainder (List.mem_append_right before (remainder_mem_sweep hs ⟨a, ha, heq⟩))

/-
The iterator has not been moved back: there is nothing before the removed range, or a range that
starts where it does.
-/
theorem removed_iff_of_start (hb : ∀ a ∈ before ++ rest, a.Bounded)
    (hs : Separated Range.lo Range.hi (before ++ rest))
    (hrest : ∀ a ∈ rest, range.lo ≤ a.lo)
    (hstart : before = [] ∨ ∃ b ∈ rest, b.lo = range.lo) (hf : rest.length < fuel)
    : RemovedIff range fuel before rest := by
  have hsep := separated_append.mp hs
  have hbefore : ∀ a ∈ before, a.hi < range.lo := by
    intro a ha
    cases hstart with
    | inl hnil => simp [hnil] at ha
    | inr hex =>
      obtain ⟨b, hb, heq⟩ := hex
      have := hsep.2.2 a ha b hb
      omega
  have hlo : ∀ a ∈ before, a.lo < range.lo := by
    intro a ha
    have := hbefore a ha
    have := a.lo_le_hi
    omega
  have hgap : ¬StartsInGap (before ++ rest) range := by
    intro hgap
    cases hstart with
    | inl hnil =>
      obtain ⟨p, hp, hlt⟩ := hgap.1
      rw [hnil] at hp
      have := hrest p hp
      omega
    | inr hex =>
      obtain ⟨b, hb, heq⟩ := hex
      apply hgap.2 b (List.mem_append_right _ hb)
      have := b.lo_le_hi
      omega
  have hend : ¬StartsAtEnd (before ++ rest) range := by
    intro hend
    obtain ⟨p, hp, hlt, heq⟩ := hend
    cases List.mem_append.mp hp with
    | inl hp =>
      have := hbefore p hp
      omega
    | inr hp =>
      have := hrest p hp
      omega
  refine ⟨before ++ sweep range rest, ?_, ?_, ?_⟩
  . apply removeLoop_sweep hr hne
    . intro a ha
      have := hlo a ha
      omega
    . intro a ha
      exact hb a (List.mem_append_right _ ha)
    . exact hsep.2.1
    . exact hrest
    . exact hf
  . rw [removable_iff_of_not hgap hend, removed_sweep_iff hr hne]
    . constructor
      . intro h a ha
        cases List.mem_append.mp ha with
        | inl ha =>
          have := hlo a ha
          omega
        | inr ha => exact h a ha
      . intro h a ha
        exact h a (List.mem_append_right _ ha)
    . intro a ha
      exact hb a (List.mem_append_left _ ha)
    . exact hsep.1
    . intro a ha
      exact Nat.le_of_lt (hbefore a ha)
    . intro a ha
      exact hb a (List.mem_append_right _ ha)
    . exact hsep.2.1
    . intro x
      have h1 : x ∈ Intervals.points Range.lo Range.hi before → x < range.lo := by
        intro hx
        obtain ⟨a, ha, _, hlt⟩ := hx
        have := hbefore a ha
        omega
      have h2 : x ∈ Intervals.points Range.lo Range.hi rest → range.lo ≤ x := by
        intro hx
        obtain ⟨a, ha, hle, _⟩ := hx
        have := hrest a ha
        omega
      rw [mem_points_append]
      grind
  . rw [removable_iff_of_not hgap hend]
    intro hnot
    apply spoiled_sweep hsep.2.1
    intro hrest
    apply hnot
    intro a ha
    cases List.mem_append.mp ha with
    | inl ha =>
      have := hlo a ha
      omega
    | inr ha => exact hrest a ha

omit hr hne in
theorem points_between (hs : Separated Range.lo Range.hi (before ++ p :: rest))
    (hp : p.lo < range.lo) (hrest : ∀ a ∈ rest, range.lo < a.lo) (x : Nat)
    : (x ∈ Intervals.points Range.lo Range.hi before → x < range.lo)
        ∧
      (x ∈ Intervals.points Range.lo Range.hi rest → range.lo < x ∧ p.hi < x) := by
  have hsep := separated_append.mp hs
  constructor
  . intro hx
    obtain ⟨a, ha, _, hlt⟩ := hx
    have := hsep.2.2 a ha p (by simp)
    omega
  . intro hx
    have := hsep.2.1.lt_of_mem_points hx
    obtain ⟨a, ha, hle, _⟩ := hx
    have := hrest a ha
    omega

variable (hb : ∀ a ∈ before ++ p :: rest, a.Bounded)
variable (hs : Separated Range.lo Range.hi (before ++ p :: rest))
variable (hp : p.lo < range.lo) (hrest : ∀ a ∈ rest, range.lo < a.lo)
variable (hf : rest.length + 2 < fuel)
include hb hs hp hrest hf

omit hne in
/-
The range before the removed one does not reach it, and that is the end of the loop.
-/
theorem removed_iff_of_inGap (hpe : p.hi < range.lo)
    : RemovedIff range fuel before (p :: rest) := by
  obtain ⟨fuel, rfl⟩ := Nat.exists_eq_succ_of_ne_zero (Nat.ne_of_gt (Nat.zero_lt_of_lt hf))
  have hsep := separated_append.mp hs
  have hgap : StartsInGap (before ++ p :: rest) range := by
    constructor
    . exact ⟨p, by simp, hp⟩
    . intro r hr
      simp only [List.mem_append, List.mem_cons] at hr
      rcases hr with hr | hr | hr
      . have := hsep.2.2 r hr p (by simp)
        omega
      . rw [hr]
        omega
      . have := hrest r hr
        omega
  refine ⟨before ++ p :: rest, ?_, ?_, ?_⟩
  . exact removeLoop_not_overlapping hr (hb p (by simp)) (Or.inr hpe)
  . rw [removable_iff_of_inGap hgap]
    constructor
    . intro h r hr hlt
      have hmem : r.lo ∈ Intervals.points Range.lo Range.hi (before ++ p :: rest) :=
        mem_points_of_mem hr (Nat.le_refl _) (hs.lt r hr)
      have := ((h.points_iff r.lo).mp hmem).2
      omega
    . intro h
      refine ⟨hb, hs, ?_⟩
      intro x
      rw [iff_self_and]
      intro hx hin
      obtain ⟨r, hr, h1, h2⟩ := hx
      have := hgap.2 r hr
      have := h r hr
      omega
  . rw [removable_iff_of_inGap hgap]
    intro hnot
    simp only [not_forall] at hnot
    obtain ⟨r, hr, hlt, hgt⟩ := hnot
    exact .kept r hr (by omega) (by omega) (hs.lt r hr)

theorem removed_iff_of_end_overlapped (h1 : range.lo < p.hi) (h2 : p.hi ≤ range.hi)
    : RemovedIff range fuel before (p :: rest) := by
  obtain ⟨fuel, rfl⟩ := Nat.exists_eq_succ_of_ne_zero (Nat.ne_of_gt (Nat.zero_lt_of_lt hf))
  have hsep := separated_append.mp hs
  have hsepr := separated_cons.mp hsep.2.1
  have hpb := hb p (by simp)
  have hrb : ∀ a ∈ rest, a.Bounded := fun a ha => hb a (by simp [ha])
  have hlo := Range.removeFromEnd_lo (a := p) (b := range)
  have hhi := Range.removeFromEnd_hi (b := range) hpb (by omega)
  have hbefore : ∀ a ∈ before, a.hi < p.lo := fun a ha => hsep.2.2 a ha p (by simp)
  refine ⟨before ++ [p.removeFromEnd range] ++ sweep range rest, ?_, ?_, ?_⟩
  . rw [removeLoop_end_overlapped hr hpb hp h1 h2, Cursor.insert_between]
    . apply removeLoop_sweep hr hne
      . intro a ha
        cases List.mem_append.mp ha with
        | inl ha =>
          have := hbefore a ha
          have := a.lo_le_hi
          omega
        | inr ha =>
          rw [List.mem_singleton.mp ha]
          omega
      . exact hrb
      . exact hsepr.2.2
      . intro a ha
        exact Nat.le_of_lt (hrest a ha)
      . omega
    . intro a ha
      have := hbefore a ha
      have := a.lo_le_hi
      omega
    . intro a ha
      have := hrest a ha
      omega
  . rw [removable_iff_of_covering hs (p := p) (by simp) (by omega) h1, removed_sweep_iff hr hne]
    . constructor
      . intro h a ha
        simp only [List.mem_append, List.mem_cons] at ha
        rcases ha with ha | ha | ha
        . have := hbefore a ha
          have := a.lo_le_hi
          omega
        . rw [ha]
          omega
        . exact h a ha
      . intro h a ha
        exact h a (by simp [ha])
    . intro a ha
      cases List.mem_append.mp ha with
      | inl ha => exact hb a (by simp [ha])
      | inr ha =>
        rw [List.mem_singleton.mp ha]
        unfold Range.Bounded at *
        omega
    . rw [separated_append, separated_cons]
      refine ⟨hsep.1, ⟨by omega, by simp, separated_nil⟩, ?_⟩
      intro a ha b hb
      have := hbefore a ha
      rw [List.mem_singleton.mp hb]
      omega
    . intro a ha
      cases List.mem_append.mp ha with
      | inl ha =>
        have := hbefore a ha
        omega
      | inr ha =>
        rw [List.mem_singleton.mp ha]
        omega
    . exact hrb
    . exact hsepr.2.2
    . intro x
      have hx := points_between hs hp hrest x
      simp only [mem_points_append, mem_points_cons, mem_points_nil, hlo, hhi]
      grind
  . rw [removable_iff_of_covering hs (p := p) (by simp) (by omega) h1]
    intro hnot
    apply spoiled_sweep hsepr.2.2
    intro hrest
    apply hnot
    intro a ha
    simp only [List.mem_append, List.mem_cons] at ha
    rcases ha with ha | ha | ha
    . have := hbefore a ha
      have := a.lo_le_hi
      omega
    . rw [ha]
      omega
    . exact hrest a ha

theorem removed_iff_of_containing (h1 : range.hi < p.hi)
    : RemovedIff range fuel before (p :: rest) := by
  obtain ⟨fuel, rfl⟩ := Nat.exists_eq_succ_of_ne_zero (Nat.ne_of_gt (Nat.zero_lt_of_lt hf))
  have hsep := separated_append.mp hs
  have hsepr := separated_cons.mp hsep.2.1
  have hpb := hb p (by simp)
  have hrb : ∀ a ∈ rest, a.Bounded := fun a ha => hb a (by simp [ha])
  have hbefore : ∀ a ∈ before, a.hi < p.lo := fun a ha => hsep.2.2 a ha p (by simp)
  have hlo := Range.removeFromMiddle_fst_lo (a := p) (b := range)
  have hhi := Range.removeFromMiddle_fst_hi (a := p) (b := range) (by omega)
  have hlo2 := Range.removeFromMiddle_snd_lo (a := p) hr
  have hhi2 := Range.removeFromMiddle_snd_hi hpb hr (by omega)
  rw [Range.Bounded] at hpb
  generalize hparts : p.removeFromMiddle range = parts at *
  obtain ⟨r, r2⟩ := parts
  dsimp only at hlo hhi hlo2 hhi2
  refine ⟨before ++ r :: r2 :: rest, ?_, ?_⟩
  . rw [removeLoop_containing hr hpb (by omega) (by omega) (by omega) (by omega) hsepr.1, hparts]
    have hins : Cursor.insert { before, rest } r = { before := before ++ [r], rest } := by
      apply Cursor.insert_between
      . intro a ha
        have := hbefore a ha
        have := a.lo_le_hi
        omega
      . intro a ha
        have := hrest a ha
        omega
    have hins2 : Cursor.insert { before := before ++ [r], rest } r2
        = { before := before ++ [r] ++ [r2], rest } := by
      apply Cursor.insert_between
      . intro a ha
        cases List.mem_append.mp ha with
        | inl ha =>
          have := hbefore a ha
          have := a.lo_le_hi
          omega
        | inr ha =>
          rw [List.mem_singleton.mp ha]
          omega
      . intro a ha
        have := hsepr.2.1 a ha
        omega
    have hgt : ∀ a ∈ rest, range.hi < a.lo := by
      intro a ha
      have := hsepr.2.1 a ha
      omega
    rw [hins, hins2, removeLoop_stop hr hrb hgt (by omega)]
    simp
  . apply outcome_of_removed
    . constructor
      . intro a ha
        simp only [List.mem_append, List.mem_cons] at ha
        rcases ha with ha | ha | ha | ha
        . exact hb a (by simp [ha])
        . rw [ha, Range.Bounded]
          omega
        . rw [ha, Range.Bounded]
          omega
        . exact hrb a ha
      . simp only [separated_append, separated_cons]
        refine ⟨hsep.1, ⟨by omega, ?_, by omega, ?_, hsepr.2.2⟩, ?_⟩
        . intro a ha
          cases List.mem_cons.mp ha with
          | inl heq => rw [heq]; omega
          | inr ha =>
            have := hsepr.2.1 a ha
            omega
        . intro a ha
          have := hsepr.2.1 a ha
          omega
        . intro a ha b hb
          have := hbefore a ha
          simp only [List.mem_cons] at hb
          rcases hb with hb | hb | hb
          . rw [hb]; omega
          . rw [hb]; omega
          . have := hrest b hb
            omega
      . intro x
        have hx := points_between hs hp hrest x
        simp only [mem_points_append, mem_points_cons, hlo, hhi, hlo2, hhi2]
        grind
    . rw [removable_iff_of_covering hs (p := p) (by simp) (by omega) (by omega)]
      intro a ha heq
      have := a.lo_le_hi
      have := hs.eq_of_touching (i := p) (j := a) (by simp) ha (by omega) (by omega)
      rw [← this] at heq
      omega

omit hr hb hf in
theorem mem_points_atEnd (h1 : p.hi = range.lo)
    : range.hi ∈ Intervals.points Range.lo Range.hi (before ++ p :: rest)
        ↔
      range.hi ∈ Intervals.points Range.lo Range.hi rest := by
  have hx := points_between hs hp hrest range.hi
  simp only [mem_points_append, mem_points_cons]
  grind

/-
The range before the removed one ends where it starts, which gives a first remainder.
-/
theorem removeLoop_atEnd (h1 : p.hi = range.lo)
    : removeLoop range fuel { before, rest := p :: rest }
        =
      removeLoop range (fuel - 1) (Cursor.insert { before := before ++ [p], rest }
        range.remainder) := by
  obtain ⟨fuel, rfl⟩ := Nat.exists_eq_succ_of_ne_zero (Nat.ne_of_gt (Nat.zero_lt_of_lt hf))
  have hsep := separated_append.mp hs
  have hsepr := separated_cons.mp hsep.2.1
  have hpb := hb p (by simp)
  have hend : p.end = range.start := by
    rw [← UInt64.toNat_inj, Range.end_toNat hpb]
    exact h1
  have hfst : (p.removeFromMiddle range).1 = p := by
    unfold Range.removeFromMiddle
    rw [← hend]
    unfold Range.end
    rw [UInt64.add_comm, UInt64.add_sub_cancel]
  have hins : Cursor.insert { before, rest } p = { before := before ++ [p], rest } := by
    apply Cursor.insert_between
    . intro a ha
      have := hsep.2.2 a ha p (by simp)
      have := a.lo_le_hi
      omega
    . intro a ha
      have := hrest a ha
      omega
  rw [removeLoop_containing hr hpb (by omega) (by omega) (by omega) (by omega) hsepr.1]
  rw [hfst, Range.removeFromMiddle_snd_of_touching hend, hins]
  rfl

theorem removed_iff_of_atEnd (h1 : p.hi = range.lo)
    : RemovedIff range fuel before (p :: rest) := by
  have hsep := separated_append.mp hs
  have hsepr := separated_cons.mp hsep.2.1
  have hrb : ∀ a ∈ rest, a.Bounded := fun a ha => hb a (by simp [ha])
  have hge : ∀ a ∈ rest, range.lo ≤ a.lo := fun a ha => Nat.le_of_lt (hrest a ha)
  have hatEnd : StartsAtEnd (before ++ p :: rest) range := ⟨p, by simp, hp, h1⟩
  have hlo := Range.remainder_lo hr
  have hle : ∀ a ∈ before ++ [p], a.hi ≤ range.lo := by
    intro a ha
    cases List.mem_append.mp ha with
    | inl ha =>
      have := hsep.2.2 a ha p (by simp)
      omega
    | inr ha =>
      rw [List.mem_singleton.mp ha]
      omega
  have hlt : ∀ a ∈ before ++ [p], a.lo < range.remainder.lo := by
    intro a ha
    have := hle a ha
    have := a.lo_le_hi
    omega
  unfold RemovedIff
  rw [removeLoop_atEnd hr hne hb hs hp hrest hf h1, removable_iff_of_atEnd hatEnd,
    mem_points_atEnd hne hs hp hrest h1]
  by_cases heq : ∃ r ∈ rest, r.lo = range.hi
  . -- There is a range in the place of the remainder, so that a second one is made.
    obtain ⟨r, hrr, heq⟩ := heq
    rw [Cursor.insert_rest hsepr.2.2 hrr (by omega), setInsert_of_mem hsepr.2.2 hrr (by omega)]
    refine ⟨_, removeLoop_sweep hr hne (hlo ▸ hlt) hrb hsepr.2.2 hge (by omega), ?_⟩
    apply outcome_of_spoiled hr hne
    . apply Spoiled.remainder
      apply List.mem_append_right
      exact remainder_mem_sweep hsepr.2.2 ⟨r, hrr, heq⟩
    . intro h
      apply h.2
      have := hsepr.2.2.lt r hrr
      exact mem_points_of_mem hrr (by omega) (by omega)
  . by_cases hex : ∃ r ∈ rest, r.lo < range.hi
    . obtain ⟨r, hrr, hrlt⟩ := hex
      rw [Cursor.insert_rest hsepr.2.2 hrr (by omega)]
      by_cases hmem : range.hi ∈ Intervals.points Range.lo Range.hi rest
      . obtain ⟨q, hq, hq1, hq2⟩ := hmem
        have hqne : q.lo ≠ range.hi := fun h => heq ⟨q, hq, h⟩
        have hf' : rest.length + 1 < fuel - 1 := by omega
        obtain ⟨rest', hres, hgt⟩ : ∃ rest', removeLoop range (fuel - 1)
            { before := before ++ [p], rest := setInsert range.remainder rest }
              = some (before ++ [p] ++ rest') ∧ ∀ a ∈ rest', range.hi < a.lo :=
          removeLoop_setInsert_remainder_straddling hr hrb hsepr.2.2 hge
            ⟨q, hq, by omega, hq2⟩ hf'
        refine ⟨_, hres, outcome_of_spoiled hr hne ?_ (fun h => h.2 ⟨q, hq, hq1, hq2⟩)⟩
        -- What the range has behind the removed one is lost.
        refine .lost (mem_points_of_mem (by simp [hq]) hq1 hq2) ?_
        rintro ⟨a, ha, ha1, ha2⟩
        cases List.mem_append.mp ha with
        | inl ha =>
          have := hle a ha
          omega
        | inr ha =>
          have := hgt a ha
          omega
      . refine ⟨_, removeLoop_setInsert_remainder hr hrb hsepr.2.2 hge hmem (by omega), ?_⟩
        apply outcome_of_removed
        . rw [removed_sweep_iff hr hne _ _ hle hrb hsepr.2.2]
          . intro a ha heq'
            exact heq ⟨a, ha, heq'⟩
          . intro x
            have hx := points_between hs hp hrest x
            simp only [mem_points_append, mem_points_cons, mem_points_nil]
            grind
          . intro a ha
            apply hb
            rw [List.append_cons]
            exact List.mem_append_left _ ha
          . rw [List.append_cons, separated_append] at hs
            exact hs.1
        . exact ⟨⟨r, by simp [hrr], hrest r hrr, hrlt⟩, hmem⟩
    . have hgt : ∀ a ∈ rest, range.hi < a.lo := by
        intro a ha
        have h2 : a.lo ≠ range.hi := fun h => heq ⟨a, ha, h⟩
        have h3 : ¬(a.lo < range.hi) := fun h => hex ⟨a, ha, h⟩
        omega
      rw [Cursor.insert_between hlt (by rw [hlo]; exact hgt)]
      refine ⟨_, removeLoop_stop hr hrb hgt (by omega), ?_⟩
      apply outcome_of_spoiled hr hne
      . apply Spoiled.remainder
        simp
      . intro h
        obtain ⟨a, ha, ha1, ha2⟩ := h.1
        simp only [List.mem_append, List.mem_cons] at ha
        rcases ha with ha | ha | ha
        . have := hle a (by simp [ha])
          have := a.lo_le_hi
          omega
        . rw [ha] at ha1
          omega
        . exact hex ⟨a, ha, ha2⟩

end Cases

variable {rs : RangeSet} {start length : UInt64}

theorem removeCursor_removedIff {ranges : List Range} {range : Range} {fuel : Nat}
    (hr : range.Bounded) (hne : range.lo < range.hi) (hb : ∀ a ∈ ranges, a.Bounded)
    (hs : Separated Range.lo Range.hi ranges) (hf : ranges.length + 1 < fuel)
    : ∃ before rest,
        removeCursor ranges range = { before, rest }
          ∧
        before ++ rest = ranges
          ∧
        RemovedIff range fuel before rest := by
  have hranges : _ = ranges := Cursor.lowerBound_ranges (r := range)
  have hbefore : ∀ a ∈ (Cursor.lowerBound ranges range).before, a.lo < range.lo := by
    intro a ha
    exact Cursor.lo_lt_of_mem_before ha
  have hrest : ∀ a ∈ (Cursor.lowerBound ranges range).rest, range.lo ≤ a.lo := by
    intro a ha
    exact Cursor.le_lo_of_mem_rest hs ha
  unfold removeCursor
  generalize Cursor.lowerBound ranges range = it at *
  dsimp only
  rw [← hranges] at hb hs hf
  split
  . next hpast =>
    have hlt := Cursor.lt_lo_of_pastStart hpast (separated_append.mp hs).2.1
    obtain ⟨before, p, hp, hprev⟩ := Cursor.stepBack_of_pastStart hpast
    rw [hp, List.append_assoc, List.singleton_append] at hb hs hf hranges
    have hplo : p.lo < range.lo := hbefore p (by simp [hp])
    have hf : it.rest.length + 2 < fuel := by
      simp only [List.length_append, List.length_cons] at hf
      omega
    refine ⟨before, p :: it.rest, hprev, hranges, ?_⟩
    rcases Nat.lt_trichotomy p.hi range.lo with h | h | h
    . exact removed_iff_of_inGap hr hb hs hplo hlt hf h
    . exact removed_iff_of_atEnd hr hne hb hs hplo hlt hf h
    . by_cases hle : p.hi ≤ range.hi
      . exact removed_iff_of_end_overlapped hr hne hb hs hplo hlt hf h hle
      . exact removed_iff_of_containing hr hne hb hs hplo hlt hf (by omega)
  . next hpast =>
    refine ⟨it.before, it.rest, rfl, hranges, ?_⟩
    apply removed_iff_of_start hr hne hb hs hrest
    . cases Cursor.of_not_pastStart hpast with
      | inl hnil => exact Or.inl hnil
      | inr hex =>
        obtain ⟨b, rest, hit, hle⟩ := hex
        have hmem : b ∈ it.rest := by simp [hit]
        have := hrest b hmem
        rw [UInt64.le_iff_toNat_le] at hle
        refine Or.inr ⟨b, hmem, ?_⟩
        unfold Range.lo at *
        omega
    . simp only [List.length_append] at hf
      omega

theorem remove_eq (h : rs.WellFormed) (hlen : 1 ≤ length.toNat)
    (hb : start.toNat + length.toNat < 2 ^ 64)
    : ∃ res,
        rs.remove start length = some { rs with ranges := res }
          ∧
        (Removed rs.ranges { start, length } res ↔ Removable rs.ranges { start, length })
          ∧
        (¬Removable rs.ranges { start, length } → Spoiled rs.ranges { start, length } res) := by
  have hne : Range.lo { start, length } < Range.hi { start, length } := by
    unfold Range.lo Range.hi
    dsimp only
    omega
  have hlen : length ≠ 0 := by
    intro heq
    rw [heq] at hlen
    contradiction
  have hb : Range.Bounded { start, length } := hb
  obtain ⟨before, rest, hcursor, hranges, hiff⟩ :=
    removeCursor_removedIff hb hne h.bounded h.separated (Nat.lt_succ_self _)
  obtain ⟨res, hloop, hiff⟩ := hiff
  rw [hranges] at hiff
  refine ⟨res, ?_, hiff⟩
  unfold remove
  rw [if_neg hlen]
  dsimp only
  rw [hcursor, hloop]

-- Every call that `removeSet` makes is one for which `remove` does what it should.
def RemovableSet (rs : RangeSet) : List Range → Prop
  | [] => True
  | r :: l =>
    Removable rs.ranges r ∧ ∀ rs', rs.remove r.start r.length = some rs' → RemovableSet rs' l

theorem remove_spec (h : rs.WellFormed) (hlen : 1 ≤ length.toNat)
    (hb : start.toNat + length.toNat < 2 ^ 64)
    : (∃ rs', rs.remove start length = some rs' ∧ rs'.WellFormed ∧
        ∀ x, x ∈ rs'.points
          ↔ x ∈ rs.points ∧ ¬(start.toNat ≤ x ∧ x < start.toNat + length.toNat))
        ↔
      Removable rs.ranges { start, length } := by
  obtain ⟨res, hres, hiff, -⟩ := remove_eq h hlen hb
  rw [← hiff, hres]
  constructor
  . intro hex
    obtain ⟨rs', heq, hwf, hpoints⟩ := hex
    rw [Option.some_inj] at heq
    rw [← heq] at hwf hpoints
    exact ⟨hwf.bounded, hwf.separated, hpoints⟩
  . intro hrem
    exact ⟨_, rfl, ⟨hrem.bounded, hrem.separated⟩, hrem.points_iff⟩

theorem removeSet_spec {l : List Range} (h : rs.WellFormed) (hb : ∀ r ∈ l, r.Bounded)
    (hs : Separated Range.lo Range.hi l) (hok : RemovableSet rs l)
    : ∃ rs',
        l.foldlM (fun rs r => rs.remove r.start r.length) rs = some rs'
          ∧
        rs'.WellFormed
          ∧
        ∀ x, x ∈ rs'.points
          ↔ x ∈ rs.points ∧ x ∉ Intervals.points Range.lo Range.hi l := by
  induction l generalizing rs with
  | nil => exact ⟨rs, rfl, h, by simp⟩
  | cons r l ih =>
    rw [separated_cons] at hs
    have hlen : 1 ≤ r.length.toNat := by
      have := hs.1
      unfold Range.lo Range.hi at this
      omega
    obtain ⟨rs1, hrs1, hwf1, hpoints1⟩ := (remove_spec h hlen (hb r (by simp))).mpr hok.1
    obtain ⟨rs2, hrs2, hwf2, hpoints2⟩ :=
      ih hwf1 (fun a ha => hb a (by simp [ha])) hs.2.2 (hok.2 rs1 hrs1)
    refine ⟨rs2, ?_, hwf2, ?_⟩
    . rw [List.foldlM_cons, hrs1]
      exact hrs2
    . intro x
      rw [hpoints2, hpoints1, mem_points_cons, not_or, and_assoc]
      rfl

-- Two ranges with a gap between them
theorem wellFormed_pair : WellFormed { ranges := [⟨0, 5⟩, ⟨10, 10⟩], endOffset := 20 } where
  bounded := by
    have : ∀ r ∈ [Range.mk 0 5, Range.mk 10 10], r.hi < 2 ^ 64 := by decide
    exact this
  separated := ⟨by decide, by decide⟩

end RangeSet
end Misc
end ObTools
