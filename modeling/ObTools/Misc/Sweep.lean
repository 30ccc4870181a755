import Mathlib.Algebra.BigOperators.Ring.List
import Mathlib.Algebra.Ring.Nat
import ObTools.Misc.Inverse

/-!
This module contains the proof about the intersection of a list of sets. The loop goes through the
starts and ends of all ranges in order, the invariant says where each of the iterators stands when it
has got to a position `t`.
-/

namespace ObTools
namespace Misc
namespace RangeSet

open Intervals

/-
What `findFirst` knows about the states that it has looked at
-/
def FirstOf (states : List IntersectState) : Option (Nat × IntersectState × UInt64) → Prop
  | none => ∀ s ∈ states, s.offset = none
  | some (i, first, offset) =>
    states[i]? = some first ∧ first.offset = some offset
      ∧ ∀ s ∈ states, ∀ o, s.offset = some o → offset.toNat ≤ o.toNat

theorem findFirst_firstOf {seen states : List IntersectState}
    {first : Option (Nat × IntersectState × UInt64)} (h : FirstOf seen first)
    : FirstOf (seen ++ states) (findFirst first seen.length states) := by
  induction states generalizing seen first with
  | nil =>
    rw [List.append_nil]
    exact h
  | cons it states ih =>
    have hsplit : seen ++ it :: states = (seen ++ [it]) ++ states := by simp
    have hlen : seen.length + 1 = (seen ++ [it]).length := by simp
    rw [hsplit]
    have hkeep : ∀ (j : Nat) (best : IntersectState), seen[j]? = some best →
        (seen ++ [it])[j]? = some best := by
      intro j best hj
      have := (List.getElem?_eq_some_iff.mp hj).1
      rw [List.getElem?_append_left this]
      exact hj
    unfold findFirst
    cases hoffset : it.offset with
    | none =>
      dsimp only
      rw [hlen]
      apply ih
      cases first with
      | none =>
        intro s hs
        cases List.mem_append.mp hs with
        | inl hs => exact h s hs
        | inr hs => rw [List.mem_singleton.mp hs, hoffset]
      | some first =>
        obtain ⟨j, best, least⟩ := first
        refine ⟨hkeep j best h.1, h.2.1, ?_⟩
        intro s hs o ho
        cases List.mem_append.mp hs with
        | inl hs => exact h.2.2 s hs o ho
        | inr hs =>
          rw [List.mem_singleton.mp hs, hoffset] at ho
          cases ho
    | some offset =>
      have hnew : (∀ s ∈ seen, ∀ o, s.offset = some o → offset.toNat ≤ o.toNat) →
          FirstOf (seen ++ [it]) (some (seen.length, it, offset)) := by
        intro hle
        refine ⟨List.getElem?_concat_length, hoffset, ?_⟩
        intro s hs o ho
        cases List.mem_append.mp hs with
        | inl hs => exact hle s hs o ho
        | inr hs =>
          rw [List.mem_singleton.mp hs, hoffset] at ho
          rw [Option.some.inj ho]
      cases first with
      | none =>
        dsimp only
        rw [hlen]
        apply ih
        apply hnew
        intro s hs o ho
        rw [h s hs] at ho
        cases ho
      | some first =>
        obtain ⟨j, best, least⟩ := first
        dsimp only
        rw [hlen]
        split
        . next hlt =>
          rw [UInt64.lt_iff_toNat_lt] at hlt
          apply ih
          apply hnew
          intro s hs o ho
          have := h.2.2 s hs o ho
          omega
        . next hge =>
          rw [UInt64.lt_iff_toNat_lt] at hge
          apply ih
          refine ⟨hkeep j best h.1, h.2.1, ?_⟩
          intro s hs o ho
          cases List.mem_append.mp hs with
          | inl hs => exact h.2.2 s hs o ho
          | inr hs =>
            rw [List.mem_singleton.mp hs, hoffset] at ho
            rw [← Option.some.inj ho]
            omega

theorem findFirst_spec (states : List IntersectState)
    : FirstOf states (findFirst none 0 states) :=
  @findFirst_firstOf [] states none (fun _ hs => nomatch hs)

/-
The iterator of a state stands in `l` where the loop has got to `t`.
-/
structure Tracks (t : Nat) (l : List Range) (s : IntersectState) : Prop where
  passed : ∃ passed, l = passed ++ s.it ∧ ∀ a ∈ passed, a.hi ≤ t
  opened : s.end = true → ∃ r rest, s.it = r :: rest ∧ r.lo ≤ t ∧ t ≤ r.hi
  closed : s.end = false → ∀ r ∈ s.it, t ≤ r.lo

section Tracks

variable {t u : Nat} {l rest : List Range} {s : IntersectState} {r : Range} {x : Nat}

theorem Tracks.mem_of_mem_it (h : Tracks t l s) (hr : r ∈ s.it) : r ∈ l := by
  obtain ⟨passed, hl, _⟩ := h.passed
  rw [hl]
  exact List.mem_append_right _ hr

theorem Tracks.separated_it (h : Tracks t l s) (hs : Separated Range.lo Range.hi l)
    : Separated Range.lo Range.hi s.it := by
  obtain ⟨passed, hl, _⟩ := h.passed
  rw [hl] at hs
  exact (separated_append.mp hs).2.1

theorem Tracks.mem_points_iff (h : Tracks t l s) (hx : t ≤ x)
    : x ∈ Intervals.points Range.lo Range.hi l ↔ x ∈ Intervals.points Range.lo Range.hi s.it := by
  obtain ⟨passed, hl, hpassed⟩ := h.passed
  rw [hl, mem_points_append, or_iff_right_iff_imp]
  intro hmem
  obtain ⟨a, ha, _, h2⟩ := hmem
  have := hpassed a ha
  omega

-- There are no points between the position and the next start.
theorem Tracks.not_mem (h : Tracks t l s) (hnext : ∀ r ∈ s.it, u ≤ r.lo) (htx : t ≤ x) (hxu : x < u)
    : x ∉ Intervals.points Range.lo Range.hi l := by
  rw [h.mem_points_iff htx]
  intro hmem
  obtain ⟨a, ha, h1, _⟩ := hmem
  have := hnext a ha
  omega

theorem offset_toNat {o : UInt64} (hb : ∀ r ∈ s.it, r.Bounded) (ho : s.offset = some o)
    : ∃ r rest, s.it = r :: rest ∧ o.toNat = if s.end then r.hi else r.lo := by
  unfold IntersectState.offset at ho
  cases hit : s.it with
  | nil =>
    rw [hit] at ho
    cases ho
  | cons r rest =>
    refine ⟨r, rest, rfl, ?_⟩
    rw [hit, List.head?_cons, Option.map_some] at ho
    rw [← Option.some.inj ho]
    split
    . exact Range.end_toNat (hb r (by rw [hit]; exact List.mem_cons_self))
    . rfl

/-
The states that have nothing to do before `u` can wait for it.
-/
theorem Tracks.wait (h : Tracks t l s) (hs : Separated Range.lo Range.hi l)
    (hb : ∀ r ∈ l, r.Bounded) (htu : t ≤ u) (hle : ∀ o, s.offset = some o → u ≤ o.toNat)
    : Tracks u l s := by
  obtain ⟨passed, hl, hpassed⟩ := h.passed
  have hsep := h.separated_it hs
  have hbit : ∀ r ∈ s.it, r.Bounded := fun r hr => hb r (h.mem_of_mem_it hr)
  have hhead : ∀ r rest, s.it = r :: rest → u ≤ if s.end then r.hi else r.lo := by
    intro r rest hit
    have hoffset : s.offset = some (if s.end then r.end else r.start) := by
      unfold IntersectState.offset
      rw [hit]
      rfl
    have hle := hle _ hoffset
    obtain ⟨r', rest', hit', ho⟩ := offset_toNat hbit hoffset
    rw [hit] at hit'
    cases hit'
    rw [← ho]
    exact hle
  constructor
  . refine ⟨passed, hl, ?_⟩
    intro a ha
    have := hpassed a ha
    omega
  . intro hend
    obtain ⟨r, rest, hit, h1, h2⟩ := h.opened hend
    have := hhead r rest hit
    rw [hend, if_pos rfl] at this
    exact ⟨r, rest, hit, by omega, this⟩
  . intro hend r hr
    cases hit : s.it with
    | nil =>
      rw [hit] at hr
      cases hr
    | cons r' rest =>
      have := hhead r' rest hit
      rw [hend, if_neg Bool.false_ne_true] at this
      rw [hit] at hr hsep
      cases List.mem_cons.mp hr with
      | inl heq => rw [heq]; exact this
      | inr hr =>
        have := hsep.lo_lt hr
        omega

end Tracks

-- Each range that is still there has a start and an end, if the start has not been taken already.
def eventsLeft (states : List IntersectState) : Nat :=
  (states.map fun s => 2 * s.it.length - s.end.toNat).sum

theorem eventsLeft_set {states : List IntersectState} {i : Nat} {s s' : IntersectState}
    (h : states[i]? = some s)
    : eventsLeft (states.set i s') + (2 * s.it.length - s.end.toNat)
        =
      eventsLeft states + (2 * s'.it.length - s'.end.toNat) := by
  induction states generalizing i with
  | nil => simp at h
  | cons a states ih =>
    cases i with
    | zero =>
      rw [List.getElem?_cons_zero] at h
      rw [List.set_cons_zero, Option.some.inj h]
      unfold eventsLeft
      simp only [List.map_cons, List.sum_cons]
      omega
    | succ i =>
      rw [List.getElem?_cons_succ] at h
      have := ih h
      rw [List.set_cons_succ]
      unfold eventsLeft at *
      simp only [List.map_cons, List.sum_cons]
      omega

theorem countP_set {states : List IntersectState} {i : Nat} {s s' : IntersectState}
    (h : states[i]? = some s)
    : (states.set i s').countP IntersectState.end + s.end.toNat = states.countP IntersectState.end + s'.end.toNat := by
  induction states generalizing i with
  | nil => simp at h
  | cons a states ih =>
    cases i with
    | zero =>
      rw [List.getElem?_cons_zero] at h
      rw [List.set_cons_zero, Option.some.inj h, List.countP_cons, List.countP_cons]
      cases s.end <;> cases s'.end <;> simp
    | succ i =>
      rw [List.getElem?_cons_succ] at h
      have := ih h
      rw [List.set_cons_succ, List.countP_cons, List.countP_cons]
      omega

-- The counter wraps, so that it only tells whether all are open if there are not too many of them.
theorem count_eq_iff {states : List IntersectState}
    : (UInt32.ofNat (states.countP IntersectState.end)).toNat = states.length
        ↔
      states.length < 2 ^ 32 ∧ ∀ s ∈ states, s.end = true := by
  have hle : states.countP IntersectState.end ≤ states.length := List.countP_le_length
  rw [UInt32.toNat_ofNat', ← List.countP_eq_length]
  constructor
  . intro h
    have := Nat.mod_lt (states.countP IntersectState.end) (show 2 ^ 32 > 0 by decide)
    have hlt : states.length < 2 ^ 32 := by omega
    refine ⟨hlt, ?_⟩
    rw [← h]
    exact (Nat.mod_eq_of_lt (by omega)).symm
  . intro h
    rw [h.2]
    exact Nat.mod_eq_of_lt h.1

def AllTrack (t : Nat) (sets : List RangeSet) (states : List IntersectState) : Prop :=
  ∀ (i : Nat) (rs : RangeSet) (s : IntersectState), sets[i]? = some rs → states[i]? = some s →
    Tracks t rs.ranges s

/-
The result has all common points before `currentStart` if all of the iterators are within a range
and otherwise those before the position.
-/
structure Swept (sets : List RangeSet) (t : Nat) (states : List IntersectState) (count : UInt32)
    (currentStart : UInt64) (result : RangeSet) : Prop where
  length : states.length = sets.length
  tracks : AllTrack t sets states
  count : count = UInt32.ofNat (states.countP IntersectState.end)
  optimal : result.Optimal
  started : sets.length < 2 ^ 32 → (∀ s ∈ states, s.end = true) →
    currentStart.toNat ≤ t ∧ ∀ s ∈ states, ∀ r ∈ s.it.head?, r.lo ≤ currentStart.toNat
  points : ∀ x, x ∈ result.points
    ↔ sets.length < 2 ^ 32 ∧ (∀ rs ∈ sets, x ∈ rs.points)
      ∧ x < if states.all IntersectState.end then currentStart.toNat else t

section Swept

variable {sets : List RangeSet} {t i : Nat} {states : List IntersectState} {count : UInt32}
variable {currentStart offset : UInt64} {result : RangeSet} {s s' : IntersectState} {x : Nat}

/-
The iterators go on once one of them has.
-/
theorem AllTrack.set {rs : RangeSet} (h : AllTrack t sets states) (hset : sets[i]? = some rs)
    (hnew : Tracks t rs.ranges s')
    : AllTrack t sets (states.set i s') := by
  intro j rs' s hj hs
  rw [List.getElem?_set] at hs
  split at hs
  . next heq =>
    rw [← heq, hset] at hj
    rw [← Option.some.inj hj]
    split at hs
    . rw [← Option.some.inj hs]
      exact hnew
    . cases hs
  . exact h j rs' s hj hs

/-
What is known about the first of the states, and that the others can wait for it
-/
theorem AllTrack.first (h : AllTrack t sets states) (hlen : states.length = sets.length)
    (hwf : ∀ rs ∈ sets, rs.WellFormed) (hfirst : FirstOf states (some (i, s, offset)))
    : ∃ rs r rest, sets[i]? = some rs ∧ s.it = r :: rest
        ∧ offset.toNat = (if s.end then r.hi else r.lo)
        ∧ t ≤ offset.toNat
        ∧ AllTrack offset.toNat sets states := by
  have hi : i < sets.length := by
    have := (List.getElem?_eq_some_iff.mp hfirst.1).1
    rw [← hlen]
    exact this
  have hset : sets[i]? = some sets[i] := List.getElem?_eq_getElem hi
  have htracks := h i _ _ hset hfirst.1
  have hwfi := hwf _ (List.mem_of_getElem? hset)
  obtain ⟨r, rest, hit, hoffset⟩ :=
    offset_toNat (fun a ha => hwfi.bounded a (htracks.mem_of_mem_it ha)) hfirst.2.1
  have ht : t ≤ offset.toNat := by
    rw [hoffset]
    cases hend : s.end with
    | true =>
      obtain ⟨r', rest', hit', _, hle⟩ := htracks.opened hend
      rw [hit] at hit'
      cases hit'
      exact hle
    | false =>
      apply htracks.closed hend
      rw [hit]
      exact List.mem_cons_self
  refine ⟨_, r, rest, hset, hit, hoffset, ht, ?_⟩
  intro j rs s hj hs
  have hwfj := hwf _ (List.mem_of_getElem? hj)
  exact (h j rs s hj hs).wait hwfj.separated hwfj.bounded ht
    (hfirst.2.2 s (List.mem_of_getElem? hs))

/-
There are no common points between the position and a later one if an iterator is not in a range.
-/
theorem AllTrack.not_mem {u : Nat} (h : AllTrack t sets states) (hu : AllTrack u sets states)
    (hlen : states.length = sets.length) (hs : s ∈ states) (hend : s.end = false) (htx : t ≤ x)
    (hx : x < u)
    : ¬∀ rs ∈ sets, x ∈ rs.points := by
  intro hall
  obtain ⟨j, hj⟩ := List.mem_iff_getElem?.mp hs
  have hlt : j < sets.length := by
    have := (List.getElem?_eq_some_iff.mp hj).1
    rw [← hlen]
    exact this
  have hset : sets[j]? = some sets[j] := List.getElem?_eq_getElem hlt
  exact (h j _ _ hset hj).not_mem ((hu j _ _ hset hj).closed hend) htx hx
    (hall _ (List.mem_of_getElem? hset))

theorem not_all_set (hi : i < states.length) (hend : s'.end = false)
    : ¬(states.set i s').all IntersectState.end = true := by
  rw [List.all_eq_true]
  intro hall
  have := hall s' (List.mem_set hi s')
  rw [hend] at this
  cases this

theorem insert_interval {start : UInt64} (h : result.Optimal) (hle : start.toNat ≤ offset.toNat)
    : (result.insert start (offset - start)).Optimal
        ∧
      ∀ x, x ∈ (result.insert start (offset - start)).points
        ↔ x ∈ result.points ∨ (start.toNat ≤ x ∧ x < offset.toNat) := by
  have hlen : (offset - start).toNat = offset.toNat - start.toNat := Range.sub_toNat hle
  by_cases hzero : offset - start = 0
  . rw [hzero, UInt64.toNat_zero] at hlen
    rw [hzero, insert_of_length_zero]
    refine ⟨h, ?_⟩
    intro x
    rw [iff_self_or]
    omega
  . have hb : Range.Bounded { start, length := offset - start } := by
      have := offset.toNat_lt
      unfold Range.Bounded Range.hi
      dsimp only
      omega
    obtain ⟨hopt, hpoints, _⟩ := insert_spec h hzero hb
    refine ⟨hopt, ?_⟩
    intro x
    rw [hpoints, hlen]
    apply or_congr_right
    omega

/-
The step lemma for the start of a range
-/
theorem Swept.start (h : Swept sets t states count currentStart result)
    (hwf : ∀ rs ∈ sets, rs.WellFormed) (hfirst : FirstOf states (some (i, s, offset)))
    (hend : s.end = false)
    : Swept sets offset.toNat (states.set i { s with «end» := true }) (count + 1)
        (if (count + 1).toNat = states.length then offset else currentStart) result := by
  obtain ⟨rs, r, rest, hset, hit, hoffset, ht, hu⟩ := h.tracks.first h.length hwf hfirst
  rw [hend, if_neg Bool.false_ne_true] at hoffset
  have hmem : s ∈ states := List.mem_of_getElem? hfirst.1
  have hnew : Tracks offset.toNat rs.ranges { s with «end» := true } := by
    have hle := r.lo_le_hi
    refine ⟨(hu i rs s hset hfirst.1).passed, ?_, ?_⟩
    . intro _
      exact ⟨r, rest, hit, by omega, by omega⟩
    . intro hclosed
      cases hclosed
  have htracks := hu.set hset hnew
  have hcount : count + 1
      = UInt32.ofNat ((states.set i { s with «end» := true }).countP IntersectState.end) := by
    have := @countP_set states i s { s with «end» := true } hfirst.1
    rw [hend, Bool.toNat_false, Bool.toNat_true, Nat.add_zero] at this
    rw [this, UInt32.ofNat_add, ← h.count]
    rfl
  have hsmall : (count + 1).toNat = states.length
      ↔ sets.length < 2 ^ 32 ∧ ∀ s' ∈ states.set i { s with «end» := true }, s'.end = true := by
    have := @count_eq_iff (states.set i { s with «end» := true })
    rw [← hcount, List.length_set, h.length] at this
    rw [h.length]
    exact this
  refine ⟨by rw [List.length_set, h.length], htracks, hcount, h.optimal, ?_, ?_⟩
  . intro hlt hall
    rw [if_pos (hsmall.mpr ⟨hlt, hall⟩)]
    refine ⟨Nat.le_refl _, ?_⟩
    intro s' hs' r' hr'
    obtain ⟨j, hj⟩ := List.mem_iff_getElem?.mp hs'
    have hlt : j < sets.length := by
      have := (List.getElem?_eq_some_iff.mp hj).1
      rw [List.length_set, h.length] at this
      exact this
    obtain ⟨r'', rest', hit', hlo, _⟩ :=
      (htracks j _ _ (List.getElem?_eq_getElem hlt) hj).opened (hall s' hs')
    rw [hit', List.head?_cons] at hr'
    rw [← Option.some.inj hr']
    exact hlo
  . intro x
    have hopen : ¬states.all IntersectState.end = true := by
      rw [List.all_eq_true]
      intro hall
      rw [hall s hmem] at hend
      cases hend
    rw [h.points, if_neg hopen]
    apply and_congr_right
    intro hlt
    apply and_congr_right
    intro hx
    -- Either all are open from here on, or the result has to reach up to here.
    have hbound : (if (states.set i { s with «end» := true }).all IntersectState.end = true then
        (if (count + 1).toNat = states.length then offset else currentStart).toNat
      else offset.toNat) = offset.toNat := by
      split
      . next hall =>
        rw [List.all_eq_true] at hall
        rw [if_pos (hsmall.mpr ⟨hlt, hall⟩)]
      . rfl
    rw [hbound]
    constructor
    . omega
    . intro hxo
      by_contra hge
      exact h.tracks.not_mem hu h.length hmem hend (by omega) hxo hx

/-
The step lemma for the end of a range
-/
theorem Swept.finish (h : Swept sets t states count currentStart result)
    (hwf : ∀ rs ∈ sets, rs.WellFormed) (hfirst : FirstOf states (some (i, s, offset)))
    (hend : s.end = true)
    : Swept sets offset.toNat (states.set i { it := s.it.tail, «end» := false }) (count - 1)
        currentStart
        (if count.toNat = states.length then
          result.insert currentStart (offset - currentStart)
        else
          result) := by
  obtain ⟨rs, r, rest, hset, hit, hoffset, ht, hu⟩ := h.tracks.first h.length hwf hfirst
  rw [hend, if_pos rfl] at hoffset
  have hi : i < states.length := (List.getElem?_eq_some_iff.mp hfirst.1).1
  have htrack := hu i rs s hset hfirst.1
  have hnew : Tracks offset.toNat rs.ranges { it := s.it.tail, «end» := false } := by
    refine ⟨?_, ?_, ?_⟩
    . obtain ⟨passed, hl, hpassed⟩ := htrack.passed
      refine ⟨passed ++ [r], ?_, ?_⟩
      . rw [hl, hit]
        simp
      . intro a ha
        cases List.mem_append.mp ha with
        | inl ha => exact hpassed a ha
        | inr ha => rw [List.mem_singleton.mp ha, hoffset]
    . intro hopen
      cases hopen
    . intro _ a ha
      have hsep := htrack.separated_it (hwf rs (List.mem_of_getElem? hset)).separated
      rw [hit] at hsep ha
      rw [hoffset]
      exact ((separated_cons.mp hsep).2.1 a ha).le
  have hcount : count - 1
      = UInt32.ofNat
        ((states.set i { it := s.it.tail, «end» := false }).countP IntersectState.end) := by
    have := @countP_set states i s { it := s.it.tail, «end» := false } hfirst.1
    rw [hend, Bool.toNat_true] at this
    have hone : states.countP IntersectState.end
        = (states.set i { it := s.it.tail, «end» := false }).countP IntersectState.end + 1 :=
      this.symm
    rw [h.count, hone, UInt32.ofNat_add]
    exact UInt32.add_sub_cancel _ _
  have hsmall : count.toNat = states.length
      ↔ sets.length < 2 ^ 32 ∧ ∀ s' ∈ states, s'.end = true := by
    rw [h.count, count_eq_iff, h.length]
  have hclosed := @not_all_set i states { it := s.it.tail, «end» := false } hi rfl
  refine ⟨by rw [List.length_set, h.length], hu.set hset hnew, hcount, ?_, ?_, ?_⟩
  . split
    . next hall =>
      have := (h.started (hsmall.mp hall).1 (hsmall.mp hall).2).1
      exact (insert_interval h.optimal (by omega)).1
    . exact h.optimal
  . intro _ hall
    rw [List.all_eq_true] at hclosed
    exact (hclosed hall).elim
  . intro x
    rw [if_neg hclosed]
    split
    . next hall =>
      rw [hsmall] at hall
      obtain ⟨hle, hlo⟩ := h.started hall.1 hall.2
      rw [(insert_interval h.optimal (by omega)).2, h.points,
        if_pos (List.all_eq_true.mpr hall.2)]
      constructor
      . intro hx
        cases hx with
        | inl hx => exact ⟨hx.1, hx.2.1, by omega⟩
        | inr hx =>
          refine ⟨hall.1, ?_, hx.2⟩
          intro rs' hrs'
          obtain ⟨j, hj⟩ := List.mem_iff_getElem?.mp hrs'
          have hlt : j < states.length := by
            rw [h.length]
            exact (List.getElem?_eq_some_iff.mp hj).1
          have hs' : states[j]? = some states[j] := List.getElem?_eq_getElem hlt
          have hmem' := List.mem_of_getElem? hs'
          have htrack' := hu j rs' _ hj hs'
          -- Since they are all open, the range of each of them covers the new one.
          obtain ⟨r', rest', hit', _, hhi⟩ := htrack'.opened (hall.2 _ hmem')
          have hlo' := hlo _ hmem' r' (by rw [hit', List.head?_cons]; rfl)
          have hr' : r' ∈ states[j].it := by rw [hit']; exact List.mem_cons_self
          exact mem_points_of_mem (htrack'.mem_of_mem_it hr') (by omega) (by omega)
      . intro hx
        by_cases hxs : x < currentStart.toNat
        . exact .inl ⟨hx.1, hx.2.1, hxs⟩
        . exact .inr ⟨by omega, hx.2.2⟩
    . next hall =>
      rw [h.points]
      apply and_congr_right
      intro hlt
      apply and_congr_right
      intro hx
      rw [hsmall] at hall
      have hopen : ¬∀ s' ∈ states, s'.end = true := fun h => hall ⟨hlt, h⟩
      rw [← List.all_eq_true] at hopen
      rw [if_neg hopen]
      constructor
      . omega
      . intro hxo
        by_contra hge
        rw [Bool.not_eq_true, List.all_eq_false] at hopen
        obtain ⟨s', hs', hend'⟩ := hopen
        rw [Bool.not_eq_true] at hend'
        exact h.tracks.not_mem hu h.length hs' hend' (by omega) hxo hx

/-
The run lemma
-/
theorem intersectLoop_spec {fuel : Nat} (h : Swept sets t states count currentStart result)
    (hwf : ∀ rs ∈ sets, rs.WellFormed) (hne : sets ≠ []) (hfuel : eventsLeft states < fuel)
    : ∃ r, intersectLoop fuel states count currentStart result = some r ∧ r.Optimal
        ∧ ∀ x, x ∈ r.points ↔ sets.length < 2 ^ 32 ∧ ∀ rs ∈ sets, x ∈ rs.points := by
  induction fuel generalizing t states count currentStart result with
  | zero => omega
  | succ fuel ih =>
    have hspec := findFirst_spec states
    unfold intersectLoop
    cases hff : findFirst none 0 states with
    | none =>
      rw [hff] at hspec
      refine ⟨result, rfl, h.optimal, ?_⟩
      intro x
      have hnil : ∀ s ∈ states, s.it = [] := by
        intro s hs
        have := hspec s hs
        unfold IntersectState.offset at this
        rw [Option.map_eq_none_iff, List.head?_eq_none_iff] at this
        exact this
      obtain ⟨rs, hrs⟩ := List.exists_mem_of_ne_nil sets hne
      obtain ⟨j, hj⟩ := List.mem_iff_getElem?.mp hrs
      have hlt : j < states.length := by
        rw [h.length]
        exact (List.getElem?_eq_some_iff.mp hj).1
      have hs := List.getElem?_eq_getElem hlt
      have htrack := h.tracks j rs _ hj hs
      have hopen : ¬states.all IntersectState.end = true := by
        rw [List.all_eq_true]
        intro hall
        obtain ⟨r, rest, hit, _⟩ := htrack.opened (hall _ (List.mem_of_getElem? hs))
        rw [hnil _ (List.mem_of_getElem? hs)] at hit
        cases hit
      rw [h.points, if_neg hopen]
      apply and_congr_right
      intro _
      rw [and_iff_left_iff_imp]
      intro hx
      by_contra hge
      -- Every range has been passed.
      have := (htrack.mem_points_iff (Nat.le_of_not_lt hge)).mp (hx rs hrs)
      rw [hnil _ (List.mem_of_getElem? hs), mem_points_nil] at this
      exact this
    | some found =>
      obtain ⟨i, s, offset⟩ := found
      rw [hff] at hspec
      obtain ⟨rs, r, rest, hset, hit, _⟩ := h.tracks.first h.length hwf hspec
      dsimp only
      cases hend : s.end with
      | true =>
        rw [if_pos rfl]
        apply ih (h.finish hwf hspec hend)
        have := @eventsLeft_set states i s { it := s.it.tail, «end» := false } hspec.1
        rw [hit, hend] at this
        simp only [List.length_cons, List.tail_cons, Bool.toNat_true, Bool.toNat_false] at this
        rw [hit, List.tail_cons]
        omega
      | false =>
        rw [if_neg Bool.false_ne_true]
        apply ih (h.start hwf hspec hend)
        have := @eventsLeft_set states i s { s with «end» := true } hspec.1
        rw [hit, hend] at this
        simp only [List.length_cons, Bool.toNat_true, Bool.toNat_false] at this
        rw [hit]
        omega

end Swept

theorem intersectionList_spec {sets : List RangeSet} (currentStart : UInt64)
    (hwf : ∀ rs ∈ sets, rs.WellFormed) (hne : sets ≠ [])
    : ∃ r, intersectionList currentStart sets = some r ∧ r.Optimal
        ∧ ∀ x, x ∈ r.points ↔ sets.length < 2 ^ 32 ∧ ∀ rs ∈ sets, x ∈ rs.points := by
  let states := sets.map fun rs => IntersectState.mk rs.ranges false
  have hmem : ∀ s ∈ states, s.end = false := by
    intro s hs
    obtain ⟨rs, _, heq⟩ := List.mem_map.mp hs
    rw [← heq]
  have hclosed : ¬∀ s ∈ states, s.end = true := by
    intro hall
    obtain ⟨rs, hrs⟩ := List.exists_mem_of_ne_nil sets hne
    have := hall _ (List.mem_map_of_mem hrs)
    cases this
  have hstart : Swept sets 0 states 0 currentStart (new 0) := by
    refine ⟨List.length_map _, ?_, ?_, new_optimal 0, ?_, ?_⟩
    . intro i rs s hi hs
      rw [List.getElem?_map, hi, Option.map_some] at hs
      rw [← Option.some.inj hs]
      refine ⟨⟨[], rfl, by simp⟩, ?_, ?_⟩
      . intro hopen
        cases hopen
      . intro _ r _
        exact Nat.zero_le _
    . have hzero : states.countP IntersectState.end = 0 := by
        rw [List.countP_eq_zero]
        intro s hs
        rw [hmem s hs]
        exact Bool.false_ne_true
      rw [hzero]
      rfl
    . intro _ hall
      exact (hclosed hall).elim
    . intro x
      rw [← List.all_eq_true] at hclosed
      rw [if_neg hclosed]
      simp [new, points]
  have hfuel : eventsLeft states < 2 * (sets.map fun rs => rs.ranges.length).sum + 1 := by
    have : eventsLeft states = 2 * (sets.map fun rs => rs.ranges.length).sum := by
      unfold eventsLeft
      rw [List.map_map]
      exact List.sum_map_mul_left sets (fun rs => rs.ranges.length) 2
    omega
  exact intersectLoop_spec hstart hwf hne hfuel

/--
The counter has 32 bits: with more sets than that it never gets to their number, and nothing is found.
-/
theorem intersectionList_iff (sets : List RangeSet) (currentStart : UInt64) (hne : sets ≠ [])
    (hwf : ∀ rs ∈ sets, rs.WellFormed)
    : ∃ r, intersectionList currentStart sets = some r ∧ r.WellFormed
        ∧ ((∀ x, x ∈ r.points ↔ ∀ rs ∈ sets, x ∈ rs.points)
          ↔ sets.length < 2 ^ 32 ∨ ¬∃ x, ∀ rs ∈ sets, x ∈ rs.points) := by
  obtain ⟨r, hr, hopt, hpoints⟩ := intersectionList_spec currentStart hwf hne
  refine ⟨r, hr, hopt.toWellFormed, ?_⟩
  constructor
  . intro hall
    rw [or_iff_not_imp_right, not_not]
    intro hcommon
    obtain ⟨x, hx⟩ := hcommon
    exact ((hpoints x).mp ((hall x).mpr hx)).1
  . intro hcond x
    rw [hpoints, and_iff_right_iff_imp]
    intro hx
    cases hcond with
    | inl hlt => exact hlt
    | inr hnone => exact (hnone ⟨x, hx⟩).elim

theorem intersectionList_iff_pair
    : let sets : List RangeSet :=
        [{ ranges := [⟨0, 4⟩, ⟨6, 2⟩], endOffset := 8 }, { ranges := [⟨2, 5⟩], endOffset := 9 }]
      sets.length = 2
        ∧ ∃ r, intersectionList 0 sets = some r ∧ r.WellFormed
          ∧ ∀ x, x ∈ r.points ↔ ∀ rs ∈ sets, x ∈ rs.points := by
  intro sets
  have hb : ∀ rs ∈ sets, ∀ r ∈ rs.ranges, r.hi < 2 ^ 64 := by decide
  have hlt : ∀ rs ∈ sets, ∀ r ∈ rs.ranges, r.lo < r.hi := by decide
  have hapart : ∀ rs ∈ sets, rs.ranges.Pairwise fun a b => a.hi < b.lo := by decide
  have hwf : ∀ rs ∈ sets, rs.WellFormed := fun rs hrs => ⟨hb rs hrs, hlt rs hrs, hapart rs hrs⟩
  obtain ⟨r, hr, hwfr, hiff⟩ := intersectionList_iff sets 0 (List.cons_ne_nil _ _) hwf
  exact ⟨rfl, r, hr, hwfr, hiff.mpr (.inl (by decide))⟩

-- As many copies of the same point as the counter can count to have nothing in common.
theorem intersectionList_misses
    : ¬∀ (sets : List RangeSet) (currentStart : UInt64), sets ≠ [] → (∀ rs ∈ sets, rs.WellFormed) →
        ∃ r, intersectionList currentStart sets = some r ∧ r.WellFormed
          ∧ ∀ x, x ∈ r.points ↔ ∀ rs ∈ sets, x ∈ rs.points := by
  intro h
  let rs : RangeSet := { ranges := [⟨0, 1⟩], endOffset := 1 }
  have hb : ∀ r ∈ rs.ranges, r.hi < 2 ^ 64 := by decide
  have hwfrs : rs.WellFormed := ⟨hb, by decide, by decide⟩
  have hlen : (List.replicate (2 ^ 32) rs).length = 2 ^ 32 := List.length_replicate
  have hne : List.replicate (2 ^ 32) rs ≠ [] := by
    apply List.ne_nil_of_length_pos
    rw [hlen]
    omega
  have hwf : ∀ rs' ∈ List.replicate (2 ^ 32) rs, rs'.WellFormed := by
    intro rs' hrs'
    rw [List.eq_of_mem_replicate hrs']
    exact hwfrs
  obtain ⟨r, hr, _, hpoints⟩ := h _ 0 hne hwf
  obtain ⟨r', hr', _, hpoints'⟩ := intersectionList_spec 0 hwf hne
  rw [hr] at hr'
  rw [← Option.some.inj hr', hlen] at hpoints'
  have hzero : 0 ∈ r.points := by
    rw [hpoints]
    intro rs' hrs'
    rw [List.eq_of_mem_replicate hrs']
    exact mem_points_of_mem List.mem_cons_self (by decide) (by decide)
  exact Nat.lt_irrefl _ ((hpoints' 0).mp hzero).1

end RangeSet
end Misc
end ObTools
