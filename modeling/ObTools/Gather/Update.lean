import ObTools.Gather.BufferLemmas
import ObTools.Gather.ByteString

/-!
This module contains what the operations of `Gather::Buffer` that take data away, move it or write
over it do to the content of the segments. A segment that is not involved keeps its data because no
other segment refers to the same memory.
-/

namespace ObTools
namespace Gather
namespace Buffer

variable {m m' : Memory UInt8} {segments segments' : List Segment}

theorem empty_valid (m : Memory UInt8) : Segment.empty.Valid m := by
  refine ⟨?_, ?_⟩
  . simp [Segment.empty]
  . intro b hb
    contradiction

theorem bytes_of_length_zero {seg : Segment} (h : seg.length = 0) : seg.bytes m = [] := by
  unfold Segment.bytes
  rw [h, Memory.read_zero]
  rfl

theorem empty_footprint (seg : Segment) : Segment.empty.footprint ⊆ seg.footprint := by
  rintro a (⟨b, hb, -⟩ | ha)
  . contradiction
  . rw [Segment.empty, Pointer.region_zero] at ha
    contradiction

-- A part of a segment, with the same block owned
theorem sub_footprint {seg : Segment} {k l : Nat} (h : k + l ≤ seg.length)
    : Segment.footprint { seg with data := seg.data.add k, length := l } ⊆ seg.footprint := by
  rintro a (ha | ha)
  . exact .inl ha
  . exact .inr (Pointer.region_add_subset h ha)

theorem sub_valid {seg : Segment} (hseg : seg.Valid m) {k l : Nat} (h : k + l ≤ seg.length)
    : Segment.Valid m { seg with data := seg.data.add k, length := l }
        ∧
      Segment.bytes m { seg with data := seg.data.add k, length := l }
        = ((seg.bytes m).drop k).take l := by
  have hread := Memory.read_add hseg.read_eq h
  refine ⟨⟨Option.isSome_of_eq_some hread, hseg.live⟩, ?_⟩
  unfold Segment.bytes at *
  dsimp only
  rw [hread]
  rfl

theorem limitLoop_spec {length n : Nat} (hvalid : ∀ seg ∈ segments, seg.Valid m)
    (htotal : n + total segments < 2 ^ 64) (hle : n ≤ length)
    : let res := limitLoop length segments n
      res.1 = min length (n + total segments)
        ∧
      content m res.2.1 = (content m segments).take (length - n)
        ∧
      (∀ seg ∈ res.2.1, seg.Valid m) ∧ (∀ seg ∈ res.2.2, seg.Valid m)
        ∧
      List.Forall₂ (fun s t : Segment => s.footprint ⊆ t.footprint) (res.2.1 ++ res.2.2) segments := by
  induction segments generalizing n with
  | nil =>
    refine ⟨?_, by simp [limitLoop, content], by simp [limitLoop], by simp [limitLoop], .nil⟩
    simp only [limitLoop, total, List.map_nil, List.sum_nil]
    omega
  | cons seg segments ih =>
    have hseg := hvalid seg (by simp)
    have hrest : ∀ seg ∈ segments, seg.Valid m := fun seg hseg => hvalid seg (by simp [hseg])
    have hlen := hseg.length_bytes
    rw [total_cons] at htotal ⊢
    simp only [limitLoop]
    rw [Nat.mod_eq_of_lt (by omega), content_cons]
    split
    . next hge =>
      have hreduced : (seg.length + 2 ^ 64 - (n + seg.length - length)) % 2 ^ 64 = length - n := by
        omega
      have hpart : 0 + (length - n) ≤ seg.length := by omega
      obtain ⟨hvalid', hbytes'⟩ := sub_valid hseg hpart
      rw [hreduced]
      refine ⟨by dsimp only; omega, ?_, by simpa using hvalid', hrest, ?_⟩
      . rw [List.take_append_of_le_length (by omega), content_cons]
        simpa [content] using hbytes'
      . refine .cons (sub_footprint hpart) ?_
        exact List.forall₂_same.mpr fun _ _ => Set.Subset.rfl
    . next hlt =>
      obtain ⟨h1, h2, h3, h4, h5⟩ := ih (n := n + seg.length) hrest (by omega) (by omega)
      refine ⟨by rw [h1]; omega, ?_, by simpa using ⟨hseg, h3⟩, h4, .cons Set.Subset.rfl h5⟩
      have hall : (seg.bytes m).take (length - n) = seg.bytes m :=
        List.take_of_length_le (by omega)
      have hmore : length - (n + seg.length) = length - n - seg.length := by omega
      rw [content_cons, h2, List.take_append, hall, hlen, hmore]

theorem destroyAll_spec (h : WellFormed m segments)
    : ∃ destroyed m',
        destroyAll segments m = some (destroyed, m') ∧ Memory.Frame (footprints segments) m m' := by
  induction segments generalizing m with
  | nil => exact ⟨[], m, rfl, Memory.Frame.refl _ m⟩
  | cons seg segments ih =>
    obtain ⟨m1, hdelete, hf1⟩ := Segment.deleteOwned_spec (h.valid seg (by simp))
    have hd := h.separate.disjoint_tail
    obtain ⟨destroyed, m2, hloop, hf2⟩ := ih (h.tail.frame hf1 hd)
    refine ⟨{ seg with ownedData := none } :: destroyed, m2, ?_, (hf1.mono ?_).trans (hf2.mono ?_)⟩
    . simp [destroyAll, Segment.destroy, hdelete, hloop]
    . rw [footprints_cons]
      exact Set.subset_union_left
    . rw [footprints_cons]
      exact Set.subset_union_right

theorem limit_spec {b : Buffer} (h : WellFormed m b.used) (hsize : m.size < 2 ^ 64) (length : Nat)
    : ∃ b' m',
        b.limit m length = some (min length (content m b.used).length, b', m')
          ∧
        content m' b'.used = (content m b.used).take length
          ∧
        WellFormed m' b'.used ∧ m'.size ≤ m.size := by
  have htotal := h.total_le_size
  have hlen := length_content h.valid
  have hloop := limitLoop_spec h.valid (by omega) (Nat.zero_le length)
  unfold limit
  generalize limitLoop length b.used 0 = res at hloop ⊢
  obtain ⟨n, needed, remaining⟩ := res
  obtain ⟨h1, h2, h3, h4, h5⟩ := hloop
  dsimp only at h1 h2 h3 h4 h5 ⊢
  have hsep := List.pairwise_append.mp (h.separate.of_subset h5)
  obtain ⟨destroyed, m', hdestroy, hf⟩ := destroyAll_spec ⟨h4, hsep.2.1⟩
  have hd : ∀ seg ∈ needed, Disjoint seg.footprint (footprints remaining) := by
    intro seg hseg
    rw [Set.disjoint_left]
    rintro a ha ⟨seg', hseg', ha'⟩
    exact Set.disjoint_left.mp (hsep.2.2 seg hseg seg' hseg') ha ha'
  have hwf : WellFormed m needed := ⟨h3, hsep.1⟩
  rw [hdestroy]
  refine ⟨{ used := needed, stale := destroyed ++ b.stale }, m', ?_, ?_, hwf.frame hf hd, hf.size_le⟩
  . rw [h1, hlen, Nat.zero_add]
    rfl
  . rw [content_frame hf hd, h2, Nat.sub_zero]

theorem consumeLoop_spec {n : Nat} (h : WellFormed m segments)
    : ∃ segments' m',
        consumeLoop segments n m = some (segments', m')
          ∧
        content m' segments' = (content m segments).drop n
          ∧
        (∀ seg ∈ segments', seg.Valid m') ∧ Memory.Frame (footprints segments) m m'
          ∧
        List.Forall₂ (fun s t : Segment => s.footprint ⊆ t.footprint) segments' segments := by
  induction segments generalizing m n with
  | nil => exact ⟨[], m, rfl, by simp [content], by simp, Memory.Frame.refl _ m, .nil⟩
  | cons seg segments ih =>
    have hseg := h.valid seg (by simp)
    have hlen := hseg.length_bytes
    rw [consumeLoop, content_cons, footprints_cons]
    split
    . next hzero =>
      obtain ⟨segments', m', hloop, hcontent, hvalid, hf, hsub⟩ := ih (n := n) h.tail
      rw [hloop]
      refine ⟨seg :: segments', m', rfl, ?_, ?_, hf.mono Set.subset_union_right,
        .cons Set.Subset.rfl hsub⟩
      . rw [content_cons, bytes_of_length_zero hzero, bytes_of_length_zero hzero]
        exact hcontent
      . simpa using ⟨hseg.frame hf h.separate.disjoint_footprints, hvalid⟩
    . split
      . next hgt =>
        have hpart : n + (seg.length - n) ≤ seg.length := by omega
        obtain ⟨hvalid', hbytes'⟩ := sub_valid hseg hpart
        refine ⟨seg.consume n :: segments, m, rfl, ?_, ?_, Memory.Frame.refl _ m, ?_⟩
        . rw [content_cons, List.drop_append_of_le_length (by omega)]
          have hall : ((seg.bytes m).drop n).take (seg.length - n) = (seg.bytes m).drop n := by
            apply List.take_of_length_le
            rw [List.length_drop]
            omega
          rw [← hall, ← hbytes']
          rfl
        . intro s hs
          rw [List.mem_cons] at hs
          cases hs with
          | inl heq => exact heq ▸ hvalid'
          | inr hs => exact h.tail.valid s hs
        . refine .cons (sub_footprint hpart) ?_
          exact List.forall₂_same.mpr fun _ _ => Set.Subset.rfl
      . next hle =>
        obtain ⟨m1, hdelete, hf1⟩ := Segment.deleteOwned_spec hseg
        have hd := h.separate.disjoint_tail
        obtain ⟨segments', m', hloop, hcontent, hvalid, hf, hsub⟩ :=
          ih (n := n - seg.length) (h.tail.frame hf1 hd)
        unfold Segment.reset
        rw [hdelete]
        simp only [Option.bind_eq_bind, Option.bind_some]
        rw [hloop]
        refine ⟨Segment.empty :: segments', m', rfl, ?_, ?_, ?_, .cons (empty_footprint seg) hsub⟩
        . have hall : (seg.bytes m).drop n = [] := List.drop_of_length_le (by omega)
          rw [content_cons, bytes_of_length_zero rfl, hcontent, content_frame hf1 hd,
            List.drop_append, hall, hlen]
        . simpa using ⟨empty_valid m', hvalid⟩
        . exact (hf1.mono Set.subset_union_left).trans (hf.mono Set.subset_union_right)

theorem consume_spec {b : Buffer} (h : WellFormed m b.used) (n : Nat)
    : ∃ b' m',
        b.consume m n = some (b', m')
          ∧
        content m' b'.used = (content m b.used).drop n
          ∧
        WellFormed m' b'.used ∧ m'.size ≤ m.size := by
  obtain ⟨segments', m', hloop, hcontent, hvalid, hf, hsub⟩ := consumeLoop_spec (n := n) h
  unfold consume
  rw [hloop]
  exact ⟨_, m', rfl, hcontent, ⟨hvalid, h.separate.of_subset hsub⟩, hf.size_le⟩

/-
The free segments are always those between the ones that have been kept and the current one.
-/
structure TidyInv (used : List Segment) (i : Nat) (state : TidyState) : Prop where
  length_eq : state.segments.length = used.length
  newCount_le : state.newCount ≤ i
  free_eq : state.freeSegments = List.range' state.newCount (i - state.newCount)
  take_eq : state.segments.take state.newCount = (used.take i).filter (·.length ≠ 0)
  drop_eq : state.segments.drop i = used.drop i

theorem tidyStep_inv {used : List Segment} {i : Nat} {state : TidyState} (hi : i < used.length)
    (h : TidyInv used i state)
    : TidyInv used (i + 1) (tidyStep state i) := by
  have hget : state.segments[i]? = some used[i] := by
    have := congrArg (·[0]?) h.drop_eq
    simp only [List.getElem?_drop, Nat.add_zero] at this
    rw [this, List.getElem?_eq_getElem hi]
  have htail : state.segments.drop (i + 1) = used.drop (i + 1) := by
    have := congrArg List.tail h.drop_eq
    simpa using this
  have htake : used.take (i + 1) = used.take i ++ [used[i]] := by
    rw [List.take_add_one, List.getElem?_eq_getElem hi]
    rfl
  have hlen := h.length_eq
  have hle := h.newCount_le
  unfold tidyStep
  rw [hget]
  dsimp only
  split
  . next hne =>
    have hfilter : (used.take (i + 1)).filter (·.length ≠ 0)
        = (used.take i).filter (·.length ≠ 0) ++ [used[i]] := by
      rw [htake, List.filter_append, List.filter_singleton]
      simp [hne]
    split
    . next firstFree free hfree =>
      have hrange := h.free_eq
      rw [hfree] at hrange
      have hlt : state.newCount < i := by
        rw [Nat.lt_iff_le_and_ne]
        refine ⟨hle, ?_⟩
        intro heq
        rw [heq, Nat.sub_self] at hrange
        contradiction
      obtain ⟨k, hk⟩ : ∃ k, i - state.newCount = k + 1 := ⟨i - state.newCount - 1, by omega⟩
      rw [hk, List.range'_succ, List.cons.injEq] at hrange
      obtain ⟨hfirst, hfree⟩ := hrange
      constructor
      . simp only [List.length_set]
        exact hlen
      . dsimp only
        omega
      . dsimp only
        have hmore : i + 1 - (state.newCount + 1) = k + 1 := by omega
        have hlast : state.newCount + 1 + k = i := by omega
        rw [hfree, hmore, List.range'_concat]
        simp [hlast]
      . dsimp only
        rw [hfilter, ← h.take_eq, hfirst, List.take_set_of_le (by omega), List.take_add_one,
          List.getElem?_set_self (by omega), List.take_set_of_le (by omega)]
        rfl
      . dsimp only
        rw [List.drop_set_of_lt (by omega), List.drop_set_of_lt (by omega)]
        exact htail
    . next hfree =>
      have hrange := h.free_eq
      rw [hfree] at hrange
      have heq : state.newCount = i := by
        have := congrArg List.length hrange
        simp only [List.length_nil, List.length_range'] at this
        omega
      constructor
      . exact hlen
      . dsimp only
        omega
      . dsimp only
        rw [hfree, heq, Nat.sub_self]
        rfl
      . dsimp only
        rw [hfilter, ← h.take_eq, heq, List.take_add_one, hget]
        rfl
      . exact htail
  . next heq =>
    constructor
    . exact hlen
    . dsimp only
      omega
    . dsimp only
      have hmore : i + 1 - state.newCount = i - state.newCount + 1 := by omega
      have hlast : state.newCount + (i - state.newCount) = i := by omega
      rw [h.free_eq, hmore, List.range'_concat]
      simp [hlast]
    . dsimp only
      rw [h.take_eq, htake, List.filter_append, List.filter_singleton]
      simp only [ne_eq, Decidable.not_not] at heq
      simp [heq]
    . exact htail

theorem tidy_used (b : Buffer) : b.tidy.used = b.used.filter (·.length ≠ 0) := by
  have hloop (i : Nat) (hi : i ≤ b.used.length)
      : TidyInv b.used i ((List.range i).foldl tidyStep
          { segments := b.used, freeSegments := [], newCount := 0 }) := by
    induction i with
    | zero => exact ⟨rfl, Nat.le_refl _, rfl, rfl, rfl⟩
    | succ i ih =>
      rw [List.range_succ, List.foldl_append]
      exact tidyStep_inv hi (ih (by omega))
  have := (hloop b.count (Nat.le_refl _)).take_eq
  unfold tidy
  dsimp only
  rw [this, count, List.take_length]

theorem tidy_spec {b : Buffer} (h : WellFormed m b.used)
    : content m b.tidy.used = content m b.used ∧ WellFormed m b.tidy.used := by
  rw [tidy_used]
  refine ⟨?_, h.sublist List.filter_sublist⟩
  generalize b.used = segments
  induction segments with
  | nil => rfl
  | cons seg segments ih =>
    rw [List.filter_cons]
    split
    . rw [content_cons, content_cons, ih]
    . next heq =>
      simp only [ne_eq, decide_not, Bool.not_eq_eq_eq_not, Bool.not_true, decide_eq_false_iff_not,
        Decidable.not_not] at heq
      rw [content_cons, bytes_of_length_zero heq, List.nil_append, ih]

theorem copyIn_spec {seg : Segment} (hseg : seg.Valid m) (buf : Bytes) (offset start n : Nat)
    (hbuf : start + n ≤ buf.length) (hle : offset + n ≤ seg.length)
    : ∃ m',
        copyIn m (seg.data.add offset) buf start n = some m'
          ∧
        Memory.Frame seg.footprint m m' ∧ seg.Valid m'
          ∧
        seg.bytes m' = overwrite offset ((buf.drop start).take n) (seg.bytes m) := by
  have hn : ((buf.drop start).take n).length = n := by
    rw [List.length_take, List.length_drop]
    omega
  generalize hdata : (buf.drop start).take n = data at hn
  subst hn
  have hread := Memory.read_add hseg.read_eq hle
  obtain ⟨m', hwrite⟩ := Memory.write_of_read hread
  have hlen := hseg.length_bytes
  have hafter := Memory.read_write_within hwrite hseg.read_eq hle
  unfold copyIn
  rw [if_pos hbuf, hdata]
  refine ⟨m', hwrite, ?_, ⟨Option.isSome_of_eq_some hafter, ?_⟩, ?_⟩
  . refine (Memory.Frame.of_write hwrite).mono ?_
    exact Set.Subset.trans (Pointer.region_add_subset hle) Set.subset_union_right
  . intro b hb
    have := hseg.live b hb
    rw [← Option.isSome_map (f := List.length), Memory.lookup_write hwrite, Option.isSome_map]
    exact this
  . have hall : data.take (seg.length - offset) = data := List.take_of_length_le (by omega)
    unfold overwrite
    rw [hlen, hall]
    unfold Segment.bytes at hafter ⊢
    rw [hafter]
    rfl

/-
What has been written into a segment stays there when the segments behind it are written.
-/
theorem overwrite_cons {m1 : Memory UInt8} {seg : Segment} {offset : Nat} {data data' : Bytes}
    (h : WellFormed m (seg :: segments)) (hf1 : Memory.Frame seg.footprint m m1)
    (hf2 : Memory.Frame (footprints segments) m1 m')
    (hbytes : seg.bytes m1 = overwrite offset data' (seg.bytes m))
    (hdata' : overwrite offset data' (seg.bytes m) = overwrite offset data (seg.bytes m))
    (hrest : content m' segments
      = overwrite (offset - seg.length) (data.drop (seg.length - offset)) (content m1 segments))
    : content m' (seg :: segments) = overwrite offset data (content m (seg :: segments)) := by
  have hd := h.separate.disjoint_tail
  have hlen := (h.valid seg (by simp)).length_bytes
  rw [content_cons, content_cons, overwrite_append, hlen,
    Segment.Valid.bytes_frame hf2 h.separate.disjoint_footprints, hbytes, hdata', hrest,
    content_frame hf1 hd]

theorem replaceRest_spec (buf : Bytes) (copied : Nat) (h : WellFormed m segments)
    : ∃ m',
        replaceRest buf segments copied m = some m'
          ∧
        Memory.Frame (footprints segments) m m' ∧ (∀ seg ∈ segments, seg.Valid m')
          ∧
        content m' segments = overwrite 0 (buf.drop copied) (content m segments) := by
  induction segments generalizing m copied with
  | nil =>
    refine ⟨m, rfl, Memory.Frame.refl _ m, by simp, ?_⟩
    rw [overwrite_of_le (by simp [content])]
  | cons seg segments ih =>
    have hseg := h.valid seg (by simp)
    have hlen := hseg.length_bytes
    rw [replaceRest]
    split
    . next hlt =>
      have hneeded : (if buf.length - copied > seg.length then seg.length else buf.length - copied)
          = min (buf.length - copied) seg.length := by
        split <;> omega
      dsimp only
      rw [hneeded]
      generalize hn : min (buf.length - copied) seg.length = n
      obtain ⟨m1, hcopy, hf1, hvalid1, hbytes⟩ := copyIn_spec hseg buf 0 copied n (by omega)
        (by omega)
      obtain ⟨m', hloop, hf2, hvalid, hcontent⟩ := ih (copied + n)
        (h.tail.frame hf1 h.separate.disjoint_tail)
      rw [Pointer.add_zero] at hcopy
      rw [hcopy]
      refine ⟨m', hloop, ?_, ?_, ?_⟩
      . rw [footprints_cons]
        exact (hf1.mono Set.subset_union_left).trans (hf2.mono Set.subset_union_right)
      . simpa using ⟨hvalid1.frame hf2 h.separate.disjoint_footprints, hvalid⟩
      . apply overwrite_cons h hf1 hf2 hbytes
        . apply overwrite_take
          rw [List.length_drop, hlen]
          omega
        . rw [hcontent, Nat.zero_sub, Nat.sub_zero, List.drop_drop]
          by_cases hall : n = seg.length
          . rw [hall]
          . rw [List.drop_of_length_le (by omega), List.drop_of_length_le (by omega)]
    . next hge =>
      refine ⟨m, rfl, Memory.Frame.refl _ m, h.valid, ?_⟩
      rw [List.drop_of_length_le (by omega), overwrite_nil]

theorem replaceLoop_spec (buf : Bytes) (offset : Nat) (h : WellFormed m segments)
    (hbuf : total segments + buf.length < 2 ^ 64)
    : ∃ m',
        replaceLoop buf segments offset m = some m'
          ∧
        Memory.Frame (footprints segments) m m' ∧ (∀ seg ∈ segments, seg.Valid m')
          ∧
        content m' segments = overwrite offset buf (content m segments) := by
  induction segments generalizing offset with
  | nil =>
    refine ⟨m, rfl, Memory.Frame.refl _ m, by simp, ?_⟩
    rw [overwrite_of_le (by simp [content])]
  | cons seg segments ih =>
    have hseg := h.valid seg (by simp)
    have hlen := hseg.length_bytes
    rw [total_cons] at hbuf
    rw [replaceLoop, footprints_cons]
    split
    . next hlt =>
      rw [Nat.mod_eq_of_lt (by omega)]
      split
      . next hfast =>
        obtain ⟨m1, hcopy, hf1, hvalid1, hbytes⟩ :=
          copyIn_spec hseg buf offset 0 buf.length (by omega) (by omega)
        have hwf1 := h.tail.frame hf1 h.separate.disjoint_tail
        refine ⟨m1, hcopy, hf1.mono Set.subset_union_left, ?_, ?_⟩
        . simpa using ⟨hvalid1, hwf1.valid⟩
        . apply overwrite_cons h hf1 (Memory.Frame.refl _ m1) hbytes
          . rw [List.drop_zero, List.take_length]
          . rw [List.drop_of_length_le (by omega), overwrite_nil]
      . next hmore =>
        obtain ⟨m1, hcopy, hf1, hvalid1, hbytes⟩ :=
          copyIn_spec hseg buf offset 0 (seg.length - offset) (by omega) (by omega)
        obtain ⟨m', hrest, hf2, hvalid, hcontent⟩ := replaceRest_spec buf (seg.length - offset)
          (h.tail.frame hf1 h.separate.disjoint_tail)
        dsimp only
        rw [hcopy]
        refine ⟨m', hrest, ?_, ?_, ?_⟩
        . exact (hf1.mono Set.subset_union_left).trans (hf2.mono Set.subset_union_right)
        . simpa using ⟨hvalid1.frame hf2 h.separate.disjoint_footprints, hvalid⟩
        . apply overwrite_cons h hf1 hf2 hbytes
          . rw [List.drop_zero]
            apply overwrite_take
            omega
          . have hzero : offset - seg.length = 0 := by omega
            rw [hcontent, hzero]
    . next hge =>
      obtain ⟨m', hloop, hf, hvalid, hcontent⟩ := ih (offset - seg.length) h.tail (by omega)
      have hskip (data : Bytes) : overwrite offset data (seg.bytes m) = seg.bytes m :=
        overwrite_of_le (by omega)
      refine ⟨m', hloop, hf.mono Set.subset_union_right, ?_, ?_⟩
      . simpa using ⟨hseg.frame hf h.separate.disjoint_footprints, hvalid⟩
      . apply overwrite_cons h (Memory.Frame.refl _ m) hf (hskip []).symm
        . rw [hskip, hskip]
        . have hzero : seg.length - offset = 0 := by omega
          rw [hcontent, hzero, List.drop_zero]

theorem replace_spec {b : Buffer} (h : WellFormed m b.used) (buf : Bytes) (offset : Nat)
    (hsize : m.size + buf.length < 2 ^ 64)
    : ∃ m',
        b.replace m offset buf = some m'
          ∧
        content m' b.used = overwrite offset buf (content m b.used)
          ∧
        WellFormed m' b.used ∧ m'.size ≤ m.size := by
  have htotal := h.total_le_size
  obtain ⟨m', hloop, hf, hvalid, hcontent⟩ := replaceLoop_spec buf offset h (by omega)
  exact ⟨m', hloop, hcontent, ⟨hvalid, h.separate⟩, hf.size_le⟩

end Buffer
end Gather
end ObTools
