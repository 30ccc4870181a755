import ObTools.Gather.Buffer

/-!
This module contains what a list of segments stands for: the data it refers to, and the memory that
it must have for itself so that no operation on one segment shows through another one. It then contains what the loops
of `Gather::Buffer` do to the content of the segments.
-/

namespace ObTools
namespace Gather

variable {m m' : Memory UInt8} {changed : Set Pointer}

namespace Segment

variable {seg : Segment}

def bytes (m : Memory UInt8) (seg : Segment) : Bytes := (m.read seg.data seg.length).getD []

-- The block that is owned belongs to it as a whole
def footprint (seg : Segment) : Set Pointer :=
  { a | ∃ b, seg.ownedData = some b ∧ a.block = some b } ∪ seg.data.region seg.length

structure Valid (m : Memory UInt8) (seg : Segment) : Prop where
  readable : (m.read seg.data seg.length).isSome
  live : ∀ b, seg.ownedData = some b → (m.lookup b).isSome

namespace Valid

theorem read_eq (h : seg.Valid m) : m.read seg.data seg.length = some (seg.bytes m) := by
  obtain ⟨bytes, hread⟩ := Option.isSome_iff_exists.mp h.readable
  rw [Segment.bytes, hread]
  rfl

theorem length_bytes (h : seg.Valid m) : (seg.bytes m).length = seg.length :=
  Memory.length_read h.read_eq

theorem bytes_frame (hf : Memory.Frame changed m m') (hd : Disjoint seg.footprint changed)
    : seg.bytes m' = seg.bytes m := by
  unfold bytes
  rw [hf.read_eq]
  exact hd.mono_left Set.subset_union_right

theorem frame (h : seg.Valid m) (hf : Memory.Frame changed m m')
    (hd : Disjoint seg.footprint changed)
    : seg.Valid m' where
  readable := by
    rw [hf.read_eq (hd.mono_left Set.subset_union_right)]
    exact h.readable
  live := by
    intro b hb
    apply hf.live b _ (h.live b hb)
    intro i
    exact Set.disjoint_left.mp hd (.inl ⟨b, hb, rfl⟩)

end Valid

theorem ofData_spec {p : Pointer} {n : Nat} {bytes : Bytes} (h : m.read p n = some bytes)
    : (ofData p n).Valid m ∧ (ofData p n).bytes m = bytes := by
  refine ⟨⟨Option.isSome_of_eq_some h, ?_⟩, ?_⟩
  . intro b hb
    contradiction
  . unfold Segment.bytes ofData
    rw [h]
    rfl

theorem deleteOwned_spec (h : seg.Valid m)
    : ∃ m', seg.deleteOwned m = some m' ∧ Memory.Frame seg.footprint m m' := by
  unfold deleteOwned
  cases hb : seg.ownedData with
  | none => exact ⟨m, rfl, Memory.Frame.refl _ m⟩
  | some b =>
    obtain ⟨m', hfree⟩ := Memory.free_of_live (h.live b hb)
    refine ⟨m', hfree, (Memory.Frame.of_free hfree).mono ?_⟩
    intro a ha
    exact .inl ⟨b, hb, ha⟩

end Segment

-- The concatenation of the data of the segments
def content (m : Memory UInt8) (segments : List Segment) : Bytes :=
  segments.flatMap fun seg => seg.bytes m

def total (segments : List Segment) : Nat := (segments.map Segment.length).sum

def footprints (segments : List Segment) : Set Pointer :=
  { a | ∃ seg ∈ segments, a ∈ seg.footprint }

-- That no two segments refer to the same memory
def Separate (segments : List Segment) : Prop :=
  segments.Pairwise fun s t => Disjoint s.footprint t.footprint

structure WellFormed (m : Memory UInt8) (segments : List Segment) : Prop where
  valid : ∀ seg ∈ segments, seg.Valid m
  separate : Separate segments

variable {seg : Segment} {segments segments' : List Segment}

theorem content_cons
    : content m (seg :: segments) = seg.bytes m ++ content m segments := rfl

theorem content_append
    : content m (segments ++ segments') = content m segments ++ content m segments' := by
  unfold content
  rw [List.flatMap_append]

theorem total_cons : total (seg :: segments) = seg.length + total segments := by
  unfold total
  rw [List.map_cons, List.sum_cons]

theorem length_content (h : ∀ seg ∈ segments, seg.Valid m)
    : (content m segments).length = total segments := by
  induction segments with
  | nil => rfl
  | cons seg segments ih =>
    rw [content_cons, total_cons, List.length_append, (h seg (by simp)).length_bytes, ih]
    intro seg' hseg'
    exact h seg' (by simp [hseg'])

theorem footprints_cons : footprints (seg :: segments) = seg.footprint ∪ footprints segments := by
  ext a
  simp [footprints]

theorem content_frame (hf : Memory.Frame changed m m')
    (hd : ∀ seg ∈ segments, Disjoint seg.footprint changed)
    : content m' segments = content m segments := by
  unfold content
  induction segments with
  | nil => rfl
  | cons seg segments ih =>
    rw [List.flatMap_cons, List.flatMap_cons, Segment.Valid.bytes_frame hf (hd seg (by simp)), ih]
    intro seg' hseg'
    exact hd seg' (by simp [hseg'])

theorem Separate.disjoint_footprints (h : Separate (seg :: segments))
    : Disjoint seg.footprint (footprints segments) := by
  rw [Set.disjoint_left]
  rintro a ha ⟨seg', hseg', ha'⟩
  exact Set.disjoint_left.mp ((List.pairwise_cons.mp h).1 seg' hseg') ha ha'

theorem Separate.disjoint_tail (h : Separate (seg :: segments))
    : ∀ s ∈ segments, Disjoint s.footprint seg.footprint := by
  intro s hs
  exact ((List.pairwise_cons.mp h).1 s hs).symm

theorem Separate.tail (h : Separate (seg :: segments)) : Separate segments :=
  (List.pairwise_cons.mp h).2

namespace WellFormed

theorem tail (h : WellFormed m (seg :: segments)) : WellFormed m segments where
  valid := fun seg hseg => h.valid seg (by simp [hseg])
  separate := h.separate.tail

theorem frame (h : WellFormed m segments) (hf : Memory.Frame changed m m')
    (hd : ∀ seg ∈ segments, Disjoint seg.footprint changed)
    : WellFormed m' segments where
  valid := fun seg hseg => (h.valid seg hseg).frame hf (hd seg hseg)
  separate := h.separate

theorem sublist (h : WellFormed m segments) (hs : List.Sublist segments' segments)
    : WellFormed m segments' where
  valid := fun seg hseg => h.valid seg (hs.subset hseg)
  separate := h.separate.sublist hs

/--
There are as many bytes as the memory has, at most.
-/
theorem total_le_size (h : WellFormed m segments) : total segments ≤ m.size := by
  have hsum := Memory.sum_le_size (m := m)
    (l := segments.map fun seg => (seg.data, seg.length)) ?_ ?_
  . rw [List.map_map] at hsum
    exact hsum
  . intro e he
    rw [List.mem_map] at he
    obtain ⟨seg, hseg, rfl⟩ := he
    exact (h.valid seg hseg).readable
  . rw [List.pairwise_map]
    apply h.separate.imp
    intro s t hd
    exact hd.mono Set.subset_union_right Set.subset_union_right

end WellFormed

/--
Segments are apart if they have been so with more memory than they have now.
-/
theorem Separate.of_subset
    (h : List.Forall₂ (fun s t : Segment => s.footprint ⊆ t.footprint) segments' segments)
    (hs : Separate segments)
    : Separate segments' := by
  induction h with
  | nil => exact hs
  | @cons s t segments' segments hst hrest ih =>
    have htail := List.pairwise_cons.mp hs
    apply List.pairwise_cons.mpr
    refine ⟨?_, ih htail.2⟩
    intro s' hs'
    obtain ⟨i, hi, rfl⟩ := List.getElem_of_mem hs'
    have hlen := hrest.length_eq
    have hsub := List.forall₂_iff_get.mp hrest |>.2 i hi (by omega)
    exact (htail.1 _ (List.getElem_mem (by omega))).mono hst hsub

end Gather
end ObTools

namespace ObTools
namespace Gather
namespace Buffer

variable {m : Memory UInt8} {segments : List Segment}

theorem getLength_eq {b : Buffer} (h : total b.used < 2 ^ 64) : b.getLength = total b.used := by
  have hloop (segments : List Segment) (n : Nat) (h : n + total segments < 2 ^ 64)
      : segments.foldl (fun total seg => (total + seg.length) % 2 ^ 64) n = n + total segments := by
    induction segments generalizing n with
    | nil => rfl
    | cons seg segments ih =>
      rw [total_cons] at h ⊢
      rw [List.foldl_cons, Nat.mod_eq_of_lt (by omega), ih _ (by omega)]
      omega
  unfold getLength
  rw [hloop _ _ (by omega), Nat.zero_add]

/-
Subtraction of natural numbers is what the source makes a case distinction for.
-/
theorem part_eq {seg : Segment} {offset gatherOffset wanted : Nat}
    : part seg offset gatherOffset wanted
        =
      (offset - gatherOffset, min wanted (seg.length - (offset - gatherOffset))) := by
  unfold part
  have hstart : (if gatherOffset > offset then 0 else offset - gatherOffset) = offset - gatherOffset := by
    split <;> omega
  dsimp only
  rw [hstart]
  congr 1
  split <;> omega

/--
A run of data over a segment and those behind it.
-/
theorem slice_append {x y : Bytes} {start wanted : Nat} (h : start ≤ x.length)
    : ((x ++ y).drop start).take wanted
        =
      (x.drop start).take (min wanted (x.length - start))
        ++ y.take (wanted - min wanted (x.length - start)) := by
  rw [List.drop_append, List.take_append, Nat.sub_eq_zero_of_le h, List.drop_zero, List.length_drop]
  congr 1
  . rw [← List.length_drop, ← List.take_take, List.take_length]
  . congr 1
    omega

theorem copyLoop_spec {offset len : Nat} {gatherOffset : Nat} {data : Bytes}
    (hvalid : ∀ seg ∈ segments, seg.Valid m) (htotal : gatherOffset + total segments < 2 ^ 64)
    (hdata : data.length ≤ len)
    : copyLoop m offset len segments gatherOffset data
        =
      some (data
        ++ ((content m segments).drop (offset - gatherOffset)).take (len - data.length)) := by
  induction segments generalizing gatherOffset data with
  | nil => simp [copyLoop, content]
  | cons seg segments ih =>
    have hseg := hvalid seg (by simp)
    have hrest : ∀ seg ∈ segments, seg.Valid m := fun seg hseg => hvalid seg (by simp [hseg])
    have hlen := hseg.length_bytes
    rw [total_cons] at htotal
    rw [copyLoop, Nat.mod_eq_of_lt (by omega), part_eq, content_cons]
    split
    . next hin =>
      have hread : m.read (seg.data.add (offset - gatherOffset))
          (min (len - data.length) (seg.length - (offset - gatherOffset))) = _ :=
        Memory.read_add hseg.read_eq (by omega)
      have hread_len := Memory.length_read hread
      dsimp only
      rw [hread, slice_append (by omega), hlen]
      generalize hn : min (len - data.length) (seg.length - (offset - gatherOffset)) = n
      rw [hn] at hread_len
      simp only [Option.bind_eq_bind, Option.bind_some]
      rw [List.length_append, hread_len]
      split
      . next hdone =>
        have hall : len - data.length - n = 0 := by omega
        rw [hall, List.take_zero, List.append_nil]
      . next hmore =>
        rw [ih hrest (by omega) (by rw [List.length_append]; omega)]
        have hstart : offset - (gatherOffset + seg.length) = 0 := by omega
        rw [hstart, List.drop_zero, List.length_append, hread_len, List.append_assoc]
        congr 4
        omega
    . next hout =>
      have hskip : (seg.bytes m).drop (offset - gatherOffset) = [] := by
        apply List.drop_of_length_le
        omega
      rw [ih hrest (by omega) hdata, List.drop_append, hskip, List.nil_append, hlen]
      congr 4
      omega

/--
`copy` gives the slice of the content, clipped at the end.
-/
theorem copy_spec {b : Buffer} (h : WellFormed m b.used) (hsize : m.size < 2 ^ 64)
    (offset len : Nat)
    : b.copy m offset len = some (((content m b.used).drop offset).take len) := by
  have htotal := h.total_le_size
  unfold copy
  rw [copyLoop_spec h.valid (by omega) (by simp)]
  simp

/-
That `n` more segments can be added. The array cannot be doubled any more once it has `2 ^ 31`
elements.
-/
def Room (b : Buffer) (n : Nat) : Prop := b.count + n ≤ b.size ∨ b.count + n ≤ 2 ^ 31

theorem extend_spec {b : Buffer} {n : Nat} (h : b.Room (n + 1))
    : ∃ b', b.extend = some b' ∧ b'.used = b.used ∧ b'.count < b'.size ∧ b'.Room (n + 1) := by
  unfold Room at h
  unfold extend
  split
  . next hfull =>
    have hsize : b.count = b.size := by
      unfold count size at *
      omega
    have hnew : b.count < if b.size ≠ 0 then b.size * 2 % 2 ^ 32 else 1 := by
      split <;> omega
    generalize hnewSize : (if b.size ≠ 0 then b.size * 2 % 2 ^ 32 else 1) = newSize at hnew ⊢
    refine ⟨_, if_neg (by omega), ?_, ?_, ?_⟩
    . simp [Segment.take]
    . unfold count at hnew
      simp only [count, size, List.length_map, List.length_replicate]
      omega
    . unfold count at h hsize hnew
      unfold Room
      simp only [count, size, List.length_map, List.length_replicate]
      omega
  . exact ⟨b, rfl, rfl, by omega, h⟩

theorem addSegment_spec {b : Buffer} {n : Nat} (h : b.Room (n + 1)) (seg : Segment)
    : ∃ b', b.addSegment seg = some b' ∧ b'.used = b.used ++ [seg] ∧ b'.Room n := by
  obtain ⟨b', hextend, hused, hlt, hroom⟩ := extend_spec h
  unfold addSegment
  rw [hextend]
  refine ⟨_, rfl, by rw [hused]; rfl, ?_⟩
  unfold Room count size at *
  simp only [List.length_append, List.length_singleton, List.length_tail]
  omega

theorem insert_spec {b : Buffer} (h : b.Room 1) (seg : Segment) {pos : Nat} (hpos : pos ≤ b.count)
    : ∃ b', b.insert seg pos = some b' ∧ b'.used = b.used.take pos ++ seg :: b.used.drop pos := by
  obtain ⟨b', hextend, hused, -, -⟩ := extend_spec (n := 0) h
  have hcount : b'.count = b.count := by
    unfold count
    rw [hused]
  unfold insert
  rw [hextend]
  simp only [Option.bind_eq_bind, Option.bind_some]
  rw [if_neg (by omega), hused]
  exact ⟨_, rfl, rfl⟩

theorem addRangeLoop_spec (offset len gatherOffset dataRead : Nat) {b : Buffer}
    (hvalid : ∀ seg ∈ segments, seg.Valid m) (htotal : gatherOffset + total segments < 2 ^ 64)
    (hroom : b.Room segments.length)
    : ∃ b' added,
        addRangeLoop offset len segments gatherOffset dataRead b = some b'
          ∧
        b'.used = b.used ++ added
          ∧
        (∀ seg ∈ added, seg.Valid m)
          ∧
        content m added
          =
        ((content m segments).drop (offset - gatherOffset)).take (len - dataRead) := by
  induction segments generalizing gatherOffset dataRead b with
  | nil => exact ⟨b, [], rfl, by simp, by simp, by simp [content]⟩
  | cons seg segments ih =>
    have hseg := hvalid seg (by simp)
    have hrest : ∀ seg ∈ segments, seg.Valid m := fun seg hseg => hvalid seg (by simp [hseg])
    have hlen := hseg.length_bytes
    rw [total_cons] at htotal
    rw [addRangeLoop, Nat.mod_eq_of_lt (by omega), part_eq, content_cons]
    split
    . next hin =>
      dsimp only
      rw [slice_append (by omega), hlen]
      have hread : m.read (seg.data.add (offset - gatherOffset))
          (min (len - dataRead) (seg.length - (offset - gatherOffset))) = _ :=
        Memory.read_add hseg.read_eq (by omega)
      generalize hn : min (len - dataRead) (seg.length - (offset - gatherOffset)) = n at hread ⊢
      obtain ⟨hvalid1, hbytes1⟩ := Segment.ofData_spec hread
      obtain ⟨b1, hadd, hused1, hroom1⟩ := addSegment_spec hroom
        (Segment.ofData (seg.data.add (offset - gatherOffset)) n)
      unfold add
      rw [hadd]
      generalize Segment.ofData (seg.data.add (offset - gatherOffset)) n = ref at hvalid1 hbytes1 hused1
      simp only [Option.bind_eq_bind, Option.bind_some]
      split
      . next hdone =>
        have hall : len - dataRead - n = 0 := by omega
        refine ⟨b1, [ref], rfl, hused1, by simpa using hvalid1, ?_⟩
        rw [content_cons, hbytes1, hall]
        rfl
      . next hmore =>
        obtain ⟨b2, added, hloop, hused2, hvalid2, hcontent2⟩ := ih (gatherOffset + seg.length)
          (dataRead + n) hrest (by omega) hroom1
        have hstart : offset - (gatherOffset + seg.length) = 0 := by omega
        have hwanted : len - (dataRead + n) = len - dataRead - n := by omega
        refine ⟨b2, ref :: added, hloop, ?_, by simpa using ⟨hvalid1, hvalid2⟩, ?_⟩
        . rw [hused2, hused1, List.append_assoc]
          rfl
        . rw [content_cons, hbytes1, hcontent2, hstart, List.drop_zero, hwanted]
    . next hout =>
      have hskip : (seg.bytes m).drop (offset - gatherOffset) = [] := by
        apply List.drop_of_length_le
        omega
      have hroom' : b.Room segments.length := by
        unfold Room at *
        rw [List.length_cons] at hroom
        omega
      have hoffset : offset - gatherOffset - seg.length = offset - (gatherOffset + seg.length) := by
        omega
      rw [List.drop_append, hskip, List.nil_append, hlen, hoffset]
      exact ih _ _ hrest (by omega) hroom'

theorem addRange_spec {b other : Buffer} (offset len : Nat)
    (hvalid : ∀ seg ∈ other.used, seg.Valid m) (htotal : total other.used < 2 ^ 64)
    (hroom : b.Room other.count)
    : ∃ b' added,
        b.addRange other offset len = some b'
          ∧
        b'.used = b.used ++ added
          ∧
        (∀ seg ∈ added, seg.Valid m)
          ∧
        content m added = ((content m other.used).drop offset).take len :=
  addRangeLoop_spec offset len 0 0 hvalid (by omega) hroom

end Buffer
end Gather
end ObTools
