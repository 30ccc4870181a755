import ObTools.Gather.Refinement

/-!
This module contains the proof about `get_flat_data`. The version for more segments takes the end of
the data for a place off the end, even if there is nothing to get.
-/

namespace ObTools
namespace Gather
namespace Buffer

variable {m m' : Memory UInt8} {segments : List Segment} {seg : Segment}
variable {tempBuf : Pointer} {offset length copied : Nat} {data : Bytes}

/-
The segment can be read, and `tempBuf` is memory of its own.
-/
structure Apart (m : Memory UInt8) (tempBuf : Pointer) (length : Nat) (seg : Segment) : Prop where
  readable : (m.read seg.data seg.length).isSome
  disjoint : Disjoint (seg.data.region seg.length) (tempBuf.region length)

theorem Apart.read_eq (h : Apart m tempBuf length seg)
    : m.read seg.data seg.length = some (seg.bytes m) := by
  obtain ⟨bytes, hread⟩ := Option.isSome_iff_exists.mp h.readable
  rw [Segment.bytes, hread]
  rfl

theorem Apart.length_bytes (h : Apart m tempBuf length seg) : (seg.bytes m).length = seg.length :=
  Memory.length_read h.read_eq

-- What is written to `tempBuf` does not show.
theorem Apart.write_read {k : Nat} {bytes : Bytes} (h : Apart m tempBuf length seg)
    (hwrite : m.write (tempBuf.add k) bytes = some m') (hle : k + bytes.length ≤ length)
    : m'.read seg.data seg.length = m.read seg.data seg.length := by
  apply (Memory.Frame.of_write hwrite).read_eq
  exact h.disjoint.mono_right (Pointer.region_add_subset hle)

theorem Apart.write {k : Nat} {bytes : Bytes} (h : Apart m tempBuf length seg)
    (hwrite : m.write (tempBuf.add k) bytes = some m') (hle : k + bytes.length ≤ length)
    : Apart m' tempBuf length seg := by
  refine ⟨?_, h.disjoint⟩
  rw [h.write_read hwrite hle]
  exact h.readable

theorem content_write {k : Nat} {bytes : Bytes} (h : ∀ seg ∈ segments, Apart m tempBuf length seg)
    (hwrite : m.write (tempBuf.add k) bytes = some m') (hle : k + bytes.length ≤ length)
    : content m' segments = content m segments := by
  unfold content
  rw [List.flatMap_def, List.flatMap_def, List.map_congr_left]
  intro seg hseg
  unfold Segment.bytes
  rw [(h seg hseg).write_read hwrite hle]

theorem length_content_apart (h : ∀ seg ∈ segments, Apart m tempBuf length seg)
    : (content m segments).length = total segments := by
  induction segments with
  | nil => rfl
  | cons seg segments ih =>
    rw [content_cons, total_cons, List.length_append, (h seg List.mem_cons_self).length_bytes,
      ih fun s hs => h s (List.mem_cons_of_mem _ hs)]

theorem flattenLoop_spec (h : ∀ seg ∈ segments, Apart m tempBuf length seg)
    (hread : m.read tempBuf length = some data) (hle : copied ≤ length)
    : ∃ p m',
        flattenLoop length tempBuf segments copied m = some (p, m')
          ∧
        if copied + total segments < length then
          p = Pointer.null
        else
          p = tempBuf
            ∧ m'.read tempBuf length
              = some (data.take copied ++ (content m segments).take (length - copied)) := by
  have hlen := Memory.length_read hread
  induction segments generalizing m copied data with
  | nil =>
    unfold flattenLoop
    split
    . next hlt =>
      refine ⟨_, m, rfl, ?_⟩
      simp [total, hlt]
    . next hge =>
      refine ⟨_, m, rfl, ?_⟩
      have hall : data.take copied = data := List.take_of_length_le (by omega)
      rw [if_neg (by simp [total]; omega)]
      simp [content, hread, hall]
  | cons seg segments ih =>
    have hseg := h seg List.mem_cons_self
    have hrest : ∀ seg ∈ segments, Apart m tempBuf length seg :=
      fun s hs => h s (List.mem_cons_of_mem _ hs)
    have hbytes := hseg.length_bytes
    rw [flattenLoop, total_cons, content_cons]
    split
    . next hlt =>
      have hneeded : (if length - copied > seg.length then seg.length else length - copied)
          = min (length - copied) seg.length := by
        split <;> omega
      dsimp only
      rw [hneeded]
      generalize hn : min (length - copied) seg.length = n
      have hpart := Memory.read_add (k := 0) (l := n) hseg.read_eq (by omega)
      rw [Pointer.add_zero, List.drop_zero] at hpart
      have hpartLen := Memory.length_read hpart
      have hinside : copied + n ≤ length := by omega
      obtain ⟨m1, hcopy, hwrite, hread1⟩ := Memory.memcpy_spec hpart hread hinside
      have hwriteLe : copied + ((seg.bytes m).take n).length ≤ length := by omega
      have hrest1 : ∀ seg ∈ segments, Apart m1 tempBuf length seg :=
        fun s hs => (hrest s hs).write hwrite hwriteLe
      obtain ⟨p, m2, hloop, hres⟩ := ih hrest1 hread1 hinside (Memory.length_read hread1)
      have hfront : (data.take copied).length = copied := by
        rw [List.length_take]
        omega
      have htake : (data.take copied ++ ((seg.bytes m).take n ++ data.drop (copied + n))).take (copied + n)
          = data.take copied ++ (seg.bytes m).take n := by
        rw [← List.append_assoc, List.take_left']
        rw [List.length_append, hfront, hpartLen]
      have hjoin : (seg.bytes m ++ content m segments).take (length - copied)
          = (seg.bytes m).take n ++ (content m segments).take (length - (copied + n)) := by
        have hfirst : (seg.bytes m).take (length - copied) = (seg.bytes m).take n := by
          rw [List.take_eq_take_iff]
          omega
        have hmore : length - copied - seg.length = length - (copied + n) := by omega
        rw [List.take_append, hbytes, hfirst, hmore]
      have hcond : copied + n + total segments < length
          ↔ copied + (seg.length + total segments) < length := by
        omega
      rw [hcopy]
      refine ⟨p, m2, hloop, ?_⟩
      rw [htake, content_write hrest hwrite hwriteLe, List.append_assoc, ← hjoin] at hres
      simp only [hcond] at hres
      exact hres
    . next hge =>
      refine ⟨tempBuf, m, rfl, ?_⟩
      have hall : data.take copied = data := List.take_of_length_le (by omega)
      have hnone : length - copied = 0 := by omega
      rw [if_neg (by omega), hall, hnone, List.take_zero, List.append_nil]
      exact ⟨rfl, hread⟩

theorem block_ne_none {p : Pointer} (hread : m.read p length = some data) (hne : 0 < length)
    : p.block ≠ none := by
  intro hnone
  unfold Memory.read at hread
  rw [if_neg (by omega), hnone] at hread
  cases hread

/-
What the caller gets: a null pointer, or a pointer to so many bytes
-/
def outcome (length : Nat) (r : Option (Pointer × Memory UInt8)) : Option (Option (Option Bytes)) :=
  r.map fun (p, m) => if p.block = none then none else some (m.read p length)

theorem outcome_null : outcome length (some (Pointer.null, m)) = some none := rfl

theorem outcome_of_ne {p : Pointer} (h : p.block ≠ none)
    : outcome length (some (p, m)) = some (some (m.read p length)) := by
  unfold outcome
  rw [Option.map_some]
  dsimp only
  rw [if_neg h]

-- What it should get
def flat (content : Bytes) (offset length : Nat) : Option (Option (Option Bytes)) :=
  some (if content.length < offset + length then none else some ((content.drop offset).take length))

/-
If there is something to get, or else if its place is not the end of all data.
-/
theorem getFlatDataLoop_spec (h : ∀ seg ∈ segments, Apart m tempBuf length seg)
    (hread : m.read tempBuf length = some data) (hlt : offset + length < 2 ^ 64)
    (hcond : ¬(offset = total segments ∧ length = 0))
    : outcome length (getFlatDataLoop length tempBuf segments offset m)
        = flat (content m segments) offset length := by
  have hlen := Memory.length_read hread
  induction segments generalizing offset with
  | nil =>
    unfold getFlatDataLoop flat
    have : 0 < offset + length := by
      simp only [total, List.map_nil, List.sum_nil] at hcond
      omega
    rw [if_pos (by simpa [content] using this)]
    rfl
  | cons seg segments ih =>
    have hseg := h seg List.mem_cons_self
    have hrest : ∀ seg ∈ segments, Apart m tempBuf length seg :=
      fun s hs => h s (List.mem_cons_of_mem _ hs)
    have hbytes := hseg.length_bytes
    rw [total_cons] at hcond
    rw [getFlatDataLoop, Nat.mod_eq_of_lt hlt, content_cons]
    split
    . next hin =>
      have hblock : seg.data.block ≠ none := block_ne_none hseg.read_eq (by omega)
      have htotal := length_content_apart hrest
      split
      . next hall =>
        have hpart := Memory.read_add (k := offset) (l := length) hseg.read_eq (by omega)
        have hadd : (seg.data.add offset).block ≠ none := hblock
        unfold flat
        rw [outcome_of_ne hadd, hpart, if_neg (by rw [List.length_append]; omega),
          List.drop_append_of_le_length (by omega),
          List.take_append_of_le_length (by rw [List.length_drop]; omega)]
      . next hmore =>
        have hpart := Memory.read_add (k := offset) (l := seg.length - offset) hseg.read_eq (by omega)
        have hall : ((seg.bytes m).drop offset).take (seg.length - offset) = (seg.bytes m).drop offset := by
          apply List.take_of_length_le
          rw [List.length_drop]
          omega
        rw [hall] at hpart
        have hinside : 0 + (seg.length - offset) ≤ length := by omega
        have hpartLen := Memory.length_read hpart
        obtain ⟨m1, hcopy, hwrite, hread1⟩ := Memory.memcpy_spec hpart hread hinside
        have hwriteLe : 0 + ((seg.bytes m).drop offset).length ≤ length := by omega
        have hrest1 : ∀ seg ∈ segments, Apart m1 tempBuf length seg :=
          fun s hs => (hrest s hs).write hwrite hwriteLe
        have hcopied : seg.length - offset ≤ length := by omega
        obtain ⟨p, m2, hloop, hres⟩ := flattenLoop_spec hrest1 hread1 hcopied
        rw [List.take_zero, List.nil_append, List.take_left' hpartLen, content_write hrest hwrite hwriteLe]
          at hres
        rw [Pointer.add_zero] at hcopy
        dsimp only [Option.bind_eq_bind]
        rw [hcopy, Option.bind_some, hloop]
        unfold flat
        rw [List.length_append, hbytes, htotal]
        by_cases hshort : seg.length - offset + total segments < length
        . rw [if_pos hshort] at hres
          rw [hres, outcome_null, if_pos (by omega)]
        . rw [if_neg hshort] at hres
          have hjoin : ((seg.bytes m ++ content m segments).drop offset).take length
              = (seg.bytes m).drop offset ++ (content m segments).take (length - (seg.length - offset)) := by
            have hfirst : ((seg.bytes m).drop offset).take length = (seg.bytes m).drop offset := by
              apply List.take_of_length_le
              omega
            rw [List.drop_append_of_le_length (by omega), List.take_append, hfirst, hpartLen]
          rw [if_neg (by omega), hjoin, hres.1, outcome_of_ne (block_ne_none hread (by omega)),
            hres.2]
    . next hout =>
      have hnext : ¬(offset - seg.length = total segments ∧ length = 0) := by omega
      have hskip : (seg.bytes m).drop offset = [] := by
        apply List.drop_of_length_le
        omega
      have hcmp : (seg.bytes m ++ content m segments).length < offset + length
          ↔ (content m segments).length < offset - seg.length + length := by
        rw [List.length_append]
        omega
      rw [ih hrest (by omega) hnext]
      unfold flat
      rw [List.drop_append, hskip, List.nil_append, hbytes]
      simp only [hcmp]

theorem getFlatDataLoop_end
    : getFlatDataLoop 0 tempBuf segments (total segments) m = some (Pointer.null, m) := by
  induction segments with
  | nil => rfl
  | cons seg segments ih =>
    rw [getFlatDataLoop, total_cons, if_neg (by omega), Nat.add_sub_cancel_left]
    exact ih

theorem getFlatData_single {b : Buffer} (hb : b.used = [seg]) (hseg : Apart m tempBuf length seg)
    (hlt : offset + length < 2 ^ 64) (hcond : ¬(offset = seg.length ∧ length = 0))
    : outcome length (b.getFlatData m offset length tempBuf)
        = flat (content m b.used) offset length := by
  have hbytes := hseg.length_bytes
  unfold getFlatData
  rw [hb, content_cons]
  dsimp only
  rw [Nat.mod_eq_of_lt hlt]
  unfold flat
  rw [List.length_append, hbytes]
  have hnil : content m [] = [] := rfl
  rw [hnil, List.append_nil, List.length_nil, Nat.add_zero]
  split
  . exact outcome_null
  . next hle =>
    have hpart := Memory.read_add (k := offset) (l := length) hseg.read_eq (by omega)
    have hblock : seg.data.block ≠ none := block_ne_none hseg.read_eq (by omega)
    have hadd : (seg.data.add offset).block ≠ none := hblock
    rw [outcome_of_ne hadd, hpart]

/--
Nothing at the very end of the data is the one thing that there is enough of and that is not found.
-/
theorem getFlatData_iff (m : Memory UInt8) (b : Buffer) (offset length : Nat) (tempBuf : Pointer)
    (hlt : offset + length < 2 ^ 64) (htemp : (m.read tempBuf length).isSome)
    (hb : ∀ seg ∈ b.used, Apart m tempBuf length seg)
    : (outcome length (b.getFlatData m offset length tempBuf) = flat (content m b.used) offset length
        ∧
      (b.count = 1 →
        outcome length (b.getFlatData m offset length tempBuf)
          = outcome length (b.getFlatDataMulti m offset length tempBuf)))
        ↔
      ¬(offset = total b.used ∧ length = 0) := by
  obtain ⟨data, hread⟩ := Option.isSome_iff_exists.mp htemp
  by_cases hcond : offset = total b.used ∧ length = 0
  . obtain ⟨rfl, rfl⟩ := hcond
    rw [iff_false_right (by simp)]
    intro h
    have hmulti : outcome 0 (b.getFlatDataMulti m (total b.used) 0 tempBuf) = some none := by
      unfold getFlatDataMulti
      rw [getFlatDataLoop_end]
      rfl
    have hflat : flat (content m b.used) (total b.used) 0 = some (some (some [])) := by
      unfold flat
      rw [length_content_apart hb, if_neg (by omega), List.take_zero]
    rw [hflat, hmulti] at h
    by_cases hone : b.count = 1
    . have := h.1.symm.trans (h.2 hone)
      cases this
    . have hsame : b.getFlatData m (total b.used) 0 tempBuf = b.getFlatDataMulti m (total b.used) 0 tempBuf := by
        unfold getFlatData
        split
        . next seg hseg =>
          unfold count at hone
          rw [hseg] at hone
          exact absurd rfl hone
        . rfl
      rw [hsame, hmulti] at h
      cases h.1
  . rw [iff_true_right hcond]
    have hmulti : outcome length (b.getFlatDataMulti m offset length tempBuf)
        = flat (content m b.used) offset length := getFlatDataLoop_spec hb hread hlt hcond
    have hflat : outcome length (b.getFlatData m offset length tempBuf)
        = flat (content m b.used) offset length := by
      by_cases hone : ∃ seg, b.used = [seg]
      . obtain ⟨seg, hseg⟩ := hone
        have hend : total b.used = seg.length := by
          rw [hseg]
          rfl
        rw [hend] at hcond
        exact getFlatData_single hseg (hb seg (by rw [hseg]; exact List.mem_cons_self)) hlt hcond
      . rw [← hmulti]
        unfold getFlatData
        split
        . next seg hseg => exact absurd ⟨seg, hseg⟩ hone
        . rfl
    refine ⟨hflat, ?_⟩
    intro _
    rw [hflat, hmulti]

-- Two segments in one block, the temporary buffer is another one.
theorem getFlatData_iff_pair
    : let m : Memory UInt8 := [some [1, 2, 3], some [0, 0]]
      let b : Buffer := { used := [.ofData ⟨some 0, 0⟩ 2, .ofData ⟨some 0, 2⟩ 1], stale := [] }
      outcome 2 (b.getFlatData m 1 2 ⟨some 1, 0⟩) = some (some (some [2, 3])) := by
  intro m b
  have hapart : ∀ seg ∈ b.used, Apart m ⟨some 1, 0⟩ 2 seg := by
    have hblock : ∀ seg ∈ b.used, (m.read seg.data seg.length).isSome ∧ seg.data.block = some 0 := by
      decide
    intro seg hseg
    refine ⟨(hblock seg hseg).1, ?_⟩
    rw [Set.disjoint_left]
    intro p hp hq
    have heq : (some 0 : Option Nat) = some 1 := (hblock seg hseg).2.symm.trans (hp.1.symm.trans hq.1)
    cases heq
  exact ((getFlatData_iff m b 1 2 ⟨some 1, 0⟩ (by decide) rfl hapart).mpr (by decide)).1

-- There is nothing to get at the end of the three bytes, and it is not got.
theorem getFlatData_end
    : ¬∀ (m : Memory UInt8) (b : Buffer) (offset length : Nat) (tempBuf : Pointer),
        offset + length < 2 ^ 64 → (m.read tempBuf length).isSome →
          (∀ seg ∈ b.used, Apart m tempBuf length seg) →
            outcome length (b.getFlatData m offset length tempBuf)
              = flat (content m b.used) offset length := by
  intro h
  let b : Buffer := { used := [.ofData ⟨some 0, 0⟩ 2, .ofData ⟨some 0, 2⟩ 1], stale := [] }
  have hread : ∀ seg ∈ b.used, (Memory.read [some [(1 : UInt8), 2, 3], some []] seg.data seg.length).isSome := by
    decide
  have hresult := h [some [1, 2, 3], some []] b 3 0 ⟨some 1, 0⟩ (by decide) rfl fun seg hseg =>
    ⟨hread seg hseg, by rw [Pointer.region_zero]; exact Set.disjoint_empty _⟩
  revert hresult
  decide

end Buffer
end Gather
end ObTools
