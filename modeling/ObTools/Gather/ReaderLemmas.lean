import ObTools.Gather.BufferLemmas
import ObTools.Gather.Reader

/-!
This module contains the proof that a `Gather::Reader` is a `Channel::BlockReader` of the content of
its buffer. The invariant is that the position of the iterator is the offset.
-/

namespace ObTools
namespace Gather

namespace BufferIterator

/-
The iterator is at the end, or at a byte of a segment.
-/
inductive Sound (it : BufferIterator) : Prop where
  | atEnd (dp : it.dp = none) (segment : it.segment = it.segments.length)
    (countdown : it.countdown = 0)
  | inside (dp : it.dp = some (it.current.data.add (it.current.length - it.countdown)))
    (segment : it.segment < it.segments.length) (pos : 0 < it.countdown)
    (le : it.countdown ≤ it.current.length)

-- How many bytes there are before it
def position (it : BufferIterator) : Nat :=
  total (it.segments.take it.segment) + (it.current.length - it.countdown)

variable {it it' : BufferIterator} {segments : List Segment} {i n fuel : Nat}

theorem total_append (l1 l2 : List Segment) : total (l1 ++ l2) = total l1 + total l2 := by
  unfold total
  rw [List.map_append, List.sum_append]

theorem total_take_le (segments : List Segment) (i : Nat) : total (segments.take i) ≤ total segments := by
  have := total_append (segments.take i) (segments.drop i)
  rw [List.take_append_drop] at this
  omega

theorem total_take_succ (hi : i < segments.length)
    : total (segments.take (i + 1))
        = total (segments.take i) + (segments.getD i Segment.empty).length := by
  rw [List.take_succ_eq_append_getElem hi, total_append, List.getD_eq_getElem?_getD,
    List.getElem?_eq_getElem hi]
  rfl

theorem position_atEnd (hseg : it.segment = it.segments.length) (hcount : it.countdown = 0)
    : it.position = total it.segments := by
  have hcurrent : it.current = Segment.empty := by
    unfold current
    rw [hseg, List.getD_eq_getElem?_getD, List.getElem?_eq_none (Nat.le_refl _)]
    rfl
  unfold position
  rw [hcurrent, hseg, List.take_length, hcount]
  rfl

theorem Sound.isEnd_iff (h : it.Sound)
    : it.isEnd = true ↔ it.segment = it.segments.length ∧ it.countdown = 0 := by
  unfold isEnd
  cases h with
  | atEnd dp segment countdown => simp [dp, segment, countdown]
  | inside dp segment pos le =>
    rw [dp]
    simp
    omega

theorem Sound.segment_le (h : it.Sound) : it.segment ≤ it.segments.length := by
  cases h with
  | atEnd dp segment countdown => exact Nat.le_of_eq segment
  | inside dp segment pos le => exact Nat.le_of_lt segment

theorem Sound.position_le (h : it.Sound) : it.position ≤ total it.segments := by
  cases h with
  | atEnd dp segment countdown => rw [position_atEnd segment countdown]
  | inside dp segment pos le =>
    have h1 := total_take_succ segment
    have h2 := total_take_le it.segments (it.segment + 1)
    unfold position current at *
    omega

-- There is data from an iterator on that is not at the end.
theorem Sound.position_lt (h : it.Sound) (hend : ¬it.isEnd = true) : it.position < total it.segments := by
  cases h with
  | atEnd dp segment countdown =>
    unfold isEnd at hend
    rw [dp] at hend
    exact absurd rfl hend
  | inside dp segment pos le =>
    have h1 := total_take_succ segment
    have h2 := total_take_le it.segments (it.segment + 1)
    unfold position current at *
    omega

theorem Sound.isEnd_iff_position (h : it.Sound) : it.isEnd = true ↔ it.position = total it.segments := by
  constructor
  . intro hend
    rw [h.isEnd_iff] at hend
    exact position_atEnd hend.1 hend.2
  . intro hpos
    by_contra hend
    have := h.position_lt hend
    omega

theorem firstFrom_spec {rest : List Segment} (hrest : segments.drop i = rest) (hi : i ≤ segments.length)
    : (firstFrom segments rest i).segments = segments
        ∧ (firstFrom segments rest i).Sound
        ∧ i ≤ (firstFrom segments rest i).segment
        ∧ (firstFrom segments rest i).position = total (segments.take i) := by
  induction rest generalizing i with
  | nil =>
    have hlen : i = segments.length := by
      have := List.drop_eq_nil_iff.mp hrest
      omega
    refine ⟨rfl, .atEnd rfl hlen rfl, Nat.le_refl _, ?_⟩
    rw [@position_atEnd (firstFrom segments [] i) hlen rfl, hlen, List.take_length]
    rfl
  | cons seg rest ih =>
    have hlt : i < segments.length := by
      by_contra hge
      rw [List.drop_of_length_le (by omega)] at hrest
      cases hrest
    have hcurrent : segments.getD i Segment.empty = seg := by
      rw [List.drop_eq_getElem_cons hlt] at hrest
      rw [List.getD_eq_getElem?_getD, List.getElem?_eq_getElem hlt]
      exact (List.cons.inj hrest).1
    have hnext : segments.drop (i + 1) = rest := by
      rw [List.drop_eq_getElem_cons hlt] at hrest
      exact (List.cons.inj hrest).2
    unfold firstFrom
    split
    . next hne =>
      refine ⟨rfl, .inside ?_ hlt (Nat.pos_of_ne_zero hne) ?_, Nat.le_refl _, ?_⟩
      . unfold current
        dsimp only
        rw [hcurrent, Nat.sub_self, Pointer.add_zero]
      . unfold current
        dsimp only
        rw [hcurrent]
      . unfold position current
        dsimp only
        rw [hcurrent]
        omega
    . next hzero =>
      obtain ⟨h1, h2, h3, h4⟩ := ih hnext hlt
      refine ⟨h1, h2, by omega, ?_⟩
      rw [h4, total_take_succ hlt, hcurrent]
      omega

theorem nextSegment_spec (h : it.segment < it.segments.length)
    : it.nextSegment.segments = it.segments ∧ it.nextSegment.Sound
        ∧ it.segment < it.nextSegment.segment
        ∧ it.nextSegment.position = total (it.segments.take (it.segment + 1)) := by
  obtain ⟨h1, h2, h3, h4⟩ := firstFrom_spec (i := it.segment + 1) rfl h
  exact ⟨h1, h2, h3, h4⟩

theorem stepBack_spec (hi : i ≤ segments.length)
    : if total (segments.take i) = 0 then
        stepBack segments i = 0
      else
        stepBack segments i < i
          ∧ (segments.getD (stepBack segments i) Segment.empty).length ≠ 0
          ∧ total (segments.take (stepBack segments i + 1)) = total (segments.take i) := by
  induction i with
  | zero => simp [stepBack, total]
  | succ i ih =>
    have ih := ih (by omega)
    rw [total_take_succ hi]
    unfold stepBack
    by_cases hzero : (segments.getD i Segment.empty).length = 0
    . rw [if_pos hzero, hzero, Nat.add_zero]
      split
      . next hall =>
        rw [if_pos hall] at ih
        exact ih
      . next hsome =>
        rw [if_neg hsome] at ih
        exact ⟨by omega, ih.2⟩
    . rw [if_neg hzero, if_neg (by omega)]
      exact ⟨by omega, hzero, total_take_succ hi⟩

-- From an iterator that has data before the segment it is on
theorem previousSegment_spec (hle : it.segment ≤ it.segments.length)
    (hdata : total (it.segments.take it.segment) ≠ 0)
    : it.previousSegment.segments = it.segments ∧ it.previousSegment.Sound
        ∧ it.previousSegment.isEnd = false
        ∧ it.previousSegment.segment < it.segment
        ∧ it.previousSegment.position + 1 = total (it.segments.take it.segment) := by
  have hne : it.segment ≠ 0 := by
    intro hzero
    rw [hzero] at hdata
    exact hdata rfl
  have hback := stepBack_spec hle
  rw [if_neg hdata] at hback
  obtain ⟨hlt, hlength, htotal⟩ := hback
  have hcurrent : ({ it with segment := stepBack it.segments it.segment } : BufferIterator).current.length
      ≠ 0 := hlength
  unfold previousSegment
  rw [if_neg hne]
  dsimp only
  rw [if_pos hcurrent]
  refine ⟨rfl, .inside rfl (by dsimp only; omega) Nat.one_pos (Nat.one_le_iff_ne_zero.mpr hcurrent), rfl,
    hlt, ?_⟩
  rw [← htotal, total_take_succ (by omega)]
  unfold position current at *
  dsimp only at hcurrent ⊢
  omega

theorem previousSegment_sound (hne : it.segment ≠ 0) (hle : it.segment ≤ it.segments.length)
    : it.previousSegment.segments = it.segments ∧ it.previousSegment.Sound := by
  by_cases hdata : total (it.segments.take it.segment) = 0
  . have hback := stepBack_spec hle
    rw [if_pos hdata] at hback
    have hlt : 0 < it.segments.length := by omega
    have hcurrent : ¬(({ it with segment := stepBack it.segments it.segment } : BufferIterator).current.length
        ≠ 0) := by
      have h1 := total_take_succ hlt
      have h2 := total_append (it.segments.take 1) ((it.segments.take it.segment).drop 1)
      have h3 : it.segments.take 1 = (it.segments.take it.segment).take 1 := by
        rw [List.take_take]
        congr 1
        omega
      rw [h3, List.take_append_drop, hdata] at h2
      rw [h3, List.take_zero] at h1
      unfold current
      dsimp only
      rw [hback]
      omega
    unfold previousSegment
    rw [if_neg hne]
    dsimp only
    rw [if_neg hcurrent]
    have hback_lt : stepBack it.segments it.segment < it.segments.length := by omega
    obtain ⟨h1, h2, _⟩ :=
      @nextSegment_spec { it with segment := stepBack it.segments it.segment } hback_lt
    exact ⟨h1, h2⟩
  . obtain ⟨h1, h2, _⟩ := previousSegment_spec hle hdata
    exact ⟨h1, h2⟩

/-
The loop ends before the segments are used up.
-/
theorem add_spec (fuel n : Nat) (h : it.Sound) (hfuel : it.segments.length - it.segment + 1 < fuel + 1)
    : ∃ it', add (fuel + 1) n it = some it' ∧ it'.segments = it.segments ∧ it'.Sound
        ∧ it'.position = min (total it.segments) (it.position + n) := by
  induction fuel generalizing it n with
  | zero => omega
  | succ fuel ih =>
    have hle := h.position_le
    unfold add
    split
    . next hge =>
      split
      . next hend =>
        rw [h.isEnd_iff_position] at hend
        exact ⟨it, rfl, rfl, h, by omega⟩
      . next hend =>
        cases h with
        | atEnd dp segment countdown =>
          unfold isEnd at hend
          rw [dp] at hend
          exact absurd rfl hend
        | inside dp segment pos le =>
          obtain ⟨h1, h2, h3, h4⟩ := nextSegment_spec segment
          obtain ⟨it', hadd, hsegs, hsound, hpos⟩ :=
            ih (n - it.countdown) h2 (by rw [h1]; omega)
          refine ⟨it', hadd, hsegs.trans h1, hsound, ?_⟩
          rw [hpos, h1, h4, total_take_succ segment]
          unfold position current at *
          omega
    . next hlt =>
      cases h with
      | atEnd dp segment countdown => omega
      | inside dp segment pos le =>
        have hpos : position { it with countdown := it.countdown - n, dp := it.dp.map fun p => p.add n }
            = it.position + n := by
          unfold position current at *
          dsimp only at *
          omega
        refine ⟨_, rfl, rfl, .inside ?_ segment ?_ ?_, ?_⟩
        . unfold current at *
          dsimp only at *
          rw [dp, Option.map_some, Pointer.add_add]
          congr 2
          omega
        . dsimp only
          omega
        . unfold current at *
          dsimp only at *
          omega
        . rw [hpos]
          have h1 := total_take_succ segment
          have h2 := total_take_le it.segments (it.segment + 1)
          unfold position current at *
          omega

-- Once the loop has come to its end the iterator is not at the end.
theorem sub_sound (h : it.Sound) (hsub : sub fuel n it = some (true, it'))
    : it'.segments = it.segments ∧ it'.Sound ∧ ¬it'.isEnd = true := by
  induction fuel generalizing it n with
  | zero => cases hsub
  | succ fuel ih =>
    have hle := h.segment_le
    unfold sub at hsub
    dsimp only at hsub
    split at hsub
    . split at hsub
      . cases hsub
      . next hne =>
        obtain ⟨h1, h2⟩ := previousSegment_sound hne hle
        obtain ⟨h3, h4⟩ := ih h2 hsub
        exact ⟨h3.trans h1, h4⟩
    . next hinside =>
      rw [not_or] at hinside
      cases h with
      | atEnd dp segment countdown =>
        unfold isEnd at hinside
        rw [dp] at hinside
        exact absurd rfl hinside.1
      | inside dp segment pos le =>
        have heq := Option.some.inj hsub
        have heq : _ = it' := (Prod.mk.inj heq).2
        rw [← heq]
        refine ⟨rfl, .inside ?_ segment ?_ ?_, ?_⟩
        . unfold current at *
          dsimp only at *
          rw [dp, Option.map_some]
          unfold Pointer.add
          congr 2
          dsimp only
          omega
        . dsimp only
          omega
        . unfold current at *
          dsimp only at *
          omega
        . unfold isEnd
          rw [dp]
          exact Bool.false_ne_true

theorem sub_spec (fuel n : Nat) (h : it.Sound) (htotal : total it.segments < 2 ^ 64) (hn : n ≤ it.position)
    (hend : it.isEnd = true → n ≠ 0) (hfuel : it.segment < fuel)
    : ∃ it', sub fuel n it = some (true, it') ∧ it'.position = it.position - n := by
  induction fuel generalizing it n with
  | zero => omega
  | succ fuel ih =>
    have hle := h.position_le
    unfold sub
    dsimp only
    split
    . next hback =>
      -- There is something before this segment.
      have hdata : total (it.segments.take it.segment) ≠ 0
          ∧ it.segment ≤ it.segments.length
          ∧ (if it.isEnd = true then (n + 2 ^ 64 - 1) % 2 ^ 64
              else n - (it.current.length - it.countdown + 1)) + (it.position + 1 - n)
            = total (it.segments.take it.segment) := by
        split
        . next hatEnd =>
          have hne := hend hatEnd
          have hseg := h.isEnd_iff.mp hatEnd
          have hpos := position_atEnd hseg.1 hseg.2
          have hmod : (n + 2 ^ 64 - 1) % 2 ^ 64 = n - 1 := by omega
          rw [hseg.1, List.take_length, hmod]
          omega
        . next hinside =>
          cases h with
          | atEnd dp segment countdown =>
            unfold isEnd at hinside
            rw [dp] at hinside
            exact absurd rfl hinside
          | inside dp segment pos le =>
            have hgt := hback.resolve_left hinside
            unfold position at hn ⊢
            omega
      obtain ⟨hne, hseg, hsum⟩ := hdata
      obtain ⟨h1, h2, h3, h4, h5⟩ := previousSegment_spec hseg hne
      have hzero : it.segment ≠ 0 := by
        intro hzero
        rw [hzero] at hne
        exact hne rfl
      rw [if_neg hzero]
      generalize (if it.isEnd = true then (n + 2 ^ 64 - 1) % 2 ^ 64
        else n - (it.current.length - it.countdown + 1)) = k at hsum ⊢
      obtain ⟨it', hsub, hpos⟩ := ih k h2 (by rw [h1]; exact htotal) (by omega)
        (by rw [h3]; intro hcontra; cases hcontra) (by omega)
      exact ⟨it', hsub, by omega⟩
    . next hinside =>
      rw [not_or] at hinside
      refine ⟨_, rfl, ?_⟩
      cases h with
      | atEnd dp segment countdown =>
        unfold isEnd at hinside
        rw [dp] at hinside
        exact absurd rfl hinside.1
      | inside dp segment pos le =>
        unfold position current at *
        dsimp only at *
        omega

end BufferIterator

namespace Buffer

variable {m : Memory UInt8} {segments : List Segment}

theorem copyFromLoop_spec {len segmentOffset : Nat} {data : Bytes}
    (hvalid : ∀ seg ∈ segments, seg.Valid m) (hle : ∀ seg ∈ segments.head?, segmentOffset ≤ seg.length)
    : copyFromLoop m len segments segmentOffset data
        =
      some (data ++ ((content m segments).drop segmentOffset).take (len - data.length)) := by
  induction segments generalizing segmentOffset data with
  | nil => simp [copyFromLoop, content]
  | cons seg segments ih =>
    have hseg := hvalid seg List.mem_cons_self
    have hrest : ∀ seg ∈ segments, seg.Valid m := fun seg hseg => hvalid seg (List.mem_cons_of_mem _ hseg)
    have hle := hle seg rfl
    have hlen := hseg.length_bytes
    have hread := Memory.read_add hseg.read_eq (k := segmentOffset)
      (l := min (len - data.length) (seg.length - segmentOffset)) (by omega)
    have hread_len := Memory.length_read hread
    have hmin : (if len - data.length > seg.length - segmentOffset then seg.length - segmentOffset
        else len - data.length) = min (len - data.length) (seg.length - segmentOffset) := by
      split <;> omega
    rw [copyFromLoop, content_cons, slice_append (by omega), hlen]
    rw [hmin, hread]
    generalize hn : min (len - data.length) (seg.length - segmentOffset) = n at hread_len ⊢
    simp only [Option.bind_eq_bind, Option.bind_some]
    rw [List.length_append, hread_len]
    split
    . next hdone =>
      have hall : len - data.length - n = 0 := by omega
      rw [hall, List.take_zero, List.append_nil]
    . next hmore =>
      rw [ih hrest (fun _ _ => Nat.zero_le _), List.drop_zero, List.length_append, hread_len,
        List.append_assoc, Nat.sub_add_eq]

theorem copyFrom_spec {b : Buffer} {it : BufferIterator} (len : Nat) (h : it.Sound)
    (hsegs : it.segments = b.used) (hvalid : ∀ seg ∈ b.used, seg.Valid m)
    : b.copyFrom m it len = some (((content m b.used).drop it.position).take len) := by
  have hlen := length_content hvalid
  unfold copyFrom
  cases h with
  | atEnd dp segment countdown =>
    have hpos := BufferIterator.position_atEnd segment countdown
    have hend : it.isEnd = true := by
      unfold BufferIterator.isEnd
      rw [dp]
      rfl
    rw [if_pos (.inl hend), hpos, hsegs, ← hlen, List.drop_length, List.take_nil]
  | inside dp segment pos le =>
    have hinside : ¬(it.isEnd = true ∨ it.segment ≥ b.count) := by
      unfold BufferIterator.isEnd count
      rw [dp, ← hsegs]
      simp
      omega
    have hhead : (b.used.drop it.segment).head? = some it.current := by
      unfold BufferIterator.current
      rw [List.head?_drop, ← hsegs, List.getD_eq_getElem?_getD, List.getElem?_eq_getElem segment]
      rfl
    have hcontent : (content m b.used).drop it.position
        = (content m (b.used.drop it.segment)).drop (it.current.length - it.countdown) := by
      have hfirst : (content m (b.used.take it.segment)).length = total (b.used.take it.segment) :=
        length_content fun seg hseg => hvalid seg (List.mem_of_mem_take hseg)
      have hsplit : content m b.used
          = content m (b.used.take it.segment) ++ content m (b.used.drop it.segment) := by
        rw [← content_append, List.take_append_drop]
      unfold BufferIterator.position
      rw [hsegs, hsplit, ← hfirst, List.drop_append, List.drop_of_length_le (by omega),
        Nat.add_sub_cancel_left, List.nil_append]
    rw [if_neg hinside, copyFromLoop_spec, List.nil_append, List.length_nil, Nat.sub_zero, hcontent]
    . intro seg hseg
      exact hvalid seg (List.mem_of_mem_drop hseg)
    . rw [hhead]
      rintro seg ⟨⟩
      exact Nat.sub_le _ _

end Buffer

-- What a reader at the offset of `total` bytes has to report as an error
def Call.OutOfRange (total offset : Nat) : Call → Prop
  | .basicRead _ => False
  | .skip n => total < offset + n.toNat
  | .rewind n => offset < n.toNat

-- The offset after it
def Call.next (total offset : Nat) : Call → Nat
  | .basicRead count => min total (offset + count.toNat)
  | .skip n => if offset + n.toNat ≤ total then offset + n.toNat else offset
  | .rewind n => offset - if n.toNat ≤ offset then n.toNat else 0

/-
What the readers agree about: a skip whose sum does not wrap around, and a rewind that is not by
nothing at the end.
-/
def Call.Permitted (total offset : Nat) : Call → Prop
  | .basicRead _ => True
  | .skip n => offset + n.toNat < 2 ^ 64
  | .rewind n => ¬(n = 0 ∧ offset = total)

instance (total offset : Nat) (call : Call) : Decidable (call.Permitted total offset) :=
  match call with
  | .basicRead _ => inferInstanceAs (Decidable True)
  | .skip n => inferInstanceAs (Decidable (offset + n.toNat < 2 ^ 64))
  | .rewind n => inferInstanceAs (Decidable ¬(n = 0 ∧ offset = total))

def Result.isThrown : Result → Prop
  | .thrown _ => True
  | _ => False

def BlockReader.ofOffset (block : Bytes) (offset : Nat) : BlockReader :=
  { block, data := offset, offset }

theorem BlockReader.basicRead_ofOffset {bytes : Bytes} {offset : Nat} (hlt : bytes.length < 2 ^ 64)
    (hoffset : offset ≤ bytes.length) (count : Nat)
    : (BlockReader.ofOffset bytes offset).basicRead count
        = some (.data ((bytes.drop offset).take count),
            BlockReader.ofOffset bytes (offset + min count (bytes.length - offset))) := by
  have havailable : (bytes.length + 2 ^ 64 - offset) % 2 ^ 64 = bytes.length - offset := by omega
  have hcount : (if bytes.length - offset < count then bytes.length - offset else count)
      = min count (bytes.length - offset) := by
    split <;> omega
  have htake : (bytes.drop offset).take (min count (bytes.length - offset)) = (bytes.drop offset).take count := by
    rw [← List.length_drop, ← List.take_take, List.take_length]
  unfold BlockReader.basicRead BlockReader.ofOffset BlockReader.length
  dsimp only
  rw [havailable, hcount]
  split
  . rw [if_pos (by omega), htake, Nat.mod_eq_of_lt (by omega)]
  . next hzero =>
    rw [← htake, Decidable.not_not.mp hzero, List.take_zero, Nat.add_zero]

namespace Reader

def Permitted (total : Nat) : Nat → List Call → Prop
  | _, [] => True
  | offset, call :: calls => call.Permitted total offset ∧ Permitted total (call.next total offset) calls

instance decidablePermitted (total : Nat)
    : (offset : Nat) → (calls : List Call) → Decidable (Permitted total offset calls)
  | _, [] => inferInstanceAs (Decidable True)
  | offset, call :: calls =>
    have := decidablePermitted total (call.next total offset) calls
    inferInstanceAs (Decidable (call.Permitted total offset ∧ Permitted total (call.next total offset) calls))

/-
The two are at the same offset, the iterator is there, and each of the calls gives the same result
for both, which is an error if it goes out of the data and only then.
-/
def Agrees (fuel : Nat) (m : Memory UInt8) (r : Reader) (br : BlockReader) : List Call → Prop
  | [] => r.offset = br.offset ∧ r.it.position = r.offset
  | call :: calls =>
    (r.offset = br.offset ∧ r.it.position = r.offset)
      ∧
    ∃ result r' br',
      r.apply fuel m call = some (result, r')
        ∧
      br.apply call = some (result, br')
        ∧
      (result.isThrown ↔ call.OutOfRange br.length r.offset)
        ∧
      Agrees fuel m r' br' calls

structure At (b : Buffer) (offset : Nat) (r : Reader) : Prop where
  buffer : r.buffer = b
  segments : r.it.segments = b.used
  sound : r.it.Sound
  position : r.it.position = offset
  offset : r.offset = offset

variable {m : Memory UInt8} {b : Buffer} {r : Reader} {offset fuel : Nat}

theorem at_new (b : Buffer) : At b 0 (Reader.new b) := by
  obtain ⟨h1, h2, _, h4⟩ := @BufferIterator.firstFrom_spec b.used 0 b.used rfl (Nat.zero_le _)
  exact ⟨rfl, h1, h2, h4, rfl⟩

theorem At.offset_le (h : At b offset r) : offset ≤ total b.used := by
  have := h.sound.position_le
  rw [h.position, h.segments] at this
  exact this

theorem basicRead_spec (h : At b offset r) (hvalid : ∀ seg ∈ b.used, seg.Valid m)
    (htotal : total b.used < 2 ^ 64) (hfuel : b.count + 2 ≤ fuel) (count : Nat)
    : ∃ bytes r',
        r.basicRead fuel m count = some (.data bytes, r')
          ∧
        (BlockReader.ofOffset (content m b.used) offset).basicRead count
          = some (.data bytes, BlockReader.ofOffset (content m b.used) (min (total b.used) (offset + count)))
          ∧
        At b (min (total b.used) (offset + count)) r' := by
  have hle := h.offset_le
  have hlen := length_content hvalid
  have hlimit : min (total b.used) (offset + count) = offset + min count (total b.used - offset) := by
    omega
  have hoffset : offset ≤ (content m b.used).length := hle.trans_eq hlen.symm
  have hblock := BlockReader.basicRead_ofOffset (by omega) hoffset count
  rw [hlen] at hblock
  rw [hlimit]
  unfold basicRead
  split
  . next hne =>
    have hcopy := Buffer.copyFrom_spec count h.sound h.segments hvalid
    rw [h.position] at hcopy
    have hread : (((content m b.used).drop offset).take count).length
        = min count (total b.used - offset) := by
      rw [List.length_take, List.length_drop, hlen]
    obtain ⟨fuel, rfl⟩ := Nat.exists_eq_add_of_le' (by omega : 1 ≤ fuel)
    obtain ⟨it', hadd, hsegs, hsound, hpos⟩ := BufferIterator.add_spec fuel
      (min count (total b.used - offset)) h.sound (by
        rw [h.segments]
        unfold Buffer.count at hfuel
        omega)
    rw [h.segments, h.position] at hpos
    refine ⟨_, { r with it := it', offset := offset + min count (total b.used - offset) }, ?_, hblock,
      ⟨h.buffer, hsegs.trans h.segments, hsound, ?_, rfl⟩⟩
    . rw [h.buffer, hcopy]
      simp only [Option.bind_eq_bind, Option.bind_some]
      rw [hread, hadd, h.offset, Nat.mod_eq_of_lt (by omega)]
      rfl
    . rw [hpos]
      omega
  . next hzero =>
    have hzero := Decidable.not_not.mp hzero
    rw [hzero, Nat.zero_min, Nat.add_zero]
    rw [hzero, Nat.zero_min, Nat.add_zero] at hblock
    exact ⟨_, r, rfl, hblock, h⟩

theorem skip_spec (h : At b offset r) (htotal : total b.used < 2 ^ 64) (hfuel : b.count + 2 ≤ fuel)
    {n : Nat} (hn : offset + n < 2 ^ 64)
    : if offset + n ≤ total b.used then
        ∃ r', r.skip fuel n = some (.done, r') ∧ At b (offset + n) r'
      else
        r.skip fuel n = some (skipBeyondEnd, r) := by
  unfold skip
  rw [h.buffer, Buffer.getLength_eq htotal, h.offset, Nat.mod_eq_of_lt hn]
  split
  . next hle =>
    obtain ⟨fuel, rfl⟩ := Nat.exists_eq_add_of_le' (by omega : 1 ≤ fuel)
    obtain ⟨it', hadd, hsegs, hsound, hpos⟩ := BufferIterator.add_spec fuel n h.sound (by
      rw [h.segments]
      unfold Buffer.count at hfuel
      omega)
    rw [h.segments, h.position] at hpos
    rw [if_neg (by omega), hadd]
    refine ⟨{ r with it := it', offset := offset + n }, by rw [← h.buffer]; rfl,
      ⟨h.buffer, hsegs.trans h.segments, hsound, ?_, rfl⟩⟩
    rw [hpos]
    omega
  . exact if_pos (by omega)

theorem rewind_spec (h : At b offset r) (htotal : total b.used < 2 ^ 64) (hfuel : b.count + 2 ≤ fuel)
    {n : Nat} (hn : ¬(n = 0 ∧ offset = total b.used))
    : if n ≤ offset then
        ∃ r', r.rewind fuel n = some (.done, r') ∧ At b (offset - n) r'
      else
        r.rewind fuel n = some (rewoundTooFar, r) := by
  unfold rewind
  rw [h.offset]
  split
  . next hle =>
    have hend : r.it.isEnd = true → n ≠ 0 := by
      intro hend hzero
      rw [h.sound.isEnd_iff_position, h.position, h.segments] at hend
      exact hn ⟨hzero, hend⟩
    obtain ⟨it', hsub, hpos⟩ := BufferIterator.sub_spec fuel n h.sound
      (by rw [h.segments]; exact htotal) (by rw [h.position]; exact hle) hend (by
        have hseg := h.sound.segment_le
        rw [h.segments] at hseg
        unfold Buffer.count at hfuel
        omega)
    obtain ⟨hsegs, hsound, _⟩ := BufferIterator.sub_sound h.sound hsub
    rw [h.position] at hpos
    rw [hsub]
    exact ⟨{ r with it := it', offset := offset - n }, rfl,
      ⟨h.buffer, hsegs.trans h.segments, hsound, hpos, rfl⟩⟩
  . rfl

theorem apply_spec (h : At b offset r) (hvalid : ∀ seg ∈ b.used, seg.Valid m)
    (htotal : total b.used < 2 ^ 64) (hfuel : b.count + 2 ≤ fuel) {call : Call}
    (hcall : call.Permitted (total b.used) offset)
    : ∃ result r',
        r.apply fuel m call = some (result, r')
          ∧
        (BlockReader.ofOffset (content m b.used) offset).apply call
          = some (result, BlockReader.ofOffset (content m b.used) (call.next (total b.used) offset))
          ∧
        (result.isThrown ↔ call.OutOfRange (total b.used) offset)
          ∧
        At b (call.next (total b.used) offset) r' := by
  have hle := h.offset_le
  have hlen := length_content hvalid
  cases call with
  | basicRead count =>
    obtain ⟨bytes, r', hr, hbr, hat⟩ := basicRead_spec h hvalid htotal hfuel count.toNat
    exact ⟨_, r', hr, hbr, Iff.rfl, hat⟩
  | skip n =>
    have hcall : offset + n.toNat < 2 ^ 64 := hcall
    have hskip := skip_spec h htotal hfuel hcall
    unfold Reader.apply BlockReader.apply BlockReader.skip BlockReader.ofOffset BlockReader.length
      Call.OutOfRange Call.next
    dsimp only
    rw [hlen, Nat.mod_eq_of_lt hcall]
    split at hskip
    . next hin =>
      obtain ⟨r', hr, hat⟩ := hskip
      rw [if_neg (by omega), if_pos hin]
      exact ⟨_, r', hr, rfl, iff_of_false id (by omega), hat⟩
    . next hout =>
      rw [if_pos (by omega), if_neg hout]
      exact ⟨_, r, hskip, rfl, iff_of_true trivial (by omega), h⟩
  | rewind n =>
    have hcall : ¬(n.toNat = 0 ∧ offset = total b.used) := by
      rintro ⟨hzero, hend⟩
      exact hcall ⟨UInt64.toNat_inj.mp hzero, hend⟩
    have hrewind := rewind_spec h htotal hfuel hcall
    unfold Reader.apply BlockReader.apply BlockReader.rewind BlockReader.ofOffset Call.OutOfRange
      Call.next
    dsimp only
    split at hrewind
    . next hin =>
      obtain ⟨r', hr, hat⟩ := hrewind
      rw [if_pos hin, if_pos hin]
      exact ⟨_, r', hr, rfl, iff_of_false id (by omega), hat⟩
    . next hout =>
      rw [if_neg hout, if_neg hout]
      exact ⟨_, r, hrewind, rfl, iff_of_true trivial (by omega), h⟩

/-
A skip that wraps around is not reported. If a rewind by nothing from the end were to come to its
end, it would be away from there.
-/
theorem apply_of_not_permitted (h : At b offset r) (hvalid : ∀ seg ∈ b.used, seg.Valid m)
    (htotal : total b.used < 2 ^ 64) {call : Call} (hcall : ¬call.Permitted (total b.used) offset)
    {result : Result} {r' : Reader} {br' : BlockReader} (hr : r.apply fuel m call = some (result, r'))
    (hbr : (BlockReader.ofOffset (content m b.used) offset).apply call = some (result, br'))
    (hthrown : result.isThrown ↔ call.OutOfRange (total b.used) offset)
    : r'.it.position ≠ r'.offset := by
  have hle := h.offset_le
  have hlen := length_content hvalid
  cases call with
  | basicRead count => exact absurd trivial hcall
  | skip n =>
    have hcall : ¬offset + n.toNat < 2 ^ 64 := hcall
    have hn := n.toNat_lt
    unfold BlockReader.apply BlockReader.skip BlockReader.ofOffset BlockReader.length at hbr
    dsimp only at hbr
    rw [hlen, if_neg (by omega)] at hbr
    obtain rfl : .done = result := (Prod.mk.inj (Option.some.inj hbr)).1
    have hout : total b.used < offset + n.toNat := by omega
    exact absurd (hthrown.mpr hout) id
  | rewind n =>
    obtain ⟨rfl, hend⟩ := Decidable.not_not.mp hcall
    obtain rfl : .done = result := (Prod.mk.inj (Option.some.inj hbr)).1
    have hzero : (0 : UInt64).toNat = 0 := rfl
    unfold Reader.apply rewind at hr
    dsimp only at hr
    rw [hzero, if_pos (Nat.zero_le _)] at hr
    cases hsub : r.it.sub fuel 0 with
    | none =>
      rw [hsub] at hr
      cases hr
    | some res =>
      obtain ⟨finished, it'⟩ := res
      rw [hsub] at hr
      cases finished with
      | false => cases hr
      | true =>
        obtain ⟨hsegs, hsound, hinside⟩ := BufferIterator.sub_sound h.sound hsub
        have hlt := hsound.position_lt hinside
        obtain rfl : _ = r' := (Prod.mk.inj (Option.some.inj hr)).2
        rw [hsegs, h.segments] at hlt
        dsimp only
        rw [h.offset, hend, Nat.sub_zero]
        exact Nat.ne_of_lt hlt

theorem Agrees.position_eq {br : BlockReader} {calls : List Call} (h : Agrees fuel m r br calls)
    : r.it.position = r.offset := by
  cases calls with
  | nil => exact h.2
  | cons call calls => exact h.1.2

theorem agrees_iff (hvalid : ∀ seg ∈ b.used, seg.Valid m) (htotal : total b.used < 2 ^ 64)
    (hfuel : b.count + 2 ≤ fuel) {calls : List Call} (h : At b offset r)
    : Agrees fuel m r (BlockReader.ofOffset (content m b.used) offset) calls
        ↔
      Permitted (total b.used) offset calls := by
  have hsame : r.offset = (BlockReader.ofOffset (content m b.used) offset).offset
      ∧ r.it.position = r.offset :=
    ⟨h.offset, h.position.trans h.offset.symm⟩
  induction calls generalizing r offset with
  | nil => exact iff_of_true hsame trivial
  | cons call calls ih =>
    have hlength : (BlockReader.ofOffset (content m b.used) offset).length = total b.used :=
      length_content hvalid
    unfold Agrees Permitted
    rw [hlength, h.offset]
    constructor
    . rintro ⟨_, result, r', br', hr, hbr, hthrown, hrest⟩
      have hcall : call.Permitted (total b.used) offset := by
        by_contra hcall
        exact apply_of_not_permitted h hvalid htotal hcall hr hbr hthrown hrest.position_eq
      obtain ⟨result2, r2, hr2, hbr2, _, hat⟩ := apply_spec h hvalid htotal hfuel hcall
      obtain ⟨rfl, rfl⟩ := Prod.mk.inj (Option.some.inj (hr.symm.trans hr2))
      obtain ⟨_, rfl⟩ := Prod.mk.inj (Option.some.inj (hbr.symm.trans hbr2))
      exact ⟨hcall, (ih hat ⟨hat.offset, hat.position.trans hat.offset.symm⟩).mp hrest⟩
    . rintro ⟨hcall, hrest⟩
      obtain ⟨result, r', hr, hbr, hthrown, hat⟩ := apply_spec h hvalid htotal hfuel hcall
      refine ⟨⟨rfl, h.position⟩, result, r', _, hr, hbr, hthrown, ?_⟩
      exact (ih hat ⟨hat.offset, hat.position.trans hat.offset.symm⟩).mpr hrest

/--
The reader of a buffer is a reader of the content of it, as long as no skip wraps around and no
rewind is by nothing at the end. The loops of the iterator need no more than two steps beyond the
segments.
-/
theorem agrees_new_iff (m : Memory UInt8) (b : Buffer) (hvalid : ∀ seg ∈ b.used, seg.Valid m)
    (htotal : total b.used < 2 ^ 64) (fuel : Nat) (hfuel : b.count + 2 ≤ fuel) (calls : List Call)
    : Agrees fuel m (Reader.new b) (BlockReader.new (content m b.used)) calls
        ↔
      Permitted (total b.used) 0 calls :=
  agrees_iff hvalid htotal hfuel (at_new b)

-- Back over an empty segment, and on to the end
theorem agrees_new_iff_pair
    : let m : Memory UInt8 := [some [1, 2, 3]]
      let b : Buffer :=
        { used := [.ofData ⟨some 0, 0⟩ 2, .empty, .ofData ⟨some 0, 2⟩ 1], stale := [] }
      Agrees 5 m (Reader.new b) (BlockReader.new [1, 2, 3])
        [.basicRead 5, .rewind 2, .basicRead 1, .skip 2, .skip 1, .rewind 4] := by
  intro m b
  have hvalid : ∀ seg ∈ b.used, seg.Valid m := by
    have hread : ∀ seg ∈ b.used, (m.read seg.data seg.length).isSome ∧ seg.ownedData = none := by
      decide
    intro seg hseg
    refine ⟨(hread seg hseg).1, ?_⟩
    rw [(hread seg hseg).2]
    intro b hb
    cases hb
  apply (agrees_new_iff m b hvalid (by decide) 5 (by decide) _).mpr
  decide

-- Once all of the three bytes are read, a rewind by nothing is thrown out.
theorem agrees_new_end
    : ¬∀ (m : Memory UInt8) (b : Buffer), (∀ seg ∈ b.used, seg.Valid m) → total b.used < 2 ^ 64 →
        ∀ fuel, b.count + 2 ≤ fuel →
          ∀ calls, Agrees fuel m (Reader.new b) (BlockReader.new (content m b.used)) calls := by
  intro h
  let m : Memory UInt8 := [some [1, 2, 3]]
  let b : Buffer := { used := [.ofData ⟨some 0, 0⟩ 3], stale := [] }
  have hvalid : (Segment.ofData ⟨some 0, 0⟩ 3).Valid m := by
    refine ⟨by decide, ?_⟩
    intro b hb
    cases hb
  let read : Reader :=
    { buffer := b, it := { segments := b.used, segment := 1, countdown := 0, dp := none }, offset := 3 }
  have hread : (Reader.new b).apply 3 m (.basicRead 3) = some (.data [1, 2, 3], read) := by decide
  have hthrown : (read.apply 3 m (.rewind 0)).map Prod.fst
      = some (.thrown (.text "Attempt to decrement past start of buffer")) := by decide
  have hblock : ((BlockReader.ofOffset [1, 2, 3] 3).apply (.rewind 0)).map Prod.fst = some .done := by
    decide
  obtain ⟨_, result, r, br, hr, hbr, _, _, result', r', br', hr', hbr', _⟩ :=
    h m b (fun seg hseg => by rwa [List.mem_singleton.mp hseg]) (by decide) 3 (by decide)
      [.basicRead 3, .rewind 0]
  obtain ⟨rfl, rfl⟩ := Prod.mk.inj (Option.some.inj (hr.symm.trans hread))
  have hbread : (BlockReader.new (content m b.used)).apply (.basicRead 3)
      = some (.data [1, 2, 3], BlockReader.ofOffset [1, 2, 3] 3) := by decide
  obtain ⟨_, rfl⟩ := Prod.mk.inj (Option.some.inj (hbr.symm.trans hbread))
  rw [hr'] at hthrown
  rw [hbr'] at hblock
  cases hthrown.symm.trans hblock

end Reader

end Gather
end ObTools
