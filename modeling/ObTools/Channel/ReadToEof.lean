import ObTools.Channel.Reader

/-!
This module contains what is read up to the end of a stream, with a limit and without one.
-/

namespace ObTools
namespace Channel
namespace Reader

variable {σ : Type} {basicRead : BasicRead σ} {data : σ → List UInt8}

/--
With a limit that is not reached, everything is read.
-/
theorem readToEofLoop_eq (h : Lawful basicRead data) (limit : Nat) (done : List UInt8) (reader : σ)
    (hlimit : done.length + (data reader).length ≤ limit)
    : (readToEofLoop basicRead limit done reader).1 = done ++ data reader := by
  unfold readToEofLoop
  split
  . next hlt =>
    have hn : 0 < min channelBufferSize (limit - done.length) := by
      unfold channelBufferSize
      omega
    have hstream := h.stream (min channelBufferSize (limit - done.length)) reader
    have hprogress := h.progress _ reader hn
    generalize basicRead (min channelBufferSize (limit - done.length)) reader = res at hstream hprogress ⊢
    obtain ⟨bytes, reader'⟩ := res
    dsimp only at hstream hprogress ⊢
    have hlength := congrArg List.length hstream
    rw [List.length_append] at hlength
    split
    . rw [readToEofLoop_eq h limit (done ++ bytes) reader' (by rw [List.length_append]; omega), hstream,
        List.append_assoc]
    . next hnone =>
      have hend : data reader = [] := by
        by_contra hne
        apply hprogress hne
        simpa using hnone
      rw [hend, List.append_nil]
  . have hend : data reader = [] := by
      rw [← List.length_eq_zero_iff]
      omega
    rw [hend, List.append_nil]
termination_by limit - done.length
decreasing_by
  rw [List.length_append]
  omega

theorem readToEof_eq (h : Lawful basicRead data) {limit : Nat} {reader : σ}
    (hlimit : (data reader).length ≤ limit)
    : (readToEof basicRead limit reader).1 = data reader := by
  unfold readToEof
  rw [readToEofLoop_eq h limit [] reader (by rw [List.length_nil]; omega), List.nil_append]

-- The reader after some reads of a whole buffer each
def afterReads (basicRead : BasicRead σ) : Nat → σ → σ
  | 0, reader => reader
  | n + 1, reader => afterReads basicRead n (basicRead channelBufferSize reader).2

def IsFull (basicRead : BasicRead σ) (reader : σ) : Prop :=
  (basicRead channelBufferSize reader).1.length = channelBufferSize

/--
As long as whole buffers have been read, it is only at the end that less is.
-/
def ShortAtEnd (basicRead : BasicRead σ) (data : σ → List UInt8) (reader : σ) : Prop :=
  ∀ n, (∀ i < n, IsFull basicRead (afterReads basicRead i reader)) →
    ¬IsFull basicRead (afterReads basicRead n reader) →
    data (afterReads basicRead (n + 1) reader) = []

/--
The loop goes up to the first buffer that is not full.
-/
theorem readAllLoop_spec (h : Lawful basicRead data) {fuel : Nat} (done : List UInt8) {reader : σ}
    (hfuel : (data reader).length < fuel)
    : ∃ n bytes,
        (∀ i < n, IsFull basicRead (afterReads basicRead i reader))
          ∧
        ¬IsFull basicRead (afterReads basicRead n reader)
          ∧
        readAllLoop basicRead fuel done reader = some (done ++ bytes, afterReads basicRead (n + 1) reader)
          ∧
        data reader = bytes ++ data (afterReads basicRead (n + 1) reader) := by
  induction fuel generalizing done reader with
  | zero => contradiction
  | succ fuel ih =>
    have hstream := h.stream channelBufferSize reader
    unfold readAllLoop
    dsimp only
    split
    . next hshort => exact ⟨0, _, fun i hi => absurd hi (Nat.not_lt_zero i), hshort, rfl, hstream⟩
    . next hfull =>
      rw [not_not] at hfull
      have hlength := congrArg List.length hstream
      rw [List.length_append, hfull] at hlength
      have hbuffer : 0 < channelBufferSize := by decide
      have hrest : (data (basicRead channelBufferSize reader).2).length < fuel := by omega
      obtain ⟨n, bytes, hall, hshort, hloop, hdata⟩ :=
        ih (done ++ (basicRead channelBufferSize reader).1) hrest
      refine ⟨n + 1, (basicRead channelBufferSize reader).1 ++ bytes, ?_, hshort, ?_, ?_⟩
      . intro i hi
        cases i with
        | zero => exact hfull
        | succ i => exact hall i (by omega)
      . rw [hloop, List.append_assoc]
        rfl
      . rw [List.append_assoc, hstream]
        exact congrArg _ hdata

/--
Without a limit the same is read as with one if and only if no read comes short before the end.
-/
theorem readAll_iff (h : Lawful basicRead data) (reader : σ)
    : (∀ fuel limit, (data reader).length < fuel → (data reader).length ≤ limit →
        (readAll basicRead fuel reader).map Prod.fst = some (data reader)
          ∧
        (readToEof basicRead limit reader).1 = data reader)
        ↔
      ShortAtEnd basicRead data reader := by
  constructor
  . intro hread n hall hshort
    obtain ⟨m, bytes, hall', hshort', hloop, hdata⟩ :=
      readAllLoop_spec h [] (Nat.lt_succ_self (data reader).length)
    have hread := (hread _ _ (Nat.lt_succ_self _) (Nat.le_refl _)).1
    unfold readAll at hread
    rw [hloop, Option.map_some, List.nil_append, Option.some.injEq] at hread
    dsimp only at hread
    -- Both are the first buffer that is not full
    have heq : n = m := by
      rcases Nat.lt_trichotomy n m with hlt | heq | hgt
      . exact absurd (hall' n hlt) hshort
      . exact heq
      . exact absurd (hall m hgt) hshort'
    rw [heq]
    rw [hread] at hdata
    exact List.self_eq_append_right.mp hdata
  . intro hend fuel limit hfuel hlimit
    obtain ⟨n, bytes, hall, hshort, hloop, hdata⟩ := readAllLoop_spec h [] hfuel
    refine ⟨?_, readToEof_eq h hlimit⟩
    rw [hend n hall hshort, List.append_nil] at hdata
    unfold readAll
    rw [hloop, hdata]
    rfl

-- A whole string is there at once
theorem readAll_iff_string
    : (readAll StringReader.basicRead 3 (StringReader.new [97, 98])).map Prod.fst = some [97, 98]
        ∧
      (readToEof StringReader.basicRead 2 (StringReader.new [97, 98])).1 = [97, 98] := by
  have hshort : ShortAtEnd StringReader.basicRead StringReader.rest (StringReader.new [97, 98]) := by
    intro n hall _
    cases n with
    | zero => rfl
    | succ n => exact absurd (hall 0 (Nat.succ_pos n)) (by unfold IsFull; decide)
  exact (readAll_iff StringReader.lawful (StringReader.new [97, 98])).mpr hshort 3 2 (by decide) (by decide)

-- A channel that comes up with one byte at a time
def byteByByte : BasicRead (List UInt8) := fun n bytes => (bytes.take (min n 1), bytes.drop (min n 1))

theorem byteByByte_lawful : Lawful byteByByte id where
  stream n bytes := (List.take_append_drop (min n 1) bytes).symm
  length_le := by
    intro n bytes
    unfold byteByByte
    rw [List.length_take]
    omega
  progress := by
    intro n bytes hn hne hnil
    rcases List.take_eq_nil_iff.mp hnil with hzero | hempty
    . omega
    . exact hne hempty

/--
Without a limit the read ends with the first byte.
-/
theorem readAll_stops_early
    : Lawful byteByByte id
        ∧
      (readAll byteByByte 3 [97, 98]).map Prod.fst = some [97]
        ∧
      (readToEof byteByByte 2 [97, 98]).1 = [97, 98] :=
  ⟨byteByByte_lawful, by decide, readToEof_eq byteByByte_lawful (Nat.le_refl 2)⟩

end Reader
end Channel
end ObTools
