import ObTools.Gather.Update

/-!
This module contains the proof that a gather buffer is a string of bytes: every operation has the
effect on its content that the operation on bytes has, in all runs in which no two segments of the
buffer refer to the same memory.
-/

namespace ObTools
namespace Gather

namespace State

def content (s : State) : Bytes := Gather.content s.memory s.buffer.used

-- All memory is within the address space.
structure Inv (s : State) : Prop where
  wellFormed : WellFormed s.memory s.buffer.used
  size_lt : s.memory.size < 2 ^ 64

end State

namespace Op

variable {s : State}

/-
What the caller has to see to: memory that is passed is there, together with all other memory it is
within the address space, and the operation does not abort.
-/
def Ready (s : State) : Op → Prop
  | add data length => (s.memory.read data length).isSome ∧ s.buffer.Room 1
  | addRange other _ _ =>
    (∀ seg ∈ other.used, seg.Valid s.memory) ∧ total other.used < 2 ^ 64
      ∧ s.buffer.Room other.count
  | insert seg pos => seg.Valid s.memory ∧ pos ≤ s.buffer.count ∧ s.buffer.Room 1
  | resize newSize => s.buffer.count ≤ newSize
  | replace _ buf => s.memory.size + buf.length < 2 ^ 64
  | _ => True

-- The operation on bytes
def abstract (s : State) : Op → ByteOp
  | add data length => .append ((Segment.ofData data length).bytes s.memory)
  | addRange other offset len =>
    .append (((Gather.content s.memory other.used).drop offset).take len)
  | insert seg pos => .insert (total (s.buffer.used.take pos)) (seg.bytes s.memory)
  | consume n => .drop n
  | limit length => .take length
  | tidy => .keep
  | resize _ => .keep
  | replace offset buf => .overwrite offset buf

theorem apply_add {data : Pointer} {length : Nat} (hs : s.Inv) (h : (add data length).Ready s)
    : ∃ s',
        (add data length).apply s = some s'
          ∧
        s'.content = ((add data length).abstract s).apply s.content
          ∧
        (Separate s'.buffer.used → s'.Inv) := by
  obtain ⟨hread, hroom⟩ := h
  obtain ⟨bytes, hread⟩ := Option.isSome_iff_exists.mp hread
  obtain ⟨b', hadd, hused, -⟩ := Buffer.addSegment_spec hroom (Segment.ofData data length)
  obtain ⟨hvalid, -⟩ := Segment.ofData_spec hread
  refine ⟨{ s with buffer := b' }, ?_, ?_, ?_⟩
  . simp [apply, Buffer.add, hadd]
  . simp only [State.content, abstract, ByteOp.apply, hused, content_append]
    simp [Gather.content]
  . intro hsep
    refine ⟨⟨?_, hsep⟩, hs.size_lt⟩
    intro seg hseg
    simp only [hused, List.mem_append, List.mem_singleton] at hseg
    cases hseg with
    | inl hold => exact hs.wellFormed.valid seg hold
    | inr hnew => exact hnew ▸ hvalid

theorem apply_addRange {other : Buffer} {offset len : Nat} (hs : s.Inv)
    (h : (addRange other offset len).Ready s)
    : ∃ s',
        (addRange other offset len).apply s = some s'
          ∧
        s'.content = ((addRange other offset len).abstract s).apply s.content
          ∧
        (Separate s'.buffer.used → s'.Inv) := by
  obtain ⟨hvalid, htotal, hroom⟩ := h
  obtain ⟨b', added, hadd, hused, hadded, hcontent⟩ :=
    Buffer.addRange_spec offset len hvalid htotal hroom
  refine ⟨{ s with buffer := b' }, ?_, ?_, ?_⟩
  . simp [apply, hadd]
  . simp only [State.content, abstract, ByteOp.apply, hused, content_append]
    rw [hcontent]
  . intro hsep
    refine ⟨⟨?_, hsep⟩, hs.size_lt⟩
    intro seg hseg
    simp only [hused, List.mem_append] at hseg
    cases hseg with
    | inl hold => exact hs.wellFormed.valid seg hold
    | inr hnew => exact hadded seg hnew

theorem apply_insert {seg : Segment} {pos : Nat} (hs : s.Inv) (h : (insert seg pos).Ready s)
    : ∃ s',
        (insert seg pos).apply s = some s'
          ∧
        s'.content = ((insert seg pos).abstract s).apply s.content
          ∧
        (Separate s'.buffer.used → s'.Inv) := by
  obtain ⟨hvalid, hpos, hroom⟩ := h
  obtain ⟨b', hinsert, hused⟩ := Buffer.insert_spec hroom seg hpos
  have hlow : (Gather.content s.memory (s.buffer.used.take pos)).length
      = total (s.buffer.used.take pos) := by
    apply length_content
    intro seg hseg
    exact hs.wellFormed.valid seg (List.mem_of_mem_take hseg)
  have hsplit : s.content = Gather.content s.memory (s.buffer.used.take pos)
      ++ Gather.content s.memory (s.buffer.used.drop pos) := by
    rw [← content_append, List.take_append_drop]
    rfl
  refine ⟨{ s with buffer := b' }, ?_, ?_, ?_⟩
  . simp [apply, hinsert]
  . simp only [abstract, ByteOp.apply]
    rw [hsplit, List.take_left' hlow, List.drop_left' hlow, List.append_assoc]
    simp only [State.content, hused, content_append, content_cons]
  . intro hsep
    refine ⟨⟨?_, hsep⟩, hs.size_lt⟩
    intro seg' hseg'
    simp only [hused, List.mem_append, List.mem_cons] at hseg'
    rcases hseg' with hlow | hnew | hhigh
    . exact hs.wellFormed.valid seg' (List.mem_of_mem_take hlow)
    . exact hnew ▸ hvalid
    . exact hs.wellFormed.valid seg' (List.mem_of_mem_drop hhigh)

/--
One operation on a buffer.
-/
theorem apply_spec (hs : s.Inv) (op : Op) (h : op.Ready s)
    : ∃ s',
        op.apply s = some s'
          ∧
        s'.content = (op.abstract s).apply s.content
          ∧
        (Separate s'.buffer.used → s'.Inv) := by
  cases op with
  | add data length => exact apply_add hs h
  | addRange other offset len => exact apply_addRange hs h
  | insert seg pos => exact apply_insert hs h
  | consume n =>
    obtain ⟨b', m', hconsume, hcontent, hwf, hsize⟩ := Buffer.consume_spec hs.wellFormed n
    refine ⟨{ memory := m', buffer := b' }, by simp [apply, hconsume], hcontent, ?_⟩
    intro _
    exact ⟨hwf, Nat.lt_of_le_of_lt hsize hs.size_lt⟩
  | limit length =>
    obtain ⟨b', m', hlimit, hcontent, hwf, hsize⟩ :=
      Buffer.limit_spec hs.wellFormed hs.size_lt length
    refine ⟨{ memory := m', buffer := b' }, by simp [apply, hlimit], hcontent, ?_⟩
    intro _
    exact ⟨hwf, Nat.lt_of_le_of_lt hsize hs.size_lt⟩
  | tidy =>
    obtain ⟨hcontent, hwf⟩ := Buffer.tidy_spec hs.wellFormed
    exact ⟨_, rfl, hcontent, fun _ => ⟨hwf, hs.size_lt⟩⟩
  | resize newSize =>
    have hresize : ∃ b', s.buffer.resize newSize = some b' ∧ b'.used = s.buffer.used := by
      refine ⟨_, if_neg (Nat.not_lt_of_le h), ?_⟩
      simp [Segment.take]
    obtain ⟨b', hresize, hused⟩ := hresize
    refine ⟨{ s with buffer := b' }, by simp [apply, hresize], ?_, ?_⟩
    . simp only [State.content, abstract, ByteOp.apply, hused]
    . intro _
      refine ⟨?_, hs.size_lt⟩
      rw [hused]
      exact hs.wellFormed
  | replace offset buf =>
    obtain ⟨m', hreplace, hcontent, hwf, hsize⟩ := Buffer.replace_spec hs.wellFormed buf offset h
    refine ⟨{ s with memory := m' }, by simp [apply, hreplace], hcontent, ?_⟩
    intro _
    exact ⟨hwf, Nat.lt_of_le_of_lt hsize hs.size_lt⟩

end Op

/-
A run in which every operation is ready, and in which no two segments ever refer to the same memory.
-/
def Permitted (s : State) : List Op → Prop
  | [] => True
  | op :: ops =>
    op.Ready s ∧ ∀ s', op.apply s = some s' → Separate s'.buffer.used ∧ Permitted s' ops

def abstractRun (s : State) : List Op → List ByteOp
  | [] => []
  | op :: ops =>
    op.abstract s :: match op.apply s with
      | some s' => abstractRun s' ops
      | none => []

theorem run_spec {s : State} {ops : List Op} (hs : s.Inv) (h : Permitted s ops)
    : ∃ s',
        run s ops = some s' ∧ s'.Inv
          ∧
        s'.content = (abstractRun s ops).foldl ByteOp.apply s.content := by
  induction ops generalizing s with
  | nil => exact ⟨s, rfl, hs, rfl⟩
  | cons op ops ih =>
    obtain ⟨s1, happly, hcontent, hinv⟩ := op.apply_spec hs h.1
    obtain ⟨hsep, hrest⟩ := h.2 s1 happly
    obtain ⟨s', hrun, hinv', hcontent'⟩ := ih (hinv hsep) hrest
    refine ⟨s', ?_, hinv', ?_⟩
    . rw [run, happly]
      exact hrun
    . rw [abstractRun, happly, List.foldl_cons, ← hcontent]
      exact hcontent'

-- Segments that own nothing and refer to different places
theorem separate_of_apart {segments : List Segment}
    (h : segments.Pairwise fun s t =>
      s.ownedData = none ∧ t.ownedData = none
        ∧ (s.data.block ≠ t.data.block ∨ s.data.offset + s.length ≤ t.data.offset
          ∨ t.data.offset + t.length ≤ s.data.offset))
    : Separate segments := by
  apply h.imp
  rintro s t ⟨hs, ht, hapart⟩
  rw [Set.disjoint_left]
  rintro a (⟨b, hb, -⟩ | ⟨hblock, hlo, hhi⟩)
  . rw [hs] at hb
    contradiction
  . rintro (⟨b, hb, -⟩ | ⟨hblock', hlo', hhi'⟩)
    . rw [ht] at hb
      contradiction
    . rcases hapart with hne | hle | hle
      . exact hne (hblock.symm.trans hblock')
      . omega
      . omega

end Gather
end ObTools
