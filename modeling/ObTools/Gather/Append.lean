import ObTools.Gather.Refinement

/-!
This module contains the proof about appending a gather buffer to another one. What a segment owns is
copied from the start of its block, whether or not some of it has been consumed.
-/

namespace ObTools
namespace Gather

variable {m m' : Memory UInt8} {segments : List Segment} {s seg : Segment}

/-
The data of an owned segment is in its own block, where `consume` moves it.
-/
def Segment.Owns (seg : Segment) : Prop := ∀ b, seg.ownedData = some b → seg.data.block = some b

-- What `copy` takes for the data
def Segment.copied (m : Memory UInt8) (seg : Segment) : Bytes :=
  match seg.ownedData with
  | some b => (m.read { block := some b, offset := 0 } seg.length).getD []
  | none => seg.bytes m

/-
That the old memory is still there
-/
structure Extends (m m' : Memory UInt8) : Prop where
  lookup : ∀ b data, m.lookup b = some data → m'.lookup b = some data
  read : ∀ p n bytes, m.read p n = some bytes → m'.read p n = some bytes

theorem Extends.refl (m : Memory UInt8) : Extends m m := ⟨fun _ _ h => h, fun _ _ _ h => h⟩

theorem Extends.trans {m'' : Memory UInt8} (h : Extends m m') (h' : Extends m' m'') : Extends m m'' :=
  ⟨fun b data hb => h'.lookup b data (h.lookup b data hb),
    fun p n bytes hr => h'.read p n bytes (h.read p n bytes hr)⟩

theorem Extends.allocate (m : Memory UInt8) (data : Bytes) : Extends m (m.allocate data).2 :=
  ⟨fun _ _ h => Memory.lookup_allocate m data h, fun _ _ _ h => Memory.read_allocate data h⟩

theorem Extends.bytes_eq (h : Extends m m') (hseg : seg.Valid m) : seg.bytes m' = seg.bytes m := by
  have hread := hseg.read_eq
  unfold Segment.bytes at *
  rw [h.read _ _ _ hread]
  rfl

theorem Extends.valid (h : Extends m m') (hseg : seg.Valid m) : seg.Valid m' := by
  constructor
  . rw [h.read _ _ _ hseg.read_eq]
    rfl
  . intro b hb
    obtain ⟨data, hdata⟩ := Option.isSome_iff_exists.mp (hseg.live b hb)
    rw [h.lookup _ _ hdata]
    rfl

theorem Extends.content_eq (h : Extends m m') (hvalid : ∀ seg ∈ segments, seg.Valid m)
    : content m' segments = content m segments := by
  unfold content
  rw [List.flatMap_def, List.flatMap_def, List.map_congr_left]
  intro seg hseg
  exact h.bytes_eq (hvalid seg hseg)

theorem Segment.length_copied (hseg : s.Valid m) (hown : s.Owns)
    : (s.copied m).length = s.length := by
  unfold copied
  cases hb : s.ownedData with
  | none => exact hseg.length_bytes
  | some b =>
    have hlive := hseg.live b hb
    rw [← hown b hb] at hlive
    obtain ⟨bytes, hread, hlen⟩ := Memory.read_start hseg.read_eq hlive
    rw [hown b hb] at hread
    dsimp only
    rw [hread]
    exact hlen

theorem Extends.copied_eq (h : Extends m m') (hseg : s.Valid m) (hown : s.Owns)
    : s.copied m' = s.copied m := by
  unfold Segment.copied
  cases hb : s.ownedData with
  | none => exact h.bytes_eq hseg
  | some b =>
    have hlive := hseg.live b hb
    rw [← hown b hb] at hlive
    obtain ⟨bytes, hread, _⟩ := Memory.read_start hseg.read_eq hlive
    rw [hown b hb] at hread
    dsimp only
    rw [hread, h.read _ _ _ hread]

theorem Segment.copy_spec (hseg : s.Valid m) (hown : s.Owns)
    : ∃ seg m',
        Segment.empty.copy s m = some (seg, m')
          ∧
        seg.Valid m' ∧ seg.bytes m' = s.copied m ∧ Extends m m' := by
  have hdelete : Segment.empty.deleteOwned m = some m := rfl
  unfold copy copied
  rw [hdelete]
  dsimp only [Option.bind_eq_bind, Option.bind_some]
  cases hb : s.ownedData with
  | none =>
    refine ⟨_, m, rfl, ⟨hseg.readable, ?_⟩, rfl, Extends.refl m⟩
    intro b hnone
    cases hnone
  | some b =>
    have hlive := hseg.live b hb
    rw [← hown b hb] at hlive
    obtain ⟨bytes, hread, hlen⟩ := Memory.read_start hseg.read_eq hlive
    rw [hown b hb] at hread
    have hcopy := Memory.read_allocated m bytes
    rw [hlen] at hcopy
    dsimp only
    rw [hread]
    refine ⟨_, _, rfl, ⟨?_, ?_⟩, ?_, Extends.allocate m bytes⟩
    . rw [hcopy]
      rfl
    . intro c hc
      rw [← Option.some.inj hc]
      unfold Memory.allocate Memory.lookup
      simp
    . unfold Segment.bytes
      dsimp only
      rw [hcopy]

-- Pieces of the same lengths make up the same bytes only if they are the same.
theorem flatMap_eq_iff {f g : Segment → Bytes} (h : ∀ s ∈ segments, (f s).length = (g s).length)
    : segments.flatMap f = segments.flatMap g ↔ ∀ s ∈ segments, f s = g s := by
  induction segments with
  | nil => simp
  | cons s segments ih =>
    rw [List.flatMap_cons, List.flatMap_cons, List.forall_mem_cons,
      ← ih fun t ht => h t (List.mem_cons_of_mem _ ht)]
    constructor
    . intro heq
      exact List.append_inj heq (h s List.mem_cons_self)
    . intro heq
      rw [heq.1, heq.2]

section Reachable

def AllOwn (segments : List Segment) : Prop := ∀ seg ∈ segments, seg.Owns

variable {b b' : Buffer} {n : Nat}

theorem Segment.owns_ofData (p : Pointer) (n : Nat) : (Segment.ofData p n).Owns := by
  intro b hb
  cases hb

theorem Segment.Owns.setLength (h : seg.Owns) (n : Nat) : Segment.Owns { seg with length := n } := h

theorem resize_used {newSize : Nat} (h : b.resize newSize = some b') : b'.used = b.used := by
  unfold Buffer.resize at h
  split at h
  . cases h
  . rw [← Option.some.inj h]
    simp [Segment.take]

theorem extend_used (h : b.extend = some b') : b'.used = b.used := by
  unfold Buffer.extend at h
  split at h
  . exact resize_used h
  . rw [Option.some.inj h]

theorem addSegment_owns (hb : AllOwn b.used) (hseg : seg.Owns) (h : b.addSegment seg = some b')
    : AllOwn b'.used := by
  obtain ⟨b1, hextend, heq⟩ := Option.bind_eq_some_iff.mp h
  rw [← Option.some.inj heq, extend_used hextend]
  intro t ht
  cases List.mem_append.mp ht with
  | inl ht => exact hb t ht
  | inr ht =>
    rw [List.mem_singleton.mp ht]
    exact hseg

theorem addRangeLoop_owns {offset len gatherOffset dataRead : Nat} (hb : AllOwn b.used)
    (h : Buffer.addRangeLoop offset len segments gatherOffset dataRead b = some b')
    : AllOwn b'.used := by
  induction segments generalizing gatherOffset dataRead b with
  | nil =>
    rw [← Option.some.inj h]
    exact hb
  | cons s segments ih =>
    rw [Buffer.addRangeLoop] at h
    split at h
    . dsimp only at h
      obtain ⟨b1, hadd, hrest⟩ := Option.bind_eq_some_iff.mp h
      have hb1 := addSegment_owns hb (Segment.owns_ofData _ _) hadd
      split at hrest
      . rw [← Option.some.inj hrest]
        exact hb1
      . exact ih hb1 hrest
    . exact ih hb h

theorem limitLoop_owns {length : Nat} (h : AllOwn segments)
    : AllOwn (Buffer.limitLoop length segments n).2.1 := by
  induction segments generalizing n with
  | nil => exact h
  | cons s segments ih =>
    have hs := h s List.mem_cons_self
    have hrest : AllOwn segments := fun t ht => h t (List.mem_cons_of_mem _ ht)
    simp only [Buffer.limitLoop]
    split
    . intro t ht
      rw [List.mem_singleton.mp ht]
      apply hs.setLength
    . intro t ht
      cases List.mem_cons.mp ht with
      | inl heq => rw [heq]; exact hs
      | inr ht => exact ih hrest t ht

theorem consumeLoop_owns {segments' : List Segment} (h : AllOwn segments)
    (hloop : Buffer.consumeLoop segments n m = some (segments', m'))
    : AllOwn segments' := by
  induction segments generalizing n m segments' with
  | nil =>
    cases hloop
    exact h
  | cons s segments ih =>
    have hs := h s List.mem_cons_self
    have hrest : AllOwn segments := fun t ht => h t (List.mem_cons_of_mem _ ht)
    have hcons : ∀ t rest, Segment.Owns t → AllOwn rest → AllOwn (t :: rest) := by
      intro t rest ht hrest
      unfold AllOwn
      rw [List.forall_mem_cons]
      exact ⟨ht, hrest⟩
    rw [Buffer.consumeLoop] at hloop
    split at hloop
    . obtain ⟨⟨rest, m1⟩, hconsume, heq⟩ := Option.bind_eq_some_iff.mp hloop
      cases heq
      exact hcons _ _ hs (ih hrest hconsume)
    . split at hloop
      . cases hloop
        exact hcons _ _ hs hrest
      . obtain ⟨⟨s', m1⟩, hreset, hloop⟩ := Option.bind_eq_some_iff.mp hloop
        obtain ⟨⟨rest, m2⟩, hconsume, heq⟩ := Option.bind_eq_some_iff.mp hloop
        obtain ⟨m3, _, hempty⟩ := Option.bind_eq_some_iff.mp hreset
        cases heq
        cases hempty
        refine hcons _ _ ?_ (ih hrest hconsume)
        intro b hb
        cases hb

-- What the caller inserts has been made by a constructor, or taken from another buffer.
def Op.Owns : Op → Prop
  | .insert seg _ => seg.Owns
  | _ => True

theorem apply_owns {s s' : State} {op : Op} (hs : AllOwn s.buffer.used) (hop : op.Owns)
    (h : op.apply s = some s')
    : AllOwn s'.buffer.used := by
  cases op with
  | add data length =>
    obtain ⟨b, hadd, heq⟩ := Option.bind_eq_some_iff.mp h
    cases heq
    exact addSegment_owns hs (Segment.owns_ofData _ _) hadd
  | addRange other offset len =>
    obtain ⟨b, hadd, heq⟩ := Option.bind_eq_some_iff.mp h
    cases heq
    exact addRangeLoop_owns hs hadd
  | insert seg pos =>
    obtain ⟨b, hinsert, heq⟩ := Option.bind_eq_some_iff.mp h
    obtain ⟨b1, hextend, hplaced⟩ := Option.bind_eq_some_iff.mp hinsert
    cases heq
    split at hplaced
    . cases hplaced
    . rw [← Option.some.inj hplaced, extend_used hextend]
      intro t ht
      cases List.mem_append.mp ht with
      | inl ht => exact hs t (List.mem_of_mem_take ht)
      | inr ht =>
        cases List.mem_cons.mp ht with
        | inl heq => rw [heq]; exact hop
        | inr ht => exact hs t (List.mem_of_mem_drop ht)
  | consume n =>
    obtain ⟨⟨b, m⟩, hconsume, heq⟩ := Option.bind_eq_some_iff.mp h
    obtain ⟨⟨used, m1⟩, hloop, heq1⟩ := Option.bind_eq_some_iff.mp hconsume
    cases heq
    cases heq1
    exact consumeLoop_owns hs hloop
  | limit length =>
    obtain ⟨⟨total, b, m⟩, hlimit, heq⟩ := Option.bind_eq_some_iff.mp h
    obtain ⟨⟨destroyed, m1⟩, hloop, heq1⟩ := Option.bind_eq_some_iff.mp hlimit
    cases heq
    cases heq1
    exact limitLoop_owns hs
  | tidy =>
    rw [← Option.some.inj h]
    intro t ht
    rw [Buffer.tidy_used] at ht
    exact hs t (List.mem_of_mem_filter ht)
  | resize newSize =>
    obtain ⟨b, hresize, heq⟩ := Option.bind_eq_some_iff.mp h
    cases heq
    dsimp only
    rw [resize_used hresize]
    exact hs
  | replace offset buf =>
    obtain ⟨m, hreplace, heq⟩ := Option.bind_eq_some_iff.mp h
    cases heq
    exact hs

theorem run_owns {s s' : State} {ops : List Op} (hs : AllOwn s.buffer.used)
    (hops : ∀ op ∈ ops, op.Owns) (h : run s ops = some s')
    : AllOwn s'.buffer.used := by
  induction ops generalizing s with
  | nil =>
    rw [← Option.some.inj h]
    exact hs
  | cons op ops ih =>
    obtain ⟨s1, happly, hrun⟩ := Option.bind_eq_some_iff.mp h
    rw [List.forall_mem_cons] at hops
    exact ih (apply_owns hs hops.1 happly) hops.2 hrun

end Reachable

namespace Buffer

/-
How large the array can become: it is doubled until its size does not fit into an `unsigned int`.
-/
def maxSize (size : Nat) : Nat :=
  if size = 0 then
    2 ^ 31
  else if 2 ^ 31 ≤ size then
    size
  else
    maxSize (size * 2)
termination_by 2 ^ 31 - size

theorem le_maxSize (size : Nat) : size ≤ maxSize size := by
  induction size using maxSize.induct with
  | case1 => exact Nat.zero_le _
  | case2 size h1 h2 =>
    rw [maxSize, if_neg h1, if_pos h2]
  | case3 size h1 h2 ih =>
    rw [maxSize, if_neg h1, if_neg h2]
    omega

section Room

variable {b : Buffer}

theorem count_le_size : b.count ≤ b.size := Nat.le_add_right _ _

theorem extend_some (hsize : b.size < 2 ^ 32) (hroom : b.count + 1 ≤ maxSize b.size)
    : ∃ b', b.extend = some b' ∧ b'.used = b.used ∧ b'.count < b'.size ∧ b'.size < 2 ^ 32
        ∧ maxSize b'.size = maxSize b.size := by
  have hle := b.count_le_size
  unfold extend
  split
  . next hfull =>
    have hlt : b.size < 2 ^ 31 := by
      by_contra hge
      rw [maxSize, if_neg (by omega), if_pos (by omega)] at hroom
      omega
    have hnew : ∃ newSize, (if b.size ≠ 0 then b.size * 2 % 2 ^ 32 else 1) = newSize
        ∧ b.count < newSize ∧ newSize < 2 ^ 32 ∧ maxSize newSize = maxSize b.size := by
      split
      . next hne =>
        refine ⟨b.size * 2, Nat.mod_eq_of_lt (by omega), by omega, by omega, ?_⟩
        rw [maxSize.eq_def b.size, if_neg hne, if_neg (by omega)]
      . next hzero =>
        rw [not_not] at hzero
        refine ⟨1, rfl, by omega, by decide, ?_⟩
        rw [hzero, maxSize.eq_def 0, if_pos rfl]
        simp [maxSize]
    obtain ⟨newSize, heq, hcount, hnewlt, hmax⟩ := hnew
    have hnewSize : (b.used.map fun seg => seg.take.1).length + (newSize - b.count) = newSize := by
      unfold count at *
      rw [List.length_map]
      omega
    rw [heq]
    refine ⟨_, if_neg (by omega), ?_, ?_, ?_, ?_⟩
    . simp [Segment.take]
    . unfold count size at *
      rw [List.length_map] at *
      rw [List.length_replicate]
      omega
    . unfold size
      rw [List.length_replicate, hnewSize]
      exact hnewlt
    . unfold size at *
      rw [List.length_replicate, hnewSize]
      exact hmax
  . exact ⟨b, rfl, rfl, by omega, hsize, rfl⟩

theorem extend_none (hsize : b.size < 2 ^ 32) (hroom : maxSize b.size < b.count + 1)
    : b.extend = none := by
  have hle := b.count_le_size
  have hmax := le_maxSize b.size
  have hge : 2 ^ 31 ≤ b.size := by
    by_contra hlt
    rw [maxSize] at hroom
    split at hroom
    . omega
    . have := le_maxSize (b.size * 2)
      omega
  unfold extend
  rw [if_pos (by omega), if_pos (by omega)]
  exact if_pos (by omega)

theorem addSegment_some (hsize : b.size < 2 ^ 32) (hroom : b.count + 1 ≤ maxSize b.size)
    (seg : Segment)
    : ∃ b', b.addSegment seg = some b' ∧ b'.used = b.used ++ [seg] ∧ b'.size < 2 ^ 32
        ∧ maxSize b'.size = maxSize b.size := by
  obtain ⟨b', hextend, hused, hlt, hsize', hmax⟩ := extend_some hsize hroom
  have hlength : ({ used := b'.used ++ [seg.take.1], stale := b'.stale.tail } : Buffer).size = b'.size := by
    unfold count size at *
    simp only [List.length_append, List.length_singleton, List.length_tail]
    omega
  unfold addSegment
  rw [hextend]
  refine ⟨_, rfl, by rw [hused]; rfl, ?_, ?_⟩
  . rw [hlength]
    exact hsize'
  . rw [hlength]
    exact hmax

end Room

theorem addBufferLoop_some {b : Buffer} (hsize : b.size < 2 ^ 32)
    (hroom : b.count + segments.length ≤ maxSize b.size)
    (h : ∀ s ∈ segments, s.Valid m ∧ s.Owns)
    : ∃ b' m' copies,
        addBufferLoop segments b m = some (b', m')
          ∧
        b'.used = b.used ++ copies
          ∧
        (∀ seg ∈ copies, seg.Valid m')
          ∧
        content m' copies = segments.flatMap (Segment.copied m)
          ∧
        Extends m m' := by
  induction segments generalizing b m with
  | nil => exact ⟨b, m, [], rfl, by simp, by simp, rfl, Extends.refl m⟩
  | cons s segments ih =>
    rw [List.length_cons] at hroom
    obtain ⟨hs, hown⟩ := h s List.mem_cons_self
    obtain ⟨seg, m1, hcopy, hseg, hbytes, hext1⟩ := Segment.copy_spec hs hown
    obtain ⟨b1, hadd, hused1, hsize1, hmax1⟩ := addSegment_some hsize (by omega) seg
    have hcount1 : b1.count = b.count + 1 := by
      unfold count
      rw [hused1, List.length_append, List.length_singleton]
    have hrest : ∀ s ∈ segments, s.Valid m1 ∧ s.Owns := by
      intro s hs
      have := h s (List.mem_cons_of_mem _ hs)
      exact ⟨hext1.valid this.1, this.2⟩
    obtain ⟨b2, m2, copies, hloop, hused2, hvalid2, hcontent, hext2⟩ :=
      ih hsize1 (by omega) hrest
    refine ⟨b2, m2, seg :: copies, ?_, ?_, ?_, ?_, hext1.trans hext2⟩
    . rw [addBufferLoop, hcopy]
      dsimp only [Option.bind_eq_bind, Option.bind_some]
      rw [hadd]
      exact hloop
    . rw [hused2, hused1, List.append_assoc]
      rfl
    . rw [List.forall_mem_cons]
      exact ⟨hext2.valid hseg, hvalid2⟩
    . rw [content_cons, List.flatMap_cons, hext2.bytes_eq hseg, hbytes, hcontent, List.flatMap_def,
        List.flatMap_def, List.map_congr_left]
      intro t ht
      have := h t (List.mem_cons_of_mem _ ht)
      exact hext1.copied_eq this.1 this.2

theorem addBufferLoop_none {b : Buffer} (hsize : b.size < 2 ^ 32)
    (hroom : maxSize b.size < b.count + segments.length)
    (h : ∀ s ∈ segments, s.Valid m ∧ s.Owns)
    : addBufferLoop segments b m = none := by
  induction segments generalizing b m with
  | nil =>
    have := le_maxSize b.size
    have := b.count_le_size
    rw [List.length_nil] at hroom
    omega
  | cons s segments ih =>
    rw [List.length_cons] at hroom
    obtain ⟨hs, hown⟩ := h s List.mem_cons_self
    obtain ⟨seg, m1, hcopy, _, _, hext1⟩ := Segment.copy_spec hs hown
    rw [addBufferLoop, hcopy]
    dsimp only [Option.bind_eq_bind, Option.bind_some]
    by_cases hfits : b.count + 1 ≤ maxSize b.size
    . obtain ⟨b1, hadd, hused1, hsize1, hmax1⟩ := addSegment_some hsize hfits seg
      have hcount1 : b1.count = b.count + 1 := by
        unfold count
        rw [hused1, List.length_append, List.length_singleton]
      rw [hadd]
      apply ih hsize1 (by omega)
      intro s hs
      have := h s (List.mem_cons_of_mem _ hs)
      exact ⟨hext1.valid this.1, this.2⟩
    . have hnone : b.addSegment seg = none := by
        unfold addSegment
        rw [extend_none hsize (by omega)]
        rfl
      rw [hnone]
      rfl

/--
The content of the other buffer is appended if and only if no segment owns a block that starts with
something else than its data, and there is room for all of the segments.
-/
theorem addBuffer_iff (m : Memory UInt8) (a b : Buffer) (ha : ∀ seg ∈ a.used, seg.Valid m)
    (hsize : a.size < 2 ^ 32) (hb : ∀ seg ∈ b.used, seg.Valid m ∧ seg.Owns)
    : (∃ a' m',
        a.addBuffer b m = some (a', m')
          ∧
        content m' a'.used = content m a.used ++ content m b.used
          ∧
        content m' b.used = content m b.used)
        ↔
      (∀ seg ∈ b.used, ∀ block, seg.ownedData = some block →
        m.read { block := some block, offset := 0 } seg.length = m.read seg.data seg.length)
          ∧
        a.count + b.count ≤ maxSize a.size := by
  by_cases hroom : a.count + b.count ≤ maxSize a.size
  . rw [and_iff_left hroom]
    obtain ⟨a', m', copies, hloop, hused, hvalid, hcontent, hext⟩ := addBufferLoop_some hsize hroom hb
    have hold := hext.content_eq ha
    have hother := hext.content_eq fun seg hseg => (hb seg hseg).1
    have hresult : content m' a'.used = content m a.used ++ b.used.flatMap (Segment.copied m) := by
      rw [hused, content_append, hold, hcontent]
    have hpieces := flatMap_eq_iff (f := Segment.copied m) (g := Segment.bytes m) fun s hs => by
      rw [Segment.length_copied (hb s hs).1 (hb s hs).2, (hb s hs).1.length_bytes]
    have hreads : ∀ seg ∈ b.used, seg.copied m = seg.bytes m
        ↔ ∀ block, seg.ownedData = some block →
          m.read { block := some block, offset := 0 } seg.length = m.read seg.data seg.length := by
      intro seg hseg
      obtain ⟨hv, hown⟩ := hb seg hseg
      unfold Segment.copied
      cases hblock : seg.ownedData with
      | none => simp
      | some block =>
        have hlive := hv.live block hblock
        rw [← hown block hblock] at hlive
        obtain ⟨bytes, hread, _⟩ := Memory.read_start hv.read_eq hlive
        rw [hown block hblock] at hread
        dsimp only
        rw [hread, Option.getD_some]
        constructor
        . intro heq block' hblock'
          rw [← Option.some.inj hblock', hread, hv.read_eq, heq]
        . intro h
          have hstart := h block rfl
          rw [hread, hv.read_eq] at hstart
          exact Option.some.inj hstart
    constructor
    . intro h
      obtain ⟨a1, m1, hloop1, happend, _⟩ := h
      unfold addBuffer at hloop1
      rw [hloop] at hloop1
      cases hloop1
      rw [hresult, List.append_right_inj] at happend
      intro seg hseg
      exact (hreads seg hseg).mp (hpieces.mp happend seg hseg)
    . intro h
      refine ⟨a', m', hloop, ?_, hother⟩
      rw [hresult, hpieces.mpr fun seg hseg => (hreads seg hseg).mpr (h seg hseg)]
      rfl
  . have hnone : a.addBuffer b m = none := addBufferLoop_none hsize (Nat.lt_of_not_le hroom) hb
    rw [hnone]
    constructor
    . intro h
      obtain ⟨a', m', hsome, _⟩ := h
      cases hsome
    . intro h
      exact absurd h.2 hroom

end Buffer

-- An owned segment as it has been made, and a reference
theorem addBuffer_iff_fresh
    : let m : Memory UInt8 := [some [1, 2, 3], some [7, 8]]
      let b : Buffer :=
        { used := [⟨some 0, ⟨some 0, 0⟩, 3⟩, .ofData ⟨some 1, 1⟩ 1], stale := [] }
      ∃ a' m', (Buffer.new 1).addBuffer b m = some (a', m') ∧ content m' a'.used = [1, 2, 3, 8] := by
  intro m b
  have hvalid : ∀ seg ∈ b.used, seg.Valid m ∧ seg.Owns := by
    unfold b
    rw [List.forall_mem_cons, List.forall_mem_singleton]
    refine ⟨⟨⟨rfl, ?_⟩, ?_⟩, (Segment.ofData_spec rfl).1, Segment.owns_ofData _ _⟩
    . intro block hblock
      cases hblock
      rfl
    . intro block hblock
      cases hblock
      rfl
  have hstart : ∀ seg ∈ b.used, ∀ block, seg.ownedData = some block →
      m.read { block := some block, offset := 0 } seg.length = m.read seg.data seg.length := by
    unfold b
    rw [List.forall_mem_cons, List.forall_mem_singleton]
    refine ⟨?_, ?_⟩
    . intro block hblock
      cases hblock
      rfl
    . intro block hblock
      cases hblock
  have hroom : (Buffer.new 1).count + b.count ≤ Buffer.maxSize (Buffer.new 1).size := by
    have hmax : Buffer.maxSize (Buffer.new 1).size = 2 ^ 31 := by
      simp [Buffer.maxSize, Buffer.new, Buffer.size]
    rw [hmax]
    decide
  obtain ⟨a', m', hadd, hcontent, _⟩ :=
    (Buffer.addBuffer_iff m (Buffer.new 1) b (fun _ h => absurd h List.not_mem_nil) (by decide) hvalid).mpr ⟨hstart, hroom⟩
  exact ⟨a', m', hadd, hcontent⟩

-- Of three bytes that are owned the first one is consumed, and yet the first two are copied.
theorem addBuffer_consumed
    : ¬∀ (s s' : State) (ops : List Op) (a : Buffer), s.buffer.used = [] → s.Inv → Permitted s ops →
        (∀ op ∈ ops, op.Owns) → run s ops = some s' → (∀ seg ∈ a.used, seg.Valid s'.memory) →
          a.size < 2 ^ 32 →
            ∃ a' m', a.addBuffer s'.buffer s'.memory = some (a', m')
              ∧ content m' a'.used = content s'.memory a.used ++ content s'.memory s'.buffer.used
              ∧ content m' s'.buffer.used = content s'.memory s'.buffer.used := by
  intro h
  have hinv : State.Inv { memory := [some [1, 2, 3]], buffer := Buffer.new 1 } := by
    refine ⟨⟨?_, List.Pairwise.nil⟩, by decide⟩
    intro seg hseg
    cases hseg
  have hvalid : Segment.Valid [some [1, 2, 3]] ⟨some 0, ⟨some 0, 0⟩, 3⟩ := by
    refine ⟨rfl, ?_⟩
    intro block hblock
    cases hblock
    rfl
  have hpermitted : Permitted { memory := [some [1, 2, 3]], buffer := Buffer.new 1 }
      [.insert ⟨some 0, ⟨some 0, 0⟩, 3⟩ 0, .consume 1] := by
    refine ⟨⟨hvalid, by decide, .inl (by decide)⟩, ?_⟩
    rintro s1 ⟨⟩
    refine ⟨List.pairwise_singleton _ _, trivial, ?_⟩
    rintro s2 ⟨⟩
    exact ⟨List.pairwise_singleton _ _, trivial⟩
  have howns : ∀ op ∈ [Op.insert ⟨some 0, ⟨some 0, 0⟩, 3⟩ 0, Op.consume 1], op.Owns := by
    rw [List.forall_mem_cons, List.forall_mem_singleton]
    refine ⟨?_, trivial⟩
    intro block hblock
    cases hblock
    rfl
  obtain ⟨a', m', hadd, hcontent, _⟩ :=
    h _ _ _ (Buffer.new 1) rfl hinv hpermitted howns rfl (fun _ h => absurd h List.not_mem_nil) (by decide)
  have hadd' : (Buffer.new 1).addBuffer
      { used := [⟨some 0, ⟨some 0, 1⟩, 2⟩], stale := [] } [some [1, 2, 3]]
        = some
          ({ used := [⟨some 1, ⟨some 1, 0⟩, 2⟩], stale := [] }, [some [1, 2, 3], some [1, 2]]) := by
    decide
  have heq := hadd.symm.trans hadd'
  cases heq
  exact absurd hcontent (by decide)

end Gather
end ObTools
