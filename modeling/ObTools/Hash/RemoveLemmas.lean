import ObTools.Hash.Invariant

/-!
This module contains the proof that the delete loop of `remove` ends and keeps the invariant. Its
loop invariant is `Contents` with exactly one entry that is not live: the gap. An entry further down
the chain which hashes to the gap is moved into it, so the gap moves down the chain. If no such entry
is left, nothing depends on the place of the gap and it is snapped out.
-/

namespace ObTools
namespace Hash
namespace Block

open DoublyLinked

variable {ID : Type} {b : Block ID} {free : List Int} {m : ID → Int}
variable {d q : Int} {l l1 l2 : List Int} {cs1 cs2 : List (List Int)}

theorem findHashedTo_eq (fuel : Nat) {p : Int} (h : Linked b.nextOf b.prevOf p invalidHashIndex l)
    (hvalid : ∀ j ∈ l, j ≠ invalidHashIndex) (hfuel : l.length < fuel)
    : (b.findHashedTo d fuel (l.headD invalidHashIndex) = some invalidHashIndex
        ∧ ∀ j ∈ l, (b.table j).head ≠ d)
        ∨
      ∃ k1 q k2, l = k1 ++ q :: k2 ∧ (b.table q).head = d
        ∧ b.findHashedTo d fuel (l.headD invalidHashIndex) = some q := by
  induction fuel generalizing l p with
  | zero => omega
  | succ fuel ih =>
    cases l with
    | nil => simp [findHashedTo]
    | cons i l =>
      have hi := hvalid i (by simp)
      simp only [List.headD_cons, findHashedTo, hi, ↓reduceIte]
      by_cases hhead : (b.table i).head = d
      . right
        refine ⟨[], i, l, rfl, hhead, ?_⟩
        simp [hhead]
      . have hnext : (b.table i).next = l.headD invalidHashIndex := h.2.1
        simp only [hhead, ↓reduceIte, hnext]
        simp only [List.length_cons] at hfuel
        have := ih h.2.2 (fun j hj => hvalid j (by simp [hj])) (by omega)
        cases this with
        | inl this =>
          left
          refine ⟨this.1, ?_⟩
          intro j hj
          cases List.mem_cons.mp hj with
          | inl heq => rw [heq]; exact hhead
          | inr hj => exact this.2 j hj
        | inr this =>
          right
          obtain ⟨k1, q, k2, hl, hq, hfind⟩ := this
          refine ⟨i :: k1, q, k2, ?_, hq, hfind⟩
          rw [hl]
          rfl

section CopyBack

variable {chains : List (List Int)}

theorem copyBack_shape (h : b.Shape free chains) (hd : d ∈ chains.flatten)
    (hq : q ∈ chains.flatten) : (b.copyBack d q).Shape free chains := by
  have hlinks : ∀ j, (b.copyBack d q).nextOf j = b.nextOf j
      ∧ (b.copyBack d q).prevOf j = b.prevOf j := by
    intro j
    simp only [nextOf, prevOf, copyBack_table]
    split
    . next heq => simp [heq]
    . simp
  have hchain : ∀ c, b.Chain c → (b.copyBack d q).Chain c := by
    intro c hc
    apply hc.congr
    . intro j _
      exact (hlinks j).1
    . intro j _
      exact (hlinks j).2
  constructor
  . exact h.perm
  . exact h.freelist_eq
  . apply hchain
    exact h.free_chain
  . intro c hc
    apply hchain
    exact h.chain c hc
  . intro j hj
    rw [copyBack_table]
    simp only [h.ne_of_mem hj hd, ↓reduceIte]
    exact h.free_unused j hj
  . intro j hj
    rw [copyBack_table]
    split
    . exact h.used q hq
    . exact h.used j hj

theorem copyBack_contents (h : b.Contents chains (· ≠ d) m) (hd : d ∈ chains.flatten)
    (hq : q ∈ chains.flatten) (hqd : q ≠ d) (hhead : (b.table q).head = d)
    : (b.copyBack d q).Contents chains (· ≠ q) m := by
  have hother : ∀ j, j ≠ d → (b.copyBack d q).table j = b.table j := by
    intro j hj
    rw [copyBack_table]
    simp [hj]
  have hgap : ((b.copyBack d q).table d).id = (b.table q).id
      ∧ ((b.copyBack d q).table d).index = (b.table q).index
      ∧ ((b.copyBack d q).table d).head = d := by
    rw [copyBack_table]
    simp [hhead]
  constructor
  . intro j hj hlive
    rw [(copyBack_sameHelper b d q).getStart_eq]
    by_cases hjd : j = d
    . rw [hjd, hgap.1, hgap.2.2, ← h.head_eq q hq hqd, hhead]
    . rw [hother j hjd]
      exact h.head_eq j hj hjd
  . intro c hc
    have := h.headBefore c hc
    -- The data in `d` now hashes to `d`, so only the entries that were live matter.
    clear hd hq hc
    generalize ([] : List Int) = seen at *
    induction c generalizing seen with
    | nil => trivial
    | cons i l ih =>
      refine ⟨?_, ih _ this.2⟩
      intro hi
      by_cases hid : i = d
      . left
        rw [hid]
        exact hgap.2.2
      . simp only [headOf, hother i hid]
        exact this.1 hid
  . intro i hi j hj hilive hjlive heq
    by_cases hid : i = d
    . by_cases hjd : j = d
      . rw [hid, hjd]
      . rw [hid, hgap.1, hother j hjd] at heq
        exact absurd (h.id_inj q hq j hj hqd hjd heq).symm hjlive
    . by_cases hjd : j = d
      . rw [hjd, hgap.1, hother i hid] at heq
        exact absurd (h.id_inj i hi q hq hid hqd heq) hilive
      . rw [hother i hid, hother j hjd] at heq
        exact h.id_inj i hi j hj hid hjd heq
  . intro j hj hlive
    by_cases hjd : j = d
    . rw [hjd, hgap.1, hgap.2.1]
      exact h.sound q hq hqd
    . rw [hother j hjd]
      exact h.sound j hj hjd
  . intro id hid
    obtain ⟨j, hj, hlive, heq⟩ := h.complete id hid
    by_cases hjq : j = q
    . refine ⟨d, hd, hqd.symm, ?_⟩
      rw [hgap.1, ← hjq, heq]
    . refine ⟨j, hj, hjq, ?_⟩
      rw [hother j hlive, heq]

end CopyBack

section SnapOut

theorem snapOut_shape (h : b.Shape free (cs1 ++ (l1 ++ d :: l2) :: cs2))
    : (b.snapOut d).Shape (d :: free) (cs1 ++ (l1 ++ l2) :: cs2) := by
  have hcmem : l1 ++ d :: l2 ∈ cs1 ++ (l1 ++ d :: l2) :: cs2 := by simp
  have hchain := h.chain _ hcmem
  have hnodup := h.nodup_chain hcmem
  have hflat : ∀ j, j ∈ l1 ++ d :: l2 → j ∈ (cs1 ++ (l1 ++ d :: l2) :: cs2).flatten :=
    fun j hj => List.mem_flatten_of_mem hcmem hj
  have hdflat := hflat d (by simp)
  have hd0 := h.ne_invalid_of_mem_chain hdflat
  have hdfree : d ≠ b.freelist := by
    rw [h.freelist_eq]
    cases headD_mem_or_eq free invalidHashIndex with
    | inl hm => exact (h.ne_of_mem hm hdflat).symm
    | inr hm => rw [hm]; exact hd0
  have hnext := Shape.next_ne_self hchain hnodup hd0
  have hprev := Shape.prev_ne_self hchain hnodup hd0
  have htable := fun j hj => snapOut_table b d j hd0 hj hnext hprev hdfree
  -- An entry of the freelist is not a neighbour of `d`, its first entry gets a back link.
  have hfree : ∀ j ∈ free, (b.snapOut d).table j
      = { b.table j with prev := if j = b.freelist then d else (b.table j).prev } := by
    intro j hj
    have hj0 := h.ne_invalid_of_mem_free hj
    have hnot : j ∉ l1 ++ d :: l2 := fun hmem => h.ne_of_mem hj (hflat j hmem) rfl
    have hjd : j ≠ d := h.ne_of_mem hj hdflat
    rw [htable j hj0]
    simp [hjd, Shape.ne_next_of_notMem hchain hj0 hnot, Shape.ne_prev_of_notMem hchain hj0 hnot]
  have hused : ∀ j ∈ (cs1 ++ (l1 ++ d :: l2) :: cs2).flatten, j ≠ d → (b.snapOut d).table j
      = { b.table j with
          next := if j = (b.table d).prev then (b.table d).next else (b.table j).next
          prev := if j = (b.table d).next then (b.table d).prev else (b.table j).prev } := by
    intro j hj hjd
    have hj0 := h.ne_invalid_of_mem_chain hj
    have hjf : j ≠ b.freelist := by
      rw [h.freelist_eq]
      cases headD_mem_or_eq free invalidHashIndex with
      | inl hm => exact (h.ne_of_mem hm hj).symm
      | inr hm => rw [hm]; exact hj0
    rw [htable j hj0]
    simp [hjd, hjf]
  have hmid : ∀ j ∈ l1 ++ l2, j ∈ l1 ++ d :: l2 ∧ j ≠ d := by
    intro j hj
    rw [List.nodup_middle, List.nodup_cons] at hnodup
    constructor
    . simp only [List.mem_append, List.mem_cons] at hj ⊢
      tauto
    . intro heq
      rw [heq] at hj
      exact hnodup.1 hj
  constructor
  . rw [(snapOut_sameHelper b d).size_eq]
    refine List.Perm.trans ?_ h.perm
    rw [List.perm_iff_count]
    intro a
    simp only [List.flatten_append, List.flatten_cons, List.append_assoc, List.cons_append,
      List.count_append, List.count_cons]
    omega
  . rfl
  . apply h.free_chain.push h.nodup_free
    . intro j hj
      simp [nextOf, hfree j hj]
    . intro j hj heq
      rw [← h.freelist_eq] at heq
      simp only [prevOf]
      rw [hfree j hj]
      simp [heq]
    . intro j hj hne
      rw [← h.freelist_eq] at hne
      simp [prevOf, hfree j hj, hne]
    . rw [← h.freelist_eq]
      simp [nextOf, htable d hd0]
    . simp [prevOf, htable d hd0]
  . intro c hc
    simp only [List.mem_append, List.mem_cons] at hc
    rw [or_left_comm] at hc
    cases hc with
    | inl heq =>
      subst heq
      have hvalid : ∀ j ∈ l1 ++ l2, j ≠ invalidHashIndex :=
        fun j hj => h.ne_invalid_of_mem_chain (hflat j (hmid j hj).1)
      apply hchain.splice hnodup
      . intro hmem
        exact hvalid _ hmem rfl
      . intro hmem
        exact hvalid _ hmem rfl
      . intro j hj hjp
        simp only [nextOf, prevOf] at *
        simp [hused j (hflat j (hmid j hj).1) (hmid j hj).2, ← hjp]
      . intro j hj hjp
        simp only [nextOf, prevOf] at *
        simp [hused j (hflat j (hmid j hj).1) (hmid j hj).2, hjp]
      . intro j hj hjn
        simp only [nextOf, prevOf] at *
        simp [hused j (hflat j (hmid j hj).1) (hmid j hj).2, ← hjn]
      . intro j hj hjn
        simp only [nextOf, prevOf] at *
        simp [hused j (hflat j (hmid j hj).1) (hmid j hj).2, hjn]
    | inr hc =>
      have hc' : c ∈ cs1 ++ (l1 ++ d :: l2) :: cs2 := by
        simp only [List.mem_append, List.mem_cons]
        tauto
      have hsame : ∀ j ∈ c, (b.snapOut d).table j = b.table j := by
        intro j hj
        have hjflat := List.mem_flatten_of_mem hc' hj
        have hj0 := h.ne_invalid_of_mem_chain hjflat
        have hnot := h.notMem_of_mem_other hc hj
        have hjd : j ≠ d := fun heq => hnot (by simp [heq])
        rw [hused j hjflat hjd]
        simp [Shape.ne_next_of_notMem hchain hj0 hnot, Shape.ne_prev_of_notMem hchain hj0 hnot]
      apply (h.chain c hc').congr
      . intro j hj
        simp only [nextOf, hsame j hj]
      . intro j hj
        simp only [prevOf, hsame j hj]
  . intro j hj
    cases List.mem_cons.mp hj with
    | inl heq => simp [heq, htable d hd0, Entry.used]
    | inr hj =>
      have := h.free_unused j hj
      rw [hfree j hj]
      exact this
  . intro j hj
    have hj' : j ∈ (cs1 ++ (l1 ++ d :: l2) :: cs2).flatten := by
      simp only [List.flatten_append, List.flatten_cons, List.mem_append, List.mem_cons] at hj ⊢
      tauto
    have hjd : j ≠ d := by
      intro heq
      have := h.nodup
      rw [heq] at hj
      simp only [List.flatten_append, List.flatten_cons, List.nodup_append, List.nodup_cons,
        List.mem_append, List.mem_cons] at this hj
      grind
    have := h.used j hj'
    rw [hused j hj' hjd]
    exact this

theorem snapOut_contents (h : b.Shape free (cs1 ++ (l1 ++ d :: l2) :: cs2))
    (hcontents : b.Contents (cs1 ++ (l1 ++ d :: l2) :: cs2) (· ≠ d) m)
    (hhead : ∀ j ∈ l2, (b.table j).head ≠ d)
    : (b.snapOut d).Contents (cs1 ++ (l1 ++ l2) :: cs2) (fun _ => True) m := by
  have hcmem : l1 ++ d :: l2 ∈ cs1 ++ (l1 ++ d :: l2) :: cs2 := by simp
  have hchain := h.chain _ hcmem
  have hnodup := h.nodup_chain hcmem
  have hdflat : d ∈ (cs1 ++ (l1 ++ d :: l2) :: cs2).flatten :=
    List.mem_flatten_of_mem hcmem (by simp)
  have hd0 := h.ne_invalid_of_mem_chain hdflat
  have hdfree : d ≠ b.freelist := by
    rw [h.freelist_eq]
    cases headD_mem_or_eq free invalidHashIndex with
    | inl hm => exact (h.ne_of_mem hm hdflat).symm
    | inr hm => rw [hm]; exact hd0
  have htable := fun j hj => snapOut_table b d j hd0 hj (Shape.next_ne_self hchain hnodup hd0)
    (Shape.prev_ne_self hchain hnodup hd0) hdfree
  have hmem : ∀ j, j ∈ (cs1 ++ (l1 ++ l2) :: cs2).flatten
      ↔ j ∈ (cs1 ++ (l1 ++ d :: l2) :: cs2).flatten ∧ j ≠ d := by
    intro j
    have := h.nodup
    simp only [List.flatten_append, List.flatten_cons, List.nodup_append, List.nodup_cons,
      List.mem_append, List.mem_cons] at this ⊢
    grind
  have hsame : ∀ j ∈ (cs1 ++ (l1 ++ d :: l2) :: cs2).flatten, j ≠ d →
      ((b.snapOut d).table j).id = (b.table j).id
      ∧ ((b.snapOut d).table j).index = (b.table j).index
      ∧ ((b.snapOut d).table j).head = (b.table j).head := by
    intro j hj hjd
    rw [htable j (h.ne_invalid_of_mem_chain hj)]
    simp [hjd]
  constructor
  . intro j hj _
    obtain ⟨hj, hjd⟩ := (hmem j).mp hj
    rw [(snapOut_sameHelper b d).getStart_eq, (hsame j hj hjd).1, (hsame j hj hjd).2.2]
    exact hcontents.head_eq j hj hjd
  . intro c hc
    simp only [List.mem_append, List.mem_cons] at hc
    rw [or_left_comm] at hc
    cases hc with
    | inl heq =>
      subst heq
      have hbefore := hcontents.headBefore _ hcmem
      rw [List.nodup_middle, List.nodup_cons] at hnodup
      have hne : ∀ j ∈ l1 ++ l2, j ≠ d := fun j hj heq => hnodup.1 (heq ▸ hj)
      have hflat : ∀ j ∈ l1 ++ l2, j ∈ (cs1 ++ (l1 ++ d :: l2) :: cs2).flatten := by
        intro j hj
        apply List.mem_flatten_of_mem hcmem
        simp only [List.mem_append, List.mem_cons] at hj ⊢
        tauto
      rw [headBefore_append] at hbefore ⊢
      constructor
      . apply hbefore.1.congr
        . intro j hj _
          have hj' : j ∈ l1 ++ l2 := List.mem_append_left _ hj
          exact (hsame j (hflat j hj') (hne j hj')).2.2
        . intro j hj _
          exact hne j (List.mem_append_left _ hj)
      . -- Nothing behind `d` hashes to `d`, so it can be dropped from the entries seen.
        have : HeadBefore b.headOf (· ≠ d) (l1.reverse ++ []) l2 := by
          apply hbefore.2.2.change_seen
          intro j hj _ hmem
          cases List.mem_cons.mp hmem with
          | inl heq => exact absurd heq (hhead j hj)
          | inr hmem => exact hmem
        apply this.congr
        . intro j hj _
          have hj' : j ∈ l1 ++ l2 := List.mem_append_right _ hj
          exact (hsame j (hflat j hj') (hne j hj')).2.2
        . intro j hj _
          exact hne j (List.mem_append_right _ hj)
    | inr hc =>
      have hc' : c ∈ cs1 ++ (l1 ++ d :: l2) :: cs2 := by
        simp only [List.mem_append, List.mem_cons]
        tauto
      have hne : ∀ j ∈ c, j ≠ d := by
        intro j hj heq
        apply h.notMem_of_mem_other hc hj
        simp [heq]
      apply (hcontents.headBefore c hc').congr
      . intro j hj _
        exact (hsame j (List.mem_flatten_of_mem hc' hj) (hne j hj)).2.2
      . intro j hj _
        exact hne j hj
  . intro i hi j hj _ _ heq
    obtain ⟨hi, hid⟩ := (hmem i).mp hi
    obtain ⟨hj, hjd⟩ := (hmem j).mp hj
    rw [(hsame i hi hid).1, (hsame j hj hjd).1] at heq
    exact hcontents.id_inj i hi j hj hid hjd heq
  . intro j hj _
    obtain ⟨hj, hjd⟩ := (hmem j).mp hj
    rw [(hsame j hj hjd).1, (hsame j hj hjd).2.1]
    exact hcontents.sound j hj hjd
  . intro id hid
    obtain ⟨j, hj, hjd, heq⟩ := hcontents.complete id hid
    refine ⟨j, ?_, trivial, ?_⟩
    . rw [hmem]
      exact ⟨hj, hjd⟩
    . rw [(hsame j hj hjd).1, heq]

end SnapOut

theorem deleteLoop_eq (fuel : Nat) (h : b.Shape free (cs1 ++ (l1 ++ d :: l2) :: cs2))
    (hcontents : b.Contents (cs1 ++ (l1 ++ d :: l2) :: cs2) (· ≠ d) m) (hfuel : l2.length < fuel)
    : ∃ b', deleteLoop fuel b d = some b' ∧ b'.Inv m ∧ SameHelper b b' := by
  -- Every round either stops or moves the gap down, so the part behind the gap gets shorter.
  induction fuel generalizing b d l1 l2 with
  | zero => omega
  | succ fuel ih =>
    have hcmem : l1 ++ d :: l2 ∈ cs1 ++ (l1 ++ d :: l2) :: cs2 := by simp
    have hflat : ∀ j, j ∈ l1 ++ d :: l2 → j ∈ (cs1 ++ (l1 ++ d :: l2) :: cs2).flatten :=
      fun j hj => List.mem_flatten_of_mem hcmem hj
    have hchain := h.chain _ hcmem
    have hnext : (b.table d).next = l2.headD invalidHashIndex := hchain.next_mid
    have hl2 : Linked b.nextOf b.prevOf d invalidHashIndex l2 := (linked_append.mp hchain).2.2.2
    have hlength := h.length_chain_le hcmem
    have hfind := findHashedTo_eq (d := d) b.size.toNat hl2
      (fun j hj => h.ne_invalid_of_mem_chain (hflat j (by simp [hj])))
      (by simp only [List.length_append, List.length_cons] at hlength; omega)
    unfold deleteLoop
    rw [hnext]
    cases hfind with
    | inl hfind =>
      rw [hfind.1]
      refine ⟨b.snapOut d, by simp, ?_, snapOut_sameHelper b d⟩
      exact ⟨_, _, snapOut_shape h, snapOut_contents h hcontents hfind.2⟩
    | inr hfind =>
      obtain ⟨k1, q, k2, hsplit, hq, hfind⟩ := hfind
      have hqmem : q ∈ l2 := by
        rw [hsplit]
        simp
      have hqflat := hflat q (by simp [hqmem])
      have hq0 : q ≠ invalidHashIndex := h.ne_invalid_of_mem_chain hqflat
      have hqd : q ≠ d := by
        have := h.nodup_chain hcmem
        rw [List.nodup_append, List.nodup_cons] at this
        intro heq
        exact this.2.1.1 (heq ▸ hqmem)
      rw [hfind]
      simp only [hq0, ↓reduceIte]
      have hsplit' : l1 ++ d :: l2 = (l1 ++ d :: k1) ++ q :: k2 := by
        rw [hsplit]
        simp
      have hshape' := copyBack_shape h (hflat d (by simp)) hqflat
      have hcontents' := copyBack_contents hcontents (hflat d (by simp)) hqflat hqd hq
      rw [hsplit'] at hshape' hcontents'
      have hlen : k2.length < fuel := by
        rw [hsplit] at hfuel
        simp only [List.length_append, List.length_cons] at hfuel
        omega
      obtain ⟨b', h1, h2, h3⟩ := ih hshape' hcontents' hlen
      exact ⟨b', h1, h2, (copyBack_sameHelper b d q).trans h3⟩

end Block
end Hash
end ObTools
