import ObTools.Hash.Invariant

/-!
This module contains the proof that a new block satisfies the invariant and that `add` keeps it.
-/

namespace ObTools
namespace Hash
namespace Block

open DoublyLinked

variable {ID : Type}

section New

variable {size : Int} {helper : Helper ID size} {mem : Int → Entry ID}

theorem new_linked (size : Int) (helper : Helper ID size) (mem : Int → Entry ID) (n k : Nat) (h : k + n = size.toNat)
    : Linked (new size helper mem).nextOf (new size helper mem).prevOf ((k : Int) - 1)
        invalidHashIndex ((List.range' k n).map fun (n : Nat) => (n : Int)) := by
  induction n generalizing k with
  | zero => simp
  | succ n ih =>
    simp only [List.range'_succ, List.map_cons, linked_cons]
    refine ⟨?_, ?_, ?_⟩
    . simp only [prevOf, new, invalidHashIndex]
      split
      . dsimp only
        split <;> omega
      . omega
    . simp only [nextOf, new, invalidHashIndex]
      cases n with
      | zero => split <;> simp <;> omega
      | succ n =>
        simp only [List.range'_succ, List.map_cons, List.headD_cons]
        split
        . dsimp only
          split <;> omega
        . omega
    . have := ih (k + 1) (by omega)
      simpa using this

theorem new_inv (hsize : 1 ≤ size) : (new size helper mem).Inv fun _ => invalidIndex := by
  refine ⟨slots size, [], ?_, ?_⟩
  . constructor
    . simp [new]
    . have : (slots size).headD invalidHashIndex = 0 := by
        unfold slots
        obtain ⟨n, hn⟩ : ∃ n, size.toNat = n + 1 := ⟨size.toNat - 1, by omega⟩
        rw [hn, List.range_eq_range', List.range'_succ]
        simp
      rw [this]
      rfl
    . have := new_linked size helper mem size.toNat 0 (by omega)
      simpa [Chain, slots, List.range_eq_range', invalidHashIndex] using this
    . simp
    . intro i hi
      rw [mem_slots] at hi
      simp [new, hi, Entry.used]
    . simp
  . constructor <;> simp

end New

section AddUnused

variable {b : Block ID} {free : List Int} {chains : List (List Int)} {m : ID → Int}
variable {id : ID} {index s : Int} {l1 l2 : List Int}

theorem add_unused_shape (h : b.Shape (l1 ++ s :: l2) chains) (hs : b.helper.getStart id = s)
    (hindex : index ≠ invalidIndex)
    : (b.add id index).2.Shape (l1 ++ l2) ([s] :: chains) := by
  have hs0 : s ≠ invalidHashIndex := h.ne_invalid_of_mem_free (by simp)
  have hunused : ¬(b.table s).used := h.free_unused s (by simp)
  have hnext := Shape.next_ne_self h.free_chain h.nodup_free hs0
  have hprev := Shape.prev_ne_self h.free_chain h.nodup_free hs0
  have htable := add_unused_table index hs hs0 hunused hnext hprev
  have hnodup := h.nodup_free
  have hmid : ∀ j ∈ l1 ++ l2, j ∈ l1 ++ s :: l2 ∧ j ≠ s := by
    intro j hj
    rw [List.nodup_middle, List.nodup_cons] at hnodup
    constructor
    . simp only [List.mem_append, List.mem_cons] at hj ⊢
      tauto
    . intro heq
      rw [heq] at hj
      exact hnodup.1 hj
  have hvalid : ∀ j ∈ l1 ++ l2, j ≠ invalidHashIndex :=
    fun j hj => h.ne_invalid_of_mem_free (hmid j hj).1
  -- The entries on the other chains are not neighbours of `s`.
  have hother : ∀ j ∈ chains.flatten, (b.add id index).2.table j = b.table j := by
    intro j hj
    have hj0 := h.ne_invalid_of_mem_chain hj
    have hnot : j ∉ l1 ++ s :: l2 := fun hmem => h.ne_of_mem hmem hj rfl
    have hjs : j ≠ s := fun heq => h.ne_of_mem (by simp) hj heq.symm
    rw [htable j hj0]
    simp [hjs, Shape.ne_next_of_notMem h.free_chain hj0 hnot,
      Shape.ne_prev_of_notMem h.free_chain hj0 hnot]
  constructor
  . rw [(add_sameHelper b id index).size_eq]
    refine List.Perm.trans ?_ h.perm
    simp only [List.flatten_cons, List.append_assoc, List.cons_append, List.nil_append]
    apply List.Perm.append_left
    exact List.perm_middle
  . rw [add_unused_freelist hs hs0 hunused hnext, h.freelist_eq]
    have h1 : (b.table s).prev = l1.getLastD invalidHashIndex := h.free_chain.prev_mid
    have h2 : (b.table s).next = l2.headD invalidHashIndex := h.free_chain.next_mid
    rw [h1, h2]
    cases l1 with
    | nil => simp
    | cons i l =>
      have hlast : (i :: l).getLastD invalidHashIndex ≠ invalidHashIndex := by
        apply hvalid
        rw [List.mem_append]
        exact Or.inl (getLastD_cons_mem i l _)
      simp only [hlast, ↓reduceIte, List.cons_append, List.headD_cons]
  . apply h.free_chain.splice hnodup
    . intro hmem
      exact hvalid _ hmem rfl
    . intro hmem
      exact hvalid _ hmem rfl
    . intro j hj hjp
      simp only [nextOf, prevOf] at *
      rw [htable j (hvalid j hj)]
      simp [(hmid j hj).2, ← hjp]
    . intro j hj hjp
      simp only [nextOf, prevOf] at *
      rw [htable j (hvalid j hj)]
      simp [(hmid j hj).2, hjp]
    . intro j hj hjn
      simp only [nextOf, prevOf] at *
      rw [htable j (hvalid j hj)]
      simp [(hmid j hj).2, ← hjn]
    . intro j hj hjn
      simp only [nextOf, prevOf] at *
      rw [htable j (hvalid j hj)]
      simp [(hmid j hj).2, hjn]
  . intro c hc
    cases List.mem_cons.mp hc with
    | inl heq =>
      subst heq
      refine ⟨?_, ?_, trivial⟩
      . simp [prevOf, htable s hs0]
      . simp [nextOf, htable s hs0]
    | inr hc =>
      apply (h.chain c hc).congr
      . intro j hj
        simp only [nextOf]
        rw [hother j (List.mem_flatten_of_mem hc hj)]
      . intro j hj
        simp only [prevOf]
        rw [hother j (List.mem_flatten_of_mem hc hj)]
  . intro j hj
    rw [htable j (hvalid j hj)]
    have := h.free_unused j (hmid j hj).1
    simpa [(hmid j hj).2, Entry.used] using this
  . intro j hj
    simp only [List.flatten_cons, List.cons_append, List.nil_append, List.mem_cons] at hj
    cases hj with
    | inl heq =>
      subst heq
      simp [htable j hs0, Entry.used, hindex]
    | inr hj =>
      rw [hother j hj]
      exact h.used j hj

end AddUnused

section AddCollision

variable {b : Block ID} {free : List Int} {m : ID → Int}
variable {id : ID} {index s q : Int} {l1 l2 : List Int} {cs1 cs2 : List (List Int)}

theorem add_collision_shape (h : b.Shape (q :: free) (cs1 ++ (l1 ++ s :: l2) :: cs2))
    (hs : b.helper.getStart id = s) (hindex : index ≠ invalidIndex)
    : (b.add id index).2.Shape free (cs1 ++ (l1 ++ s :: q :: l2) :: cs2) := by
  have hq : b.freelist = q := h.freelist_eq
  have hcmem : l1 ++ s :: l2 ∈ cs1 ++ (l1 ++ s :: l2) :: cs2 := by simp
  have hsmem : s ∈ (cs1 ++ (l1 ++ s :: l2) :: cs2).flatten :=
    List.mem_flatten_of_mem hcmem (by simp)
  have hs0 : s ≠ invalidHashIndex := h.ne_invalid_of_mem_chain hsmem
  have hq0 : q ≠ invalidHashIndex := h.ne_invalid_of_mem_free (by simp)
  have hqs : ∀ j ∈ (cs1 ++ (l1 ++ s :: l2) :: cs2).flatten, q ≠ j :=
    fun j hj => h.ne_of_mem (by simp) hj
  have hqnext : q ≠ (b.table s).next := by
    apply Shape.ne_next_of_notMem (h.chain _ hcmem) hq0
    intro hmem
    exact hqs q (List.mem_flatten_of_mem hcmem hmem) rfl
  have htable : ∀ j, j ≠ invalidHashIndex → _ :=
    fun j hj => add_collision_table index hs hs0 (h.used s hsmem) (hq ▸ hq0)
      (hq ▸ (hqs s hsmem).symm) j hj (hq ▸ hqnext)
  rw [hq] at htable
  have hlinked : b.Chain ([] ++ q :: free) := h.free_chain
  have hnextq : (b.table q).next = free.headD invalidHashIndex := h.free_chain.2.1
  have hnexts : (b.table s).next = l2.headD invalidHashIndex := (h.chain _ hcmem).next_mid
  have hnodup := h.nodup_free
  rw [List.nodup_cons] at hnodup
  -- The freelist loses its first entry, the rest is not touched by the splice.
  have hfree : ∀ j ∈ free, (b.add id index).2.table j
      = { b.table j with
          prev := if j = (b.table q).next then invalidHashIndex else (b.table j).prev } := by
    intro j hj
    have hjmem : j ∈ q :: free := List.mem_cons_of_mem _ hj
    have hj0 := h.ne_invalid_of_mem_free hjmem
    have hjq : j ≠ q := fun heq => hnodup.1 (heq ▸ hj)
    have hjs : j ≠ s := h.ne_of_mem hjmem hsmem
    have hjn : j ≠ (b.table s).next := by
      apply Shape.ne_next_of_notMem (h.chain _ hcmem) hj0
      intro hmem
      exact h.ne_of_mem hjmem (List.mem_flatten_of_mem hcmem hmem) rfl
    rw [htable j hj0]
    simp [hjq, hjs, hjn]
  -- On the chains only the neighbours of `q` are touched.
  have hchain : ∀ j ∈ (cs1 ++ (l1 ++ s :: l2) :: cs2).flatten, (b.add id index).2.table j
      = { b.table j with
          next := if j = s then q else (b.table j).next
          prev := if j = (b.table s).next then q else (b.table j).prev } := by
    intro j hj
    have hj0 := h.ne_invalid_of_mem_chain hj
    have hjq : j ≠ q := (hqs j hj).symm
    have hjn : j ≠ (b.table q).next := by
      apply Shape.ne_next_of_notMem hlinked hj0
      intro hmem
      exact h.ne_of_mem hmem hj rfl
    rw [htable j hj0]
    simp [hjq, hjn]
  constructor
  . rw [(add_sameHelper b id index).size_eq]
    refine List.Perm.trans ?_ h.perm
    rw [List.perm_iff_count]
    intro a
    simp only [List.flatten_append, List.flatten_cons, List.append_assoc, List.cons_append,
      List.count_append, List.count_cons]
    omega
  . rw [add_collision_freelist hs (h.used s hsmem) (hq ▸ hq0), hq, hnextq]
  . show Linked _ _ _ _ ([] ++ free)
    apply hlinked.splice
    . exact h.nodup_free
    . intro hmem
      exact h.ne_invalid_of_mem_free (List.mem_cons_of_mem _ hmem) rfl
    . intro hmem
      exact h.ne_invalid_of_mem_free (List.mem_cons_of_mem _ hmem) rfl
    . intro j hj hjp
      have hprevq : b.prevOf q = invalidHashIndex := h.free_chain.1
      rw [hprevq] at hjp
      exact absurd hjp (h.ne_invalid_of_mem_free (List.mem_cons_of_mem _ hj))
    . intro j hj _
      simp [nextOf, hfree j hj]
    . intro j hj hjn
      simp only [nextOf] at hjn
      have hprevq : b.prevOf q = invalidHashIndex := h.free_chain.1
      rw [hprevq]
      simp [prevOf, hfree j hj, ← hjn]
    . intro j hj hjn
      simp only [nextOf] at hjn
      simp [prevOf, hfree j hj, hjn]
  . have hflat : ∀ j, j ∈ l1 ++ s :: l2 → j ∈ (cs1 ++ (l1 ++ s :: l2) :: cs2).flatten :=
      fun j hj => List.mem_flatten_of_mem hcmem hj
    have hcnodup := h.nodup_chain hcmem
    intro c hc
    simp only [List.mem_append, List.mem_cons] at hc
    rw [or_left_comm] at hc
    cases hc with
    | inl heq =>
      subst heq
      apply (h.chain _ hcmem).insertAfter hcnodup
      . intro hmem
        exact h.ne_invalid_of_mem_chain (hflat _ hmem) rfl
      . simp [nextOf, hchain s hsmem]
      . intro j hj hjs
        simp [nextOf, hchain j (hflat j hj), hjs]
      . intro j hj hjn
        simp only [nextOf] at hjn
        simp [prevOf, hchain j (hflat j hj), ← hjn]
      . intro j hj hjn
        simp only [nextOf] at hjn
        simp [prevOf, hchain j (hflat j hj), hjn]
      . simp [nextOf, htable q hq0]
      . simp [prevOf, htable q hq0]
    | inr hc =>
      have hc' : c ∈ cs1 ++ (l1 ++ s :: l2) :: cs2 := by
        simp only [List.mem_append, List.mem_cons]
        tauto
      -- Another chain has no entry in common with the one that was changed.
      have hdisj : ∀ j ∈ c, j ∉ l1 ++ s :: l2 := fun j hj => h.notMem_of_mem_other hc hj
      have hsame : ∀ j ∈ c, (b.add id index).2.table j = b.table j := by
        intro j hj
        have hjflat := List.mem_flatten_of_mem hc' hj
        have hjs : j ≠ s := fun heq => hdisj j hj (by simp [heq])
        have hjn := Shape.ne_next_of_notMem (h.chain _ hcmem)
          (h.ne_invalid_of_mem_chain hjflat) (hdisj j hj)
        rw [hchain j hjflat]
        simp [hjs, hjn]
      apply (h.chain c hc').congr
      . intro j hj
        simp only [nextOf, hsame j hj]
      . intro j hj
        simp only [prevOf, hsame j hj]
  . intro j hj
    have := h.free_unused j (List.mem_cons_of_mem _ hj)
    rw [hfree j hj]
    exact this
  . intro j hj
    by_cases hjq : j = q
    . rw [hjq, htable q hq0]
      simp [Entry.used, hindex]
    . have hj' : j ∈ (cs1 ++ (l1 ++ s :: l2) :: cs2).flatten := by
        simp only [List.flatten_append, List.flatten_cons, List.mem_append, List.mem_cons] at hj ⊢
        tauto
      rw [hchain j hj']
      exact h.used j hj'

end AddCollision

section AddInv

variable {b b' : Block ID} {free : List Int} {chains chains' : List (List Int)} {m : ID → Int}
variable {id : ID} {index q : Int}

/-
Both ways to add an ID put it into one entry and leave the data of all other entries alone.
-/
theorem Contents.insert [DecidableEq ID] (h : b.Contents chains (fun _ => True) m)
    (hhelper : SameHelper b b') (hfresh : m id = invalidIndex)
    (hused : ∀ i ∈ chains.flatten, (b.table i).used)
    (hmem : ∀ j, j ∈ chains'.flatten ↔ j = q ∨ j ∈ chains.flatten)
    (hid : (b'.table q).id = id) (hindex : (b'.table q).index = index)
    (hhead : (b'.table q).head = b.helper.getStart id)
    (hsame : ∀ j ∈ chains.flatten, j ≠ q ∧ (b'.table j).id = (b.table j).id
      ∧ (b'.table j).index = (b.table j).index ∧ (b'.table j).head = (b.table j).head)
    (hbefore : ∀ c ∈ chains', HeadBefore b'.headOf (fun _ => True) [] c)
    : b'.Contents chains' (fun _ => True) (Function.update m id index) := by
  -- The new ID is not on the chains yet.
  have hne : ∀ j ∈ chains.flatten, (b.table j).id ≠ id := by
    intro j hj heq
    have := h.sound j hj trivial
    rw [heq, hfresh] at this
    exact hused j hj this.symm
  constructor
  . intro j hj _
    rw [hhelper.getStart_eq]
    cases (hmem j).mp hj with
    | inl heq => rw [heq, hhead, hid]
    | inr hj =>
      have := hsame j hj
      rw [this.2.2.2, this.2.1]
      exact h.head_eq j hj trivial
  . exact hbefore
  . intro i hi j hj _ _ heq
    cases (hmem i).mp hi with
    | inl hiq =>
      cases (hmem j).mp hj with
      | inl hjq => rw [hiq, hjq]
      | inr hj =>
        rw [hiq, hid, (hsame j hj).2.1] at heq
        exact absurd heq.symm (hne j hj)
    | inr hi =>
      cases (hmem j).mp hj with
      | inl hjq =>
        rw [hjq, hid, (hsame i hi).2.1] at heq
        exact absurd heq (hne i hi)
      | inr hj =>
        rw [(hsame i hi).2.1, (hsame j hj).2.1] at heq
        exact h.id_inj i hi j hj trivial trivial heq
  . intro j hj _
    cases (hmem j).mp hj with
    | inl heq =>
      rw [heq, hid, hindex]
      simp
    | inr hj =>
      have := hsame j hj
      rw [this.2.1, this.2.2.1, Function.update_of_ne (hne j hj)]
      exact h.sound j hj trivial
  . intro x hx
    by_cases hxid : x = id
    . refine ⟨q, ?_, trivial, ?_⟩
      . rw [hmem]
        exact Or.inl rfl
      . rw [hid, hxid]
    . rw [Function.update_of_ne hxid] at hx
      obtain ⟨j, hj, _, heq⟩ := h.complete x hx
      refine ⟨j, ?_, trivial, ?_⟩
      . rw [hmem]
        exact Or.inr hj
      . rw [(hsame j hj).2.1, heq]

theorem add_unused_inv [DecidableEq ID] (h : b.Inv m) (hfresh : m id = invalidIndex)
    (hindex : index ≠ invalidIndex) (hunused : ¬(b.table (b.helper.getStart id)).used)
    : (b.add id index).2.Inv (Function.update m id index) := by
  obtain ⟨free, chains, hshape, hcontents⟩ := h
  have hsfree := hshape.mem_free_of_unused (b.helper.getStart_nonneg id) (b.helper.getStart_lt id)
    hunused
  have hs0 := hshape.ne_invalid_of_mem_free hsfree
  obtain ⟨l1, l2, hsplit⟩ := List.append_of_mem hsfree
  generalize hs : b.helper.getStart id = s at *
  subst hsplit
  have hnext := Shape.next_ne_self hshape.free_chain hshape.nodup_free hs0
  have hprev := Shape.prev_ne_self hshape.free_chain hshape.nodup_free hs0
  have htable := add_unused_table index hs hs0 hunused hnext hprev
  refine ⟨l1 ++ l2, [s] :: chains, add_unused_shape hshape hs hindex, ?_⟩
  have hsame : ∀ j ∈ chains.flatten, j ≠ s
      ∧ ((b.add id index).2.table j).id = (b.table j).id
      ∧ ((b.add id index).2.table j).index = (b.table j).index
      ∧ ((b.add id index).2.table j).head = (b.table j).head := by
    intro j hj
    have hjs : j ≠ s := fun heq => hshape.ne_of_mem hsfree hj heq.symm
    rw [htable j (hshape.ne_invalid_of_mem_chain hj)]
    simp [hjs]
  apply hcontents.insert (add_sameHelper b id index) hfresh hshape.used (q := s)
  . simp
  . simp [htable s hs0]
  . simp [htable s hs0]
  . simp [htable s hs0, hs]
  . exact hsame
  . intro c hc
    cases List.mem_cons.mp hc with
    | inl heq =>
      subst heq
      simp [HeadBefore, headOf, htable s hs0]
    | inr hc =>
      apply (hcontents.headBefore c hc).congr
      . intro j hj _
        exact (hsame j (List.mem_flatten_of_mem hc hj)).2.2.2
      . simp

theorem add_collision_inv [DecidableEq ID] (h : b.Inv m) (hfresh : m id = invalidIndex)
    (hindex : index ≠ invalidIndex) (hused : (b.table (b.helper.getStart id)).used)
    (hfree : b.freelist ≠ invalidHashIndex)
    : (b.add id index).2.Inv (Function.update m id index) := by
  obtain ⟨free, chains, hshape, hcontents⟩ := h
  have hsflat := hshape.mem_chain_of_used (b.helper.getStart_nonneg id) (b.helper.getStart_lt id)
    hused
  have hs0 := hshape.ne_invalid_of_mem_chain hsflat
  obtain ⟨c, hc, hsc⟩ := List.mem_flatten.mp hsflat
  obtain ⟨cs1, cs2, hchains⟩ := List.append_of_mem hc
  obtain ⟨l1, l2, hsplit⟩ := List.append_of_mem hsc
  generalize hs : b.helper.getStart id = s at *
  subst hsplit
  subst hchains
  cases free with
  | nil =>
    rw [hshape.freelist_eq] at hfree
    simp at hfree
  | cons q free =>
    have hq : b.freelist = q := hshape.freelist_eq
    have hq0 := hshape.ne_invalid_of_mem_free (i := q) (by simp)
    have hqmem : ∀ j ∈ (cs1 ++ (l1 ++ s :: l2) :: cs2).flatten, j ≠ q :=
      fun j hj heq => hshape.ne_of_mem (i := q) (by simp) hj heq.symm
    have hnext : b.freelist ≠ (b.table s).next := by
      rw [hq]
      apply Shape.ne_next_of_notMem (hshape.chain _ hc) hq0
      intro hmem
      exact hqmem q (List.mem_flatten_of_mem hc hmem) rfl
    have htable := fun j hj => add_collision_table index hs hs0 hused hfree
      (hq ▸ hqmem s hsflat) j hj hnext
    rw [hq] at htable
    refine ⟨free, cs1 ++ (l1 ++ s :: q :: l2) :: cs2, add_collision_shape hshape hs hindex, ?_⟩
    have hsame : ∀ j ∈ (cs1 ++ (l1 ++ s :: l2) :: cs2).flatten, j ≠ q
        ∧ ((b.add id index).2.table j).id = (b.table j).id
        ∧ ((b.add id index).2.table j).index = (b.table j).index
        ∧ ((b.add id index).2.table j).head = (b.table j).head := by
      intro j hj
      rw [htable j (hshape.ne_invalid_of_mem_chain hj)]
      simp [hqmem j hj]
    apply hcontents.insert (add_sameHelper b id index) hfresh hshape.used (q := q)
    . intro j
      simp only [List.flatten_append, List.flatten_cons, List.mem_append, List.mem_cons]
      tauto
    . simp [htable q hq0]
    . simp [htable q hq0]
    . simp [htable q hq0, hs]
    . exact hsame
    . intro c' hc'
      -- The head of the new entry is `s`, which is right in front of it.
      have hhead : ∀ c' ∈ cs1 ++ (l1 ++ s :: l2) :: cs2,
          HeadBefore (b.add id index).2.headOf (fun _ => True) [] c' := by
        intro c' hc'
        apply (hcontents.headBefore c' hc').congr
        . intro j hj _
          exact (hsame j (List.mem_flatten_of_mem hc' hj)).2.2.2
        . simp
      simp only [List.mem_append, List.mem_cons] at hc'
      rw [or_left_comm] at hc'
      cases hc' with
      | inl heq =>
        subst heq
        have := hhead _ hc
        rw [headBefore_append] at this ⊢
        refine ⟨this.1, this.2.1, ?_, ?_⟩
        . intro _
          simp [headOf, htable q hq0]
        . apply this.2.2.change_seen
          intro j _ _ hmem
          exact List.mem_cons_of_mem _ hmem
      | inr hc' =>
        apply hhead
        simp only [List.mem_append, List.mem_cons]
        tauto

end AddInv

end Block
end Hash
end ObTools
