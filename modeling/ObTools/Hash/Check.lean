import ObTools.Hash.Refinement

/-!
This module contains the proof that `check` finds nothing wrong with a block that satisfies the
invariant, and what the invariant says about every reachable block.
-/

namespace ObTools
namespace Hash
namespace Block

open DoublyLinked

variable {ID : Type} {b : Block ID} {m : ID → Int}

/-
One step of `check` did not find a problem: only marks were added, among them all of `l`.
-/
structure CheckState.Extends (st st' : CheckState) (l : List Int) : Prop where
  ok_eq : st'.ok = st.ok
  sout_eq : st'.sout = st.sout
  marks_iff : ∀ j, st'.marks j = true ↔ st.marks j = true ∨ j ∈ l

theorem CheckState.Extends.refl (st : CheckState) : st.Extends st [] := by
  constructor <;> simp

theorem CheckState.Extends.trans {st1 st2 st3 : CheckState} {l1 l2 : List Int}
    (h1 : st1.Extends st2 l1) (h2 : st2.Extends st3 l2) : st1.Extends st3 (l1 ++ l2) := by
  constructor
  . rw [h2.ok_eq, h1.ok_eq]
  . rw [h2.sout_eq, h1.sout_eq]
  . intro j
    rw [h2.marks_iff, h1.marks_iff, List.mem_append]
    tauto

theorem CheckState.mark_extends (st : CheckState) (i : Int) : st.Extends (st.mark i) [i] := by
  constructor
  . rfl
  . rfl
  . intro j
    unfold CheckState.mark
    by_cases h : j = i
    . simp [h]
    . simp [h]

theorem checkFreelist_eq [ToString ID] (fuel : Nat) (st : CheckState) {l : List Int} {previous : Int}
    (h : Linked b.nextOf b.prevOf previous invalidHashIndex l) (hnodup : l.Nodup)
    (hbounds : ∀ i ∈ l, 0 ≤ i ∧ i < b.size) (hunused : ∀ i ∈ l, ¬(b.table i).used)
    (hmarks : ∀ i ∈ l, st.marks i = false) (hfuel : l.length < fuel)
    : ∃ st', b.checkFreelist fuel (l.headD invalidHashIndex) previous st = some st'
        ∧ st.Extends st' l := by
  induction fuel generalizing l previous st with
  | zero => omega
  | succ fuel ih =>
    cases l with
    | nil =>
      refine ⟨st, ?_, CheckState.Extends.refl st⟩
      simp [checkFreelist]
    | cons i l =>
      have hi := hbounds i (by simp)
      have hprev : (b.table i).prev = previous := h.1
      have hnext : (b.table i).next = l.headD invalidHashIndex := h.2.1
      have h1 : ¬(i = invalidHashIndex) := by
        unfold invalidHashIndex
        omega
      have h2 : ¬(i < 0) := by omega
      have h3 : ¬(b.size ≤ i) := by omega
      rw [List.nodup_cons] at hnodup
      simp only [List.length_cons] at hfuel
      simp only [List.headD_cons, checkFreelist, h1, h2, h3, ↓reduceIte, hmarks i (by simp),
        Bool.false_eq_true, hunused i (by simp), hprev, ne_eq, not_true_eq_false, hnext]
      have hext := st.mark_extends i
      have hmarks' : ∀ j ∈ l, (st.mark i).marks j = false := by
        intro j hj
        rw [Bool.eq_false_iff]
        intro hmark
        rw [hext.marks_iff, hmarks j (by simp [hj])] at hmark
        simp only [Bool.false_eq_true, List.mem_singleton, false_or] at hmark
        exact hnodup.1 (hmark ▸ hj)
      obtain ⟨st', hst', hext'⟩ := ih (st.mark i) h.2.2 hnodup.2 (fun j hj => hbounds j (by simp [hj]))
        (fun j hj => hunused j (by simp [hj])) hmarks' (by omega)
      exact ⟨st', hst', hext.trans hext'⟩

theorem checkChain_eq (start : Int) (fuel : Nat) (st : CheckState) {l : List Int} {previous : Int}
    (h : Linked b.nextOf b.prevOf previous invalidHashIndex l)
    (hbounds : ∀ i ∈ l, 0 ≤ i ∧ i < b.size) (hused : ∀ i ∈ l, (b.table i).used)
    (hhead : ∀ i ∈ l, (b.table i).head = b.helper.getStart (b.table i).id)
    (hfuel : l.length < fuel)
    : ∃ st', b.checkChain start fuel (l.headD invalidHashIndex) previous st = some st'
        ∧ st.Extends st' l := by
  induction fuel generalizing l previous st with
  | zero => omega
  | succ fuel ih =>
    cases l with
    | nil =>
      refine ⟨st, ?_, CheckState.Extends.refl st⟩
      simp [checkChain]
    | cons i l =>
      have hi := hbounds i (by simp)
      have hprev : (b.table i).prev = previous := h.1
      have hnext : (b.table i).next = l.headD invalidHashIndex := h.2.1
      have h1 : ¬(i = invalidHashIndex) := by
        unfold invalidHashIndex
        omega
      have h2 : ¬(i < 0) := by omega
      have h3 : ¬(b.size ≤ i) := by omega
      simp only [List.length_cons] at hfuel
      simp only [List.headD_cons, checkChain, h1, h2, h3, ↓reduceIte, hused i (by simp), hprev,
        ne_eq, not_true_eq_false, hhead i (by simp), hnext]
      obtain ⟨st', hst', hext'⟩ := ih (st.mark i) h.2.2 (fun j hj => hbounds j (by simp [hj]))
        (fun j hj => hused j (by simp [hj])) (fun j hj => hhead j (by simp [hj])) (by omega)
      exact ⟨st', hst', (st.mark_extends i).trans hext'⟩

section Entries

variable {free : List Int} {chains : List (List Int)}

theorem checkEntry_eq (hshape : b.Shape free chains)
    (hcontents : b.Contents chains (fun _ => True) m) (st : CheckState) {i : Int}
    (hi : 0 ≤ i ∧ i < b.size)
    : ∃ st' l, b.checkEntry st i = some st' ∧ st.Extends st' l
        ∧ ∀ c ∈ chains, c.head? = some i → c ⊆ l := by
  unfold checkEntry
  dsimp only
  split
  . next hcond =>
    have hiflat := hshape.mem_chain_of_used hi.1 hi.2 hcond.1
    obtain ⟨c, hc, hic⟩ := List.mem_flatten.mp hiflat
    obtain ⟨l1, l2, hsplit⟩ := List.append_of_mem hic
    subst hsplit
    have hflat : ∀ j ∈ i :: l2, j ∈ chains.flatten :=
      fun j hj => List.mem_flatten_of_mem hc (List.mem_append_right l1 hj)
    have hlinked := (linked_append.mp (hshape.chain _ hc)).2
    have hprev : (b.table i).prev = l1.getLastD invalidHashIndex := hlinked.1
    have hlength := hshape.length_chain_le hc
    simp only [List.length_append, List.length_cons] at hlength
    obtain ⟨st', hst', hext⟩ := checkChain_eq i (b.size.toNat + 1) st hlinked
      (fun j hj => hshape.mem_iff.mp (Or.inr (hflat j hj)))
      (fun j hj => hshape.used j (hflat j hj))
      (fun j hj => hcontents.head_eq j (hflat j hj) trivial)
      (by simp only [List.length_cons]; omega)
    refine ⟨st', i :: l2, ?_, hext, ?_⟩
    . rw [hprev]
      exact hst'
    . intro c' hc' hhead
      obtain ⟨c', rfl⟩ : ∃ l, c' = i :: l := by
        cases c' with
        | nil => simp at hhead
        | cons j l =>
          simp only [List.head?_cons, Option.some.injEq] at hhead
          exact ⟨l, by rw [hhead]⟩
      -- Two chains with a common entry are the same, and `i` occurs only once in it.
      have heq : i :: c' = l1 ++ i :: l2 := by
        obtain ⟨ds1, ds2, hchains⟩ := List.append_of_mem hc
        rw [hchains] at hc' hshape
        simp only [List.mem_append, List.mem_cons] at hc'
        rw [or_left_comm] at hc'
        cases hc' with
        | inl heq => exact heq
        | inr hc' =>
          have := hshape.notMem_of_mem_other hc' (j := i) (by simp)
          simp at this
      cases l1 with
      | nil => simp_all
      | cons k l1 =>
        have hnodup := hshape.nodup_chain hc
        simp only [List.cons_append, List.cons.injEq, List.nodup_cons] at heq hnodup
        rw [← heq.1] at hnodup
        simp at hnodup
  . next hcond =>
    refine ⟨st, [], rfl, CheckState.Extends.refl st, ?_⟩
    -- The first entry of a chain always hashes to its own place.
    intro c hc hhead
    exfalso
    apply hcond
    cases c with
    | nil => simp at hhead
    | cons j l =>
      simp only [List.head?_cons, Option.some.injEq] at hhead
      subst hhead
      have hjflat := List.mem_flatten_of_mem hc List.mem_cons_self
      have hbefore := (hcontents.headBefore _ hc).1 trivial
      simp only [headOf, List.not_mem_nil, or_false] at hbefore
      exact ⟨hshape.used j hjflat, by rw [← hcontents.head_eq j hjflat trivial, hbefore]⟩

theorem checkEntries_eq (hshape : b.Shape free chains)
    (hcontents : b.Contents chains (fun _ => True) m) (entries : List Int)
    (hentries : ∀ i ∈ entries, 0 ≤ i ∧ i < b.size) (st : CheckState)
    : ∃ st' l, entries.foldlM b.checkEntry st = some st' ∧ st.Extends st' l
        ∧ ∀ i ∈ entries, ∀ c ∈ chains, c.head? = some i → c ⊆ l := by
  induction entries generalizing st with
  | nil =>
    refine ⟨st, [], rfl, CheckState.Extends.refl st, ?_⟩
    simp
  | cons i entries ih =>
    obtain ⟨st1, l1, h1, hext1, hmem1⟩ := checkEntry_eq hshape hcontents st (hentries i (by simp))
    obtain ⟨st2, l2, h2, hext2, hmem2⟩ := ih (fun j hj => hentries j (by simp [hj])) st1
    refine ⟨st2, l1 ++ l2, ?_, hext1.trans hext2, ?_⟩
    . rw [List.foldlM_cons, h1]
      exact h2
    . intro j hj c hc hhead
      cases List.mem_cons.mp hj with
      | inl heq =>
        rw [heq] at hhead
        apply List.subset_append_of_subset_left
        exact hmem1 c hc hhead
      | inr hj =>
        apply List.subset_append_of_subset_right
        exact hmem2 j hj c hc hhead

end Entries

theorem checkMarked_eq (entries : List Int) (st : CheckState)
    (h : ∀ i ∈ entries, st.marks i = true) : entries.foldl checkMarked st = st := by
  induction entries with
  | nil => rfl
  | cons i entries ih =>
    have hi : checkMarked st i = st := by
      unfold checkMarked
      simp [h i]
    rw [List.foldl_cons, hi]
    apply ih
    intro j hj
    exact h j (by simp [hj])

theorem check_eq [ToString ID] (h : b.Inv m) : b.check = some (true, "") := by
  obtain ⟨free, chains, hshape, hcontents⟩ := h
  have hlength : free.length < b.size.toNat + 1 := by
    have := hshape.perm.length_eq
    rw [length_slots, List.length_append] at this
    omega
  obtain ⟨st1, h1, hext1⟩ := checkFreelist_eq (b.size.toNat + 1)
    ⟨true, fun _ => false, ""⟩ hshape.free_chain hshape.nodup_free
    (fun i hi => hshape.mem_iff.mp (Or.inl hi)) hshape.free_unused (by simp) hlength
  obtain ⟨st2, l, h2, hext2, hmem⟩ := checkEntries_eq hshape hcontents (slots b.size)
    (fun i hi => mem_slots.mp hi) st1
  -- An entry is marked with the freelist or together with the chain it is on.
  have hmarked : ∀ i ∈ slots b.size, st2.marks i = true := by
    intro i hi
    rw [hext2.marks_iff, hext1.marks_iff]
    cases hshape.mem_iff.mpr (mem_slots.mp hi) with
    | inl hi => exact Or.inl (Or.inr hi)
    | inr hi =>
      right
      obtain ⟨c, hc, hic⟩ := List.mem_flatten.mp hi
      cases c with
      | nil => simp at hic
      | cons j c =>
        apply hmem j _ _ hc (by simp) hic
        rw [mem_slots]
        exact hshape.mem_iff.mp (Or.inr (List.mem_flatten_of_mem hc List.mem_cons_self))
  rw [← hshape.freelist_eq] at h1
  unfold check
  simp only [h1, Option.bind_eq_bind, Option.bind_some, h2, checkMarked_eq _ _ hmarked]
  simp [hext2.ok_eq, hext1.ok_eq, hext2.sout_eq, hext1.sout_eq]

theorem Contents.head_reaches {free : List Int} {chains : List (List Int)}
    (hshape : b.Shape free chains) (hcontents : b.Contents chains (fun _ => True) m) {i : Int}
    (hi : i ∈ chains.flatten)
    : (b.table (b.table i).head).used ∧ ∃ k, b.nextOf^[k] (b.table i).head = i := by
  obtain ⟨c, hc, hic⟩ := List.mem_flatten.mp hi
  have hmem := (hcontents.headBefore c hc).head_mem hic trivial
  simp only [headOf, List.not_mem_nil, or_false] at hmem
  obtain ⟨ds1, ds2, hchains⟩ := List.append_of_mem hc
  obtain ⟨l1, l2, hsplit⟩ := List.append_of_mem hmem
  rw [hsplit] at hchains hc
  subst hchains
  have hsuffix := Contents.mem_suffix hshape hcontents hi rfl
  obtain ⟨k, _, hk⟩ := (linked_append.mp (hshape.chain _ hc)).2.exists_iterate i hsuffix
  exact ⟨hshape.used _ (List.mem_flatten_of_mem hc (by simp)), k, hk⟩

/-
A chain that became empty is still on the list of chains that the proofs above keep.
-/
theorem Inv.exists_nonempty_chains (h : b.Inv m)
    : ∃ free chains, b.Shape free chains ∧ b.Contents chains (fun _ => True) m
        ∧ ∀ c ∈ chains, c ≠ [] := by
  obtain ⟨free, chains, hshape, hcontents⟩ := h
  have hflatten : (chains.filter (· ≠ [])).flatten = chains.flatten := by
    clear hshape hcontents
    induction chains with
    | nil => rfl
    | cons c chains ih =>
      cases c with
      | nil => simpa using ih
      | cons i c => simpa using ih
  have hsub : ∀ c ∈ chains.filter (· ≠ []), c ∈ chains := fun c hc => List.mem_of_mem_filter hc
  refine ⟨free, chains.filter (· ≠ []), ?_, ?_, ?_⟩
  . constructor
    . rw [hflatten]
      exact hshape.perm
    . exact hshape.freelist_eq
    . exact hshape.free_chain
    . intro c hc
      exact hshape.chain c (hsub c hc)
    . exact hshape.free_unused
    . rw [hflatten]
      exact hshape.used
  . constructor
    . rw [hflatten]
      exact hcontents.head_eq
    . intro c hc
      exact hcontents.headBefore c (hsub c hc)
    . rw [hflatten]
      exact hcontents.id_inj
    . rw [hflatten]
      exact hcontents.sound
    . rw [hflatten]
      exact hcontents.complete
  . intro c hc
    simpa using (List.mem_filter.mp hc).2

end Block
end Hash
end ObTools
