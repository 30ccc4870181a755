import ObTools.Hash.AddLemmas
import ObTools.Hash.RemoveLemmas

/-!
This module contains the proof that a block refines a finite map from IDs to indices. The states of
interest are those that are `Reachable`, together with the map that the calls so far have built.
-/

namespace ObTools
namespace Hash
namespace Block

open DoublyLinked

variable {ID : Type} {b : Block ID} {m : ID → Int}

section Search

variable {free : List Int} {s : Int} {l l1 l2 : List Int} {cs1 cs2 : List (List Int)}

-- An entry is never in front of the place it hashes to, so a search from there finds it.
theorem Contents.mem_suffix (hshape : b.Shape free (cs1 ++ (l1 ++ s :: l2) :: cs2))
    (hcontents : b.Contents (cs1 ++ (l1 ++ s :: l2) :: cs2) (fun _ => True) m) {i : Int}
    (hi : i ∈ (cs1 ++ (l1 ++ s :: l2) :: cs2).flatten) (hhead : (b.table i).head = s)
    : i ∈ s :: l2 := by
  have hcmem : l1 ++ s :: l2 ∈ cs1 ++ (l1 ++ s :: l2) :: cs2 := by simp
  obtain ⟨c, hc, hic⟩ := List.mem_flatten.mp hi
  have hsc : s ∈ c := by
    have := (hcontents.headBefore c hc).head_mem hic trivial
    simpa [headOf, hhead] using this
  have hceq : c = l1 ++ s :: l2 := by
    simp only [List.mem_append, List.mem_cons] at hc
    rw [or_left_comm] at hc
    cases hc with
    | inl heq => exact heq
    | inr hc =>
      have := hshape.notMem_of_mem_other hc hsc
      simp at this
  subst hceq
  cases List.mem_append.mp hic with
  | inl hil =>
    have := headBefore_append.mp (hcontents.headBefore _ hcmem)
    have := this.1.head_mem hil trivial
    simp only [headOf, hhead, List.not_mem_nil, or_false] at this
    have hnodup := hshape.nodup_chain hcmem
    rw [List.nodup_append] at hnodup
    exact absurd rfl (hnodup.2.2 s this s (by simp))
  | inr hil => exact hil

theorem exists_chain_of_used (hshape : b.Shape free cs1) {id : ID}
    (hused : (b.table (b.helper.getStart id)).used)
    : ∃ ds1 l1 l2 ds2, cs1 = ds1 ++ (l1 ++ b.helper.getStart id :: l2) :: ds2 := by
  have hmem := hshape.mem_chain_of_used (b.helper.getStart_nonneg id) (b.helper.getStart_lt id) hused
  obtain ⟨c, hc, hsc⟩ := List.mem_flatten.mp hmem
  obtain ⟨ds1, ds2, hchains⟩ := List.append_of_mem hc
  obtain ⟨l1, l2, hsplit⟩ := List.append_of_mem hsc
  refine ⟨ds1, l1, l2, ds2, ?_⟩
  rw [hchains, hsplit]

theorem Contents.eq_invalid_of_unused (hshape : b.Shape free cs1)
    (hcontents : b.Contents cs1 (fun _ => True) m) {id : ID}
    (hunused : ¬(b.table (b.helper.getStart id)).used)
    : m id = invalidIndex := by
  by_contra hne
  obtain ⟨i, hi, _, heq⟩ := hcontents.complete id hne
  have hhead := hcontents.head_eq i hi trivial
  obtain ⟨c, hc, hic⟩ := List.mem_flatten.mp hi
  have hmem := (hcontents.headBefore c hc).head_mem hic trivial
  simp only [headOf, hhead, heq, List.not_mem_nil, or_false] at hmem
  exact hunused (hshape.used _ (List.mem_flatten_of_mem hc hmem))

-- The value of the map can be read off the entries behind the place an ID hashes to.
theorem Contents.map_eq (hshape : b.Shape free (cs1 ++ (l1 ++ s :: l2) :: cs2))
    (hcontents : b.Contents (cs1 ++ (l1 ++ s :: l2) :: cs2) (fun _ => True) m) {id : ID}
    (hs : b.helper.getStart id = s) (hnone : ∀ i ∈ s :: l2, (b.table i).id ≠ id)
    : m id = invalidIndex := by
  by_contra hne
  obtain ⟨i, hi, _, heq⟩ := hcontents.complete id hne
  have hhead := hcontents.head_eq i hi trivial
  rw [heq, hs] at hhead
  exact hnone i (Contents.mem_suffix hshape hcontents hi hhead) heq

variable [DecidableEq ID]

theorem lookup.go_eq (id : ID) (fuel : Nat) {p : Int}
    (h : Linked b.nextOf b.prevOf p invalidHashIndex (s :: l))
    (hvalid : ∀ j ∈ l, j ≠ invalidHashIndex) (hfuel : l.length < fuel)
    : (∃ i ∈ s :: l, (b.table i).id = id ∧ go b id fuel s = some (b.table i).index)
        ∨
      ((∀ i ∈ s :: l, (b.table i).id ≠ id) ∧ go b id fuel s = some invalidIndex) := by
  induction fuel generalizing s l p with
  | zero => omega
  | succ fuel ih =>
    unfold go
    by_cases hid : (b.table s).id = id
    . left
      refine ⟨s, by simp, hid, ?_⟩
      simp [hid]
    . have hnext : (b.table s).next = l.headD invalidHashIndex := h.2.1
      simp only [hid, ↓reduceIte, hnext]
      cases l with
      | nil =>
        right
        simp [hid]
      | cons t l =>
        have ht := hvalid t (by simp)
        simp only [List.headD_cons, ne_eq, ht, not_false_eq_true, ↓reduceIte]
        simp only [List.length_cons] at hfuel
        have := ih h.2.2 (fun j hj => hvalid j (by simp [hj])) (by omega)
        cases this with
        | inl this =>
          obtain ⟨i, hi, h1, h2⟩ := this
          left
          exact ⟨i, by simp [hi], h1, h2⟩
        | inr this =>
          right
          refine ⟨?_, this.2⟩
          intro i hi
          cases List.mem_cons.mp hi with
          | inl heq => rw [heq]; exact hid
          | inr hi => exact this.1 i hi

theorem lookup_eq (h : b.Inv m) (id : ID) : b.lookup id = some (m id) := by
  obtain ⟨free, chains, hshape, hcontents⟩ := h
  unfold lookup
  dsimp only
  split
  . next hunused =>
    rw [Contents.eq_invalid_of_unused hshape hcontents]
    simpa [Entry.used] using hunused
  . next hused =>
    obtain ⟨ds1, l1, l2, ds2, hchains⟩ := exists_chain_of_used hshape hused
    subst hchains
    have hcmem : l1 ++ b.helper.getStart id :: l2
        ∈ ds1 ++ (l1 ++ b.helper.getStart id :: l2) :: ds2 := by simp
    have hlength := hshape.length_chain_le hcmem
    have hgo := lookup.go_eq id b.size.toNat (linked_append.mp (hshape.chain _ hcmem)).2
      (fun j hj => hshape.ne_invalid_of_mem_chain (List.mem_flatten_of_mem hcmem (by simp [hj])))
      (by simp only [List.length_append, List.length_cons] at hlength; omega)
    cases hgo with
    | inl hgo =>
      obtain ⟨i, hi, hid, hgo⟩ := hgo
      have hiflat := List.mem_flatten_of_mem hcmem (List.mem_append_right l1 hi)
      rw [hgo, ← hid, hcontents.sound i hiflat trivial]
    | inr hgo =>
      rw [hgo.2, Contents.map_eq hshape hcontents rfl hgo.1]

theorem remove.go_eq (id : ID) (fuel : Nat) {p : Int}
    (h : Linked b.nextOf b.prevOf p invalidHashIndex (s :: l))
    (hvalid : ∀ j ∈ l, j ≠ invalidHashIndex) (hused : ∀ j ∈ s :: l, (b.table j).used)
    (hfuel : l.length < fuel)
    : (∃ i ∈ s :: l, (b.table i).id = id ∧ ∀ b', deleteLoop b.size.toNat b i = some b' →
          go b id fuel s = some ((b.table i).index, b'))
        ∨
      ((∀ i ∈ s :: l, (b.table i).id ≠ id) ∧ go b id fuel s = some (invalidIndex, b)) := by
  induction fuel generalizing s l p with
  | zero => omega
  | succ fuel ih =>
    unfold go
    have hs := hused s (by simp)
    simp only [hs, not_true_eq_false, ↓reduceIte]
    by_cases hid : (b.table s).id = id
    . left
      refine ⟨s, by simp, hid, ?_⟩
      intro b' hb'
      simp [hid, hb']
    . have hnext : (b.table s).next = l.headD invalidHashIndex := h.2.1
      simp only [hid, ↓reduceIte, hnext]
      cases l with
      | nil =>
        right
        simp [hid]
      | cons t l =>
        have ht := hvalid t (by simp)
        simp only [List.headD_cons, ht, ↓reduceIte]
        simp only [List.length_cons] at hfuel
        have := ih h.2.2 (fun j hj => hvalid j (by simp [hj]))
          (fun j hj => hused j (List.mem_cons_of_mem _ hj)) (by omega)
        cases this with
        | inl this =>
          obtain ⟨i, hi, h1, h2⟩ := this
          left
          exact ⟨i, by simp [hi], h1, h2⟩
        | inr this =>
          right
          refine ⟨?_, this.2⟩
          intro i hi
          cases List.mem_cons.mp hi with
          | inl heq => rw [heq]; exact hid
          | inr hi => exact this.1 i hi

end Search

variable [DecidableEq ID]

-- Taking the data of one entry out of account removes its ID from the map.
theorem Contents.forget {chains : List (List Int)} (h : b.Contents chains (fun _ => True) m)
    {d : Int} (hd : d ∈ chains.flatten)
    : b.Contents chains (· ≠ d) (Function.update m (b.table d).id invalidIndex) := by
  constructor
  . intro i hi _
    exact h.head_eq i hi trivial
  . intro c hc
    apply (h.headBefore c hc).congr
    . simp
    . simp
  . intro i hi j hj _ _
    exact h.id_inj i hi j hj trivial trivial
  . intro i hi hlive
    rw [Function.update_of_ne]
    . exact h.sound i hi trivial
    . intro heq
      exact hlive (h.id_inj i hi d hd trivial trivial heq)
  . intro id hid
    by_cases heq : id = (b.table d).id
    . rw [heq] at hid
      simp at hid
    . rw [Function.update_of_ne heq] at hid
      obtain ⟨i, hi, _, hi'⟩ := h.complete id hid
      refine ⟨i, hi, ?_, hi'⟩
      intro hdi
      rw [hdi] at hi'
      exact heq hi'.symm

theorem remove_eq (h : b.Inv m) (id : ID)
    : ∃ b', b.remove id = some (m id, b')
        ∧ b'.Inv (Function.update m id invalidIndex) ∧ SameHelper b b' := by
  obtain ⟨free, chains, hshape, hcontents⟩ := h
  have habsent : m id = invalidIndex → b.Inv (Function.update m id invalidIndex) := by
    intro hm
    rw [← hm, Function.update_eq_self]
    exact ⟨free, chains, hshape, hcontents⟩
  unfold remove
  by_cases hused : (b.table (b.helper.getStart id)).used
  . obtain ⟨ds1, l1, l2, ds2, hchains⟩ := exists_chain_of_used hshape hused
    subst hchains
    have hcmem : l1 ++ b.helper.getStart id :: l2
        ∈ ds1 ++ (l1 ++ b.helper.getStart id :: l2) :: ds2 := by simp
    have hflat : ∀ i ∈ b.helper.getStart id :: l2,
        i ∈ (ds1 ++ (l1 ++ b.helper.getStart id :: l2) :: ds2).flatten :=
      fun i hi => List.mem_flatten_of_mem hcmem (List.mem_append_right l1 hi)
    have hlength := hshape.length_chain_le hcmem
    have hgo := remove.go_eq id b.size.toNat (linked_append.mp (hshape.chain _ hcmem)).2
      (fun j hj => hshape.ne_invalid_of_mem_chain (hflat j (by simp [hj])))
      (fun j hj => hshape.used j (hflat j hj))
      (by simp only [List.length_append, List.length_cons] at hlength; omega)
    cases hgo with
    | inl hgo =>
      obtain ⟨d, hd, hid, hgo⟩ := hgo
      obtain ⟨k1, k2, hsplit⟩ := List.append_of_mem (List.mem_append_right l1 hd)
      rw [hsplit] at hshape hcontents hlength
      have hdflat : d ∈ (ds1 ++ (k1 ++ d :: k2) :: ds2).flatten := by simp
      obtain ⟨b', h1, h2, h3⟩ := deleteLoop_eq b.size.toNat hshape (hcontents.forget hdflat)
        (by simp only [List.length_append, List.length_cons] at hlength; omega)
      rw [hid] at h2
      refine ⟨b', ?_, h2, h3⟩
      rw [hgo b' h1, ← hid, hcontents.sound d hdflat trivial]
    | inr hgo =>
      have hm := Contents.map_eq hshape hcontents rfl hgo.1
      refine ⟨b, ?_, habsent hm, SameHelper.refl b⟩
      rw [hgo.2, hm]
  . have hm := Contents.eq_invalid_of_unused hshape hcontents hused
    refine ⟨b, ?_, habsent hm, SameHelper.refl b⟩
    have h1 := b.helper.getStart_nonneg id
    have h2 := b.helper.getStart_lt id
    obtain ⟨n, hn⟩ : ∃ n, b.size.toNat = n + 1 := ⟨b.size.toNat - 1, by omega⟩
    rw [hn]
    simp [remove.go, hused, hm]

theorem add_eq (h : b.Inv m) {id : ID} {index : Int} (hfresh : m id = invalidIndex)
    (hindex : index ≠ invalidIndex)
    : ((b.add id index).1 = true ∧ (b.add id index).2.Inv (Function.update m id index)
        ∧ ∃ i, 0 ≤ i ∧ i < b.size ∧ ¬(b.table i).used)
        ∨
      (b.add id index = (false, b) ∧ ∀ i, 0 ≤ i → i < b.size → (b.table i).used) := by
  by_cases hused : (b.table (b.helper.getStart id)).used
  . by_cases hfree : b.freelist = invalidHashIndex
    . right
      refine ⟨add_full rfl hused hfree, ?_⟩
      obtain ⟨free, chains, hshape, _⟩ := h
      rw [hshape.freelist_eq_invalid_iff] at hfree
      subst hfree
      intro i hi0 hi1
      cases hshape.mem_iff.mpr ⟨hi0, hi1⟩ with
      | inl hi => simp at hi
      | inr hi => exact hshape.used i hi
    . left
      refine ⟨add_collision_fst rfl hused hfree, add_collision_inv h hfresh hindex hused hfree, ?_⟩
      obtain ⟨free, chains, hshape, _⟩ := h
      cases free with
      | nil =>
        rw [hshape.freelist_eq] at hfree
        simp at hfree
      | cons q free =>
        have := hshape.mem_iff.mp (Or.inl (List.mem_cons_self (a := q)))
        exact ⟨q, this.1, this.2, hshape.free_unused q (by simp)⟩
  . left
    refine ⟨add_unused_fst rfl hused, add_unused_inv h hfresh hindex hused, ?_⟩
    exact ⟨_, b.helper.getStart_nonneg id, b.helper.getStart_lt id, hused⟩

/-
The states of a block and the map its callers have in mind: `m id` is the index most recently added
for `id` and not removed since, or `invalidIndex`. Callers only add IDs that are not there.
-/
inductive Reachable (size : Int) (helper : Helper ID size) (mem : Int → Entry ID)
    : Block ID → (ID → Int) → Prop where
  | new : Reachable size helper mem (Block.new size helper mem) fun _ => invalidIndex
  | add {b : Block ID} {m : ID → Int} {id : ID} {index : Int}
      : Reachable size helper mem b m → m id = invalidIndex → index ≠ invalidIndex →
        Reachable size helper mem (b.add id index).2
          (if (b.add id index).1 then Function.update m id index else m)
  | remove {b b' : Block ID} {m : ID → Int} {id : ID} {index : Int}
      : Reachable size helper mem b m → b.remove id = some (index, b') →
        Reachable size helper mem b' (Function.update m id invalidIndex)

theorem Reachable.inv {size : Int} {helper : Helper ID size} {mem : Int → Entry ID}
    (hsize : 1 ≤ size) (h : Reachable size helper mem b m) : b.Inv m ∧ b.size = size := by
  induction h with
  | new => exact ⟨new_inv hsize, rfl⟩
  | @add b m id index _ hfresh hindex ih =>
    cases add_eq ih.1 hfresh hindex with
    | inl hadd =>
      rw [hadd.1, (add_sameHelper b id index).size_eq]
      exact ⟨hadd.2.1, ih.2⟩
    | inr hadd =>
      rw [hadd.1]
      exact ih
  | @remove b b' m id index _ hremove ih =>
    obtain ⟨b'', h1, h2, h3⟩ := remove_eq ih.1 id
    rw [h1] at hremove
    simp only [Option.some.injEq, Prod.mk.injEq] at hremove
    rw [← hremove.2, h3.size_eq]
    exact ⟨h2, ih.2⟩

end Block
end Hash
end ObTools
