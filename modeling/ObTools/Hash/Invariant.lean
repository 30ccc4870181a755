import Mathlib.Data.List.Perm.Basic
import Mathlib.Data.List.Nodup
import ObTools.Lib.DoublyLinked
import ObTools.Hash.Block

/-!
This module contains the invariant of a block and the proof that it is preserved by all operations.

The invariant has two layers. `Shape` is about the links only: the table is partitioned into the
freelist and the collision chains. `Contents` is about what the used entries hold: every entry sits
at or behind the place it hashes to, and the entries are the graph of a finite map `m`. `remove`
moves entries forward over the one that is deleted, so while it runs there is one entry on the
chains whose data is void. For this reason `Contents` only speaks about the entries that are `live`.
-/

namespace ObTools
namespace Hash

open DoublyLinked

/-
The head of every live entry is the entry itself, one of the entries before it or one of `seen`.
-/
def HeadBefore (head : Int → Int) (live : Int → Prop) (seen : List Int) : List Int → Prop
  | [] => True
  | i :: l => (live i → head i = i ∨ head i ∈ seen) ∧ HeadBefore head live (i :: seen) l

section HeadBefore

variable {head head' : Int → Int} {live live' : Int → Prop} {seen seen' l l1 l2 : List Int}

theorem HeadBefore.congr (h : HeadBefore head live seen l)
    (hhead : ∀ i ∈ l, live' i → head' i = head i) (hlive : ∀ i ∈ l, live' i → live i)
    : HeadBefore head' live' seen l := by
  induction l generalizing seen with
  | nil => trivial
  | cons i l ih =>
    constructor
    . intro hi
      rw [hhead i (by simp) hi]
      apply h.1
      exact hlive i (by simp) hi
    . apply ih h.2
      . intro j hj
        exact hhead j (by simp [hj])
      . intro j hj
        exact hlive j (by simp [hj])

theorem HeadBefore.change_seen (h : HeadBefore head live seen l)
    (hseen : ∀ i ∈ l, live i → head i ∈ seen → head i ∈ seen')
    : HeadBefore head live seen' l := by
  induction l generalizing seen seen' with
  | nil => trivial
  | cons i l ih =>
    constructor
    . intro hi
      cases h.1 hi with
      | inl heq => exact Or.inl heq
      | inr hmem => exact Or.inr (hseen i (by simp) hi hmem)
    . apply ih h.2
      intro j hj hlive hmem
      cases List.mem_cons.mp hmem with
      | inl heq => simp [heq]
      | inr hmem => simp [hseen j (by simp [hj]) hlive hmem]

theorem headBefore_append
    : HeadBefore head live seen (l1 ++ l2)
        ↔
      HeadBefore head live seen l1 ∧ HeadBefore head live (l1.reverse ++ seen) l2 := by
  induction l1 generalizing seen with
  | nil => simp [HeadBefore]
  | cons i l ih =>
    simp only [List.cons_append, HeadBefore, ih, List.reverse_cons, List.append_assoc,
      List.nil_append]
    tauto

theorem HeadBefore.head_mem (h : HeadBefore head live seen l) {i : Int} (hi : i ∈ l) (hlive : live i)
    : head i ∈ l ∨ head i ∈ seen := by
  induction l generalizing seen with
  | nil => simp at hi
  | cons j l ih =>
    cases List.mem_cons.mp hi with
    | inl heq =>
      subst heq
      cases h.1 hlive with
      | inl heq => simp [heq]
      | inr hmem => simp [hmem]
    | inr hmem =>
      cases ih h.2 hmem with
      | inl h => simp [h]
      | inr h =>
        cases List.mem_cons.mp h with
        | inl h => simp [h]
        | inr h => simp [h]

end HeadBefore

namespace Block

variable {ID : Type}

def nextOf (b : Block ID) (i : Int) : Int := (b.table i).next

def prevOf (b : Block ID) (i : Int) : Int := (b.table i).prev

def headOf (b : Block ID) (i : Int) : Int := (b.table i).head

def Chain (b : Block ID) (l : List Int) : Prop :=
  Linked b.nextOf b.prevOf invalidHashIndex invalidHashIndex l

structure Shape (b : Block ID) (free : List Int) (chains : List (List Int)) : Prop where
  perm : (free ++ chains.flatten).Perm (slots b.size)
  freelist_eq : b.freelist = free.headD invalidHashIndex
  free_chain : b.Chain free
  chain : ∀ c ∈ chains, b.Chain c
  free_unused : ∀ i ∈ free, ¬(b.table i).used
  used : ∀ i ∈ chains.flatten, (b.table i).used

structure Contents (b : Block ID) (chains : List (List Int)) (live : Int → Prop) (m : ID → Int)
    : Prop where
  head_eq : ∀ i ∈ chains.flatten, live i → (b.table i).head = b.helper.getStart (b.table i).id
  headBefore : ∀ c ∈ chains, HeadBefore b.headOf live [] c
  id_inj : ∀ i ∈ chains.flatten, ∀ j ∈ chains.flatten, live i → live j →
    (b.table i).id = (b.table j).id → i = j
  sound : ∀ i ∈ chains.flatten, live i → m (b.table i).id = (b.table i).index
  complete : ∀ id, m id ≠ invalidIndex → ∃ i ∈ chains.flatten, live i ∧ (b.table i).id = id

-- The invariant between two calls, where all entries on the chains are live.
def Inv (b : Block ID) (m : ID → Int) : Prop :=
  ∃ free chains, b.Shape free chains ∧ b.Contents chains (fun _ => True) m

namespace Shape

variable {b : Block ID} {free : List Int} {chains : List (List Int)}

theorem nodup (h : b.Shape free chains) : (free ++ chains.flatten).Nodup := by
  rw [h.perm.nodup_iff]
  apply nodup_slots

theorem mem_iff (h : b.Shape free chains) {i : Int}
    : i ∈ free ∨ i ∈ chains.flatten ↔ 0 ≤ i ∧ i < b.size := by
  rw [← List.mem_append, h.perm.mem_iff, mem_slots]

theorem ne_invalid_of_mem_free (h : b.Shape free chains) {i : Int} (hi : i ∈ free)
    : i ≠ invalidHashIndex := by
  have := h.mem_iff.mp (Or.inl hi)
  unfold invalidHashIndex
  omega

theorem ne_invalid_of_mem_chain (h : b.Shape free chains) {i : Int} (hi : i ∈ chains.flatten)
    : i ≠ invalidHashIndex := by
  have := h.mem_iff.mp (Or.inr hi)
  unfold invalidHashIndex
  omega

theorem ne_of_mem (h : b.Shape free chains) {i j : Int} (hi : i ∈ free) (hj : j ∈ chains.flatten)
    : i ≠ j := by
  have := h.nodup
  rw [List.nodup_append] at this
  exact this.2.2 i hi j hj

theorem mem_free_of_unused (h : b.Shape free chains) {i : Int} (h1 : 0 ≤ i) (h2 : i < b.size)
    (hunused : ¬(b.table i).used) : i ∈ free := by
  cases h.mem_iff.mpr ⟨h1, h2⟩ with
  | inl hi => exact hi
  | inr hi =>
    have := h.used i hi
    contradiction

theorem mem_chain_of_used (h : b.Shape free chains) {i : Int} (h1 : 0 ≤ i) (h2 : i < b.size)
    (hused : (b.table i).used) : i ∈ chains.flatten := by
  cases h.mem_iff.mpr ⟨h1, h2⟩ with
  | inl hi =>
    have := h.free_unused i hi
    contradiction
  | inr hi => exact hi

theorem freelist_eq_invalid_iff (h : b.Shape free chains)
    : b.freelist = invalidHashIndex ↔ free = [] := by
  rw [h.freelist_eq]
  cases free with
  | nil => simp
  | cons i l =>
    have := h.ne_invalid_of_mem_free (i := i) (by simp)
    simp [this]

theorem nodup_free (h : b.Shape free chains) : free.Nodup := by
  have := h.nodup
  rw [List.nodup_append] at this
  exact this.1

theorem nodup_chain (h : b.Shape free chains) {c : List Int} (hc : c ∈ chains) : c.Nodup := by
  have := h.nodup
  rw [List.nodup_append] at this
  exact (List.nodup_flatten.mp this.2.1).1 c hc

theorem length_chain_le (h : b.Shape free chains) {c : List Int} (hc : c ∈ chains)
    : c.length ≤ b.size.toNat := by
  have h1 := h.perm.length_eq
  have h2 : c.length ≤ chains.flatten.length := (List.sublist_flatten_of_mem hc).length_le
  rw [length_slots, List.length_append] at h1
  omega

theorem notMem_of_mem_other {cs1 cs2 : List (List Int)} {c c' : List Int}
    (h : b.Shape free (cs1 ++ c :: cs2)) (hc' : c' ∈ cs1 ∨ c' ∈ cs2) {j : Int} (hj : j ∈ c')
    : j ∉ c := by
  intro hmem
  have hnodup := h.nodup
  rw [List.nodup_append] at hnodup
  have hnodup := hnodup.2.1
  rw [List.flatten_append, List.flatten_cons, List.nodup_append] at hnodup
  cases hc' with
  | inl hc =>
    exact hnodup.2.2 j (List.mem_flatten_of_mem hc hj) j (List.mem_append_left _ hmem) rfl
  | inr hc =>
    have hnodup := hnodup.2.1
    rw [List.nodup_append] at hnodup
    exact hnodup.2.2 j hmem j (List.mem_flatten_of_mem hc hj) rfl

-- The links of an entry lead to entries of the same list or are the end marker.
theorem next_ne_self {l1 l2 : List Int} {i : Int} (hc : b.Chain (l1 ++ i :: l2))
    (hnodup : (l1 ++ i :: l2).Nodup) (hi : i ≠ invalidHashIndex) : i ≠ (b.table i).next := by
  have hnext : (b.table i).next = l2.headD invalidHashIndex := hc.next_mid
  rw [hnext]
  intro h
  cases headD_mem_or_eq l2 invalidHashIndex with
  | inl hm =>
    rw [← h] at hm
    rw [List.nodup_append] at hnodup
    exact (List.nodup_cons.mp hnodup.2.1).1 hm
  | inr hm =>
    rw [hm] at h
    exact hi h

theorem prev_ne_self {l1 l2 : List Int} {i : Int} (hc : b.Chain (l1 ++ i :: l2))
    (hnodup : (l1 ++ i :: l2).Nodup) (hi : i ≠ invalidHashIndex) : i ≠ (b.table i).prev := by
  have hprev : (b.table i).prev = l1.getLastD invalidHashIndex := hc.prev_mid
  rw [hprev]
  intro h
  cases getLastD_mem_or_eq l1 invalidHashIndex with
  | inl hm =>
    rw [← h] at hm
    rw [List.nodup_append] at hnodup
    exact hnodup.2.2 i hm i (by simp) rfl
  | inr hm =>
    rw [hm] at h
    exact hi h

theorem ne_next_of_notMem {l1 l2 : List Int} {i j : Int} (hc : b.Chain (l1 ++ i :: l2))
    (hj : j ≠ invalidHashIndex) (hmem : j ∉ l1 ++ i :: l2) : j ≠ (b.table i).next := by
  have hnext : (b.table i).next = l2.headD invalidHashIndex := hc.next_mid
  rw [hnext]
  intro h
  cases headD_mem_or_eq l2 invalidHashIndex with
  | inl hm =>
    rw [← h] at hm
    simp [hm] at hmem
  | inr hm =>
    rw [hm] at h
    exact hj h

theorem ne_prev_of_notMem {l1 l2 : List Int} {i j : Int} (hc : b.Chain (l1 ++ i :: l2))
    (hj : j ≠ invalidHashIndex) (hmem : j ∉ l1 ++ i :: l2) : j ≠ (b.table i).prev := by
  have hprev : (b.table i).prev = l1.getLastD invalidHashIndex := hc.prev_mid
  rw [hprev]
  intro h
  cases getLastD_mem_or_eq l1 invalidHashIndex with
  | inl hm =>
    rw [← h] at hm
    simp [hm] at hmem
  | inr hm =>
    rw [hm] at h
    exact hj h

end Shape

end Block

end Hash
end ObTools
