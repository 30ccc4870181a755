import Mathlib.Data.Finset.Card
import Mathlib.Data.Finset.Image
import ObTools.Merkle.Root
import ObTools.Merkle.Tree

/-!
This module contains what becomes of the leaf hash function of a `Merkle::Tree`. If the function changes a
leaf, there is a branch hash function that tells the two trees apart: one that passes on the first hash that
is among some hashes looked for.
-/

namespace ObTools
namespace Merkle

namespace Tree

variable {HashT : Type} {op : HashT → HashT → HashT}

section fold

def foldAll (op : HashT → HashT → HashT) : List HashT → Option HashT
  | [] => none
  | a :: as => some (as.foldl op a)

-- A branch hash function that combines the two hashes
def combining (op : HashT → HashT → HashT) (left right : HashT × Unit) : HashT := op left.1 right.1

theorem foldAll_append (hassoc : Std.Associative op) {as bs : List HashT} {a b : HashT}
    (ha : foldAll op as = some a) (hb : foldAll op bs = some b)
    : foldAll op (as ++ bs) = some (op a b) := by
  cases as with
  | nil => cases ha
  | cons a' as =>
    cases bs with
    | nil => cases hb
    | cons b' bs =>
      cases ha
      cases hb
      rw [List.cons_append, foldAll, List.foldl_append, List.foldl_cons, List.foldl_assoc]

theorem totalData_unit (branchHashFunc : HashT × Unit → HashT × Unit → HashT) (f : HashT → HashT)
    {leaves : List HashT} (hne : leaves ≠ [])
    : totalData (funcs branchHashFunc f) leaves = some () := by
  cases leaves with
  | nil => exact absurd rfl hne
  | cons leaf leaves => rfl

/-
Where the tree is split does not matter if the branch hash function is associative.
-/
theorem rootHash_combining (hassoc : Std.Associative op) (f : HashT → HashT) (leaves : List HashT)
    (hne : leaves ≠ [])
    : ∃ hash, foldAll op leaves = some hash
        ∧ rootHash (funcs (combining op) f) leaves = some hash := by
  induction hlen : leaves.length using Nat.strong_induction_on generalizing leaves with
  | _ n ih =>
  match leaves, hne with
  | [leaf], _ =>
    refine ⟨leaf, rfl, ?_⟩
    rw [rootHash]
    rfl
  | leaf1 :: leaf2 :: leaves, _ =>
    generalize hall : leaf1 :: leaf2 :: leaves = all at *
    have htwo : 2 ≤ all.length := by
      rw [← hall]
      simp
    have hsplit := splitPoint_lt htwo
    have hpos : 0 < splitPoint all.length := Nat.two_pow_pos _
    have hlen1 : (all.take (splitPoint all.length)).length = splitPoint all.length := by
      rw [List.length_take]
      omega
    have hlen2 : (all.drop (splitPoint all.length)).length = all.length - splitPoint all.length :=
      List.length_drop
    have hne1 : all.take (splitPoint all.length) ≠ [] := List.ne_nil_of_length_pos (by omega)
    have hne2 : all.drop (splitPoint all.length) ≠ [] := List.ne_nil_of_length_pos (by omega)
    obtain ⟨hash1, hfold1, hroot1⟩ := ih _ (by omega) _ hne1 rfl
    obtain ⟨hash2, hfold2, hroot2⟩ := ih _ (by omega) _ hne2 rfl
    refine ⟨op hash1 hash2, ?_, ?_⟩
    . rw [← foldAll_append hassoc hfold1 hfold2, List.take_append_drop]
    . rw [rootHash_split htwo hroot1 (totalData_unit _ f hne1) hroot2 (totalData_unit _ f hne2)]
      rfl

end fold

section pick

open Classical

-- The first of two hashes that is wanted, or the last one
noncomputable def pick (wanted : HashT → Prop) (a b : HashT) : HashT := if wanted a then a else b

variable {wanted : HashT → Prop}

theorem pick_associative (wanted : HashT → Prop) : Std.Associative (pick wanted) := by
  constructor
  intro a b c
  unfold pick
  by_cases ha : wanted a <;> simp [ha]

theorem foldl_pick (a : HashT) (as : List HashT)
    : as.foldl (pick wanted) a ∈ a :: as
        ∧ ((∃ b ∈ a :: as, wanted b) → wanted (as.foldl (pick wanted) a)) := by
  induction as generalizing a with
  | nil => simp
  | cons b as ih =>
    rw [List.foldl_cons]
    by_cases ha : wanted a
    . have hpick : pick wanted a b = a := if_pos ha
      have := ih a
      rw [hpick]
      refine ⟨?_, fun _ => this.2 ⟨a, List.mem_cons_self, ha⟩⟩
      have hmem := this.1
      simp only [List.mem_cons] at hmem ⊢
      tauto
    . have hpick : pick wanted a b = b := if_neg ha
      have := ih b
      rw [hpick]
      refine ⟨List.mem_cons_of_mem a this.1, ?_⟩
      rintro ⟨c, hc, hwanted⟩
      cases List.mem_cons.mp hc with
      | inl heq =>
        rw [heq] at hwanted
        exact absurd hwanted ha
      | inr hc => exact this.2 ⟨c, hc, hwanted⟩

theorem foldl_pick_wanted {a : HashT} (ha : wanted a) (as : List HashT)
    : as.foldl (pick wanted) a = a := by
  induction as with
  | nil => rfl
  | cons b as ih =>
    have hpick : pick wanted a b = a := if_pos ha
    rw [List.foldl_cons, hpick, ih]

-- The first hash that is wanted
theorem foldAll_pick {before after : List HashT} {a : HashT} (hbefore : ∀ b ∈ before, ¬ wanted b)
    (ha : wanted a)
    : foldAll (pick wanted) (before ++ a :: after) = some a := by
  have hafter : foldAll (pick wanted) (a :: after) = some a := by
    rw [foldAll, foldl_pick_wanted ha]
  cases before with
  | nil => exact hafter
  | cons b before =>
    have hb : foldAll (pick wanted) (b :: before) = some (before.foldl (pick wanted) b) := rfl
    rw [foldAll_append (pick_associative wanted) hb hafter]
    exact congrArg some (if_neg (hbefore _ (foldl_pick b before).1))

/-
Either there is a leaf that the function gives for none of them, or it permutes their values. Then it gives
something else for the first leaf that it changes, and this is not among the leaves before.
-/
theorem exists_pick {f : HashT → HashT} {leaves : List HashT} (h : ∃ leaf ∈ leaves, f leaf ≠ leaf)
    : ∃ wanted, foldAll (pick wanted) leaves ≠ foldAll (pick wanted) (leaves.map f) := by
  by_cases hmissing : ∃ leaf ∈ leaves, leaf ∉ leaves.map f
  . obtain ⟨leaf, hleaf, hnot⟩ := hmissing
    refine ⟨(· = leaf), ?_⟩
    intro heq
    cases leaves with
    | nil => cases hleaf
    | cons a as =>
      rw [List.map_cons, foldAll, foldAll, Option.some.injEq] at heq
      have hfirst : as.foldl (pick (· = leaf)) a = leaf :=
        (@foldl_pick _ (· = leaf) a as).2 ⟨leaf, hleaf, rfl⟩
      have hmem := (@foldl_pick _ (· = leaf) (f a) (as.map f)).1
      rw [← heq, hfirst] at hmem
      exact hnot hmem
  . have hsub : leaves.toFinset ⊆ leaves.toFinset.image f := by
      intro leaf hleaf
      rw [List.mem_toFinset] at hleaf
      have hmap : leaf ∈ leaves.map f := by
        by_contra hnot
        exact hmissing ⟨leaf, hleaf, hnot⟩
      rw [List.mem_map] at hmap
      obtain ⟨leaf', hleaf', heq⟩ := hmap
      exact Finset.mem_image.mpr ⟨leaf', List.mem_toFinset.mpr hleaf', heq⟩
    have himage : leaves.toFinset = leaves.toFinset.image f :=
      Finset.eq_of_subset_of_card_le hsub Finset.card_image_le
    have hinj : Set.InjOn f leaves.toFinset :=
      Finset.injOn_of_card_image_eq (congrArg Finset.card himage.symm)
    obtain ⟨leaf, hfind⟩ : ∃ leaf, leaves.find? (fun leaf => f leaf ≠ leaf) = some leaf := by
      rw [← Option.isSome_iff_exists, List.find?_isSome]
      obtain ⟨leaf, hleaf, hne⟩ := h
      exact ⟨leaf, hleaf, by simpa using hne⟩
    obtain ⟨hchanged, before, after, rfl, hbefore⟩ := List.find?_eq_some_iff_append.mp hfind
    have hchanged : f leaf ≠ leaf := by simpa using hchanged
    have hfixed : ∀ b ∈ before, f b = b := by
      intro b hb
      simpa using hbefore b hb
    have hmem : ∀ b, b ∈ (before ++ leaf :: after).toFinset ↔ b ∈ before ++ leaf :: after :=
      fun b => List.mem_toFinset
    have hagain : f (f leaf) ≠ f leaf := by
      intro heq
      have hleaf : leaf ∈ (before ++ leaf :: after).toFinset := (hmem leaf).mpr (by simp)
      have himg : f leaf ∈ (before ++ leaf :: after).toFinset := by
        rw [himage]
        exact Finset.mem_image_of_mem f hleaf
      exact hchanged (hinj himg hleaf heq)
    have hnot : ∀ b ∈ before, ¬(b = leaf ∨ b = f leaf) := by
      intro b hb hor
      have hb := hfixed b hb
      cases hor with
      | inl heq =>
        rw [heq] at hb
        exact hchanged hb
      | inr heq =>
        rw [heq] at hb
        exact hagain hb
    refine ⟨fun a => a = leaf ∨ a = f leaf, ?_⟩
    have hmap : before.map f = before := by
      conv_rhs => rw [← List.map_id before]
      apply List.map_congr_left
      exact hfixed
    rw [foldAll_pick hnot (.inl rfl), List.map_append, List.map_cons, hmap, foldAll_pick hnot (.inr rfl)]
    intro heq
    exact hchanged (Option.some.inj heq).symm

end pick

section getHash

theorem getHash_eq (branchHashFunc : HashT × Unit → HashT × Unit → HashT) (f : HashT → HashT)
    {leaves : List HashT} (hne : leaves ≠ []) (hlt : leaves.length < 2 ^ 32 - 1) {fuel : Nat}
    (hfuel : 2 * leaves.length + 2 ≤ fuel)
    : getHash branchHashFunc f fuel leaves = rootHash (funcs branchHashFunc f) leaves := by
  have hassoc : Std.Associative (funcs branchHashFunc f).branchDataAggregationFunc :=
    ⟨fun _ _ _ => rfl⟩
  obtain ⟨root, hnew, hhash, -⟩ := GenericTree.new_eq (funcs branchHashFunc f) hassoc rfl hne hlt fuel hfuel
  unfold getHash
  rw [hnew, ← hhash]
  rfl

/--
For no other function do the two trees have the same hash whatever the branch hash function.
-/
theorem getHash_leafHashFunc (f : HashT → HashT) (leaves : List HashT) (hne : leaves ≠ [])
    : (∀ branchHashFunc : HashT × Unit → HashT × Unit → HashT, ∃ fuel, ∀ fuel' ≥ fuel, ∃ hash,
        getHash branchHashFunc f fuel' leaves = some hash
          ∧
        getHash branchHashFunc leafDataIsHashFunc fuel' (leaves.map f) = some hash)
        ↔
      (∀ leaf ∈ leaves, f leaf = leaf) ∧ leaves.length < 2 ^ 32 - 1 := by
  have hmapne : leaves.map f ≠ [] := by simpa using hne
  constructor
  . intro h
    have hlt : leaves.length < 2 ^ 32 - 1 := by
      obtain ⟨fuel, hfuel⟩ := h fun left _ => left.1
      obtain ⟨hash, hhash, -⟩ := hfuel fuel (Nat.le_refl _)
      apply Nat.lt_of_not_le
      intro hge
      rw [getHash, GenericTree.new, GenericTree.buildTree_eq_none hge] at hhash
      cases hhash
    refine ⟨?_, hlt⟩
    by_contra hchanged
    obtain ⟨wanted, hdiffer⟩ := @exists_pick _ f leaves (by simpa using hchanged)
    obtain ⟨fuel, hfuel⟩ := h (combining (pick wanted))
    obtain ⟨hash, hhash, hhash'⟩ := hfuel (fuel + (2 * leaves.length + 2)) (by omega)
    rw [getHash_eq _ _ hne hlt (by omega)] at hhash
    rw [getHash_eq _ _ hmapne (by simpa using hlt) (by rw [List.length_map]; omega)] at hhash'
    obtain ⟨hash1, hfold1, hroot1⟩ := rootHash_combining (pick_associative wanted) f leaves hne
    obtain ⟨hash2, hfold2, hroot2⟩ :=
      rootHash_combining (pick_associative wanted) leafDataIsHashFunc (leaves.map f) hmapne
    rw [hroot1] at hhash
    rw [hroot2] at hhash'
    apply hdiffer
    rw [hfold1, hfold2, hhash, hhash']
  . intro h branchHashFunc
    obtain ⟨hfixed, hlt⟩ := h
    have hmap : leaves.map f = leaves := by
      conv_rhs => rw [← List.map_id leaves]
      apply List.map_congr_left
      exact hfixed
    have hassoc : Std.Associative (funcs branchHashFunc f).branchDataAggregationFunc :=
      ⟨fun _ _ _ => rfl⟩
    refine ⟨2 * leaves.length + 2, ?_⟩
    intro fuel' hfuel'
    obtain ⟨root, hnew, -⟩ := GenericTree.new_eq (funcs branchHashFunc f) hassoc rfl hne hlt fuel' hfuel'
    refine ⟨root.getHash (funcs branchHashFunc f), ?_, ?_⟩
    . rw [getHash, hnew]
      rfl
    . rw [hmap, getHash, hnew]
      rfl

-- A function that keeps numbers below 10
theorem getHash_leafHashFunc_two
    : ∃ fuel, ∀ fuel' ≥ fuel, ∃ hash,
        getHash (fun left right => left.1 + right.1) (· % 10) fuel' [3, 5] = some hash
          ∧
        getHash (fun left right => left.1 + right.1) leafDataIsHashFunc fuel'
          ([3, 5].map (· % 10)) = some hash :=
  (getHash_leafHashFunc (· % 10) [3, 5] (by simp)).mpr ⟨by simp, by decide⟩ _

/--
The hash of a tree with a single leaf is the leaf itself, whatever the leaf hash function.
-/
theorem getHash_ignores_leafHashFunc
    : ¬(∀ (branchHashFunc : Nat × Unit → Nat × Unit → Nat) (f : Nat → Nat) (leaves : List Nat),
        leaves ≠ [] → ∃ fuel, ∀ fuel' ≥ fuel, ∃ hash,
          getHash branchHashFunc f fuel' leaves = some hash
            ∧
          getHash branchHashFunc leafDataIsHashFunc fuel' (leaves.map f) = some hash) := by
  intro h
  obtain ⟨fuel, hfuel⟩ := h (fun left _ => left.1) (· + 1) [0] (by simp)
  obtain ⟨hash, hhash, hhash'⟩ := hfuel (fuel + 4) (by omega)
  rw [getHash_eq _ _ (by simp) (by decide) (by simp)] at hhash hhash'
  rw [rootHash] at hhash
  rw [List.map_singleton, rootHash] at hhash'
  cases hhash
  cases hhash'

end getHash

end Tree
end Merkle
end ObTools
