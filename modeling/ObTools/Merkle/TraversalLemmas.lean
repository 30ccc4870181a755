import ObTools.Merkle.Root
import ObTools.Merkle.Tree

/-!
This module contains the proof that both walks go through all of a tree, and in which order. The walk with a
queue goes through the layers from which the tree was built, the last one first, where the nodes of a layer
are numbered from left to right.
-/

namespace ObTools
namespace Merkle

variable {LeafDataT : Type}

namespace Node

def leaves (node : Node LeafDataT) : List LeafDataT := node.traversePreorder.filterMap leafData?

theorem traversePreorder_eq (node : Node LeafDataT)
    : node.traversePreorder = node :: node.pushChildren.flatMap traversePreorder := by
  cases node <;> simp [traversePreorder, pushChildren]

theorem leaves_branch (index : UInt64) (left right : Node LeafDataT)
    : (branch index left right).leaves = left.leaves ++ right.leaves := by
  have hnone : leafData? (branch index left right) = none := rfl
  rw [leaves, traversePreorder, List.filterMap_cons_none hnone, List.filterMap_append]
  rfl

theorem leaves_single (index : UInt64) (left : Node LeafDataT)
    : (single index left).leaves = left.leaves := by
  have hnone : leafData? (single index left) = none := rfl
  rw [leaves, traversePreorder, List.filterMap_cons_none hnone]
  rfl

theorem leaves_setIndex (node : Node LeafDataT) (index : UInt64)
    : (node.setIndex index).leaves = node.leaves := by
  induction node generalizing index with
  | leaf i leafData => rfl
  | branch i left right ihl ihr => rw [setIndex, leaves_branch, leaves_branch, ihl, ihr]
  | single i left ih => rw [setIndex, leaves_single, leaves_single, ih]

theorem leafDepths_setIndex (node : Node LeafDataT) (index : UInt64)
    : (node.setIndex index).leafDepths = node.leafDepths := by
  induction node generalizing index with
  | leaf i leafData => rfl
  | branch i left right ihl ihr => rw [setIndex, leafDepths, leafDepths, ihl, ihr]
  | single i left ih => rw [setIndex, leafDepths, leafDepths, ih]

theorem index_setIndex (node : Node LeafDataT) (index : UInt64)
    : (node.setIndex index).index = index := by
  cases node <;> rfl

end Node

namespace GenericTree

open Node

section parents

variable {nodes : List (Node LeafDataT)}

theorem leaves_parents (nodes : List (Node LeafDataT))
    : (parents nodes).flatMap leaves = nodes.flatMap leaves := by
  fun_induction parents nodes with
  | case1 => rfl
  | case2 left => simp [leaves_single]
  | case3 left right nodes ih => simp [leaves_branch, ih]

theorem leafDepths_parents {d : Nat} (h : ∀ node ∈ nodes, ∀ depth ∈ node.leafDepths, depth = d)
    : ∀ node ∈ parents nodes, ∀ depth ∈ node.leafDepths, depth = d + 1 := by
  fun_induction parents nodes with
  | case1 => simp
  | case2 left =>
    intro node hnode depth hdepth
    rw [List.mem_singleton] at hnode
    rw [hnode, leafDepths, List.mem_map] at hdepth
    obtain ⟨depth', hdepth', rfl⟩ := hdepth
    rw [h left List.mem_cons_self depth' hdepth']
  | case3 left right nodes ih =>
    intro node hnode depth hdepth
    rw [List.mem_cons] at hnode
    cases hnode with
    | inl hnode =>
      rw [hnode, leafDepths, List.mem_map] at hdepth
      obtain ⟨depth', hdepth', rfl⟩ := hdepth
      rw [List.mem_append] at hdepth'
      congr 1
      cases hdepth' with
      | inl hleft => exact h left List.mem_cons_self depth' hleft
      | inr hright => exact h right (by simp) depth' hright
    | inr hnode => exact ih (fun node hnode => h node (by simp [hnode])) node hnode depth hdepth

theorem leaves_iterate_parents (k : Nat) (leafData : List LeafDataT)
    : (parents^[k] (leafData.map (.leaf 0))).flatMap leaves = leafData := by
  induction k with
  | zero =>
    have hleaf : ∀ leafData : LeafDataT, (Node.leaf 0 leafData).leaves = [leafData] := fun _ => rfl
    rw [Function.iterate_zero, id, List.flatMap_map]
    simp [hleaf]
  | succ k ih => rw [Function.iterate_succ_apply', leaves_parents, ih]

theorem leafDepths_iterate_parents (k : Nat) (leafData : List LeafDataT)
    : ∀ node ∈ parents^[k] (leafData.map (.leaf 0)), ∀ depth ∈ node.leafDepths, depth = k := by
  induction k with
  | zero =>
    intro node hnode depth hdepth
    rw [Function.iterate_zero, id, List.mem_map] at hnode
    obtain ⟨_, _, rfl⟩ := hnode
    exact List.mem_singleton.mp hdepth
  | succ k ih =>
    rw [Function.iterate_succ_apply']
    exact leafDepths_parents ih

/-
The layers are built until there is one with a single node.
-/
theorem buildTreeLoop_parents {r : Nat} (hne : nodes ≠ []) (hle : nodes.length ≤ 2 ^ r)
    (hlt : nodes.length < 2 ^ 32 - 1)
    : ∃ root k, parents^[k] nodes = [root] ∧ k ≤ r
        ∧ ∀ fuel, r + nodes.length + 2 ≤ fuel → buildTreeLoop fuel nodes = some root := by
  induction r generalizing nodes with
  | zero =>
    obtain ⟨root, rfl⟩ := List.length_eq_one_iff.mp
      (show nodes.length = 1 by have := List.length_pos_of_ne_nil hne; omega)
    refine ⟨root, 0, rfl, Nat.le_refl 0, ?_⟩
    intro fuel hfuel
    obtain ⟨fuel, rfl⟩ := Nat.exists_eq_add_of_le' (show 1 ≤ fuel by omega)
    rfl
  | succ r ih =>
    by_cases hone : nodes.length > 1
    . have hlen := length_parents nodes
      have hpow : 2 ^ (r + 1) = 2 ^ r * 2 := Nat.pow_succ ..
      obtain ⟨root, k, hparents, hk, hroot⟩ := @ih (parents nodes)
        (List.ne_nil_of_length_pos (by omega)) (by omega) (by omega)
      refine ⟨root, k + 1, hparents, by omega, ?_⟩
      intro fuel hfuel
      obtain ⟨fuel, rfl⟩ := Nat.exists_eq_add_of_le' (show 1 ≤ fuel by omega)
      have hlayer : getParentNodes fuel nodes = some (parents nodes) := by
        have := getParentNodesLoop_eq hlt fuel 0 (by simp) (by simp; omega) []
        simpa [getParentNodes] using this
      rw [buildTreeLoop, if_pos hone, hlayer]
      apply hroot
      omega
    . obtain ⟨root, rfl⟩ := List.length_eq_one_iff.mp
        (show nodes.length = 1 by have := List.length_pos_of_ne_nil hne; omega)
      refine ⟨root, 0, rfl, Nat.zero_le _, ?_⟩
      intro fuel hfuel
      obtain ⟨fuel, rfl⟩ := Nat.exists_eq_add_of_le' (show 1 ≤ fuel by omega)
      rfl

end parents

section number

-- A layer with its indices
def number : Nat → List (Node LeafDataT) → List (Node LeafDataT)
  | _, [] => []
  | a, node :: nodes => node.setIndex (UInt64.ofNat a) :: number (a + 1) nodes

theorem pushChildren_number (a : Nat) (nodes : List (Node LeafDataT))
    : (number a (parents nodes)).flatMap pushChildren = number (2 * a + 1) nodes := by
  have hleft : ∀ a : Nat, 2 * UInt64.ofNat a + 1 = UInt64.ofNat (2 * a + 1) := by
    intro a
    rw [UInt64.ofNat_add, UInt64.ofNat_mul]
    rfl
  have hright : ∀ a : Nat, 2 * UInt64.ofNat a + 2 = UInt64.ofNat (2 * a + 1 + 1) := by
    intro a
    rw [UInt64.ofNat_add, UInt64.ofNat_add, UInt64.ofNat_mul, UInt64.add_assoc]
    rfl
  fun_induction parents nodes generalizing a with
  | case1 => rfl
  | case2 left =>
    rw [number, number, List.flatMap_cons, List.flatMap_nil, number, number, setIndex, pushChildren,
      hleft]
    rfl
  | case3 left right nodes ih =>
    rw [number, List.flatMap_cons, ih, number, number, setIndex, pushChildren, hleft, hright]
    rfl

theorem pushChildren_number_leaves (a : Nat) (leafData : List LeafDataT)
    : (number a (leafData.map (.leaf 0))).flatMap pushChildren = [] := by
  induction leafData generalizing a with
  | nil => rfl
  | cons leafData leaves ih =>
    rw [List.map_cons, number, List.flatMap_cons, ih]
    rfl

theorem index_number {a : Nat} {nodes : List (Node LeafDataT)} (h : a + nodes.length ≤ 2 ^ 64)
    : ((number a nodes).map index).Pairwise (· < ·)
        ∧ ∀ i ∈ (number a nodes).map index, a ≤ i.toNat ∧ i.toNat < a + nodes.length := by
  induction nodes generalizing a with
  | nil => simp [number]
  | cons node nodes ih =>
    rw [List.length_cons] at h
    have hhead : (UInt64.ofNat a).toNat = a := UInt64.toNat_ofNat_of_lt' (by change a < 2 ^ 64; omega)
    obtain ⟨hsorted, hrange⟩ := @ih (a + 1) (by omega)
    rw [number, List.map_cons, index_setIndex]
    refine ⟨?_, ?_⟩
    . rw [List.pairwise_cons]
      refine ⟨?_, hsorted⟩
      intro i hi
      rw [UInt64.lt_iff_toNat_lt, hhead]
      have := hrange i hi
      omega
    . intro i hi
      rw [List.length_cons]
      cases List.mem_cons.mp hi with
      | inl heq =>
        rw [heq, hhead]
        omega
      | inr hi =>
        have := hrange i hi
        omega

end number

/-
By induction on the layers that are still below: each of them has its indices behind those of the one above.
-/
theorem walk_number (leafData : List LeafDataT) {a k : Nat}
    (hlen : (parents^[k] (leafData.map (.leaf 0))).length ≤ a + 1)
    (hbound : (a + 1) * 2 ^ (k + 1) ≤ 2 ^ 64)
    : ∃ fuel nodes,
        BreadthFirst.walk pushChildren fuel (number a (parents^[k] (leafData.map (.leaf 0))))
            = some (number a (parents^[k] (leafData.map (.leaf 0))) ++ nodes)
          ∧
        ((number a (parents^[k] (leafData.map (.leaf 0))) ++ nodes).map index).Pairwise (· < ·)
          ∧
        ∀ i ∈ (number a (parents^[k] (leafData.map (.leaf 0))) ++ nodes).map index,
          a ≤ i.toNat := by
  induction k generalizing a with
  | zero =>
    have hsum : a + (leafData.map (Node.leaf 0)).length ≤ 2 ^ 64 := by
      rw [Function.iterate_zero, id] at hlen
      omega
    obtain ⟨hsorted, hrange⟩ := index_number hsum
    refine ⟨(number a (leafData.map (Node.leaf 0))).length + 1, [], ?_, ?_, ?_⟩
    . apply BreadthFirst.walk_layer
      have hnone := pushChildren_number_leaves a leafData
      change BreadthFirst.walk pushChildren 1 (List.flatMap pushChildren _) = some []
      rw [hnone]
      rfl
    . rw [List.append_nil]
      exact hsorted
    . rw [List.append_nil]
      intro i hi
      exact (hrange i hi).1
  | succ k ih =>
    rw [Function.iterate_succ_apply'] at *
    generalize hlayer : parents^[k] (leafData.map (Node.leaf 0)) = layer at *
    have hhalf := length_parents layer
    have hpow : (a + 1) * 2 ^ (k + 1 + 1) = (2 * a + 1 + 1) * 2 ^ (k + 1) := by
      rw [Nat.pow_succ, Nat.mul_comm _ 2, ← Nat.mul_assoc]
      congr 1
      omega
    have hge : a + 1 ≤ (a + 1) * 2 ^ (k + 1) := Nat.le_mul_of_pos_right _ (Nat.two_pow_pos _)
    have hdouble : (a + 1) * 2 ^ (k + 1 + 1) = (a + 1) * 2 ^ (k + 1) * 2 := by
      rw [Nat.pow_succ, Nat.mul_assoc]
    have hsum : a + (parents layer).length ≤ 2 ^ 64 := by omega
    obtain ⟨hsorted, hrange⟩ := index_number hsum
    obtain ⟨fuel, nodes, hwalk, hpairwise, hmin⟩ := @ih (2 * a + 1) (by omega) (by omega)
    refine ⟨(number a (parents layer)).length + fuel, number (2 * a + 1) layer ++ nodes, ?_, ?_, ?_⟩
    . apply BreadthFirst.walk_layer
      rw [pushChildren_number]
      exact hwalk
    . rw [List.map_append, List.pairwise_append]
      refine ⟨hsorted, hpairwise, ?_⟩
      intro i hi j hj
      have h1 := hrange i hi
      have h2 := hmin j hj
      rw [UInt64.lt_iff_toNat_lt]
      omega
    . intro i hi
      rw [List.map_append, List.mem_append] at hi
      cases hi with
      | inl hi => exact (hrange i hi).1
      | inr hi =>
        have := hmin i hi
        omega

theorem new_parents {leaves : List LeafDataT} (hne : leaves ≠ []) (hlt : leaves.length < 2 ^ 32 - 1)
    : ∃ root k, parents^[k] (leaves.map (.leaf 0)) = [root] ∧ k ≤ 32
        ∧ ∀ fuel, leaves.length + 34 ≤ fuel → new fuel leaves = some (root.setIndex 0) := by
  obtain ⟨root, k, hparents, hk, hroot⟩ := @buildTreeLoop_parents _ (leaves.map (.leaf 0)) 32
    (by simpa using hne) (by rw [List.length_map]; omega) (by simpa using hlt)
  rw [List.length_map] at hroot
  refine ⟨root, k, hparents, hk, ?_⟩
  intro fuel hfuel
  have hmake : makeLeavesLoop leaves fuel 0 [] = some (leaves.map (.leaf 0)) := by
    have hlt' : leaves.length < 2 ^ 32 := by omega
    have := makeLeavesLoop_eq hlt' fuel 0 (by simp) (by simp; omega) []
    simpa using this
  have hbuild := hroot fuel (by omega)
  simp [new, buildTree, hmake, hbuild]

/--
The tree is built if and only if there are not too many leaves. Its indices are far below `2 ^ 64` then.
-/
theorem traverse_spec (leaves : List LeafDataT) (hne : leaves ≠ [])
    : (∃ fuel, ∀ fuel' ≥ fuel, ∃ root nodes,
        new fuel' leaves = some root
          ∧
        traverseBreadthFirst fuel' root = some nodes
          ∧
        root.traversePreorder.filterMap leafData? = leaves
          ∧
        nodes.Perm root.traversePreorder
          ∧
        (nodes.map index).head? = some 0 ∧ (nodes.map index).Pairwise (· < ·)
          ∧
        ∃ depth, ∀ d ∈ root.leafDepths, d = depth)
        ↔
      leaves.length < 2 ^ 32 - 1 := by
  constructor
  . intro ⟨fuel, hfuel⟩
    obtain ⟨root, nodes, hnew, -⟩ := hfuel fuel (Nat.le_refl _)
    apply Nat.lt_of_not_le
    intro hge
    rw [new, buildTree_eq_none hge] at hnew
    cases hnew
  . intro hlt
    obtain ⟨root, k, hparents, hk, hnew⟩ := new_parents hne hlt
    have hbound : (0 + 1) * 2 ^ (k + 1) ≤ 2 ^ 64 := by
      rw [Nat.zero_add, Nat.one_mul]
      exact Nat.pow_le_pow_right (by decide) (by omega)
    obtain ⟨fuel, nodes, hwalk, hsorted, -⟩ := @walk_number _ leaves 0 k (by rw [hparents]; simp) hbound
    have hleaves := leaves_iterate_parents k leaves
    have hdepths := leafDepths_iterate_parents k leaves
    rw [hparents] at hwalk hsorted hleaves hdepths
    refine ⟨max fuel (leaves.length + 34), ?_⟩
    intro fuel' hfuel'
    have hall : traverseBreadthFirst fuel' (root.setIndex 0) = some (root.setIndex 0 :: nodes) :=
      BreadthFirst.walk_mono (by omega) hwalk
    refine ⟨root.setIndex 0, _, hnew fuel' (by omega), hall, ?_, ?_, ?_, hsorted, k, ?_⟩
    . rw [List.flatMap_singleton, ← leaves_setIndex root 0] at hleaves
      exact hleaves
    . have hperm := BreadthFirst.walk_perm traversePreorder_eq hall
      rw [List.flatMap_singleton] at hperm
      exact hperm
    . rw [List.map_cons, index_setIndex]
      rfl
    . rw [leafDepths_setIndex]
      exact hdepths root List.mem_cons_self

theorem traverse_spec_three
    : ∃ fuel, ∀ fuel' ≥ fuel, ∃ root nodes,
        new fuel' [10, 20, 30] = some root
          ∧
        traverseBreadthFirst fuel' root = some nodes
          ∧
        root.traversePreorder.filterMap leafData? = [10, 20, 30]
          ∧
        nodes.Perm root.traversePreorder
          ∧
        (nodes.map index).head? = some 0 ∧ (nodes.map index).Pairwise (· < ·)
          ∧
        ∃ depth, ∀ d ∈ root.leafDepths, d = depth :=
  (traverse_spec [10, 20, 30] (by simp)).mpr (by decide)

/--
The constructor does not come to an end.
-/
theorem traverse_too_many
    : ¬(∀ leaves : List Nat, leaves ≠ [] → ∃ fuel, ∀ fuel' ≥ fuel, ∃ root,
        new fuel' leaves = some root ∧ root.traversePreorder.filterMap leafData? = leaves) := by
  intro h
  have hlen : (List.replicate (2 ^ 32 - 1) 7).length = 2 ^ 32 - 1 := List.length_replicate
  obtain ⟨fuel, hfuel⟩ := h (List.replicate (2 ^ 32 - 1) 7)
    (List.ne_nil_of_length_pos (by rw [hlen]; decide))
  obtain ⟨root, hnew, -⟩ := hfuel fuel (Nat.le_refl _)
  rw [new, buildTree_eq_none (Nat.le_of_eq hlen.symm)] at hnew
  cases hnew

end GenericTree

end Merkle
end ObTools
