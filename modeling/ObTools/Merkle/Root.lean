import ObTools.Lib.Pairing
import ObTools.Merkle.Tree

/-!
This module contains the proof that the tree that is built layer by layer has the root that is defined
by splitting the leaves at the largest power of two. The loops are the reason why this is so for less
than `2 ^ 32 - 1` leaves only.
-/

namespace ObTools
namespace Merkle

variable {HashT LeafDataT DataT : Type} (funcs : Funcs HashT LeafDataT DataT)

-- The aggregated data of the leaves, in order
def totalData : List LeafDataT → Option DataT
  | [] => none
  | leafData :: leaves =>
    some (leaves.foldl
      (fun data leafData =>
        funcs.branchDataAggregationFunc data (funcs.leafDataAggregationFunc leafData))
      (funcs.leafDataAggregationFunc leafData))

-- The largest power of two below the number of leaves
def splitPoint (n : Nat) : Nat := 2 ^ (n - 1).log2

theorem splitPoint_lt {n : Nat} (h : 2 ≤ n) : splitPoint n < n ∧ n ≤ 2 * splitPoint n := by
  have h1 : 2 ^ (n - 1).log2 ≤ n - 1 := Nat.log2_self_le (by omega)
  have h2 : n - 1 < 2 ^ ((n - 1).log2 + 1) := Nat.lt_log2_self
  rw [Nat.pow_succ] at h2
  unfold splitPoint
  omega

/-
The hash of the root by definition, independent of how the tree is built.
-/
def rootHash : List LeafDataT → Option HashT
  | [] => none
  | [leafData] => some (funcs.leafHashFunc leafData)
  | leafData :: leafData' :: leaves => do
    let k := splitPoint (leaves.length + 2)
    let first := (leafData :: leafData' :: leaves).take k
    let rest := (leafData :: leafData' :: leaves).drop k
    return funcs.branchHashFunc (← rootHash first, ← totalData funcs first)
      (← rootHash rest, ← totalData funcs rest)
termination_by leaves => leaves.length
decreasing_by
  . have := splitPoint_lt (n := leaves.length + 2) (by omega)
    simp only [List.length_take, List.length_cons]
    omega
  . have hpos : 0 < splitPoint (leaves.length + 2) := Nat.two_pow_pos _
    simp only [List.length_drop, List.length_cons]
    omega

section Layers

variable {funcs}

theorem foldl_assoc (h : Std.Associative funcs.branchDataAggregationFunc) (data1 data2 : DataT)
    (leaves : List LeafDataT)
    : leaves.foldl
          (fun data leafData =>
            funcs.branchDataAggregationFunc data (funcs.leafDataAggregationFunc leafData))
          (funcs.branchDataAggregationFunc data1 data2)
        = funcs.branchDataAggregationFunc data1
            (leaves.foldl
              (fun data leafData =>
                funcs.branchDataAggregationFunc data (funcs.leafDataAggregationFunc leafData))
              data2) := by
  induction leaves generalizing data2 with
  | nil => rfl
  | cons leafData leaves ih => rw [List.foldl_cons, List.foldl_cons, h.assoc, ih]

theorem totalData_append (h : Std.Associative funcs.branchDataAggregationFunc)
    {leaves1 leaves2 : List LeafDataT} {data1 data2 : DataT} (h1 : totalData funcs leaves1 = some data1)
    (h2 : totalData funcs leaves2 = some data2)
    : totalData funcs (leaves1 ++ leaves2) = some (funcs.branchDataAggregationFunc data1 data2) := by
  cases leaves1 with
  | nil => simp [totalData] at h1
  | cons leaf1 leaves1 =>
    cases leaves2 with
    | nil => simp [totalData] at h2
    | cons leaf2 leaves2 =>
      simp only [totalData, Option.some.injEq] at h1 h2
      rw [List.cons_append, totalData, List.foldl_append, List.foldl_cons, h1,
        foldl_assoc h, h2]

theorem rootHash_split {leaves : List LeafDataT} (h : 2 ≤ leaves.length)
    {hash1 hash2 : HashT} {data1 data2 : DataT}
    (hhash1 : rootHash funcs (leaves.take (splitPoint leaves.length)) = some hash1)
    (hdata1 : totalData funcs (leaves.take (splitPoint leaves.length)) = some data1)
    (hhash2 : rootHash funcs (leaves.drop (splitPoint leaves.length)) = some hash2)
    (hdata2 : totalData funcs (leaves.drop (splitPoint leaves.length)) = some data2)
    : rootHash funcs leaves = some (funcs.branchHashFunc (hash1, data1) (hash2, data2)) := by
  match leaves, h with
  | leaf1 :: leaf2 :: leaves, _ =>
    rw [List.length_cons, List.length_cons] at hhash1 hdata1 hhash2 hdata2
    rw [rootHash]
    simp [hhash1, hdata1, hhash2, hdata2]

end Layers

-- The hash and the data of a node
def view (node : Node LeafDataT) : HashT × DataT := (node.getHash funcs, node.getData funcs)

-- The hash and the data of a node with two children
def combine (left right : HashT × DataT) : HashT × DataT :=
  (funcs.branchHashFunc left right, funcs.branchDataAggregationFunc left.2 right.2)

/--
By induction on the number of leaves, where both parts are done after one round less.
-/
theorem iterate_pairs_eq (h : Std.Associative funcs.branchDataAggregationFunc) (r : Nat)
    (leaves : List LeafDataT) (hne : leaves ≠ []) (hle : leaves.length ≤ 2 ^ r)
    : ∃ hash data,
        rootHash funcs leaves = some hash
          ∧
        totalData funcs leaves = some data
          ∧
        (Pairing.pairs (combine funcs))^[r]
            (leaves.map fun leafData =>
              (funcs.leafHashFunc leafData, funcs.leafDataAggregationFunc leafData))
          = [(hash, data)] := by
  induction hlen : leaves.length using Nat.strong_induction_on generalizing r leaves with
  | _ n ih =>
  match leaves, hne with
  | [leafData], _ =>
    refine ⟨funcs.leafHashFunc leafData, funcs.leafDataAggregationFunc leafData, ?_, rfl, ?_⟩
    . rw [rootHash]
    . exact Pairing.iterate_pairs_singleton _ _ r
  | leaf1 :: leaf2 :: leaves, _ =>
    generalize hall : leaf1 :: leaf2 :: leaves = all at *
    have htwo : 2 ≤ all.length := by
      rw [← hall]
      simp
    have hsplit := splitPoint_lt htwo
    have hpos : 0 < splitPoint all.length := Nat.two_pow_pos _
    have hlen1 : (all.take (splitPoint all.length)).length = splitPoint all.length := by
      rw [List.length_take]
      omega
    have hlen2 : (all.drop (splitPoint all.length)).length = all.length - splitPoint all.length :=
      List.length_drop
    obtain ⟨hash1, data1, hhash1, hdata1, hpairs1⟩ := ih _ (by omega) (all.length - 1).log2
      (all.take (splitPoint all.length)) (List.ne_nil_of_length_pos (by omega))
      (Nat.le_of_eq hlen1) rfl
    obtain ⟨hash2, data2, hhash2, hdata2, hpairs2⟩ := ih _ (by omega) (all.length - 1).log2
      (all.drop (splitPoint all.length)) (List.ne_nil_of_length_pos (by omega))
      (by rw [hlen2]; change _ ≤ splitPoint all.length; omega) rfl
    have hlog : (all.length - 1).log2 < r := by
      have : 2 ^ (all.length - 1).log2 < 2 ^ r := Nat.lt_of_lt_of_le hsplit.1 hle
      exact (Nat.pow_lt_pow_iff_right (by omega)).mp this
    refine ⟨_, funcs.branchDataAggregationFunc data1 data2,
      rootHash_split htwo hhash1 hdata1 hhash2 hdata2, ?_, ?_⟩
    . rw [← totalData_append h hdata1 hdata2, List.take_append_drop]
    . have hlast := Pairing.iterate_pairs_split (combine funcs)
        (by rw [List.length_map, hlen1]; rfl) hpairs1 hpairs2 hlog
      rw [← List.map_append, List.take_append_drop] at hlast
      exact hlast

namespace GenericTree

-- The layer above some nodes
def parents : List (Node LeafDataT) → List (Node LeafDataT)
  | [] => []
  | [left] => [.single 0 left]
  | left :: right :: nodes => .branch 0 left right :: parents nodes

theorem length_parents (nodes : List (Node LeafDataT))
    : (parents nodes).length = (nodes.length + 1) / 2 := by
  fun_induction parents nodes with
  | case1 => simp
  | case2 left => simp
  | case3 left right nodes ih =>
    simp only [List.length_cons, ih]
    omega

theorem map_view_parents (h : funcs.branchSingleHashFunc = passThroughSingleChildHash)
    (nodes : List (Node LeafDataT))
    : (parents nodes).map (view funcs) = Pairing.pairs (combine funcs) (nodes.map (view funcs)) := by
  fun_induction parents nodes with
  | case1 => rfl
  | case2 left => simp [Pairing.pairs, view, Node.getHash, Node.getData, h, passThroughSingleChildHash]
  | case3 left right nodes ih =>
    simp only [List.map_cons, Pairing.pairs, ih]
    rfl

/-
The counter does not reach its end if there are few enough nodes.
-/
theorem getParentNodesLoop_eq {nodes : List (Node LeafDataT)} (h : nodes.length < 2 ^ 32 - 1)
    (fuel : Nat) (i : UInt32) (hi : i.toNat ≤ nodes.length + 1)
    (hfuel : nodes.length + 2 ≤ i.toNat + 2 * fuel) (done : List (Node LeafDataT))
    : getParentNodesLoop nodes fuel i done = some (done ++ parents (nodes.drop i.toNat)) := by
  induction fuel generalizing i done with
  | zero => omega
  | succ fuel ih =>
    unfold getParentNodesLoop
    by_cases hlt : i.toNat < nodes.length
    . have hone : (i + 1).toNat = i.toNat + 1 := by
        rw [UInt32.toNat_add]
        exact Nat.mod_eq_of_lt (by simp; omega)
      have htwo : (i + 2).toNat = i.toNat + 2 := by
        rw [UInt32.toNat_add]
        exact Nat.mod_eq_of_lt (by simp; omega)
      have ih := fun done => ih (i + 2) (by omega) (by omega) done
      rw [htwo] at ih
      rw [List.getElem?_eq_getElem hlt, hone, List.drop_eq_getElem_cons hlt]
      by_cases hlt' : i.toNat + 1 < nodes.length
      . rw [List.getElem?_eq_getElem hlt', List.drop_eq_getElem_cons hlt']
        dsimp only
        rw [ih, parents, List.append_assoc]
        rfl
      . rw [List.getElem?_eq_none (by omega), List.drop_eq_nil_of_le (by omega)]
        dsimp only
        rw [ih, parents, List.drop_eq_nil_of_le (by omega), parents, List.append_nil]
    . rw [List.getElem?_eq_none (by omega), List.drop_eq_nil_of_le (by omega), parents,
        List.append_nil]

/-
Otherwise it comes back to 0 before it is past the last node.
-/
theorem getParentNodesLoop_eq_none {nodes : List (Node LeafDataT)} (h : 2 ^ 32 - 1 ≤ nodes.length)
    (fuel : Nat) (i : UInt32) (hi : i.toNat % 2 = 0) (done : List (Node LeafDataT))
    : getParentNodesLoop nodes fuel i done = none := by
  induction fuel generalizing i done with
  | zero => rfl
  | succ fuel ih =>
    have hlt : i.toNat < nodes.length := by
      have := i.toNat_lt
      omega
    have hnext : (i + 2).toNat % 2 = 0 := by
      rw [UInt32.toNat_add]
      simp only [UInt32.reduceToNat]
      omega
    unfold getParentNodesLoop
    rw [List.getElem?_eq_getElem hlt]
    split
    . exact ih _ hnext _
    . exact ih _ hnext _
    . contradiction

theorem makeLeavesLoop_eq {leaves : List LeafDataT} (h : leaves.length < 2 ^ 32) (fuel : Nat)
    (i : UInt32) (hi : i.toNat ≤ leaves.length) (hfuel : leaves.length < i.toNat + fuel)
    (done : List (Node LeafDataT))
    : makeLeavesLoop leaves fuel i done = some (done ++ (leaves.drop i.toNat).map (.leaf 0)) := by
  induction fuel generalizing i done with
  | zero => omega
  | succ fuel ih =>
    unfold makeLeavesLoop
    by_cases hlt : i.toNat < leaves.length
    . have hone : (i + 1).toNat = i.toNat + 1 := by
        rw [UInt32.toNat_add]
        exact Nat.mod_eq_of_lt (by simp; omega)
      have ih := fun done => ih (i + 1) (by omega) (by omega) done
      rw [hone] at ih
      rw [List.getElem?_eq_getElem hlt, List.drop_eq_getElem_cons hlt]
      dsimp only
      rw [ih, List.append_assoc]
      rfl
    . rw [List.getElem?_eq_none (by omega), List.drop_eq_nil_of_le (by omega), List.map_nil,
        List.append_nil]

theorem makeLeavesLoop_eq_none {leaves : List LeafDataT} (h : 2 ^ 32 ≤ leaves.length) (fuel : Nat)
    (i : UInt32) (done : List (Node LeafDataT))
    : makeLeavesLoop leaves fuel i done = none := by
  induction fuel generalizing i done with
  | zero => rfl
  | succ fuel ih =>
    have hlt : i.toNat < leaves.length := by
      have := i.toNat_lt
      omega
    unfold makeLeavesLoop
    rw [List.getElem?_eq_getElem hlt]
    exact ih _ _

/-
After each round there is a layer with half the number of nodes.
-/
theorem buildTreeLoop_eq (h : funcs.branchSingleHashFunc = passThroughSingleChildHash) (r fuel : Nat)
    (nodes : List (Node LeafDataT)) (hne : nodes ≠ []) (hle : nodes.length ≤ 2 ^ r)
    (hlt : nodes.length < 2 ^ 32 - 1) (hfuel : r + nodes.length + 2 ≤ fuel)
    : ∃ root, buildTreeLoop fuel nodes = some root
        ∧
      (Pairing.pairs (combine funcs))^[r] (nodes.map (view funcs)) = [view funcs root] := by
  induction r generalizing fuel nodes with
  | zero =>
    obtain ⟨fuel, rfl⟩ := Nat.exists_eq_add_of_lt (show 0 < fuel by omega)
    obtain ⟨root, rfl⟩ := List.length_eq_one_iff.mp
      (show nodes.length = 1 by have := List.length_pos_of_ne_nil hne; omega)
    exact ⟨root, rfl, rfl⟩
  | succ r ih =>
    obtain ⟨fuel, rfl⟩ := Nat.exists_eq_add_of_lt (show 0 < fuel by omega)
    rw [Nat.zero_add]
    by_cases hone : nodes.length > 1
    . have hlayer : getParentNodes fuel nodes = some (parents nodes) := by
        have := getParentNodesLoop_eq hlt fuel 0 (by simp) (by simp; omega) []
        simpa [getParentNodes] using this
      have hlen := length_parents nodes
      have hpow : 2 ^ (r + 1) = 2 ^ r * 2 := Nat.pow_succ ..
      obtain ⟨root, hroot, hpairs⟩ := ih fuel (parents nodes)
        (List.ne_nil_of_length_pos (by omega)) (by omega) (by omega) (by omega)
      refine ⟨root, ?_, ?_⟩
      . rw [buildTreeLoop, if_pos hone, hlayer]
        exact hroot
      . rw [Function.iterate_succ_apply, ← map_view_parents funcs h]
        exact hpairs
    . obtain ⟨root, rfl⟩ := List.length_eq_one_iff.mp
        (show nodes.length = 1 by have := List.length_pos_of_ne_nil hne; omega)
      exact ⟨root, rfl, Pairing.iterate_pairs_singleton _ _ _⟩

theorem length_of_makeLeavesLoop {leaves : List LeafDataT} (h : leaves.length < 2 ^ 32) {fuel : Nat}
    {i : UInt32} {done nodes : List (Node LeafDataT)}
    (hmake : makeLeavesLoop leaves fuel i done = some nodes)
    : done.length + leaves.length ≤ nodes.length + i.toNat := by
  induction fuel generalizing i done with
  | zero => cases hmake
  | succ fuel ih =>
    unfold makeLeavesLoop at hmake
    split at hmake
    . next leafData hget =>
      have hlt := (List.getElem?_eq_some_iff.mp hget).1
      have hone : (i + 1).toNat = i.toNat + 1 := by
        rw [UInt32.toNat_add]
        exact Nat.mod_eq_of_lt (by simp; omega)
      have ih := ih hmake
      rw [hone, List.length_append, List.length_singleton] at ih
      omega
    . next hget =>
      have hge := List.getElem?_eq_none_iff.mp hget
      cases hmake
      omega

theorem buildTree_eq_none {leaves : List LeafDataT} (h : 2 ^ 32 - 1 ≤ leaves.length) (fuel : Nat)
    : buildTree fuel leaves = none := by
  unfold buildTree
  by_cases hlt : leaves.length < 2 ^ 32
  . cases hmake : makeLeavesLoop leaves fuel 0 [] with
    | none => rfl
    | some nodes =>
      have hlen := length_of_makeLeavesLoop hlt hmake
      rw [List.length_nil, UInt32.toNat_zero] at hlen
      cases fuel with
      | zero => rfl
      | succ fuel =>
        have hlayer : getParentNodes fuel nodes = none :=
          getParentNodesLoop_eq_none (by omega) fuel 0 rfl []
        rw [Option.bind_eq_bind, Option.bind_some, buildTreeLoop, if_pos (by omega), hlayer]
        rfl
  . rw [makeLeavesLoop_eq_none (by omega)]
    rfl

end GenericTree

namespace Node

-- The index of a node is of no importance for it
theorem getData_setIndex (node : Node LeafDataT) (index : UInt64)
    : (node.setIndex index).getData funcs = node.getData funcs := by
  induction node generalizing index with
  | leaf i leafData => rfl
  | branch i left right ihl ihr => simp [setIndex, getData, ihl, ihr]
  | single i left ih => simp [setIndex, getData, ih]

theorem getHash_setIndex (node : Node LeafDataT) (index : UInt64)
    : (node.setIndex index).getHash funcs = node.getHash funcs := by
  induction node generalizing index with
  | leaf i leafData => rfl
  | branch i left right ihl ihr => simp [setIndex, getHash, getData_setIndex, ihl, ihr]
  | single i left ih => simp [setIndex, getHash, getData_setIndex, ih]

end Node

namespace GenericTree

theorem new_eq (hassoc : Std.Associative funcs.branchDataAggregationFunc)
    (hsingle : funcs.branchSingleHashFunc = passThroughSingleChildHash) {leaves : List LeafDataT}
    (hne : leaves ≠ []) (hlt : leaves.length < 2 ^ 32 - 1) (fuel : Nat)
    (hfuel : 2 * leaves.length + 2 ≤ fuel)
    : ∃ root, new fuel leaves = some root
        ∧
      some (root.getHash funcs) = rootHash funcs leaves
        ∧
      some (root.getData funcs) = totalData funcs leaves := by
  have hle : leaves.length ≤ 2 ^ leaves.length := Nat.le_of_lt Nat.lt_two_pow_self
  have hmake : makeLeavesLoop leaves fuel 0 [] = some (leaves.map (.leaf 0)) := by
    have hlt' : leaves.length < 2 ^ 32 := by omega
    have := makeLeavesLoop_eq hlt' fuel 0 (by simp) (by simp; omega) []
    simpa using this
  obtain ⟨root, hroot, hpairs⟩ := buildTreeLoop_eq funcs hsingle leaves.length fuel
    (leaves.map (.leaf 0)) (by simpa using hne) (by simpa using hle) (by simpa using hlt)
    (by simp; omega)
  obtain ⟨hash, data, hhash, hdata, hpairs'⟩ := iterate_pairs_eq funcs hassoc leaves.length leaves
    hne hle
  have hview : [view funcs root] = [(hash, data)] := by
    rw [← hpairs, ← hpairs', List.map_map]
    rfl
  injection hview with hview
  injection hview with hview1 hview2
  refine ⟨root.setIndex 0, ?_, ?_, ?_⟩
  . simp [new, buildTree, hmake, hroot]
  . rw [Node.getHash_setIndex, hview1, hhash]
  . rw [Node.getData_setIndex, hview2, hdata]

/--
The tree is built and has the root that is defined recursively if and only if there are not too many
leaves.
-/
theorem root_spec (leaves : List LeafDataT) (hne : leaves ≠ [])
    (hassoc : Std.Associative funcs.branchDataAggregationFunc)
    (hsingle : funcs.branchSingleHashFunc = passThroughSingleChildHash)
    : (∃ fuel, ∀ fuel' ≥ fuel, ∃ root,
        new fuel' leaves = some root
          ∧
        some (root.getHash funcs) = rootHash funcs leaves
          ∧
        some (root.getData funcs) = totalData funcs leaves)
        ↔
      leaves.length < 2 ^ 32 - 1 := by
  constructor
  . intro ⟨fuel, hfuel⟩
    obtain ⟨root, hnew, -⟩ := hfuel fuel (Nat.le_refl _)
    apply Nat.lt_of_not_le
    intro hge
    rw [new, buildTree_eq_none hge] at hnew
    cases hnew
  . intro hlt
    exact ⟨2 * leaves.length + 2, fun fuel' hfuel => new_eq funcs hassoc hsingle hne hlt fuel' hfuel⟩

-- The leaves are their values, and a hash is the sequence of what has been hashed
def sumFuncs : Funcs (List Nat) Nat Nat where
  leafDataAggregationFunc := id
  leafHashFunc := fun n => [n]
  branchHashFunc := fun left right => left.1 ++ [left.2] ++ right.1 ++ [right.2]
  branchDataAggregationFunc := (· + ·)

theorem root_spec_three
    : ∃ fuel, ∀ fuel' ≥ fuel, ∃ root,
        new fuel' [10, 20, 30] = some root
          ∧
        some (root.getHash sumFuncs) = some [10, 10, 20, 20, 30, 30, 30]
          ∧
        some (root.getData sumFuncs) = some 60 := by
  have hhash : rootHash sumFuncs [10, 20, 30] = some [10, 10, 20, 20, 30, 30, 30] := by
    have hpoint : splitPoint 3 = 2 ∧ splitPoint 2 = 1 := by decide
    simp [rootHash, hpoint, totalData, sumFuncs]
  have hspec := (root_spec sumFuncs [10, 20, 30] (by simp) ⟨Nat.add_assoc⟩ rfl).mpr (by decide)
  rw [hhash] at hspec
  exact hspec

/--
With `2 ^ 32 - 1` leaves the counter for the first layer jumps from the last leaf to the first.
-/
theorem new_does_not_end
    : ¬(∀ leaves : List Nat, leaves ≠ [] → ∃ fuel, ∀ fuel' ≥ fuel, ∃ root,
        new fuel' leaves = some root
          ∧
        some (root.getHash sumFuncs) = rootHash sumFuncs leaves
          ∧
        some (root.getData sumFuncs) = totalData sumFuncs leaves) := by
  intro h
  have hlen : (List.replicate (2 ^ 32 - 1) 7).length = 2 ^ 32 - 1 := List.length_replicate
  obtain ⟨fuel, hfuel⟩ := h (List.replicate (2 ^ 32 - 1) 7)
    (List.ne_nil_of_length_pos (by rw [hlen]; decide))
  obtain ⟨root, hnew, -⟩ := hfuel fuel (Nat.le_refl _)
  rw [new, buildTree_eq_none (Nat.le_of_eq hlen.symm)] at hnew
  cases hnew

end GenericTree

end Merkle
end ObTools
