import Mathlib.Data.List.Basic
import ObTools.Lib.BreadthFirst

/-!
This module contains the model of `Merkle::SumTree`, of its alias `Merkle::Tree` and of the walks through a tree, which
are given by the nodes that the callback is called with. A loop with an `unsigned` counter runs with fuel, since it does
not end if there are too many nodes for it.
-/

namespace ObTools
namespace Merkle

-- The default for a node with a single child
def passThroughSingleChildHash {HashT DataT : Type} (left : HashT × DataT) : HashT := left.1

/-
The template parameters. A function that is given nodes knows them by their hash and their data.
-/
structure Funcs (HashT LeafDataT DataT : Type) where
  leafDataAggregationFunc : LeafDataT → DataT
  leafHashFunc : LeafDataT → HashT
  branchHashFunc : HashT × DataT → HashT × DataT → HashT
  branchDataAggregationFunc : DataT → DataT → DataT
  branchSingleHashFunc : HashT × DataT → HashT := passThroughSingleChildHash

inductive Node (LeafDataT : Type) where
  | leaf (index : UInt64) (leafData : LeafDataT)
  | branch (index : UInt64) (left right : Node LeafDataT)
  -- Only left
  | single (index : UInt64) (left : Node LeafDataT)
deriving Repr

namespace Node

variable {HashT LeafDataT DataT : Type} (funcs : Funcs HashT LeafDataT DataT)

def getData : Node LeafDataT → DataT
  | leaf _ leafData => funcs.leafDataAggregationFunc leafData
  | branch _ left right => funcs.branchDataAggregationFunc left.getData right.getData
  | single _ left => left.getData

def getHash : Node LeafDataT → HashT
  | leaf _ leafData => funcs.leafHashFunc leafData
  | branch _ left right =>
    funcs.branchHashFunc (left.getHash, left.getData funcs) (right.getHash, right.getData funcs)
  | single _ left => funcs.branchSingleHashFunc (left.getHash, left.getData funcs)

-- According to the 2i+1, 2i+2 scheme
def setIndex (index : UInt64) : Node LeafDataT → Node LeafDataT
  | leaf _ leafData => leaf index leafData
  | branch _ left right =>
    branch index (left.setIndex (2 * index + 1)) (right.setIndex (2 * index + 2))
  | single _ left => single index (left.setIndex (2 * index + 1))

end Node

namespace GenericTree

variable {LeafDataT : Type}

/-
The nodes are moved into their parents. A loop that comes round again would find nothing there, but it
does not end anyway.
-/
def getParentNodesLoop (nodes : List (Node LeafDataT))
    : Nat → UInt32 → List (Node LeafDataT) → Option (List (Node LeafDataT))
  | 0, _, _ => none
  | fuel + 1, i, parents =>
    match nodes[i.toNat]?, nodes[(i + 1).toNat]? with
    -- Both left and right
    | some left, some right =>
      getParentNodesLoop nodes fuel (i + 2) (parents ++ [.branch 0 left right])
    -- Only left
    | some left, none => getParentNodesLoop nodes fuel (i + 2) (parents ++ [.single 0 left])
    | none, _ => some parents

def getParentNodes (fuel : Nat) (nodes : List (Node LeafDataT)) : Option (List (Node LeafDataT)) :=
  getParentNodesLoop nodes fuel 0 []

-- The first loop of `build_tree`
def makeLeavesLoop (leaves : List LeafDataT)
    : Nat → UInt32 → List (Node LeafDataT) → Option (List (Node LeafDataT))
  | 0, _, _ => none
  | fuel + 1, i, nodes =>
    match leaves[i.toNat]? with
    | some leafData => makeLeavesLoop leaves fuel (i + 1) (nodes ++ [.leaf 0 leafData])
    | none => some nodes

-- The second loop of `build_tree`
def buildTreeLoop : Nat → List (Node LeafDataT) → Option (Node LeafDataT)
  | 0, _ => none
  | fuel + 1, nodes =>
    if nodes.length > 1 then do
      buildTreeLoop fuel (← getParentNodes fuel nodes)
    else
      nodes[0]?

def buildTree (fuel : Nat) (leaves : List LeafDataT) : Option (Node LeafDataT) := do
  buildTreeLoop fuel (← makeLeavesLoop leaves fuel 0 [])

-- The root of the tree that is constructed
def new (fuel : Nat) (leaves : List LeafDataT) : Option (Node LeafDataT) := do
  return (← buildTree fuel leaves).setIndex 0

end GenericTree

namespace Node

variable {LeafDataT : Type}

def index : Node LeafDataT → UInt64
  | leaf index _ => index
  | branch index _ _ => index
  | single index _ => index

-- The leaf data, `is_leaf` if there is any
def leafData? : Node LeafDataT → Option LeafDataT
  | leaf _ leafData => some leafData
  | branch _ _ _ => none
  | single _ _ => none

def traversePreorder : Node LeafDataT → List (Node LeafDataT)
  | leaf index leafData => [leaf index leafData]
  | branch index left right =>
    branch index left right :: (left.traversePreorder ++ right.traversePreorder)
  | single index left => single index left :: left.traversePreorder

-- What is pushed, in this order
def pushChildren : Node LeafDataT → List (Node LeafDataT)
  | leaf _ _ => []
  | branch _ left right => [left, right]
  | single _ left => [left]

-- How far below the node its leaves are
def leafDepths : Node LeafDataT → List Nat
  | leaf _ _ => [0]
  | branch _ left right => (left.leafDepths ++ right.leafDepths).map (· + 1)
  | single _ left => left.leafDepths.map (· + 1)

end Node

namespace GenericTree

variable {LeafDataT : Type}

def traverseBreadthFirst (fuel : Nat) (root : Node LeafDataT) : Option (List (Node LeafDataT)) :=
  BreadthFirst.walk Node.pushChildren fuel [root]

end GenericTree

def leafDataIsHashFunc {HashT : Type} (hash : HashT) : HashT := hash

namespace Tree

variable {HashT : Type}

/-
What the alias makes of its parameters: `Leaf<HashT>` has the default for its hash function.
-/
def funcs (branchHashFunc : HashT × Unit → HashT × Unit → HashT) (_leafHashFunc : HashT → HashT)
    : Funcs HashT HashT Unit where
  leafDataAggregationFunc := fun _ => ()
  leafHashFunc := leafDataIsHashFunc
  branchHashFunc := branchHashFunc
  branchDataAggregationFunc := fun _ _ => ()

def getHash (branchHashFunc : HashT × Unit → HashT × Unit → HashT) (leafHashFunc : HashT → HashT)
    (fuel : Nat) (leaves : List HashT) : Option HashT := do
  return (← GenericTree.new fuel leaves).getHash (funcs branchHashFunc leafHashFunc)

end Tree

end Merkle
end ObTools
