import Mathlib.Algebra.Group.Nat.Defs
import Mathlib.Logic.Function.Basic
import ObTools.Hash.Check

/-!
This module contains the model of `Hash::GeneralTable`, which is cut into blocks by a part of the ID, and of
`Hash::Table`, where IDs are integers. It then contains the proof that a table refines a map from the parts of the IDs
that are looked at, and which integers these parts keep apart.
-/

namespace ObTools
namespace Hash

/-
The helper gives the number of the block and the ID inside of the block.
-/
structure TableHelper (ID HashID : Type) (nbits : Nat) (blockSize : Int) where
  getBlockNo : ID → Nat
  getHashId : ID → HashID
  block : Helper HashID blockSize

structure GeneralTable (ID HashID : Type) where
  nbits : Nat
  blockSize : Int
  helper : TableHelper ID HashID nbits blockSize
  table : Nat → Block HashID
  built : Bool

namespace GeneralTable

variable {ID HashID : Type}

-- The constructor. `mem` is what `malloc` returned for each block, and `built` whether it returned something each time.
def new {nbits : Nat} {blockSize : Int} (helper : TableHelper ID HashID nbits blockSize)
    (mem : Nat → Int → Entry HashID) (built : Bool) : GeneralTable ID HashID where
  nbits := nbits
  blockSize := blockSize
  helper := helper
  table i := Block.new blockSize helper.block (mem i)
  built := built

def setBlock (t : GeneralTable ID HashID) (blockNo : Nat) (block : Block HashID) : GeneralTable ID HashID :=
  { t with table := Function.update t.table blockNo block }

-- Whether successful
def add (t : GeneralTable ID HashID) (id : ID) (index : Int) : Bool × GeneralTable ID HashID :=
  if ¬t.built then
    (false, t)
  else
    let blockNo := t.helper.getBlockNo id
    let (added, block) := (t.table blockNo).add (t.helper.getHashId id) index
    (added, t.setBlock blockNo block)

variable [DecidableEq HashID]

def lookup (t : GeneralTable ID HashID) (id : ID) : Option Int :=
  if ¬t.built then
    some invalidIndex
  else
    (t.table (t.helper.getBlockNo id)).lookup (t.helper.getHashId id)

-- Returns the previous index, or `invalidIndex`
def lookupAndRemove (t : GeneralTable ID HashID) (id : ID) : Option (Int × GeneralTable ID HashID) :=
  if ¬t.built then
    some (invalidIndex, t)
  else
    let blockNo := t.helper.getBlockNo id
    ((t.table blockNo).remove (t.helper.getHashId id)).map fun (index, block) => (index, t.setBlock blockNo block)

-- Returns whether found and deleted
def remove (t : GeneralTable ID HashID) (id : ID) : Option (Bool × GeneralTable ID HashID) :=
  t.lookupAndRemove id |>.map fun (index, t) => (index ≠ invalidIndex, t)

omit [DecidableEq HashID] in
-- Whether all of the blocks are valid
def check [ToString HashID] (t : GeneralTable ID HashID) : Option Bool :=
  (List.range (2 ^ t.nbits)).foldlM (fun ok i => (t.table i).check.map fun res => ok && res.1) true

-- What is looked at of an ID
def key (t : GeneralTable ID HashID) (id : ID) : Nat × HashID := (t.helper.getBlockNo id, t.helper.getHashId id)

/-
The states of a table and the map its callers have in mind.
-/
inductive Reachable {nbits : Nat} {blockSize : Int} (helper : TableHelper ID HashID nbits blockSize)
    (mem : Nat → Int → Entry HashID) (built : Bool)
    : GeneralTable ID HashID → (Nat × HashID → Int) → Prop where
  | new : Reachable helper mem built (new helper mem built) fun _ => invalidIndex
  | add {t : GeneralTable ID HashID} {m : Nat × HashID → Int} {id : ID} {index : Int}
      : Reachable helper mem built t m → m (t.key id) = invalidIndex → index ≠ invalidIndex →
        Reachable helper mem built (t.add id index).2
          (if (t.add id index).1 then Function.update m (t.key id) index else m)
  | remove {t t' : GeneralTable ID HashID} {m : Nat × HashID → Int} {id : ID} {index : Int}
      : Reachable helper mem built t m → t.lookupAndRemove id = some (index, t') →
        Reachable helper mem built t' (Function.update m (t.key id) invalidIndex)

/-
Each block refines its part of the map.
-/
structure Inv (t : GeneralTable ID HashID) (m : Nat × HashID → Int) : Prop where
  blocks : ∀ blockNo, (t.table blockNo).Inv fun hashId => m (blockNo, hashId)
  size : ∀ blockNo, (t.table blockNo).size = t.blockSize
  built : t.built = false → ∀ k, m k = invalidIndex

variable {t : GeneralTable ID HashID} {m : Nat × HashID → Int}

theorem Inv.setBlock (h : t.Inv m) {blockNo : Nat} {block : Block HashID} {hashId : HashID} {index : Int}
    (hbuilt : t.built = true)
    (hblock : block.Inv (Function.update (fun hashId => m (blockNo, hashId)) hashId index))
    (hsize : block.size = t.blockSize)
    : (t.setBlock blockNo block).Inv (Function.update m (blockNo, hashId) index) where
  blocks := by
    intro i
    change (Function.update t.table blockNo block i).Inv _
    by_cases hi : i = blockNo
    . subst hi
      rw [Function.update_self]
      convert hblock using 1
      funext other
      rw [Function.update_apply, Function.update_apply]
      simp only [Prod.mk.injEq, true_and]
    . rw [Function.update_of_ne hi]
      convert h.blocks i using 1
      funext other
      rw [Function.update_of_ne]
      rintro heq
      exact hi (congrArg Prod.fst heq)
  size := by
    intro i
    change (Function.update t.table blockNo block i).size = t.blockSize
    by_cases hi : i = blockNo
    . rw [hi, Function.update_self]
      exact hsize
    . rw [Function.update_of_ne hi]
      exact h.size i
  built := fun hfalse => absurd (hbuilt.symm.trans hfalse) nofun

omit [DecidableEq HashID] in
theorem new_inv {nbits : Nat} {blockSize : Int} {helper : TableHelper ID HashID nbits blockSize}
    {mem : Nat → Int → Entry HashID} {built : Bool} (hsize : 1 ≤ blockSize)
    : (new helper mem built).Inv fun _ => invalidIndex where
  blocks := fun _ => Block.new_inv hsize
  size := fun _ => rfl
  built := fun _ _ => rfl

theorem lookup_eq (h : t.Inv m) (id : ID) : t.lookup id = some (m (t.key id)) := by
  unfold lookup
  cases hbuilt : t.built with
  | false =>
    rw [h.built hbuilt]
    rfl
  | true => exact Block.lookup_eq (h.blocks _) _

theorem lookupAndRemove_eq (h : t.Inv m) (id : ID)
    : ∃ t', t.lookupAndRemove id = some (m (t.key id), t') ∧ t'.Inv (Function.update m (t.key id) invalidIndex)
        ∧ (∀ x, t'.key x = t.key x) ∧ t'.blockSize = t.blockSize ∧ t'.built = t.built := by
  unfold lookupAndRemove
  cases hbuilt : t.built with
  | false =>
    have hm := h.built hbuilt (t.key id)
    refine ⟨t, ?_, ?_, fun _ => rfl, rfl, hbuilt⟩
    . rw [hm]
      rfl
    . rw [← hm, Function.update_eq_self]
      exact h
  | true =>
    obtain ⟨block, hremove, hinv, hsame⟩ := Block.remove_eq (h.blocks (t.helper.getBlockNo id)) (t.helper.getHashId id)
    refine ⟨t.setBlock (t.helper.getBlockNo id) block, ?_, ?_, fun _ => rfl, rfl, hbuilt⟩
    . dsimp only
      rw [if_neg (by simp), hremove]
      rfl
    . exact h.setBlock hbuilt hinv (hsame.size_eq.trans (h.size _))

def Full (t : GeneralTable ID HashID) (blockNo : Nat) : Prop :=
  ∀ i, 0 ≤ i → i < t.blockSize → ((t.table blockNo).table i).used

omit [DecidableEq HashID] in
theorem add_frame (t : GeneralTable ID HashID) (id : ID) (index : Int)
    : (∀ x, (t.add id index).2.key x = t.key x) ∧ (t.add id index).2.blockSize = t.blockSize
        ∧ (t.add id index).2.built = t.built := by
  unfold add
  split <;> exact ⟨fun _ => rfl, rfl, rfl⟩

theorem add_eq (h : t.Inv m) {id : ID} {index : Int} (hfresh : m (t.key id) = invalidIndex)
    (hindex : index ≠ invalidIndex)
    : ((t.add id index).1 = true ∧ (t.add id index).2.Inv (Function.update m (t.key id) index)
        ∧ ¬(t.built = false ∨ t.Full (t.key id).1))
      ∨ ((t.add id index).1 = false ∧ (t.add id index).2.Inv m ∧ (t.built = false ∨ t.Full (t.key id).1)) := by
  unfold add
  cases hbuilt : t.built with
  | false => exact .inr ⟨rfl, h, .inl rfl⟩
  | true =>
    have hsize := (Block.add_sameHelper (t.table (t.helper.getBlockNo id)) (t.helper.getHashId id) index).size_eq
    have hblockSize := h.size (t.helper.getBlockNo id)
    rcases Block.add_eq (h.blocks (t.helper.getBlockNo id)) hfresh hindex with
      ⟨hadded, hinv, i, hi, hlt, hunused⟩ | ⟨hadd, hfull⟩
    . refine .inl ⟨hadded, h.setBlock hbuilt hinv (hsize.trans hblockSize), ?_⟩
      rintro (hfalse | hfull)
      . cases hfalse
      . exact hunused (hfull i hi (hblockSize ▸ hlt))
    . refine .inr ⟨congrArg Prod.fst hadd, ?_, .inr fun i hi hlt => hfull i hi (hblockSize.symm ▸ hlt)⟩
      have hsame : t.setBlock (t.helper.getBlockNo id)
          ((t.table (t.helper.getBlockNo id)).add (t.helper.getHashId id) index).2 = t := by
        rw [hadd]
        exact congrArg (fun table => { t with table }) (Function.update_eq_self _ _)
      dsimp only
      rw [if_neg (by simp), hsame]
      exact h

theorem Reachable.inv {nbits : Nat} {blockSize : Int} {helper : TableHelper ID HashID nbits blockSize}
    {mem : Nat → Int → Entry HashID} {built : Bool} (hsize : 1 ≤ blockSize) (h : Reachable helper mem built t m)
    : t.Inv m ∧ (∀ x, t.key x = (helper.getBlockNo x, helper.getHashId x)) ∧ t.blockSize = blockSize
        ∧ t.built = built := by
  induction h with
  | new => exact ⟨new_inv hsize, fun _ => rfl, rfl, rfl⟩
  | @add t m id index _ hfresh hindex ih =>
    obtain ⟨hinv, hkey, hblockSize, hbuilt⟩ := ih
    obtain ⟨hkey', hblockSize', hbuilt'⟩ := add_frame t id index
    refine ⟨?_, fun x => (hkey' x).trans (hkey x), hblockSize'.trans hblockSize, hbuilt'.trans hbuilt⟩
    rcases add_eq hinv hfresh hindex with ⟨hadded, hadd, -⟩ | ⟨hadded, hadd, -⟩
    . rw [if_pos hadded]
      exact hadd
    . rw [if_neg (by simp [hadded])]
      exact hadd
  | @remove t t' m id index _ hremove ih =>
    obtain ⟨hinv, hkey, hblockSize, hbuilt⟩ := ih
    obtain ⟨t'', heq, hinv', hkey', hblockSize', hbuilt'⟩ := lookupAndRemove_eq hinv id
    cases heq.symm.trans hremove
    exact ⟨hinv', fun x => (hkey' x).trans (hkey x), hblockSize'.trans hblockSize, hbuilt'.trans hbuilt⟩

omit [DecidableEq HashID] in
theorem check_eq [ToString HashID] (h : t.Inv m) : t.check = some true := by
  unfold check
  generalize List.range (2 ^ t.nbits) = blocks
  induction blocks with
  | nil => rfl
  | cons i blocks ih =>
    rw [List.foldlM_cons, Block.check_eq (h.blocks i)]
    exact ih

/--
A table that is built or not is a map from the parts of the IDs that are looked at. Nothing is added where the block is
full, however empty the others are.
-/
theorem Inv.refines_map (h : t.Inv m)
    : (∀ id, t.lookup id = some (m (t.key id)))
      ∧ (∀ id, ∃ t', t.lookupAndRemove id = some (m (t.key id), t')
        ∧ ∀ x, t'.lookup x = some (if t.key x = t.key id then invalidIndex else m (t.key x)))
      ∧ (∀ id index, m (t.key id) = invalidIndex → index ≠ invalidIndex →
        ((t.add id index).1 = false ↔ t.built = false ∨ t.Full (t.key id).1)
          ∧ ∀ x, (t.add id index).2.lookup x
              = some (if (t.add id index).1 = true ∧ t.key x = t.key id then index else m (t.key x))) := by
  refine ⟨lookup_eq h, fun id => ?_, fun id index hfresh hindex => ?_⟩
  . obtain ⟨t', heq, hinv, hkey, -⟩ := lookupAndRemove_eq h id
    refine ⟨t', heq, fun x => ?_⟩
    rw [lookup_eq hinv, hkey, Function.update_apply]
  . obtain ⟨hkey, -⟩ := add_frame t id index
    rcases add_eq h hfresh hindex with ⟨hadded, hinv, hroom⟩ | ⟨hadded, hinv, hfull⟩
    . refine ⟨?_, fun x => ?_⟩
      . rw [hadded]
        exact ⟨nofun, fun hfull => absurd hfull hroom⟩
      . rw [lookup_eq hinv, hkey, hadded, Function.update_apply]
        simp only [true_and]
    . refine ⟨⟨fun _ => hfull, fun _ => hadded⟩, fun x => ?_⟩
      rw [lookup_eq hinv, hkey, hadded, if_neg (fun h => absurd h.1 nofun)]

end GeneralTable

/-
Integers: the lowest bits give the block, and the next ones are the ID inside of it.
-/

namespace Table

def helper (nbits hashBits : Nat) (blockSize : Int) (h : 1 ≤ blockSize) : TableHelper Nat Nat nbits blockSize where
  getBlockNo id := id &&& ((1 <<< nbits) - 1)
  getHashId id := (id >>> nbits) % 2 ^ hashBits
  block := integerIDHelper blockSize h

-- Maximum ID bits we can support
def maxIdBits (nbits hashBits : Nat) : Nat := nbits + hashBits

variable {nbits hashBits : Nat} {blockSize : Int}

theorem key_eq_iff (hsize : 1 ≤ blockSize) (x y : Nat)
    : ((helper nbits hashBits blockSize hsize).getBlockNo x, (helper nbits hashBits blockSize hsize).getHashId x)
          = ((helper nbits hashBits blockSize hsize).getBlockNo y, (helper nbits hashBits blockSize hsize).getHashId y)
        ↔ x % 2 ^ maxIdBits nbits hashBits = y % 2 ^ maxIdBits nbits hashBits := by
  have hpos : 0 < 2 ^ nbits := Nat.two_pow_pos nbits
  unfold helper maxIdBits
  dsimp only
  rw [Nat.one_shiftLeft, Nat.and_two_pow_sub_one_eq_mod, Nat.and_two_pow_sub_one_eq_mod, Nat.shiftRight_eq_div_pow,
    Nat.shiftRight_eq_div_pow, Nat.pow_add, Nat.mod_mul, Nat.mod_mul, Prod.mk.injEq]
  constructor
  . rintro ⟨hlow, hhigh⟩
    rw [hlow, hhigh]
  . intro heq
    have hlow := congrArg (· % 2 ^ nbits) heq
    have hhigh := congrArg (· / 2 ^ nbits) heq
    simpa [Nat.add_mul_div_left _ _ hpos, Nat.div_eq_of_lt (Nat.mod_lt _ hpos)] using And.intro hlow hhigh

end Table

end Hash
end ObTools
