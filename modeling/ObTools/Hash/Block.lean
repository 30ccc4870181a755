import Mathlib.Data.List.Nodup
import Mathlib.Data.List.Perm.Basic
import Mathlib.Logic.Function.Basic

/-!
This module contains the model of `Hash::Block` and of the parts it is made of. A block is a coalesced
chain hash: every entry of the table is either on the freelist or on a collision chain, and the
place an ID hashes to may be in the middle of a chain that started somewhere else.

The loops of the source that only stop at an end marker take an explicit amount of fuel and return
`none` if they are still running when it is used up.

It then contains what each operation of a block does to the table, the freelist and the helper,
one entry at a time. All later proofs about blocks use these lemmas and do not unfold the operations.
-/

namespace ObTools
namespace Hash

-- Marks an unused entry, and is the result for an ID that is not there.
def invalidIndex : Int := -1

-- Marks the end of a chain or of the freelist.
def invalidHashIndex : Int := -1

structure Entry (ID : Type) where
  id : ID
  prev : Int
  next : Int
  head : Int
  index : Int

def Entry.used {ID : Type} (e : Entry ID) : Prop := e.index ≠ invalidIndex

instance {ID : Type} (e : Entry ID) : Decidable e.used :=
  inferInstanceAs (Decidable (e.index ≠ invalidIndex))

-- What a block needs from the ID helper: a place in the block for every ID.
structure Helper (ID : Type) (size : Int) where
  getStart : ID → Int
  getStart_nonneg : ∀ id, 0 ≤ getStart id
  getStart_lt : ∀ id, getStart id < size

-- `IntegerIDHelper` of the source, IDs are unsigned integers.
def integerIDHelper (blockSize : Int) (h : 1 ≤ blockSize) : Helper Nat blockSize where
  getStart id := (id : Int) % blockSize
  getStart_nonneg id := Int.emod_nonneg _ (by omega)
  getStart_lt id := Int.emod_lt_of_pos _ (by omega)

structure Block (ID : Type) where
  size : Int
  helper : Helper ID size
  table : Int → Entry ID
  freelist : Int

-- The valid positions in a table of the given size.
def slots (size : Int) : List Int := (List.range size.toNat).map fun (n : Nat) => (n : Int)

namespace Block

variable {ID : Type}

-- The constructor. `mem` is what `malloc` returned, only three fields of each entry are cleared.
def new (size : Int) (helper : Helper ID size) (mem : Int → Entry ID) : Block ID where
  size := size
  helper := helper
  table i :=
    if 0 ≤ i ∧ i < size then
      { mem i with
        next := if i < size - 1 then i + 1 else invalidHashIndex
        prev := if i ≠ 0 then i - 1 else invalidHashIndex
        index := invalidIndex }
    else
      mem i
  freelist := 0

-- Change the entry at `table + i`.
def modify (b : Block ID) (i : Int) (f : Entry ID → Entry ID) : Block ID :=
  { b with table := Function.update b.table i (f (b.table i)) }

def setNext (b : Block ID) (i next : Int) : Block ID := b.modify i ({ · with next := next })

def setPrev (b : Block ID) (i prev : Int) : Block ID := b.modify i ({ · with prev := prev })

-- The source never follows a link without looking for the end marker first.
def setNextIfValid (b : Block ID) (i next : Int) : Block ID :=
  if i ≠ invalidHashIndex then b.setNext i next else b

def setPrevIfValid (b : Block ID) (i prev : Int) : Block ID :=
  if i ≠ invalidHashIndex then b.setPrev i prev else b

def add (b : Block ID) (id : ID) (index : Int) : Bool × Block ID :=
  let start := b.helper.getStart id
  if ¬(b.table start).used then
    -- Snap it out of the freelist
    let b := b.setPrevIfValid (b.table start).next (b.table start).prev
    let b :=
      if (b.table start).prev ≠ invalidHashIndex then
        b.setNext (b.table start).prev (b.table start).next
      else
        { b with freelist := (b.table start).next }
    let b := b.modify start fun _ =>
      { id, index, next := invalidHashIndex, prev := invalidHashIndex, head := start }
    (true, b)
  else if b.freelist = invalidHashIndex then
    (false, b)
  else
    -- Collision, so take the first entry of the freelist
    let qi := b.freelist
    let b := { b with freelist := (b.table qi).next }
    let b := b.setPrevIfValid b.freelist invalidHashIndex
    let b := b.modify qi fun q => { q with id, index, prev := start, head := start }
    -- And splice it into the forward chain of the entry it collided with
    let b := b.setNext qi (b.table start).next
    let b := b.setPrevIfValid (b.table start).next qi
    (true, b.setNext start qi)

def lookup [DecidableEq ID] (b : Block ID) (id : ID) : Option Int :=
  let start := b.helper.getStart id
  if (b.table start).index = invalidIndex then some invalidIndex else go b.size.toNat start
where
  go : Nat → Int → Option Int
    | 0, _ => none
    | fuel + 1, p =>
      if (b.table p).id = id then
        some (b.table p).index
      else if (b.table p).next ≠ invalidHashIndex then
        go fuel (b.table p).next
      else
        some invalidIndex

-- Search forward from `qi` for an entry that hashes to `toDelete`, the end marker if there is none.
def findHashedTo (b : Block ID) (toDelete : Int) : Nat → Int → Option Int
  | 0, _ => none
  | fuel + 1, qi =>
    if qi = invalidHashIndex then
      some invalidHashIndex
    else if (b.table qi).head = toDelete then
      some qi
    else
      b.findHashedTo toDelete fuel (b.table qi).next

-- Copy the data of `qi` back to the entry being deleted, the links remain the same.
def copyBack (b : Block ID) (toDelete qi : Int) : Block ID :=
  b.modify toDelete fun e =>
    { e with index := (b.table qi).index, id := (b.table qi).id, head := (b.table qi).head }

-- Snap an entry out of its chain and make it the new head of the freelist.
def snapOut (b : Block ID) (toDelete : Int) : Block ID :=
  let b := b.setNextIfValid (b.table toDelete).prev (b.table toDelete).next
  let b := b.setPrevIfValid (b.table toDelete).next (b.table toDelete).prev
  let b := b.modify toDelete ({ · with index := invalidIndex, prev := invalidHashIndex })
  let b := b.setPrevIfValid b.freelist toDelete
  let b := b.setNext toDelete b.freelist
  { b with freelist := toDelete }

-- The loop that flattens the linear recursion on delete.
def deleteLoop : Nat → Block ID → Int → Option (Block ID)
  | 0, _, _ => none
  | fuel + 1, b, toDelete =>
    match b.findHashedTo toDelete b.size.toNat (b.table toDelete).next with
    | none => none
    | some qi =>
      if qi = invalidHashIndex then
        some (b.snapOut toDelete)
      else
        deleteLoop fuel (b.copyBack toDelete qi) qi

-- Returns the old index, or `invalidIndex`, together with the block that is left.
def remove [DecidableEq ID] (b : Block ID) (id : ID) : Option (Int × Block ID) :=
  go b.size.toNat (b.helper.getStart id)
where
  go : Nat → Int → Option (Int × Block ID)
    | 0, _ => none
    | fuel + 1, i =>
      if ¬(b.table i).used then
        some (invalidIndex, b)
      else if (b.table i).id = id then
        match deleteLoop b.size.toNat b i with
        | none => none
        | some b' => some ((b.table i).index, b')
      else if (b.table i).next = invalidHashIndex then
        some (invalidIndex, b)
      else
        go fuel (b.table i).next

-- What `check` has found so far.
structure CheckState where
  ok : Bool
  marks : Int → Bool
  sout : String

def CheckState.fail (st : CheckState) (message : String) : CheckState :=
  { st with ok := false, sout := st.sout ++ message ++ "\n" }

def CheckState.mark (st : CheckState) (i : Int) : CheckState :=
  { st with marks := Function.update st.marks i true }

-- Walk the freelist, checking forward and back links.
def checkFreelist [ToString ID] (b : Block ID) : Nat → Int → Int → CheckState → Option CheckState
  | 0, _, _, _ => none
  | fuel + 1, i, previous, st =>
    if i = invalidHashIndex then
      some st
    else if i < 0 then
      some (st.fail s!"Freelist goes negative ({i}) after {previous}")
    else if b.size ≤ i then
      some (st.fail s!"Freelist goes too large ({i}) after {previous}")
    else if st.marks i then
      some (st.fail s!"Freelist loops back to {i} after {previous}")
    else
      let p := b.table i
      let st := st.mark i
      if p.used then
        some (st.fail s!"Freelist entry at {i} is used by index {p.index}")
      else
        let st :=
          if p.prev ≠ previous then
            st.fail s!"Back-pointer misses at {i}: expected {previous}, got {p.id}"
          else
            st
        b.checkFreelist fuel p.next i st

-- Follow the chain that started at `i`, currently at `j`.
def checkChain (b : Block ID) (i : Int) : Nat → Int → Int → CheckState → Option CheckState
  | 0, _, _, _ => none
  | fuel + 1, j, previous, st =>
    if j = invalidHashIndex then
      some st
    else if j < 0 then
      some (st.fail s!"Chain started at {i} goes negative ({j})")
    else if b.size ≤ j then
      some (st.fail s!"Chain started at {i} goes too large ({j})")
    else
      let q := b.table j
      let st := st.mark j
      let st := if ¬q.used then st.fail s!"Entry at {j} is marked unused" else st
      let st := if q.prev ≠ previous then st.fail s!"Entry at {j} has bad prev link" else st
      let st :=
        if b.helper.getStart q.id ≠ q.head then st.fail s!"Entry at {j} has bad head marker" else st
      b.checkChain i fuel q.next j st

-- Look at one entry, it is the head of a chain if it is where it hashes to.
def checkEntry (b : Block ID) (st : CheckState) (i : Int) : Option CheckState :=
  let p := b.table i
  if p.used ∧ b.helper.getStart p.id = i then
    b.checkChain i (b.size.toNat + 1) i p.prev st
  else
    some st

def checkMarked (st : CheckState) (i : Int) : CheckState :=
  if ¬st.marks i then st.fail s!"Entry at {i} is orphaned" else st

-- The messages are what the source writes to its stream.
def check [ToString ID] (b : Block ID) : Option (Bool × String) := do
  let st ← b.checkFreelist (b.size.toNat + 1) b.freelist invalidHashIndex ⟨true, fun _ => false, ""⟩
  let st ← (slots b.size).foldlM b.checkEntry st
  let st := (slots b.size).foldl checkMarked st
  return (st.ok, st.sout)

end Block

theorem mem_slots {size i : Int} : i ∈ slots size ↔ 0 ≤ i ∧ i < size := by
  unfold slots
  rw [List.mem_map]
  constructor
  . intro h
    obtain ⟨n, hn, rfl⟩ := h
    rw [List.mem_range] at hn
    omega
  . intro h
    refine ⟨i.toNat, ?_, ?_⟩
    . rw [List.mem_range]
      omega
    . omega

theorem length_slots (size : Int) : (slots size).length = size.toNat := by
  simp [slots]

theorem nodup_slots (size : Int) : (slots size).Nodup := by
  unfold slots
  apply List.Nodup.map
  . intro a b h
    exact Int.ofNat.inj h
  . apply List.nodup_range

namespace Block

variable {ID : Type}

theorem modify_table (b : Block ID) (i j : Int) (f : Entry ID → Entry ID)
    : (b.modify i f).table j = if j = i then f (b.table i) else b.table j := by
  unfold modify
  by_cases h : j = i
  . subst h
    simp
  . simp [h]

theorem setNext_table (b : Block ID) (i next j : Int)
    : (b.setNext i next).table j
        =
      if j = i then { b.table j with next := next } else b.table j := by
  unfold setNext
  rw [modify_table]
  by_cases h : j = i
  . subst h
    simp
  . simp [h]

theorem setPrev_table (b : Block ID) (i prev j : Int)
    : (b.setPrev i prev).table j
        =
      if j = i then { b.table j with prev := prev } else b.table j := by
  unfold setPrev
  rw [modify_table]
  by_cases h : j = i
  . subst h
    simp
  . simp [h]

theorem setNextIfValid_table (b : Block ID) (i next j : Int) (hj : j ≠ invalidHashIndex)
    : (b.setNextIfValid i next).table j
        =
      if j = i then { b.table j with next := next } else b.table j := by
  unfold setNextIfValid
  split
  . rw [setNext_table]
  . next h =>
    have : j ≠ i := by
      intro hji
      apply h
      rw [← hji]
      exact hj
    simp [this]

theorem setPrevIfValid_table (b : Block ID) (i prev j : Int) (hj : j ≠ invalidHashIndex)
    : (b.setPrevIfValid i prev).table j
        =
      if j = i then { b.table j with prev := prev } else b.table j := by
  unfold setPrevIfValid
  split
  . rw [setPrev_table]
  . next h =>
    have : j ≠ i := by
      intro hji
      apply h
      rw [← hji]
      exact hj
    simp [this]

@[simp]
theorem setNextIfValid_freelist (b : Block ID) (i next : Int)
    : (b.setNextIfValid i next).freelist = b.freelist := by
  unfold setNextIfValid
  split <;> rfl

@[simp]
theorem setPrevIfValid_freelist (b : Block ID) (i prev : Int)
    : (b.setPrevIfValid i prev).freelist = b.freelist := by
  unfold setPrevIfValid
  split <;> rfl

/-
No operation touches the size or the helper. The helper depends on the size, so it is compared by
what it returns.
-/
structure SameHelper (b b' : Block ID) : Prop where
  size_eq : b'.size = b.size
  getStart_eq : ∀ id, b'.helper.getStart id = b.helper.getStart id

theorem SameHelper.refl (b : Block ID) : SameHelper b b := ⟨rfl, fun _ => rfl⟩

theorem SameHelper.trans {a b c : Block ID} (h1 : SameHelper a b) (h2 : SameHelper b c)
    : SameHelper a c := by
  constructor
  . rw [h2.size_eq, h1.size_eq]
  . intro id
    rw [h2.getStart_eq, h1.getStart_eq]

theorem modify_sameHelper (b : Block ID) (i : Int) (f : Entry ID → Entry ID)
    : SameHelper b (b.modify i f) := ⟨rfl, fun _ => rfl⟩

theorem setNext_sameHelper (b : Block ID) (i next : Int)
    : SameHelper b (b.setNext i next) := ⟨rfl, fun _ => rfl⟩

theorem setNextIfValid_sameHelper (b : Block ID) (i next : Int)
    : SameHelper b (b.setNextIfValid i next) := by
  unfold setNextIfValid
  split
  . apply setNext_sameHelper
  . apply SameHelper.refl

theorem setPrevIfValid_sameHelper (b : Block ID) (i prev : Int)
    : SameHelper b (b.setPrevIfValid i prev) := by
  unfold setPrevIfValid
  split
  . apply modify_sameHelper
  . apply SameHelper.refl

theorem setFreelist_sameHelper (b : Block ID) (freelist : Int)
    : SameHelper b { b with freelist := freelist } := ⟨rfl, fun _ => rfl⟩

theorem add_sameHelper (b : Block ID) (id : ID) (index : Int)
    : SameHelper b (b.add id index).2 := by
  unfold add
  dsimp only
  split
  . dsimp only
    refine SameHelper.trans ?_ (modify_sameHelper _ _ _)
    split
    . refine SameHelper.trans ?_ (setNext_sameHelper _ _ _)
      apply setPrevIfValid_sameHelper
    . refine SameHelper.trans ?_ (setFreelist_sameHelper _ _)
      apply setPrevIfValid_sameHelper
  . split
    . apply SameHelper.refl
    . refine SameHelper.trans ?_ (setNext_sameHelper _ _ _)
      refine SameHelper.trans ?_ (setPrevIfValid_sameHelper _ _ _)
      refine SameHelper.trans ?_ (setNext_sameHelper _ _ _)
      refine SameHelper.trans ?_ (modify_sameHelper _ _ _)
      refine SameHelper.trans ?_ (setPrevIfValid_sameHelper _ _ _)
      apply setFreelist_sameHelper

theorem copyBack_sameHelper (b : Block ID) (toDelete qi : Int)
    : SameHelper b (b.copyBack toDelete qi) := modify_sameHelper _ _ _

theorem snapOut_sameHelper (b : Block ID) (toDelete : Int)
    : SameHelper b (b.snapOut toDelete) := by
  unfold snapOut
  dsimp only
  refine SameHelper.trans ?_ (setFreelist_sameHelper _ _)
  refine SameHelper.trans ?_ (setNext_sameHelper _ _ _)
  refine SameHelper.trans ?_ (setPrevIfValid_sameHelper _ _ _)
  refine SameHelper.trans ?_ (modify_sameHelper _ _ _)
  refine SameHelper.trans ?_ (setPrevIfValid_sameHelper _ _ _)
  apply setNextIfValid_sameHelper

section AddUnused

variable {b : Block ID} {id : ID} {index s : Int}

theorem add_unused_fst (hs : b.helper.getStart id = s) (hunused : ¬(b.table s).used)
    : (b.add id index).1 = true := by
  subst hs
  unfold add
  simp [hunused]

theorem add_unused_freelist (hs : b.helper.getStart id = s) (hs0 : s ≠ invalidHashIndex)
    (hunused : ¬(b.table s).used) (hnext : s ≠ (b.table s).next)
    : (b.add id index).2.freelist
        =
      if (b.table s).prev = invalidHashIndex then (b.table s).next else b.freelist := by
  subst hs
  unfold add
  simp only [hunused, not_false_eq_true, ↓reduceIte, setPrevIfValid_table _ _ _ _ hs0, hnext, modify]
  split
  . simp [setNext, modify]
  . next h => simp [not_not.mp h]

theorem add_unused_table (index : Int) (hs : b.helper.getStart id = s) (hs0 : s ≠ invalidHashIndex)
    (hunused : ¬(b.table s).used) (hnext : s ≠ (b.table s).next) (hprev : s ≠ (b.table s).prev)
    (j : Int) (hj : j ≠ invalidHashIndex)
    : (b.add id index).2.table j
        =
      if j = s then
        { id, index, next := invalidHashIndex, prev := invalidHashIndex, head := s }
      else
        { b.table j with
          next := if j = (b.table s).prev then (b.table s).next else (b.table j).next
          prev := if j = (b.table s).next then (b.table s).prev else (b.table j).prev } := by
  subst hs
  unfold add
  simp only [hunused, not_false_eq_true, ↓reduceIte, modify_table, setPrevIfValid_table _ _ _ _ hs0,
    hnext]
  split
  . rfl
  . split
    . simp only [setNext_table, setPrevIfValid_table _ _ _ _ hj]
      split <;> split <;> simp_all
    . simp only [setPrevIfValid_table _ _ _ _ hj]
      split <;> split <;> simp_all

end AddUnused

section AddUsed

variable {b : Block ID} {id : ID} {index s : Int}

theorem add_full (hs : b.helper.getStart id = s) (hused : (b.table s).used)
    (hfree : b.freelist = invalidHashIndex)
    : b.add id index = (false, b) := by
  subst hs
  unfold add
  simp [hused, hfree]

theorem add_collision_fst (hs : b.helper.getStart id = s) (hused : (b.table s).used)
    (hfree : b.freelist ≠ invalidHashIndex)
    : (b.add id index).1 = true := by
  subst hs
  unfold add
  simp [hused, hfree]

theorem add_collision_freelist (hs : b.helper.getStart id = s) (hused : (b.table s).used)
    (hfree : b.freelist ≠ invalidHashIndex)
    : (b.add id index).2.freelist = (b.table b.freelist).next := by
  subst hs
  unfold add
  simp [hused, hfree, setNext, modify]

theorem add_collision_table (index : Int) (hs : b.helper.getStart id = s) (hs0 : s ≠ invalidHashIndex)
    (hused : (b.table s).used) (hfree : b.freelist ≠ invalidHashIndex) (hsq : s ≠ b.freelist)
    (j : Int) (hj : j ≠ invalidHashIndex)
    (hnext : b.freelist ≠ (b.table s).next)
    : (b.add id index).2.table j
        =
      if j = b.freelist then
        { id, index, prev := s, next := (b.table s).next, head := s }
      else
        { b.table j with
          next := if j = s then b.freelist else (b.table j).next
          prev :=
            if j = (b.table s).next then
              b.freelist
            else if j = (b.table b.freelist).next then
              invalidHashIndex
            else
              (b.table j).prev } := by
  subst hs
  unfold add
  simp only [hused, not_true_eq_false, ↓reduceIte, hfree, setNext_table,
    setPrevIfValid_table _ _ _ _ hj, modify_table, setPrevIfValid_table _ _ _ _ hs0,
    setPrevIfValid_table _ _ _ _ hfree, hsq, apply_ite Entry.next, ite_self]
  by_cases hjs : j = b.helper.getStart id
  . have hjq : j ≠ b.freelist := by
      rw [hjs]
      exact hsq
    simp only [hjs, hsq, ↓reduceIte]
    split <;> split <;> rfl
  . by_cases hjq : j = b.freelist
    . simp only [hjq, hsq.symm, hnext, ↓reduceIte]
    . simp only [hjs, hjq, ↓reduceIte]
      split <;> split <;> rfl

end AddUsed

theorem copyBack_table (b : Block ID) (toDelete qi j : Int)
    : (b.copyBack toDelete qi).table j
        =
      if j = toDelete then
        { b.table toDelete with
          index := (b.table qi).index
          id := (b.table qi).id
          head := (b.table qi).head }
      else
        b.table j := by
  unfold copyBack
  rw [modify_table]

theorem snapOut_table (b : Block ID) (d j : Int) (hd : d ≠ invalidHashIndex)
    (hj : j ≠ invalidHashIndex) (hnext : d ≠ (b.table d).next) (hprev : d ≠ (b.table d).prev)
    (hfree : d ≠ b.freelist)
    : (b.snapOut d).table j
        =
      if j = d then
        { b.table d with
          index := invalidIndex
          prev := invalidHashIndex
          next := b.freelist }
      else
        { b.table j with
          next := if j = (b.table d).prev then (b.table d).next else (b.table j).next
          prev :=
            if j = b.freelist then
              d
            else if j = (b.table d).next then
              (b.table d).prev
            else
              (b.table j).prev } := by
  unfold snapOut
  simp only [setNext_table, setPrevIfValid_table _ _ _ _ hj, modify_table,
    setPrevIfValid_table _ _ _ _ hd, setNextIfValid_table _ _ _ _ hj,
    setNextIfValid_table _ _ _ _ hd, hprev]
  simp only [modify, setPrevIfValid_freelist, setNextIfValid_freelist, hnext, ↓reduceIte]
  by_cases hjd : j = d
  . simp only [hjd, hfree, ↓reduceIte]
  . simp only [hjd, ↓reduceIte]
    split <;> split <;> split <;> rfl

end Block

end Hash
end ObTools
