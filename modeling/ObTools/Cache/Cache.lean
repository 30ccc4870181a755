import Mathlib.Order.Lattice
import ObTools.Lib.Runs
import ObTools.Lib.SortedMap

/-!
This module contains the models of `Cache::Cache` and `Cache::PointerCache`.

The clock is given by what it shows each time it is read. An operation starts with the number of times it has
been read before, and ends with the number of times it has been read then.

It then contains the proofs of how much is evicted from a cache, and of when a cache that evicts the
least recently used entry makes room for another one.
-/

namespace ObTools
namespace Cache

/-
General per-item data useful to policies.
-/
structure PolicyData where
  addTime : Int
  useTime : Int
  useCount : UInt64
deriving DecidableEq, Repr

namespace PolicyData

-- Set times to now
def new (now : Int) : PolicyData := { addTime := now, useTime := now, useCount := 0 }

def touch (pd : PolicyData) (now : Int) : PolicyData :=
  { pd with useTime := now, useCount := pd.useCount + 1 }

end PolicyData

structure MapContent (CONTENT : Type) where
  content : CONTENT
  policyData : PolicyData
deriving DecidableEq, Repr

structure EvictorPolicy where
  -- Whether the current one is worse than the worst one so far
  checkWorst : (current worst : PolicyData) → Bool

-- Removes the least recently used
def LRUEvictorPolicy : EvictorPolicy where
  checkWorst current worst := current.useTime < worst.useTime

-- Whether it was successful, the cache, and how often the clock has been read
structure Result (σ : Type) where
  ok : Bool
  cache : σ
  ticks : Nat
deriving DecidableEq

end Cache

/-
The limit on entries is 0 if there is none. The entries are in the order of their keys, as in a `std::map`.
-/
structure Cache (ID CONTENT : Type) [LT ID] where
  limit : UInt32
  cachemap : List (ID × Cache.MapContent CONTENT)
  sorted : SortedMap.Sorted cachemap
deriving DecidableEq

namespace Cache

/-
What is done with a cache.
-/
inductive Op (ID CONTENT : Type) where
  | add (id : ID) (content : CONTENT)
  | touch (id : ID)
  | remove (id : ID)
  | lookup (id : ID)
deriving DecidableEq, Repr

variable {ID CONTENT : Type} [LinearOrder ID]

theorem sorted_set {m : List (ID × MapContent CONTENT)} (id : ID) (mc : MapContent CONTENT) (h : SortedMap.Sorted m)
    : SortedMap.Sorted (SortedMap.set id mc m) := by
  refine SortedMap.sorted_set lt_irrefl (fun _ _ _ => lt_trans) ?_ h
  intro k l hle hne
  exact lt_of_le_of_ne (not_lt.mp hle) (Ne.symm hne)

def new (limit : UInt32) : Cache ID CONTENT where
  limit := limit
  cachemap := []
  sorted := List.Pairwise.nil

def size (c : Cache ID CONTENT) : Nat := c.cachemap.length

def set (c : Cache ID CONTENT) (id : ID) (mc : MapContent CONTENT) : Cache ID CONTENT :=
  { c with
    cachemap := SortedMap.set id mc c.cachemap
    sorted := sorted_set id mc c.sorted }

def erase (c : Cache ID CONTENT) (id : ID) : Cache ID CONTENT :=
  { c with
    cachemap := SortedMap.erase id c.cachemap
    sorted := List.Pairwise.filter _ c.sorted }

-- The policy is shown all the entries, and chooses the last one that it finds worse.
def findWorst (policy : EvictorPolicy) (worst : Option (ID × MapContent CONTENT)) (worstData : PolicyData)
    : List (ID × MapContent CONTENT) → Option (ID × MapContent CONTENT)
  | [] => worst
  | e :: entries =>
    if policy.checkWorst e.2.policyData worstData then
      findWorst policy (some e) e.2.policyData entries
    else
      findWorst policy worst worstData entries

-- Always OK here, which a subclass can override
def prepareToDie (_ : ID) (_ : CONTENT) : Bool := true

variable (policy : EvictorPolicy) (prepare : ID → CONTENT → Bool) (clock : Nat → Int)

def evictLoop : (needed : Nat) → Cache ID CONTENT → (ticks : Nat) → Result (Cache ID CONTENT)
  | 0, c, ticks => { ok := true, cache := c, ticks }
  | needed + 1, c, ticks =>
    match findWorst policy none (.new (clock ticks)) c.cachemap with
    | some worst =>
      if prepare worst.1 worst.2.content then
        evictLoop needed (c.erase worst.1) (ticks + 1)
      else
        { ok := false, cache := c, ticks := ticks + 1 }
    -- Can't do it
    | none => { ok := false, cache := c, ticks := ticks + 1 }

-- Number we need to evict
def needed (c : Cache ID CONTENT) : UInt32 := (UInt64.ofNat c.size - c.limit.toUInt64 + 1).toUInt32

def evict (c : Cache ID CONTENT) (ticks : Nat) : Result (Cache ID CONTENT) :=
  if c.needed ≤ 0 then
    { ok := true, cache := c, ticks }
  else
    evictLoop policy prepare clock c.needed.toNat c ticks

def setLimit (c : Cache ID CONTENT) (limit : UInt32) (ticks : Nat) : Cache ID CONTENT :=
  (evict policy prepare clock { c with limit } ticks).cache

def add (c : Cache ID CONTENT) (id : ID) (content : CONTENT) (ticks : Nat) : Result (Cache ID CONTENT) :=
  let room : Result (Cache ID CONTENT) :=
    if c.limit ≠ 0 ∧ c.limit.toNat ≤ c.size then
      evict policy prepare clock c ticks
    else
      { ok := true, cache := c, ticks }
  if !room.ok then
    room
  else
    { ok := true
      cache := room.cache.set id { content, policyData := .new (clock room.ticks) }
      ticks := room.ticks + 1 }

def lookup (c : Cache ID CONTENT) (id : ID) : Option CONTENT :=
  (SortedMap.find id c.cachemap).map (·.content)

-- Whether the ID exists
def touch (c : Cache ID CONTENT) (id : ID) (ticks : Nat) : Result (Cache ID CONTENT) :=
  match SortedMap.find id c.cachemap with
  | some mc =>
    { ok := true
      cache := c.set id { mc with policyData := mc.policyData.touch (clock ticks) }
      ticks := ticks + 1 }
  | none => { ok := false, cache := c, ticks }

def remove (c : Cache ID CONTENT) (id : ID) : Cache ID CONTENT := c.erase id

-- The cache, and how often the clock has been read
def step (s : Cache ID CONTENT × Nat) : Op ID CONTENT → Option (Cache ID CONTENT × Nat)
  | .add id content =>
    let result := add policy prepare clock s.1 id content s.2
    some (result.cache, result.ticks)
  | .touch id =>
    let result := touch clock s.1 id s.2
    some (result.cache, result.ticks)
  | .remove id => some (s.1.remove id, s.2)
  | .lookup _ => some s

end Cache

/-
The content is pointers, of which 0 is `none`. The pointers that have been deleted are kept too.
-/
structure PointerCache (ID Pointer : Type) [LT ID] where
  base : Cache ID (Option Pointer)
  deleted : List Pointer
deriving DecidableEq

namespace PointerCache

open Cache (EvictorPolicy Result)

variable {ID Pointer : Type} [LinearOrder ID]

def new (limit : UInt32) : PointerCache ID Pointer := { base := .new limit, deleted := [] }

def remove (c : PointerCache ID Pointer) (id : ID) : PointerCache ID Pointer :=
  match SortedMap.find id c.base.cachemap with
  | some mc => { base := c.base.erase id, deleted := c.deleted ++ mc.content.toList }
  | none => c

variable (policy : EvictorPolicy) (prepare : ID → Option Pointer → Bool) (clock : Nat → Int)

def evictLoop : (needed : Nat) → PointerCache ID Pointer → (ticks : Nat) → Result (PointerCache ID Pointer)
  | 0, c, ticks => { ok := true, cache := c, ticks }
  | needed + 1, c, ticks =>
    match Cache.findWorst policy none (.new (clock ticks)) c.base.cachemap with
    | some worst =>
      -- Fail if blocked by subclass
      if !prepare worst.1 worst.2.content then
        { ok := false, cache := c, ticks := ticks + 1 }
      else
        evictLoop needed
          { base := c.base.erase worst.1, deleted := c.deleted ++ worst.2.content.toList }
          (ticks + 1)
    -- Can't do it
    | none => { ok := false, cache := c, ticks := ticks + 1 }

def evict (c : PointerCache ID Pointer) (ticks : Nat) : Result (PointerCache ID Pointer) :=
  if c.base.needed ≤ 0 then
    { ok := true, cache := c, ticks }
  else
    evictLoop policy prepare clock c.base.needed.toNat c ticks

def setLimit (c : PointerCache ID Pointer) (limit : UInt32) (ticks : Nat) : PointerCache ID Pointer :=
  (evict policy prepare clock { c with base := { c.base with limit } } ticks).cache

-- As in the base, which calls the `evict` of this class
def addBase (c : PointerCache ID Pointer) (id : ID) (content : Option Pointer) (ticks : Nat)
    : Result (PointerCache ID Pointer) :=
  let room : Result (PointerCache ID Pointer) :=
    if c.base.limit ≠ 0 ∧ c.base.limit.toNat ≤ c.base.size then
      evict policy prepare clock c ticks
    else
      { ok := true, cache := c, ticks }
  if !room.ok then
    room
  else
    { ok := true
      cache := { room.cache with base := room.cache.base.set id { content, policyData := .new (clock room.ticks) } }
      ticks := room.ticks + 1 }

-- Try removing first to ensure deletion of old one
def add (c : PointerCache ID Pointer) (id : ID) (content : Option Pointer) (ticks : Nat)
    : Result (PointerCache ID Pointer) :=
  addBase policy prepare clock (c.remove id) id content ticks

def lookup (c : PointerCache ID Pointer) (id : ID) : Option Pointer :=
  (SortedMap.find id c.base.cachemap).bind (·.content)

def touch (c : PointerCache ID Pointer) (id : ID) (ticks : Nat) : Result (PointerCache ID Pointer) :=
  let result := c.base.touch clock id ticks
  { ok := result.ok, cache := { c with base := result.cache }, ticks := result.ticks }

def step (s : PointerCache ID Pointer × Nat)
    : Cache.Op ID (Option Pointer) → Option (PointerCache ID Pointer × Nat)
  | .add id content =>
    let result := add policy prepare clock s.1 id content s.2
    some (result.cache, result.ticks)
  | .touch id =>
    let result := touch clock s.1 id s.2
    some (result.cache, result.ticks)
  | .remove id => some (s.1.remove id, s.2)
  | .lookup _ => some s

end PointerCache

namespace Cache

variable {ID CONTENT : Type}

section FindWorst

variable {policy : EvictorPolicy} {data : PolicyData} {entries : List (ID × MapContent CONTENT)}

theorem findWorst_some_isSome (worst : ID × MapContent CONTENT) (data : PolicyData)
    (entries : List (ID × MapContent CONTENT))
    : (findWorst policy (some worst) data entries).isSome = true := by
  induction entries generalizing worst data with
  | nil => rfl
  | cons e entries ih =>
    unfold findWorst
    split
    . apply ih
    . apply ih

/--
Nothing is found if and only if nothing is worse than what the search starts with.
-/
theorem findWorst_eq_none_iff
    : findWorst policy none data entries = none ↔ ∀ e ∈ entries, policy.checkWorst e.2.policyData data = false := by
  induction entries with
  | nil => exact iff_of_true rfl fun _ he => absurd he List.not_mem_nil
  | cons e entries ih =>
    rw [List.forall_mem_cons]
    unfold findWorst
    split
    . next hworse =>
      have hsome := @findWorst_some_isSome _ _ policy e e.2.policyData entries
      refine iff_of_false ?_ ?_
      . intro hnone
        rw [hnone] at hsome
        contradiction
      . intro h
        rw [hworse] at h
        exact Bool.noConfusion h.1
    . next hbetter => rw [ih, and_iff_right (Bool.eq_false_iff.mpr hbetter)]

theorem mem_of_findWorst {worst : Option (ID × MapContent CONTENT)} {e : ID × MapContent CONTENT}
    (h : findWorst policy worst data entries = some e)
    : e ∈ entries ∨ worst = some e := by
  induction entries generalizing worst data with
  | nil => exact Or.inr h
  | cons f entries ih =>
    unfold findWorst at h
    split at h
    . rcases ih h with hmem | heq
      . exact Or.inl (List.mem_cons_of_mem _ hmem)
      . cases heq
        exact Or.inl List.mem_cons_self
    . exact (ih h).imp_left (List.mem_cons_of_mem _)

/--
What is found has been used before all others.
-/
theorem findWorst_lru {worst : Option (ID × MapContent CONTENT)}
    (hworst : ∀ w, worst = some w → w.2.policyData.useTime = data.useTime) {e : ID × MapContent CONTENT}
    (h : findWorst LRUEvictorPolicy worst data entries = some e)
    : e.2.policyData.useTime ≤ data.useTime
        ∧ ∀ f ∈ entries, e.2.policyData.useTime ≤ f.2.policyData.useTime := by
  induction entries generalizing worst data with
  | nil => exact ⟨le_of_eq (hworst e h), fun _ hf => absurd hf List.not_mem_nil⟩
  | cons f entries ih =>
    rw [List.forall_mem_cons]
    unfold findWorst at h
    split at h
    . next hlt =>
      obtain ⟨hle, hall⟩ := ih (fun w hw => by rw [Option.some.inj hw]) h
      have hlt : f.2.policyData.useTime < data.useTime := of_decide_eq_true hlt
      exact ⟨by omega, hle, hall⟩
    . next hge =>
      obtain ⟨hle, hall⟩ := ih hworst h
      have hge : ¬f.2.policyData.useTime < data.useTime := fun hlt => hge (decide_eq_true hlt)
      exact ⟨hle, by omega, hall⟩

end FindWorst

variable [LinearOrder ID]

section Evict

variable (policy : EvictorPolicy) (prepare : ID → CONTENT → Bool) (clock : Nat → Int)

theorem size_erase {c : Cache ID CONTENT} {e : ID × MapContent CONTENT} (h : e ∈ c.cachemap)
    : (c.erase e.1).size + 1 = c.size :=
  SortedMap.length_erase lt_irrefl c.sorted h

/-
What an eviction of at most some entries does.
-/
structure Evicts (n : Nat) (before : Cache ID CONTENT) (after : Result (Cache ID CONTENT)) : Prop where
  limit : after.cache.limit = before.limit
  keeps : after.cache.cachemap.Sublist before.cachemap
  atMost : before.size ≤ after.cache.size + n
  ok : after.ok = true → before.size = after.cache.size + n

theorem evictLoop_evicts (n : Nat) (c : Cache ID CONTENT) (ticks : Nat)
    : Evicts n c (evictLoop policy prepare clock n c ticks) := by
  induction n generalizing c ticks with
  | zero => exact ⟨rfl, List.Sublist.refl _, Nat.le_refl _, fun _ => rfl⟩
  | succ n ih =>
    have hfail (ticks : Nat) : Evicts (n + 1) c { ok := false, cache := c, ticks } :=
      ⟨rfl, List.Sublist.refl _, Nat.le_add_right _ _, fun h => absurd h Bool.false_ne_true⟩
    unfold evictLoop
    cases hworst : findWorst policy none (.new (clock ticks)) c.cachemap with
    | none => exact hfail _
    | some worst =>
      dsimp only
      split
      . have hsize := size_erase ((mem_of_findWorst hworst).resolve_right (by simp))
        obtain ⟨hlimit, hkeeps, hatMost, hok⟩ := ih (c.erase worst.1) (ticks + 1)
        refine ⟨hlimit, hkeeps.trans List.filter_sublist, by omega, ?_⟩
        intro h
        have := hok h
        omega
      . exact hfail _

/--
The difference is that of 32-bit numbers.
-/
theorem toNat_needed (c : Cache ID CONTENT)
    : (c.needed.toNat : Int) = ((c.size : Int) + 1 - c.limit.toNat) % 2 ^ 32 := by
  have hlimit := c.limit.toNat_lt
  unfold needed
  rw [UInt64.toNat_toUInt32, UInt64.toNat_add, UInt64.toNat_sub, UInt64.toNat_ofNat', UInt32.toNat_toUInt64,
    UInt64.toNat_one]
  omega

-- How many have to go to make room for one more
def excess (c : Cache ID CONTENT) : Nat := if c.limit = 0 then 0 else c.size + 1 - c.limit.toNat

/-
Those that are left are as they have been, and no more are gone than have to.
-/
def EvictsNoMore (before after : Cache ID CONTENT) : Prop :=
  after.cachemap.Sublist before.cachemap ∧ before.size ≤ after.size + before.excess

instance [DecidableEq CONTENT] (before after : Cache ID CONTENT) : Decidable (EvictsNoMore before after) :=
  inferInstanceAs (Decidable (_ ∧ _))

-- Whether the number that is needed is right, or the policy finds nothing to evict
def SafeToEvict (policy : EvictorPolicy) (now : Int) (c : Cache ID CONTENT) : Prop :=
  (c.limit ≠ 0 ∧ c.limit.toNat ≤ c.size + 1)
    ∨ (c.limit = 0 ∧ (c.size + 1) % 2 ^ 32 = 0)
    ∨ ∀ e ∈ c.cachemap, policy.checkWorst e.2.policyData (.new now) = false

theorem evict_of_needed {c : Cache ID CONTENT} {n : Nat} (h : c.needed.toNat = n + 1) (ticks : Nat)
    : evict policy prepare clock c ticks = evictLoop policy prepare clock (n + 1) c ticks := by
  unfold evict
  rw [h, if_neg]
  intro hle
  have hle : c.needed.toNat ≤ 0 := UInt32.le_iff_toNat_le.mp hle
  omega

theorem evict_of_not_needed {c : Cache ID CONTENT} (h : c.needed.toNat = 0) (ticks : Nat)
    : evict policy prepare clock c ticks = { ok := true, cache := c, ticks } := by
  unfold evict
  rw [if_pos]
  apply UInt32.le_iff_toNat_le.mpr
  rw [h]
  exact Nat.zero_le _

theorem evict_evicts (c : Cache ID CONTENT) (ticks : Nat)
    : Evicts c.needed.toNat c (evict policy prepare clock c ticks) := by
  cases h : c.needed.toNat with
  | zero =>
    rw [evict_of_not_needed policy prepare clock h]
    exact evictLoop_evicts policy prepare clock 0 c ticks
  | succ n =>
    rw [evict_of_needed policy prepare clock h]
    exact evictLoop_evicts policy prepare clock (n + 1) c ticks

/--
The first pass decides whether anything is evicted at all.
-/
theorem size_evictLoop_lt (haccept : ∀ id content, prepare id content = true) {c : Cache ID CONTENT} {n ticks : Nat}
    (h : findWorst policy none (.new (clock ticks)) c.cachemap ≠ none)
    : (evictLoop policy prepare clock (n + 1) c ticks).cache.size < c.size := by
  obtain ⟨worst, hworst⟩ := Option.ne_none_iff_exists'.mp h
  have hsize := size_erase ((mem_of_findWorst hworst).resolve_right (by simp))
  have hkeeps := (evictLoop_evicts policy prepare clock n (c.erase worst.1) (ticks + 1)).keeps.length_le
  unfold evictLoop
  rw [hworst]
  dsimp only
  rw [if_pos (haccept ..)]
  unfold size at hsize ⊢
  omega

theorem evictLoop_of_none {c : Cache ID CONTENT} {n ticks : Nat}
    (h : findWorst policy none (.new (clock ticks)) c.cachemap = none)
    : evictLoop policy prepare clock (n + 1) c ticks = { ok := false, cache := c, ticks := ticks + 1 } := by
  unfold evictLoop
  rw [h]

theorem evict_iff (haccept : ∀ id content, prepare id content = true) (c : Cache ID CONTENT) (ticks : Nat)
    : EvictsNoMore c (evict policy prepare clock c ticks).cache ↔ SafeToEvict policy (clock ticks) c := by
  have hneeded := toNat_needed c
  have hlimit := c.limit.toNat_lt
  have hzero : c.limit = 0 ↔ c.limit.toNat = 0 := UInt32.toNat_inj.symm
  obtain ⟨-, hkeeps, hatMost, -⟩ := evict_evicts policy prepare clock c ticks
  unfold EvictsNoMore SafeToEvict excess
  rw [and_iff_right hkeeps]
  cases hn : c.needed.toNat with
  | zero =>
    rw [evict_of_not_needed policy prepare clock hn]
    refine iff_of_true (Nat.le_add_right _ _) ?_
    by_cases hunlimited : c.limit = 0
    . refine Or.inr (Or.inl ⟨hunlimited, ?_⟩)
      rw [hzero] at hunlimited
      omega
    . refine Or.inl ⟨hunlimited, ?_⟩
      rw [hzero] at hunlimited
      omega
  | succ n =>
    by_cases hright : c.limit ≠ 0 ∧ c.limit.toNat ≤ c.size + 1
    . rw [if_neg hright.1]
      refine iff_of_true ?_ (Or.inl hright)
      omega
    . have hnone : (if c.limit = 0 then 0 else c.size + 1 - c.limit.toNat) = 0 := by
        split
        . rfl
        . next hne =>
          have hgt : ¬c.limit.toNat ≤ c.size + 1 := fun hle => hright ⟨hne, hle⟩
          omega
      have hwrapped : ¬(c.limit = 0 ∧ (c.size + 1) % 2 ^ 32 = 0) := by
        rintro ⟨hunlimited, hmod⟩
        rw [hzero] at hunlimited
        omega
      rw [hnone, evict_of_needed policy prepare clock hn, or_iff_right hright, or_iff_right hwrapped, ← findWorst_eq_none_iff]
      by_cases hworst : findWorst policy none (.new (clock ticks)) c.cachemap = none
      . rw [evictLoop_of_none policy prepare clock hworst]
        exact iff_of_true (Nat.le_add_right _ _) hworst
      . refine iff_of_false ?_ hworst
        have := @size_evictLoop_lt _ _ _ policy prepare clock haccept c n ticks hworst
        omega

theorem size_set_le (c : Cache ID CONTENT) (id : ID) (mc : MapContent CONTENT) : (c.set id mc).size ≤ c.size + 1 :=
  SortedMap.length_set_le ..

theorem size_add_le {c : Cache ID CONTENT} (hlimit : c.limit ≠ 0) (hle : c.size ≤ c.limit.toNat) (id : ID)
    (content : CONTENT) (ticks : Nat)
    : (add policy prepare clock c id content ticks).cache.size ≤ c.limit.toNat := by
  unfold add
  by_cases hfull : c.limit ≠ 0 ∧ c.limit.toNat ≤ c.size
  . have hneeded := toNat_needed c
    obtain ⟨-, hkeeps, -, hok⟩ := evict_evicts policy prepare clock c ticks
    rw [if_pos hfull]
    dsimp only
    split
    . exact Nat.le_trans hkeeps.length_le hle
    . next hroom =>
      have hroom := hok (by simpa using hroom)
      refine Nat.le_trans (size_set_le ..) ?_
      omega
  . have hlt : ¬c.limit.toNat ≤ c.size := fun hle => hfull ⟨hlimit, hle⟩
    rw [if_neg hfull]
    dsimp only
    rw [if_neg (by simp)]
    refine Nat.le_trans (size_set_le ..) ?_
    omega

end Evict

def Result.map {σ τ : Type} (f : σ → τ) (result : Result σ) : Result τ :=
  { ok := result.ok, cache := f result.cache, ticks := result.ticks }

end Cache

namespace PointerCache

variable {ID Pointer : Type} [LinearOrder ID]

open Cache (EvictorPolicy)

/-
What is deleted aside, it is a cache of pointers.
-/

theorem remove_base (c : PointerCache ID Pointer) (id : ID) : (c.remove id).base = c.base.remove id := by
  unfold remove
  cases hfind : SortedMap.find id c.base.cachemap with
  | some mc => rfl
  | none =>
    unfold Cache.remove Cache.erase
    simp only [SortedMap.erase_of_find hfind]

variable (policy : EvictorPolicy) (prepare : ID → Option Pointer → Bool) (clock : Nat → Int)

theorem evictLoop_base (n : Nat) (c : PointerCache ID Pointer) (ticks : Nat)
    : (evictLoop policy prepare clock n c ticks).map base = Cache.evictLoop policy prepare clock n c.base ticks := by
  induction n generalizing c ticks with
  | zero => rfl
  | succ n ih =>
    unfold evictLoop Cache.evictLoop
    cases Cache.findWorst policy none (.new (clock ticks)) c.base.cachemap with
    | none => rfl
    | some worst =>
      dsimp only
      cases prepare worst.1 worst.2.content with
      | false => rfl
      | true => exact ih _ _

theorem evict_base (c : PointerCache ID Pointer) (ticks : Nat)
    : (evict policy prepare clock c ticks).map base = Cache.evict policy prepare clock c.base ticks := by
  unfold evict Cache.evict
  split
  . rfl
  . apply evictLoop_base

theorem add_base (c : PointerCache ID Pointer) (id : ID) (content : Option Pointer) (ticks : Nat)
    : (add policy prepare clock c id content ticks).map base
        = Cache.add policy prepare clock (c.base.remove id) id content ticks := by
  have hevict := evict_base policy prepare clock (c.remove id) ticks
  unfold add addBase Cache.add
  rw [remove_base] at hevict ⊢
  split
  . rw [← hevict]
    dsimp only
    cases hok : (evict policy prepare clock (c.remove id) ticks).ok with
    | false => simp [Cache.Result.map, hok]
    | true => simp [Cache.Result.map, hok]
  . dsimp only
    rw [← remove_base]
    rfl

end PointerCache

namespace Cache

variable {ID CONTENT Pointer : Type} [LinearOrder ID]

/--
No more is evicted than has to be, if and only if the limit is one that the size has reached but for one at
most, or there is nothing that the policy would evict.
-/
theorem evictsNoMore_iff (policy : EvictorPolicy) (clock : Nat → Int) (ticks : Nat)
    : (∀ prepare : ID → CONTENT → Bool, (∀ id content, prepare id content = true) → ∀ c : Cache ID CONTENT,
        (EvictsNoMore c (evict policy prepare clock c ticks).cache ↔ SafeToEvict policy (clock ticks) c)
          ∧ (∀ limit, EvictsNoMore { c with limit } (setLimit policy prepare clock c limit ticks)
              ↔ SafeToEvict policy (clock ticks) { c with limit })
          ∧ ∀ id content, c.limit ≠ 0 → c.size ≤ c.limit.toNat →
              (add policy prepare clock c id content ticks).cache.size ≤ c.limit.toNat)
        ∧
      (∀ prepare : ID → Option Pointer → Bool, (∀ id content, prepare id content = true) →
        ∀ c : PointerCache ID Pointer,
        (EvictsNoMore c.base (c.evict policy prepare clock ticks).cache.base
            ↔ SafeToEvict policy (clock ticks) c.base)
          ∧ (∀ limit, EvictsNoMore { c.base with limit } (c.setLimit policy prepare clock limit ticks).base
              ↔ SafeToEvict policy (clock ticks) { c.base with limit })
          ∧ ∀ id content, c.base.limit ≠ 0 → c.base.size ≤ c.base.limit.toNat →
              (c.add policy prepare clock id content ticks).cache.base.size ≤ c.base.limit.toNat) := by
  constructor
  . intro prepare haccept c
    refine ⟨evict_iff policy prepare clock haccept c ticks, ?_, ?_⟩
    . intro limit
      exact evict_iff policy prepare clock haccept { c with limit } ticks
    . intro id content hlimit hle
      exact size_add_le policy prepare clock hlimit hle id content ticks
  . intro prepare haccept c
    refine ⟨?_, ?_, ?_⟩
    . have hbase := congrArg Result.cache (PointerCache.evict_base policy prepare clock c ticks)
      have hiff := evict_iff policy prepare clock haccept c.base ticks
      rw [← hbase] at hiff
      exact hiff
    . intro limit
      have hbase := congrArg Result.cache
        (PointerCache.evict_base policy prepare clock { c with base := { c.base with limit } } ticks)
      have hiff := evict_iff policy prepare clock haccept { c.base with limit } ticks
      rw [← hbase] at hiff
      exact hiff
    . intro id content hlimit hle
      have hbase := congrArg Result.cache (PointerCache.add_base policy prepare clock c id content ticks)
      have hremoved : (c.base.remove id).size ≤ c.base.limit.toNat :=
        Nat.le_trans (List.filter_sublist.length_le) hle
      have hsize := size_add_le (c := c.base.remove id) policy prepare clock hlimit hremoved id content ticks
      rw [← hbase] at hsize
      exact hsize

-- Two entries that have been added at some time
def sample (limit : UInt32) (now : Int) : Cache Nat Nat where
  limit := limit
  cachemap := [(1, { content := 10, policyData := .new now }), (2, { content := 20, policyData := .new now })]
  sorted := by simp [SortedMap.Sorted]

theorem evictsNoMore_iff_two
    : EvictsNoMore (sample 2 0) (setLimit LRUEvictorPolicy prepareToDie (fun _ => 5) (sample 9 0) 2 0) :=
  (((@evictsNoMore_iff Nat Nat Nat _ LRUEvictorPolicy (fun _ => 5) 0).1 prepareToDie (fun _ _ => rfl)
    (sample 9 0)).2.1 2).mpr (Or.inl (by decide))

-- Nothing has to go, and everything does.
theorem not_evictsNoMore
    : ¬∀ (policy : EvictorPolicy) (clock : Nat → Int) (ticks : Nat) (prepare : Nat → Nat → Bool),
        (∀ id content, prepare id content = true) → ∀ (c : Cache Nat Nat) (limit : UInt32),
          EvictsNoMore { c with limit } (setLimit policy prepare clock c limit ticks) := by
  intro h
  have hten := h LRUEvictorPolicy (fun _ => 5) 0 prepareToDie (fun _ _ => rfl) (sample 2 0) 10
  revert hten
  decide

end Cache

end ObTools
