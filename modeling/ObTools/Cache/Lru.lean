import Mathlib.Data.Int.ConditionallyCompleteOrder
import Mathlib.Order.ConditionallyCompleteLattice.Basic
import ObTools.Cache.Cache
import ObTools.Lib.Runs

/-!
This module contains the proof of when a cache that evicts the least recently used entry makes room for
another one.
-/

namespace ObTools
namespace Cache

variable {ID CONTENT Pointer : Type}

-- Whether there is no room for one more
def Full [LT ID] (c : Cache ID CONTENT) : Prop := c.limit ≠ 0 ∧ c.limit.toNat ≤ c.cachemap.length

instance [LT ID] (c : Cache ID CONTENT) : Decidable c.Full := inferInstanceAs (Decidable (_ ∧ _))

-- Whether a property holds wherever something is added in a run
def AtAdds {σ : Type} (step : σ → Op ID CONTENT → Option σ) (s : σ) (ops : List (Op ID CONTENT))
    (P : σ → ID → CONTENT → Prop)
    : Prop :=
  Runs.Along step s ops fun s op => ∀ id content, op = .add id content → P s id content

theorem AtAdds.congr {σ : Type} {step : σ → Op ID CONTENT → Option σ} (Inv : σ → Prop)
    (hinv : ∀ s op s', Inv s → step s op = some s' → Inv s') {P Q : σ → ID → CONTENT → Prop}
    (hiff : ∀ s id content, Inv s → (P s id content ↔ Q s id content)) {s : σ} (h : Inv s)
    (ops : List (Op ID CONTENT))
    : AtAdds step s ops P ↔ AtAdds step s ops Q := by
  refine Runs.along_congr Inv hinv ?_ h ops
  intro s op h
  refine forall_congr' fun id => forall_congr' fun content => imp_congr_right fun _ => ?_
  exact hiff s id content h

variable [LinearOrder ID] (clock : Nat → Int)

/-
Whether something is added, and any victim has not been used after any other entry.
-/
structure MakesRoom (c : Cache ID CONTENT) (room : Result (Cache ID CONTENT)) (added : Bool) : Prop where
  added : added = true
  worst : c.Full → ∀ victim ∈ c.cachemap, victim ∉ room.cache.cachemap →
    ∀ e ∈ c.cachemap, victim.2.policyData.useTime ≤ e.2.policyData.useTime

-- Whether there is an entry that has been used before this second, unless there is room already
def HasOlder (c : Cache ID CONTENT) (now : Int) : Prop :=
  c.Full → ∃ e ∈ c.cachemap, e.2.policyData.useTime < now

instance (c : Cache ID CONTENT) (now : Int) : Decidable (c.HasOlder now) :=
  inferInstanceAs (Decidable (_ → _))

-- What a run keeps
structure InLimit (limit : UInt32) (c : Cache ID CONTENT) : Prop where
  limit_eq : c.limit = limit
  size_le : c.size ≤ limit.toNat

section Step

variable {limit : UInt32} {c : Cache ID CONTENT}

theorem inLimit_erase (h : InLimit limit c) (id : ID) : InLimit limit (c.erase id) :=
  ⟨h.limit_eq, Nat.le_trans List.filter_sublist.length_le h.size_le⟩

theorem add_limit (policy : EvictorPolicy) (prepare : ID → CONTENT → Bool) (c : Cache ID CONTENT) (id : ID)
    (content : CONTENT) (ticks : Nat)
    : (add policy prepare clock c id content ticks).cache.limit = c.limit := by
  have hevict := (evict_evicts policy prepare clock c ticks).limit
  unfold add
  dsimp only
  split
  . split
    . exact hevict
    . exact hevict
  . split
    . rfl
    . rfl

theorem inLimit_add (h : InLimit limit c) (hlimit : limit ≠ 0) (policy : EvictorPolicy)
    (prepare : ID → CONTENT → Bool) (id : ID) (content : CONTENT) (ticks : Nat)
    : InLimit limit (add policy prepare clock c id content ticks).cache := by
  have hsize := size_add_le (c := c) policy prepare clock (h.limit_eq ▸ hlimit) (h.limit_eq ▸ h.size_le) id content ticks
  rw [h.limit_eq] at hsize
  exact ⟨(add_limit clock policy prepare c id content ticks).trans h.limit_eq, hsize⟩

theorem inLimit_touch (h : InLimit limit c) (id : ID) (ticks : Nat)
    : InLimit limit (touch clock c id ticks).cache := by
  unfold touch
  cases hfind : SortedMap.find id c.cachemap with
  | none => exact h
  | some mc =>
    refine ⟨h.limit_eq, Nat.le_trans (Nat.le_of_eq ?_) h.size_le⟩
    exact SortedMap.length_set_of_find lt_irrefl (fun _ _ _ => lt_trans) c.sorted hfind

theorem inLimit_step (hlimit : limit ≠ 0) {s s' : Cache ID CONTENT × Nat} {op : Op ID CONTENT}
    (h : InLimit limit s.1) (hstep : step LRUEvictorPolicy prepareToDie clock s op = some s')
    : InLimit limit s'.1 := by
  cases op with
  | add id content =>
    cases hstep
    exact inLimit_add clock h hlimit _ _ _ _ _
  | touch id =>
    cases hstep
    exact inLimit_touch clock h _ _
  | remove id =>
    cases hstep
    exact inLimit_erase h id
  | lookup id =>
    cases hstep
    exact h

/--
One entry has to go, and there is one if and only if one has been used before this second.
-/
theorem makesRoom_iff (h : InLimit limit c) (id : ID) (content : CONTENT) (ticks : Nat)
    : MakesRoom c (evict LRUEvictorPolicy prepareToDie clock c ticks)
          (add LRUEvictorPolicy prepareToDie clock c id content ticks).ok
        ↔ c.HasOlder (clock ticks) := by
  by_cases hfull : c.Full
  . have hneeded : c.needed.toNat = 0 + 1 := by
      have htoNat := toNat_needed c
      have hsize := h.size_le
      have hreached : c.limit.toNat ≤ c.size := hfull.2
      rw [h.limit_eq] at htoNat hreached
      omega
    have hadd : (add LRUEvictorPolicy prepareToDie clock c id content ticks).ok
        = (evict LRUEvictorPolicy prepareToDie clock c ticks).ok := by
      have hfull : c.limit ≠ 0 ∧ c.limit.toNat ≤ c.size := hfull
      unfold add
      rw [if_pos hfull]
      dsimp only
      cases hok : (evict LRUEvictorPolicy prepareToDie clock c ticks).ok with
      | false => simp [hok]
      | true => simp
    have holder : c.HasOlder (clock ticks) ↔ ∃ e ∈ c.cachemap, e.2.policyData.useTime < clock ticks :=
      imp_iff_right hfull
    rw [hadd, evict_of_needed _ _ _ hneeded, holder]
    cases hworst : findWorst LRUEvictorPolicy none (.new (clock ticks)) c.cachemap with
    | none =>
      rw [evictLoop_of_none _ _ _ hworst]
      refine iff_of_false (fun hroom => absurd hroom.added Bool.false_ne_true) ?_
      rintro ⟨e, he, hlt⟩
      exact of_decide_eq_false (findWorst_eq_none_iff.mp hworst e he) hlt
    | some worst =>
      have hmem := (mem_of_findWorst hworst).resolve_right (by simp)
      have hleast := (findWorst_lru (by simp) hworst).2
      have hevict : evictLoop LRUEvictorPolicy prepareToDie clock (0 + 1) c ticks
          = { ok := true, cache := c.erase worst.1, ticks := ticks + 1 } := by
        unfold evictLoop
        rw [hworst]
        rfl
      rw [hevict]
      refine iff_of_true ⟨rfl, ?_⟩ ?_
      . intro _ victim hvictim hgone
        have hkey : victim.1 = worst.1 := by
          by_contra hne
          exact hgone (List.mem_filter.mpr ⟨hvictim, decide_eq_true hne⟩)
        have hfind := SortedMap.find_of_mem lt_irrefl c.sorted hvictim
        rw [hkey, SortedMap.find_of_mem lt_irrefl c.sorted hmem] at hfind
        rw [← Option.some.inj hfind]
        exact hleast
      . by_contra hnone
        have hall : ∀ e ∈ c.cachemap, LRUEvictorPolicy.checkWorst e.2.policyData (.new (clock ticks)) = false :=
          fun e he => decide_eq_false fun hlt => hnone ⟨e, he, hlt⟩
        rw [findWorst_eq_none_iff.mpr hall] at hworst
        contradiction
  . refine iff_of_true ⟨?_, fun hfull' => absurd hfull' hfull⟩ fun hfull' => absurd hfull' hfull
    have hroom : ¬(c.limit ≠ 0 ∧ c.limit.toNat ≤ c.size) := hfull
    unfold add
    rw [if_neg hroom]
    rfl

end Step

theorem inLimit_step_pointer {limit : UInt32} (hlimit : limit ≠ 0) {s s' : PointerCache ID Pointer × Nat}
    {op : Op ID (Option Pointer)} (h : InLimit limit s.1.base)
    (hstep : PointerCache.step LRUEvictorPolicy prepareToDie clock s op = some s')
    : InLimit limit s'.1.base := by
  have hremoved (id : ID) : InLimit limit (s.1.remove id).base := by
    rw [PointerCache.remove_base]
    exact inLimit_erase h id
  cases op with
  | add id content =>
    cases hstep
    have hbase := congrArg Result.cache
      (PointerCache.add_base LRUEvictorPolicy prepareToDie clock s.1 id content s.2)
    have hadd := inLimit_add (c := s.1.base.remove id) clock (inLimit_erase h id) hlimit LRUEvictorPolicy
      prepareToDie id content s.2
    rw [← hbase] at hadd
    exact hadd
  | touch id =>
    cases hstep
    exact inLimit_touch clock h _ _
  | remove id =>
    cases hstep
    exact hremoved id
  | lookup id =>
    cases hstep
    exact h

/--
Each entry is added, and the entry that has to go for it is one that has not been used for longest, if and only if
some entry has been used before the second in which there is no room.
-/
theorem lru_makesRoom_iff {limit : UInt32} (hlimit : limit ≠ 0)
    : (∀ ops : List (Op ID CONTENT),
        AtAdds (step LRUEvictorPolicy prepareToDie clock) (new limit, 0) ops (fun s id content =>
            MakesRoom s.1 (evict LRUEvictorPolicy prepareToDie clock s.1 s.2)
              (add LRUEvictorPolicy prepareToDie clock s.1 id content s.2).ok)
          ↔ AtAdds (step LRUEvictorPolicy prepareToDie clock) (new limit, 0) ops fun s _ _ => s.1.HasOlder (clock s.2))
        ∧
      (∀ ops : List (Op ID (Option Pointer)),
        AtAdds (PointerCache.step LRUEvictorPolicy prepareToDie clock) (.new limit, 0) ops (fun s id content =>
            MakesRoom (s.1.remove id).base
              (((s.1.remove id).evict LRUEvictorPolicy prepareToDie clock s.2).map PointerCache.base)
              (s.1.add LRUEvictorPolicy prepareToDie clock id content s.2).ok)
          ↔ AtAdds (PointerCache.step LRUEvictorPolicy prepareToDie clock) (.new limit, 0) ops fun s id _ =>
              (s.1.remove id).base.HasOlder (clock s.2)) := by
  have hnew : InLimit limit (new limit : Cache ID CONTENT) := ⟨rfl, Nat.zero_le _⟩
  have hnewPointer : InLimit limit (PointerCache.new limit : PointerCache ID Pointer).base := ⟨rfl, Nat.zero_le _⟩
  constructor
  . intro ops
    refine AtAdds.congr (fun s => InLimit limit s.1) ?_ ?_ hnew ops
    . intro s op s' h hstep
      exact inLimit_step clock hlimit h hstep
    . intro s id content h
      exact makesRoom_iff clock h id content s.2
  . intro ops
    refine AtAdds.congr (fun s => InLimit limit s.1.base) ?_ ?_ hnewPointer ops
    . intro s op s' h hstep
      exact inLimit_step_pointer clock hlimit h hstep
    . intro s id content h
      have hok := congrArg Result.ok
        (PointerCache.add_base LRUEvictorPolicy prepareToDie clock s.1 id content s.2)
      have hok : (s.1.add LRUEvictorPolicy prepareToDie clock id content s.2).ok
          = (add LRUEvictorPolicy prepareToDie clock (s.1.base.remove id) id content s.2).ok := hok
      rw [PointerCache.evict_base, hok, PointerCache.remove_base]
      exact makesRoom_iff clock (inLimit_erase h id) id content s.2

-- The second entry is added a second later, and the first one goes.
theorem lru_makesRoom_iff_later
    : AtAdds (step LRUEvictorPolicy prepareToDie fun ticks => ticks) (new 1, 0) [.add 1 10, .add 2 20] fun s id content =>
        MakesRoom s.1 (evict LRUEvictorPolicy prepareToDie (fun ticks => ticks) s.1 s.2)
          (@add Nat Nat _ LRUEvictorPolicy prepareToDie (fun ticks => ticks) s.1 id content s.2).ok := by
  apply ((@lru_makesRoom_iff Nat Nat Nat _ (fun ticks => ticks) 1 (by decide)).1 _).mpr
  intro before op after heq s hrun id content hop
  match before with
  | [] =>
    cases hrun
    decide
  | [op] =>
    cases heq
    cases hrun
    decide
  | op :: op' :: before =>
    have hlength := congrArg List.length heq
    simp at hlength

theorem not_lru_makesRoom
    : ¬∀ clock : Nat → Int, Monotone clock → ∀ limit : UInt32, limit ≠ 0 → ∀ ops : List (Op Nat Nat),
        AtAdds (step LRUEvictorPolicy prepareToDie clock) (new limit, 0) ops fun s id content =>
          MakesRoom s.1 (evict LRUEvictorPolicy prepareToDie clock s.1 s.2)
            (add LRUEvictorPolicy prepareToDie clock s.1 id content s.2).ok := by
  intro h
  have hroom := h (fun _ => 0) monotone_const 1 (by decide) [.add 1 10, .add 2 20] [.add 1 10] (.add 2 20) [] rfl _ rfl 2 20 rfl
  exact absurd hroom.added (by decide)

end Cache

end ObTools
