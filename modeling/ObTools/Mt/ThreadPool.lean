import ObTools.Lib.Runs

/-!
This module contains the model of `MT::ThreadPool` without its shutdown, and the proof of when its spare
threads are no more than they should be.

A thread is given by its address. Those that have been created and not been deleted are live.
-/

namespace ObTools
namespace MT

structure ThreadPool (T : Type) where
  minSpares : UInt32
  maxThreads : UInt32
  spares : List T
  actives : List T
  live : List T
deriving DecidableEq, Repr

namespace ThreadPool

variable {T : Type}

-- Always at least one spare
def wantedSpares (p : ThreadPool T) : Nat := if p.minSpares ≠ 0 then p.minSpares.toNat else 1

section Fill

-- The address of the next thread, given those that are live
variable (alloc : List T → T)

def addSpare (p : ThreadPool T) : ThreadPool T :=
  let t := alloc p.live
  { p with spares := p.spares ++ [t], live := p.live ++ [t] }

def fill (p : ThreadPool T) : ThreadPool T :=
  if p.spares.length < p.wantedSpares
      ∧ (p.maxThreads = 0 ∨ p.spares.length + p.actives.length < p.maxThreads.toNat) then
    fill (p.addSpare alloc)
  else
    p
termination_by p.wantedSpares - p.spares.length
decreasing_by
  next h =>
    have hlength : (p.addSpare alloc).spares.length = p.spares.length + 1 := List.length_append
    have hwanted : (p.addSpare alloc).wantedSpares = p.wantedSpares := rfl
    omega

def new (minSpares maxThreads : UInt32) : ThreadPool T :=
  fill alloc { minSpares, maxThreads, spares := [], actives := [], live := [] }

-- `none` if none available
def remove (p : ThreadPool T) : Option T × ThreadPool T :=
  -- Try and make spares
  let p := p.fill alloc
  match p.spares with
  | [] => (none, p)
  | t :: spares => (some t, { p with spares, actives := p.actives ++ [t] })

end Fill

section Replace

variable [DecidableEq T]

-- Kill last one entered
def killSpare (p : ThreadPool T) (h : p.spares ≠ []) : ThreadPool T :=
  { p with spares := p.spares.dropLast, live := p.live.filter (· ≠ p.spares.getLast h) }

-- Empty spares above minimum amount
def trim (p : ThreadPool T) : ThreadPool T :=
  if h : p.spares ≠ [] ∧ (p.minSpares - 1).toNat < p.spares.length then
    trim (p.killSpare h.1)
  else
    p
termination_by p.spares.length
decreasing_by
  have hpos := List.length_pos_of_ne_nil h.1
  have hlength : (p.killSpare h.1).spares.length = p.spares.length - 1 := List.length_dropLast
  omega

def replace (p : ThreadPool T) (t : T) : ThreadPool T :=
  let p := trim { p with actives := p.actives.filter (· ≠ t) }
  { p with spares := p.spares ++ [t] }

inductive Op (T : Type) where
  | remove
  | replace (t : T)
deriving DecidableEq, Repr

-- Only a thread that has been removed can be replaced.
def step (alloc : List T → T) (p : ThreadPool T) : Op T → Option (ThreadPool T)
  | .remove => some (p.remove alloc).2
  | .replace t => if t ∈ p.actives then some (p.replace t) else none

end Replace

/-
What holds all along, with a thread that is being replaced, if there is one.
-/
structure Inv (held : List T) (p : ThreadPool T) : Prop where
  nodup : (held ++ p.spares ++ p.actives).Nodup
  live : ∀ t, t ∈ p.live ↔ t ∈ held ++ p.spares ++ p.actives
  limit : p.maxThreads ≠ 0 → (held ++ p.spares ++ p.actives).length ≤ p.maxThreads.toNat

section Fill

variable {alloc : List T → T} (halloc : ∀ live, alloc live ∉ live)
include halloc

theorem inv_addSpare {p : ThreadPool T} (h : Inv [] p)
    (hroom : p.maxThreads = 0 ∨ p.spares.length + p.actives.length < p.maxThreads.toNat)
    : Inv [] (p.addSpare alloc) := by
  have hfresh := halloc p.live
  have hperm : (p.spares ++ [alloc p.live] ++ p.actives).Perm (alloc p.live :: (p.spares ++ p.actives)) := by
    rw [List.append_assoc]
    exact List.perm_middle
  refine ⟨?_, ?_, ?_⟩
  . refine hperm.nodup_iff.mpr (List.nodup_cons.mpr ⟨?_, h.nodup⟩)
    exact fun hmem => hfresh ((h.live _).mpr hmem)
  . intro t
    have hmem : t ∈ p.spares ++ [alloc p.live] ++ p.actives ↔ t ∈ alloc p.live :: (p.spares ++ p.actives) :=
      hperm.mem_iff
    have hlive : t ∈ p.live ↔ t ∈ p.spares ++ p.actives := h.live t
    show t ∈ p.live ++ [alloc p.live] ↔ t ∈ p.spares ++ [alloc p.live] ++ p.actives
    rw [hmem, List.mem_append, List.mem_singleton, List.mem_cons, hlive, or_comm]
  . intro hmax
    have hlt := hroom.resolve_left hmax
    have hlength : (p.spares ++ [alloc p.live] ++ p.actives).length = p.spares.length + p.actives.length + 1 := by
      rw [hperm.length_eq, List.length_cons, List.length_append]
    show (p.spares ++ [alloc p.live] ++ p.actives).length ≤ p.maxThreads.toNat
    omega

/-
What a fill does, and when it stops.
-/
structure Fills (p q : ThreadPool T) : Prop where
  inv : Inv [] q
  minSpares : q.minSpares = p.minSpares
  maxThreads : q.maxThreads = p.maxThreads
  actives : q.actives = p.actives
  stops : ¬(q.spares.length < q.wantedSpares
    ∧ (q.maxThreads = 0 ∨ q.spares.length + q.actives.length < q.maxThreads.toNat))

theorem fill_fills {p : ThreadPool T} (h : Inv [] p) : Fills p (p.fill alloc) := by
  induction p using fill.induct alloc with
  | case1 p hmore ih =>
    obtain ⟨hinv, hmin, hmax, hactives, hstops⟩ := ih (inv_addSpare halloc h hmore.2)
    rw [fill, if_pos hmore]
    exact ⟨hinv, hmin, hmax, hactives, hstops⟩
  | case2 p hstop =>
    rw [fill, if_neg hstop]
    exact ⟨h, rfl, rfl, rfl, hstop⟩

omit halloc in
theorem inv_empty {minSpares maxThreads : UInt32}
    : Inv [] ({ minSpares, maxThreads, spares := [], actives := [], live := [] } : ThreadPool T) :=
  ⟨List.nodup_nil, fun _ => Iff.rfl, fun _ => Nat.zero_le _⟩

theorem inv_new (minSpares maxThreads : UInt32) : Inv [] (new alloc minSpares maxThreads) :=
  (fill_fills halloc inv_empty).inv

theorem inv_remove {p : ThreadPool T} (h : Inv [] p) : Inv [] (p.remove alloc).2 := by
  have hfill := (fill_fills halloc h).inv
  unfold remove
  dsimp only
  split
  . exact hfill
  . next t spares hspares =>
    obtain ⟨hnodup, hlive, hlimit⟩ := hfill
    rw [hspares] at hnodup hlimit
    have hperm : (spares ++ ((p.fill alloc).actives ++ [t])).Perm (t :: spares ++ (p.fill alloc).actives) := by
      rw [← List.append_assoc]
      exact List.perm_append_singleton t _
    refine ⟨?_, ?_, ?_⟩
    . exact hperm.nodup_iff.mpr hnodup
    . intro u
      have hmem := hlive u
      rw [hspares] at hmem
      exact hmem.trans hperm.mem_iff.symm
    . intro hmax
      exact Nat.le_trans (Nat.le_of_eq hperm.length_eq) (hlimit hmax)

/--
There is none only if there are as many active ones as allowed.
-/
theorem remove_eq_none {p : ThreadPool T} (h : Inv [] p) (hnone : (p.remove alloc).1 = none)
    : p.maxThreads ≠ 0 ∧ p.actives.length = p.maxThreads.toNat := by
  obtain ⟨hinv, -, hmax, hactives, hstops⟩ := fill_fills halloc h
  have hspares : (p.fill alloc).spares = [] := by
    unfold remove at hnone
    dsimp only at hnone
    split at hnone
    . next heq => exact heq
    . contradiction
  have hlimit := hinv.limit
  have hwanted : 0 < (p.fill alloc).wantedSpares := by
    unfold wantedSpares
    split
    . next hmin => exact Nat.pos_of_ne_zero fun hzero => hmin (UInt32.toNat_inj.mp hzero)
    . exact Nat.one_pos
  rw [hspares, hmax, hactives] at hlimit hstops
  rw [List.length_nil, not_and_or, not_or] at hstops
  obtain ⟨hne, hfull⟩ := hstops.resolve_left (not_not.mpr hwanted)
  have hle : p.actives.length ≤ p.maxThreads.toNat := hlimit hne
  exact ⟨hne, by omega⟩

end Fill

section Replace

variable [DecidableEq T]

theorem trim_spares (p : ThreadPool T) : p.trim.spares = p.spares.take (p.minSpares - 1).toNat := by
  induction p using trim.induct with
  | case1 p hmore ih =>
    have hle : (p.minSpares - 1).toNat ≤ p.spares.length - 1 := by omega
    have hspares : (p.killSpare hmore.1).spares = p.spares.take (p.spares.length - 1) := List.dropLast_eq_take
    have hmin : (p.killSpare hmore.1).minSpares = p.minSpares := rfl
    rw [trim, dif_pos hmore, ih, hspares, hmin, List.take_take, Nat.min_eq_left hle]
  | case2 p hstop =>
    rw [trim, dif_neg hstop]
    by_cases hnil : p.spares = []
    . rw [hnil, List.take_nil]
    . rw [List.take_of_length_le (Nat.le_of_not_lt fun hlt => hstop ⟨hnil, hlt⟩)]

theorem inv_killSpare {held : List T} {p : ThreadPool T} (h : Inv held p) (hne : p.spares ≠ [])
    : Inv held (p.killSpare hne) := by
  have hspares : p.spares = p.spares.dropLast ++ [p.spares.getLast hne] := (List.dropLast_append_getLast hne).symm
  have hperm : (held ++ p.spares ++ p.actives).Perm
      (p.spares.getLast hne :: (held ++ p.spares.dropLast ++ p.actives)) := by
    conv_lhs => rw [hspares, ← List.append_assoc, List.append_assoc _ [p.spares.getLast hne]]
    exact List.perm_middle
  have hnodup := List.nodup_cons.mp (hperm.nodup_iff.mp h.nodup)
  refine ⟨hnodup.2, ?_, ?_⟩
  . intro u
    have hlive := (h.live u).trans hperm.mem_iff
    rw [List.mem_cons] at hlive
    unfold killSpare
    rw [List.mem_filter, hlive, decide_eq_true_iff]
    constructor
    . rintro ⟨heq | hmem, hne⟩
      . exact absurd heq hne
      . exact hmem
    . intro hmem
      refine ⟨Or.inr hmem, ?_⟩
      rintro rfl
      exact hnodup.1 hmem
  . intro hmax
    have hlength := hperm.length_eq
    rw [List.length_cons] at hlength
    exact Nat.le_trans (Nat.le_trans (Nat.le_succ _) (Nat.le_of_eq hlength.symm)) (h.limit hmax)

theorem inv_trim {held : List T} {p : ThreadPool T} (h : Inv held p) : Inv held p.trim := by
  induction p using trim.induct with
  | case1 p hmore ih =>
    rw [trim, dif_pos hmore]
    exact ih (inv_killSpare h hmore.1)
  | case2 p hstop =>
    rw [trim, dif_neg hstop]
    exact h

theorem inv_replace {p : ThreadPool T} (h : Inv [] p) {t : T} (ht : t ∈ p.actives) : Inv [] (p.replace t) := by
  have hactives : p.actives.Nodup := (List.nodup_append.mp h.nodup).2.1
  have hperm : ([t] ++ p.spares ++ p.actives.filter (· ≠ t)).Perm (p.spares ++ p.actives) := by
    have herase : p.actives.filter (· ≠ t) = p.actives.erase t := by
      rw [hactives.erase_eq_filter]
      apply List.filter_congr
      intro u _
      by_cases heq : u = t
      . simp [heq]
      . simp [heq]
    have hmiddle : (t :: (p.spares ++ p.actives.erase t)).Perm (p.spares ++ t :: p.actives.erase t) :=
      List.perm_middle.symm
    rw [herase, List.append_assoc]
    exact hmiddle.trans ((List.perm_cons_erase ht).symm.append_left p.spares)
  have hheld : Inv [t] { p with actives := p.actives.filter (· ≠ t) } := by
    refine ⟨hperm.nodup_iff.mpr h.nodup, ?_, ?_⟩
    . intro u
      exact (h.live u).trans hperm.mem_iff.symm
    . intro hmax
      exact Nat.le_trans (Nat.le_of_eq hperm.length_eq) (h.limit hmax)
  obtain ⟨hnodup, hlive, hlimit⟩ := inv_trim hheld
  have hback (spares actives : List T) : (spares ++ [t] ++ actives).Perm ([t] ++ spares ++ actives) :=
    List.Perm.append_right actives List.perm_append_comm
  refine ⟨(hback _ _).nodup_iff.mpr hnodup, ?_, ?_⟩
  . intro u
    exact (hlive u).trans (hback _ _).mem_iff.symm
  . intro hmax
    exact Nat.le_trans (Nat.le_of_eq (hback _ _).length_eq) (hlimit hmax)

theorem trim_minSpares (p : ThreadPool T) : p.trim.minSpares = p.minSpares := by
  induction p using trim.induct with
  | case1 p hmore ih =>
    rw [trim, dif_pos hmore]
    exact ih
  | case2 p hstop => rw [trim, dif_neg hstop]

theorem length_spares_replace (p : ThreadPool T) (t : T)
    : (p.replace t).spares.length = min (p.minSpares - 1).toNat p.spares.length + 1 := by
  unfold replace
  dsimp only
  rw [trim_spares, List.length_append, List.length_take, List.length_singleton]

/--
With a minimum of 0, nothing is emptied.
-/
theorem length_spares_replace_le_iff (p : ThreadPool T) (t : T)
    : (p.replace t).spares.length ≤ max 1 p.minSpares.toNat ↔ p.minSpares ≠ 0 ∨ p.spares = [] := by
  rw [length_spares_replace]
  by_cases hmin : p.minSpares = 0
  . have hwrapped : ((0 : UInt32) - 1).toNat = 4294967295 := by decide
    have hzero : (0 : UInt32).toNat = 0 := rfl
    rw [hmin, hwrapped, hzero, or_iff_right (not_not.mpr rfl), ← List.length_eq_zero_iff]
    omega
  . have hpos : p.minSpares.toNat ≠ 0 := fun hzero => hmin (UInt32.toNat_inj.mp hzero)
    have hpred : (p.minSpares - 1).toNat = p.minSpares.toNat - 1 := by
      have hlt := p.minSpares.toNat_lt
      rw [UInt32.toNat_sub, UInt32.toNat_one]
      omega
    rw [hpred]
    exact iff_of_true (by omega) (Or.inl hmin)

end Replace

section Run

variable [DecidableEq T] {alloc : List T → T}

structure Bookkept (alloc : List T → T) (p : ThreadPool T) : Prop where
  -- Each live thread is in exactly one of the two lists, once
  live : ∀ t ∈ p.live, p.spares.count t + p.actives.count t = 1
  limit : p.maxThreads ≠ 0 → p.spares.length + p.actives.length ≤ p.maxThreads.toNat
  none : (p.remove alloc).1 = none → p.maxThreads ≠ 0 ∧ p.actives.length = p.maxThreads.toNat

theorem Inv.bookkept (halloc : ∀ live, alloc live ∉ live) {p : ThreadPool T} (h : Inv [] p) : Bookkept alloc p := by
  refine ⟨?_, ?_, remove_eq_none halloc h⟩
  . intro t ht
    rw [← List.count_append]
    exact List.count_eq_one_of_mem h.nodup ((h.live t).mp ht)
  . intro hmax
    rw [← List.length_append]
    exact h.limit hmax

omit [DecidableEq T] in
theorem minSpares_new (halloc : ∀ live, alloc live ∉ live) (minSpares maxThreads : UInt32)
    : (new alloc minSpares maxThreads).minSpares = minSpares :=
  (fill_fills halloc inv_empty).minSpares

theorem inv_step (halloc : ∀ live, alloc live ∉ live) {minSpares : UInt32} {p q : ThreadPool T} {op : Op T}
    (h : Inv [] p ∧ p.minSpares = minSpares) (hstep : step alloc p op = some q)
    : Inv [] q ∧ q.minSpares = minSpares := by
  cases op with
  | remove =>
    cases hstep
    refine ⟨inv_remove halloc h.1, ?_⟩
    have hmin := (fill_fills halloc h.1).minSpares
    unfold remove
    dsimp only
    split
    . exact hmin.trans h.2
    . exact hmin.trans h.2
  | replace t =>
    unfold step at hstep
    dsimp only at hstep
    split at hstep
    . next ht =>
      cases hstep
      exact ⟨inv_replace h.1 ht, (trim_minSpares _).trans h.2⟩
    . contradiction

/--
The threads are in order in each run, and the spare ones are no more than they should be behind each replacement, if and
only if there is a minimum or each thread is replaced when there are no spare ones.
-/
theorem bookkept_iff (halloc : ∀ live, alloc live ∉ live) (minSpares maxThreads : UInt32) (ops : List (Op T))
    : (∀ p, Runs.run (step alloc) (new alloc minSpares maxThreads) ops = some p → Bookkept alloc p)
        ∧ (Runs.Along (step alloc) (new alloc minSpares maxThreads) ops (fun p op =>
              ∀ t, op = .replace t → t ∈ p.actives → (p.replace t).spares.length ≤ max 1 minSpares.toNat)
            ↔ Runs.Along (step alloc) (new alloc minSpares maxThreads) ops fun p op =>
              ∀ t, op = .replace t → t ∈ p.actives → minSpares ≠ 0 ∨ p.spares = []) := by
  have hnew : Inv [] (new alloc minSpares maxThreads) ∧ (new alloc minSpares maxThreads).minSpares = minSpares :=
    ⟨inv_new halloc minSpares maxThreads, minSpares_new halloc minSpares maxThreads⟩
  have hinv (p : ThreadPool T) (op : Op T) (q : ThreadPool T) (h : Inv [] p ∧ p.minSpares = minSpares)
      (hstep : step alloc p op = some q)
      : Inv [] q ∧ q.minSpares = minSpares :=
    inv_step halloc h hstep
  constructor
  . intro p hrun
    exact (Runs.run_inv hinv hnew hrun).1.bookkept halloc
  . refine Runs.along_congr _ hinv ?_ hnew ops
    rintro p op ⟨-, rfl⟩
    refine forall_congr' fun t => imp_congr_right fun _ => imp_congr_right fun _ => ?_
    exact length_spares_replace_le_iff p t

end Run

-- The next address is behind all others.
def sampleAlloc (live : List Nat) : Nat := live.foldl max 0 + 1

theorem sampleAlloc_not_mem (live : List Nat) : sampleAlloc live ∉ live := by
  have hle (start : Nat) : start ≤ live.foldl max start ∧ ∀ t ∈ live, t ≤ live.foldl max start := by
    induction live generalizing start with
    | nil => exact ⟨Nat.le_refl _, fun _ ht => absurd ht List.not_mem_nil⟩
    | cons u live ih =>
      obtain ⟨hmax, hall⟩ := ih (max start u)
      rw [List.forall_mem_cons, List.foldl_cons]
      exact ⟨by omega, by omega, hall⟩
  intro hmem
  have hlt := (hle 0).2 _ hmem
  unfold sampleAlloc at hlt
  omega

theorem bookkept_iff_one
    : Runs.Along (step sampleAlloc) (new sampleAlloc 1 0) [.remove, .replace 1] fun p op =>
        ∀ t, op = .replace t → t ∈ p.actives → (p.replace t).spares.length ≤ max 1 1 :=
  (bookkept_iff sampleAlloc_not_mem 1 0 [.remove, .replace 1]).2.mpr fun _ _ _ _ _ _ _ _ _ => Or.inl (by decide)

-- Two threads are removed and replaced.
theorem not_bookkept
    : ¬∀ (alloc : List Nat → Nat), (∀ live, alloc live ∉ live) → ∀ (minSpares maxThreads : UInt32) (ops : List (Op Nat)),
        Runs.Along (step alloc) (new alloc minSpares maxThreads) ops fun p op =>
          ∀ t, op = .replace t → t ∈ p.actives → (p.replace t).spares.length ≤ max 1 minSpares.toNat := by
  intro h
  have hrun : Runs.run (step sampleAlloc) (new sampleAlloc 0 0) [.remove, .remove, .replace 1]
      = some { minSpares := 0, maxThreads := 0, spares := [1], actives := [2], live := [1, 2] } := by
    simp [Runs.run, step, remove, new, fill, wantedSpares, addSpare, sampleAlloc, replace, trim]
  have hlength := h sampleAlloc sampleAlloc_not_mem 0 0 [.remove, .remove, .replace 1, .replace 2]
    [.remove, .remove, .replace 1] (.replace 2) [] rfl _ hrun 2 rfl (by decide)
  rw [length_spares_replace] at hlength
  revert hlength
  decide

end ThreadPool

end MT
end ObTools
