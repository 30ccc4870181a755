import ObTools.Db.Pool

/-!
This module contains the proof of when no call of `claim` waits for a connection while there is one available: a
request is entered, and the pool is filled up, without a look at the other side.
-/

namespace ObTools
namespace DB

namespace ConnectionPool

variable {pool pool' : ConnectionPool}

-- Whether a connection is put in the pool
def anyCreated : List Creation → Bool
  | [] => false
  | .null :: creations => anyCreated creations
  | .bad :: _ => false
  | .good _ _ :: _ => true

def refills (pool : ConnectionPool) (creations : Nat → Creation) : Bool :=
  anyCreated ((List.range (pool.minConnections - pool.connections.length)).map creations)

-- What is of no concern for the connections
structure Requested (pool pool' : ConnectionPool) : Prop where
  pendingRequests : pool'.pendingRequests = pool.pendingRequests
  claimTimeout : pool'.claimTimeout = pool.claimTimeout

theorem Requested.refl (pool : ConnectionPool) : pool.Requested pool := ⟨rfl, rfl⟩

theorem Requested.trans {pool'' : ConnectionPool} (h : pool.Requested pool') (h' : pool'.Requested pool'')
    : pool.Requested pool'' :=
  ⟨h'.pendingRequests.trans h.pendingRequests, h'.claimTimeout.trans h.claimTimeout⟩

theorem Requested.delete (pool : ConnectionPool) (conn : Connection) : pool.Requested (pool.delete conn) := ⟨rfl, rfl⟩

theorem claimLoop_requested (ok : Connection → Bool) (now : Int) (available : List Connection) (pool : ConnectionPool)
    : pool.Requested (claimLoop ok now available pool).2 := by
  induction available generalizing pool with
  | nil => exact ⟨rfl, rfl⟩
  | cons conn available ih =>
    unfold claimLoop
    split
    . exact ⟨rfl, rfl⟩
    . exact (Requested.delete pool conn).trans (ih _)

-- A new connection is not put among the available ones.
theorem claim_requested {ok : Connection → Bool} {now : Int} {creation : Creation} {claimed : Claimed}
    (h : pool.claim ok now creation = some (claimed, pool'))
    : pool.Requested pool' ∧ (pool.available = [] → pool'.available = []) := by
  have hloop := claimLoop_requested ok now pool.available pool
  have hnil : pool.available = [] → claimLoop ok now pool.available pool = (none, { pool with available := [] }) := by
    intro havailable
    rw [havailable]
    rfl
  unfold claim at h
  generalize claimLoop ok now pool.available pool = found at h hloop hnil
  obtain ⟨conn, looped⟩ := found
  cases conn with
  | some conn =>
    cases h
    refine ⟨hloop, ?_⟩
    intro havailable
    cases hnil havailable
  | none =>
    have hlooped : pool.available = [] → looped.available = [] := by
      intro havailable
      rw [(Prod.mk.inj (hnil havailable)).2]
    dsimp only at h
    split at h
    . cases creation with
      | null =>
        cases h
        exact ⟨hloop, hlooped⟩
      | bad =>
        cases h
        exact ⟨hloop, hlooped⟩
      | good conn now =>
        dsimp only at h
        rw [Option.bind_eq_bind, Option.bind_eq_some_iff] at h
        obtain ⟨added, hadd, hrest⟩ := h
        cases hrest
        unfold add at hadd
        split at hadd
        . cases hadd
        . cases hadd
          exact ⟨⟨hloop.pendingRequests, hloop.claimTimeout⟩, hlooped⟩
    . cases h
      exact ⟨hloop, hlooped⟩

theorem reapFailed_requested (ok : Connection → Bool) (available kept : List Connection) (pool : ConnectionPool)
    : pool.Requested (reapFailed ok available kept pool) := by
  induction available generalizing kept pool with
  | nil => exact ⟨rfl, rfl⟩
  | cons conn available ih =>
    unfold reapFailed
    split
    . exact ih (kept ++ [conn]) pool
    . exact (Requested.delete pool conn).trans (ih kept _)

theorem reapInactive_requested (now : Int) (entry : Connection × Int) (pool : ConnectionPool)
    : pool.Requested (reapInactive now pool entry) := by
  unfold reapInactive
  dsimp only
  split
  . split
    . exact ⟨rfl, rfl⟩
    . split
      . exact ⟨rfl, rfl⟩
      . exact Requested.refl pool
  . exact Requested.refl pool

theorem foldl_reapInactive_requested (now : Int) (entries : List (Connection × Int)) (pool : ConnectionPool)
    : pool.Requested (entries.foldl (reapInactive now) pool) := by
  induction entries generalizing pool with
  | nil => exact Requested.refl pool
  | cons entry entries ih => exact (reapInactive_requested now entry pool).trans (ih _)

-- Nothing is reaped when nothing is available.
theorem foldl_reapInactive_nil (now : Int) (entries : List (Connection × Int)) (h : pool.available = [])
    : ∃ lastUsed, entries.foldl (reapInactive now) pool = { pool with lastUsed } := by
  induction entries generalizing pool with
  | nil => exact ⟨pool.lastUsed, rfl⟩
  | cons entry entries ih =>
    have hone : ∃ lastUsed, reapInactive now pool entry = { pool with lastUsed } := by
      unfold reapInactive
      dsimp only
      split
      . rw [if_pos (by simp [h])]
        exact ⟨_, rfl⟩
      . exact ⟨pool.lastUsed, rfl⟩
    obtain ⟨lastUsed, hone⟩ := hone
    rw [List.foldl_cons, hone]
    exact ih h

theorem fillLoop_available {creations : List Creation} (h : fillLoop creations pool = some pool')
    : pool.Requested pool'
        ∧ ∃ more, pool'.available = pool.available ++ more ∧ (more = [] ↔ anyCreated creations = false) := by
  induction creations generalizing pool with
  | nil =>
    cases h
    exact ⟨Requested.refl _, [], (List.append_nil _).symm, iff_of_true rfl rfl⟩
  | cons creation creations ih =>
    cases creation with
    | null => exact ih h
    | bad =>
      cases h
      exact ⟨Requested.refl _, [], (List.append_nil _).symm, iff_of_true rfl rfl⟩
    | good conn now =>
      rw [fillLoop, Option.bind_eq_bind, Option.bind_eq_some_iff] at h
      obtain ⟨added, hadd, hrest⟩ := h
      obtain ⟨hrequested, more, havailable, -⟩ := ih hrest
      unfold add at hadd
      split at hadd
      . cases hadd
      . cases hadd
        refine ⟨⟨hrequested.pendingRequests, hrequested.claimTimeout⟩, conn :: more, ?_, ?_⟩
        . rw [havailable]
          exact List.append_assoc ..
        . exact iff_of_false (List.cons_ne_nil _ _) Bool.true_eq_false.mp

theorem fillToMinimum_available {creations : Nat → Creation} (h : pool.fillToMinimum creations = some pool')
    : pool.Requested pool'
        ∧ ∃ more, pool'.available = pool.available ++ more ∧ (more = [] ↔ pool.refills creations = false) := by
  unfold fillToMinimum at h
  split at h
  . exact fillLoop_available h
  . next hmany =>
    cases h
    have hrange : pool.minConnections - pool.connections.length = 0 := by omega
    refine ⟨Requested.refl _, [], (List.append_nil _).symm, iff_of_true rfl ?_⟩
    unfold refills
    rw [hrange]
    rfl

end ConnectionPool

namespace System

variable {s s' : System}

-- No request waits while a connection is available.
def Served (s : System) : Prop := s.pool.pendingRequests = [] ∨ s.pool.available = []

-- The only request that there is times out
def lastTimesOut (s : System) (later : Int) : Bool :=
  match s.pool.pendingRequests with
  | [pr] => s.requests[pr]?.any fun request => later - request.started > s.pool.claimTimeout
  | _ => false

/-
A request is entered when nothing is available, and the pool is not filled up for those that are left waiting.
-/
def safe (s : System) : Event → Bool
  | .request _ => s.pool.available.isEmpty
  | .iterate _ _ creations later =>
    s.pool.pendingRequests.isEmpty || s.lastTimesOut later || !s.pool.refills creations
  | _ => true

theorem request_served {started : Int} (hstep : s.step (.request started) = some s')
    : s.safe (.request started) = true ↔ s'.Served := by
  unfold step at hstep
  dsimp only at hstep
  split at hstep
  . cases hstep
  . cases hstep
    unfold Served safe
    rw [List.isEmpty_iff]
    exact (or_iff_right (by simp)).symm

theorem wakeUp_served (h : s.Served) {pr : Nat} (hstep : s.step (.wakeUp pr) = some s') : s'.Served := by
  unfold step at hstep
  dsimp only at hstep
  rw [Option.bind_eq_bind, Option.bind_eq_some_iff] at hstep
  obtain ⟨request, -, hstep⟩ := hstep
  split at hstep
  . cases hstep
    exact h
  . cases hstep

theorem release_served (h : s.Served) {conn : Connection} (hstep : s.step (.release conn) = some s') : s'.Served := by
  unfold step at hstep
  dsimp only at hstep
  split at hstep
  . cases hstep
    unfold Served ConnectionPool.release
    cases hpending : s.pool.pendingRequests with
    | nil =>
      have hlock : s.pool.lock.pendingRequests = [] := hpending
      rw [hlock]
      dsimp only
      split
      . exact Or.inl hlock
      . exact Or.inl rfl
    | cons pr pendingRequests =>
      have hlock : s.pool.lock.pendingRequests = pr :: pendingRequests := hpending
      have havailable : s.pool.lock.available = [] := h.resolve_left (by simp [hpending])
      rw [hlock]
      exact Or.inr havailable
  . cases hstep

theorem claim_served (h : s.Served) {ok : Connection → Bool} {now : Int} {creation : Creation}
    (hstep : s.step (.claim ok now creation) = some s')
    : s'.Served := by
  have hclaimed {claimed : ConnectionPool.Claimed} {pool : ConnectionPool}
      (hclaim : s.pool.lock.claim ok now creation = some (claimed, pool))
      : pool.pendingRequests = [] ∨ pool.available = [] := by
    obtain ⟨hrequested, havailable⟩ := ConnectionPool.claim_requested hclaim
    exact h.imp hrequested.pendingRequests.trans havailable
  unfold step at hstep
  dsimp only at hstep
  rw [Option.bind_eq_bind, Option.bind_eq_some_iff] at hstep
  obtain ⟨⟨claimed, pool⟩, hclaim, hstep⟩ := hstep
  cases claimed with
  | connection conn =>
    cases hstep
    exact hclaimed hclaim
  | failed =>
    cases hstep
    exact hclaimed hclaim
  | full =>
    cases hstep
    exact hclaimed hclaim

theorem timeOut_served (pool : ConnectionPool) (later : Int) (requests : List PendingRequest)
    : (pool.timeOut later requests).1.available = pool.available
        ∧ ((pool.timeOut later requests).1.pendingRequests = []
          ↔ pool.pendingRequests = [] ∨ ∃ pr request, pool.pendingRequests = [pr] ∧ requests[pr]? = some request
              ∧ later - request.started > pool.claimTimeout) := by
  unfold ConnectionPool.timeOut
  cases hpending : pool.pendingRequests with
  | nil => simp [hpending]
  | cons pr pendingRequests =>
    dsimp only
    cases hrequest : requests[pr]? with
    | none =>
      refine ⟨rfl, ?_⟩
      simp [hpending, hrequest]
    | some request =>
      dsimp only
      split
      . next htime =>
        refine ⟨rfl, ?_⟩
        simp [hrequest, htime]
      . next htime =>
        refine ⟨rfl, ?_⟩
        simp [hpending, hrequest, htime]

theorem lastTimesOut_eq_true_iff {later : Int}
    : s.lastTimesOut later = true
        ↔ ∃ pr request, s.pool.pendingRequests = [pr] ∧ s.requests[pr]? = some request
          ∧ later - request.started > s.pool.claimTimeout := by
  unfold lastTimesOut
  split
  . next pr hpending =>
    rw [Option.any_eq_true]
    simp [hpending]
  . next hother =>
    refine iff_of_false Bool.false_ne_true ?_
    intro ⟨pr, request, hpending, _⟩
    exact hother pr hpending

theorem iterate_served (h : s.Served) {ok : Connection → Bool} {now later : Int} {creations : Nat → Creation}
    (hstep : s.step (.iterate ok now creations later) = some s')
    : s.safe (.iterate ok now creations later) = true ↔ s'.Served := by
  unfold step at hstep
  dsimp only at hstep
  rw [Option.bind_eq_bind, Option.bind_eq_some_iff] at hstep
  obtain ⟨⟨pool, requests⟩, hiterate, hstep⟩ := hstep
  cases hstep
  unfold ConnectionPool.iterate at hiterate
  dsimp only at hiterate
  rw [Option.bind_eq_bind, Option.bind_eq_some_iff] at hiterate
  obtain ⟨filled, hfill, htimeOut⟩ := hiterate
  obtain ⟨hfilled, more, havailable, hmore⟩ := ConnectionPool.fillToMinimum_available hfill
  have hreaped := (ConnectionPool.reapFailed_requested ok s.pool.lock.available [] s.pool.lock).trans
    (ConnectionPool.foldl_reapInactive_requested now
      (ConnectionPool.reapFailed ok s.pool.lock.available [] s.pool.lock).lastUsed _)
  have hrequested := hreaped.trans hfilled
  have hpending : filled.pendingRequests = s.pool.pendingRequests := hrequested.pendingRequests
  have htimeout : filled.claimTimeout = s.pool.claimTimeout := hrequested.claimTimeout
  obtain ⟨hleft, hout⟩ := timeOut_served filled later s.requests
  have hpool : (filled.timeOut later s.requests).1 = pool := congrArg Prod.fst (Option.some.inj htimeOut)
  rw [hpool] at hleft hout
  rw [hpending, htimeout] at hout
  unfold Served
  dsimp only
  by_cases hnone : s.pool.pendingRequests = []
  . refine iff_of_true ?_ (Or.inl (hout.mpr (Or.inl hnone)))
    unfold safe
    rw [hnone]
    rfl
  . have hempty : s.pool.lock.available = [] := h.resolve_left hnone
    -- with nothing available the pool is filled up as it is
    have hfailed : ConnectionPool.reapFailed ok s.pool.lock.available [] s.pool.lock = { s.pool.lock with available := [] } := by
      rw [hempty]
      rfl
    rw [hfailed] at hmore havailable
    obtain ⟨lastUsed, hinactive⟩ := ConnectionPool.foldl_reapInactive_nil now s.pool.lock.lastUsed
      (show { s.pool.lock with available := [] }.available = [] from rfl)
    dsimp only at hmore havailable
    rw [hinactive] at hmore havailable
    have hrefills : more = [] ↔ s.pool.refills creations = false := hmore
    rw [or_iff_right hnone, ← lastTimesOut_eq_true_iff] at hout
    rw [hleft, havailable, List.nil_append, hrefills, hout]
    unfold safe
    rw [Bool.or_eq_true, Bool.or_eq_true, List.isEmpty_iff, or_iff_right hnone, Bool.not_eq_true']

theorem new_served {minConnections maxConnections : Nat} {maxInactivity claimTimeout : Int} {creations : Nat → Creation}
    (hnew : System.new minConnections maxConnections maxInactivity claimTimeout creations = some s)
    : s.Served := by
  unfold new at hnew
  rw [Option.bind_eq_bind, Option.bind_eq_some_iff] at hnew
  obtain ⟨pool, hpool, hs⟩ := hnew
  cases hs
  exact Or.inl (ConnectionPool.fillToMinimum_available hpool).1.pendingRequests

theorem step_served (s : System) (e : Event) (s' : System) (h : s.Served) (hstep : s.step e = some s')
    : s.safe e = true ↔ s'.Served := by
  cases e with
  | claim ok now creation => exact iff_of_true rfl (claim_served h hstep)
  | request started => exact request_served hstep
  | wakeUp pr => exact iff_of_true rfl (wakeUp_served h hstep)
  | release conn => exact iff_of_true rfl (release_served h hstep)
  | iterate ok now creations later => exact iterate_served h hstep

/-
Every step of a run meets the condition if and only if no state of it has a request waiting while a connection is
available.
-/
theorem served_of_run (minConnections maxConnections : Nat) (maxInactivity claimTimeout : Int)
    (creations : Nat → Creation) (s₀ s : System)
    (hnew : System.new minConnections maxConnections maxInactivity claimTimeout creations = some s₀)
    (events : List Event) (hrun : Runs.run System.step s₀ events = some s)
    : Runs.all System.step safe s₀ events = true
        ↔ ∀ es, es <+: events → ∀ t, Runs.run System.step s₀ es = some t → t.Served :=
  Runs.all_iff_inv step_served (new_served hnew) hrun

-- A pool with one connection
def oneConnection : System :=
  {
    pool := {
      minConnections := 1
      maxConnections := 1
      maxInactivity := 60
      connections := [7]
      available := [7]
      pendingRequests := []
      claimTimeout := 5
      lastUsed := [(7, 0)]
      live := [7]
      deleted := []
    }
    requests := []
    atMaximum := 0
    waiting := []
    held := []
  }

-- Two clients of one connection, of which the second one waits for it
def handOver : List Event := [.claim (fun _ => true) 1 .null, .claim (fun _ => true) 1 .null, .request 2, .release 7]

-- What the second client has asked for is handed over by the first one.
theorem served_of_run_handOver
    : Runs.all System.step safe oneConnection handOver = true
        ∧ ∀ es, es <+: handOver → ∀ t, Runs.run System.step oneConnection es = some t → t.Served :=
  ⟨rfl, (served_of_run 1 1 60 5 (fun _ => .good 7 0) oneConnection _ rfl handOver rfl).mp rfl⟩

/-
The connection is released after the second client has found none, and before it asks for it.
-/
theorem not_served_of_run
    : ¬∀ (minConnections maxConnections : Nat) (maxInactivity claimTimeout : Int) (creations : Nat → Creation)
        (s₀ s : System), System.new minConnections maxConnections maxInactivity claimTimeout creations = some s₀ →
          ∀ events : List Event, Runs.run System.step s₀ events = some s → s.Served := by
  intro h
  have hserved := h 1 1 60 5 (fun _ => .good 7 0) _ _ rfl
    [.claim (fun _ => true) 1 .null, .claim (fun _ => true) 1 .null, .release 7, .request 2] rfl
  exact absurd hserved (by unfold Served; decide)

end System

end DB
end ObTools
