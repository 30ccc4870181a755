import ObTools.Db.Pool
import Mathlib.Data.List.Nodup
import Mathlib.Data.List.Perm.Basic

/-!
This module contains the invariant of the connection pool, that each of its operations keeps it, and the
proof that connections are exclusive in every run of the pool and its clients.
-/

namespace ObTools
namespace DB

namespace ConnectionPool

/--
The containers of a pool agree, while the connections `busy` are out with clients.
-/
structure Consistent (pool : ConnectionPool) (busy : List Connection) : Prop where
  nodup_connections : pool.connections.Nodup
  nodup_available : pool.available.Nodup
  nodup_busy : busy.Nodup
  available : ∀ conn ∈ pool.available, conn ∈ pool.connections ∧ conn ∉ busy
  busy : ∀ conn ∈ busy, conn ∈ pool.connections
  sorted : SortedMap.Sorted pool.lastUsed
  lastUsed : ∀ conn, (∃ t, (conn, t) ∈ pool.lastUsed) ↔ conn ∈ pool.connections
  live : ∀ conn, conn ∈ pool.live ↔ conn ∈ pool.connections
  length : pool.connections.length ≤ pool.maxConnections

/--
None of the connections `busy` has been deleted since the mutex was locked.
-/
def Spares (pool : ConnectionPool) (busy : List Connection) : Prop := ∀ conn ∈ pool.deleted, conn ∉ busy

theorem mem_set {conn conn' : Connection} {now t : Int} {m : List (Connection × Int)}
    (hm : SortedMap.Sorted m)
    : (conn', t) ∈ SortedMap.set conn now m ↔ (conn' = conn ∧ t = now) ∨ ((conn', t) ∈ m ∧ conn' ≠ conn) := by
  rw [SortedMap.mem_set Nat.lt_irrefl (fun _ _ _ => Nat.lt_trans) hm, Prod.mk.injEq]

theorem sorted_set {conn : Connection} {now : Int} {m : List (Connection × Int)}
    (hm : SortedMap.Sorted m)
    : SortedMap.Sorted (SortedMap.set conn now m) := by
  apply SortedMap.sorted_set Nat.lt_irrefl (fun _ _ _ => Nat.lt_trans) _ hm
  omega

theorem exists_mem_set {conn conn' : Connection} {now : Int} {m : List (Connection × Int)}
    (hm : SortedMap.Sorted m)
    : (∃ t, (conn', t) ∈ SortedMap.set conn now m) ↔ conn' = conn ∨ ∃ t, (conn', t) ∈ m := by
  simp only [mem_set hm]
  constructor
  . rintro ⟨t, ⟨heq, -⟩ | ⟨hmem, -⟩⟩
    . exact .inl heq
    . exact .inr ⟨t, hmem⟩
  . intro h
    by_cases heq : conn' = conn
    . exact ⟨now, .inl ⟨heq, rfl⟩⟩
    . obtain ⟨t, hmem⟩ := h.resolve_left heq
      exact ⟨t, .inr ⟨hmem, heq⟩⟩

theorem exists_mem_erase {conn conn' : Connection} {m : List (Connection × Int)}
    : (∃ t, (conn', t) ∈ SortedMap.erase conn m) ↔ (∃ t, (conn', t) ∈ m) ∧ conn' ≠ conn := by
  simp [SortedMap.erase, exists_and_right]

variable {pool pool' : ConnectionPool} {busy busy' : List Connection} {conn : Connection}

theorem Consistent.perm (h : pool.Consistent busy) (hperm : busy.Perm busy') : pool.Consistent busy' := by
  constructor
  . apply h.nodup_connections
  . apply h.nodup_available
  . apply hperm.nodup h.nodup_busy
  . intro conn hconn
    rw [← hperm.mem_iff]
    apply h.available conn hconn
  . intro conn hconn
    apply h.busy conn (hperm.mem_iff.mpr hconn)
  . apply h.sorted
  . apply h.lastUsed
  . apply h.live
  . apply h.length

/--
An available connection can be deleted, together with others that are not offered any more.
-/
theorem Consistent.delete {offered available : List Connection}
    (h : { pool with available := offered }.Consistent busy) (hconn : conn ∈ offered)
    (hnodup : available.Nodup) (havailable : ∀ conn' ∈ available, conn' ∈ offered ∧ conn' ≠ conn)
    : { pool.delete conn with available }.Consistent busy := by
  constructor
  . apply h.nodup_connections.filter
  . apply hnodup
  . apply h.nodup_busy
  . intro conn' hconn'
    obtain ⟨hmem, hne⟩ := havailable conn' hconn'
    obtain ⟨hconnection, hfree⟩ := h.available conn' hmem
    exact ⟨List.mem_filter.mpr ⟨hconnection, decide_eq_true hne⟩, hfree⟩
  . intro conn' hconn'
    have hne : conn' ≠ conn := by
      rintro rfl
      apply (h.available conn' hconn).2 hconn'
    apply List.mem_filter.mpr ⟨h.busy conn' hconn', decide_eq_true hne⟩
  . apply List.Pairwise.filter _ h.sorted
  . intro conn'
    rw [ConnectionPool.delete, exists_mem_erase, h.lastUsed]
    simp
  . intro conn'
    simp [ConnectionPool.delete, h.live]
  . apply (List.length_filter_le _ _).trans h.length

theorem Spares.delete (h : pool.Spares busy) (hfree : conn ∉ busy) : (pool.delete conn).Spares busy := by
  intro conn' hconn'
  rcases List.mem_cons.mp hconn' with rfl | hmem
  . apply hfree
  . apply h conn' hmem

-- What is added is new
theorem add_spec (h : pool.Consistent busy) {now : Int} (hadd : pool.add conn now = some pool')
    : conn ∉ pool.connections
        ∧
      pool' =
        { pool with
          connections := pool.connections ++ [conn]
          lastUsed := SortedMap.set conn now pool.lastUsed
          live := conn :: pool.live } := by
  unfold add at hadd
  split at hadd
  . contradiction
  . next hlive => exact ⟨(h.live conn).not.mp hlive, (Option.some.inj hadd).symm⟩

/--
A new connection is either made available or handed out.
-/
theorem Consistent.add (h : pool.Consistent busy) (hroom : pool.connections.length < pool.maxConnections)
    {now : Int} (hadd : pool.add conn now = some pool')
    : pool'.Consistent (conn :: busy)
        ∧
      { pool' with available := pool'.available ++ [conn] }.Consistent busy := by
  obtain ⟨hnew, rfl⟩ := add_spec h hadd
  have hbusy : conn ∉ busy := fun hconn => hnew (h.busy conn hconn)
  have havailable : conn ∉ pool.available := fun hconn => hnew (h.available conn hconn).1
  have hnodup : (pool.connections ++ [conn]).Nodup :=
    List.nodup_append.mpr ⟨h.nodup_connections, List.nodup_singleton conn, by grind⟩
  have hlastUsed : ∀ conn', (∃ t, (conn', t) ∈ SortedMap.set conn now pool.lastUsed)
      ↔ conn' ∈ pool.connections ++ [conn] := by
    intro conn'
    rw [exists_mem_set h.sorted, h.lastUsed, List.mem_append, List.mem_singleton, or_comm]
  have hlive : ∀ conn', conn' ∈ conn :: pool.live ↔ conn' ∈ pool.connections ++ [conn] := by
    intro conn'
    rw [List.mem_cons, h.live, List.mem_append, List.mem_singleton, or_comm]
  have hlength : (pool.connections ++ [conn]).length ≤ pool.maxConnections := by
    rw [List.length_append]
    apply hroom
  constructor
  . constructor
    . apply hnodup
    . apply h.nodup_available
    . apply List.nodup_cons.mpr ⟨hbusy, h.nodup_busy⟩
    . intro conn' hconn'
      obtain ⟨hconnection, hfree⟩ := h.available conn' hconn'
      refine ⟨List.mem_append_left _ hconnection, ?_⟩
      rw [List.mem_cons]
      rintro (rfl | hmem)
      . apply havailable hconn'
      . apply hfree hmem
    . intro conn' hconn'
      rcases List.mem_cons.mp hconn' with rfl | hmem
      . apply List.mem_append_right _ List.mem_cons_self
      . apply List.mem_append_left _ (h.busy conn' hmem)
    . apply sorted_set h.sorted
    . apply hlastUsed
    . apply hlive
    . apply hlength
  . constructor
    . apply hnodup
    . apply List.nodup_append.mpr ⟨h.nodup_available, List.nodup_singleton conn, by grind⟩
    . apply h.nodup_busy
    . intro conn' hconn'
      rcases List.mem_append.mp hconn' with hmem | hmem
      . obtain ⟨hconnection, hfree⟩ := h.available conn' hmem
        exact ⟨List.mem_append_left _ hconnection, hfree⟩
      . rw [List.mem_singleton] at hmem
        subst hmem
        exact ⟨List.mem_append_right _ List.mem_cons_self, hbusy⟩
    . intro conn' hconn'
      apply List.mem_append_left _ (h.busy conn' hconn')
    . apply sorted_set h.sorted
    . apply hlastUsed
    . apply hlive
    . apply hlength

-- The time of a connection can be updated
theorem Consistent.touch (h : pool.Consistent busy) (hconn : conn ∈ pool.connections) (now : Int)
    : { pool with lastUsed := SortedMap.set conn now pool.lastUsed }.Consistent busy := by
  constructor
  . apply h.nodup_connections
  . apply h.nodup_available
  . apply h.nodup_busy
  . apply h.available
  . apply h.busy
  . apply sorted_set h.sorted
  . intro conn'
    rw [exists_mem_set h.sorted, h.lastUsed]
    constructor
    . rintro (rfl | hmem)
      . apply hconn
      . apply hmem
    . apply Or.inr
  . apply h.live
  . apply h.length

/--
What goes from the available connections to a client.
-/
theorem Consistent.take {available : List Connection}
    (h : { pool with available := conn :: available }.Consistent busy)
    : { pool with available }.Consistent (conn :: busy) := by
  obtain ⟨hfirst, hrest⟩ := List.nodup_cons.mp h.nodup_available
  obtain ⟨hconnection, hfree⟩ := h.available conn List.mem_cons_self
  constructor
  . apply h.nodup_connections
  . apply hrest
  . apply List.nodup_cons.mpr ⟨hfree, h.nodup_busy⟩
  . intro conn' hconn'
    obtain ⟨hconnection', hfree'⟩ := h.available conn' (List.mem_cons_of_mem conn hconn')
    refine ⟨hconnection', ?_⟩
    rw [List.mem_cons]
    rintro (rfl | hmem)
    . apply hfirst hconn'
    . apply hfree' hmem
  . apply List.forall_mem_cons.mpr ⟨hconnection, h.busy⟩
  . apply h.sorted
  . apply h.lastUsed
  . apply h.live
  . apply h.length

-- And back
theorem Consistent.give (h : pool.Consistent (conn :: busy))
    : { pool with available := pool.available ++ [conn] }.Consistent busy := by
  obtain ⟨hbusy, hnodup⟩ := List.nodup_cons.mp h.nodup_busy
  have hfree : conn ∉ pool.available := fun hconn => (h.available conn hconn).2 List.mem_cons_self
  constructor
  . apply h.nodup_connections
  . apply List.nodup_append.mpr ⟨h.nodup_available, List.nodup_singleton conn, by grind⟩
  . apply hnodup
  . intro conn' hconn'
    rcases List.mem_append.mp hconn' with hmem | hmem
    . obtain ⟨hconnection, hout⟩ := h.available conn' hmem
      exact ⟨hconnection, fun hout' => hout (List.mem_cons_of_mem conn hout')⟩
    . rw [List.mem_singleton] at hmem
      subst hmem
      exact ⟨h.busy conn' List.mem_cons_self, hbusy⟩
  . intro conn' hconn'
    apply h.busy conn' (List.mem_cons_of_mem conn hconn')
  . apply h.sorted
  . apply h.lastUsed
  . apply h.live
  . apply h.length

/--
What a part of an operation does: the containers agree after it, and no connection that is out has been
deleted.
-/
structure Keeps (pool pool' : ConnectionPool) (busy busy' : List Connection) : Prop where
  consistent : pool'.Consistent busy'
  spares : pool'.Spares busy
  minConnections : pool'.minConnections = pool.minConnections
  maxConnections : pool'.maxConnections = pool.maxConnections
  pendingRequests : pool'.pendingRequests = pool.pendingRequests

theorem fillLoop_keeps {creations : List Creation} (h : pool.Consistent busy) (hspares : pool.Spares busy)
    (hroom : pool.connections.length + creations.length ≤ pool.maxConnections)
    (hfill : fillLoop creations pool = some pool')
    : pool.Keeps pool' busy busy := by
  induction creations generalizing pool with
  | nil =>
    cases hfill
    exact ⟨h, hspares, rfl, rfl, rfl⟩
  | cons creation creations ih =>
    rw [List.length_cons] at hroom
    cases creation with
    | null => exact ih h hspares (by omega) hfill
    | bad =>
      cases hfill
      exact ⟨h, hspares, rfl, rfl, rfl⟩
    | good conn now =>
      rw [fillLoop, Option.bind_eq_bind, Option.bind_eq_some_iff] at hfill
      obtain ⟨pool1, hadd, hfill⟩ := hfill
      have hgiven := (h.add (by omega) hadd).2
      obtain ⟨-, rfl⟩ := add_spec h hadd
      have hrest := ih hgiven hspares (by rw [List.length_append]; simp; omega) hfill
      exact ⟨hrest.consistent, hrest.spares, hrest.minConnections, hrest.maxConnections,
        hrest.pendingRequests⟩

theorem fillToMinimum_keeps {creations : Nat → Creation} (h : pool.Consistent busy)
    (hspares : pool.Spares busy) (hmin : pool.minConnections ≤ pool.maxConnections)
    (hfill : pool.fillToMinimum creations = some pool')
    : pool.Keeps pool' busy busy := by
  unfold fillToMinimum at hfill
  split at hfill
  . apply fillLoop_keeps h hspares _ hfill
    rw [List.length_map, List.length_range]
    omega
  . cases hfill
    exact ⟨h, hspares, rfl, rfl, rfl⟩

theorem claimLoop_keeps {ok : Connection → Bool} {now : Int} {available : List Connection}
    {result : Option Connection} (h : { pool with available }.Consistent busy)
    (hspares : pool.Spares busy) (hclaim : claimLoop ok now available pool = (result, pool'))
    : pool.Keeps pool' busy (result.toList ++ busy) := by
  induction available generalizing pool with
  | nil =>
    cases hclaim
    exact ⟨h, hspares, rfl, rfl, rfl⟩
  | cons conn available ih =>
    obtain ⟨hconnection, hfree⟩ := h.available conn List.mem_cons_self
    unfold claimLoop at hclaim
    split at hclaim
    . cases hclaim
      exact ⟨h.take.touch hconnection now, hspares, rfl, rfl, rfl⟩
    . obtain ⟨hfirst, hnodup⟩ := List.nodup_cons.mp h.nodup_available
      have hdelete := h.delete List.mem_cons_self hnodup (by grind)
      have hrest := ih hdelete (hspares.delete hfree) hclaim
      exact ⟨hrest.consistent, hrest.spares, hrest.minConnections, hrest.maxConnections,
        hrest.pendingRequests⟩

/--
A connection that is claimed is out from then on.
-/
theorem claim_keeps {ok : Connection → Bool} {now : Int} {creation : Creation} {claimed : Claimed}
    (h : pool.Consistent busy) (hspares : pool.Spares busy)
    (hclaim : pool.claim ok now creation = some (claimed, pool'))
    : pool.Keeps pool' busy (match claimed with | .connection conn => conn :: busy | _ => busy) := by
  unfold claim at hclaim
  split at hclaim
  . next conn pool1 hloop =>
    cases hclaim
    exact claimLoop_keeps h hspares hloop
  . next pool1 hloop =>
    have hkeeps := claimLoop_keeps h hspares hloop
    split at hclaim
    . next hroom =>
      cases creation with
      | null =>
        cases hclaim
        exact hkeeps
      | bad =>
        cases hclaim
        exact hkeeps
      | good conn now =>
        dsimp only at hclaim
        rw [Option.bind_eq_bind, Option.bind_eq_some_iff] at hclaim
        obtain ⟨pool2, hadd, hclaim⟩ := hclaim
        cases hclaim
        have hadded := (hkeeps.consistent.add hroom hadd).1
        obtain ⟨-, rfl⟩ := add_spec hkeeps.consistent hadd
        exact ⟨hadded, hkeeps.spares, hkeeps.minConnections, hkeeps.maxConnections,
          hkeeps.pendingRequests⟩
    . cases hclaim
      exact hkeeps

theorem reapFailed_keeps {ok : Connection → Bool} {available kept : List Connection}
    (h : { pool with available := kept ++ available }.Consistent busy) (hspares : pool.Spares busy)
    : pool.Keeps (reapFailed ok available kept pool) busy busy := by
  induction available generalizing kept pool with
  | nil =>
    rw [List.append_nil] at h
    exact ⟨h, hspares, rfl, rfl, rfl⟩
  | cons conn available ih =>
    have hmem : conn ∈ kept ++ conn :: available := List.mem_append_right _ List.mem_cons_self
    unfold reapFailed
    split
    . rw [List.append_cons] at h
      exact ih h hspares
    . have hnodup : (kept ++ available).Nodup :=
        h.nodup_available.sublist ((List.sublist_cons_self conn available).append_left kept)
      have hfirst : conn ∉ kept ++ available :=
        (List.nodup_cons.mp (List.nodup_middle.mp h.nodup_available)).1
      have hdelete := h.delete hmem hnodup (by grind)
      have hrest := ih hdelete (hspares.delete (h.available conn hmem).2)
      exact ⟨hrest.consistent, hrest.spares, hrest.minConnections, hrest.maxConnections,
        hrest.pendingRequests⟩

theorem reapInactive_keeps (now : Int) {entry : Connection × Int} (h : pool.Consistent busy)
    (hspares : pool.Spares busy) (hentry : entry.1 ∈ pool.connections)
    : pool.Keeps (reapInactive now pool entry) busy busy
        ∧
      ∀ conn ∈ pool.connections, conn ≠ entry.1 → conn ∈ (reapInactive now pool entry).connections := by
  have hself : pool.Keeps pool busy busy := ⟨h, hspares, rfl, rfl, rfl⟩
  unfold reapInactive
  dsimp only
  split
  . split
    . exact ⟨⟨h.touch hentry now, hspares, rfl, rfl, rfl⟩, fun conn hconn _ => hconn⟩
    . next havailable =>
      rw [not_not] at havailable
      split
      . have hdelete := h.delete havailable (h.nodup_available.filter fun conn => conn ≠ entry.1)
          (by simp)
        refine ⟨⟨hdelete, hspares.delete (h.available _ havailable).2, rfl, rfl, rfl⟩, ?_⟩
        intro conn hconn hne
        exact List.mem_filter.mpr ⟨hconn, decide_eq_true hne⟩
      . exact ⟨hself, fun conn hconn _ => hconn⟩
  . exact ⟨hself, fun conn hconn _ => hconn⟩

-- The loop goes over the entries that there are at its start, deleting one leaves those behind it alone.
theorem foldl_reapInactive_keeps (now : Int) {entries : List (Connection × Int)}
    (h : pool.Consistent busy) (hspares : pool.Spares busy) (hsorted : SortedMap.Sorted entries)
    (hentries : ∀ entry ∈ entries, entry.1 ∈ pool.connections)
    : pool.Keeps (entries.foldl (reapInactive now) pool) busy busy := by
  induction entries generalizing pool with
  | nil => exact ⟨h, hspares, rfl, rfl, rfl⟩
  | cons entry entries ih =>
    obtain ⟨hfirst, hsorted⟩ := List.pairwise_cons.mp hsorted
    obtain ⟨hkeeps, hothers⟩ := reapInactive_keeps now h hspares (hentries entry List.mem_cons_self)
    rw [List.foldl_cons]
    have hrest := ih hkeeps.consistent hkeeps.spares hsorted (by
      intro entry' hentry'
      apply hothers _ (hentries entry' (List.mem_cons_of_mem entry hentry'))
      apply Nat.ne_of_gt (hfirst entry' hentry'))
    exact ⟨hrest.consistent, hrest.spares, hrest.minConnections.trans hkeeps.minConnections,
      hrest.maxConnections.trans hkeeps.maxConnections,
      hrest.pendingRequests.trans hkeeps.pendingRequests⟩

theorem reap_keeps {ok : Connection → Bool} {now : Int} {creations : Nat → Creation}
    (h : pool.Consistent busy) (hspares : pool.Spares busy)
    (hmin : pool.minConnections ≤ pool.maxConnections)
    (hreap : fillToMinimum ((reapFailed ok pool.available [] pool).lastUsed.foldl (reapInactive now)
        (reapFailed ok pool.available [] pool)) creations = some pool')
    : pool.Keeps pool' busy busy := by
  have hfailed : pool.Keeps (reapFailed ok pool.available [] pool) busy busy :=
    reapFailed_keeps h hspares
  have hinactive := foldl_reapInactive_keeps now hfailed.consistent hfailed.spares
    hfailed.consistent.sorted (by
      intro entry hentry
      apply (hfailed.consistent.lastUsed entry.1).mp ⟨entry.2, hentry⟩)
  have hmin' := hinactive.minConnections.trans hfailed.minConnections
  have hmax' := hinactive.maxConnections.trans hfailed.maxConnections
  have hfill := fillToMinimum_keeps hinactive.consistent hinactive.spares (by rw [hmin', hmax']; exact hmin)
    hreap
  exact ⟨hfill.consistent, hfill.spares, hfill.minConnections.trans hmin',
    hfill.maxConnections.trans hmax',
    hfill.pendingRequests.trans (hinactive.pendingRequests.trans hfailed.pendingRequests)⟩

-- Clients that wait come first
theorem release_pending {pr : Nat} {pendingRequests : List Nat}
    (h : pool.pendingRequests = pr :: pendingRequests) {requests : List PendingRequest}
    : pool.release conn requests =
        ({ pool with pendingRequests },
          requests.modify pr fun request =>
            { request with connection := some conn, signalled := true }) := by
  unfold release
  rw [h]

theorem release_available (h : pool.pendingRequests = []) (hconn : conn ∉ pool.available)
    {requests : List PendingRequest}
    : pool.release conn requests = ({ pool with available := pool.available ++ [conn] }, requests) := by
  unfold release
  rw [h]
  apply if_neg hconn

/--
At most the first of the pending requests times out, without a connection.
-/
theorem timeOut_cases {now : Int} {requests : List PendingRequest}
    : pool.timeOut now requests = (pool, requests)
        ∨
      ∃ pr pendingRequests, pool.pendingRequests = pr :: pendingRequests
        ∧ pool.timeOut now requests =
            ({ pool with pendingRequests },
              requests.modify pr fun request => { request with signalled := true }) := by
  unfold timeOut
  split
  . next pr pendingRequests hpending =>
    split
    . split
      . exact .inr ⟨pr, pendingRequests, hpending, rfl⟩
      . exact .inl rfl
    . exact .inl rfl
  . exact .inl rfl

-- The pending requests are no concern of the containers
theorem Consistent.pendingRequests (h : pool.Consistent busy) (pendingRequests : List Nat)
    : { pool with pendingRequests }.Consistent busy :=
  { h with }

end ConnectionPool

namespace System

/--
The connections that calls of `claim` which have not returned yet have been given.
-/
def handed (requests : List PendingRequest) (waiting : List Nat) : List Connection :=
  waiting.filterMap fun pr => requests[pr]?.bind PendingRequest.connection

-- All connections that are out
def busy (s : System) : List Connection := s.held ++ handed s.requests s.waiting

/--
What holds between any two steps.
-/
structure Invariant (s : System) : Prop where
  consistent : s.pool.Consistent s.busy
  minConnections : s.pool.minConnections ≤ s.pool.maxConnections
  nodup_waiting : s.waiting.Nodup
  waiting : ∀ pr ∈ s.waiting, pr < s.requests.length
  nodup_pending : s.pool.pendingRequests.Nodup
  pending : ∀ pr ∈ s.pool.pendingRequests,
    pr ∈ s.waiting
      ∧
    ∃ started, s.requests[pr]? = some { started, connection := none, signalled := false }

section Handed

variable {requests : List PendingRequest} {waiting : List Nat} {pr : Nat} {request : PendingRequest}

theorem handed_erase (hpr : pr ∈ waiting) (hrequest : requests[pr]? = some request)
    : (request.connection.toList ++ handed requests (waiting.erase pr)).Perm (handed requests waiting) := by
  have hperm := (List.perm_cons_erase hpr).filterMap fun pr => requests[pr]?.bind PendingRequest.connection
  apply List.Perm.trans _ hperm.symm
  unfold handed
  rw [List.filterMap_cons, hrequest, Option.bind_some]
  cases request.connection with
  | none => rfl
  | some conn => rfl

theorem handed_modify_of_not_mem (hpr : pr ∉ waiting) (f : PendingRequest → PendingRequest)
    : handed (requests.modify pr f) waiting = handed requests waiting := by
  apply List.filterMap_congr
  intro pr' hpr'
  have hne : pr ≠ pr' := by
    rintro rfl
    apply hpr hpr'
  rw [List.getElem?_modify_ne f requests hne]

/--
A connection that is put into a request is handed to the call that waits for it.
-/
theorem handed_modify (hnodup : waiting.Nodup) (hpr : pr ∈ waiting)
    (hrequest : requests[pr]? = some request) (f : PendingRequest → PendingRequest)
    : (handed (requests.modify pr f) waiting).Perm
        ((f request).connection.toList ++ handed requests (waiting.erase pr)) := by
  have hmodified : (requests.modify pr f)[pr]? = some (f request) := by
    rw [List.getElem?_modify_eq, hrequest]
    rfl
  have hother : pr ∉ waiting.erase pr := hnodup.not_mem_erase
  rw [← handed_modify_of_not_mem hother f]
  apply (handed_erase hpr hmodified).symm

theorem handed_append (hwaiting : ∀ pr ∈ waiting, pr < requests.length) (hnone : request.connection = none)
    : handed (requests ++ [request]) (requests.length :: waiting) = handed requests waiting := by
  unfold handed
  rw [List.filterMap_cons, List.getElem?_concat_length, Option.bind_some, hnone]
  apply List.filterMap_congr
  intro pr hpr
  rw [List.getElem?_append_left (hwaiting pr hpr)]

end Handed

variable {s s' : System}

/--
What one step does to the invariant, and to the connections that are out before it.
-/
structure Steps (s s' : System) : Prop where
  invariant : s'.Invariant
  spares : s'.pool.Spares s.busy
  maxConnections : s'.pool.maxConnections = s.pool.maxConnections

-- The mutex is locked at the start of a step
theorem Invariant.lock (h : s.Invariant)
    : s.pool.lock.Consistent s.busy ∧ s.pool.lock.Spares s.busy := by
  refine ⟨{ h.consistent with }, ?_⟩
  intro conn hconn
  contradiction

theorem claim_steps (h : s.Invariant) {ok : Connection → Bool} {now : Int} {creation : Creation}
    (hstep : s.step (.claim ok now creation) = some s')
    : s.Steps s' := by
  rw [step, Option.bind_eq_bind, Option.bind_eq_some_iff] at hstep
  obtain ⟨⟨claimed, pool⟩, hclaim, hstep⟩ := hstep
  obtain ⟨hconsistent, hspares⟩ := h.lock
  have hkeeps := ConnectionPool.claim_keeps hconsistent hspares hclaim
  have hbounds : pool.minConnections ≤ pool.maxConnections := by
    rw [hkeeps.minConnections, hkeeps.maxConnections]
    apply h.minConnections
  have hnodup : pool.pendingRequests.Nodup := by
    rw [hkeeps.pendingRequests]
    apply h.nodup_pending
  have hpending := h.pending
  rw [← show pool.pendingRequests = s.pool.pendingRequests from hkeeps.pendingRequests] at hpending
  cases claimed with
  | connection conn =>
    cases hstep
    exact ⟨⟨hkeeps.consistent, hbounds, h.nodup_waiting, h.waiting, hnodup, hpending⟩, hkeeps.spares,
      hkeeps.maxConnections⟩
  | failed =>
    cases hstep
    exact ⟨⟨hkeeps.consistent, hbounds, h.nodup_waiting, h.waiting, hnodup, hpending⟩, hkeeps.spares,
      hkeeps.maxConnections⟩
  | full =>
    cases hstep
    exact ⟨⟨hkeeps.consistent, hbounds, h.nodup_waiting, h.waiting, hnodup, hpending⟩, hkeeps.spares,
      hkeeps.maxConnections⟩

theorem request_steps (h : s.Invariant) {started : Int} (hstep : s.step (.request started) = some s')
    : s.Steps s' := by
  rw [step] at hstep
  split at hstep
  . contradiction
  . cases hstep
    obtain ⟨hconsistent, hspares⟩ := h.lock
    have hnew : s.requests.length ∉ s.waiting := fun hmem => Nat.lt_irrefl _ (h.waiting _ hmem)
    refine ⟨?_, hspares, rfl⟩
    constructor
    . unfold busy
      rw [handed_append h.waiting rfl]
      exact hconsistent.pendingRequests _
    . apply h.minConnections
    . apply List.nodup_cons.mpr ⟨hnew, h.nodup_waiting⟩
    . intro pr hpr
      rw [List.length_append, List.length_singleton]
      rcases List.mem_cons.mp hpr with rfl | hmem
      . omega
      . have := h.waiting pr hmem
        omega
    . have hnew' : s.requests.length ∉ s.pool.pendingRequests := fun hmem => hnew (h.pending _ hmem).1
      apply List.nodup_append.mpr ⟨h.nodup_pending, List.nodup_singleton _, by grind⟩
    . intro pr hpr
      rcases List.mem_append.mp hpr with hmem | hmem
      . obtain ⟨hwaiting, hrequest⟩ := h.pending pr hmem
        refine ⟨List.mem_cons_of_mem _ hwaiting, ?_⟩
        rw [List.getElem?_append_left (h.waiting pr hwaiting)]
        apply hrequest
      . rw [List.mem_singleton.mp hmem]
        exact ⟨List.mem_cons_self, started, List.getElem?_concat_length⟩

theorem wakeUp_steps (h : s.Invariant) {pr : Nat} (hstep : s.step (.wakeUp pr) = some s')
    : s.Steps s' := by
  rw [step, Option.bind_eq_bind, Option.bind_eq_some_iff] at hstep
  obtain ⟨request, hrequest, hstep⟩ := hstep
  split at hstep
  . next hwoken =>
    obtain ⟨hpr, hsignalled⟩ := hwoken
    cases hstep
    obtain ⟨hconsistent, hspares⟩ := h.lock
    -- What has been signalled is not pending any more
    have hpending : pr ∉ s.pool.pendingRequests := by
      intro hmem
      obtain ⟨-, started, hunsignalled⟩ := h.pending pr hmem
      rw [hrequest] at hunsignalled
      cases hunsignalled
      contradiction
    refine ⟨?_, hspares, rfl⟩
    constructor
    . apply hconsistent.perm
      apply List.Perm.trans ((handed_erase hpr hrequest).symm.append_left s.held)
      rw [← List.append_assoc]
      exact List.perm_append_comm.append_right _
    . apply h.minConnections
    . apply h.nodup_waiting.erase
    . intro pr' hpr'
      apply h.waiting pr' (List.mem_of_mem_erase hpr')
    . apply h.nodup_pending
    . intro pr' hpr'
      obtain ⟨hwaiting, hunsignalled⟩ := h.pending pr' hpr'
      have hne : pr' ≠ pr := by
        rintro rfl
        apply hpending hpr'
      exact ⟨(List.mem_erase_of_ne hne).mpr hwaiting, hunsignalled⟩
  . contradiction

/--
The first of the pending requests is taken out of them, when it is answered.
-/
theorem Invariant.answer (h : s.Invariant) {pr : Nat} {pendingRequests : List Nat}
    (hpending : s.pool.pendingRequests = pr :: pendingRequests) (f : PendingRequest → PendingRequest)
    : pendingRequests.Nodup
        ∧
      ∀ pr' ∈ pendingRequests,
        pr' ∈ s.waiting
          ∧
        ∃ started, (s.requests.modify pr f)[pr']? = some { started, connection := none, signalled := false } := by
  have hnodup := h.nodup_pending
  rw [hpending] at hnodup
  obtain ⟨hfirst, hrest⟩ := List.nodup_cons.mp hnodup
  refine ⟨hrest, ?_⟩
  intro pr' hpr'
  have hne : pr ≠ pr' := by
    rintro rfl
    apply hfirst hpr'
  rw [List.getElem?_modify_ne f s.requests hne]
  apply h.pending pr'
  rw [hpending]
  apply List.mem_cons_of_mem pr hpr'

theorem release_steps (h : s.Invariant) {conn : Connection} (hstep : s.step (.release conn) = some s')
    : s.Steps s' := by
  rw [step] at hstep
  split at hstep
  . next hheld =>
    generalize hrelease : s.pool.lock.release conn s.requests = result at hstep
    cases hstep
    obtain ⟨hconsistent, hspares⟩ := h.lock
    have hbusy : s.busy.Perm (conn :: (s.held.erase conn ++ handed s.requests s.waiting)) :=
      (List.perm_cons_erase hheld).append_right _
    cases hpending : s.pool.lock.pendingRequests with
    | cons pr pendingRequests =>
      obtain ⟨hnodup, hrest⟩ := h.answer hpending fun request =>
        { request with connection := some conn, signalled := true }
      obtain ⟨hwaiting, started, hrequest⟩ := h.pending pr (hpending ▸ List.mem_cons_self)
      rw [ConnectionPool.release_pending hpending] at hrelease
      subst hrelease
      refine ⟨?_, hspares, rfl⟩
      constructor
      . apply ConnectionPool.Consistent.pendingRequests
        apply hconsistent.perm (hbusy.trans _)
        have hhanded := handed_modify h.nodup_waiting hwaiting hrequest fun request =>
          { request with connection := some conn, signalled := true }
        have hothers := handed_erase hwaiting hrequest
        apply List.perm_middle.symm.trans
        exact (((hothers.symm.cons conn).trans hhanded.symm).append_left _)
      . apply h.minConnections
      . apply h.nodup_waiting
      . intro pr' hpr'
        rw [List.length_modify]
        apply h.waiting pr' hpr'
      . apply hnodup
      . apply hrest
    | nil =>
      have hback := (hconsistent.perm hbusy).give
      have havailable : conn ∉ s.pool.lock.available := fun hmem =>
        (h.consistent.available conn hmem).2 (List.mem_append_left _ hheld)
      rw [ConnectionPool.release_available hpending havailable] at hrelease
      subst hrelease
      refine ⟨⟨hback, h.minConnections, h.nodup_waiting, h.waiting, h.nodup_pending, h.pending⟩, hspares,
        rfl⟩
  . contradiction

theorem iterate_steps (h : s.Invariant) {ok : Connection → Bool} {now later : Int}
    {creations : Nat → Creation} (hstep : s.step (.iterate ok now creations later) = some s')
    : s.Steps s' := by
  rw [step, Option.bind_eq_bind, Option.bind_eq_some_iff] at hstep
  obtain ⟨⟨pool, requests⟩, hiterate, hstep⟩ := hstep
  cases hstep
  unfold ConnectionPool.iterate at hiterate
  rw [Option.bind_eq_bind, Option.bind_eq_some_iff] at hiterate
  obtain ⟨reaped, hreap, htimeOut⟩ := hiterate
  obtain ⟨hconsistent, hspares⟩ := h.lock
  have hkeeps := ConnectionPool.reap_keeps hconsistent hspares h.minConnections hreap
  have hbounds : reaped.minConnections ≤ reaped.maxConnections := by
    rw [hkeeps.minConnections, hkeeps.maxConnections]
    apply h.minConnections
  injection htimeOut with htimeOut
  rcases reaped.timeOut_cases with hnone | ⟨pr, pendingRequests, hpending, hfirst⟩
  . rw [hnone] at htimeOut
    cases htimeOut
    refine ⟨⟨hkeeps.consistent, hbounds, h.nodup_waiting, h.waiting, ?_, ?_⟩, hkeeps.spares,
      hkeeps.maxConnections⟩
    . rw [hkeeps.pendingRequests]
      apply h.nodup_pending
    . rw [hkeeps.pendingRequests]
      apply h.pending
  . rw [hfirst] at htimeOut
    cases htimeOut
    rw [hkeeps.pendingRequests] at hpending
    obtain ⟨hnodup, hrest⟩ := h.answer hpending fun request => { request with signalled := true }
    obtain ⟨hwaiting, started, hrequest⟩ := h.pending pr (hpending ▸ List.mem_cons_self)
    refine ⟨⟨?_, hbounds, h.nodup_waiting, ?_, hnodup, hrest⟩, hkeeps.spares,
      hkeeps.maxConnections⟩
    . apply ConnectionPool.Consistent.pendingRequests
      apply hkeeps.consistent.perm
      have hhanded := handed_modify h.nodup_waiting hwaiting hrequest fun request =>
        { request with signalled := true }
      exact ((handed_erase hwaiting hrequest).symm.trans hhanded.symm).append_left _
    . intro pr' hpr'
      rw [List.length_modify]
      apply h.waiting pr' hpr'

/--
Each step keeps the invariant, and deletes only connections that are not out.
-/
theorem step_steps (h : s.Invariant) {e : Event} (hstep : s.step e = some s') : s.Steps s' := by
  cases e with
  | claim ok now creation => exact claim_steps h hstep
  | request started => exact request_steps h hstep
  | wakeUp pr => exact wakeUp_steps h hstep
  | release conn => exact release_steps h hstep
  | iterate ok now creations later => exact iterate_steps h hstep

theorem new_invariant {minConnections maxConnections : Nat} {maxInactivity claimTimeout : Int}
    {creations : Nat → Creation} (hmin : minConnections ≤ maxConnections)
    (hnew : System.new minConnections maxConnections maxInactivity claimTimeout creations = some s)
    : s.Invariant ∧ s.pool.maxConnections = maxConnections := by
  unfold System.new at hnew
  rw [Option.bind_eq_bind, Option.bind_eq_some_iff] at hnew
  obtain ⟨pool, hfill, hnew⟩ := hnew
  cases hnew
  have hempty : ConnectionPool.Consistent
      { minConnections, maxConnections, maxInactivity, connections := [], available := []
        pendingRequests := [], claimTimeout, lastUsed := [], live := [], deleted := [] } [] := by
    constructor <;> simp [SortedMap.Sorted]
  have hkeeps := ConnectionPool.fillToMinimum_keeps hempty (by simp [ConnectionPool.Spares]) hmin hfill
  have hpending : pool.pendingRequests = [] := hkeeps.pendingRequests
  refine ⟨⟨hkeeps.consistent, ?_, List.nodup_nil, ?_, ?_, ?_⟩, hkeeps.maxConnections⟩
  . rw [hkeeps.minConnections, hkeeps.maxConnections]
    apply hmin
  . intro pr hpr
    contradiction
  . rw [hpending]
    exact List.nodup_nil
  . rw [hpending]
    intro pr hpr
    contradiction

/--
What is promised of the pool: a connection is out with at most one client (which may still be on its way out
of `claim`), and what is out or available is among the connections that the pool has.
-/
structure Exclusive (s : System) : Prop where
  claimers : s.busy.Nodup
  held : ∀ conn ∈ s.busy, conn ∈ s.pool.live
  nodup_available : s.pool.available.Nodup
  available : ∀ conn ∈ s.pool.available, conn ∈ s.pool.connections ∧ conn ∉ s.busy
  lastUsed : (s.pool.lastUsed.map Prod.fst).Perm s.pool.connections
  length : s.pool.connections.length ≤ s.pool.maxConnections

theorem Invariant.exclusive (h : s.Invariant) : s.Exclusive := by
  constructor
  . apply h.consistent.nodup_busy
  . intro conn hconn
    apply (h.consistent.live conn).mpr (h.consistent.busy conn hconn)
  . apply h.consistent.nodup_available
  . apply h.consistent.available
  . have hnodup : (s.pool.lastUsed.map Prod.fst).Nodup :=
      List.pairwise_map.mpr (h.consistent.sorted.imp Nat.ne_of_lt)
    rw [List.perm_ext_iff_of_nodup hnodup h.consistent.nodup_connections]
    intro conn
    rw [← h.consistent.lastUsed]
    simp
  . apply h.consistent.length

/--
Connections are exclusive in every run, and no step deletes one that is out.
-/
theorem exclusive_of_run (minConnections maxConnections : Nat) (maxInactivity claimTimeout : Int)
    (creations : Nat → Creation) (hmin : minConnections ≤ maxConnections) (s₀ s : System)
    (hnew : System.new minConnections maxConnections maxInactivity claimTimeout creations = some s₀)
    (events : List Event) (hrun : Runs.run System.step s₀ events = some s)
    : s.Exclusive
        ∧
      s.pool.maxConnections = maxConnections
        ∧
      ∀ e s', s.step e = some s' → ∀ conn ∈ s'.pool.deleted, conn ∉ s.busy := by
  have hkeeps : ∀ (s : System) (e : Event) (s' : System),
      s.Invariant ∧ s.pool.maxConnections = maxConnections → s.step e = some s' →
        s'.Invariant ∧ s'.pool.maxConnections = maxConnections := by
    rintro s e s' ⟨h, hmax⟩ hstep
    have hsteps := step_steps h hstep
    exact ⟨hsteps.invariant, hsteps.maxConnections.trans hmax⟩
  obtain ⟨hinv, hmax⟩ := Runs.run_inv hkeeps (new_invariant hmin hnew) hrun
  refine ⟨hinv.exclusive, hmax, ?_⟩
  intro e s' hstep
  apply (step_steps hinv hstep).spares

-- The second client waits for the first one, the third finds the connection dead and gets a new one.
theorem exclusive_of_run_handOver
    : System.Exclusive
        { pool :=
            { minConnections := 1, maxConnections := 1, maxInactivity := 60, connections := [8]
              available := [], pendingRequests := [], claimTimeout := 5, lastUsed := [(8, 4)]
              live := [8], deleted := [7] }
          requests := [{ started := 2, connection := some 7, signalled := true }]
          atMaximum := 0
          waiting := []
          held := [8] } :=
  (exclusive_of_run 1 1 60 5 (fun _ => .good 7 0) (by decide) _ _ rfl
    [.claim (fun _ => true) 1 .null, .claim (fun _ => true) 1 .null, .request 2, .release 7,
      .wakeUp 0, .release 7, .claim (fun _ => false) 3 (.good 8 4)] rfl).1

end System

end DB
end ObTools
