import ObTools.Lib.Runs
import ObTools.Lib.SortedMap

/-!
This module contains the model of `DB::ConnectionPool`, of clients that claim and release connections,
and of the iterations of its thread. What is done within a lock of the mutex is one step.

The outside world decides what `factory.create()` returns, whether a connection is OK when it is asked,
and what time it is.
-/

namespace ObTools
namespace DB

-- Given by its address
abbrev Connection := Nat

-- What comes back from `factory.create()`
inductive Creation where
  | null
  -- A connection that is not OK, which is deleted at once
  | bad
  -- With the time at which it is put in the pool
  | good (conn : Connection) (now : Int)
deriving DecidableEq, Repr

structure PendingRequest where
  started : Int
  connection : Option Connection
  -- The state of the condition `available`
  signalled : Bool
deriving DecidableEq, Repr

/-
The requests are given by their number in the order in which they have been made.
-/
structure ConnectionPool where
  minConnections : Nat
  maxConnections : Nat
  maxInactivity : Int
  connections : List Connection
  available : List Connection
  pendingRequests : List Nat
  claimTimeout : Int
  lastUsed : List (Connection × Int)
  -- The connections that there are in memory
  live : List Connection
  -- Those that have been deleted since the mutex was locked
  deleted : List Connection
deriving DecidableEq, Repr

namespace ConnectionPool

-- From here on it is counted what gets deleted.
def lock (pool : ConnectionPool) : ConnectionPool := { pool with deleted := [] }

-- The connection is taken out of the pool and deleted, it is not among the available ones any more.
def delete (pool : ConnectionPool) (conn : Connection) : ConnectionPool :=
  { pool with
    lastUsed := SortedMap.erase conn pool.lastUsed
    connections := pool.connections.filter (· ≠ conn)
    live := pool.live.filter (· ≠ conn)
    deleted := conn :: pool.deleted }

-- A new connection is at an address where there is none.
def add (pool : ConnectionPool) (conn : Connection) (now : Int) : Option ConnectionPool :=
  if conn ∈ pool.live then
    none
  else
    some
      { pool with
        connections := pool.connections ++ [conn]
        lastUsed := SortedMap.set conn now pool.lastUsed
        live := conn :: pool.live }

def fillLoop : List Creation → ConnectionPool → Option ConnectionPool
  | [], pool => some pool
  | .null :: creations, pool => fillLoop creations pool
  | .bad :: _, pool => some pool
  | .good conn now :: creations, pool => do
    let pool ← pool.add conn now
    fillLoop creations { pool with available := pool.available ++ [conn] }

def fillToMinimum (pool : ConnectionPool) (creations : Nat → Creation) : Option ConnectionPool :=
  if pool.connections.length < pool.minConnections then
    -- Create minimum number of connections
    fillLoop ((List.range (pool.minConnections - pool.connections.length)).map creations) pool
  else
    some pool

-- What the first part of `claim` comes to
inductive Claimed where
  | connection (conn : Connection)
  -- Returns 0
  | failed
  -- The maximum is reached
  | full
deriving DecidableEq, Repr

-- Checks the available ones, which are given apart from the pool.
def claimLoop (ok : Connection → Bool) (now : Int)
    : List Connection → ConnectionPool → Option Connection × ConnectionPool
  | [], pool => (none, { pool with available := [] })
  | conn :: available, pool =>
    if ok conn then
      (some conn, { pool with available, lastUsed := SortedMap.set conn now pool.lastUsed })
    else
      -- Otherwise delete it
      claimLoop ok now available (pool.delete conn)

def claim (pool : ConnectionPool) (ok : Connection → Bool) (now : Int) (creation : Creation)
    : Option (Claimed × ConnectionPool) :=
  match claimLoop ok now pool.available pool with
  | (some conn, pool) => some (.connection conn, pool)
  | (none, pool) =>
    -- Are we allowed to create any more?
    if pool.connections.length < pool.maxConnections then
      match creation with
      | .null => some (.failed, pool)
      | .bad => some (.failed, pool)
      | .good conn now => do
        let pool ← pool.add conn now
        some (.connection conn, pool)
    else
      some (.full, pool)

def release (pool : ConnectionPool) (conn : Connection) (requests : List PendingRequest)
    : ConnectionPool × List PendingRequest :=
  match pool.pendingRequests with
  | pr :: pendingRequests =>
    ({ pool with pendingRequests },
      requests.modify pr fun request => { request with connection := some conn, signalled := true })
  | [] =>
    -- Check for double release
    if conn ∈ pool.available then
      (pool, requests)
    else
      ({ pool with available := pool.available ++ [conn] }, requests)

-- Idle connections which have died, `kept` are those before which have not.
def reapFailed (ok : Connection → Bool)
    : List Connection → List Connection → ConnectionPool → ConnectionPool
  | [], kept, pool => { pool with available := kept }
  | conn :: available, kept, pool =>
    if ok conn then
      reapFailed ok available (kept ++ [conn]) pool
    else
      reapFailed ok available kept (pool.delete conn)

def reapInactive (now : Int) (pool : ConnectionPool) (entry : Connection × Int) : ConnectionPool :=
  let (conn, t) := entry
  if now - t ≥ pool.maxInactivity then
    if conn ∉ pool.available then
      -- Post back a time to suppress errors until next timeout
      { pool with lastUsed := SortedMap.set conn now pool.lastUsed }
    else if pool.connections.length > pool.minConnections then
      { pool with available := pool.available.filter (· ≠ conn) }.delete conn
    else
      pool
  else
    pool

-- Blocked claim request timeout
def timeOut (pool : ConnectionPool) (now : Int) (requests : List PendingRequest)
    : ConnectionPool × List PendingRequest :=
  match pool.pendingRequests with
  | pr :: pendingRequests =>
    match requests[pr]? with
    | some request =>
      if now - request.started > pool.claimTimeout then
        ({ pool with pendingRequests },
          requests.modify pr fun request => { request with signalled := true })
      else
        (pool, requests)
    | none => (pool, requests)
  | [] => (pool, requests)

/-
One time round the loop of `run`, at the time `now` and at a later one when it comes to the requests.
-/
def iterate (pool : ConnectionPool) (ok : Connection → Bool) (now : Int) (creations : Nat → Creation)
    (later : Int) (requests : List PendingRequest)
    : Option (ConnectionPool × List PendingRequest) := do
  let pool := reapFailed ok pool.available [] pool
  let pool := pool.lastUsed.foldl (reapInactive now) pool
  -- Refill in case any deleted
  let pool ← pool.fillToMinimum creations
  some (pool.timeOut later requests)

def new (minConnections maxConnections : Nat) (maxInactivity claimTimeout : Int)
    (creations : Nat → Creation)
    : Option ConnectionPool :=
  fillToMinimum
    { minConnections, maxConnections, maxInactivity, connections := [], available := []
      pendingRequests := [], claimTimeout, lastUsed := [], live := [], deleted := [] }
    creations

end ConnectionPool

/-
The pool together with those that use it.
-/
structure System where
  pool : ConnectionPool
  -- All requests that have been made
  requests : List PendingRequest
  -- How many calls of `claim` are between its two locks
  atMaximum : Nat
  -- The requests whose call of `claim` has not returned yet
  waiting : List Nat
  -- What has been returned by `claim` and has not been released
  held : List Connection
deriving DecidableEq, Repr

inductive Event where
  | claim (ok : Connection → Bool) (now : Int) (creation : Creation)
  | request (started : Int)
  | wakeUp (pr : Nat)
  | release (conn : Connection)
  | iterate (ok : Connection → Bool) (now : Int) (creations : Nat → Creation) (later : Int)

namespace System

def returned (s : System) (conn : Option Connection) : System :=
  { s with held := conn.toList ++ s.held }

def step (s : System) : Event → Option System
  | .claim ok now creation => do
    let (claimed, pool) ← s.pool.lock.claim ok now creation
    let s := { s with pool }
    match claimed with
    | .connection conn => some (s.returned (some conn))
    | .failed => some s
    | .full => some { s with atMaximum := s.atMaximum + 1 }
  | .request started =>
    if s.atMaximum = 0 then
      none
    else
      let pr := s.requests.length
      some
        { s with
          pool := { s.pool.lock with pendingRequests := s.pool.pendingRequests ++ [pr] }
          requests := s.requests ++ [{ started, connection := none, signalled := false }]
          atMaximum := s.atMaximum - 1
          waiting := pr :: s.waiting }
  | .wakeUp pr => do
    let request ← s.requests[pr]?
    if pr ∈ s.waiting ∧ request.signalled then
      let s := { s with pool := s.pool.lock, waiting := s.waiting.erase pr }
      some (s.returned request.connection)
    else
      none
  | .release conn =>
    if conn ∈ s.held then
      let (pool, requests) := s.pool.lock.release conn s.requests
      some { s with pool, requests, held := s.held.erase conn }
    else
      none
  | .iterate ok now creations later => do
    let (pool, requests) ← s.pool.lock.iterate ok now creations later s.requests
    some { s with pool, requests }

def new (minConnections maxConnections : Nat) (maxInactivity claimTimeout : Int)
    (creations : Nat → Creation)
    : Option System := do
  let pool ← ConnectionPool.new minConnections maxConnections maxInactivity claimTimeout creations
  some { pool, requests := [], atMaximum := 0, waiting := [], held := [] }

end System

end DB
end ObTools
