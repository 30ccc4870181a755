import ObTools.Lib.Runs
import ObTools.Time.Stamp

/-!
This module contains the model of `Tube::SyncRequestCache` and of threads that make requests through
it. What a call does while it holds `request_mutex` is one step. A thread that waits for a response
gives the mutex up, and goes on at any time after that, since a condition variable can wake up
spuriously.

It then contains the verification of `Tube::SyncRequestCache`: the IDs in the flags of the
requests are those of their records as long as the flags are clean enough.
-/

namespace ObTools

namespace MT

/-
The threads that wait for a condition variable, and those of them that have been notified and only
need the mutex to go on.
-/
structure BasicCondVar (Thread : Type) where
  waiting : List Thread
  woken : List Thread
deriving DecidableEq, Repr

namespace BasicCondVar

variable {Thread : Type}

def new : BasicCondVar Thread where
  waiting := []
  woken := []

def wait (ready : BasicCondVar Thread) (self : Thread) : BasicCondVar Thread :=
  { ready with waiting := ready.waiting ++ [self] }

-- Wakes up a thread only if there is one already
def notifyOne (ready : BasicCondVar Thread) : BasicCondVar Thread :=
  match ready.waiting with
  | [] => ready
  | thread :: threads => { waiting := threads, woken := ready.woken ++ [thread] }

end BasicCondVar

end MT

namespace Tube

def MASK_SYNC_FLAGS : UInt32 := 0xFFFF0000
def FLAG_RESPONSE_REQUIRED : UInt32 := 0x80000000
def FLAG_RESPONSE_PROVIDED : UInt32 := 0x40000000
def MASK_REQUEST_ID : UInt32 := 0x3FFF0000
def SHIFT_REQUEST_ID : UInt32 := 16
def MAX_REQUEST_ID : UInt16 := 0x3FFF

structure Message where
  tag : UInt32
  flags : UInt32
  data : List UInt8
deriving DecidableEq, Repr

namespace Message

-- The default constructor
def none : Message where
  tag := 0
  flags := 0
  data := []

def isValid (msg : Message) : Bool := msg.tag ≠ 0

def id (msg : Message) : UInt16 := ((msg.flags &&& MASK_REQUEST_ID) >>> SHIFT_REQUEST_ID).toUInt16

end Message

structure Request (EndPoint Thread : Type) where
  started : UInt64
  client : EndPoint
  response : Message
  ready : MT.BasicCondVar Thread
deriving DecidableEq, Repr

namespace Request

variable {EndPoint Thread : Type}

def new (client : EndPoint) (now : UInt64) : Request EndPoint Thread where
  started := now
  client := client
  response := .none
  ready := .new

def isTimedOut (req : Request EndPoint Thread) (now : UInt64) (timeout : Int) : Bool :=
  timeout * (1 <<< Time.INTERNAL_SHIFT : UInt64).toNat ≤ (now.toNat : Int) - req.started.toNat

def notify (req : Request EndPoint Thread) : Request EndPoint Thread :=
  { req with ready := req.ready.notifyOne }

end Request

structure SyncRequestCache (EndPoint Thread : Type) where
  requestId : UInt16
  requests : UInt16 → Option (Request EndPoint Thread)

namespace SyncRequestCache

variable {EndPoint Thread : Type} [Inhabited EndPoint] [DecidableEq EndPoint]
variable (cache : SyncRequestCache EndPoint Thread)

def new : SyncRequestCache EndPoint Thread where
  requestId := 0
  requests := fun _ => none

/-
Get a new ID and increment the counter, as long as the ID already exists. The counter is back at its
beginning after as many tries as there are IDs, and the source never ends then.
-/
def newId (requests : UInt16 → Option (Request EndPoint Thread)) (requestId : UInt16)
    : Nat → Option (UInt16 × UInt16)
  | 0 => none
  | tries + 1 =>
    let next := (requestId + 1) &&& MAX_REQUEST_ID
    if (requests requestId).isSome then
      newId requests next tries
    else
      some (requestId, next)

def insert (id : UInt16) (req : Request EndPoint Thread) : SyncRequestCache EndPoint Thread :=
  { cache with requests := Function.update cache.requests id (some req) }

def erase (id : UInt16) : SyncRequestCache EndPoint Thread :=
  { cache with requests := Function.update cache.requests id none }

/-
The ID of the new record, the cache and the request with its flags fixed, or `none` if all IDs are
blocked.
-/
def startRequest (request : Message) (client : EndPoint) (now : UInt64)
    : Option (UInt16 × SyncRequestCache EndPoint Thread × Message) :=
  match newId cache.requests cache.requestId (MAX_REQUEST_ID.toNat + 1) with
  | none => none
  | some (id, requestId) =>
    let cache := { cache with requestId := requestId }.insert id (.new client now)
    let flags := request.flags ||| FLAG_RESPONSE_REQUIRED
    let flags := flags ||| id.toUInt32 <<< SHIFT_REQUEST_ID
    some (id, cache, { request with flags := flags })

-- The first part of `wait_response`, up to the wait; the map makes a missing record
def waitResponse (request : Message) (self : Thread) : SyncRequestCache EndPoint Thread :=
  let req := (cache.requests request.id).getD (.new default 0)
  cache.insert request.id { req with ready := req.ready.wait self }

/-
The second part, which has a reference to the record: there is nothing to say if it does not exist
any more.
-/
def responseReady (request : Message) : Option (SyncRequestCache EndPoint Thread × Message) :=
  match cache.requests request.id with
  | none => none
  | some req => some (cache.erase request.id, req.response)

def handleResponse (response : Message) : Bool × SyncRequestCache EndPoint Thread :=
  if response.flags &&& FLAG_RESPONSE_PROVIDED ≠ 0 then
    match cache.requests response.id with
    | some req =>
      -- Copy message into response and signal readiness
      (true, cache.insert response.id { req with response := response }.notify)
    | none => (true, cache)
  else
    (false, cache)

def notifyAll (p : Request EndPoint Thread → Bool) : SyncRequestCache EndPoint Thread :=
  { cache with requests := fun id =>
      (cache.requests id).map fun req => if p req then req.notify else req }

def doTimeouts (now : UInt64) (timeout : Int) : SyncRequestCache EndPoint Thread :=
  cache.notifyAll (fun req => req.isTimedOut now timeout)

def shutdownClient (client : EndPoint) : SyncRequestCache EndPoint Thread :=
  cache.notifyAll (fun req => req.client = client)

def shutdown : SyncRequestCache EndPoint Thread := cache.notifyAll (fun _ => true)

end SyncRequestCache

/-
Where a thread is between `start_request` and the end of `wait_response`.
-/
inductive Phase where
  | idle
  | started
  | waiting
  -- `wait_response` has returned whether this is valid
  | returned (response : Message)
deriving DecidableEq, Repr

def Phase.isOpen : Phase → Bool
  | .started | .waiting => true
  | .idle | .returned _ => false

/-
A thread with its message object, which it can use again for a later request, the client that its
last request was for and the ID of the record of that request.
-/
structure Caller (EndPoint : Type) where
  request : Message
  client : EndPoint
  id : UInt16
  phase : Phase
deriving DecidableEq, Repr

structure Calls (EndPoint Thread : Type) where
  cache : SyncRequestCache EndPoint Thread
  callers : Thread → Caller EndPoint

inductive Action (EndPoint Thread : Type) where
  -- A new message for the next request
  | assign (self : Thread) (request : Message)
  | startRequest (self : Thread) (client : EndPoint) (now : UInt64)
  | waitResponse (self : Thread)
  -- The end of the wait, notified or not
  | wakeUp (self : Thread)
  | handleResponse (response : Message)
  | doTimeouts (now : UInt64) (timeout : Int)
  | shutdownClient (client : EndPoint)
  | shutdown
deriving DecidableEq, Repr

namespace Calls

variable {EndPoint Thread : Type} [Inhabited EndPoint] [DecidableEq EndPoint] [DecidableEq Thread]

def new : Calls EndPoint Thread where
  cache := .new
  callers := fun _ => { request := .none, client := default, id := 0, phase := .idle }

def step (s : Calls EndPoint Thread) : Action EndPoint Thread → Option (Calls EndPoint Thread)
  | .assign self request =>
    let caller := s.callers self
    if caller.phase.isOpen then
      none
    else
      some { s with callers := Function.update s.callers self { caller with request := request } }
  | .startRequest self client now =>
    let caller := s.callers self
    if caller.phase.isOpen then
      none
    else
      match s.cache.startRequest caller.request client now with
      | none => none
      | some (id, cache, request) =>
        let caller := { request := request, client := client, id := id, phase := .started }
        some { cache := cache, callers := Function.update s.callers self caller }
  | .waitResponse self =>
    let caller := s.callers self
    if caller.phase = .started then
      some { cache := s.cache.waitResponse caller.request self
             callers := Function.update s.callers self { caller with phase := .waiting } }
    else
      none
  | .wakeUp self =>
    let caller := s.callers self
    if caller.phase = .waiting then
      match s.cache.responseReady caller.request with
      | none => none
      | some (cache, response) =>
        let caller := { caller with phase := .returned response }
        some { cache := cache, callers := Function.update s.callers self caller }
    else
      none
  | .handleResponse response => some { s with cache := (s.cache.handleResponse response).2 }
  | .doTimeouts now timeout => some { s with cache := s.cache.doTimeouts now timeout }
  | .shutdownClient client => some { s with cache := s.cache.shutdownClient client }
  | .shutdown => some { s with cache := s.cache.shutdown }

def run (actions : List (Action EndPoint Thread)) : Option (Calls EndPoint Thread) :=
  Runs.run step new actions

end Calls

section Flags

theorem testBit_mask (i : Nat) : (0x3FFF0000 : Nat).testBit (16 + i) = decide (i < 14) := by
  rw [Nat.add_comm, Nat.testBit_add]
  exact Nat.testBit_two_pow_sub_one 14 i

theorem testBit_required {i : Nat} (h : i < 14) : (0x80000000 : Nat).testBit (16 + i) = false := by
  rw [Nat.add_comm, Nat.testBit_add]
  have hpow : 0x80000000 / 2 ^ 16 = 2 ^ 15 := rfl
  rw [hpow, Nat.testBit_two_pow_of_ne]
  omega

theorem Message.id_testBit (msg : Message) (i : Nat)
    : msg.id.toNat.testBit i = (decide (i < 14) && msg.flags.toNat.testBit (16 + i)) := by
  unfold Message.id
  simp only [UInt32.toNat_toUInt16, UInt32.toNat_shiftRight, UInt32.toNat_and, MASK_REQUEST_ID,
    SHIFT_REQUEST_ID, Nat.testBit_mod_two_pow, Nat.testBit_shiftRight, UInt32.reduceToNat,
    Nat.reduceMod, Nat.testBit_and, testBit_mask]
  by_cases h : i < 14
  . simp only [h, decide_true, Bool.and_true, Bool.true_and, Bool.and_eq_right_iff_imp,
      decide_eq_true_eq]
    omega
  . simp only [h, decide_false, Bool.and_false, Bool.false_and]

theorem lt_of_le_max {id : UInt16} (h : id ≤ MAX_REQUEST_ID) : id.toNat < 2 ^ 14 := by
  apply Nat.lt_succ_of_le
  exact UInt16.le_iff_toNat_le.mp h

theorem ofNat_mod_le (n : Nat) : UInt16.ofNat (n % 2 ^ 14) ≤ MAX_REQUEST_ID := by
  apply UInt16.le_iff_toNat_le.mpr
  have hmax : MAX_REQUEST_ID.toNat = 2 ^ 14 - 1 := rfl
  rw [UInt16.toNat_ofNat']
  omega

/--
The new ID is merged with what has been there before.
-/
theorem Message.id_merge (msg : Message) {id : UInt16} (h : id ≤ MAX_REQUEST_ID)
    : Message.id { msg with
        flags := msg.flags ||| FLAG_RESPONSE_REQUIRED ||| id.toUInt32 <<< SHIFT_REQUEST_ID }
      = msg.id ||| id := by
  apply UInt16.toNat_inj.mp
  apply Nat.eq_of_testBit_eq
  intro i
  rw [id_testBit, UInt16.toNat_or, Nat.testBit_or, id_testBit]
  by_cases hi : i < 14
  . have h32 : 16 + i < 32 := by omega
    simp only [UInt32.toNat_or, Nat.testBit_or, UInt32.toNat_shiftLeft, FLAG_RESPONSE_REQUIRED,
      SHIFT_REQUEST_ID, hi, decide_true, Bool.true_and, UInt32.reduceToNat, testBit_required,
      Bool.or_false, Nat.testBit_mod_two_pow, h32, Nat.reduceMod, Nat.testBit_shiftLeft,
      UInt16.toNat_toUInt32]
    simp only [ge_iff_le, Nat.le_add_right, decide_true, Bool.true_and, Nat.add_sub_cancel_left]
  . simp only [hi, decide_false, Bool.false_and, Bool.false_or]
    symm
    apply Nat.testBit_lt_two_pow
    apply Nat.lt_of_lt_of_le (lt_of_le_max h)
    apply Nat.pow_le_pow_right (by decide)
    omega

end Flags

namespace SyncRequestCache

variable {EndPoint Thread : Type}

theorem next_toNat (id : UInt16) : ((id + 1) &&& MAX_REQUEST_ID).toNat = (id.toNat + 1) % 2 ^ 14 := by
  rw [UInt16.toNat_and, UInt16.toNat_add]
  have hmax : MAX_REQUEST_ID.toNat = 2 ^ 14 - 1 := rfl
  have hone : (1 : UInt16).toNat = 1 := rfl
  rw [hmax, Nat.and_two_pow_sub_one_eq_mod, hone]
  omega

/--
The first ID from the counter on that is not in use.
-/
def nextId (cache : SyncRequestCache EndPoint Thread) : Option UInt16 :=
  ((List.range (2 ^ 14)).map fun k => UInt16.ofNat ((cache.requestId.toNat + k) % 2 ^ 14)).find?
    fun id => (cache.requests id).isNone

theorem newId_eq (requests : UInt16 → Option (Request EndPoint Thread)) {requestId : UInt16}
    (hle : requestId ≤ MAX_REQUEST_ID) (tries : Nat)
    : (newId requests requestId tries).map Prod.fst
        = ((List.range tries).map fun k => UInt16.ofNat ((requestId.toNat + k) % 2 ^ 14)).find?
          fun id => (requests id).isNone := by
  induction tries generalizing requestId with
  | zero => rfl
  | succ tries ih =>
    have hnext := next_toNat requestId
    have hself : UInt16.ofNat ((requestId.toNat + 0) % 2 ^ 14) = requestId := by
      rw [Nat.add_zero, Nat.mod_eq_of_lt (lt_of_le_max hle), UInt16.ofNat_toNat]
    rw [List.range_succ_eq_map, List.map_cons, hself, List.map_map, newId]
    cases hreq : requests requestId with
    | none => simp [hreq]
    | some req =>
      rw [List.find?_cons_of_neg (by simp [hreq])]
      simp only [Option.isSome_some, if_true]
      rw [ih]
      . congr 2
        funext k
        apply congrArg UInt16.ofNat
        rw [hnext, Nat.mod_add_mod, Nat.succ_eq_add_one, Nat.add_assoc, Nat.add_comm 1 k]
      . apply UInt16.le_iff_toNat_le.mpr
        rw [hnext]
        apply Nat.le_of_lt_succ
        apply Nat.mod_lt
        decide

@[simp] theorem insert_requests (cache : SyncRequestCache EndPoint Thread) (id : UInt16)
    (req : Request EndPoint Thread)
    : (cache.insert id req).requests = Function.update cache.requests id (some req) := rfl

@[simp] theorem erase_requests (cache : SyncRequestCache EndPoint Thread) (id : UInt16)
    : (cache.erase id).requests = Function.update cache.requests id none := rfl

theorem newId_next_le {requests : UInt16 → Option (Request EndPoint Thread)}
    {requestId id next : UInt16} {tries : Nat} (h : newId requests requestId tries = some (id, next))
    : next ≤ MAX_REQUEST_ID := by
  induction tries generalizing requestId with
  | zero => cases h
  | succ tries ih =>
    rw [newId] at h
    split at h
    . exact ih h
    . cases h
      apply UInt16.le_iff_toNat_le.mpr
      rw [UInt16.toNat_and]
      exact Nat.and_le_right

theorem startRequest_spec [Inhabited EndPoint] [DecidableEq EndPoint]
    {cache cache' : SyncRequestCache EndPoint Thread} (hle : cache.requestId ≤ MAX_REQUEST_ID)
    {request request' : Message} {client : EndPoint} {now : UInt64} {id : UInt16}
    (h : cache.startRequest request client now = some (id, cache', request'))
    : cache.nextId = some id
        ∧ cache.requests id = none
        ∧ cache'.requestId ≤ MAX_REQUEST_ID
        ∧ cache'.requests = Function.update cache.requests id (some (.new client now))
        ∧ request'.id = request.id ||| id := by
  unfold startRequest at h
  cases hnew : newId cache.requests cache.requestId (MAX_REQUEST_ID.toNat + 1) with
  | none => simp [hnew] at h
  | some res =>
    have hnext := newId_eq cache.requests hle (2 ^ 14)
    have htries : MAX_REQUEST_ID.toNat + 1 = 2 ^ 14 := rfl
    rw [htries] at hnew
    rw [hnew, Option.map_some] at hnext
    rw [htries, hnew, Option.some_inj] at h
    cases h
    have hnone := List.find?_some hnext.symm
    refine ⟨hnext.symm, by simpa using hnone, newId_next_le hnew, rfl, ?_⟩
    apply Message.id_merge
    have hmem := List.mem_of_find?_eq_some hnext.symm
    rw [List.mem_map] at hmem
    obtain ⟨k, -, hk⟩ := hmem
    rw [← hk]
    apply ofNat_mod_le

end SyncRequestCache

namespace Calls

variable {EndPoint Thread : Type} {s s' : Calls EndPoint Thread}

-- The client that a record is for
def clientOf (s : Calls EndPoint Thread) (id : UInt16) : Option EndPoint :=
  (s.cache.requests id).map Request.client

/-
What can become of a record in a step that no requesting thread takes.
-/
inductive Change (a : Action EndPoint Thread) (id : UInt16) (req : Request EndPoint Thread)
    : Request EndPoint Thread → Prop where
  | same : Change a id req req
  | notified : Change a id req req.notify
  | answered (response : Message) (ha : a = .handleResponse response) (hid : response.id = id)
      (hprovided : response.flags &&& FLAG_RESPONSE_PROVIDED ≠ 0)
      : Change a id req { req with response := response }.notify

-- All records are still there
structure InPlace (a : Action EndPoint Thread) (s s' : Calls EndPoint Thread) : Prop where
  callers : s'.callers = s.callers
  requestId : s'.cache.requestId = s.cache.requestId
  records : ∀ id, Option.Rel (Change a id) (s.cache.requests id) (s'.cache.requests id)

theorem inPlace_notifyAll (a : Action EndPoint Thread) (s : Calls EndPoint Thread)
    (p : Request EndPoint Thread → Bool)
    : InPlace a s { s with cache := s.cache.notifyAll p } where
  callers := rfl
  requestId := rfl
  records := by
    intro id
    simp only [SyncRequestCache.notifyAll]
    cases s.cache.requests id with
    | none => exact .none
    | some req =>
      rw [Option.map_some]
      split
      . exact .some .notified
      . exact .some .same

theorem records_refl (a : Action EndPoint Thread) (s : Calls EndPoint Thread) (id : UInt16)
    : Option.Rel (Change a id) (s.cache.requests id) (s.cache.requests id) := by
  cases s.cache.requests id with
  | none => exact .none
  | some req => exact .some .same

-- The actions of the requesting threads
def isOwn : Action EndPoint Thread → Bool
  | .assign _ _ | .startRequest _ _ _ | .waitResponse _ | .wakeUp _ => true
  | .handleResponse _ | .doTimeouts _ _ | .shutdownClient _ | .shutdown => false

theorem Change.client_eq {a : Action EndPoint Thread} {id : UInt16}
    {req req' : Request EndPoint Thread} (h : Change a id req req')
    : req'.client = req.client := by
  cases h <;> rfl

theorem InPlace.clientOf_eq {a : Action EndPoint Thread} (h : InPlace a s s') (id : UInt16)
    : s'.clientOf id = s.clientOf id := by
  have hid := h.records id
  unfold clientOf
  generalize s.cache.requests id = record at hid
  generalize s'.cache.requests id = record' at hid
  cases hid with
  | none => rfl
  | some hchange => simp only [Option.map_some, hchange.client_eq]

theorem clientOf_isSome (s : Calls EndPoint Thread) (id : UInt16)
    : (s.clientOf id).isSome = (s.cache.requests id).isSome := Option.isSome_map

/-
The IDs of the requests that are under way are those of the records, and no record is left over.
-/
structure Ids (s : Calls EndPoint Thread) : Prop where
  requestId_le : s.cache.requestId ≤ MAX_REQUEST_ID
  request_id : ∀ t, (s.callers t).phase.isOpen = true → (s.callers t).request.id = (s.callers t).id
  clientOf_id : ∀ t, (s.callers t).phase.isOpen = true
    → s.clientOf (s.callers t).id = some (s.callers t).client
  distinct : ∀ t u, (s.callers t).phase.isOpen = true → (s.callers u).phase.isOpen = true
    → (s.callers t).id = (s.callers u).id → t = u
  owned : ∀ id, (s.clientOf id).isSome → ∃ t, (s.callers t).phase.isOpen = true ∧ (s.callers t).id = id

-- The request of a caller, if any, stays under way
def Kept (caller caller' : Caller EndPoint) : Prop :=
  caller'.phase.isOpen = caller.phase.isOpen
    ∧ (caller.phase.isOpen = true → caller'.request.id = caller.request.id ∧ caller'.id = caller.id
        ∧ caller'.client = caller.client)

theorem Kept.refl (caller : Caller EndPoint) : Kept caller caller := ⟨rfl, fun _ => ⟨rfl, rfl, rfl⟩⟩

theorem Ids.of_kept (h : Ids s) (hcounter : s'.cache.requestId = s.cache.requestId)
    (hclients : ∀ id, s'.clientOf id = s.clientOf id)
    (hcallers : ∀ t, Kept (s.callers t) (s'.callers t))
    : Ids s' where
  requestId_le := by
    rw [hcounter]
    exact h.requestId_le
  request_id := by
    intro t ht
    rw [(hcallers t).1] at ht
    obtain ⟨hrequest, hid, -⟩ := (hcallers t).2 ht
    rw [hrequest, hid]
    exact h.request_id t ht
  clientOf_id := by
    intro t ht
    rw [(hcallers t).1] at ht
    obtain ⟨-, hid, hclient⟩ := (hcallers t).2 ht
    rw [hclients, hid, hclient]
    exact h.clientOf_id t ht
  distinct := by
    intro t u ht hu heq
    rw [(hcallers t).1] at ht
    rw [(hcallers u).1] at hu
    rw [((hcallers t).2 ht).2.1, ((hcallers u).2 hu).2.1] at heq
    exact h.distinct t u ht hu heq
  owned := by
    intro id hid
    rw [hclients] at hid
    obtain ⟨t, ht, hid⟩ := h.owned id hid
    refine ⟨t, ?_, ?_⟩
    . rw [(hcallers t).1]
      exact ht
    . rw [((hcallers t).2 ht).2.1]
      exact hid

theorem inPlace_handleResponse (s : Calls EndPoint Thread) (response : Message)
    : InPlace (.handleResponse response) s
        { s with cache := (s.cache.handleResponse response).2 } := by
  unfold SyncRequestCache.handleResponse
  split
  next hprovided =>
    cases hreq : s.cache.requests response.id with
    | none => exact ⟨rfl, rfl, records_refl _ s⟩
    | some req =>
      refine ⟨rfl, rfl, ?_⟩
      intro id
      simp only [SyncRequestCache.insert]
      by_cases hid : id = response.id
      . rw [hid, Function.update_self, hreq]
        exact .some (.answered response rfl rfl hprovided)
      . rw [Function.update_of_ne hid]
        apply records_refl
  . exact ⟨rfl, rfl, records_refl _ s⟩

theorem ids_new [Inhabited EndPoint] : Ids (new : Calls EndPoint Thread) where
  requestId_le := UInt16.le_iff_toNat_le.mpr (Nat.zero_le _)
  request_id := by simp [new, Phase.isOpen]
  clientOf_id := by simp [new, Phase.isOpen]
  distinct := by simp [new, Phase.isOpen]
  owned := by simp [new, clientOf, SyncRequestCache.new]

theorem kept_of_frame {self : Thread} (hself : Kept (s.callers self) (s'.callers self))
    (hrest : ∀ t, t ≠ self → s'.callers t = s.callers t) (t : Thread)
    : Kept (s.callers t) (s'.callers t) := by
  by_cases ht : t = self
  . rw [ht]
    exact hself
  . rw [hrest t ht]
    exact .refl _

/--
A record that is there is not made anew by the wait.
-/
theorem Ids.waitResponse_cache [Inhabited EndPoint] (h : Ids s) {self : Thread} (hphase : (s.callers self).phase = .started)
    : ∃ req, s.cache.requests (s.callers self).id = some req
        ∧ s.cache.waitResponse (s.callers self).request self
            = s.cache.insert (s.callers self).id { req with ready := req.ready.wait self } := by
  have hopen : (s.callers self).phase.isOpen = true := by
    rw [hphase]
    rfl
  have hclient := h.clientOf_id self hopen
  unfold clientOf at hclient
  rw [Option.map_eq_some_iff] at hclient
  obtain ⟨req, hreq, -⟩ := hclient
  refine ⟨req, hreq, ?_⟩
  unfold SyncRequestCache.waitResponse
  rw [h.request_id self hopen, hreq, Option.getD_some]

theorem InPlace.record {a : Action EndPoint Thread} (h : InPlace a s s') {id : UInt16}
    {req' : Request EndPoint Thread} (hreq' : s'.cache.requests id = some req')
    : ∃ req, s.cache.requests id = some req ∧ Change a id req req' := by
  have hrel := h.records id
  rw [hreq'] at hrel
  generalize s.cache.requests id = record at hrel
  cases hrel with
  | some hchange => exact ⟨_, rfl, hchange⟩

/-
The ID field of the flags of each request under way is that of a record, the IDs are different, and
each record belongs to a request under way.
-/
def IdsAgree (s : Calls EndPoint Thread) : Prop :=
  (∀ t, (s.callers t).phase.isOpen = true →
      (s.callers t).request.id = (s.callers t).id ∧ (s.cache.requests (s.callers t).id).isSome = true)
    ∧ (∀ t u, (s.callers t).phase.isOpen = true → (s.callers u).phase.isOpen = true →
        (s.callers t).id = (s.callers u).id → t = u)
    ∧ ∀ id, (s.cache.requests id).isSome = true →
        ∃ t, (s.callers t).phase.isOpen = true ∧ (s.callers t).id = id

theorem Ids.idsAgree (h : Ids s) : IdsAgree s := by
  refine ⟨?_, h.distinct, ?_⟩
  . intro t ht
    refine ⟨h.request_id t ht, ?_⟩
    rw [← clientOf_isSome, h.clientOf_id t ht]
    rfl
  . intro id hid
    rw [← clientOf_isSome] at hid
    exact h.owned id hid

section Steps

variable [Inhabited EndPoint] [DecidableEq EndPoint] [DecidableEq Thread]

/-
What each step of a thread does; all others stay as they are.
-/

theorem step_assign {self : Thread} {request : Message} (h : step s (.assign self request) = some s')
    : (s.callers self).phase.isOpen = false
        ∧ s'.cache = s.cache
        ∧ s'.callers self = { s.callers self with request := request }
        ∧ ∀ t, t ≠ self → s'.callers t = s.callers t := by
  simp only [step] at h
  split at h
  . cases h
  next hopen =>
    cases h
    refine ⟨by simpa using hopen, rfl, Function.update_self _ _ _, ?_⟩
    intro t ht
    apply Function.update_of_ne ht

theorem step_startRequest {self : Thread} {client : EndPoint} {now : UInt64}
    (h : step s (.startRequest self client now) = some s')
    : (s.callers self).phase.isOpen = false
        ∧ (∃ id request,
            s.cache.startRequest (s.callers self).request client now = some (id, s'.cache, request)
              ∧ s'.callers self
                  = { request := request, client := client, id := id, phase := .started })
        ∧ ∀ t, t ≠ self → s'.callers t = s.callers t := by
  simp only [step] at h
  split at h
  . cases h
  next hopen =>
    split at h
    . cases h
    next id cache request hstart =>
      cases h
      refine ⟨by simpa using hopen, ⟨id, request, hstart, Function.update_self _ _ _⟩, ?_⟩
      intro t ht
      apply Function.update_of_ne ht

theorem step_waitResponse {self : Thread} (h : step s (.waitResponse self) = some s')
    : (s.callers self).phase = .started
        ∧ s'.cache = s.cache.waitResponse (s.callers self).request self
        ∧ s'.callers self = { s.callers self with phase := .waiting }
        ∧ ∀ t, t ≠ self → s'.callers t = s.callers t := by
  simp only [step] at h
  split at h
  next hphase =>
    cases h
    refine ⟨hphase, rfl, Function.update_self _ _ _, ?_⟩
    intro t ht
    apply Function.update_of_ne ht
  . cases h

theorem step_wakeUp {self : Thread} (h : step s (.wakeUp self) = some s')
    : (s.callers self).phase = .waiting
        ∧ (∃ req, s.cache.requests (s.callers self).request.id = some req
            ∧ s'.callers self = { s.callers self with phase := .returned req.response })
        ∧ s'.cache = s.cache.erase (s.callers self).request.id
        ∧ ∀ t, t ≠ self → s'.callers t = s.callers t := by
  simp only [step, SyncRequestCache.responseReady] at h
  split at h
  next hphase =>
    split at h
    . cases h
    next hready =>
      split at hready
      . cases hready
      next req hreq =>
        cases hready
        cases h
        refine ⟨hphase, ⟨req, hreq, Function.update_self _ _ _⟩, rfl, ?_⟩
        intro t ht
        apply Function.update_of_ne ht
  . cases h

theorem step_inPlace {a : Action EndPoint Thread} (ha : isOwn a = false)
    (h : step s a = some s')
    : InPlace a s s' := by
  cases a with
  | assign self request => cases ha
  | startRequest self client now => cases ha
  | waitResponse self => cases ha
  | wakeUp self => cases ha
  | handleResponse response =>
    cases h
    apply inPlace_handleResponse
  | doTimeouts now timeout =>
    cases h
    apply inPlace_notifyAll
  | shutdownClient client =>
    cases h
    apply inPlace_notifyAll
  | shutdown =>
    cases h
    apply inPlace_notifyAll

/-
The bits of an ID that are already in the flags of a request have to be in its new ID as well.
-/
def idFits (s : Calls EndPoint Thread) : Action EndPoint Thread → Bool
  | .startRequest self _ _ =>
    match s.cache.nextId with
    | some id => (s.callers self).request.id ||| id = id
    | none => true
  | _ => true

theorem Ids.startRequest (h : Ids s) {self : Thread} {client : EndPoint} {now : UInt64}
    (hfits : idFits s (.startRequest self client now) = true)
    (hstep : step s (.startRequest self client now) = some s')
    : Ids s' := by
  obtain ⟨hopen, ⟨id, request, hstart, hself⟩, hrest⟩ := step_startRequest hstep
  obtain ⟨hnext, hfree, hle, hrequests, hid⟩ := SyncRequestCache.startRequest_spec h.requestId_le hstart
  unfold idFits at hfits
  rw [hnext] at hfits
  have hclientOf : s'.clientOf = Function.update s.clientOf id (some client) := by
    funext k
    unfold clientOf
    rw [hrequests]
    by_cases hk : k = id
    . rw [hk, Function.update_self, Function.update_self]
      rfl
    . rw [Function.update_of_ne hk, Function.update_of_ne hk]
  -- The new record is the only one with its ID
  have hother : ∀ t, (s.callers t).phase.isOpen = true → (s.callers t).id ≠ id := by
    intro t ht heq
    have hclient := h.clientOf_id t ht
    rw [heq, clientOf, hfree] at hclient
    cases hclient
  constructor
  . exact hle
  . intro t
    by_cases ht : t = self
    . rw [ht, hself]
      intro _
      rw [hid]
      exact of_decide_eq_true hfits
    . rw [hrest t ht]
      exact h.request_id t
  . intro t
    by_cases ht : t = self
    . rw [ht, hself, hclientOf, Function.update_self]
      intro _
      rfl
    . rw [hrest t ht, hclientOf]
      intro hopen
      rw [Function.update_of_ne (hother t hopen)]
      exact h.clientOf_id t hopen
  . intro t u
    by_cases ht : t = self <;> by_cases hu : u = self
    . intros
      rw [ht, hu]
    . rw [ht, hself, hrest u hu]
      intro _ hopen heq
      exact absurd heq.symm (hother u hopen)
    . rw [hu, hself, hrest t ht]
      intro hopen _ heq
      exact absurd heq (hother t hopen)
    . rw [hrest t ht, hrest u hu]
      exact h.distinct t u
  . intro k
    rw [hclientOf]
    by_cases hk : k = id
    . intro _
      refine ⟨self, ?_⟩
      rw [hself, hk]
      exact ⟨rfl, rfl⟩
    . rw [Function.update_of_ne hk]
      intro hsome
      obtain ⟨t, ht, htk⟩ := h.owned k hsome
      have hne : t ≠ self := by
        intro heq
        rw [heq, hopen] at ht
        cases ht
      refine ⟨t, ?_⟩
      rw [hrest t hne]
      exact ⟨ht, htk⟩

theorem Ids.wakeUp (h : Ids s) {self : Thread} (hstep : step s (.wakeUp self) = some s') : Ids s' := by
  obtain ⟨hphase, ⟨req, hreq, hself⟩, hcache, hrest⟩ := step_wakeUp hstep
  have hopen : (s.callers self).phase.isOpen = true := by
    rw [hphase]
    rfl
  rw [h.request_id self hopen] at hcache
  have hclientOf : s'.clientOf = Function.update s.clientOf (s.callers self).id none := by
    funext k
    unfold clientOf
    rw [hcache]
    by_cases hk : k = (s.callers self).id
    . rw [hk, Function.update_self, SyncRequestCache.erase_requests, Function.update_self]
      rfl
    . rw [Function.update_of_ne hk, SyncRequestCache.erase_requests, Function.update_of_ne hk]
  have hclosed : (s'.callers self).phase.isOpen = false := by
    rw [hself]
    rfl
  have hne : ∀ t, (s'.callers t).phase.isOpen = true → t ≠ self := by
    intro t ht heq
    rw [heq, hclosed] at ht
    cases ht
  constructor
  . rw [hcache]
    exact h.requestId_le
  . intro t ht
    have htself := hne t ht
    rw [hrest t htself] at ht ⊢
    exact h.request_id t ht
  . intro t ht
    have htself := hne t ht
    rw [hrest t htself] at ht ⊢
    rw [hclientOf, Function.update_of_ne]
    . exact h.clientOf_id t ht
    . intro heq
      exact htself (h.distinct t self ht hopen heq)
  . intro t u ht hu
    have htself := hne t ht
    have huself := hne u hu
    rw [hrest t htself] at ht ⊢
    rw [hrest u huself] at hu ⊢
    exact h.distinct t u ht hu
  . intro k
    rw [hclientOf]
    by_cases hk : k = (s.callers self).id
    . rw [hk, Function.update_self]
      intro hnone
      cases hnone
    . rw [Function.update_of_ne hk]
      intro hsome
      obtain ⟨t, ht, htk⟩ := h.owned k hsome
      have htself : t ≠ self := by
        intro heq
        rw [heq] at htk
        exact hk htk.symm
      refine ⟨t, ?_⟩
      rw [hrest t htself]
      exact ⟨ht, htk⟩

theorem Ids.step (h : Ids s) {a : Action EndPoint Thread} (hfits : idFits s a = true)
    (hstep : Calls.step s a = some s')
    : Ids s' := by
  cases a with
  | assign self request =>
    obtain ⟨hopen, hcache, hself, hrest⟩ := step_assign hstep
    apply h.of_kept
    . rw [hcache]
    . intro id
      unfold clientOf
      rw [hcache]
    . apply kept_of_frame _ hrest
      rw [hself]
      refine ⟨rfl, ?_⟩
      intro htrue
      rw [hopen] at htrue
      cases htrue
  | startRequest self client now => exact h.startRequest hfits hstep
  | waitResponse self =>
    obtain ⟨hphase, hcache, hself, hrest⟩ := step_waitResponse hstep
    obtain ⟨req, hreq, hwait⟩ := h.waitResponse_cache hphase
    rw [hwait] at hcache
    apply h.of_kept
    . rw [hcache]
      rfl
    . intro id
      unfold clientOf
      rw [hcache]
      by_cases hid : id = (s.callers self).id
      . rw [hid, hreq, SyncRequestCache.insert_requests, Function.update_self]
        rfl
      . rw [SyncRequestCache.insert_requests, Function.update_of_ne hid]
    . apply kept_of_frame _ hrest
      rw [hself, Kept, hphase]
      exact ⟨rfl, fun _ => ⟨rfl, rfl, rfl⟩⟩
  | wakeUp self => exact h.wakeUp hstep
  | handleResponse response | doTimeouts now timeout | shutdownClient client | shutdown =>
    have hplace := step_inPlace rfl hstep
    apply h.of_kept hplace.requestId hplace.clientOf_eq
    intro t
    rw [hplace.callers]
    exact .refl _

/--
Only the end of a wait removes a record, which is that of the request of the thread.
-/
theorem Ids.erased (h : Ids s) {a : Action EndPoint Thread} (hstep : Calls.step s a = some s')
    {id : UInt16} (hsome : (s.clientOf id).isSome = true) (hnone : s'.clientOf id = none)
    : ∃ t, a = .wakeUp t ∧ (s.callers t).id = id := by
  cases a with
  | assign self request =>
    obtain ⟨-, hcache, -, -⟩ := step_assign hstep
    rw [clientOf, hcache] at hnone
    rw [clientOf, hnone] at hsome
    cases hsome
  | startRequest self client now =>
    obtain ⟨-, ⟨id', request, hstart, -⟩, -⟩ := step_startRequest hstep
    obtain ⟨-, -, -, hrequests, -⟩ := SyncRequestCache.startRequest_spec h.requestId_le hstart
    rw [clientOf, hrequests] at hnone
    by_cases hid : id = id'
    . rw [hid, Function.update_self] at hnone
      cases hnone
    . rw [Function.update_of_ne hid] at hnone
      rw [clientOf, hnone] at hsome
      cases hsome
  | waitResponse self =>
    obtain ⟨hphase, hcache, -, -⟩ := step_waitResponse hstep
    obtain ⟨req, -, hwait⟩ := h.waitResponse_cache hphase
    rw [clientOf, hcache, hwait, SyncRequestCache.insert_requests] at hnone
    by_cases hid : id = (s.callers self).id
    . rw [hid, Function.update_self] at hnone
      cases hnone
    . rw [Function.update_of_ne hid] at hnone
      rw [clientOf, hnone] at hsome
      cases hsome
  | wakeUp self =>
    refine ⟨self, rfl, ?_⟩
    obtain ⟨hphase, -, hcache, -⟩ := step_wakeUp hstep
    rw [h.request_id self (by rw [hphase]; rfl)] at hcache
    rw [clientOf, hcache, SyncRequestCache.erase_requests] at hnone
    by_contra hid
    rw [Function.update_of_ne (Ne.symm hid)] at hnone
    rw [clientOf, hnone] at hsome
    cases hsome
  | handleResponse response | doTimeouts now timeout | shutdownClient client | shutdown =>
    rw [(step_inPlace rfl hstep).clientOf_eq] at hnone
    rw [hnone] at hsome
    cases hsome

/-
The record of a request is erased at the end of the wait for its response, and at no other time.
-/
def ErasedByOwner (s : Calls EndPoint Thread) : Prop :=
  (∀ t, (s.callers t).phase = .waiting →
      ∃ s', step s (.wakeUp t) = some s' ∧ s'.cache.requests (s.callers t).id = none)
    ∧ ∀ a s' id, step s a = some s' → (s.cache.requests id).isSome = true
        → s'.cache.requests id = none → ∃ t, a = .wakeUp t ∧ (s.callers t).id = id

theorem Ids.wakeUp_isSome (h : Ids s) {t : Thread} (hphase : (s.callers t).phase = .waiting)
    : (Calls.step s (.wakeUp t)).isSome = true := by
  have hopen : (s.callers t).phase.isOpen = true := by
    rw [hphase]
    rfl
  obtain ⟨hid, hsome⟩ := h.idsAgree.1 t hopen
  rw [← hid] at hsome
  obtain ⟨req, hreq⟩ := Option.isSome_iff_exists.mp hsome
  simp only [Calls.step, hphase, if_true, SyncRequestCache.responseReady, hreq, Option.isSome_some]

theorem Ids.erasedByOwner (h : Ids s) : ErasedByOwner s := by
  constructor
  . intro t hphase
    obtain ⟨s', hstep⟩ := Option.isSome_iff_exists.mp (h.wakeUp_isSome hphase)
    refine ⟨s', hstep, ?_⟩
    obtain ⟨-, -, hcache, -⟩ := step_wakeUp hstep
    rw [h.request_id t (by rw [hphase]; rfl)] at hcache
    rw [hcache, SyncRequestCache.erase_requests, Function.update_self]
  . intro a s' id hstep hsome hnone
    apply h.erased hstep
    . rw [clientOf_isSome]
      exact hsome
    . rw [clientOf, hnone]
      rfl

/--
In every run in which the flags of each request fit its new ID.
-/
theorem run_ids_agree (actions : List (Action EndPoint Thread)) (s : Calls EndPoint Thread)
    (hfits : Runs.all step idFits new actions = true) (hrun : run actions = some s)
    : IdsAgree s ∧ ErasedByOwner s := by
  have hids : Ids s := by
    apply Runs.run_inv_of_all _ ids_new hfits hrun
    intro s a s' h hok hstep
    exact h.step hok hstep
  exact ⟨hids.idsAgree, hids.erasedByOwner⟩

-- A message is used for a second request while another thread waits
def reuseRun : List (Action Nat Bool) :=
  [.assign false { tag := 1, flags := 0, data := [] }, .startRequest false 7 0,
    .assign true { tag := 1, flags := 0, data := [] }, .startRequest true 7 0, .waitResponse true,
    .waitResponse false, .wakeUp false, .startRequest false 7 0]

theorem run_ids_agree_reuse
    : ∃ s, run reuseRun = some s
        ∧ ((s.callers false).id, (s.callers true).id) = (2, 1)
        ∧ IdsAgree s ∧ ErasedByOwner s := by
  have hmap : (run reuseRun).map (fun s => ((s.callers false).id, (s.callers true).id))
      = some (2, 1) := by decide
  obtain ⟨s, hrun, hids⟩ := Option.map_eq_some_iff.mp hmap
  exact ⟨s, hrun, hids, run_ids_agree reuseRun s (by decide +kernel) hrun⟩

-- The third request with the same message gets the ID 2, but its flags say 3
def thirdRun : List (Action Nat Unit) :=
  [.assign () { tag := 1, flags := 0, data := [] }, .startRequest () 7 0, .waitResponse (),
    .wakeUp (), .startRequest () 7 0, .waitResponse (), .wakeUp (), .startRequest () 7 0]

theorem run_ids_differ
    : ¬(∀ (actions : List (Action Nat Unit)) (s : Calls Nat Unit),
        run actions = some s → IdsAgree s ∧ ErasedByOwner s) := by
  intro h
  have hmap : (run thirdRun).map (fun s =>
      ((s.callers ()).phase, (s.callers ()).request.id, (s.callers ()).id))
      = some (.started, 3, 2) := by decide
  obtain ⟨s, hrun, hids⟩ := Option.map_eq_some_iff.mp hmap
  rw [Prod.mk.injEq, Prod.mk.injEq] at hids
  have hagree := ((h _ s hrun).1.1 () (by rw [hids.1]; rfl)).1
  rw [hids.2.1, hids.2.2] at hagree
  cases hagree

end Steps

end Calls

end Tube
end ObTools
