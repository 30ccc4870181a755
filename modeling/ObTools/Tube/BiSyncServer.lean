import ObTools.Tube.SyncRequest
import ObTools.Tube.SyncResponse

/-!
This module contains the model of `Tube::BiSyncServer`, which makes requests to its clients and takes messages of any
kind from them, and its verification: a request returns what the client that it is for has sent, as long as the other
clients do not send responses with its ID.
-/

namespace ObTools
namespace Tube

inductive ClientMessage.Action where
  | started
  | messageData
  | finished
  | shutdown
deriving DecidableEq, Repr

structure ClientMessage (EndPoint : Type) where
  client : EndPoint
  msg : Message
  action : ClientMessage.Action
deriving DecidableEq, Repr

structure BiSyncServer (EndPoint Thread : Type) where
  -- The request cache, and the threads that make requests
  requests : Calls EndPoint Thread
  requestTimeout : Int
  -- The sessions of the clients with their queues of messages to send
  clientSessions : EndPoint → Option (List Message)
  -- Whether a thread has come past sending its request
  sent : Thread → Bool

namespace BiSyncServer

variable {EndPoint Thread : Type} [Inhabited EndPoint] [DecidableEq EndPoint] [DecidableEq Thread]

def new (requestTimeout : Int) : BiSyncServer EndPoint Thread where
  requests := .new
  requestTimeout := requestTimeout
  clientSessions := fun _ => none
  sent := fun _ => false

-- Look up client in map, and queue it on there
def send (s : BiSyncServer EndPoint Thread) (client : EndPoint) (msg : Message)
    : BiSyncServer EndPoint Thread :=
  match s.clientSessions client with
  | some queue =>
    { s with clientSessions := Function.update s.clientSessions client (some (queue ++ [msg])) }
  | none => s

-- What is done with the request cache
def withCache (s : BiSyncServer EndPoint Thread) (cache : SyncRequestCache EndPoint Thread)
    : BiSyncServer EndPoint Thread :=
  { s with requests := { s.requests with cache := cache } }

/-
The server and whether the connection is allowed to continue.
-/
def handleAsyncMessage (s : BiSyncServer EndPoint Thread) (msg : ClientMessage EndPoint)
    : BiSyncServer EndPoint Thread × Bool :=
  if msg.action = .messageData ∧ msg.msg.flags &&& FLAG_RESPONSE_PROVIDED ≠ 0 then
    (s.withCache (s.requests.cache.handleResponse msg.msg).2, true)
  else if msg.action = .finished then
    -- Shut down and fail all waiting requests for this client
    (s.withCache (s.requests.cache.shutdownClient msg.client), true)
  else
    (s, true)

def fixResponse (request response : Message) : Message :=
  let flags := response.flags &&& ~~~MASK_SYNC_FLAGS
  let flags := flags ||| FLAG_RESPONSE_PROVIDED
  let flags := flags ||| (request.flags &&& MASK_REQUEST_ID)
  { response with flags := flags }

section Handler

-- What the subclass answers to a request, if it handles it
variable (handleRequest : EndPoint → Message → Option Message)

def handleMessage (s : BiSyncServer EndPoint Thread) (msg : ClientMessage EndPoint)
    : BiSyncServer EndPoint Thread × Bool :=
  match msg.action with
  | .started | .finished => s.handleAsyncMessage msg
  | .messageData =>
    if msg.msg.flags &&& FLAG_RESPONSE_REQUIRED ≠ 0 then
      match handleRequest msg.client msg.msg with
      | some response => (s.send msg.client (fixResponse msg.msg response), true)
      | none => (s, true)
    else
      s.handleAsyncMessage msg
  | .shutdown => (s, false)

end Handler

end BiSyncServer

inductive ServerAction (EndPoint Thread : Type) where
  -- A new message for the next request
  | assign (self : Thread) (request : Message)
  -- The parts of `request`
  | startRequest (self : Thread) (client : EndPoint) (now : UInt64)
  | send (self : Thread)
  | waitResponse (self : Thread)
  | wakeUp (self : Thread)
  -- The life of a connection
  | connect (client : EndPoint)
  | receive (client : EndPoint) (msg : Message)
  | finish (client : EndPoint)
  | disconnect (client : EndPoint)
  | doTimeouts (now : UInt64)
  | shutdown
deriving DecidableEq, Repr

namespace BiSyncServer

variable {EndPoint Thread : Type} [Inhabited EndPoint] [DecidableEq EndPoint] [DecidableEq Thread]

-- A step in the request cache
def call (s : BiSyncServer EndPoint Thread) (a : Action EndPoint Thread)
    : Option (BiSyncServer EndPoint Thread) :=
  (s.requests.step a).map fun requests => { s with requests := requests }

variable (handleRequest : EndPoint → Message → Option Message)

def step (s : BiSyncServer EndPoint Thread)
    : ServerAction EndPoint Thread → Option (BiSyncServer EndPoint Thread)
  | .assign self request => s.call (.assign self request)
  | .startRequest self client now =>
    { s with sent := Function.update s.sent self false }.call (.startRequest self client now)
  | .send self =>
    let caller := s.requests.callers self
    if caller.phase = .started ∧ s.sent self = false then
      some { s.send caller.client caller.request with sent := Function.update s.sent self true }
    else
      none
  | .waitResponse self => if s.sent self then s.call (.waitResponse self) else none
  | .wakeUp self => s.call (.wakeUp self)
  | .connect client =>
    let s := { s with clientSessions := Function.update s.clientSessions client (some []) }
    some (s.handleMessage handleRequest { client := client, msg := .none, action := .started }).1
  | .receive client msg =>
    if (s.clientSessions client).isSome then
      some (s.handleMessage handleRequest { client := client, msg := msg, action := .messageData }).1
    else
      none
  | .finish client =>
    some (s.handleMessage handleRequest { client := client, msg := .none, action := .finished }).1
  | .disconnect client =>
    some { s with clientSessions := Function.update s.clientSessions client none }
  | .doTimeouts now => s.call (.doTimeouts now s.requestTimeout)
  | .shutdown => s.call .shutdown

def run (requestTimeout : Int) (actions : List (ServerAction EndPoint Thread))
    : Option (BiSyncServer EndPoint Thread) :=
  Runs.run (step handleRequest) (new requestTimeout) actions

variable {EndPoint Thread : Type}

theorem send_requests [DecidableEq EndPoint] (s : BiSyncServer EndPoint Thread) (client : EndPoint) (msg : Message)
    : (s.send client msg).requests = s.requests := by
  unfold send
  split
  . rfl
  . rfl

variable [Inhabited EndPoint] [DecidableEq EndPoint] [DecidableEq Thread]
variable {handleRequest : EndPoint → Message → Option Message} {s s' : BiSyncServer EndPoint Thread}

-- Whether a message is handed to the request cache
def isResponse (msg : Message) : Bool :=
  msg.flags &&& FLAG_RESPONSE_REQUIRED = 0 && msg.flags &&& FLAG_RESPONSE_PROVIDED ≠ 0

/-
The flags of a request fit its new ID, and a valid response for a request under way is from the
client that has been asked.
-/
def isFromAsked (s : BiSyncServer EndPoint Thread) : ServerAction EndPoint Thread → Bool
  | .startRequest self client now => s.requests.idFits (.startRequest self client now)
  | .receive client msg =>
    !(isResponse msg && msg.isValid) ||
      match s.requests.cache.requests msg.id with
      | some req => req.client = client
      | none => true
  | _ => true

/-
A step of the server is one of the request cache, or does not touch it.
-/
def IsCall (s : BiSyncServer EndPoint Thread) (a : ServerAction EndPoint Thread)
    (requests : Calls EndPoint Thread) : Prop :=
  ∃ b, s.requests.step b = some requests
    ∧ s.requests.idFits b = true
    ∧ ∀ response req, b = .handleResponse response → response.isValid = true
        → s.requests.cache.requests response.id = some req → a = .receive req.client response

theorem isCall_of_call {s0 : BiSyncServer EndPoint Thread} {a : ServerAction EndPoint Thread}
    {b : Action EndPoint Thread} (h : s0.call b = some s') (hs : s0.requests = s.requests)
    (hfits : s.requests.idFits b = true)
    (hb : ∀ response, b ≠ .handleResponse response)
    : IsCall s a s'.requests := by
  unfold call at h
  rw [hs, Option.map_eq_some_iff] at h
  obtain ⟨requests, hstep, rfl⟩ := h
  refine ⟨b, hstep, hfits, ?_⟩
  intro response req heq
  exact absurd heq (hb response)

theorem isCall_receive {client : EndPoint} {msg : Message}
    (hok : isFromAsked s (.receive client msg) = true)
    : let res := s.handleMessage handleRequest
        { client := client, msg := msg, action := .messageData }
      res.1.requests = s.requests ∨ IsCall s (.receive client msg) res.1.requests := by
  simp only [handleMessage]
  split
  . left
    split
    . apply send_requests
    . rfl
  next hrequired =>
    simp only [handleAsyncMessage, true_and]
    split
    next hprovided =>
      right
      refine ⟨.handleResponse msg, rfl, rfl, ?_⟩
      intro response req hb hvalid hreq
      cases hb
      have hresponse : isResponse msg = true := by
        simp only [isResponse, Bool.and_eq_true, decide_eq_true_eq]
        exact ⟨not_not.mp hrequired, hprovided⟩
      simp only [isFromAsked, hresponse, hvalid, hreq, Bool.and_self, Bool.not_true, Bool.false_or,
        decide_eq_true_eq] at hok
      rw [hok]
    . left
      rfl

theorem step_isCall {a : ServerAction EndPoint Thread} (hok : isFromAsked s a = true)
    (h : step handleRequest s a = some s')
    : s'.requests = s.requests ∨ IsCall s a s'.requests := by
  cases a with
  | assign self request =>
    right
    exact isCall_of_call h rfl rfl nofun
  | startRequest self client now =>
    right
    simp only [step] at h
    exact isCall_of_call h rfl hok nofun
  | send self =>
    left
    simp only [step] at h
    split at h
    . cases h
      apply send_requests
    . cases h
  | waitResponse self =>
    right
    simp only [step] at h
    split at h
    . exact isCall_of_call h rfl rfl nofun
    . cases h
  | wakeUp self =>
    right
    exact isCall_of_call h rfl rfl nofun
  | connect client =>
    left
    cases h
    rfl
  | receive client msg =>
    simp only [step] at h
    split at h
    . cases h
      exact isCall_receive hok
    . cases h
  | finish client =>
    right
    cases h
    exact ⟨.shutdownClient client, rfl, rfl, nofun⟩
  | disconnect client =>
    left
    cases h
    rfl
  | doTimeouts now =>
    right
    exact isCall_of_call h rfl rfl nofun
  | shutdown =>
    right
    exact isCall_of_call h rfl rfl nofun

-- A response is at the record of a request for the client that has sent it
def Sent (actions : List (ServerAction EndPoint Thread)) (_ : UInt16) (client : EndPoint)
    (response : Message) : Prop :=
  .receive client response ∈ actions

theorem inv_step (actions : List (ServerAction EndPoint Thread)) (s : BiSyncServer EndPoint Thread)
    (a : ServerAction EndPoint Thread) (s' : BiSyncServer EndPoint Thread)
    (h : s.requests.Ids ∧ s.requests.Stored (Sent actions)) (hok : isFromAsked s a = true)
    (hstep : step handleRequest s a = some s')
    : s'.requests.Ids ∧ s'.requests.Stored (Sent (actions ++ [a])) := by
  obtain ⟨hids, hstored⟩ := h
  have hold : s.requests.Stored (Sent (actions ++ [a])) := by
    apply hstored.mono
    intro id client response hmem
    exact List.mem_append_left _ hmem
  rcases step_isCall hok hstep with hsame | ⟨b, hb, hfits, hresponse⟩
  . rw [hsame]
    exact ⟨hids, hold⟩
  . refine ⟨hids.step hfits hb, hold.step hids ?_ hb⟩
    intro response req hb _ hvalid hreq
    apply List.mem_append_right
    rw [List.mem_singleton]
    exact (hresponse response req hb hvalid hreq).symm

/--
In every run in which nobody but the client that has been asked sends a response to a request.
-/
theorem run_answered_by_asked (handleRequest : EndPoint → Message → Option Message)
    (requestTimeout : Int) (actions : List (ServerAction EndPoint Thread))
    (s : BiSyncServer EndPoint Thread)
    (hok : Runs.all (step handleRequest) isFromAsked (new requestTimeout) actions = true)
    (hrun : run handleRequest requestTimeout actions = some s)
    : ∀ t response, (s.requests.callers t).phase = .returned response → response.isValid = true →
        .receive (s.requests.callers t).client response ∈ actions := by
  obtain ⟨-, hstored⟩ :=
    Runs.run_history_of_all inv_step ⟨Calls.ids_new, Calls.stored_new (Sent [])⟩ hok hrun
  exact hstored.returned

-- Two clients are asked at once and answer in the other order
def askedRun : List (ServerAction Nat Bool) :=
  [.connect 7, .connect 8, .assign false { tag := 1, flags := 0, data := [] },
    .assign true { tag := 1, flags := 0, data := [] }, .startRequest false 7 0,
    .startRequest true 8 0, .send true, .send false, .waitResponse false, .waitResponse true,
    .receive 8 { tag := 2, flags := 0x40010000, data := [8] },
    .receive 7 { tag := 2, flags := 0x40000000, data := [7] }, .wakeUp true, .wakeUp false]

theorem run_answered_by_asked_both
    : ∃ s, run (fun _ _ => none) 5 askedRun = some s
        ∧ ((s.requests.callers false).client, (s.requests.callers false).phase)
            = (7, .returned { tag := 2, flags := 0x40000000, data := [7] })
        ∧ .receive 7 { tag := 2, flags := 0x40000000, data := [7] } ∈ askedRun := by
  have hmap : (run (fun _ _ => none) 5 askedRun).map (fun s =>
      ((s.requests.callers false).client, (s.requests.callers false).phase))
      = some (7, .returned { tag := 2, flags := 0x40000000, data := [7] }) := by decide
  obtain ⟨s, hrun, hphase⟩ := Option.map_eq_some_iff.mp hmap
  refine ⟨s, hrun, hphase, ?_⟩
  rw [Prod.mk.injEq] at hphase
  have hmem := run_answered_by_asked (fun _ _ => none) 5 askedRun s (by decide +kernel) hrun false _
    hphase.2 rfl
  rw [hphase.1] at hmem
  exact hmem

-- The client 7 is asked, but 8 answers
def forgedRun : List (ServerAction Nat Unit) :=
  [.connect 7, .connect 8, .assign () { tag := 1, flags := 0, data := [] }, .startRequest () 7 0,
    .send (), .waitResponse (), .receive 8 { tag := 2, flags := 0x40000000, data := [8] },
    .wakeUp ()]

theorem run_answered_by_other
    : ¬(∀ (handleRequest : Nat → Message → Option Message) (requestTimeout : Int)
          (actions : List (ServerAction Nat Unit)) (s : BiSyncServer Nat Unit),
        run handleRequest requestTimeout actions = some s →
        ∀ t response, (s.requests.callers t).phase = .returned response → response.isValid = true →
          .receive (s.requests.callers t).client response ∈ actions) := by
  intro h
  have hmap : (run (fun _ _ => none) 5 forgedRun).map (fun s =>
      ((s.requests.callers ()).client, (s.requests.callers ()).phase))
      = some (7, .returned { tag := 2, flags := 0x40000000, data := [8] }) := by decide
  obtain ⟨s, hrun, hphase⟩ := Option.map_eq_some_iff.mp hmap
  rw [Prod.mk.injEq] at hphase
  have hmem := h _ _ forgedRun s hrun () _ hphase.2 rfl
  rw [hphase.1] at hmem
  revert hmem
  decide

end BiSyncServer
end Tube
end ObTools
