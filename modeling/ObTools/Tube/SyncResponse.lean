import ObTools.Tube.SyncRequest

/-!
This module contains the verification of how threads get their responses from the request cache: no
thread is left waiting for a response that is there as long as no response is there before its thread
waits.
-/

namespace ObTools
namespace Tube
namespace Calls

variable {EndPoint Thread : Type} {s s' : Calls EndPoint Thread}

/-
A property of the responses in the records, and of those that have been returned.
-/
structure Stored (P : UInt16 → EndPoint → Message → Prop) (s : Calls EndPoint Thread) : Prop where
  record : ∀ id req, s.cache.requests id = some req → req.response.isValid = true
    → P id req.client req.response
  returned : ∀ t response, (s.callers t).phase = .returned response → response.isValid = true
    → P (s.callers t).id (s.callers t).client response

theorem stored_new [Inhabited EndPoint] (P : UInt16 → EndPoint → Message → Prop)
    : Stored P (new : Calls EndPoint Thread) where
  record := nofun
  returned := nofun

theorem Stored.mono {P Q : UInt16 → EndPoint → Message → Prop} (h : Stored P s)
    (hPQ : ∀ id client response, P id client response → Q id client response)
    : Stored Q s where
  record := fun id req hreq hvalid => hPQ _ _ _ (h.record id req hreq hvalid)
  returned := fun t response ht hvalid => hPQ _ _ _ (h.returned t response ht hvalid)

-- The responses are responses that have been received, and are at the records that they are for
def Received (actions : List (Action EndPoint Thread)) (id : UInt16) (_ : EndPoint)
    (response : Message) : Prop :=
  response.id = id ∧ response.flags &&& FLAG_RESPONSE_PROVIDED ≠ 0
    ∧ .handleResponse response ∈ actions

theorem Received.append {actions : List (Action EndPoint Thread)} {id : UInt16} {client : EndPoint}
    {response : Message} (h : Received actions id client response) (a : Action EndPoint Thread)
    : Received (actions ++ [a]) id client response := by
  obtain ⟨hid, hprovided, hmem⟩ := h
  exact ⟨hid, hprovided, List.mem_append_left _ hmem⟩

/-
Where the thread of a request is at the condition variable of its record.
-/
def Ready (t : Thread) (phase : Phase) (req : Request EndPoint Thread) : Prop :=
  match phase with
  | .started => req.ready = .new
  | .waiting =>
    (req.ready = { waiting := [t], woken := [] } ∧ req.response.isValid = false)
      ∨ req.ready = { waiting := [], woken := [t] }
  | .idle | .returned _ => True

theorem Ready.change {t : Thread} {phase : Phase} {a : Action EndPoint Thread} {id : UInt16}
    {req req' : Request EndPoint Thread} (h : Ready t phase req) (hchange : Change a id req req')
    : Ready t phase req' := by
  have hnotify : ∀ response, Ready t phase { req with response := response }.notify := by
    intro response
    cases phase with
    | idle | returned response => trivial
    | started =>
      have hready : req.ready = .new := h
      simp only [Ready, Request.notify, hready]
      rfl
    | waiting =>
      -- Whoever waits is woken up
      right
      rcases h with ⟨hready, -⟩ | hready
      all_goals
        simp only [Request.notify, hready]
        rfl
  cases hchange with
  | same => exact h
  | notified => exact hnotify req.response
  | answered response => exact hnotify response

def Waits (s : Calls EndPoint Thread) : Prop :=
  ∀ t req, (s.callers t).phase.isOpen = true → s.cache.requests (s.callers t).id = some req
    → Ready t (s.callers t).phase req

theorem waits_new [Inhabited EndPoint] : Waits (new : Calls EndPoint Thread) := by
  intro t req hopen
  cases hopen

/-
The thread is blocked and nobody is going to wake it up, although there is a response.
-/
def IsStranded (s : Calls EndPoint Thread) (t : Thread) : Prop :=
  (s.callers t).phase = .waiting
    ∧ ∃ req, s.cache.requests (s.callers t).id = some req ∧ req.response.isValid = true
        ∧ t ∉ req.ready.woken

theorem Waits.not_isStranded (h : Waits s) (t : Thread) : ¬IsStranded s t := by
  rintro ⟨hphase, req, hreq, hvalid, hwoken⟩
  have hready := h t req (by rw [hphase]; rfl) hreq
  rw [hphase] at hready
  rcases hready with ⟨-, hinvalid⟩ | hready
  . rw [hinvalid] at hvalid
    cases hvalid
  . apply hwoken
    rw [hready]
    exact List.mem_singleton_self t

section Steps

variable [Inhabited EndPoint] [DecidableEq EndPoint] [DecidableEq Thread]

/--
Responses only come from `handle_response`.
-/
theorem Stored.step {P : UInt16 → EndPoint → Message → Prop} (hids : Ids s) (h : Stored P s)
    {a : Action EndPoint Thread}
    (hresponse : ∀ response req, a = .handleResponse response
      → response.flags &&& FLAG_RESPONSE_PROVIDED ≠ 0 → response.isValid = true
      → s.cache.requests response.id = some req → P response.id req.client response)
    (hstep : Calls.step s a = some s')
    : Stored P s' := by
  cases a with
  | assign self request =>
    obtain ⟨-, hcache, hself, hrest⟩ := step_assign hstep
    constructor
    . rw [hcache]
      exact h.record
    . intro t
      by_cases ht : t = self
      . rw [ht, hself]
        exact h.returned self
      . rw [hrest t ht]
        exact h.returned t
  | startRequest self client now =>
    obtain ⟨-, ⟨id, request, hstart, hself⟩, hrest⟩ := step_startRequest hstep
    obtain ⟨-, -, -, hrequests, -⟩ :=
      SyncRequestCache.startRequest_spec hids.requestId_le hstart
    constructor
    . intro k req
      rw [hrequests]
      by_cases hk : k = id
      . rw [hk, Function.update_self]
        intro hreq hvalid
        cases hreq
        cases hvalid
      . rw [Function.update_of_ne hk]
        exact h.record k req
    . intro t response
      by_cases ht : t = self
      . rw [ht, hself]
        intro hphase
        cases hphase
      . rw [hrest t ht]
        exact h.returned t response
  | waitResponse self =>
    obtain ⟨hphase, hcache, hself, hrest⟩ := step_waitResponse hstep
    obtain ⟨req, hreq, hwait⟩ := hids.waitResponse_cache hphase
    rw [hwait] at hcache
    constructor
    . intro k req'
      rw [hcache, SyncRequestCache.insert_requests]
      by_cases hk : k = (s.callers self).id
      . rw [hk, Function.update_self]
        intro hreq'
        cases hreq'
        exact h.record _ req hreq
      . rw [Function.update_of_ne hk]
        exact h.record k req'
    . intro t response
      by_cases ht : t = self
      . rw [ht, hself]
        intro hphase
        cases hphase
      . rw [hrest t ht]
        exact h.returned t response
  | wakeUp self =>
    obtain ⟨hphase, ⟨req, hreq, hself⟩, hcache, hrest⟩ := step_wakeUp hstep
    have hopen : (s.callers self).phase.isOpen = true := by
      rw [hphase]
      rfl
    rw [hids.request_id self hopen] at hcache hreq
    constructor
    . intro k req'
      rw [hcache, SyncRequestCache.erase_requests]
      by_cases hk : k = (s.callers self).id
      . rw [hk, Function.update_self]
        intro hreq'
        cases hreq'
      . rw [Function.update_of_ne hk]
        exact h.record k req'
    . intro t response
      by_cases ht : t = self
      . rw [ht, hself]
        intro hphase hvalid
        cases hphase
        have hclient := hids.clientOf_id self hopen
        rw [clientOf, hreq, Option.map_some, Option.some_inj] at hclient
        rw [← hclient]
        exact h.record _ req hreq hvalid
      . rw [hrest t ht]
        exact h.returned t response
  | handleResponse response | doTimeouts now timeout | shutdownClient client | shutdown =>
    have hplace := step_inPlace rfl hstep
    constructor
    . intro k req' hreq'
      obtain ⟨req, hreq, hchange⟩ := hplace.record hreq'
      cases hchange with
      | same => exact h.record k _ hreq
      | notified => exact h.record k req hreq
      | answered response ha hid hprovided =>
        intro hvalid
        rw [← hid] at hreq ⊢
        exact hresponse response req ha hprovided hvalid hreq
    . rw [hplace.callers]
      exact h.returned

-- A valid response must not be there when its thread begins to wait
def isInTime (s : Calls EndPoint Thread) : Action EndPoint Thread → Bool
  | .waitResponse self =>
    match s.cache.requests (s.callers self).id with
    | some req => !req.response.isValid
    | none => true
  | _ => true

theorem Waits.step (hids : Ids s) (h : Waits s) {a : Action EndPoint Thread}
    (htime : isInTime s a = true) (hstep : Calls.step s a = some s')
    : Waits s' := by
  cases a with
  | assign self request =>
    obtain ⟨hopen, hcache, hself, hrest⟩ := step_assign hstep
    intro t req
    rw [hcache]
    by_cases ht : t = self
    . rw [ht, hself]
      intro htrue
      rw [hopen] at htrue
      cases htrue
    . rw [hrest t ht]
      exact h t req
  | startRequest self client now =>
    obtain ⟨-, ⟨id, request, hstart, hself⟩, hrest⟩ := step_startRequest hstep
    obtain ⟨-, hfree, -, hrequests, -⟩ :=
      SyncRequestCache.startRequest_spec hids.requestId_le hstart
    intro t req
    rw [hrequests]
    by_cases ht : t = self
    . rw [ht, hself, Function.update_self]
      intro _ hreq
      cases hreq
      rfl
    . rw [hrest t ht]
      intro hopen
      have hne : (s.callers t).id ≠ id := by
        intro heq
        have hclient := hids.clientOf_id t hopen
        rw [clientOf, heq, hfree] at hclient
        cases hclient
      rw [Function.update_of_ne hne]
      exact h t req hopen
  | waitResponse self =>
    obtain ⟨hphase, hcache, hself, hrest⟩ := step_waitResponse hstep
    obtain ⟨req, hreq, hwait⟩ := hids.waitResponse_cache hphase
    have hopen : (s.callers self).phase.isOpen = true := by
      rw [hphase]
      rfl
    rw [hwait] at hcache
    intro t req'
    rw [hcache, SyncRequestCache.insert_requests]
    by_cases ht : t = self
    . rw [ht, hself, Function.update_self]
      intro _ hreq'
      cases hreq'
      left
      have hready := h self req hopen hreq
      rw [hphase] at hready
      replace hready : req.ready = .new := hready
      simp only [isInTime, hreq, Bool.not_eq_true'] at htime
      refine ⟨?_, htime⟩
      simp only [hready]
      rfl
    . rw [hrest t ht]
      intro htopen
      rw [Function.update_of_ne (fun heq => ht (hids.distinct t self htopen hopen heq))]
      exact h t req' htopen
  | wakeUp self =>
    obtain ⟨hphase, ⟨req, hreq, hself⟩, hcache, hrest⟩ := step_wakeUp hstep
    have hopen : (s.callers self).phase.isOpen = true := by
      rw [hphase]
      rfl
    rw [hids.request_id self hopen] at hcache
    intro t req'
    rw [hcache, SyncRequestCache.erase_requests]
    by_cases ht : t = self
    . rw [ht, hself]
      intro htrue
      cases htrue
    . rw [hrest t ht]
      intro htopen
      rw [Function.update_of_ne (fun heq => ht (hids.distinct t self htopen hopen heq))]
      exact h t req' htopen
  | handleResponse response | doTimeouts now timeout | shutdownClient client | shutdown =>
    have hplace := step_inPlace rfl hstep
    intro t req' hopen hreq'
    rw [hplace.callers] at hopen hreq' ⊢
    obtain ⟨req, hreq, hchange⟩ := hplace.record hreq'
    exact (h t req hopen hreq).change hchange

theorem inv_step (actions : List (Action EndPoint Thread)) (s : Calls EndPoint Thread)
    (a : Action EndPoint Thread) (s' : Calls EndPoint Thread)
    (h : Ids s ∧ Waits s ∧ Stored (Received actions) s)
    (hok : (idFits s a && isInTime s a) = true) (hstep : step s a = some s')
    : Ids s' ∧ Waits s' ∧ Stored (Received (actions ++ [a])) s' := by
  obtain ⟨hids, hwaits, hstored⟩ := h
  rw [Bool.and_eq_true] at hok
  refine ⟨hids.step hok.1 hstep, hwaits.step hids hok.2 hstep, ?_⟩
  apply Stored.step hids _ _ hstep
  . apply hstored.mono
    intro id client response hreceived
    apply hreceived.append
  . intro response req ha hprovided _ _
    refine ⟨rfl, hprovided, ?_⟩
    rw [ha]
    exact List.mem_append_right _ (List.mem_singleton_self _)

/--
In every run in which the flags of each request fit its new ID, and in which no response is there
before the thread waits for it.
-/
theorem run_not_stranded (actions : List (Action EndPoint Thread)) (s : Calls EndPoint Thread)
    (hok : Runs.all step (fun s a => idFits s a && isInTime s a) new actions = true)
    (hrun : run actions = some s)
    : (∀ t, ¬IsStranded s t)
        ∧ ∀ t response, (s.callers t).phase = .returned response → response.isValid = true →
            response.id = (s.callers t).id ∧ response.flags &&& FLAG_RESPONSE_PROVIDED ≠ 0
              ∧ .handleResponse response ∈ actions := by
  obtain ⟨-, hwaits, hstored⟩ :=
    Runs.run_history_of_all inv_step ⟨ids_new, waits_new, stored_new (Received [])⟩ hok hrun
  exact ⟨hwaits.not_isStranded, hstored.returned⟩

-- Two threads wait, one gets its response, the other one is stopped
def answeredRun : List (Action Nat Bool) :=
  [.assign false { tag := 1, flags := 0, data := [] }, .startRequest false 7 0,
    .assign true { tag := 1, flags := 0, data := [] }, .startRequest true 7 0, .waitResponse true,
    .waitResponse false, .handleResponse { tag := 2, flags := 0x40010000, data := [5] },
    .shutdown, .wakeUp false, .wakeUp true]

theorem run_not_stranded_answered
    : ∃ s, run answeredRun = some s
        ∧ ((s.callers false).phase, (s.callers true).phase)
            = (.returned .none, .returned { tag := 2, flags := 0x40010000, data := [5] })
        ∧ ∀ t, ¬IsStranded s t := by
  have hmap : (run answeredRun).map (fun s => ((s.callers false).phase, (s.callers true).phase))
      = some (.returned .none, .returned { tag := 2, flags := 0x40010000, data := [5] }) := by decide
  obtain ⟨s, hrun, hphases⟩ := Option.map_eq_some_iff.mp hmap
  exact ⟨s, hrun, hphases, (run_not_stranded answeredRun s (by decide +kernel) hrun).1⟩

-- The response is there before the thread waits
def earlyRun : List (Action Nat Unit) :=
  [.assign () { tag := 1, flags := 0, data := [] }, .startRequest () 7 0,
    .handleResponse { tag := 2, flags := 0x40000000, data := [5] }, .waitResponse ()]

theorem run_stranded_early
    : ¬(∀ (actions : List (Action Nat Unit)) (s : Calls Nat Unit),
        run actions = some s → ∀ t, ¬IsStranded s t) := by
  intro h
  have hmap : (run earlyRun).map (fun s => ((s.callers ()).phase,
      (s.cache.requests (s.callers ()).id).map fun req => (req.response.isValid, req.ready.woken)))
      = some (.waiting, some (true, [])) := by decide
  obtain ⟨s, hrun, hwaiting⟩ := Option.map_eq_some_iff.mp hmap
  rw [Prod.mk.injEq] at hwaiting
  obtain ⟨req, hreq, hresponse⟩ := Option.map_eq_some_iff.mp hwaiting.2
  rw [Prod.mk.injEq] at hresponse
  apply h _ s hrun ()
  refine ⟨hwaiting.1, req, hreq, hresponse.1, ?_⟩
  rw [hresponse.2]
  exact List.not_mem_nil

end Steps

end Calls

end Tube
end ObTools
