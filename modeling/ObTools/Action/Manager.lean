import ObTools.Lib.Runs

/-!
This module contains the model of the action manager: the threads that queue actions, the dispatcher that takes them off
the queue, and the threads that it gives them to, one for each handler. What is done while a mutex is held is one step,
except for the mutex of the handlers, which the dispatcher holds as long as it gives an action out.

It then contains the proof of what is handled, whatever the order of the steps: the actions that were queued, one after
the other, each by all of its handlers and once by each. No step has to be waited for that never comes.
-/

namespace ObTools
namespace Action

section Model

variable (A H K : Type)

/-
Where a task is in `run`: before it waits for its condition, before it looks for something to do, in a handler, and
before it signals that it has finished.
-/
inductive TaskPc where
  | wait
  | check
  | handle (action : A) (handler : H)
  | signal (quit : Bool)
  | exited

structure ActionTask where
  condition : Bool
  action : Option A
  handler : Option H
  pc : TaskPc A H

/-
Where the dispatcher is: in the loop of `run`, in `next_action` with an action, and in the loop that shuts the threads
down. The handlers that are left are given.
-/
inductive DispatcherPc where
  | loop
  | wait
  | lookup (action : A)
  | dispatch (action : A) (i : Nat) (handlers : List H)
  | signal (action : A) (i : Nat) (handlers : List H)
  | await (i active : Nat)
  | stop (i : Nat)
  | stopSignal (i : Nat)
  | stopWait (i : Nat)
  | stopped

structure Manager where
  handlers : K → List H
  -- The null pointer is `none`
  actions : List (Option A)
  queueLimit : Int32
  running : Bool
  threads : List (ActionTask A H)
  dispatcher : DispatcherPc A H
  -- Calls of `queue` that have applied the limit, and whether it was
  sending : List (Option A × Bool)
  -- What has been sent, and what of it has been taken by the dispatcher or popped off by the limit
  sent : List (Option A)
  popped : List (Option A × Bool)
  -- What the actions were given to that have been looked up, and the calls of handlers that have returned
  dispatched : List (A × List H)
  handled : List (H × A)

inductive Event where
  | addHandler (type : K) (handler : H)
  | setQueueLimit (n : Int32)
  -- A call of `queue`, and the second half of one
  | queue (action : Option A)
  | send (i : Nat)
  | shutdown
  | dispatcher
  | task (i : Nat)

end Model

variable {A H K : Type}

namespace ActionTask

def new : ActionTask A H where
  condition := false
  action := none
  handler := none
  pc := .wait

-- With the call of a handler that has returned
def step (t : ActionTask A H) : Option (ActionTask A H × List (H × A)) :=
  match t.pc with
  | .wait => if t.condition then some ({ t with pc := .check }, []) else none
  | .check =>
    match t.handler, t.action with
    | some h, some a => some ({ t with pc := .handle a h }, [])
    | _, _ => some ({ t with pc := .signal true }, [])
  | .handle a h => some ({ t with pc := .signal false }, [(h, a)])
  | .signal quit => some ({ t with condition := false, pc := if quit then .exited else .wait }, [])
  | .exited => none

end ActionTask

namespace Manager

def new : Manager A H K where
  handlers := fun _ => []
  actions := []
  queueLimit := 0
  running := true
  threads := []
  dispatcher := .loop
  sending := []
  sent := []
  popped := []
  dispatched := []
  handled := []

-- The mutex of the handlers
def locked (m : Manager A H K) : Bool :=
  match m.dispatcher with
  | .dispatch _ _ _ => true
  | .signal _ _ _ => true
  | _ => false

def addHandler [DecidableEq K] (m : Manager A H K) (type : K) (handler : H) : Manager A H K :=
  { m with handlers := fun k => if k = type then m.handlers k ++ [handler] else m.handlers k }

-- Pop off the oldest if there are more than a number
def limit (m : Manager A H K) (n : Nat) : Manager A H K :=
  { m with
    actions := m.actions.drop (m.actions.length - n),
    popped := m.popped ++ (m.actions.take (m.actions.length - n)).map fun a => (a, false) }

-- The limit is an `int`, and becomes a `size_t`
def queue (m : Manager A H K) (action : Option A) : Manager A H K :=
  if m.queueLimit ≠ 0 then
    let n := ((m.queueLimit - 1).toInt % 2 ^ 64).toNat
    { m.limit n with sending := m.sending ++ [(action, decide (n < m.actions.length))] }
  else
    { m with sending := m.sending ++ [(action, false)] }

def send (m : Manager A H K) (action : Option A) (i : Nat) : Manager A H K :=
  { m with actions := m.actions ++ [action], sent := m.sent ++ [action], sending := m.sending.eraseIdx i }

def setThread (m : Manager A H K) (i : Nat) (t : ActionTask A H) : Manager A H K :=
  { m with threads := m.threads.set i t }

variable (getType : A → K)

def stepDispatcher (m : Manager A H K) : Option (Manager A H K) :=
  match m.dispatcher with
  | .loop => some { m with dispatcher := if m.running then .wait else .stop 0 }
  | .wait =>
    match m.actions with
    | [] => none
    | none :: actions =>
      some { m with actions := actions, popped := m.popped ++ [(none, true)], dispatcher := .stop 0 }
    | some a :: actions =>
      some { m with actions := actions, popped := m.popped ++ [(some a, true)], dispatcher := .lookup a }
  | .lookup a =>
    some
      { m with
        dispatcher := .dispatch a 0 (m.handlers (getType a)),
        dispatched := m.dispatched ++ [(a, m.handlers (getType a))] }
  | .dispatch _ i [] => some { m with dispatcher := .await 0 i }
  | .dispatch a i (h :: handlers) =>
    match m.threads[i]? with
    | none => some { m with threads := m.threads ++ [.new] }
    | some t =>
      some
        { m.setThread i { t with action := some a, handler := some h } with dispatcher := .signal a i handlers }
  | .signal a i handlers =>
    m.threads[i]?.map fun t =>
      { m.setThread i { t with condition := true } with dispatcher := .dispatch a (i + 1) handlers }
  | .await i active =>
    if i = active then
      some { m with dispatcher := .loop }
    else
      match m.threads[i]? with
      | none => none
      | some t => if t.condition then none else some { m with dispatcher := .await (i + 1) active }
  | .stop i =>
    match m.threads[i]? with
    | none => some { m with dispatcher := .stopped }
    | some t =>
      some { m.setThread i { t with action := none, handler := none } with dispatcher := .stopSignal i }
  | .stopSignal i =>
    m.threads[i]?.map fun t => { m.setThread i { t with condition := true } with dispatcher := .stopWait i }
  | .stopWait i =>
    match m.threads[i]? with
    | none => none
    | some t => if t.condition then none else some { m with dispatcher := .stop (i + 1) }
  | .stopped => none

def stepTask (m : Manager A H K) (i : Nat) : Option (Manager A H K) :=
  m.threads[i]?.bind fun t => t.step.map fun r => { m.setThread i r.1 with handled := m.handled ++ r.2 }

def step [DecidableEq K] (m : Manager A H K) : Event A H K → Option (Manager A H K)
  | .addHandler type handler => if m.locked then none else some (m.addHandler type handler)
  | .setQueueLimit n => some { m with queueLimit := n }
  | .queue action => some (m.queue action)
  | .send i => m.sending[i]?.map fun s => m.send s.1 i
  | .shutdown => some { m with running := false }
  | .dispatcher => m.stepDispatcher getType
  | .task i => m.stepTask i

end Manager

namespace ActionTask

-- What a task has been given and not done yet
def pending (t : ActionTask A H) : List (H × A) :=
  match t.pc with
  | .wait =>
    if t.condition then
      match t.handler, t.action with
      | some h, some a => [(h, a)]
      | _, _ => []
    else
      []
  | .check =>
    match t.handler, t.action with
    | some h, some a => [(h, a)]
    | _, _ => []
  | .handle a h => [(h, a)]
  | _ => []

def Idle (t : ActionTask A H) : Prop := t.condition = false ∧ t.pc = .wait

-- It was given something to do
def Given (t : ActionTask A H) : Prop := ∃ h a, t.handler = some h ∧ t.action = some a

def Working (t : ActionTask A H) : Prop :=
  match t.pc with
  | .wait => t.condition = true → t.Given
  | .check => t.condition = true ∧ t.Given
  | .handle _ _ => t.condition = true
  | .signal quit => t.condition = true ∧ quit = false
  | .exited => False

-- It was given nothing, and is to exit or has done so
def Quitting (t : ActionTask A H) : Prop :=
  match t.pc with
  | .wait => t.condition = true ∧ t.handler = none ∧ t.action = none
  | .check => t.condition = true ∧ t.handler = none ∧ t.action = none
  | .handle _ _ => False
  | .signal quit => t.condition = true ∧ quit = true
  | .exited => t.condition = false

variable {t t' : ActionTask A H} {done : List (H × A)}

theorem Idle.working (h : t.Idle) : t.Working := by
  unfold Working
  rw [h.2]
  intro hcondition
  rw [h.1] at hcondition
  cases hcondition

theorem Idle.pending (h : t.Idle) : t.pending = [] := by
  unfold ActionTask.pending
  rw [h.2]
  dsimp only
  rw [h.1, if_neg Bool.false_ne_true]

theorem Idle.step (h : t.Idle) : t.step = none := by
  unfold ActionTask.step
  rw [h.2]
  dsimp only
  rw [h.1, if_neg Bool.false_ne_true]

/--
A step of a task that works goes on with what it has been given, or has done it.
-/
theorem Working.step (h : t.Working) (hstep : t.step = some (t', done))
    : t'.Working ∧ t.pending = done ++ t'.pending := by
  obtain ⟨condition, action, handler, pc⟩ := t
  unfold ActionTask.step at hstep
  unfold Working at h
  dsimp only at h hstep
  cases pc with
  | wait =>
    cases condition with
    | false => cases hstep
    | true =>
      obtain ⟨hd, a, rfl, rfl⟩ := h rfl
      cases hstep
      exact ⟨⟨rfl, hd, a, rfl, rfl⟩, rfl⟩
  | check =>
    obtain ⟨hcondition, hd, a, rfl, rfl⟩ := h
    cases hstep
    exact ⟨hcondition, rfl⟩
  | handle a hd =>
    cases hstep
    exact ⟨⟨h, rfl⟩, rfl⟩
  | signal quit =>
    obtain ⟨hcondition, rfl⟩ := h
    cases hstep
    exact ⟨nofun, rfl⟩
  | exited => exact h.elim

theorem Working.exists_step (h : t.Working) (hcondition : t.condition = true) : t.step ≠ none := by
  obtain ⟨condition, action, handler, pc⟩ := t
  obtain rfl : condition = true := hcondition
  unfold ActionTask.step
  cases pc with
  | wait => exact nofun
  | check =>
    obtain ⟨-, hd, a, rfl, rfl⟩ := h
    exact nofun
  | handle a hd => exact nofun
  | signal quit => exact nofun
  | exited => exact h.elim

-- A task that works and has reset its condition is done
theorem Working.idle (h : t.Working) (hcondition : t.condition = false) : t.Idle := by
  obtain ⟨condition, action, handler, pc⟩ := t
  obtain rfl : condition = false := hcondition
  unfold Working at h
  cases pc with
  | wait => exact ⟨rfl, rfl⟩
  | check => exact absurd h.1 Bool.false_ne_true
  | handle a hd => exact absurd h Bool.false_ne_true
  | signal quit => exact absurd h.1 Bool.false_ne_true
  | exited => exact h.elim

theorem Quitting.step (h : t.Quitting) (hstep : t.step = some (t', done)) : t'.Quitting ∧ done = [] := by
  obtain ⟨condition, action, handler, pc⟩ := t
  unfold ActionTask.step at hstep
  unfold Quitting at h
  dsimp only at h hstep
  cases pc with
  | wait =>
    obtain ⟨rfl, rfl, rfl⟩ := h
    cases hstep
    exact ⟨⟨rfl, rfl, rfl⟩, rfl⟩
  | check =>
    obtain ⟨rfl, rfl, rfl⟩ := h
    cases hstep
    exact ⟨⟨rfl, rfl⟩, rfl⟩
  | handle a hd => exact h.elim
  | signal quit =>
    obtain ⟨rfl, rfl⟩ := h
    cases hstep
    exact ⟨rfl, rfl⟩
  | exited => cases hstep

theorem Quitting.step_of_reset (h : t.Quitting) (hcondition : t.condition = false) : t.step = none := by
  obtain ⟨condition, action, handler, pc⟩ := t
  obtain rfl : condition = false := hcondition
  unfold ActionTask.step
  cases pc with
  | wait => rfl
  | check => exact absurd h.1 Bool.false_ne_true
  | handle a hd => exact h.elim
  | signal quit => exact absurd h.1 Bool.false_ne_true
  | exited => rfl

theorem Quitting.exists_step (h : t.Quitting) (hcondition : t.condition = true) : t.step ≠ none := by
  obtain ⟨condition, action, handler, pc⟩ := t
  obtain rfl : condition = true := hcondition
  unfold ActionTask.step
  cases pc with
  | wait => exact nofun
  | check =>
    obtain ⟨-, rfl, rfl⟩ := h
    exact nofun
  | handle a hd => exact h.elim
  | signal quit => exact nofun
  | exited => exact absurd h.symm Bool.false_ne_true

end ActionTask

/-
The actions that were given out, with the calls of the handlers that have returned: those of an action are in any order,
and behind those of the actions before it.
-/
inductive Batches : List (A × List H) → List (H × A) → Prop
  | nil : Batches [] []
  | snoc {dispatched : List (A × List H)} {handled part : List (H × A)} {a : A} {handlers : List H}
      (before : Batches dispatched handled) (perm : part.Perm (handlers.map (·, a)))
    : Batches (dispatched ++ [(a, handlers)]) (handled ++ part)

namespace Manager

variable {m m' : Manager A H K} {a : A} {given rest : List H} {i k n : Nat} {t t' : ActionTask A H}

def Threads (m : Manager A H K) (P : Nat → ActionTask A H → Prop) : Prop := ∀ k t, m.threads[k]? = some t → P k t

structure Quiet (m : Manager A H K) : Prop where
  idle : m.Threads fun _ t => t.Idle
  batches : Batches m.dispatched m.handled

-- An action is handled that was given to some of its handlers
structure Busy (m : Manager A H K) (a : A) (given rest : List H) : Prop where
  working : m.Threads fun _ t => t.Working
  length_le : given.length ≤ m.threads.length
  batches : ∃ before old part, m.dispatched = before ++ [(a, given ++ rest)] ∧ m.handled = old ++ part
    ∧ Batches before old ∧ (part ++ m.threads.flatMap ActionTask.pending).Perm (given.map (·, a))

-- The threads are shut down, one after the other
structure Stopping (m : Manager A H K) (i n : Nat) : Prop where
  exited : m.Threads fun k t => k < i → t.Quitting ∧ t.condition = false
  idle : m.Threads fun k t => n ≤ k → t.Idle
  batches : Batches m.dispatched m.handled

-- What holds where the dispatcher is
def At (m : Manager A H K) : DispatcherPc A H → Prop
  | .loop => m.Quiet
  | .wait => m.Quiet
  | .lookup _ => m.Quiet
  | .dispatch a i rest => ∃ given, given.length = i ∧ m.Busy a given rest ∧ m.Threads fun k t => i ≤ k → t.Idle
  | .signal a i rest => ∃ given h, given.length = i ∧ m.Busy a given (h :: rest)
      ∧ (m.Threads fun k t => i ≤ k → t.Idle) ∧ i < m.threads.length
      ∧ m.Threads fun k t => k = i → t.handler = some h ∧ t.action = some a
  | .await i active => ∃ a given, given.length = active ∧ m.Busy a given [] ∧ i ≤ active
      ∧ m.Threads fun k t => k < i ∨ active ≤ k → t.Idle
  | .stop i => m.Stopping i i
  | .stopSignal i => m.Stopping i i ∧ i < m.threads.length
      ∧ m.Threads fun k t => k = i → t.handler = none ∧ t.action = none
  | .stopWait i => m.Stopping i (i + 1) ∧ i < m.threads.length ∧ m.Threads fun k t => k = i → t.Quitting
  | .stopped => m.Stopping m.threads.length m.threads.length

def Inv (m : Manager A H K) : Prop := m.At m.dispatcher

theorem Threads.set {P : Nat → ActionTask A H → Prop} (h : m.Threads P) (hself : P i t)
    : (m.setThread i t).Threads P := by
  intro k u hu
  change (m.threads.set i t)[k]? = some u at hu
  by_cases hk : i = k
  . subst hk
    rw [List.getElem?_set_self'] at hu
    cases hget : m.threads[i]? with
    | none =>
      rw [hget] at hu
      cases hu
    | some v =>
      rw [hget] at hu
      cases hu
      exact hself
  . rw [List.getElem?_set_ne hk] at hu
    exact h k u hu

theorem threads_setThread (m : Manager A H K) {P : ActionTask A H → Prop} (h : P t)
    : (m.setThread i t).Threads fun k u => k = i → P u := by
  rintro k u hu rfl
  change (m.threads.set k t)[k]? = some u at hu
  rw [List.getElem?_set_self'] at hu
  obtain ⟨v, -, rfl⟩ := Option.map_eq_some_iff.mp hu
  exact h

-- An element of a list that is set, with what it had less and what it has more
theorem perm_flatMap_set {α β : Type} {f : α → List β} {l : List α} {x y : α} {u v : List β}
    (hget : l[i]? = some x) (hf : (u ++ f y).Perm (v ++ f x))
    : (u ++ (l.set i y).flatMap f).Perm (v ++ l.flatMap f) := by
  induction l generalizing i with
  | nil => cases hget
  | cons z l ih =>
    cases i with
    | zero =>
      cases hget
      rw [List.set_cons_zero, List.flatMap_cons, List.flatMap_cons, ← List.append_assoc, ← List.append_assoc]
      exact hf.append_right _
    | succ i =>
      rw [List.set_cons_succ, List.flatMap_cons, List.flatMap_cons]
      refine (List.perm_append_comm_assoc _ _ _).trans ?_
      exact ((ih hget).append_left _).trans (List.perm_append_comm_assoc _ _ _)

/--
What a task does in between keeps what has been given out, and the threads that are idle as they are.
-/
theorem stepTask_spec (hstep : m.stepTask i = some m')
    : ∃ t t' done, m.threads[i]? = some t ∧ t.step = some (t', done)
        ∧ m' = { m.setThread i t' with handled := m.handled ++ done } := by
  obtain ⟨t, ht, hstep⟩ := Option.bind_eq_some_iff.mp hstep
  obtain ⟨⟨t', done⟩, hr, rfl⟩ := Option.map_eq_some_iff.mp hstep
  exact ⟨t, t', done, ht, hr, rfl⟩

theorem Busy.task {done : List (H × A)} (h : m.Busy a given rest) (ht : m.threads[i]? = some t)
    (hstep : t.step = some (t', done))
    : Busy { m.setThread i t' with handled := m.handled ++ done } a given rest where
  working := h.working.set ((h.working i t ht).step hstep).1
  length_le := by
    change given.length ≤ (m.threads.set i t').length
    rw [List.length_set]
    exact h.length_le
  batches := by
    obtain ⟨before, old, part, hdispatched, hhandled, hbefore, hperm⟩ := h.batches
    refine ⟨before, old, part ++ done, hdispatched, ?_, hbefore, ?_⟩
    . change m.handled ++ done = _
      rw [hhandled, List.append_assoc]
    . change (part ++ done ++ (m.threads.set i t').flatMap ActionTask.pending).Perm _
      rw [List.append_assoc]
      have hset := perm_flatMap_set (f := ActionTask.pending) (y := t') (u := done) (v := []) ht
        (.of_eq ((h.working i t ht).step hstep).2.symm)
      exact (hset.append_left part).trans hperm

-- A thread that is idle takes no step, so that another one has been set
theorem Threads.task {P : Nat → Prop} {done : List (H × A)} (h : m.Threads fun k t => P k → t.Idle)
    (ht : m.threads[i]? = some t) (hstep : t.step = some (t', done))
    : Threads { m.setThread i t' with handled := m.handled ++ done } fun k t => P k → t.Idle :=
  Threads.set h fun hi => absurd ((h i t ht hi).step.symm.trans hstep) nofun

theorem Stopping.task {done : List (H × A)} (h : m.Stopping i n) (hquit : i ≤ k → k < n → t.Quitting)
    (ht : m.threads[k]? = some t) (hstep : t.step = some (t', done))
    : Stopping { m.setThread k t' with handled := m.handled ++ done } i n ∧ i ≤ k ∧ k < n ∧ t'.Quitting := by
  have hle : i ≤ k := by
    by_contra hlt
    obtain ⟨hquitting, hcondition⟩ := h.exited k t ht (by omega)
    rw [hquitting.step_of_reset hcondition] at hstep
    cases hstep
  have hlt : k < n := by
    by_contra hge
    rw [(h.idle k t ht (by omega)).step] at hstep
    cases hstep
  obtain ⟨ht', rfl⟩ := (hquit hle hlt).step hstep
  refine ⟨⟨?_, ?_, ?_⟩, hle, hlt, ht'⟩
  . exact h.exited.set (fun hk => absurd hk (by omega))
  . exact h.idle.set (fun hk => absurd hk (by omega))
  . change Batches m.dispatched (m.handled ++ [])
    rw [List.append_nil]
    exact h.batches

theorem length_setThread (m : Manager A H K) (i : Nat) (t : ActionTask A H)
    : (m.setThread i t).threads.length = m.threads.length :=
  List.length_set

theorem inv_stepTask (h : m.Inv) (hstep : m.stepTask i = some m') : m'.Inv := by
  obtain ⟨t, t', done, ht, hr, rfl⟩ := stepTask_spec hstep
  have hquiet (hquiet : m.Quiet) : False := by
    rw [(hquiet.idle i t ht).step] at hr
    cases hr
  have hlength {j : Nat} (hj : j < m.threads.length) : j < (m.setThread i t').threads.length := by
    rw [length_setThread]
    exact hj
  unfold Inv at h
  change At _ m.dispatcher
  generalize m.dispatcher = pc at h ⊢
  cases pc with
  | loop => exact (hquiet h).elim
  | wait => exact (hquiet h).elim
  | lookup a => exact (hquiet h).elim
  | dispatch a j rest =>
    obtain ⟨given, hgiven, hbusy, hidle⟩ := h
    exact ⟨given, hgiven, hbusy.task ht hr, hidle.task ht hr⟩
  | signal a j rest =>
    obtain ⟨given, hd, hgiven, hbusy, hidle, hlt, hstored⟩ := h
    refine ⟨given, hd, hgiven, hbusy.task ht hr, hidle.task ht hr, hlength hlt, Threads.set hstored ?_⟩
    rintro rfl
    rw [(hidle i t ht (Nat.le_refl i)).step] at hr
    cases hr
  | await j active =>
    obtain ⟨a, given, hgiven, hbusy, hle, hidle⟩ := h
    exact ⟨a, given, hgiven, hbusy.task ht hr, hle, hidle.task ht hr⟩
  | stop j =>
    obtain ⟨-, hle, hlt, -⟩ := h.task (fun hle hlt => absurd hlt (by omega)) ht hr
    omega
  | stopSignal j =>
    obtain ⟨-, hle, hlt, -⟩ := h.1.task (fun hle hlt => absurd hlt (by omega)) ht hr
    omega
  | stopWait j =>
    obtain ⟨hstopping, hlt, hquitting⟩ := h
    obtain ⟨hstopping, -, -, ht'⟩ := hstopping.task (fun hle hlt => hquitting i t ht (by omega)) ht hr
    exact ⟨hstopping, hlength hlt, Threads.set hquitting fun _ => ht'⟩
  | stopped =>
    obtain ⟨-, hle, hlt, -⟩ := h.task (fun hle hlt => absurd hlt (by omega)) ht hr
    omega

/-
Steps of the dispatcher.
-/

theorem flatMap_pending_eq_nil {l : List (ActionTask A H)} (h : ∀ t ∈ l, t.Idle)
    : l.flatMap ActionTask.pending = [] := by
  rw [List.flatMap_eq_nil_iff]
  exact fun t ht => (h t ht).pending

-- With an action that has been looked up, nothing is given out yet
theorem Quiet.busy (h : m.Quiet) (pc : DispatcherPc A H) (a : A) (handlers : List H)
    : Busy { m with dispatcher := pc, dispatched := m.dispatched ++ [(a, handlers)] } a [] handlers where
  working := fun k t ht => (h.idle k t ht).working
  length_le := Nat.zero_le _
  batches := by
    refine ⟨m.dispatched, m.handled, [], rfl, (List.append_nil _).symm, h.batches, ?_⟩
    change ([] ++ m.threads.flatMap ActionTask.pending).Perm []
    rw [flatMap_pending_eq_nil]
    . exact .nil
    . intro t ht
      obtain ⟨k, hk⟩ := List.getElem?_of_mem ht
      exact h.idle k t hk

-- A thread that is given something, but not told to do it, stays idle
theorem Busy.store (h : m.Busy a given rest) (ht : m.threads[i]? = some t) (hidle : t.Idle)
    (t' : ActionTask A H) (ht' : t'.Idle)
    : (m.setThread i t').Busy a given rest where
  working := h.working.set ht'.working
  length_le := by
    change given.length ≤ (m.threads.set i t').length
    rw [List.length_set]
    exact h.length_le
  batches := by
    obtain ⟨before, old, part, hdispatched, hhandled, hbefore, hperm⟩ := h.batches
    refine ⟨before, old, part, hdispatched, hhandled, hbefore, ?_⟩
    have hset := perm_flatMap_set (f := ActionTask.pending) (y := t') (u := []) (v := []) ht
      (.of_eq (ht'.pending.trans hidle.pending.symm))
    exact (hset.append_left part).trans hperm

theorem Busy.signal {handler : H} (h : m.Busy a given (handler :: rest)) (ht : m.threads[given.length]? = some t)
    (hidle : t.Idle) (hhandler : t.handler = some handler) (haction : t.action = some a)
    : (m.setThread given.length { t with condition := true }).Busy a (given ++ [handler]) rest where
  working := by
    refine h.working.set ?_
    unfold ActionTask.Working
    rw [hidle.2]
    exact fun _ => ⟨handler, a, hhandler, haction⟩
  length_le := by
    change _ ≤ (m.threads.set given.length _).length
    rw [List.length_set, List.length_append]
    obtain ⟨hlt, -⟩ := List.getElem?_eq_some_iff.mp ht
    exact hlt
  batches := by
    obtain ⟨before, old, part, hdispatched, hhandled, hbefore, hperm⟩ := h.batches
    refine ⟨before, old, part, ?_, hhandled, hbefore, ?_⟩
    . rw [List.append_assoc]
      exact hdispatched
    . have hpending : ActionTask.pending { t with condition := true } = [(handler, a)] := by
        unfold ActionTask.pending
        rw [hidle.2]
        dsimp only
        rw [if_pos rfl, hhandler, haction]
      have hset := perm_flatMap_set (f := ActionTask.pending) (y := { t with condition := true }) (u := [])
        (v := [(handler, a)]) ht (.of_eq (by rw [hpending, hidle.pending]; rfl))
      rw [List.map_append]
      refine (hset.append_left part).trans ?_
      refine (List.perm_append_comm_assoc _ _ _).trans ?_
      exact (hperm.append_left _).trans List.perm_append_comm

-- All that were given the action have handled it
theorem Busy.quiet (h : m.Busy a given []) (hidle : m.Threads fun _ t => t.Idle) : m.Quiet where
  idle := hidle
  batches := by
    obtain ⟨before, old, part, hdispatched, hhandled, hbefore, hperm⟩ := h.batches
    rw [flatMap_pending_eq_nil, List.append_nil] at hperm
    . rw [hdispatched, hhandled, List.append_nil]
      exact .snoc hbefore hperm
    . intro t ht
      obtain ⟨k, hk⟩ := List.getElem?_of_mem ht
      exact hidle k t hk

theorem Quiet.stopping (h : m.Quiet) : m.Stopping 0 0 where
  exited := fun _ _ _ hk => absurd hk (Nat.not_lt_zero _)
  idle := fun k t ht _ => h.idle k t ht
  batches := h.batches

theorem idle_new : (ActionTask.new : ActionTask A H).Idle := ⟨rfl, rfl⟩

theorem Threads.append {P : Nat → ActionTask A H → Prop} (h : m.Threads P) (hnew : P m.threads.length t)
    : Threads { m with threads := m.threads ++ [t] } P := by
  intro k u hu
  obtain hlt | hge := Nat.lt_or_ge k m.threads.length
  . exact h k u ((List.getElem?_append_left hlt).symm.trans hu)
  . obtain ⟨hlt, hu⟩ := List.getElem?_eq_some_iff.mp hu
    rw [List.length_append, List.length_singleton] at hlt
    obtain rfl : k = m.threads.length := by omega
    rw [List.getElem_concat_length rfl] at hu
    exact hu ▸ hnew

-- A thread that is made has nothing to do
theorem Busy.append (h : m.Busy a given rest) : Busy { m with threads := m.threads ++ [.new] } a given rest where
  working := h.working.append idle_new.working
  length_le := by
    change _ ≤ (m.threads ++ [ActionTask.new]).length
    rw [List.length_append]
    exact Nat.le_add_right_of_le h.length_le
  batches := by
    obtain ⟨before, old, part, hdispatched, hhandled, hbefore, hperm⟩ := h.batches
    refine ⟨before, old, part, hdispatched, hhandled, hbefore, ?_⟩
    change (part ++ (m.threads ++ [ActionTask.new]).flatMap ActionTask.pending).Perm _
    rw [List.flatMap_append, List.flatMap_singleton, idle_new.pending, List.append_nil]
    exact hperm

/-
The steps of the dispatcher that have to do with a thread.
-/

theorem At.give {handler : H} (h : m.At (.dispatch a i (handler :: rest))) (ht : m.threads[i]? = some t)
    : Inv { m.setThread i { t with action := some a, handler := some handler } with dispatcher := .signal a i rest } := by
  obtain ⟨given, rfl, hbusy, hidle⟩ := h
  have htIdle : t.Idle := hidle _ t ht (Nat.le_refl _)
  have hstored := hbusy.store ht htIdle { t with action := some a, handler := some handler } htIdle
  refine ⟨given, handler, rfl, ⟨hstored.working, hstored.length_le, hstored.batches⟩, ?_, ?_, ?_⟩
  . exact Threads.set hidle fun _ => htIdle
  . rw [length_setThread]
    obtain ⟨hlt, -⟩ := List.getElem?_eq_some_iff.mp ht
    exact hlt
  . exact threads_setThread m ⟨rfl, rfl⟩

theorem At.signal (h : m.At (.signal a i rest)) (ht : m.threads[i]? = some t)
    : Inv { m.setThread i { t with condition := true } with dispatcher := .dispatch a (i + 1) rest } := by
  obtain ⟨given, handler, rfl, hbusy, hidle, -, hstored⟩ := h
  obtain ⟨hhandler, haction⟩ := hstored _ t ht rfl
  have hsignalled := hbusy.signal ht (hidle _ t ht (Nat.le_refl _)) hhandler haction
  refine ⟨given ++ [handler], List.length_append, ⟨hsignalled.working, hsignalled.length_le, hsignalled.batches⟩, ?_⟩
  exact Threads.set (fun k u hu hle => hidle k u hu (by omega)) fun hle => absurd hle (by omega)

-- The handler of a thread has returned
theorem At.await {active : Nat} (h : m.At (.await i active)) (hne : i ≠ active) (ht : m.threads[i]? = some t)
    (hcondition : t.condition = false)
    : Inv { m with dispatcher := .await (i + 1) active } := by
  obtain ⟨a, given, rfl, hbusy, hle, hidle⟩ := h
  refine ⟨a, given, rfl, ⟨hbusy.working, hbusy.length_le, hbusy.batches⟩, by omega, ?_⟩
  intro k u hu hk
  by_cases hki : k = i
  . subst hki
    cases ht.symm.trans hu
    exact (hbusy.working k t ht).idle hcondition
  . exact hidle k u hu (by omega)

theorem At.stopped (h : m.At (.stop i)) (hnone : m.threads[i]? = none) : Inv { m with dispatcher := .stopped } := by
  have hlength := List.getElem?_eq_none_iff.mp hnone
  refine ⟨?_, ?_, h.batches⟩
  . intro k t ht hk
    exact h.exited k t ht (Nat.lt_of_lt_of_le hk hlength)
  . intro k t ht hk
    obtain ⟨hlt, -⟩ := List.getElem?_eq_some_iff.mp ht
    exact absurd hlt (Nat.not_lt_of_le hk)

theorem At.stop (h : m.At (.stop i)) (ht : m.threads[i]? = some t)
    : Inv { m.setThread i { t with action := none, handler := none } with dispatcher := .stopSignal i } := by
  obtain ⟨hlt, -⟩ := List.getElem?_eq_some_iff.mp ht
  refine ⟨⟨?_, ?_, h.batches⟩, ?_, threads_setThread m ⟨rfl, rfl⟩⟩
  . exact Threads.set h.exited fun hlt => absurd hlt (Nat.lt_irrefl i)
  . exact Threads.set h.idle fun hle => h.idle i t ht hle
  . rw [length_setThread]
    exact hlt

theorem At.stopSignal (h : m.At (.stopSignal i)) (ht : m.threads[i]? = some t)
    : Inv { m.setThread i { t with condition := true } with dispatcher := .stopWait i } := by
  obtain ⟨hstopping, hlt, hstored⟩ := h
  obtain ⟨hhandler, haction⟩ := hstored i t ht rfl
  refine ⟨⟨?_, ?_, hstopping.batches⟩, ?_, threads_setThread m ?_⟩
  . exact Threads.set hstopping.exited fun hlt => absurd hlt (Nat.lt_irrefl i)
  . exact Threads.set (fun k u hu hle => hstopping.idle k u hu (by omega)) fun hle => absurd hle (by omega)
  . rw [length_setThread]
    exact hlt
  . unfold ActionTask.Quitting
    rw [(hstopping.idle i t ht (Nat.le_refl i)).2]
    exact ⟨rfl, hhandler, haction⟩

-- The thread has exited
theorem At.stopWait (h : m.At (.stopWait i)) (ht : m.threads[i]? = some t) (hcondition : t.condition = false)
    : Inv { m with dispatcher := .stop (i + 1) } := by
  obtain ⟨hstopping, -, hquitting⟩ := h
  refine ⟨?_, hstopping.idle, hstopping.batches⟩
  intro k u hu hk
  by_cases hki : k = i
  . subst hki
    cases ht.symm.trans hu
    exact ⟨hquitting k t ht rfl, hcondition⟩
  . exact hstopping.exited k u hu (by omega)

theorem inv_stepDispatcher {getType : A → K} (h : m.Inv) (hstep : m.stepDispatcher getType = some m') : m'.Inv := by
  unfold Inv at h
  unfold stepDispatcher at hstep
  cases hpc : m.dispatcher with
  | loop =>
    rw [hpc] at h hstep
    dsimp only at hstep
    split at hstep
    . cases hstep
      exact ⟨h.idle, h.batches⟩
    . cases hstep
      exact ⟨h.stopping.exited, h.stopping.idle, h.batches⟩
  | wait =>
    rw [hpc] at h hstep
    dsimp only at hstep
    split at hstep
    . cases hstep
    . cases hstep
      exact ⟨h.stopping.exited, h.stopping.idle, h.batches⟩
    . cases hstep
      exact ⟨h.idle, h.batches⟩
  | lookup a =>
    rw [hpc] at h hstep
    cases hstep
    exact ⟨[], rfl, h.busy _ a _, fun k t ht _ => h.idle k t ht⟩
  | dispatch a i rest =>
    rw [hpc] at h hstep
    cases rest with
    | nil =>
      cases hstep
      obtain ⟨given, rfl, hbusy, hidle⟩ := h
      refine ⟨a, given, rfl, ⟨hbusy.working, hbusy.length_le, hbusy.batches⟩, Nat.zero_le _, fun k t ht hk => ?_⟩
      exact hidle k t ht (hk.resolve_left (Nat.not_lt_zero k))
    | cons handler rest =>
      dsimp only at hstep
      split at hstep
      . cases hstep
        obtain ⟨given, rfl, hbusy, hidle⟩ := h
        have happend := hbusy.append
        refine ⟨given, rfl, ⟨happend.working, happend.length_le, happend.batches⟩, ?_⟩
        exact Threads.append hidle fun _ => idle_new
      . rename_i t ht
        cases hstep
        exact h.give ht
  | signal a i rest =>
    rw [hpc] at h hstep
    obtain ⟨t, ht, rfl⟩ := Option.map_eq_some_iff.mp hstep
    exact h.signal ht
  | await i active =>
    rw [hpc] at h hstep
    dsimp only at hstep
    split at hstep
    . rename_i hactive
      cases hstep
      obtain ⟨a, given, rfl, hbusy, hle, hidle⟩ := h
      have hquiet := hbusy.quiet fun k t ht => hidle k t ht (by omega)
      exact ⟨hquiet.idle, hquiet.batches⟩
    . rename_i hne
      split at hstep
      . cases hstep
      . rename_i t ht
        split at hstep
        . cases hstep
        . rename_i hcondition
          cases hstep
          exact h.await hne ht (Bool.eq_false_iff.mpr hcondition)
  | stop i =>
    rw [hpc] at h hstep
    dsimp only at hstep
    split at hstep
    . rename_i hnone
      cases hstep
      exact h.stopped hnone
    . rename_i t ht
      cases hstep
      exact h.stop ht
  | stopSignal i =>
    rw [hpc] at h hstep
    obtain ⟨t, ht, rfl⟩ := Option.map_eq_some_iff.mp hstep
    exact h.stopSignal ht
  | stopWait i =>
    rw [hpc] at h hstep
    dsimp only at hstep
    split at hstep
    . cases hstep
    . rename_i t ht
      split at hstep
      . cases hstep
      . rename_i hcondition
        cases hstep
        exact h.stopWait ht (Bool.eq_false_iff.mpr hcondition)
  | stopped =>
    rw [hpc] at hstep
    cases hstep

/-
What is done by others does not touch the threads.
-/

section Frame

variable (hthreads : m'.threads = m.threads) (hdispatched : m'.dispatched = m.dispatched)
  (hhandled : m'.handled = m.handled)

include hthreads

theorem Threads.frame {P : Nat → ActionTask A H → Prop} (h : m.Threads P) : m'.Threads P := by
  unfold Threads
  rw [hthreads]
  exact h

include hdispatched hhandled

theorem Quiet.frame (h : m.Quiet) : m'.Quiet where
  idle := h.idle.frame hthreads
  batches := by
    rw [hdispatched, hhandled]
    exact h.batches

theorem Busy.frame (h : m.Busy a given rest) : m'.Busy a given rest where
  working := h.working.frame hthreads
  length_le := by
    rw [hthreads]
    exact h.length_le
  batches := by
    rw [hthreads, hdispatched, hhandled]
    exact h.batches

theorem Stopping.frame (h : m.Stopping i n) : m'.Stopping i n where
  exited := h.exited.frame hthreads
  idle := h.idle.frame hthreads
  batches := by
    rw [hdispatched, hhandled]
    exact h.batches

theorem Inv.frame (hdispatcher : m'.dispatcher = m.dispatcher) (h : m.Inv) : m'.Inv := by
  unfold Inv at h ⊢
  rw [hdispatcher]
  cases hpc : m.dispatcher with
  | loop =>
    rw [hpc] at h
    exact Quiet.frame hthreads hdispatched hhandled h
  | wait =>
    rw [hpc] at h
    exact Quiet.frame hthreads hdispatched hhandled h
  | lookup a =>
    rw [hpc] at h
    exact Quiet.frame hthreads hdispatched hhandled h
  | dispatch a i rest =>
    rw [hpc] at h
    obtain ⟨given, hgiven, hbusy, hidle⟩ := h
    exact ⟨given, hgiven, hbusy.frame hthreads hdispatched hhandled, hidle.frame hthreads⟩
  | signal a i rest =>
    rw [hpc] at h
    obtain ⟨given, handler, hgiven, hbusy, hidle, hlt, hstored⟩ := h
    exact ⟨given, handler, hgiven, hbusy.frame hthreads hdispatched hhandled, hidle.frame hthreads,
      hthreads ▸ hlt, hstored.frame hthreads⟩
  | await i active =>
    rw [hpc] at h
    obtain ⟨a, given, hgiven, hbusy, hle, hidle⟩ := h
    exact ⟨a, given, hgiven, hbusy.frame hthreads hdispatched hhandled, hle, hidle.frame hthreads⟩
  | stop i =>
    rw [hpc] at h
    exact Stopping.frame hthreads hdispatched hhandled h
  | stopSignal i =>
    rw [hpc] at h
    obtain ⟨hstopping, hlt, hstored⟩ := h
    exact ⟨hstopping.frame hthreads hdispatched hhandled, hthreads ▸ hlt, hstored.frame hthreads⟩
  | stopWait i =>
    rw [hpc] at h
    obtain ⟨hstopping, hlt, hquitting⟩ := h
    exact ⟨hstopping.frame hthreads hdispatched hhandled, hthreads ▸ hlt, hquitting.frame hthreads⟩
  | stopped =>
    rw [hpc] at h
    unfold At
    rw [hthreads]
    exact Stopping.frame hthreads hdispatched hhandled h

end Frame

theorem queue_frame (m : Manager A H K) (action : Option A)
    : (m.queue action).threads = m.threads ∧ (m.queue action).dispatched = m.dispatched
      ∧ (m.queue action).handled = m.handled ∧ (m.queue action).dispatcher = m.dispatcher := by
  unfold queue
  split <;> exact ⟨rfl, rfl, rfl, rfl⟩

theorem inv_new : (new : Manager A H K).Inv :=
  Quiet.mk (fun _ _ ht => nomatch ht) .nil

/-
What has been sent, and where it has gone.
-/

-- What has been taken, but not been looked up yet
def looking (m : Manager A H K) : List A :=
  match m.dispatcher with
  | .lookup a => [a]
  | _ => []

-- What was taken was given, in order, to the handlers that there were
structure Ledger (getType : A → K) (m : Manager A H K) : Prop where
  sent : m.sent = m.popped.map Prod.fst ++ m.actions
  dispatched : (m.popped.filter Prod.snd).filterMap Prod.fst = m.dispatched.map Prod.fst ++ m.looking
  handlers : ∀ p ∈ m.dispatched, p.2 <+: m.handlers (getType p.1)

variable {getType : A → K}

theorem ledger_new : (new : Manager A H K).Ledger getType where
  sent := rfl
  dispatched := rfl
  handlers := fun _ hp => nomatch hp

theorem Ledger.frame (hsent : m'.sent = m.sent) (hpopped : m'.popped = m.popped) (hactions : m'.actions = m.actions)
    (hdispatched : m'.dispatched = m.dispatched) (hhandlers : m'.handlers = m.handlers)
    (hlooking : m'.looking = m.looking) (h : m.Ledger getType)
    : m'.Ledger getType where
  sent := by
    rw [hsent, hpopped, hactions]
    exact h.sent
  dispatched := by
    rw [hpopped, hdispatched, hlooking]
    exact h.dispatched
  handlers := by
    rw [hdispatched, hhandlers]
    exact h.handlers

theorem Ledger.queue (h : m.Ledger getType) (action : Option A) : (m.queue action).Ledger getType := by
  unfold Manager.queue
  split
  . refine ⟨?_, ?_, h.handlers⟩
    . change m.sent = (m.popped ++ (m.actions.take _).map _).map _ ++ m.actions.drop _
      rw [List.map_append, List.map_map, List.append_assoc]
      change m.sent = m.popped.map Prod.fst ++ ((m.actions.take _).map id ++ m.actions.drop _)
      rw [List.map_id, List.take_append_drop]
      exact h.sent
    . change ((m.popped ++ (m.actions.take _).map _).filter _).filterMap _ = _
      rw [List.filter_append, List.filter_map]
      change (m.popped.filter Prod.snd ++ ((m.actions.take _).filter fun _ => false).map _).filterMap _ = _
      rw [List.filter_false, List.map_nil, List.append_nil]
      exact h.dispatched
  . exact Ledger.frame (m := m) rfl rfl rfl rfl rfl rfl h

theorem Ledger.take {actions : List (Option A)} {action : Option A} {pc : DispatcherPc A H} (h : m.Ledger getType)
    (hpc : m.dispatcher = .wait) (hactions : m.actions = action :: actions)
    (hlooking : looking { m with dispatcher := pc } = action.toList)
    : Ledger getType { m with actions := actions, popped := m.popped ++ [(action, true)], dispatcher := pc } where
  sent := by
    change m.sent = (m.popped ++ [(action, true)]).map Prod.fst ++ actions
    rw [h.sent, hactions, List.map_append, List.append_assoc]
    rfl
  dispatched := by
    have hm : m.looking = [] := by
      unfold looking
      rw [hpc]
    have hd := h.dispatched
    rw [hm, List.append_nil] at hd
    change ((m.popped ++ [(action, true)]).filter Prod.snd).filterMap Prod.fst
      = m.dispatched.map Prod.fst ++ looking { m with dispatcher := pc }
    rw [List.filter_append, List.filterMap_append, hd, hlooking]
    cases action <;> rfl
  handlers := h.handlers

-- Anywhere else the dispatcher takes nothing and looks nothing up
theorem stepDispatcher_frame (hstep : m.stepDispatcher getType = some m') (hwait : m.dispatcher ≠ .wait)
    (hlookup : ∀ a, m.dispatcher ≠ .lookup a)
    : m'.sent = m.sent ∧ m'.popped = m.popped ∧ m'.actions = m.actions ∧ m'.dispatched = m.dispatched
      ∧ m'.handlers = m.handlers ∧ m'.looking = m.looking := by
  have hlooking : m.looking = [] := by
    unfold looking
    split
    . exact absurd ‹_› (hlookup _)
    . rfl
  rw [hlooking]
  unfold stepDispatcher at hstep
  cases hpc : m.dispatcher with
  | loop =>
    rw [hpc] at hstep
    cases hstep
    refine ⟨rfl, rfl, rfl, rfl, rfl, ?_⟩
    unfold looking
    cases m.running <;> rfl
  | wait => exact absurd hpc hwait
  | lookup a => exact absurd hpc (hlookup a)
  | dispatch a i rest =>
    rw [hpc] at hstep
    cases rest with
    | nil =>
      cases hstep
      exact ⟨rfl, rfl, rfl, rfl, rfl, rfl⟩
    | cons handler rest =>
      dsimp only at hstep
      split at hstep
      all_goals
        cases hstep
        exact ⟨rfl, rfl, rfl, rfl, rfl, rfl⟩
  | signal a i rest =>
    rw [hpc] at hstep
    obtain ⟨t, -, rfl⟩ := Option.map_eq_some_iff.mp hstep
    exact ⟨rfl, rfl, rfl, rfl, rfl, rfl⟩
  | await i active =>
    rw [hpc] at hstep
    dsimp only at hstep
    split at hstep
    . cases hstep
      exact ⟨rfl, rfl, rfl, rfl, rfl, rfl⟩
    . split at hstep
      . cases hstep
      . split at hstep
        . cases hstep
        . cases hstep
          exact ⟨rfl, rfl, rfl, rfl, rfl, rfl⟩
  | stop i =>
    rw [hpc] at hstep
    dsimp only at hstep
    split at hstep
    all_goals
      cases hstep
      exact ⟨rfl, rfl, rfl, rfl, rfl, rfl⟩
  | stopSignal i =>
    rw [hpc] at hstep
    obtain ⟨t, -, rfl⟩ := Option.map_eq_some_iff.mp hstep
    exact ⟨rfl, rfl, rfl, rfl, rfl, rfl⟩
  | stopWait i =>
    rw [hpc] at hstep
    dsimp only at hstep
    split at hstep
    . cases hstep
    . split at hstep
      . cases hstep
      . cases hstep
        exact ⟨rfl, rfl, rfl, rfl, rfl, rfl⟩
  | stopped =>
    rw [hpc] at hstep
    cases hstep

theorem ledger_stepDispatcher (h : m.Ledger getType) (hstep : m.stepDispatcher getType = some m')
    : m'.Ledger getType := by
  by_cases hwait : m.dispatcher = .wait
  . unfold stepDispatcher at hstep
    rw [hwait] at hstep
    dsimp only at hstep
    split at hstep
    . cases hstep
    . rename_i hactions
      cases hstep
      exact h.take hwait hactions rfl
    . rename_i hactions
      cases hstep
      exact h.take hwait hactions rfl
  . by_cases hlookup : ∃ a, m.dispatcher = .lookup a
    . obtain ⟨a, hpc⟩ := hlookup
      unfold stepDispatcher at hstep
      rw [hpc] at hstep
      cases hstep
      refine ⟨h.sent, ?_, fun p hp => ?_⟩
      . have hd := h.dispatched
        unfold looking at hd
        rw [hpc] at hd
        change _ = (m.dispatched ++ [(a, m.handlers (getType a))]).map Prod.fst ++ []
        rw [List.map_append, List.append_nil]
        exact hd
      . change p ∈ m.dispatched ++ [(a, m.handlers (getType a))] at hp
        obtain hp | hp := List.mem_append.mp hp
        . exact h.handlers p hp
        . obtain rfl := List.mem_singleton.mp hp
          exact List.prefix_rfl
    . obtain ⟨hsent, hpopped, hactions, hdispatched, hhandlers, hlooking⟩ :=
        stepDispatcher_frame hstep hwait fun a ha => hlookup ⟨a, ha⟩
      exact h.frame hsent hpopped hactions hdispatched hhandlers hlooking

theorem Busy.handled (h : m.Busy a given rest)
    : ∃ before a handlers old part, m.dispatched = before ++ [(a, handlers)] ∧ m.handled = old ++ part
      ∧ Batches before old ∧ part.Subperm (handlers.map (·, a)) := by
  obtain ⟨before, old, part, hdispatched, hhandled, hbefore, hperm⟩ := h.batches
  refine ⟨before, a, given ++ rest, old, part, hdispatched, hhandled, hbefore, ?_⟩
  rw [List.map_append]
  exact ((List.sublist_append_left _ _).subperm.trans hperm.subperm).trans (List.sublist_append_left _ _).subperm

theorem Inv.handled (h : m.Inv)
    : Batches m.dispatched m.handled
      ∨ ∃ before a handlers old part, m.dispatched = before ++ [(a, handlers)] ∧ m.handled = old ++ part
        ∧ Batches before old ∧ part.Subperm (handlers.map (·, a)) := by
  unfold Inv at h
  cases hpc : m.dispatcher with
  | loop =>
    rw [hpc] at h
    exact .inl h.batches
  | wait =>
    rw [hpc] at h
    exact .inl h.batches
  | lookup a =>
    rw [hpc] at h
    exact .inl h.batches
  | dispatch a i rest =>
    rw [hpc] at h
    obtain ⟨given, -, hbusy, -⟩ := h
    exact .inr hbusy.handled
  | signal a i rest =>
    rw [hpc] at h
    obtain ⟨given, handler, -, hbusy, -⟩ := h
    exact .inr hbusy.handled
  | await i active =>
    rw [hpc] at h
    obtain ⟨a, given, -, hbusy, -⟩ := h
    exact .inr hbusy.handled
  | stop i =>
    rw [hpc] at h
    exact .inl h.batches
  | stopSignal i =>
    rw [hpc] at h
    exact .inl h.1.batches
  | stopWait i =>
    rw [hpc] at h
    exact .inl h.1.batches
  | stopped =>
    rw [hpc] at h
    exact .inl h.batches

/-
Where nothing goes on.
-/

theorem step_of_stepTask (htask : m.stepTask i = none) (ht : m.threads[i]? = some t) : t.step = none := by
  unfold stepTask at htask
  rw [ht] at htask
  exact Option.map_eq_none_iff.mp htask

theorem exited_of_quitting (h : t.Quitting) (hcondition : t.condition = false) : t.pc = .exited := by
  unfold ActionTask.Quitting at h
  cases hpc : t.pc with
  | wait =>
    rw [hpc] at h
    exact absurd (h.1.symm.trans hcondition) nofun
  | check =>
    rw [hpc] at h
    exact absurd (h.1.symm.trans hcondition) nofun
  | handle a handler =>
    rw [hpc] at h
    exact h.elim
  | signal quit =>
    rw [hpc] at h
    exact absurd (h.1.symm.trans hcondition) nofun
  | exited => rfl

theorem Inv.stuck (h : m.Inv) (hdispatcher : m.stepDispatcher getType = none) (htask : ∀ i, m.stepTask i = none)
    : Batches m.dispatched m.handled
      ∧ (m.dispatcher = .wait ∧ m.actions = [] ∨ m.dispatcher = .stopped ∧ ∀ t ∈ m.threads, t.pc = .exited) := by
  unfold Inv at h
  unfold stepDispatcher at hdispatcher
  cases hpc : m.dispatcher with
  | loop =>
    rw [hpc] at hdispatcher
    cases hdispatcher
  | wait =>
    rw [hpc] at h hdispatcher
    dsimp only at hdispatcher
    split at hdispatcher
    . rename_i hactions
      exact ⟨h.batches, .inl ⟨rfl, hactions⟩⟩
    . cases hdispatcher
    . cases hdispatcher
  | lookup a =>
    rw [hpc] at hdispatcher
    cases hdispatcher
  | dispatch a i rest =>
    rw [hpc] at hdispatcher
    cases rest with
    | nil => cases hdispatcher
    | cons handler rest =>
      dsimp only at hdispatcher
      split at hdispatcher
      all_goals cases hdispatcher
  | signal a i rest =>
    rw [hpc] at h hdispatcher
    obtain ⟨given, handler, -, -, -, hlt, -⟩ := h
    exact absurd (List.getElem?_eq_none_iff.mp (Option.map_eq_none_iff.mp hdispatcher)) (Nat.not_le_of_lt hlt)
  | await i active =>
    rw [hpc] at h hdispatcher
    obtain ⟨a, given, rfl, hbusy, hle, -⟩ := h
    dsimp only at hdispatcher
    split at hdispatcher
    . cases hdispatcher
    . split at hdispatcher
      . rename_i hne hnone
        have hlength := List.getElem?_eq_none_iff.mp hnone
        have hgiven := hbusy.length_le
        omega
      . rename_i t ht
        split at hdispatcher
        . rename_i hcondition
          exact absurd (step_of_stepTask (htask i) ht) ((hbusy.working i t ht).exists_step hcondition)
        . cases hdispatcher
  | stop i =>
    rw [hpc] at hdispatcher
    dsimp only at hdispatcher
    split at hdispatcher
    all_goals cases hdispatcher
  | stopSignal i =>
    rw [hpc] at h hdispatcher
    exact absurd (List.getElem?_eq_none_iff.mp (Option.map_eq_none_iff.mp hdispatcher)) (Nat.not_le_of_lt h.2.1)
  | stopWait i =>
    rw [hpc] at h hdispatcher
    obtain ⟨-, hlt, hquitting⟩ := h
    dsimp only at hdispatcher
    split at hdispatcher
    . rename_i hnone
      exact absurd (List.getElem?_eq_none_iff.mp hnone) (Nat.not_le_of_lt hlt)
    . rename_i t ht
      split at hdispatcher
      . rename_i hcondition
        exact absurd (step_of_stepTask (htask i) ht) ((hquitting i t ht rfl).exists_step hcondition)
      . cases hdispatcher
  | stopped =>
    rw [hpc] at h
    refine ⟨h.batches, .inr ⟨rfl, fun t ht => ?_⟩⟩
    obtain ⟨k, hk⟩ := List.getElem?_of_mem ht
    obtain ⟨hlt, -⟩ := List.getElem?_eq_some_iff.mp hk
    obtain ⟨hquitting, hcondition⟩ := h.exited k t hk hlt
    exact exited_of_quitting hquitting hcondition

section Runs

variable [DecidableEq K] {e : Event A H K} {events : List (Event A H K)}

theorem inv_step (h : m.Inv) (hstep : m.step getType e = some m') : m'.Inv := by
  cases e with
  | addHandler type handler =>
    unfold step at hstep
    dsimp only at hstep
    split at hstep
    . cases hstep
    . cases hstep
      exact Inv.frame (m := m) rfl rfl rfl rfl h
  | setQueueLimit n =>
    cases hstep
    exact Inv.frame (m := m) rfl rfl rfl rfl h
  | queue action =>
    cases hstep
    obtain ⟨hthreads, hdispatched, hhandled, hdispatcher⟩ := m.queue_frame action
    exact h.frame hthreads hdispatched hhandled hdispatcher
  | send i =>
    obtain ⟨s, -, rfl⟩ := Option.map_eq_some_iff.mp hstep
    exact Inv.frame (m := m) rfl rfl rfl rfl h
  | shutdown =>
    cases hstep
    exact Inv.frame (m := m) rfl rfl rfl rfl h
  | dispatcher => exact inv_stepDispatcher h hstep
  | task i => exact inv_stepTask h hstep

theorem ledger_step (h : m.Ledger getType) (hstep : m.step getType e = some m') : m'.Ledger getType := by
  cases e with
  | addHandler type handler =>
    unfold step at hstep
    dsimp only at hstep
    split at hstep
    . cases hstep
    . cases hstep
      refine ⟨h.sent, h.dispatched, fun p hp => (h.handlers p hp).trans ?_⟩
      change _ <+: if getType p.1 = type then _ else _
      split
      . exact List.prefix_append _ _
      . exact List.prefix_rfl
  | setQueueLimit n =>
    cases hstep
    exact Ledger.frame (m := m) rfl rfl rfl rfl rfl rfl h
  | queue action =>
    cases hstep
    exact h.queue action
  | send i =>
    obtain ⟨s, -, rfl⟩ := Option.map_eq_some_iff.mp hstep
    refine ⟨?_, h.dispatched, h.handlers⟩
    change m.sent ++ [s.1] = m.popped.map Prod.fst ++ (m.actions ++ [s.1])
    rw [h.sent, List.append_assoc]
  | shutdown =>
    cases hstep
    exact Ledger.frame (m := m) rfl rfl rfl rfl rfl rfl h
  | dispatcher => exact ledger_stepDispatcher h hstep
  | task i =>
    obtain ⟨t, t', done, -, -, rfl⟩ := stepTask_spec hstep
    exact Ledger.frame (m := m) rfl rfl rfl rfl rfl rfl h

theorem inv_run (hrun : Runs.run (step getType) (new : Manager A H K) events = some m) : m.Inv :=
  Runs.run_inv (fun _ _ _ => inv_step) inv_new hrun

/--
In every run, what was sent has been popped off by the limit, taken or is queued still, in order. What was taken has
been given in order to the handlers that there were, and an action is handled once by each of these before the next one
is handled by any.
-/
theorem handled_run (hrun : Runs.run (step getType) (new : Manager A H K) events = some m)
    : m.sent = m.popped.map Prod.fst ++ m.actions
      ∧ (m.popped.filter Prod.snd).filterMap Prod.fst = m.dispatched.map Prod.fst ++ m.looking
      ∧ (∀ p ∈ m.dispatched, p.2 <+: m.handlers (getType p.1))
      ∧ (Batches m.dispatched m.handled
        ∨ ∃ before a handlers old part, m.dispatched = before ++ [(a, handlers)] ∧ m.handled = old ++ part
          ∧ Batches before old ∧ part.Subperm (handlers.map (·, a))) := by
  have hledger : m.Ledger getType := Runs.run_inv (fun _ _ _ => ledger_step) ledger_new hrun
  exact ⟨hledger.sent, hledger.dispatched, hledger.handlers, (inv_run hrun).handled⟩

-- The second of two handlers has returned, and the first one has not
theorem handled_run_two : ∃ m : Manager Nat Nat Nat,
    m.dispatched = [(5, [7, 8])] ∧ m.handled = [(8, 5)] ∧ m.sent = m.popped.map Prod.fst ++ m.actions :=
  have hrun : Runs.run (step id) new ([.addHandler 5 7, .addHandler 5 8, .queue (some 5), .send 0]
    ++ List.replicate 10 .dispatcher ++ [.task 1, .task 0, .task 1, .task 1]) = some _ := rfl
  ⟨_, rfl, rfl, (handled_run hrun).1⟩

/--
Where neither the dispatcher nor a task can go on, whatever others have done, each action that was taken has been
handled by all that it was given to; and the queue is empty, or all of the threads have exited.
-/
theorem stuck_run (hrun : Runs.run (step getType) (new : Manager A H K) events = some m)
    (hdispatcher : m.stepDispatcher getType = none) (htask : ∀ i, m.stepTask i = none)
    : Batches m.dispatched m.handled
      ∧ (m.dispatcher = .wait ∧ m.actions = [] ∨ m.dispatcher = .stopped ∧ ∀ t ∈ m.threads, t.pc = .exited) :=
  (inv_run hrun).stuck hdispatcher htask

theorem stuck_run_two : ∃ m : Manager Nat Nat Nat,
    m.dispatched = [(5, [7, 8])] ∧ m.handled = [(8, 5), (7, 5)] ∧ Batches m.dispatched m.handled :=
  have hrun : Runs.run (step id) new ([.addHandler 5 7, .addHandler 5 8, .queue (some 5), .send 0]
    ++ List.replicate 10 .dispatcher ++ List.replicate 4 (.task 1) ++ List.replicate 4 (.task 0)
    ++ List.replicate 4 .dispatcher) = some _ := rfl
  ⟨_, rfl, rfl, (stuck_run hrun rfl fun i => by rcases i with _ | _ | i <;> rfl).1⟩

end Runs

end Manager

end Action
end ObTools
