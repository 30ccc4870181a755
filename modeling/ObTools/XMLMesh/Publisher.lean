import ObTools.Lib.Runs
import ObTools.Text.Pattern

/-!
This module contains the model of `XMLMesh::Publisher`, what clients expect of their subscriptions, and the proof that a
publisher meets it in exactly those runs in which patterns match themselves and the paths of clients that have an ID
are not used without it.

A step is `none` where a pattern match reads behind the end of a string.
-/

namespace ObTools
namespace XMLMesh

abbrev Bytes := List UInt8

-- Subscription record
structure Subscription where
  subject : Bytes
  path : Bytes
  subscriberId : Bytes
  deriving DecidableEq, Repr

-- The subscriber ID is optional.
def Subscription.isOf (sub : Subscription) (path subscriberId : Bytes) : Bool :=
  if subscriberId = [] then sub.path = path else sub.subscriberId = subscriberId

inductive Operation where
  | join
  | leave
  | bogus
  deriving DecidableEq, Repr

structure SubscriptionMessage where
  operation : Operation
  subject : Bytes
  deriving DecidableEq, Repr

inductive Response where
  | ok
  | fault (reason : String)
  deriving DecidableEq, Repr

structure Publisher where
  subjectPattern : Bytes
  subscriptions : List Subscription
  deriving DecidableEq, Repr

namespace Publisher

def unsubscribeLoop (subject path subscriberId : Bytes) : List Subscription → Option (List Subscription)
  | [] => some []
  | sub :: subs => do
    let unsubscribed ←
      (if sub.isOf path subscriberId then Text.patternMatch subject sub.subject true else some false)
    let subs ← unsubscribeLoop subject path subscriberId subs
    some (if unsubscribed then subs else sub :: subs)

-- Uses pattern match to allow general unsubscribe
def unsubscribe (pub : Publisher) (subject path subscriberId : Bytes) : Option Publisher := do
  let subscriptions ← unsubscribeLoop subject path subscriberId pub.subscriptions
  some { pub with subscriptions }

def unsubscribeAll (pub : Publisher) (path subscriberId : Bytes) : Publisher :=
  { pub with subscriptions := pub.subscriptions.filter fun sub => !sub.isOf path subscriberId }

def subscribe (pub : Publisher) (subject path subscriberId : Bytes) : Option (Bool × Publisher) := do
  -- Check pattern is one we can accept subscription for
  if ← Text.patternMatch pub.subjectPattern subject true then
    -- Unsubscribe from this first
    let pub ← pub.unsubscribe subject path subscriberId
    some (true,
      { pub with subscriptions := pub.subscriptions ++ [{ subject, path, subscriberId }] })
  else
    some (false, pub)

-- Returns whether others should see it, and what is responded.
def handleSubscription (pub : Publisher) (smsg : SubscriptionMessage) (path subscriberId : Bytes)
    : Option (Bool × Option Response × Publisher) :=
  match smsg.operation with
  | .bogus => some (false, some (.fault "Illegal subscription message"), pub)
  | .join => do
    let (taken, pub) ← pub.subscribe smsg.subject path subscriberId
    some (if taken then (false, some .ok, pub) else (true, none, pub))
  | .leave => do
    let pub ← pub.unsubscribe smsg.subject path subscriberId
    some (false, some .ok, pub)

def new (subjectPattern : Bytes) : Publisher := { subjectPattern, subscriptions := [] }

end Publisher

-- What changes the subscriptions
inductive Event where
  | subscription (smsg : SubscriptionMessage) (path subscriberId : Bytes)
  | disconnection (path subscriberId : Bytes)
  deriving DecidableEq, Repr

def Publisher.step (pub : Publisher) : Event → Option Publisher
  | .subscription smsg path subscriberId => do
    let (_, _, pub) ← pub.handleSubscription smsg path subscriberId
    some pub
  | .disconnection path subscriberId => some (pub.unsubscribeAll path subscriberId)

/--
A client is known by its ID if it has one and by its path if not.
-/
inductive Client where
  | connection (path : Bytes)
  | subscriber (subscriberId : Bytes)
  deriving DecidableEq, Repr

namespace Client

def of (path subscriberId : Bytes) : Client :=
  if subscriberId = [] then .connection path else .subscriber subscriberId

end Client

def Subscription.client (sub : Subscription) : Client := Client.of sub.path sub.subscriberId

def isMatch (pattern subject : Bytes) : Bool := Text.patternMatch pattern subject true = some true

theorem isMatch_eq {pattern subject : Bytes} {b : Bool}
    (h : Text.patternMatch pattern subject true = some b)
    : isMatch pattern subject = b := by
  unfold isMatch
  simp only [h]
  cases b with
  | true => rfl
  | false => rfl

-- A pattern unsubscribes what it matches, and itself in any case.
def leaves (pattern path subscriberId : Bytes) (client : Client) (subject : Bytes) : Bool :=
  client = Client.of path subscriberId ∧ (subject = pattern ∨ isMatch pattern subject)

namespace Event

/--
Whether a client should have a subscription to a subject after an event, by whether it has one before.
-/
def expected (subjectPattern : Bytes) (e : Event) (before : Client → Bytes → Bool) (client : Client)
    (subject : Bytes)
    : Bool :=
  match e with
  | .subscription smsg path subscriberId =>
    match smsg.operation with
    | .bogus => before client subject
    | .join =>
      if isMatch subjectPattern smsg.subject then
        decide (client = Client.of path subscriberId ∧ subject = smsg.subject)
          || (before client subject && !leaves smsg.subject path subscriberId client subject)
      else
        before client subject
    | .leave => before client subject && !leaves smsg.subject path subscriberId client subject
  | .disconnection path subscriberId =>
    before client subject && !decide (client = Client.of path subscriberId)

def expectedAfter (subjectPattern : Bytes) (events : List Event) : Client → Bytes → Bool :=
  events.foldl (fun before e => e.expected subjectPattern before) fun _ _ => false

end Event

namespace Publisher

variable (subs : List Subscription)

def count (subs : List Subscription) (client : Client) (subject : Bytes) : Nat :=
  subs.countP fun sub => sub.client = client ∧ sub.subject = subject

/--
There is exactly one subscription where one is expected, and none elsewhere.
-/
def Agrees (subs : List Subscription) (expected : Client → Bytes → Bool) : Prop :=
  ∀ client subject, count subs client subject = (expected client subject).toNat

/--
The subscriptions of a client that is known by `path` and `subscriberId` can be told from others, and a pattern
unsubscribes itself.
-/
def IsClear (subs : List Subscription) (pattern path subscriberId : Bytes) : Prop :=
  ∀ sub ∈ subs, sub.isOf path subscriberId →
    Text.patternMatch pattern sub.subject true ≠ none
      ∧
    (sub.client = Client.of path subscriberId → sub.subject = pattern → isMatch pattern pattern)
      ∧
    (isMatch pattern sub.subject → sub.client = Client.of path subscriberId)

/--
The condition on a state and what happens in it.
-/
def Clear (pub : Publisher) : Event → Prop
  | .subscription smsg path subscriberId =>
    match smsg.operation with
    | .bogus => True
    | .join =>
      Text.patternMatch pub.subjectPattern smsg.subject true ≠ none
        ∧
      (isMatch pub.subjectPattern smsg.subject →
        IsClear pub.subscriptions smsg.subject path subscriberId)
    | .leave => IsClear pub.subscriptions smsg.subject path subscriberId
  | .disconnection path subscriberId =>
    ∀ sub ∈ pub.subscriptions, sub.isOf path subscriberId → sub.client = Client.of path subscriberId

/--
Each step of a run meets the condition.
-/
def AllClear : Publisher → List Event → Prop
  | _, [] => True
  | pub, e :: events => pub.Clear e ∧ ∀ pub', pub.step e = some pub' → AllClear pub' events

theorem isOf_of_client {sub : Subscription} {path subscriberId : Bytes}
    (h : sub.client = Client.of path subscriberId)
    : sub.isOf path subscriberId := by
  unfold Subscription.client Client.of at h
  unfold Subscription.isOf
  split at h
  . next hsub =>
    split at h
    . next hid =>
      rw [if_pos hid]
      injection h with hpath
      apply decide_eq_true hpath
    . cases h
  . split at h
    . cases h
    . next hid =>
      rw [if_neg hid]
      injection h with hid'
      apply decide_eq_true hid'

variable {subs : List Subscription} {expected : Client → Bytes → Bool} {client : Client}
  {subject : Bytes}

theorem toNat_pos {b : Bool} : 0 < b.toNat ↔ b = true := by
  cases b <;> decide

theorem count_pos {sub : Subscription} (h : sub ∈ subs) : 0 < count subs sub.client sub.subject := by
  apply List.countP_pos_iff.mpr
  exact ⟨sub, h, by simp⟩

/--
Subscriptions are taken away as expected if and only if each one for itself is.
-/
theorem agrees_filter_iff (h : Agrees subs expected) (hit : Subscription → Bool)
    (goes : Client → Bytes → Bool)
    : Agrees (subs.filter fun sub => !hit sub)
          (fun client subject => expected client subject && !goes client subject)
        ↔
      ∀ sub ∈ subs, hit sub = goes sub.client sub.subject := by
  constructor
  . intro hagrees sub hsub
    have hsum : count subs sub.client sub.subject
        = count (subs.filter hit) sub.client sub.subject
          + count (subs.filter fun sub => !hit sub) sub.client sub.subject := by
      apply List.countP_eq_countP_filter_add
    have hpos := count_pos hsub
    have hrest := hagrees sub.client sub.subject
    rw [h] at hsum hpos
    have hexpected : expected sub.client sub.subject = true := toNat_pos.mp hpos
    dsimp only at hrest
    rw [hexpected, Bool.true_and] at hrest
    rw [hexpected, hrest] at hsum
    cases hhit : hit sub with
    | true =>
      have hgone : 0 < count (subs.filter hit) sub.client sub.subject :=
        count_pos (List.mem_filter.mpr ⟨hsub, hhit⟩)
      cases hgoes : goes sub.client sub.subject with
      | true => rfl
      | false =>
        rw [hgoes, Bool.not_false, Bool.toNat_true] at hsum
        omega
    | false =>
      have hkept : sub ∈ subs.filter fun sub => !hit sub := List.mem_filter.mpr ⟨hsub, by rw [hhit]; rfl⟩
      have hkept := count_pos hkept
      rw [hrest, toNat_pos, Bool.not_eq_true'] at hkept
      rw [hkept]
  . intro hall client subject
    dsimp only
    cases hgoes : goes client subject with
    | true =>
      rw [Bool.not_true, Bool.and_false]
      apply List.countP_eq_zero.mpr
      intro sub hsub hself
      obtain ⟨hsub, hkept⟩ := List.mem_filter.mp hsub
      obtain ⟨rfl, rfl⟩ := of_decide_eq_true hself
      rw [hall sub hsub, hgoes] at hkept
      contradiction
    | false =>
      rw [Bool.not_false, Bool.and_true, ← h]
      unfold count
      rw [List.countP_filter]
      apply List.countP_congr
      intro sub hsub
      rw [Bool.and_eq_true]
      refine and_iff_left_of_imp ?_
      intro hself
      obtain ⟨rfl, rfl⟩ := of_decide_eq_true hself
      rw [hall sub hsub, hgoes]
      rfl

-- Where nothing is read that is not there, what matches and is the client's goes.
theorem unsubscribeLoop_eq {pattern path subscriberId : Bytes} {subs : List Subscription}
    (h : ∀ sub ∈ subs, sub.isOf path subscriberId → Text.patternMatch pattern sub.subject true ≠ none)
    : unsubscribeLoop pattern path subscriberId subs
        = some (subs.filter fun sub =>
            !(sub.isOf path subscriberId && isMatch pattern sub.subject)) := by
  induction subs with
  | nil => rfl
  | cons sub subs ih =>
    obtain ⟨hsub, hsubs⟩ := List.forall_mem_cons.mp h
    unfold unsubscribeLoop
    rw [ih hsubs, List.filter_cons]
    cases hof : sub.isOf path subscriberId with
    | false => rfl
    | true =>
      obtain ⟨b, hmatch⟩ := Option.ne_none_iff_exists'.mp (hsub hof)
      rw [hmatch, isMatch_eq hmatch]
      cases b with
      | true => rfl
      | false => rfl

theorem ne_none_of_unsubscribeLoop {pattern path subscriberId : Bytes} {subs subs' : List Subscription}
    (h : unsubscribeLoop pattern path subscriberId subs = some subs')
    : ∀ sub ∈ subs, sub.isOf path subscriberId → Text.patternMatch pattern sub.subject true ≠ none := by
  induction subs generalizing subs' with
  | nil =>
    intro sub hsub
    contradiction
  | cons sub subs ih =>
    unfold unsubscribeLoop at h
    rw [Option.bind_eq_bind, Option.bind_eq_some_iff] at h
    obtain ⟨b, hmatch, h⟩ := h
    rw [Option.bind_eq_bind, Option.bind_eq_some_iff] at h
    obtain ⟨subs1, hrest, -⟩ := h
    apply List.forall_mem_cons.mpr ⟨_, ih hrest⟩
    intro hof hnone
    rw [if_pos hof, hnone] at hmatch
    contradiction

/--
What `unsubscribe` does is what is expected if and only if the pattern is clear.
-/
theorem unsubscribeLoop_iff (h : Agrees subs expected) (pattern path subscriberId : Bytes)
    : (∃ subs', unsubscribeLoop pattern path subscriberId subs = some subs'
          ∧ Agrees subs' fun client subject =>
              expected client subject && !leaves pattern path subscriberId client subject)
        ↔
      IsClear subs pattern path subscriberId := by
  constructor
  . rintro ⟨subs', hloop, hagrees⟩ sub hsub hof
    have hdefined := ne_none_of_unsubscribeLoop hloop
    rw [unsubscribeLoop_eq hdefined] at hloop
    cases hloop
    have hgoes := (agrees_filter_iff h _ _).mp hagrees sub hsub
    rw [hof, Bool.true_and] at hgoes
    refine ⟨hdefined sub hsub hof, ?_, ?_⟩
    . intro hclient hsubject
      rw [hsubject] at hgoes
      rw [hgoes]
      apply decide_eq_true ⟨hclient, .inl rfl⟩
    . intro hmatch
      rw [hmatch] at hgoes
      apply (of_decide_eq_true hgoes.symm).1
  . intro hclear
    refine ⟨_, unsubscribeLoop_eq fun sub hsub hof => (hclear sub hsub hof).1, ?_⟩
    apply (agrees_filter_iff h _ _).mpr
    intro sub hsub
    apply Bool.eq_iff_iff.mpr
    rw [Bool.and_eq_true]
    constructor
    . rintro ⟨hof, hmatch⟩
      apply decide_eq_true ⟨(hclear sub hsub hof).2.2 hmatch, .inr hmatch⟩
    . intro hgoes
      obtain ⟨hclient, hsubject⟩ := of_decide_eq_true hgoes
      have hof := isOf_of_client hclient
      refine ⟨hof, ?_⟩
      cases hsubject with
      | inl heq =>
        have hself := (hclear sub hsub hof).2.1 hclient heq
        rw [heq]
        apply hself
      | inr hmatch => apply hmatch

/--
What comes back has been subscribed once.
-/
theorem agrees_append_iff (subs : List Subscription) (expected : Client → Bytes → Bool)
    (pattern path subscriberId : Bytes)
    : Agrees (subs ++ [{ subject := pattern, path, subscriberId }]) (fun client subject =>
          decide (client = Client.of path subscriberId ∧ subject = pattern)
            || (expected client subject && !leaves pattern path subscriberId client subject))
        ↔
      Agrees subs fun client subject =>
        expected client subject && !leaves pattern path subscriberId client subject := by
  have hcount (client : Client) (subject : Bytes)
      : count (subs ++ [{ subject := pattern, path, subscriberId }]) client subject
          = count subs client subject
            + (decide (client = Client.of path subscriberId ∧ subject = pattern)).toNat := by
    unfold count
    rw [List.countP_append, List.countP_singleton]
    unfold Subscription.client
    dsimp only
    by_cases hself : client = Client.of path subscriberId ∧ subject = pattern
    . obtain ⟨rfl, rfl⟩ := hself
      simp
    . have hself' : ¬(Client.of path subscriberId = client ∧ pattern = subject) := by
        rintro ⟨rfl, rfl⟩
        apply hself ⟨rfl, rfl⟩
      rw [decide_eq_false hself, decide_eq_false hself']
      rfl
  have hnew (client : Client) (subject : Bytes)
      (h : client = Client.of path subscriberId ∧ subject = pattern)
      : (expected client subject && !leaves pattern path subscriberId client subject) = false := by
    have hleaves : leaves pattern path subscriberId client subject = true :=
      decide_eq_true ⟨h.1, .inl h.2⟩
    rw [hleaves, Bool.not_true, Bool.and_false]
  apply forall_congr'
  intro client
  apply forall_congr'
  intro subject
  rw [hcount]
  dsimp only
  by_cases hself : client = Client.of path subscriberId ∧ subject = pattern
  . rw [hnew client subject hself, decide_eq_true hself]
    simp
  . rw [decide_eq_false hself, Bool.false_or, Bool.toNat_false, Nat.add_zero]

theorem unsubscribeAll_iff (h : Agrees subs expected) (path subscriberId : Bytes)
    : Agrees (subs.filter fun sub => !sub.isOf path subscriberId) (fun client subject =>
          expected client subject && !decide (client = Client.of path subscriberId))
        ↔
      ∀ sub ∈ subs, sub.isOf path subscriberId → sub.client = Client.of path subscriberId := by
  rw [agrees_filter_iff h (fun sub => sub.isOf path subscriberId)
    fun client _ => decide (client = Client.of path subscriberId)]
  apply forall_congr'
  intro sub
  apply imp_congr_right
  intro hsub
  constructor
  . intro hgoes hof
    rw [hof] at hgoes
    apply of_decide_eq_true hgoes.symm
  . intro hclient
    apply Bool.eq_iff_iff.mpr
    rw [decide_eq_true_iff]
    exact ⟨hclient, isOf_of_client⟩

theorem step_leave (pub : Publisher) (subject path subscriberId : Bytes)
    : pub.step (.subscription { operation := .leave, subject } path subscriberId)
        = (unsubscribeLoop subject path subscriberId pub.subscriptions).map fun subscriptions =>
            { pub with subscriptions } := by
  dsimp only [step, handleSubscription, unsubscribe]
  cases unsubscribeLoop subject path subscriberId pub.subscriptions with
  | none => rfl
  | some subs => rfl

theorem step_join (pub : Publisher) (subject path subscriberId : Bytes)
    : pub.step (.subscription { operation := .join, subject } path subscriberId)
        = (Text.patternMatch pub.subjectPattern subject true).bind fun accepted =>
            if accepted then
              (unsubscribeLoop subject path subscriberId pub.subscriptions).map fun subs =>
                { pub with subscriptions := subs ++ [{ subject, path, subscriberId }] }
            else
              some pub := by
  dsimp only [step, handleSubscription, subscribe, unsubscribe]
  cases Text.patternMatch pub.subjectPattern subject true with
  | none => rfl
  | some accepted =>
    cases accepted with
    | false => rfl
    | true =>
      cases unsubscribeLoop subject path subscriberId pub.subscriptions with
      | none => rfl
      | some subs => rfl

/--
An event is handled as expected if and only if it meets the condition.
-/
theorem step_iff {pub : Publisher} (h : Agrees pub.subscriptions expected) (e : Event)
    : (∃ pub', pub.step e = some pub'
          ∧ Agrees pub'.subscriptions (e.expected pub.subjectPattern expected))
        ↔
      pub.Clear e := by
  match e with
  | .disconnection path subscriberId =>
    rw [Clear, ← unsubscribeAll_iff h]
    constructor
    . rintro ⟨pub', hstep, hagrees⟩
      cases hstep
      exact hagrees
    . intro hagrees
      exact ⟨_, rfl, hagrees⟩
  | .subscription ⟨.bogus, subject⟩ path subscriberId =>
    exact ⟨fun _ => trivial, fun _ => ⟨pub, rfl, h⟩⟩
  | .subscription ⟨.leave, subject⟩ path subscriberId =>
    rw [step_leave, Clear, ← unsubscribeLoop_iff h]
    constructor
    . rintro ⟨pub', hstep, hagrees⟩
      obtain ⟨subs, hloop, rfl⟩ := Option.map_eq_some_iff.mp hstep
      exact ⟨subs, hloop, hagrees⟩
    . rintro ⟨subs, hloop, hagrees⟩
      exact ⟨_, by rw [hloop, Option.map_some], hagrees⟩
  | .subscription ⟨.join, subject⟩ path subscriberId =>
    rw [step_join, Clear]
    dsimp only
    unfold Event.expected
    cases haccepted : Text.patternMatch pub.subjectPattern subject true with
    | none => simp
    | some accepted =>
      dsimp only
      rw [isMatch_eq haccepted, Option.bind_some]
      cases accepted with
      | false =>
        constructor
        . intro hstep
          exact ⟨nofun, nofun⟩
        . intro hclear
          exact ⟨pub, rfl, h⟩
      | true =>
        rw [if_pos rfl, ← unsubscribeLoop_iff h]
        constructor
        . rintro ⟨pub', hstep, hagrees⟩
          obtain ⟨subs, hloop, rfl⟩ := Option.map_eq_some_iff.mp hstep
          refine ⟨nofun, fun _ => ⟨subs, hloop, ?_⟩⟩
          exact (agrees_append_iff _ _ _ _ _).mp hagrees
        . rintro ⟨-, hloop⟩
          obtain ⟨subs, hloop, hagrees⟩ := hloop rfl
          refine ⟨_, by rw [hloop, Option.map_some], ?_⟩
          exact (agrees_append_iff _ _ _ _ _).mpr hagrees

theorem step_subjectPattern {pub pub' : Publisher} {e : Event} (hstep : pub.step e = some pub')
    : pub'.subjectPattern = pub.subjectPattern := by
  match e with
  | .disconnection path subscriberId =>
    cases hstep
    rfl
  | .subscription ⟨.bogus, subject⟩ path subscriberId =>
    cases hstep
    rfl
  | .subscription ⟨.leave, subject⟩ path subscriberId =>
    rw [step_leave] at hstep
    obtain ⟨subs, -, rfl⟩ := Option.map_eq_some_iff.mp hstep
    rfl
  | .subscription ⟨.join, subject⟩ path subscriberId =>
    rw [step_join] at hstep
    obtain ⟨accepted, -, hstep⟩ := Option.bind_eq_some_iff.mp hstep
    split at hstep
    . obtain ⟨subs, -, rfl⟩ := Option.map_eq_some_iff.mp hstep
      rfl
    . cases hstep
      rfl

/--
In all states of a run there is what is expected if and only if each step meets the condition.
-/
theorem run_iff {pub : Publisher} (h : Agrees pub.subscriptions expected) (events : List Event)
    : (∀ before after, events = before ++ after →
        ∃ pub', Runs.run Publisher.step pub before = some pub'
          ∧ Agrees pub'.subscriptions
              (before.foldl (fun expected e => e.expected pub.subjectPattern expected) expected))
        ↔
      pub.AllClear events := by
  induction events generalizing pub expected with
  | nil =>
    constructor
    . intro _
      trivial
    . intro _ before after hevents
      rw [(List.append_eq_nil_iff.mp hevents.symm).1]
      exact ⟨pub, rfl, h⟩
  | cons e events ih =>
    rw [AllClear, ← step_iff h]
    constructor
    . intro hrun
      obtain ⟨pub', hone, hagrees⟩ := hrun [e] events rfl
      obtain ⟨pub1, hstep, hnil⟩ := Runs.run_cons hone
      cases hnil
      refine ⟨⟨pub', hstep, hagrees⟩, ?_⟩
      intro pub1 hstep1
      rw [hstep] at hstep1
      cases hstep1
      rw [← ih hagrees]
      intro before after hevents
      obtain ⟨pub2, hrun2, hagrees2⟩ := hrun (e :: before) after (by rw [hevents]; rfl)
      rw [Runs.run_step hstep] at hrun2
      rw [List.foldl_cons] at hagrees2
      rw [step_subjectPattern hstep]
      exact ⟨pub2, hrun2, hagrees2⟩
    . rintro ⟨⟨pub', hstep, hagrees⟩, hclear⟩ before after hevents
      cases before with
      | nil => exact ⟨pub, rfl, h⟩
      | cons e' before =>
        obtain ⟨rfl, htail⟩ := List.cons_eq_cons.mp hevents
        have hrest := (ih hagrees).mpr (hclear pub' hstep) before after htail
        rw [Runs.run_step hstep, List.foldl_cons]
        rw [step_subjectPattern hstep] at hrest
        exact hrest

/--
Clients have the subscriptions they expect in all states of a run if and only if each step meets the condition.
-/
theorem subscriptions_iff (subjectPattern : Bytes) (events : List Event)
    : (∀ before after, events = before ++ after →
        ∃ pub, Runs.run Publisher.step (new subjectPattern) before = some pub
          ∧ ∀ client subject, count pub.subscriptions client subject
              = if Event.expectedAfter subjectPattern before client subject then 1 else 0)
        ↔
      (new subjectPattern).AllClear events := by
  have hnone : Agrees (new subjectPattern).subscriptions fun _ _ => false := fun _ _ => rfl
  rw [← run_iff hnone]
  apply forall_congr'
  intro before
  apply forall_congr'
  intro after
  apply imp_congr_right
  intro _
  apply exists_congr
  intro pub
  apply and_congr_right
  intro _
  apply forall_congr'
  intro client
  apply forall_congr'
  intro subject
  change _ = (if Event.expectedAfter subjectPattern before client subject then 1 else 0) ↔
    _ = (Event.expectedAfter subjectPattern before client subject).toNat
  cases Event.expectedAfter subjectPattern before client subject with
  | true => rfl
  | false => rfl

-- `[a]` matches `a` and nothing else
theorem patternMatch_set : Text.patternMatch [91, 97, 93] [91, 97, 93] true = some false := by
  have hset : Text.Pattern.setLoop true 91 false [97, 93, 0] = some (false, [0]) := by
    have hitem : Text.Pattern.setItem true 91 [97, 93, 0] = some (false, [93, 0]) := by decide
    rw [Text.Pattern.setLoop]
    split
    . next heq => rw [hitem] at heq; cases heq
    . next heq => rw [hitem] at heq; cases heq
    . next heq =>
      rw [hitem] at heq
      cases heq
      rfl
  have hclosed : Text.Pattern.isClosed [97, 93, 0] = some true := by decide
  apply Text.Pattern.patternMatch_set (by decide) hclosed hset

-- A client that subscribes to `[a]`
def letters : Subscription := { subject := [91, 97, 93], path := [49], subscriberId := [] }

def withLetters (n : Nat) : Publisher :=
  { subjectPattern := [42], subscriptions := List.replicate n letters }

theorem unsubscribeLoop_letters (n : Nat)
    : unsubscribeLoop [91, 97, 93] [49] [] (List.replicate n letters)
        = some (List.replicate n letters) := by
  induction n with
  | zero => rfl
  | succ n ih =>
    rw [List.replicate_succ, unsubscribeLoop, ih, show letters.subject = [91, 97, 93] from rfl,
      patternMatch_set, ite_self]
    rfl

theorem step_join_letters (n : Nat)
    : (withLetters n).step (.subscription { operation := .join, subject := [91, 97, 93] } [49] [])
        = some (withLetters (n + 1)) := by
  have haccepted : Text.patternMatch [42] [91, 97, 93] true = some true := by
    simp [Text.patternMatch, Text.Pattern.patternMatch, Text.Pattern.fold, Text.Pattern.seek,
      Text.Pattern.span, Text.Pattern.tryFrom]
  unfold withLetters
  rw [step_join, haccepted, Option.bind_some, if_pos rfl, unsubscribeLoop_letters, Option.map_some,
    List.replicate_succ']
  rfl

/--
A client that joins twice has two subscriptions, and none of them ends when it leaves.
-/
theorem not_subscriptions
    : ∃ pub, Runs.run Publisher.step (new [42])
          [.subscription { operation := .join, subject := [91, 97, 93] } [49] [],
            .subscription { operation := .join, subject := [91, 97, 93] } [49] []] = some pub
        ∧ count pub.subscriptions (.connection [49]) [91, 97, 93] = 2
        ∧ ∃ pub', pub.step (.subscription { operation := .leave, subject := [91, 97, 93] } [49] []) = some pub'
          ∧ count pub'.subscriptions (.connection [49]) [91, 97, 93] = 2 := by
  refine ⟨withLetters 2, ?_, by decide, withLetters 2, ?_, by decide⟩
  . rw [show new [42] = withLetters 0 from rfl]
    simp only [Runs.run, step_join_letters]
  . unfold withLetters
    rw [step_leave, unsubscribeLoop_letters]
    rfl

end Publisher

end XMLMesh
end ObTools
