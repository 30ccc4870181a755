import ObTools.XMLMesh.CorrelatorLemmas

/-!
This module contains the verification of the correlator: a request gets one reply, as long as all of
its responses come while a copy of it is known to be forwarded or still exists.
-/

namespace ObTools
namespace XMLMesh
namespace Correlator

variable {s s' : Correlator}

/-
Replies go to where their requests have come from.
-/
structure Paths (s : Correlator) : Prop where
  cached : ∀ cr ∈ s.requestCache, (cr.id, cr.sourcePath) ∈ s.opened
  replied : ∀ r ∈ s.originated, (r.1.ref, r.2) ∈ s.opened

theorem paths_new (timeout : Int) : Paths (new timeout) where
  cached := nofun
  replied := nofun

theorem Paths.originate (h : Paths s) {message : Message} {path : String}
    (hmem : (message.ref, path) ∈ s.opened)
    : Paths (s.originate message path) where
  cached := h.cached
  replied := by
    intro r hr
    rcases List.mem_append.mp hr with hr | hr
    . exact h.replied r hr
    . rw [List.mem_singleton] at hr
      rw [hr]
      exact hmem

theorem Paths.update (h : Paths s) {f : Correlation → Correlation}
    (hf : ∀ cr, (f cr).id = cr.id ∧ (f cr).sourcePath = cr.sourcePath) (id : String)
    : Paths (s.update id f) where
  cached := by
    intro cr hcr
    obtain ⟨cr0, hcr0, rfl⟩ := List.mem_map.mp hcr
    split
    . rw [(hf cr0).1, (hf cr0).2]
      exact h.cached cr0 hcr0
    . exact h.cached cr0 hcr0
  replied := h.replied

theorem Paths.detach (h : Paths s) (id : String) (msg : Nat) : Paths (s.detach id msg) := by
  unfold Correlator.detach
  cases hlookup : s.lookup id with
  | none => exact h
  | some cr =>
    have hcached := h.cached cr (List.mem_of_find?_eq_some hlookup)
    dsimp only
    split
    . apply Paths.update (h.originate hcached)
      intro cr
      exact ⟨rfl, rfl⟩
    . apply h.update
      intro cr
      exact ⟨rfl, rfl⟩

-- The messages and what has been delivered do not matter
theorem Paths.of_eq (h : Paths s) (hcache : s'.requestCache = s.requestCache)
    (horiginated : s'.originated = s.originated) (hopened : s'.opened = s.opened)
    : Paths s' where
  cached := by
    rw [hcache, hopened]
    exact h.cached
  replied := by
    rw [horiginated, hopened]
    exact h.replied

theorem Paths.destroy (h : Paths s) {cr : Correlation} (hmem : (cr.id, cr.sourcePath) ∈ s.opened)
    : Paths (s.destroy cr) := by
  unfold Correlator.destroy
  dsimp only
  have hrelease : Paths { s with messages := s.release cr.copies } := h.of_eq rfl rfl rfl
  split
  . exact hrelease
  . exact hrelease.originate hmem

theorem Paths.foldl_destroy (h : Paths s) {crs : List Correlation}
    (hmem : ∀ cr ∈ crs, (cr.id, cr.sourcePath) ∈ s.opened)
    : Paths (crs.foldl Correlator.destroy s) := by
  induction crs generalizing s with
  | nil => exact h
  | cons cr crs ih =>
    rw [List.forall_mem_cons] at hmem
    rw [List.foldl_cons]
    apply ih (h.destroy hmem.1)
    rw [(destroyed_destroy s "" cr).opened]
    exact hmem.2

theorem Paths.removeAll (h : Paths s) (p : Correlation → Bool) : Paths (s.removeAll p) := by
  unfold Correlator.removeAll
  apply Paths.foldl_destroy
  . exact ⟨fun cr hcr => h.cached cr (List.mem_of_mem_filter hcr), h.replied⟩
  . intro cr hcr
    exact h.cached cr (List.mem_of_mem_filter hcr)

theorem Paths.untrack (h : Paths s) (msg : Nat) (m : RoutingMessage) : Paths (s.untrack msg m) := by
  unfold Correlator.untrack
  split
  . exact (h.detach _ msg).of_eq rfl rfl rfl
  . exact h

theorem Paths.track (h : Paths s) (msg : Nat) (m : RoutingMessage) (id : String)
    : Paths (s.track msg m id) := by
  have hset : Paths ((s.untrack msg m).setMessage msg { m with tracker := some id }) :=
    (h.untrack msg m).of_eq rfl rfl rfl
  unfold Correlator.track
  apply hset.update
  intro cr
  exact ⟨rfl, rfl⟩

theorem mem_insert {cr c : Correlation} {crs : List Correlation} (h : c ∈ insert cr crs)
    : c = cr ∨ c ∈ crs := by
  induction crs with
  | nil => exact .inl (List.mem_singleton.mp h)
  | cons d crs ih =>
    unfold insert at h
    split at h
    . exact List.mem_cons.mp h
    . rcases List.mem_cons.mp h with h | h
      . exact .inr (List.mem_cons.mpr (.inl h))
      . rcases ih h with h | h
        . exact .inl h
        . exact .inr (List.mem_cons.mpr (.inr h))

theorem Paths.openCorrelation (h : Paths s) (id path : String) (now : Int)
    : Paths (s.openCorrelation id path now) := by
  have hremove : Paths (s.remove id) := h.removeAll _
  have hopened : (s.openCorrelation id path now).opened = (s.remove id).opened ++ [(id, path)] := rfl
  constructor
  . intro cr hcr
    rw [hopened]
    rcases mem_insert hcr with rfl | hcr
    . exact List.mem_append_right _ (List.mem_singleton_self _)
    . exact List.mem_append_left _ (hremove.cached cr hcr)
  . intro r hr
    rw [hopened]
    exact List.mem_append_left _ (hremove.replied r hr)

theorem Paths.reply (h : Paths s) {m : RoutingMessage} {cr : Correlation}
    (hlookup : s.lookup m.message.ref = some cr)
    : Paths (s.reply m cr) := by
  have hcached := h.cached cr (List.mem_of_find?_eq_some hlookup)
  have hfiltered : Paths { s with requestCache := s.requestCache.filter fun c => c.id ≠ cr.id } :=
    ⟨fun c hc => h.cached c (List.mem_of_mem_filter hc), h.replied⟩
  unfold Correlator.reply
  apply Paths.destroy
  . apply hfiltered.originate
    rw [← lookup_id hlookup]
    exact hcached
  . exact hcached

theorem Paths.copy (h : Paths s) (m : RoutingMessage) (dest : Nat) : Paths (s.copy m dest) := by
  have hset : Paths (s.setMessage dest m) := h.of_eq rfl rfl rfl
  unfold Correlator.copy
  split
  . apply hset.update
    intro cr
    exact ⟨rfl, rfl⟩
  . exact hset

theorem Paths.destroyMessage (h : Paths s) (msg : Nat) (m : RoutingMessage)
    : Paths (s.destroyMessage msg m) := by
  unfold Correlator.destroyMessage
  cases m.tracker with
  | none => exact h.of_eq rfl rfl rfl
  | some id => exact (h.detach id msg).of_eq rfl rfl rfl

theorem Paths.handle (h : Paths s) (msg : Nat) (m : RoutingMessage) (now : Int)
    : Paths (s.handle msg m now).1 := by
  unfold Correlator.handle
  cases m.type with
  | connection => exact h
  | disconnection => exact h.removeAll _
  | message =>
    dsimp only
    split
    . cases hlookup : s.lookup m.message.ref with
      | none => exact h
      | some cr => exact h.reply hlookup
    . split
      . have hopen := h.openCorrelation m.message.id m.path now
        unfold openRequest
        dsimp only
        split
        . exact hopen.track _ _ _
        . exact hopen
      . exact h

theorem Paths.create (h : Paths s) {msg : Nat} {m : RoutingMessage} (hcreate : s.create msg m = some s')
    : Paths s' := by
  unfold Correlator.create at hcreate
  split at hcreate
  . cases hcreate
    exact h.of_eq rfl rfl rfl
  . cases hcreate

theorem Paths.step (h : Paths s) {a : Action} (hstep : Correlator.step s a = some s') : Paths s' := by
  cases a with
  | receive msg message path =>
    simp only [Correlator.step] at hstep
    split at hstep
    . exact h.create hstep
    . cases hstep
  | disconnect msg path => exact h.create hstep
  | respond msg dest text =>
    simp only [Correlator.step] at hstep
    split at hstep
    . exact h.create hstep
    . cases hstep
  | copy msg dest =>
    simp only [Correlator.step] at hstep
    split at hstep
    . split at hstep
      . cases hstep
        apply h.copy
      . cases hstep
    . cases hstep
  | publish msg dest path =>
    simp only [Correlator.step] at hstep
    split at hstep
    next m hm =>
      rw [Option.map_eq_some_iff] at hstep
      obtain ⟨s1, hcreate, rfl⟩ := hstep
      have hs1 := h.create hcreate
      split
      . exact hs1.track _ _ _
      . exact hs1
    . cases hstep
  | handle msg now =>
    simp only [Correlator.step] at hstep
    split at hstep
    . cases hstep
      apply h.handle
    . cases hstep
  | forwardOTMP msg =>
    simp only [Correlator.step] at hstep
    split at hstep
    next m hm =>
      have hdelivered : Paths { s with delivered := s.delivered ++ [m.message.id] } :=
        h.of_eq rfl rfl rfl
      split at hstep
      . cases hstep
        apply hdelivered.update
        intro cr
        exact ⟨rfl, rfl⟩
      . cases hstep
        exact hdelivered
    . cases hstep
  | forwardHTTP msg =>
    simp only [Correlator.step] at hstep
    split at hstep
    . split at hstep
      . cases hstep
        exact h.of_eq rfl rfl rfl
      . cases hstep
    . cases hstep
  | destroy msg =>
    simp only [Correlator.step] at hstep
    split at hstep
    . cases hstep
      apply h.destroyMessage
    . cases hstep
  | tick now =>
    cases hstep
    exact h.removeAll _

/--
A request with an ID that no other request has used gets one reply at most, which goes to its source,
and has got it when its correlation does not exist any more.
-/
theorem run_replies_once (timeout : Int) (actions : List Action) (s : Correlator)
    (hok : Runs.all step isExpected (new timeout) actions = true)
    (hrun : run timeout actions = some s)
    (id path : String) (honce : s.opened.filter (fun o => o.1 = id) = [(id, path)])
    : replies s id ≤ 1
        ∧ (s.lookup id = none → replies s id = 1)
        ∧ ∀ r ∈ s.originated, r.1.ref = id → r.2 = path := by
  have hinv : Inv id s := by
    apply Runs.run_inv_of_all _ (inv_new timeout id) hok hrun
    intro s a s' h hok hstep
    exact h.step hok hstep
  have hpaths : Paths s := by
    apply Runs.run_inv _ (paths_new timeout) hrun
    intro s a s' h hstep
    exact h.step hstep
  have hopens : opens s id = 1 := by
    unfold opens
    rw [List.countP_eq_length_filter, honce]
    rfl
  refine ⟨?_, ?_, ?_⟩
  . rcases hinv.once hopens with ⟨-, hreplies⟩ | ⟨cr, -, -, hreplies⟩
    . omega
    . rw [hreplies]
      split
      . exact Nat.le_refl 1
      . exact Nat.zero_le 1
  . intro hnone
    rcases hinv.once hopens with ⟨-, hreplies⟩ | ⟨cr, hentries, -, -⟩
    . exact hreplies
    . rw [lookup_eq_head, hentries] at hnone
      cases hnone
  . intro r hr href
    have hmem : (r.1.ref, r.2) ∈ s.opened.filter (fun o => o.1 = id) :=
      List.mem_filter.mpr ⟨hpaths.replied r hr, decide_eq_true href⟩
    rw [honce, List.mem_singleton, Prod.mk.injEq] at hmem
    exact hmem.2

-- A subscriber gets a request and responds, and responds again
def subscriberRun : List Action :=
  [.receive 0 { id := "a", ref := "", rsvp := true, text := "?" } "otmp", .handle 0 0,
    .publish 0 1 "subscriber", .forwardOTMP 1, .destroy 1, .destroy 0,
    .receive 2 { id := "b", ref := "a", rsvp := false, text := "!" } "subscriber", .handle 2 1,
    .destroy 2, .receive 3 { id := "c", ref := "a", rsvp := false, text := "!!" } "subscriber",
    .handle 3 2, .tick 100]

theorem run_replies_once_subscriber
    : ∃ s, run 60 subscriberRun = some s
        ∧ s.originated = [({ id := "b", ref := "a", rsvp := false, text := "!" }, "otmp")]
        ∧ replies s "a" ≤ 1 ∧ (s.lookup "a" = none → replies s "a" = 1) := by
  have hmap : (run 60 subscriberRun).map (fun s => (s.originated, s.opened))
      = some ([({ id := "b", ref := "a", rsvp := false, text := "!" }, "otmp")], [("a", "otmp")]) := by
    decide
  obtain ⟨s, hrun, hs⟩ := Option.map_eq_some_iff.mp hmap
  rw [Prod.mk.injEq] at hs
  have honce := run_replies_once 60 subscriberRun s (by decide) hrun "a" "otmp" (by
    rw [hs.2]
    decide)
  exact ⟨s, hrun, hs.1, honce.1, honce.2.1⟩

-- The subscriber uses HTTP, and nobody is told that the request has been forwarded
def httpRun : List Action :=
  [.receive 0 { id := "a", ref := "", rsvp := true, text := "?" } "otmp", .handle 0 0,
    .publish 0 1 "subscriber", .forwardHTTP 1, .destroy 1, .destroy 0,
    .receive 2 { id := "b", ref := "a", rsvp := false, text := "!" } "subscriber", .handle 2 1]

theorem run_replies_twice
    : ¬(∀ (timeout : Int) (actions : List Action) (s : Correlator), run timeout actions = some s →
        ∀ id path, s.opened.filter (fun o => o.1 = id) = [(id, path)] → replies s id ≤ 1) := by
  intro h
  have hmap : (run 60 httpRun).map (fun s => (replies s "a", s.opened)) = some (2, [("a", "otmp")]) := by
    decide
  obtain ⟨s, hrun, hs⟩ := Option.map_eq_some_iff.mp hmap
  rw [Prod.mk.injEq] at hs
  have hone := h 60 httpRun s hrun "a" "otmp" (by
    rw [hs.2]
    decide)
  omega

end Correlator
end XMLMesh
end ObTools
