import ObTools.XMLMesh.Correlator

/-!
This module contains the invariant of the correlator for one ID: the correlation, the copies of the
request that it tracks and the replies that there have been fit together after each step.
-/

namespace ObTools
namespace XMLMesh
namespace Correlator

variable {s s' : Correlator} {id : String}

/-
What there is of one ID: its correlation, the number of its replies, and how often it has been opened.
-/

def entries (s : Correlator) (id : String) : List Correlation :=
  s.requestCache.filter fun cr => cr.id = id

def replies (s : Correlator) (id : String) : Nat := s.originated.countP fun r => r.1.ref = id

def opens (s : Correlator) (id : String) : Nat := s.opened.countP fun o => o.1 = id

-- A correlation has replied if there is nothing left that a response could come from
def Correlation.Fits (cr : Correlation) : Prop :=
  cr.replied = true ↔ cr.copies = [] ∧ cr.forwarded = false

structure Inv (id : String) (s : Correlator) : Prop where
  fresh : opens s id = 0 → entries s id = [] ∧ replies s id = 0
  once : opens s id = 1 →
    (entries s id = [] ∧ replies s id = 1)
      ∨ ∃ cr, entries s id = [cr] ∧ Correlation.Fits cr
          ∧ replies s id = if cr.replied then 1 else 0
  tracked : opens s id ≤ 1 → ∀ msg m, s.messages msg = some m → m.tracker = some id →
    ∃ cr ∈ entries s id, msg ∈ cr.copies
  -- A request is tracked under its own ID
  message_id : opens s id ≤ 1 → ∀ msg m, s.messages msg = some m → m.tracker = some id →
    m.message.id = id

theorem inv_new (timeout : Int) (id : String) : Inv id (new timeout) where
  fresh := fun _ => ⟨rfl, rfl⟩
  once := nofun
  tracked := nofun
  message_id := nofun

/-
A step that has nothing to do with an ID; messages that it tracks can only go.
-/
structure Frame (id : String) (s s' : Correlator) : Prop where
  entries_eq : entries s' id = entries s id
  replies_eq : replies s' id = replies s id
  opens_eq : opens s' id = opens s id
  tracked : ∀ msg m', s'.messages msg = some m' → m'.tracker = some id →
    ∃ m, s.messages msg = some m ∧ m.tracker = some id ∧ m.message.id = m'.message.id

theorem Frame.refl (id : String) (s : Correlator) : Frame id s s where
  entries_eq := rfl
  replies_eq := rfl
  opens_eq := rfl
  tracked := fun _ m' hm' htracker => ⟨m', hm', htracker, rfl⟩

theorem Frame.trans {s1 s2 s3 : Correlator} (h1 : Frame id s1 s2) (h2 : Frame id s2 s3)
    : Frame id s1 s3 where
  entries_eq := h2.entries_eq.trans h1.entries_eq
  replies_eq := h2.replies_eq.trans h1.replies_eq
  opens_eq := h2.opens_eq.trans h1.opens_eq
  tracked := by
    intro msg m3 hm3 ht3
    obtain ⟨m2, hm2, ht2, hid2⟩ := h2.tracked msg m3 hm3 ht3
    obtain ⟨m1, hm1, ht1, hid1⟩ := h1.tracked msg m2 hm2 ht2
    exact ⟨m1, hm1, ht1, hid1.trans hid2⟩

theorem Inv.frame (h : Inv id s) (hframe : Frame id s s') : Inv id s' where
  fresh := by
    rw [hframe.opens_eq, hframe.entries_eq, hframe.replies_eq]
    exact h.fresh
  once := by
    rw [hframe.opens_eq, hframe.entries_eq, hframe.replies_eq]
    exact h.once
  tracked := by
    rw [hframe.opens_eq, hframe.entries_eq]
    intro hle msg m' hm' htracker
    obtain ⟨m, hm, ht, -⟩ := hframe.tracked msg m' hm' htracker
    exact h.tracked hle msg m hm ht
  message_id := by
    rw [hframe.opens_eq]
    intro hle msg m' hm' htracker
    obtain ⟨m, hm, ht, hid⟩ := hframe.tracked msg m' hm' htracker
    rw [← hid]
    exact h.message_id hle msg m hm ht

/-
The functions of the tracker.
-/

theorem update_entries_ne {f : Correlation → Correlation} (hf : ∀ cr, (f cr).id = cr.id)
    {other : String} (hne : other ≠ id)
    : entries (s.update other f) id = entries s id := by
  unfold entries update
  dsimp only
  induction s.requestCache with
  | nil => rfl
  | cons cr cs ih =>
    rw [List.map_cons, List.filter_cons, List.filter_cons, ih]
    by_cases hother : cr.id = other
    . simp [hother, hf, hne]
    . simp [hother]

theorem update_entries_self {f : Correlation → Correlation} (hf : ∀ cr, (f cr).id = cr.id)
    : entries (s.update id f) id = (entries s id).map f := by
  unfold entries update
  dsimp only
  induction s.requestCache with
  | nil => rfl
  | cons cr cs ih =>
    rw [List.map_cons, List.filter_cons, List.filter_cons, ih]
    by_cases hid : cr.id = id
    . simp [hid, hf]
    . simp [hid]

theorem frame_update {f : Correlation → Correlation} (hf : ∀ cr, (f cr).id = cr.id)
    {other : String} (hne : other ≠ id)
    : Frame id s (s.update other f) where
  entries_eq := update_entries_ne hf hne
  replies_eq := rfl
  opens_eq := rfl
  tracked := (Frame.refl id s).tracked

theorem lookup_id {cr : Correlation} (h : s.lookup id = some cr) : cr.id = id := by
  have hid := List.find?_some h
  exact of_decide_eq_true hid

theorem lookup_eq_head (s : Correlator) (id : String) : s.lookup id = (entries s id).head? := by
  unfold lookup entries
  rw [List.head?_filter]

theorem frame_originate {message : Message} (hne : message.ref ≠ id) (path : String)
    : Frame id s (s.originate message path) where
  entries_eq := rfl
  replies_eq := by
    unfold replies originate
    rw [List.countP_append, List.countP_singleton]
    simp [hne]
  opens_eq := rfl
  tracked := (Frame.refl id s).tracked

theorem frame_handleOrphan (s : Correlator) {cr : Correlation} (hne : cr.id ≠ id)
    : Frame id s (s.handleOrphan cr) :=
  frame_originate hne _

theorem replies_handleOrphan {cr : Correlation} (hid : cr.id = id)
    : replies (s.handleOrphan cr) id = replies s id + 1 := by
  unfold replies handleOrphan originate
  rw [List.countP_append, List.countP_singleton]
  simp [FaultMessage, hid]

theorem frame_detach {other : String} (hne : other ≠ id) (msg : Nat)
    : Frame id s (s.detach other msg) := by
  unfold detach
  cases hlookup : s.lookup other with
  | none => exact .refl id s
  | some cr =>
    have hcr := lookup_id hlookup
    dsimp only
    split
    . rw [← hcr] at hne
      apply Frame.trans (frame_handleOrphan s hne)
      rw [hcr] at hne
      apply frame_update _ hne
      intro cr
      rfl
    . apply frame_update _ hne
      intro cr
      rfl

-- A message that is not tracked under the ID is set
theorem frame_setMessage {msg : Nat} {m : RoutingMessage} (hm : m.tracker ≠ some id)
    : Frame id s (s.setMessage msg m) where
  entries_eq := rfl
  replies_eq := rfl
  opens_eq := rfl
  tracked := by
    intro msg' m'
    unfold setMessage
    dsimp only
    by_cases heq : msg' = msg
    . rw [heq, Function.update_self]
      intro hm' htracker
      cases hm'
      exact absurd htracker hm
    . rw [Function.update_of_ne heq]
      exact (Frame.refl id s).tracked msg' m'

/-
Deletion of correlations.
-/

theorem release_some {copies : List Nat} {msg : Nat} {m : RoutingMessage}
    (h : s.release copies msg = some m) (htracker : m.tracker = some id)
    : s.messages msg = some m ∧ msg ∉ copies := by
  unfold release at h
  split at h
  . rw [Option.map_eq_some_iff] at h
    obtain ⟨m', -, rfl⟩ := h
    cases htracker
  next hmem => exact ⟨h, hmem⟩

-- What the deletion of a correlation adds to the replies for an ID
def orphans (id : String) (cr : Correlation) : Bool := cr.id = id && !cr.replied

structure Destroyed (id : String) (crs : List Correlation) (s s' : Correlator) : Prop where
  requestCache : s'.requestCache = s.requestCache
  opened : s'.opened = s.opened
  replies_eq : replies s' id = replies s id + crs.countP (orphans id)
  tracked : ∀ msg m, s'.messages msg = some m → m.tracker = some id →
    s.messages msg = some m ∧ ∀ cr ∈ crs, msg ∉ cr.copies

theorem destroyed_destroy (s : Correlator) (id : String) (cr : Correlation)
    : Destroyed id [cr] s (s.destroy cr) := by
  have htracked : ∀ msg m, s.release cr.copies msg = some m → m.tracker = some id →
      s.messages msg = some m ∧ ∀ c ∈ [cr], msg ∉ c.copies := by
    intro msg m hm ht
    obtain ⟨hold, hmem⟩ := release_some hm ht
    refine ⟨hold, ?_⟩
    intro c hc
    rw [List.mem_singleton] at hc
    rw [hc]
    exact hmem
  unfold destroy
  dsimp only
  split
  next hreplied =>
    refine ⟨rfl, rfl, ?_, htracked⟩
    rw [List.countP_singleton]
    simp [orphans, hreplied, replies]
  next hreplied =>
    refine ⟨rfl, rfl, ?_, htracked⟩
    rw [List.countP_singleton]
    by_cases hid : cr.id = id
    . rw [replies_handleOrphan hid]
      simp [orphans, hid, hreplied, replies]
    . rw [(frame_handleOrphan _ hid).replies_eq]
      simp [orphans, hid, replies]

theorem destroyed_foldl (id : String) (crs : List Correlation) (s : Correlator)
    : Destroyed id crs s (crs.foldl destroy s) := by
  induction crs generalizing s with
  | nil => exact ⟨rfl, rfl, rfl, fun _ m hm _ => ⟨hm, nofun⟩⟩
  | cons cr crs ih =>
    have hone := destroyed_destroy s id cr
    have hrest := ih (s.destroy cr)
    rw [List.foldl_cons]
    constructor
    . rw [hrest.requestCache, hone.requestCache]
    . rw [hrest.opened, hone.opened]
    . rw [hrest.replies_eq, hone.replies_eq, List.countP_singleton, List.countP_cons]
      omega
    . intro msg m hm ht
      obtain ⟨hm1, hcrs⟩ := hrest.tracked msg m hm ht
      obtain ⟨hm0, hcr⟩ := hone.tracked msg m hm1 ht
      refine ⟨hm0, ?_⟩
      rw [List.forall_mem_cons]
      exact ⟨hcr cr (List.mem_singleton_self cr), hcrs⟩

theorem filter_comm (s : Correlator) (p : Correlation → Bool)
    : (s.requestCache.filter p).filter (fun cr => cr.id = id) = (entries s id).filter p := by
  unfold entries
  rw [List.filter_filter, List.filter_filter]
  congr 1
  funext cr
  rw [Bool.and_comm]

theorem removeAll_entries (p : Correlation → Bool)
    : entries (s.removeAll p) id = (entries s id).filter (fun cr => !p cr) := by
  unfold removeAll
  rw [entries, (destroyed_foldl id _ _).requestCache]
  exact filter_comm s _

theorem removeAll_replies (p : Correlation → Bool)
    : replies (s.removeAll p) id
        = replies s id + ((entries s id).filter p).countP (fun cr => !cr.replied) := by
  have hcount : (s.requestCache.filter p).countP (orphans id)
      = ((entries s id).filter p).countP (fun cr => !cr.replied) := by
    symm
    rw [← filter_comm, List.countP_filter]
    congr 1
    funext cr
    rw [Bool.and_comm]
    rfl
  unfold removeAll
  rw [(destroyed_foldl id _ _).replies_eq, hcount]
  rfl

theorem removeAll_opens (p : Correlation → Bool) : opens (s.removeAll p) id = opens s id := by
  unfold removeAll
  rw [opens, (destroyed_foldl id _ _).opened]
  rfl

theorem removeAll_tracked (p : Correlation → Bool) {msg : Nat} {m : RoutingMessage}
    (hm : (s.removeAll p).messages msg = some m) (ht : m.tracker = some id)
    : s.messages msg = some m ∧ ∀ cr ∈ entries s id, p cr = true → msg ∉ cr.copies := by
  obtain ⟨hold, hmem⟩ := (destroyed_foldl id _ _).tracked msg m hm ht
  refine ⟨hold, ?_⟩
  intro cr hcr hp
  apply hmem
  exact List.mem_filter.mpr ⟨(List.mem_filter.mp hcr).1, hp⟩

theorem Inv.removeAll (h : Inv id s) (p : Correlation → Bool) : Inv id (s.removeAll p) where
  fresh := by
    rw [removeAll_opens, removeAll_entries, removeAll_replies]
    intro hopens
    obtain ⟨hentries, hreplies⟩ := h.fresh hopens
    rw [hentries, hreplies]
    exact ⟨rfl, rfl⟩
  once := by
    rw [removeAll_opens, removeAll_entries, removeAll_replies]
    intro hopens
    rcases h.once hopens with ⟨hentries, hreplies⟩ | ⟨cr, hentries, hfits, hreplies⟩
    . rw [hentries, hreplies]
      exact .inl ⟨rfl, rfl⟩
    . rw [hentries, hreplies]
      cases hp : p cr with
      | false => exact .inr ⟨cr, by simp [hp], hfits, by simp [hp]⟩
      | true =>
        refine .inl ⟨by simp [hp], ?_⟩
        -- The orphan is only handled if there has been no reply
        cases hreplied : cr.replied with
        | false => simp [hp, hreplied]
        | true => simp [hp, hreplied]
  tracked := by
    rw [removeAll_opens, removeAll_entries]
    intro hle msg m hm ht
    obtain ⟨hold, hmem⟩ := removeAll_tracked p hm ht
    obtain ⟨cr, hcr, hcopies⟩ := h.tracked hle msg m hold ht
    refine ⟨cr, ?_, hcopies⟩
    rw [List.mem_filter]
    refine ⟨hcr, ?_⟩
    cases hp : p cr with
    | false => rfl
    | true => exact absurd hcopies (hmem cr hcr hp)
  message_id := by
    rw [removeAll_opens]
    intro hle msg m hm ht
    exact h.message_id hle msg m (removeAll_tracked p hm ht).1 ht

theorem frame_removeAll {p : Correlation → Bool} (hp : ∀ cr ∈ entries s id, p cr = false)
    : Frame id s (s.removeAll p) where
  entries_eq := by
    rw [removeAll_entries, List.filter_eq_self]
    intro cr hcr
    rw [hp cr hcr]
    rfl
  replies_eq := by
    have hnone : (entries s id).filter p = [] := by
      rw [List.filter_eq_nil_iff]
      intro cr hcr
      rw [hp cr hcr]
      decide
    rw [removeAll_replies, hnone]
    rfl
  opens_eq := removeAll_opens p
  tracked := fun msg m hm ht => ⟨m, (removeAll_tracked p hm ht).1, ht, rfl⟩

/-
The routing messages.
-/

theorem Inv.copies_ne (h : Inv id s) (hle : opens s id ≤ 1) {msg : Nat} {m : RoutingMessage}
    (hm : s.messages msg = some m) (ht : m.tracker = some id)
    : ∃ cr, entries s id = [cr] ∧ msg ∈ cr.copies ∧ opens s id = 1 ∧ Correlation.Fits cr
        ∧ cr.replied = false ∧ replies s id = 0 := by
  obtain ⟨cr, hcr, hcopies⟩ := h.tracked hle msg m hm ht
  have hopens : opens s id = 1 := by
    rcases Nat.le_one_iff_eq_zero_or_eq_one.mp hle with hzero | hone
    . rw [(h.fresh hzero).1] at hcr
      cases hcr
    . exact hone
  rcases h.once hopens with ⟨hentries, -⟩ | ⟨cr', hentries, hfits, hreplies⟩
  . rw [hentries] at hcr
    cases hcr
  . rw [hentries, List.mem_singleton] at hcr
    rw [hcr] at hcopies
    have hreplied : cr'.replied = false := by
      rw [Bool.eq_false_iff]
      intro htrue
      rw [(hfits.mp htrue).1] at hcopies
      cases hcopies
    rw [hreplied] at hreplies
    exact ⟨cr', hentries, hcopies, hopens, hfits, hreplied, hreplies⟩

theorem setMessage_messages (s : Correlator) (msg dest : Nat) (m : RoutingMessage)
    : (s.setMessage dest m).messages msg = if msg = dest then some m else s.messages msg :=
  Function.update_apply _ _ _ _

/--
A message that is tracked under the ID and attached to the correlation, as a copy of another one.
-/
theorem Inv.attach (h : Inv id s) {msg dest : Nat} {m m' : RoutingMessage}
    (hm : s.messages msg = some m) (ht : m.tracker = some id)
    (hid : m'.message.id = m.message.id)
    : Inv id ((s.setMessage dest m').attach id dest) := by
  have hmessages : ∀ msg, ((s.setMessage dest m').attach id dest).messages msg
      = if msg = dest then some m' else s.messages msg := fun msg => setMessage_messages s msg dest m'
  have hentries : entries ((s.setMessage dest m').attach id dest) id
      = (entries s id).map fun cr => { cr with copies := cr.copies ++ [dest] } :=
    update_entries_self (fun _ => rfl)
  constructor
  . intro hzero
    have hsame : opens s id = 0 := hzero
    obtain ⟨cr, -, -, hone, -⟩ := h.copies_ne (by omega) hm ht
    omega
  . intro hone
    obtain ⟨cr, hcr, hmem, -, hfits, hreplied, hreplies⟩ := h.copies_ne (Nat.le_of_eq hone) hm ht
    refine .inr ⟨_, by rw [hentries, hcr]; rfl, ?_, ?_⟩
    . simp [Correlation.Fits, hreplied]
    . dsimp only
      rw [hreplied]
      exact hreplies
  . intro hle msg' m1 hm1 ht1
    rw [hentries]
    obtain ⟨cr, hcr, hmem, -⟩ := h.copies_ne hle hm ht
    rw [hcr]
    refine ⟨_, List.mem_singleton_self _, ?_⟩
    dsimp only
    rw [hmessages] at hm1
    split at hm1
    next heq =>
      rw [heq]
      exact List.mem_append_right _ (List.mem_singleton_self dest)
    . obtain ⟨cr', hcr', hmem', -⟩ := h.copies_ne hle hm1 ht1
      rw [hcr] at hcr'
      cases hcr'
      exact List.mem_append_left _ hmem'
  . intro hle msg' m1 hm1 ht1
    rw [hmessages] at hm1
    split at hm1
    . cases hm1
      rw [hid]
      exact h.message_id hle msg m hm ht
    . exact h.message_id hle msg' m1 hm1 ht1

theorem detach_messages (s : Correlator) (id : String) (msg : Nat)
    : (s.detach id msg).messages = s.messages ∧ (s.detach id msg).opened = s.opened := by
  unfold detach
  split
  . dsimp only
    split
    . exact ⟨rfl, rfl⟩
    . exact ⟨rfl, rfl⟩
  . exact ⟨rfl, rfl⟩

/--
The last copy of a request that is neither forwarded nor replied to makes it an orphan.
-/
theorem detach_spec {cr : Correlation} (hentries : entries s id = [cr]) (hreplied : cr.replied = false)
    (msg : Nat)
    : ∃ cr', entries (s.detach id msg) id = [cr'] ∧ cr'.copies = cr.copies.filter (· ≠ msg)
        ∧ Correlation.Fits cr'
        ∧ replies (s.detach id msg) id = replies s id + if cr'.replied then 1 else 0 := by
  have hlookup : s.lookup id = some cr := by
    rw [lookup_eq_head, hentries]
    rfl
  have hcr := lookup_id hlookup
  unfold detach
  rw [hlookup]
  dsimp only
  split
  next horphan =>
    refine ⟨{ cr with copies := cr.copies.filter (· ≠ msg), replied := true }, ?_, rfl, ?_, ?_⟩
    . rw [update_entries_self]
      . have hsame : entries (s.handleOrphan cr) id = [cr] := hentries
        rw [hsame]
        rfl
      . intro cr
        rfl
    . simp only [Correlation.Fits, true_iff]
      exact ⟨horphan.1, horphan.2.1⟩
    . exact replies_handleOrphan hcr
  next horphan =>
    refine ⟨{ cr with copies := cr.copies.filter (· ≠ msg) }, ?_, rfl, ?_, ?_⟩
    . rw [update_entries_self]
      . rw [hentries]
        rfl
      . intro cr
        rfl
    . simp only [Correlation.Fits, hreplied, false_iff, Bool.false_eq_true]
      rintro ⟨hcopies, hforwarded⟩
      exact horphan ⟨hcopies, hforwarded, hreplied⟩
    . rw [hreplied]
      rfl

theorem Inv.destroyMessage (h : Inv id s) {msg : Nat} {m : RoutingMessage}
    (hm : s.messages msg = some m) (ht : m.tracker = some id)
    : Inv id (s.destroyMessage msg m) := by
  obtain ⟨hdetached, hopened⟩ := detach_messages s id msg
  unfold Correlator.destroyMessage
  rw [ht]
  dsimp only
  rw [hdetached]
  -- The other messages are as they have been
  have hold : ∀ msg' m1, Function.update s.messages msg none msg' = some m1 →
      s.messages msg' = some m1 ∧ msg' ≠ msg := by
    intro msg' m1 hm1
    by_cases heq : msg' = msg
    . rw [heq, Function.update_self] at hm1
      cases hm1
    . rw [Function.update_of_ne heq] at hm1
      exact ⟨hm1, heq⟩
  have hopens : opens (s.detach id msg) id = opens s id := by
    unfold opens
    rw [hopened]
  constructor
  . intro hzero
    replace hzero : opens s id = 0 := hopens.symm.trans hzero
    obtain ⟨cr, -, -, hone, -⟩ := h.copies_ne (by omega) hm ht
    omega
  . intro hone
    replace hone : opens s id = 1 := hopens.symm.trans hone
    obtain ⟨cr, hcr, -, -, -, hreplied, hreplies⟩ := h.copies_ne (by omega) hm ht
    obtain ⟨cr', hcr', -, hfits', hreplies'⟩ := detach_spec hcr hreplied msg
    rw [hreplies, Nat.zero_add] at hreplies'
    exact .inr ⟨cr', hcr', hfits', hreplies'⟩
  . intro hle msg' m1 hm1 ht1
    replace hle : opens s id ≤ 1 := hopens.symm.le.trans hle
    obtain ⟨hm1, hne⟩ := hold msg' m1 hm1
    obtain ⟨cr, hcr, -, -, -, hreplied, -⟩ := h.copies_ne hle hm ht
    obtain ⟨cr', hcr', hcopies', -, -⟩ := detach_spec hcr hreplied msg
    obtain ⟨cr1, hcr1, hmem1, -⟩ := h.copies_ne hle hm1 ht1
    rw [hcr] at hcr1
    cases hcr1
    have hentries : entries (s.detach id msg) id = [cr'] := hcr'
    refine ⟨cr', ?_, ?_⟩
    . show cr' ∈ entries (s.detach id msg) id
      rw [hentries]
      exact List.mem_singleton_self cr'
    . rw [hcopies', List.mem_filter]
      exact ⟨hmem1, by simpa using hne⟩
  . intro hle msg' m1 hm1 ht1
    replace hle : opens s id ≤ 1 := hopens.symm.le.trans hle
    exact h.message_id hle msg' m1 (hold msg' m1 hm1).1 ht1

theorem Inv.notifyForwarded (h : Inv id s) {msg : Nat} {m : RoutingMessage}
    (hm : s.messages msg = some m) (ht : m.tracker = some id)
    : Inv id (s.notifyForwarded id) := by
  have hentries : entries (s.notifyForwarded id) id
      = (entries s id).map fun cr => { cr with forwarded := true } :=
    update_entries_self (fun _ => rfl)
  constructor
  . intro hzero
    have hsame : opens s id = 0 := hzero
    obtain ⟨cr, -, -, hone, -⟩ := h.copies_ne (by omega) hm ht
    omega
  . intro hone
    obtain ⟨cr, hcr, hmem, -, hfits, hreplied, hreplies⟩ := h.copies_ne (Nat.le_of_eq hone) hm ht
    refine .inr ⟨_, by rw [hentries, hcr]; rfl, ?_, ?_⟩
    . simp [Correlation.Fits, hreplied]
    . dsimp only
      rw [hreplied]
      exact hreplies
  . intro hle msg' m1 hm1 ht1
    rw [hentries]
    obtain ⟨cr, hcr, hmem, -⟩ := h.copies_ne hle hm1 ht1
    rw [hcr]
    exact ⟨_, List.mem_singleton_self _, hmem⟩
  . exact h.message_id

/-
The handler of the correlator.
-/

theorem lookup_mem {cr : Correlation} (h : s.lookup id = some cr) : cr ∈ entries s id := by
  rw [lookup_eq_head] at h
  exact List.mem_of_mem_head? h

theorem reply_destroyed (s : Correlator) (m : RoutingMessage) (cr : Correlation) (id : String)
    : Destroyed id [{ cr with replied := true }]
        (originate { s with requestCache := s.requestCache.filter fun c => c.id ≠ cr.id } m.message
          cr.sourcePath)
        (s.reply m cr) :=
  destroyed_destroy _ id _

theorem reply_entries (s : Correlator) (m : RoutingMessage) (cr : Correlation) (id : String)
    : entries (s.reply m cr) id = (entries s id).filter fun c => c.id ≠ cr.id := by
  rw [entries, (reply_destroyed s m cr id).requestCache]
  exact filter_comm s _

theorem reply_replies (s : Correlator) (m : RoutingMessage) (cr : Correlation) (id : String)
    : replies (s.reply m cr) id = replies s id + if m.message.ref = id then 1 else 0 := by
  rw [(reply_destroyed s m cr id).replies_eq]
  simp only [replies, originate, List.countP_append, List.countP_singleton, decide_eq_true_eq,
    orphans, Bool.not_true, Bool.and_false, Bool.false_eq_true, if_false, Nat.add_zero]

theorem reply_opens (s : Correlator) (m : RoutingMessage) (cr : Correlation) (id : String)
    : opens (s.reply m cr) id = opens s id := by
  rw [opens, (reply_destroyed s m cr id).opened]
  rfl

theorem frame_reply {m : RoutingMessage} {cr : Correlation} (href : m.message.ref = cr.id)
    (hne : cr.id ≠ id)
    : Frame id s (s.reply m cr) where
  entries_eq := by
    rw [reply_entries, List.filter_eq_self]
    intro c hc
    have hid : c.id = id := of_decide_eq_true (List.mem_filter.mp hc).2
    rw [hid]
    exact decide_eq_true hne.symm
  replies_eq := by
    rw [reply_replies, href, if_neg hne]
    rfl
  opens_eq := reply_opens s m cr id
  tracked := fun msg m1 hm1 ht1 =>
    ⟨m1, ((reply_destroyed s m cr id).tracked msg m1 hm1 ht1).1, ht1, rfl⟩

/--
The response is the first reply if the request could still be answered.
-/
theorem Inv.reply (h : Inv id s) {m : RoutingMessage} (href : m.message.ref = id) {cr : Correlation}
    (hlookup : s.lookup id = some cr) (hopen : cr.forwarded = true ∨ cr.copies ≠ [])
    : Inv id (s.reply m cr) := by
  have hmem := lookup_mem hlookup
  have hcr := lookup_id hlookup
  have hnil : entries (s.reply m cr) id = [] := by
    rw [reply_entries, List.filter_eq_nil_iff]
    intro c hc
    have hid : c.id = id := of_decide_eq_true (List.mem_filter.mp hc).2
    rw [hid, hcr]
    simp
  have hnone : opens s id ≤ 1 → ∀ msg m1, (s.reply m cr).messages msg = some m1 →
      m1.tracker ≠ some id := by
    intro hle msg m1 hm1 ht1
    obtain ⟨hold, hreleased⟩ := (reply_destroyed s m cr id).tracked msg m1 hm1 ht1
    obtain ⟨cr1, hcr1, hmem1, -⟩ := h.copies_ne hle hold ht1
    rw [hcr1, List.mem_singleton] at hmem
    rw [hmem] at hreleased
    exact hreleased _ (List.mem_singleton_self _) hmem1
  constructor
  . rw [reply_opens]
    intro hzero
    rw [(h.fresh hzero).1] at hmem
    cases hmem
  . rw [reply_opens]
    intro hone
    left
    refine ⟨hnil, ?_⟩
    rcases h.once hone with ⟨hentries, -⟩ | ⟨cr1, hentries, hfits, hreplies⟩
    . rw [hentries] at hmem
      cases hmem
    . rw [hentries, List.mem_singleton] at hmem
      rw [← hmem] at hfits hreplies
      have hreplied : cr.replied = false := by
        rw [Bool.eq_false_iff]
        intro htrue
        obtain ⟨hcopies, hforwarded⟩ := hfits.mp htrue
        rcases hopen with hopen | hopen
        . rw [hforwarded] at hopen
          cases hopen
        . exact hopen hcopies
      rw [hreplied] at hreplies
      rw [reply_replies, hreplies, href, if_pos rfl]
      rfl
  . rw [reply_opens]
    intro hle msg m1 hm1 ht1
    exact absurd ht1 (hnone hle msg m1 hm1)
  . rw [reply_opens]
    intro hle msg m1 hm1 ht1
    exact absurd ht1 (hnone hle msg m1 hm1)

theorem insert_filter_neg {p : Correlation → Bool} {cr : Correlation} (hp : p cr = false)
    (crs : List Correlation)
    : (insert cr crs).filter p = crs.filter p := by
  induction crs with
  | nil => simp [insert, hp]
  | cons c cs ih =>
    unfold insert
    split
    . simp [hp]
    . rw [List.filter_cons, List.filter_cons, ih]

theorem insert_filter_nil {p : Correlation → Bool} {cr : Correlation} (hp : p cr = true)
    {crs : List Correlation} (hnil : crs.filter p = [])
    : (insert cr crs).filter p = [cr] := by
  induction crs with
  | nil => simp [insert, hp]
  | cons c cs ih =>
    rw [List.filter_cons] at hnil
    split at hnil
    . cases hnil
    next hc =>
      unfold insert
      split
      . simp [hp, hc, hnil]
      . rw [List.filter_cons, if_neg hc]
        exact ih hnil

theorem frame_add {cr : Correlation} (hne : cr.id ≠ id) : Frame id s (s.add cr) := by
  have hremove : Frame id s (s.remove cr.id) := by
    apply frame_removeAll
    intro c hc
    have hid : c.id = id := of_decide_eq_true (List.mem_filter.mp hc).2
    rw [hid]
    exact decide_eq_false hne.symm
  constructor
  . rw [← hremove.entries_eq]
    exact insert_filter_neg (decide_eq_false hne) _
  . exact hremove.replies_eq
  . exact hremove.opens_eq
  . exact hremove.tracked

theorem frame_untrack {msg : Nat} {m : RoutingMessage} (hne : m.tracker ≠ some id)
    : Frame id s (s.untrack msg m) := by
  unfold untrack
  cases htracker : m.tracker with
  | none => exact .refl id s
  | some other =>
    rw [htracker] at hne
    dsimp only
    apply Frame.trans (frame_detach (fun heq => hne (congrArg some heq)) msg)
    apply frame_setMessage
    nofun

theorem frame_track {msg : Nat} {m : RoutingMessage} (hm : m.tracker ≠ some id) {other : String}
    (hne : other ≠ id)
    : Frame id s (s.track msg m other) := by
  unfold track
  apply Frame.trans (frame_untrack hm)
  have hset : Frame id (s.untrack msg m)
      ((s.untrack msg m).setMessage msg { m with tracker := some other }) := by
    apply frame_setMessage
    intro heq
    exact hne (Option.some_inj.mp heq)
  apply hset.trans
  apply frame_update _ hne
  intro cr
  rfl

theorem untrack_opened (s : Correlator) (msg : Nat) (m : RoutingMessage)
    : (s.untrack msg m).opened = s.opened := by
  unfold untrack
  split
  . exact (detach_messages s _ msg).2
  . rfl

theorem openCorrelation_opened (s : Correlator) (id path : String) (now : Int)
    : (s.openCorrelation id path now).opened = s.opened ++ [(id, path)] := by
  have hadd : (s.add (.new id path now)).opened = s.opened := (destroyed_foldl id _ _).opened
  unfold openCorrelation
  dsimp only
  rw [hadd]

theorem track_opened (s : Correlator) (msg : Nat) (m : RoutingMessage) (id : String)
    : (s.track msg m id).opened = s.opened := untrack_opened s msg m

theorem openRequest_opened (s : Correlator) (msg : Nat) (m : RoutingMessage) (now : Int)
    : (s.openRequest msg m now).opened = s.opened ++ [(m.message.id, m.path)] := by
  unfold openRequest
  dsimp only
  split
  . rw [track_opened, openCorrelation_opened]
  . rw [openCorrelation_opened]

theorem openRequest_opens (s : Correlator) (msg : Nat) (m : RoutingMessage) (now : Int) (id : String)
    : opens (s.openRequest msg m now) id
        = opens s id + if m.message.id = id then 1 else 0 := by
  unfold opens
  rw [openRequest_opened, List.countP_append, List.countP_singleton]
  simp only [decide_eq_true_eq]

theorem frame_openCorrelation {other : String} (hne : other ≠ id) (path : String) (now : Int)
    : Frame id s (s.openCorrelation other path now) := by
  have hadd : Frame id s (s.add (.new other path now)) := frame_add hne
  constructor
  . exact hadd.entries_eq
  . exact hadd.replies_eq
  . unfold opens
    rw [openCorrelation_opened, List.countP_append, List.countP_singleton]
    simp [hne]
  . exact hadd.tracked

/--
A request with another ID is not tracked under this one.
-/
theorem Inv.openRequest_ne (h : Inv id s) {msg : Nat} {m : RoutingMessage}
    (hm : s.messages msg = some m) (hne : m.message.id ≠ id) (now : Int)
    : Inv id (s.openRequest msg m now) := by
  by_cases hle : opens s id ≤ 1
  . apply h.frame
    have hopened := frame_openCorrelation hne m.path now (s := s)
    unfold openRequest
    dsimp only
    split
    next m1 hm1 =>
      apply hopened.trans
      apply frame_track _ hne
      intro ht1
      obtain ⟨m0, hm0, ht0, -⟩ := hopened.tracked msg m1 hm1 ht1
      rw [hm] at hm0
      cases hm0
      exact hne (h.message_id hle msg m hm ht0)
    . exact hopened
  . have hopens : opens (s.openRequest msg m now) id = opens s id := by
      rw [openRequest_opens, if_neg hne]
      rfl
    rw [← hopens] at hle
    constructor
    . intro hzero
      omega
    . intro hone
      omega
    . intro hle'
      exact absurd hle' hle
    . intro hle'
      exact absurd hle' hle

/--
Nothing is deleted for an ID that is not in use.
-/
theorem remove_of_nil (hnil : entries s id = [])
    : s.remove id = { s with requestCache := s.requestCache.filter fun cr => !(cr.id = id) } := by
  unfold remove removeAll
  unfold entries at hnil
  rw [hnil]
  rfl

theorem openCorrelation_fresh (hnil : entries s id = []) (path : String) (now : Int)
    : entries (s.openCorrelation id path now) id = [.new id path now]
        ∧ (s.openCorrelation id path now).messages = s.messages
        ∧ (s.openCorrelation id path now).originated = s.originated := by
  unfold openCorrelation add
  have hid : (Correlation.new id path now).id = id := rfl
  rw [hid, remove_of_nil hnil]
  refine ⟨?_, rfl, rfl⟩
  apply insert_filter_nil
  . exact decide_eq_true hid
  . rw [List.filter_filter, List.filter_eq_nil_iff]
    intro cr _
    simp

/--
The message is the only copy of a request with a new ID.
-/
theorem Inv.track_fresh {s1 : Correlator} {cr : Correlation} (hentries : entries s1 id = [cr])
    (hreplied : cr.replied = false) (hcopies : cr.copies = []) (hreplies : replies s1 id = 0)
    (hopens : opens s1 id = 1) (hnone : ∀ msg m, s1.messages msg = some m → m.tracker ≠ some id)
    {msg : Nat} {m : RoutingMessage} (hm : s1.messages msg = some m) (hid : m.message.id = id)
    : Inv id (s1.track msg m id) := by
  have huntrack : Frame id s1 (s1.untrack msg m) := frame_untrack (hnone msg m hm)
  have hmessages : ∀ msg', (s1.track msg m id).messages msg'
      = if msg' = msg then some { m with tracker := some id } else (s1.untrack msg m).messages msg' :=
    fun msg' => setMessage_messages _ msg' msg _
  have hnew : entries (s1.track msg m id) id = [{ cr with copies := [msg] }] := by
    have hattach : entries (s1.track msg m id) id = (entries (s1.untrack msg m) id).map
        fun cr => { cr with copies := cr.copies ++ [msg] } := update_entries_self (fun _ => rfl)
    rw [hattach, huntrack.entries_eq, hentries, List.map_singleton, hcopies]
    rfl
  have htracked : ∀ msg' m1, (s1.track msg m id).messages msg' = some m1 → m1.tracker = some id →
      msg' = msg ∧ m1.message.id = id := by
    intro msg' m1 hm1 ht1
    rw [hmessages] at hm1
    split at hm1
    next heq =>
      cases hm1
      exact ⟨heq, hid⟩
    . obtain ⟨m0, hm0, ht0, -⟩ := huntrack.tracked msg' m1 hm1 ht1
      exact absurd ht0 (hnone msg' m0 hm0)
  have hopens' : opens (s1.track msg m id) id = 1 := huntrack.opens_eq.trans hopens
  constructor
  . intro hzero
    omega
  . intro _
    refine .inr ⟨_, hnew, ?_, ?_⟩
    . simp [Correlation.Fits, hreplied]
    . dsimp only
      rw [hreplied]
      exact huntrack.replies_eq.trans hreplies
  . intro _ msg' m1 hm1 ht1
    rw [hnew]
    refine ⟨_, List.mem_singleton_self _, ?_⟩
    rw [(htracked msg' m1 hm1 ht1).1]
    exact List.mem_singleton_self msg
  . intro _ msg' m1 hm1 ht1
    exact (htracked msg' m1 hm1 ht1).2

theorem Inv.openRequest_self (h : Inv id s) {msg : Nat} {m : RoutingMessage}
    (hm : s.messages msg = some m) (hid : m.message.id = id) (now : Int)
    : Inv id (s.openRequest msg m now) := by
  have hopens : opens (s.openRequest msg m now) id = opens s id + 1 := by
    rw [openRequest_opens, if_pos hid]
  by_cases hzero : opens s id = 0
  . obtain ⟨hnil, hreplies⟩ := h.fresh hzero
    obtain ⟨hentries, hmessages, horiginated⟩ := openCorrelation_fresh hnil m.path now
    have hnone : ∀ msg' m1, s.messages msg' = some m1 → m1.tracker ≠ some id := by
      intro msg' m1 hm1 ht1
      obtain ⟨cr, -, -, hone, -⟩ := h.copies_ne (by omega) hm1 ht1
      omega
    unfold openRequest
    dsimp only
    rw [hid, hmessages, hm]
    dsimp only
    apply Inv.track_fresh hentries rfl rfl
    . unfold replies
      rw [horiginated]
      exact hreplies
    . unfold opens
      rw [openCorrelation_opened, List.countP_append, List.countP_singleton]
      unfold opens at hzero
      rw [hzero]
      simp
    . rw [hmessages]
      exact hnone
    . rw [hmessages]
      exact hm
    . exact hid
  . constructor
    . intro hzero'
      omega
    . intro hone
      omega
    . intro hle
      omega
    . intro hle
      omega

/-
A response that the correlator gets is for a request that has been forwarded, as far as is known, or
that still has a copy.
-/
def isExpected (s : Correlator) : Action → Bool
  | .handle msg _ =>
    match s.messages msg with
    | some m =>
      match s.lookup m.message.ref with
      | some cr => m.type ≠ .message || m.message.ref = "" || cr.forwarded || cr.copies ≠ []
      | none => true
    | none => true
  | _ => true

theorem Inv.handle (h : Inv id s) {msg : Nat} {m : RoutingMessage} (hm : s.messages msg = some m)
    (now : Int) (hok : isExpected s (.handle msg now) = true)
    : Inv id (s.handle msg m now).1 := by
  unfold Correlator.handle
  cases htype : m.type with
  | connection => exact h
  | disconnection => exact h.removeAll _
  | message =>
    dsimp only
    split
    next href =>
      cases hlookup : s.lookup m.message.ref with
      | none => exact h
      | some cr =>
        dsimp only
        have hcr := lookup_id hlookup
        by_cases hid : cr.id = id
        . have href' : m.message.ref = id := hcr.symm.trans hid
          apply h.reply href'
          . rw [← href']
            exact hlookup
          . simpa [isExpected, hm, hlookup, htype, href] using hok
        . exact h.frame (frame_reply hcr.symm hid)
    . split
      . by_cases hid : m.message.id = id
        . exact h.openRequest_self hm hid now
        . exact h.openRequest_ne hm hid now
      . exact h

theorem frame_create {msg : Nat} {m : RoutingMessage} (hm : m.tracker = none)
    (h : s.create msg m = some s')
    : Frame id s s' := by
  unfold create at h
  split at h
  . cases h
    apply frame_setMessage
    rw [hm]
    nofun
  . cases h

theorem Inv.copy (h : Inv id s) {msg : Nat} {m m' : RoutingMessage} (hm : s.messages msg = some m)
    (htracker : m'.tracker = m.tracker) (hid : m'.message.id = m.message.id) (dest : Nat)
    : Inv id (s.copy m' dest) := by
  unfold Correlator.copy
  cases ht : m.tracker with
  | none =>
    rw [htracker, ht]
    apply h.frame
    apply frame_setMessage
    rw [htracker, ht]
    nofun
  | some other =>
    rw [htracker, ht]
    dsimp only
    by_cases hother : other = id
    . rw [hother] at ht ⊢
      exact h.attach hm ht hid
    . have hset : Frame id s (s.setMessage dest m') := by
        apply frame_setMessage
        rw [htracker, ht]
        exact fun heq => hother (Option.some_inj.mp heq)
      apply h.frame
      apply hset.trans
      apply frame_update _ hother
      intro cr
      rfl

-- The publisher makes a copy with another path
theorem track_returned (s : Correlator) (dest : Nat) (message : Message) (path id : String)
    : (s.setMessage dest (.returned message path)).track dest (.returned message path) id
        = s.copy { RoutingMessage.returned message path with tracker := some id } dest := by
  have hset : (s.setMessage dest (.returned message path)).setMessage dest
      { RoutingMessage.returned message path with tracker := some id }
      = s.setMessage dest { RoutingMessage.returned message path with tracker := some id } := by
    simp only [setMessage, Function.update_idem]
  have huntrack : (s.setMessage dest (.returned message path)).untrack dest
      (.returned message path) = s.setMessage dest (.returned message path) := rfl
  unfold track Correlator.copy
  rw [huntrack, hset]

theorem frame_destroyMessage {msg : Nat} {m : RoutingMessage} (hne : m.tracker ≠ some id)
    : Frame id s (s.destroyMessage msg m) := by
  have hforget {s' : Correlator} (hdetach : Frame id s s')
      : Frame id s { s' with messages := Function.update s'.messages msg none } := by
    refine ⟨hdetach.entries_eq, hdetach.replies_eq, hdetach.opens_eq, ?_⟩
    intro msg' m1 hm1
    dsimp only at hm1
    by_cases heq : msg' = msg
    . rw [heq, Function.update_self] at hm1
      cases hm1
    . rw [Function.update_of_ne heq] at hm1
      exact hdetach.tracked msg' m1 hm1
  unfold Correlator.destroyMessage
  cases ht : m.tracker with
  | none => exact hforget (.refl id s)
  | some other =>
    rw [ht] at hne
    exact hforget (frame_detach (fun heq => hne (congrArg some heq)) msg)

theorem Inv.step (h : Inv id s) {a : Action} (hok : isExpected s a = true)
    (hstep : Correlator.step s a = some s')
    : Inv id s' := by
  cases a with
  | receive msg message path =>
    simp only [Correlator.step] at hstep
    split at hstep
    . exact h.frame (frame_create rfl hstep)
    . cases hstep
  | disconnect msg path => exact h.frame (frame_create rfl hstep)
  | respond msg dest text =>
    simp only [Correlator.step] at hstep
    split at hstep
    . exact h.frame (frame_create rfl hstep)
    . cases hstep
  | copy msg dest =>
    simp only [Correlator.step] at hstep
    split at hstep
    next m hm =>
      split at hstep
      . cases hstep
        exact h.copy hm rfl rfl dest
      . cases hstep
    . cases hstep
  | publish msg dest path =>
    simp only [Correlator.step, create] at hstep
    split at hstep
    next m hm =>
      rw [Option.map_eq_some_iff] at hstep
      obtain ⟨s1, hcreate, rfl⟩ := hstep
      split at hcreate
      . cases hcreate
        cases ht : m.tracker with
        | none =>
          apply h.frame
          apply frame_setMessage
          nofun
        | some other =>
          dsimp only
          rw [track_returned]
          apply h.copy hm
          . exact ht.symm
          . rfl
      . cases hcreate
    . cases hstep
  | handle msg now =>
    simp only [Correlator.step] at hstep
    split at hstep
    next m hm =>
      cases hstep
      exact h.handle hm now hok
    . cases hstep
  | forwardOTMP msg =>
    simp only [Correlator.step] at hstep
    split at hstep
    next m hm =>
      have hdelivered : Inv id { s with delivered := s.delivered ++ [m.message.id] } :=
        h.frame ⟨rfl, rfl, rfl, (Frame.refl id s).tracked⟩
      split at hstep
      next other ht =>
        cases hstep
        by_cases hother : other = id
        . rw [hother] at ht ⊢
          exact hdelivered.notifyForwarded hm ht
        . apply hdelivered.frame
          apply frame_update _ hother
          intro cr
          rfl
      . cases hstep
        exact hdelivered
    . cases hstep
  | forwardHTTP msg =>
    simp only [Correlator.step] at hstep
    split at hstep
    . split at hstep
      . cases hstep
        exact h.frame ⟨rfl, rfl, rfl, (Frame.refl id s).tracked⟩
      . cases hstep
    . cases hstep
  | destroy msg =>
    simp only [Correlator.step] at hstep
    split at hstep
    next m hm =>
      cases hstep
      by_cases ht : m.tracker = some id
      . exact h.destroyMessage hm ht
      . exact h.frame (frame_destroyMessage ht)
    . cases hstep
  | tick now =>
    cases hstep
    exact h.removeAll _

end Correlator
end XMLMesh
end ObTools
