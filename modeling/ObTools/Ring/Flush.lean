import ObTools.Ring.Buffer

/-!
This module contains what `Ring::Buffer` does if the putter flushes it. The flush loads the index of
the getter and stores it into its own one. This goes wrong if the getter moves on in between, or if
it has already decided to take an item when the flush is done; the getter then ends up in front of the
putter, and the buffer appears to be full of items that have already been taken out of it.
-/

namespace ObTools
namespace Ring

variable {α : Type}

-- How an event changes the items that have been put and not yet got or flushed
def next (queue : List α) : Event α → List α
  | .put item => queue ++ [item]
  | .putFailed => queue
  | .got _ => queue.tail
  | .getFailed => queue
  | .flushedFromGet count => queue.drop count
  | .flushedFromPut _ => []

def contents (trace : List (Event α)) : List α := trace.foldl next []

/-
Each item that is delivered is the oldest one that has been put and not yet got or flushed.
-/
def Delivers (queue : List α) : List (Event α) → Prop
  | [] => True
  | event :: trace =>
    (∀ slot, event = .got slot → ∃ item, queue.head? = some item ∧ slot = .full item)
      ∧ Delivers (next queue event) trace

/-
Whether the getter takes the item at its index, whatever the putter does with its own index.
-/
def Getter.isCommitted (outIndex : Nat) : Getter α → Bool
  | .checked | .reading _ | .read _ | .incremented _ _ => true
  | .loadedIn inIndex => inIndex != outIndex
  | _ => false

/-
If the action stores the index for a flush, whether the getter has not moved since it was loaded and
is not about to.
-/
def Buffer.isUndisturbed (b : Buffer α) (action : Action α) : Bool :=
  match action, b.putter with
  | .putterStep, .flushing outIndex =>
    outIndex == b.outIndex && !b.getter.isCommitted b.outIndex
  | _, _ => true

-- The same for all actions one after the other
def Buffer.areUndisturbed (b : Buffer α) : List (Action α) → Bool
  | [] => true
  | action :: actions =>
    b.isUndisturbed action && match b.step action with
      | some (b, _) => b.areUndisturbed actions
      | none => true

theorem delivers_append {queue : List α} {trace1 trace2 : List (Event α)}
    : Delivers queue (trace1 ++ trace2)
        ↔
      Delivers queue trace1 ∧ Delivers (trace1.foldl next queue) trace2 := by
  induction trace1 generalizing queue with
  | nil => simp [Delivers]
  | cons event trace1 ih => simp [Delivers, ih, and_assoc]

namespace Flush

/-
What holds of the buffer itself. Only the getter moves the front of the queue.
-/
structure Shared (n : Nat) (items : List (Slot α)) (inIndex outIndex : Nat) (front : Nat)
    (queue : List α) : Prop where
  length_items : items.length = n + 1
  length_queue : queue.length ≤ n
  inIndex_eq : inIndex = (front + queue.length) % (n + 1)
  outIndex_eq : outIndex = front % (n + 1)
  items_eq : ∀ j item, queue[j]? = some item → items[(front + j) % (n + 1)]? = some (.full item)

def PutterInv (n : Nat) (items : List (Slot α)) (front : Nat) (queue : List α) : Putter α → Prop
  | .idle => True
  | .loadedIn _ next => next = (front + queue.length + 1) % (n + 1)
  | .checked _ next => next = (front + queue.length + 1) % (n + 1) ∧ queue.length < n
  | .writing _ next index =>
    next = (front + queue.length + 1) % (n + 1) ∧ queue.length < n
      ∧ index = (front + queue.length) % (n + 1)
  | .written item next =>
    next = (front + queue.length + 1) % (n + 1) ∧ queue.length < n
      ∧ items[(front + queue.length) % (n + 1)]? = some (.full item)
  | .flushing _ => True

def GetterInv (n : Nat) (front : Nat) (queue : List α) : Getter α → Prop
  | .idle => True
  | .loadedOut outIndex => outIndex = front % (n + 1)
  | .loadedIn inIndex => ∃ j, j ≤ queue.length ∧ inIndex = (front + j) % (n + 1)
  | .checked => queue ≠ []
  | .reading index => queue ≠ [] ∧ index = front % (n + 1)
  | .read slot => ∃ item, queue.head? = some item ∧ slot = .full item
  | .incremented slot next =>
    next = (front + 1) % (n + 1) ∧ ∃ item, queue.head? = some item ∧ slot = .full item
  | .flushing _ => False

structure Inv (n : Nat) (b : Buffer α) (front : Nat) (queue : List α) : Prop where
  shared : Shared n b.items b.inIndex b.outIndex front queue
  putter : PutterInv n b.items front queue b.putter
  getter : GetterInv n front queue b.getter

variable {n front : Nat} {b b' : Buffer α} {queue : List α} {events : List (Event α)}

theorem new_inv (n : Nat) : Inv n (Buffer.new n) 0 ([] : List α) := by
  constructor
  . constructor <;> simp [Buffer.new]
  . trivial
  . trivial

theorem used_eq (h : Inv n b front queue) : b.used = queue.length := by
  have hlen := h.shared.length_queue
  have hin : b.inIndex < n + 1 := by
    rw [h.shared.inIndex_eq]
    exact Nat.mod_lt _ (by omega)
  have hout : b.outIndex < n + 1 := by
    rw [h.shared.outIndex_eq]
    exact Nat.mod_lt _ (by omega)
  have hdistance : b.used = (b.inIndex + (n + 1) - b.outIndex) % (n + 1) := by
    unfold Buffer.used
    rw [h.shared.length_items]
    split
    . rw [Nat.mod_eq_sub_mod (by omega), Nat.mod_eq_of_lt (by omega)]
      omega
    . rw [Nat.mod_eq_of_lt (by omega)]
  rw [hdistance, h.shared.inIndex_eq, h.shared.outIndex_eq,
    Fifo.mod_distance (by omega) (by omega)]
  omega

namespace Shared

variable {items : List (Slot α)} {inIndex outIndex : Nat}

/-
The slot that the putter writes to is none of those that hold an item.
-/
theorem set_slot (h : Shared n items inIndex outIndex front queue) (slot : Slot α)
    : Shared n (items.set ((front + queue.length) % (n + 1)) slot) inIndex outIndex front queue := by
  refine ⟨?_, h.length_queue, h.inIndex_eq, h.outIndex_eq, ?_⟩
  . rw [List.length_set]
    exact h.length_items
  . intro j item hitem
    have hlt : j < queue.length := (List.getElem?_eq_some_iff.mp hitem).1
    have hle := h.length_queue
    have hne : (front + queue.length) % (n + 1) ≠ (front + j) % (n + 1) := by
      intro heq
      rw [eq_comm, Fifo.mod_eq_iff (by omega) (by omega)] at heq
      omega
    rw [List.getElem?_set_ne hne]
    exact h.items_eq j item hitem

theorem put (h : Shared n items inIndex outIndex front queue) {item : α} (hlt : queue.length < n)
    (hitem : items[(front + queue.length) % (n + 1)]? = some (.full item))
    : Shared n items ((front + queue.length + 1) % (n + 1)) outIndex front (queue ++ [item]) := by
  refine ⟨h.length_items, ?_, ?_, h.outIndex_eq, ?_⟩
  . rw [List.length_append, List.length_singleton]
    omega
  . rw [List.length_append, List.length_singleton, Nat.add_assoc]
  . intro j item' hj
    rw [List.getElem?_append] at hj
    split at hj
    . exact h.items_eq j item' hj
    . next hge =>
      have hlast : j = queue.length := by
        have := (List.getElem?_eq_some_iff.mp hj).1
        rw [List.length_singleton] at this
        omega
      subst hlast
      have : item = item' := by simpa using hj
      rw [hitem, this]

theorem get {item : α} (h : Shared n items inIndex outIndex front (item :: queue))
    : Shared n items inIndex ((front + 1) % (n + 1)) (front + 1) queue := by
  have hlen := h.length_queue
  rw [List.length_cons] at hlen
  refine ⟨h.length_items, by omega, ?_, rfl, ?_⟩
  . rw [h.inIndex_eq, List.length_cons, Nat.add_assoc, Nat.add_comm 1]
  . intro j item' hj
    have := h.items_eq (j + 1) item' (by simpa using hj)
    rw [Nat.add_assoc, Nat.add_comm 1]
    exact this

theorem flush (h : Shared n items inIndex outIndex front queue)
    : Shared n items outIndex outIndex front [] := by
  refine ⟨h.length_items, by simp, ?_, h.outIndex_eq, by simp⟩
  rw [List.length_nil, Nat.add_zero]
  exact h.outIndex_eq

end Shared

theorem PutterInv.get {items : List (Slot α)} {item : α} {p : Putter α}
    (h : PutterInv n items front (item :: queue) p)
    : PutterInv n items (front + 1) queue p := by
  have hsum : front + (item :: queue).length = front + 1 + queue.length := by
    rw [List.length_cons]
    omega
  have hlen : (item :: queue).length = queue.length + 1 := rfl
  cases p with
  | idle => trivial
  | loadedIn item next =>
    unfold PutterInv at *
    rw [← hsum]
    exact h
  | checked item next =>
    unfold PutterInv at *
    rw [← hsum]
    exact ⟨h.1, by omega⟩
  | writing item next index =>
    unfold PutterInv at *
    rw [← hsum]
    exact ⟨h.1, by omega, h.2.2⟩
  | written item next =>
    unfold PutterInv at *
    rw [← hsum]
    exact ⟨h.1, by omega, h.2.2⟩
  | flushing outIndex => trivial

theorem GetterInv.put {g : Getter α} (h : GetterInv n front queue g) (item : α)
    : GetterInv n front (queue ++ [item]) g := by
  have hhead : ∀ item', queue.head? = some item' → (queue ++ [item]).head? = some item' := by
    intro item' hhead
    rw [List.head?_append, hhead]
    rfl
  cases g with
  | idle => trivial
  | loadedOut outIndex => exact h
  | loadedIn inIndex =>
    obtain ⟨j, hle, hin⟩ := h
    exact ⟨j, by rw [List.length_append]; omega, hin⟩
  | checked => simp [GetterInv]
  | reading index => exact ⟨by simp, h.2⟩
  | read slot =>
    obtain ⟨item', h1, h2⟩ := h
    exact ⟨item', hhead _ h1, h2⟩
  | incremented slot next =>
    obtain ⟨hnext, item', h1, h2⟩ := h
    exact ⟨hnext, item', hhead _ h1, h2⟩
  | flushing inIndex => exact h

-- A getter that is not committed has seen that the queue is empty, or will see it
theorem GetterInv.flush {g : Getter α} (h : GetterInv n front queue g)
    (hcommitted : g.isCommitted (front % (n + 1)) = false)
    : GetterInv n front ([] : List α) g := by
  cases g with
  | idle => trivial
  | loadedOut outIndex => exact h
  | loadedIn inIndex =>
    refine ⟨0, Nat.le_refl _, ?_⟩
    simpa [Getter.isCommitted] using hcommitted
  | flushing inIndex => exact h
  | _ => simp [Getter.isCommitted] at hcommitted

/-
What holds after some events: the items that have been delivered are the right ones.
-/
def Leads (n : Nat) (front : Nat) (queue : List α) (b : Buffer α) (events : List (Event α)) : Prop :=
  Inv n b (front + (gots events).length) (events.foldl next queue) ∧ Delivers queue events

theorem leads_nil (h : Inv n b front queue) : Leads n front queue b [] := ⟨h, trivial⟩

theorem leads_failed (h : Inv n b front queue) {event : Event α}
    (hevent : event = .putFailed ∨ event = .getFailed)
    : Leads n front queue b [event] := by
  cases hevent with
  | inl heq =>
    subst heq
    exact ⟨h, by simp, trivial⟩
  | inr heq =>
    subst heq
    exact ⟨h, by simp, trivial⟩

theorem putterCall_leads (h : Inv n b front queue) {call : PutCall α}
    (hstep : b.putterCall call = some (b', events))
    : Leads n front queue b' events := by
  unfold Buffer.putterCall at hstep
  split at hstep
  . injection hstep with hstep
    cases hstep
    apply leads_nil
    refine ⟨h.shared, ?_, h.getter⟩
    change b.inc b.inIndex = _
    rw [h.shared.inIndex_eq, inc_eq h.shared.length_items]
  . injection hstep with hstep
    cases hstep
    apply leads_nil
    exact ⟨h.shared, trivial, h.getter⟩
  . contradiction

theorem putterStep_leads (h : Inv n b front queue) (hsafe : b.isUndisturbed .putterStep = true)
    (hstep : b.putterStep = some (b', events))
    : Leads n front queue b' events := by
  have hinv := h.putter
  unfold Buffer.isUndisturbed at hsafe
  unfold Buffer.putterStep at hstep
  cases hp : b.putter with
  | idle => simp [hp] at hstep
  | loadedIn item next =>
    rw [hp] at hstep hinv
    dsimp only at hstep
    split at hstep
    . injection hstep with hstep
      cases hstep
      apply leads_failed _ (.inl rfl)
      exact ⟨h.shared, trivial, h.getter⟩
    . next hne =>
      injection hstep with hstep
      cases hstep
      apply leads_nil
      refine ⟨h.shared, ⟨hinv, ?_⟩, h.getter⟩
      have hlen := h.shared.length_queue
      -- The index behind a full queue is that of its front
      have hroom : queue.length ≠ n := by
        intro hfull
        apply hne
        have hinv : next = (front + queue.length + 1) % (n + 1) := hinv
        rw [hinv, h.shared.outIndex_eq, hfull, Nat.add_assoc, Nat.add_mod_right]
      omega
  | checked item next =>
    rw [hp] at hstep hinv
    injection hstep with hstep
    cases hstep
    apply leads_nil
    have hset := h.shared.set_slot .writing
    rw [← h.shared.inIndex_eq] at hset
    exact ⟨hset, ⟨hinv.1, hinv.2, h.shared.inIndex_eq⟩, h.getter⟩
  | writing item next index =>
    rw [hp] at hstep hinv
    injection hstep with hstep
    cases hstep
    apply leads_nil
    have hset := h.shared.set_slot (.full item)
    rw [← hinv.2.2] at hset
    refine ⟨hset, ⟨hinv.1, hinv.2.1, ?_⟩, h.getter⟩
    dsimp only
    rw [← hinv.2.2, List.getElem?_set_self]
    rw [h.shared.length_items, hinv.2.2]
    exact Nat.mod_lt _ (by omega)
  | written item next =>
    rw [hp] at hstep hinv
    injection hstep with hstep
    cases hstep
    have hput := h.shared.put hinv.2.1 hinv.2.2
    rw [← hinv.1] at hput
    exact ⟨⟨hput, trivial, h.getter.put item⟩, by simp, trivial⟩
  | flushing outIndex =>
    rw [hp] at hstep hsafe
    injection hstep with hstep
    cases hstep
    simp only [Bool.and_eq_true, beq_iff_eq, Bool.not_eq_eq_eq_not, Bool.not_true] at hsafe
    obtain ⟨rfl, hcommitted⟩ := hsafe
    rw [h.shared.outIndex_eq] at hcommitted
    exact ⟨⟨h.shared.flush, trivial, h.getter.flush hcommitted⟩, by simp, trivial⟩

theorem getterCall_leads (h : Inv n b front queue) {call : GetCall} (hcall : call ≠ .flushFromGet)
    (hstep : b.getterCall call = some (b', events))
    : Leads n front queue b' events := by
  unfold Buffer.getterCall at hstep
  split at hstep
  . injection hstep with hstep
    cases hstep
    apply leads_nil
    exact ⟨h.shared, h.putter, h.shared.outIndex_eq⟩
  . injection hstep with hstep
    cases hstep
    apply leads_nil
    exact ⟨h.shared, h.putter, _, Nat.le_refl _, h.shared.inIndex_eq⟩
  . exact absurd rfl hcall
  . contradiction

theorem getterStep_leads (h : Inv n b front queue) (hstep : b.getterStep = some (b', events))
    : Leads n front queue b' events := by
  have hinv := h.getter
  have hlen := h.shared.length_queue
  unfold Buffer.getterStep at hstep
  cases hg : b.getter with
  | idle => simp [hg] at hstep
  | loadedOut outIndex =>
    rw [hg] at hstep hinv
    dsimp only at hstep
    split at hstep
    . injection hstep with hstep
      cases hstep
      apply leads_failed _ (.inr rfl)
      exact ⟨h.shared, h.putter, trivial⟩
    . next hne =>
      injection hstep with hstep
      cases hstep
      apply leads_nil
      refine ⟨h.shared, h.putter, ?_⟩
      intro hempty
      apply hne
      have hinv : outIndex = front % (n + 1) := hinv
      rw [hinv, h.shared.inIndex_eq, hempty]
      rfl
  | loadedIn inIndex =>
    rw [hg] at hstep hinv
    obtain ⟨j, hj, hin⟩ := hinv
    dsimp only at hstep
    split at hstep
    . injection hstep with hstep
      cases hstep
      apply leads_failed _ (.inr rfl)
      exact ⟨h.shared, h.putter, trivial⟩
    . next hne =>
      injection hstep with hstep
      cases hstep
      apply leads_nil
      refine ⟨h.shared, h.putter, ?_⟩
      intro hempty
      apply hne
      rw [hempty, List.length_nil] at hj
      have hzero : j = 0 := by omega
      rw [hin, h.shared.outIndex_eq, hzero]
      rfl
  | checked =>
    rw [hg] at hstep hinv
    injection hstep with hstep
    cases hstep
    apply leads_nil
    exact ⟨h.shared, h.putter, hinv, h.shared.outIndex_eq⟩
  | reading index =>
    rw [hg] at hstep hinv
    obtain ⟨hne, hindex⟩ := hinv
    injection hstep with hstep
    cases hstep
    apply leads_nil
    refine ⟨h.shared, h.putter, queue.head hne, List.head?_eq_some_head hne, ?_⟩
    have hitem := h.shared.items_eq 0 (queue.head hne)
      (by rw [← List.head?_eq_getElem?]; exact List.head?_eq_some_head hne)
    rw [Nat.add_zero] at hitem
    rw [hindex, hitem]
    rfl
  | read slot =>
    rw [hg] at hstep hinv
    injection hstep with hstep
    cases hstep
    apply leads_nil
    refine ⟨h.shared, h.putter, ?_, hinv⟩
    rw [h.shared.outIndex_eq, inc_eq h.shared.length_items]
  | incremented slot next =>
    rw [hg] at hstep hinv
    obtain ⟨hnext, item, hitem, hslot⟩ := hinv
    injection hstep with hstep
    cases hstep
    obtain ⟨rest, rfl⟩ := List.head?_eq_some_iff.mp hitem
    have hget := h.shared.get
    rw [← hnext] at hget
    refine ⟨⟨hget, h.putter.get, trivial⟩, ?_, trivial⟩
    intro slot' heq
    cases heq
    exact ⟨item, hitem, hslot⟩
  | flushing inIndex =>
    rw [hg] at hinv
    exact hinv.elim

theorem step_leads (h : Inv n b front queue) {action : Action α}
    (haction : action ≠ .getterCall .flushFromGet) (hsafe : b.isUndisturbed action = true)
    (hstep : b.step action = some (b', events))
    : Leads n front queue b' events := by
  unfold Buffer.step at hstep
  cases action with
  | putterCall call => exact putterCall_leads h hstep
  | putterStep => exact putterStep_leads h hsafe hstep
  | getterCall call =>
    apply getterCall_leads h _ hstep
    intro heq
    exact haction (by rw [heq])
  | getterStep => exact getterStep_leads h hstep

theorem runFrom_leads {trace trace' : List (Event α)} (h : Leads n 0 [] b trace)
    {actions : List (Action α)} (hactions : .getterCall .flushFromGet ∉ actions)
    (hsafe : b.areUndisturbed actions = true)
    (hrun : b.runFrom trace actions = some (b', trace'))
    : Leads n 0 [] b' trace' := by
  induction actions generalizing b trace with
  | nil =>
    cases hrun
    exact h
  | cons action actions ih =>
    rw [List.mem_cons, not_or] at hactions
    rw [Buffer.areUndisturbed, Bool.and_eq_true] at hsafe
    unfold Buffer.runFrom at hrun
    cases hstep : b.step action with
    | none => simp [hstep] at hrun
    | some res =>
      obtain ⟨b1, events⟩ := res
      rw [hstep] at hrun hsafe
      have hnext := step_leads h.1 (Ne.symm hactions.1) hsafe.1 hstep
      refine ih ?_ hactions.2 hsafe.2 hrun
      refine ⟨?_, ?_⟩
      . rw [gots_append, List.length_append, ← Nat.add_assoc, List.foldl_append]
        exact hnext.1
      . rw [delivers_append]
        exact ⟨h.2, hnext.2⟩

end Flush

-- Since only the oldest item is ever delivered, and then no longer there
theorem gots_append_sublist {queue : List α} {trace : List (Event α)} (h : Delivers queue trace)
    : (gots trace ++ (trace.foldl next queue).map Slot.full).Sublist
        ((queue ++ puts trace).map Slot.full) := by
  induction trace generalizing queue with
  | nil => simp [gots, puts]
  | cons event trace ih =>
    rw [Delivers] at h
    have ih := ih h.2
    cases event with
    | put item => simpa [gots, puts, next] using ih
    | putFailed => simpa [gots, puts, next] using ih
    | getFailed => simpa [gots, puts, next] using ih
    | got slot =>
      obtain ⟨item, hhead, rfl⟩ := h.1 slot rfl
      obtain ⟨rest, rfl⟩ := List.head?_eq_some_iff.mp hhead
      simpa [gots, puts, next] using ih
    | flushedFromGet count =>
      refine List.Sublist.trans ih ?_
      apply List.Sublist.map
      exact (List.drop_sublist count queue).append (List.Sublist.refl _)
    | flushedFromPut count =>
      refine List.Sublist.trans ih ?_
      apply List.Sublist.map
      exact List.sublist_append_right queue _

/--
As long as no flush is disturbed, only items that have been put and not yet got or flushed are
delivered, each of them once, and no more than these are counted as used.
-/
theorem run_undisturbed (n : Nat) (actions : List (Action α))
    (hactions : .getterCall .flushFromGet ∉ actions)
    (hsafe : (Buffer.new n : Buffer α).areUndisturbed actions = true) (b : Buffer α)
    (trace : List (Event α)) (hrun : Buffer.run n actions = some (b, trace))
    : Delivers [] trace
        ∧
      (gots trace).Sublist ((puts trace).map .full)
        ∧
      b.used ≤ (contents trace).length := by
  have hleads := Flush.runFrom_leads (Flush.leads_nil (Flush.new_inv n)) hactions hsafe hrun
  have hsub := gots_append_sublist hleads.2
  rw [List.nil_append] at hsub
  refine ⟨hleads.2, ?_, Nat.le_of_eq (Flush.used_eq hleads.1)⟩
  exact List.Sublist.trans (List.sublist_append_left _ _) hsub

-- The getter has only loaded its own index when the first item is flushed.
def undisturbedRun : List (Action Nat) :=
  [Action.putterCall (.put 7)] ++ List.replicate 4 Action.putterStep
    ++ [Action.putterCall .flushFromPut, Action.getterCall (.get false), Action.putterStep, Action.getterStep]
    ++ [Action.putterCall (.put 8)] ++ List.replicate 4 Action.putterStep
    ++ [Action.getterCall (.get true)] ++ List.replicate 5 Action.getterStep

theorem run_undisturbed_early
    : Buffer.run 1 undisturbedRun
        =
      some ({ items := [.full 8, .unused], inIndex := 1, outIndex := 1, putter := .idle,
              getter := .idle },
        [.put 7, .flushedFromPut 1, .getFailed, .put 8, .got (.full 8)])
        ∧
      (gots [Event.put 7, .flushedFromPut 1, .getFailed, .put 8, .got (.full 8)]).Sublist
        [.full 7, .full 8] := by
  have hrun : Buffer.run 1 undisturbedRun
      = some ({ items := [.full 8, .unused], inIndex := 1, outIndex := 1, putter := .idle,
                getter := .idle },
          [.put 7, .flushedFromPut 1, .getFailed, .put 8, .got (.full 8)]) := by
    decide
  exact ⟨hrun, (run_undisturbed 1 undisturbedRun (by decide) (by decide) _ _ hrun).2.1⟩

-- The second item is got between the load and the store of the flush. Then the first one comes again.
def disturbedRun : List (Action Nat) :=
  [Action.putterCall (.put 7)] ++ List.replicate 4 Action.putterStep
    ++ [Action.getterCall (.get false)] ++ List.replicate 5 Action.getterStep
    ++ [Action.putterCall (.put 8)] ++ List.replicate 4 Action.putterStep
    ++ [Action.putterCall .flushFromPut, Action.getterCall (.get false)] ++ List.replicate 5 Action.getterStep
    ++ [Action.putterStep, Action.getterCall (.get false)] ++ List.replicate 5 Action.getterStep

theorem run_delivers_twice
    : ¬(∀ (n : Nat) (actions : List (Action Nat)), .getterCall .flushFromGet ∉ actions →
        ∀ (b : Buffer Nat) (trace : List (Event Nat)), Buffer.run n actions = some (b, trace) →
          Delivers [] trace
            ∧
          (gots trace).Sublist ((puts trace).map .full)
            ∧
          b.used ≤ (contents trace).length) := by
  intro h
  have hrun : Buffer.run 1 disturbedRun
      = some ({ items := [.full 7, .full 8], inIndex := 1, outIndex := 1, putter := .idle,
                getter := .idle },
          [.put 7, .got (.full 7), .put 8, .got (.full 8), .flushedFromPut 1, .got (.full 7)]) := by
    decide
  have hsub := (h 1 disturbedRun (by decide) _ _ hrun).2.1
  simp [gots, puts] at hsub

end Ring
end ObTools
