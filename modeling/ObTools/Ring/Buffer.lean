import ObTools.Lib.Fifo

/-!
This module contains the model of `Ring::Buffer` with one thread that puts and one that gets. Each of
the two executes its calls step by step: a step is one load or store of an index, or the beginning or
the end of an access to an item. The indices are modelled as natural numbers since they stay below
the number of items.

It then contains the proof that `Ring::Buffer` is a queue, whatever the order in which the two
threads take their steps. The indices are the numbers of items that have been put and that have been
got or flushed so far, modulo the number of slots, and one slot more than there can be items is
enough to tell these numbers apart.
-/

namespace ObTools
namespace Ring

inductive Slot (α : Type) where
  | unused
  -- An item is just being copied into it
  | writing
  | full (item : α)
  deriving DecidableEq, Repr

inductive PutCall (α : Type) where
  | put (item : α)
  | flushFromPut
  deriving DecidableEq, Repr

inductive GetCall where
  -- The operands of `out_index == in_index` can be loaded in either order
  | get (inFirst : Bool)
  | flushFromGet
  deriving DecidableEq, Repr

/-
Where the putter is within its call and what it has in its local variables.
-/
inductive Putter (α : Type) where
  | idle
  | loadedIn (item : α) (nextInIndex : Nat)
  | checked (item : α) (nextInIndex : Nat)
  | writing (item : α) (nextInIndex : Nat) (index : Nat)
  | written (item : α) (nextInIndex : Nat)
  | flushing (outIndex : Nat)
  deriving DecidableEq, Repr

inductive Getter (α : Type) where
  | idle
  | loadedOut (outIndex : Nat)
  | loadedIn (inIndex : Nat)
  | checked
  | reading (index : Nat)
  | read (item : Slot α)
  | incremented (item : Slot α) (nextOutIndex : Nat)
  | flushing (inIndex : Nat)
  deriving DecidableEq, Repr

structure Buffer (α : Type) where
  items : List (Slot α)
  inIndex : Nat
  outIndex : Nat
  putter : Putter α
  getter : Getter α
  deriving DecidableEq, Repr

-- What can be seen of a call from outside, at the step that decides on it
inductive Event (α : Type) where
  | put (item : α)
  | putFailed
  | got (item : Slot α)
  | getFailed
  | flushedFromGet (count : Nat)
  | flushedFromPut (count : Nat)
  deriving DecidableEq, Repr

inductive Action (α : Type) where
  | putterCall (call : PutCall α)
  | putterStep
  | getterCall (call : GetCall)
  | getterStep
  deriving DecidableEq, Repr

namespace Buffer

variable {α : Type}

-- We allocate one more than asked for
def new (length : Nat) : Buffer α where
  items := List.replicate (length + 1) .unused
  inIndex := 0
  outIndex := 0
  putter := .idle
  getter := .idle

-- Modular increment
def inc (b : Buffer α) (n : Nat) : Nat := if n + 1 ≥ b.items.length then 0 else n + 1

-- The number of items used
def used (b : Buffer α) : Nat :=
  if b.outIndex ≤ b.inIndex then b.inIndex - b.outIndex
  else b.inIndex + b.items.length - b.outIndex

-- How far it is from one index up to another
def distance (b : Buffer α) (start stop : Nat) : Nat :=
  (stop + b.items.length - start) % b.items.length

def putterCall (b : Buffer α) (call : PutCall α) : Option (Buffer α × List (Event α)) :=
  match b.putter, call with
  | .idle, .put item => some ({ b with putter := .loadedIn item (b.inc b.inIndex) }, [])
  | .idle, .flushFromPut => some ({ b with putter := .flushing b.outIndex }, [])
  | _, _ => none

def putterStep (b : Buffer α) : Option (Buffer α × List (Event α)) :=
  match b.putter with
  | .idle => none
  | .loadedIn item next =>
    if next = b.outIndex then
      some ({ b with putter := .idle }, [.putFailed])
    else
      some ({ b with putter := .checked item next }, [])
  | .checked item next =>
    some ({ b with items := b.items.set b.inIndex .writing,
                   putter := .writing item next b.inIndex }, [])
  | .writing item next index =>
    some ({ b with items := b.items.set index (.full item), putter := .written item next }, [])
  | .written item next => some ({ b with inIndex := next, putter := .idle }, [.put item])
  | .flushing outIndex =>
    some ({ b with inIndex := outIndex, putter := .idle },
      [.flushedFromPut (b.distance outIndex b.inIndex)])

def getterCall (b : Buffer α) (call : GetCall) : Option (Buffer α × List (Event α)) :=
  match b.getter, call with
  | .idle, .get false => some ({ b with getter := .loadedOut b.outIndex }, [])
  | .idle, .get true => some ({ b with getter := .loadedIn b.inIndex }, [])
  | .idle, .flushFromGet => some ({ b with getter := .flushing b.inIndex }, [])
  | _, _ => none

def getterStep (b : Buffer α) : Option (Buffer α × List (Event α)) :=
  match b.getter with
  | .idle => none
  | .loadedOut outIndex =>
    if outIndex = b.inIndex then
      some ({ b with getter := .idle }, [.getFailed])
    else
      some ({ b with getter := .checked }, [])
  | .loadedIn inIndex =>
    if b.outIndex = inIndex then
      some ({ b with getter := .idle }, [.getFailed])
    else
      some ({ b with getter := .checked }, [])
  | .checked => some ({ b with getter := .reading b.outIndex }, [])
  | .reading index => some ({ b with getter := .read (b.items[index]?.getD .unused) }, [])
  | .read item => some ({ b with getter := .incremented item (b.inc b.outIndex) }, [])
  | .incremented item next => some ({ b with outIndex := next, getter := .idle }, [.got item])
  | .flushing inIndex =>
    some ({ b with outIndex := inIndex, getter := .idle },
      [.flushedFromGet (b.distance b.outIndex inIndex)])

def step (b : Buffer α) : Action α → Option (Buffer α × List (Event α))
  | .putterCall call => b.putterCall call
  | .putterStep => b.putterStep
  | .getterCall call => b.getterCall call
  | .getterStep => b.getterStep

-- The state and the events after some actions, `none` if one of them is not possible.
def runFrom (b : Buffer α) (trace : List (Event α))
    : List (Action α) → Option (Buffer α × List (Event α))
  | [] => some (b, trace)
  | action :: actions =>
    match b.step action with
    | some (b, events) => runFrom b (trace ++ events) actions
    | none => none

def run (length : Nat) (actions : List (Action α)) : Option (Buffer α × List (Event α)) :=
  runFrom (new length) [] actions

end Buffer

variable {α : Type}

def puts (trace : List (Event α)) : List α :=
  trace.filterMap fun
    | .put item => some item
    | _ => none

def gots (trace : List (Event α)) : List (Slot α) :=
  trace.filterMap fun
    | .got item => some item
    | _ => none

-- For each item that has left the buffer on the side of the getter, whether it has been delivered
def fates (trace : List (Event α)) : List Bool :=
  trace.flatMap fun
    | .got _ => [true]
    | .flushedFromGet count => List.replicate count false
    | _ => []

@[simp]
theorem puts_append (l1 l2 : List (Event α)) : puts (l1 ++ l2) = puts l1 ++ puts l2 := by
  simp [puts]

@[simp]
theorem gots_append (l1 l2 : List (Event α)) : gots (l1 ++ l2) = gots l1 ++ gots l2 := by
  simp [gots]

@[simp]
theorem fates_append (l1 l2 : List (Event α)) : fates (l1 ++ l2) = fates l1 ++ fates l2 := by
  simp [fates]

/-
What holds of the buffer itself, independent of where the threads are.
-/
structure Shared (n : Nat) (items : List (Slot α)) (inIndex outIndex : Nat)
    (trace : List (Event α)) : Prop where
  length_items : items.length = n + 1
  fates_le : (fates trace).length ≤ (puts trace).length
  puts_le : (puts trace).length ≤ (fates trace).length + n
  inIndex_eq : inIndex = (puts trace).length % (n + 1)
  outIndex_eq : outIndex = (fates trace).length % (n + 1)
  items_eq : ∀ j item, (fates trace).length ≤ j → (puts trace)[j]? = some item →
    items[j % (n + 1)]? = some (.full item)
  gots_eq : gots trace = (Fifo.select (puts trace) (fates trace)).map .full

/-
What the putter knows: no one else puts, and items only ever leave the buffer meanwhile.
-/
def PutterInv (n : Nat) (items : List (Slot α)) (trace : List (Event α)) : Putter α → Prop
  | .idle => True
  | .loadedIn _ next => next = ((puts trace).length + 1) % (n + 1)
  | .checked _ next =>
    next = ((puts trace).length + 1) % (n + 1) ∧ (puts trace).length < (fates trace).length + n
  | .writing _ next index =>
    next = ((puts trace).length + 1) % (n + 1) ∧ (puts trace).length < (fates trace).length + n
      ∧ index = (puts trace).length % (n + 1)
  | .written item next =>
    next = ((puts trace).length + 1) % (n + 1) ∧ (puts trace).length < (fates trace).length + n
      ∧ items[(puts trace).length % (n + 1)]? = some (.full item)
  | .flushing _ => False

/-
What the getter knows: an index of the putter that it has loaded is out of date, but not by more than
what has been put since.
-/
def GetterInv (n : Nat) (trace : List (Event α)) : Getter α → Prop
  | .idle => True
  | .loadedOut outIndex => outIndex = (fates trace).length % (n + 1)
  | .loadedIn inIndex | .flushing inIndex =>
    ∃ loaded, (fates trace).length ≤ loaded ∧ loaded ≤ (puts trace).length
      ∧ inIndex = loaded % (n + 1)
  | .checked => (fates trace).length < (puts trace).length
  | .reading index =>
    (fates trace).length < (puts trace).length ∧ index = (fates trace).length % (n + 1)
  | .read slot => ∃ item, (puts trace)[(fates trace).length]? = some item ∧ slot = .full item
  | .incremented slot next =>
    next = ((fates trace).length + 1) % (n + 1)
      ∧ ∃ item, (puts trace)[(fates trace).length]? = some item ∧ slot = .full item

structure Inv (n : Nat) (b : Buffer α) (trace : List (Event α)) : Prop where
  shared : Shared n b.items b.inIndex b.outIndex trace
  putter : PutterInv n b.items trace b.putter
  getter : GetterInv n trace b.getter

variable {n : Nat} {b b' : Buffer α} {trace events : List (Event α)}

theorem new_inv (n : Nat) : Inv n (Buffer.new n) ([] : List (Event α)) := by
  constructor
  . constructor <;> simp [Buffer.new, puts, gots, fates, Fifo.select]
  . trivial
  . trivial

theorem inc_eq (h : b.items.length = n + 1) (k : Nat) : b.inc (k % (n + 1)) = (k + 1) % (n + 1) := by
  unfold Buffer.inc
  rw [h]
  exact Fifo.succ_mod k (n + 1) (by omega)

namespace Shared

variable {items : List (Slot α)} {inIndex outIndex : Nat}

/-
The slot that the putter writes to is none of those that hold an item.
-/
theorem set_slot (h : Shared n items inIndex outIndex trace) (slot : Slot α)
    : Shared n (items.set ((puts trace).length % (n + 1)) slot) inIndex outIndex trace := by
  refine ⟨?_, h.fates_le, h.puts_le, h.inIndex_eq, h.outIndex_eq, ?_, h.gots_eq⟩
  . rw [List.length_set]
    exact h.length_items
  . intro j item hj hitem
    have hlt : j < (puts trace).length := (List.getElem?_eq_some_iff.mp hitem).1
    have hle := h.puts_le
    have hne : (puts trace).length % (n + 1) ≠ j % (n + 1) := by
      intro heq
      rw [eq_comm, Fifo.mod_eq_iff (by omega) (by omega)] at heq
      omega
    rw [List.getElem?_set_ne hne]
    exact h.items_eq j item hj hitem

theorem put (h : Shared n items inIndex outIndex trace) {item : α}
    (hlt : (puts trace).length < (fates trace).length + n)
    (hitem : items[(puts trace).length % (n + 1)]? = some (.full item))
    : Shared n items (((puts trace).length + 1) % (n + 1)) outIndex (trace ++ [.put item]) := by
  have hputs : puts (trace ++ [.put item]) = puts trace ++ [item] := by simp [puts]
  have hfates : fates (trace ++ [.put item]) = fates trace := by simp [fates]
  have hgots : gots (trace ++ [.put item]) = gots trace := by simp [gots]
  have h1 := h.fates_le
  constructor
  . exact h.length_items
  . rw [hputs, hfates, List.length_append]
    omega
  . rw [hputs, hfates, List.length_append, List.length_singleton]
    omega
  . rw [hputs, List.length_append, List.length_singleton]
  . rw [hfates]
    exact h.outIndex_eq
  . intro j item' hj hitem'
    rw [hfates] at hj
    rw [hputs] at hitem'
    by_cases hlast : j < (puts trace).length
    . rw [List.getElem?_append_left hlast] at hitem'
      exact h.items_eq j item' hj hitem'
    . rw [List.getElem?_append_right (by omega), List.getElem?_singleton] at hitem'
      split at hitem'
      . next heq =>
        have hj : j = (puts trace).length := by omega
        rw [Option.some_inj] at hitem'
        rw [hj, ← hitem']
        exact hitem
      . contradiction
  . rw [hgots, hputs, hfates, Fifo.select_append_left h1]
    exact h.gots_eq

/-
The check of `put` finds the buffer full exactly if it is.
-/
theorem next_eq_iff (h : Shared n items inIndex outIndex trace)
    : ((puts trace).length + 1) % (n + 1) = outIndex
        ↔
      (puts trace).length = (fates trace).length + n := by
  have h1 := h.fates_le
  have h2 := h.puts_le
  rw [h.outIndex_eq, eq_comm]
  constructor
  . intro heq
    by_contra hne
    rw [Fifo.mod_eq_iff (by omega) (by omega)] at heq
    omega
  . intro heq
    rw [heq, Nat.add_assoc, Nat.add_mod_right]

/-
Items leave the buffer, delivered or not.
-/
theorem leave (h : Shared n items inIndex outIndex trace) {trace' : List (Event α)}
    {fs : List Bool} (hputs : puts trace' = puts trace) (hfates : fates trace' = fates trace ++ fs)
    (hle : (fates trace).length + fs.length ≤ (puts trace).length)
    (hgots : gots trace' = (Fifo.select (puts trace) (fates trace ++ fs)).map .full)
    : Shared n items inIndex (((fates trace).length + fs.length) % (n + 1)) trace' := by
  have h1 := h.puts_le
  have hlen : (fates trace').length = (fates trace).length + fs.length := by
    rw [hfates, List.length_append]
  constructor
  . exact h.length_items
  . rw [hputs, hlen]
    exact hle
  . rw [hputs, hlen]
    omega
  . rw [hputs]
    exact h.inIndex_eq
  . rw [hlen]
  . intro j item hj hitem
    rw [hputs] at hitem
    exact h.items_eq j item (by omega) hitem
  . rw [hgots, hputs, hfates]

end Shared

/-
A call that fails leaves no trace.
-/
theorem Inv.failed (h : Inv n b trace) {event : Event α}
    (hevent : event = .putFailed ∨ event = .getFailed)
    : Inv n b (trace ++ [event]) := by
  have hputs : puts (trace ++ [event]) = puts trace := by
    cases hevent with
    | inl heq => simp [heq, puts]
    | inr heq => simp [heq, puts]
  have hfates : fates (trace ++ [event]) = fates trace := by
    cases hevent with
    | inl heq => simp [heq, fates]
    | inr heq => simp [heq, fates]
  have hgots : gots (trace ++ [event]) = gots trace := by
    cases hevent with
    | inl heq => simp [heq, gots]
    | inr heq => simp [heq, gots]
  obtain ⟨hshared, hputter, hgetter⟩ := h
  refine ⟨⟨hshared.length_items, ?_, ?_, ?_, ?_, ?_, ?_⟩, ?_, ?_⟩
  . rw [hputs, hfates]
    exact hshared.fates_le
  . rw [hputs, hfates]
    exact hshared.puts_le
  . rw [hputs]
    exact hshared.inIndex_eq
  . rw [hfates]
    exact hshared.outIndex_eq
  . rw [hputs, hfates]
    exact hshared.items_eq
  . rw [hputs, hfates, hgots]
    exact hshared.gots_eq
  . unfold PutterInv at *
    rw [hputs, hfates]
    exact hputter
  . unfold GetterInv at *
    rw [hputs, hfates]
    exact hgetter

theorem PutterInv.leave {items : List (Slot α)} {trace' : List (Event α)} {p : Putter α}
    (h : PutterInv n items trace p) (hputs : puts trace' = puts trace)
    (hle : (fates trace).length ≤ (fates trace').length)
    : PutterInv n items trace' p := by
  cases p with
  | idle => trivial
  | loadedIn item next =>
    unfold PutterInv at *
    rw [hputs]
    exact h
  | checked item next =>
    unfold PutterInv at *
    rw [hputs]
    exact ⟨h.1, by omega⟩
  | writing item next index =>
    unfold PutterInv at *
    rw [hputs]
    exact ⟨h.1, by omega, h.2.2⟩
  | written item next =>
    unfold PutterInv at *
    rw [hputs]
    exact ⟨h.1, by omega, h.2.2⟩
  | flushing outIndex => exact h.elim

theorem GetterInv.put {g : Getter α} (h : GetterInv n trace g) (item : α)
    : GetterInv n (trace ++ [.put item]) g := by
  have hputs : puts (trace ++ [.put item]) = puts trace ++ [item] := by simp [puts]
  have hfates : fates (trace ++ [.put item]) = fates trace := by simp [fates]
  have hlen : (puts trace ++ [item]).length = (puts trace).length + 1 := by simp
  have hget : ∀ (i : Nat) (item' : α), (puts trace)[i]? = some item' →
      (puts trace ++ [item])[i]? = some item' := by
    intro i item' hi
    rw [List.getElem?_append_left (List.getElem?_eq_some_iff.mp hi).1]
    exact hi
  unfold GetterInv at *
  rw [hputs, hfates]
  cases g with
  | idle => trivial
  | loadedOut outIndex => exact h
  | loadedIn inIndex =>
    obtain ⟨loaded, h1, h2, h3⟩ := h
    exact ⟨loaded, h1, by omega, h3⟩
  | checked =>
    dsimp only at *
    omega
  | reading index =>
    dsimp only at *
    exact ⟨by omega, h.2⟩
  | read slot =>
    obtain ⟨item', h1, h2⟩ := h
    exact ⟨item', hget _ _ h1, h2⟩
  | incremented slot next =>
    obtain ⟨hnext, item', h1, h2⟩ := h
    exact ⟨hnext, item', hget _ _ h1, h2⟩
  | flushing inIndex =>
    obtain ⟨loaded, h1, h2, h3⟩ := h
    exact ⟨loaded, h1, by omega, h3⟩

theorem putterCall_inv (h : Inv n b trace) {call : PutCall α} (hcall : call ≠ .flushFromPut)
    (hstep : b.putterCall call = some (b', events))
    : Inv n b' (trace ++ events) := by
  unfold Buffer.putterCall at hstep
  split at hstep
  . injection hstep with hstep
    cases hstep
    rw [List.append_nil]
    refine ⟨h.shared, ?_, h.getter⟩
    change b.inc b.inIndex = _
    rw [h.shared.inIndex_eq, inc_eq h.shared.length_items]
  . exact absurd rfl hcall
  . contradiction

theorem putterStep_inv (h : Inv n b trace) (hstep : b.putterStep = some (b', events))
    : Inv n b' (trace ++ events) := by
  have hinv := h.putter
  unfold Buffer.putterStep at hstep
  cases hp : b.putter with
  | idle => simp [hp] at hstep
  | loadedIn item next =>
    rw [hp] at hstep hinv
    dsimp only at hstep
    split at hstep
    . injection hstep with hstep
      cases hstep
      refine Inv.failed ?_ (Or.inl rfl)
      exact ⟨h.shared, trivial, h.getter⟩
    . next hne =>
      injection hstep with hstep
      cases hstep
      rw [List.append_nil]
      refine ⟨h.shared, ⟨hinv, ?_⟩, h.getter⟩
      have hle := h.shared.puts_le
      have hinv : next = ((puts trace).length + 1) % (n + 1) := hinv
      rw [hinv, h.shared.next_eq_iff] at hne
      omega
  | checked item next =>
    rw [hp] at hstep hinv
    injection hstep with hstep
    cases hstep
    rw [List.append_nil]
    have hset := h.shared.set_slot .writing
    rw [← h.shared.inIndex_eq] at hset
    exact ⟨hset, ⟨hinv.1, hinv.2, h.shared.inIndex_eq⟩, h.getter⟩
  | writing item next index =>
    rw [hp] at hstep hinv
    injection hstep with hstep
    cases hstep
    rw [List.append_nil]
    have hset := h.shared.set_slot (.full item)
    rw [← hinv.2.2] at hset
    refine ⟨hset, ⟨hinv.1, hinv.2.1, ?_⟩, h.getter⟩
    dsimp only
    rw [← hinv.2.2, List.getElem?_set_self]
    rw [h.shared.length_items, hinv.2.2]
    exact Nat.mod_lt _ (by omega)
  | written item next =>
    rw [hp] at hstep hinv
    injection hstep with hstep
    cases hstep
    have hput := h.shared.put hinv.2.1 hinv.2.2
    rw [← hinv.1] at hput
    exact ⟨hput, trivial, h.getter.put item⟩
  | flushing outIndex =>
    rw [hp] at hinv
    exact hinv.elim

theorem getterCall_inv (h : Inv n b trace) {call : GetCall}
    (hstep : b.getterCall call = some (b', events))
    : Inv n b' (trace ++ events) := by
  have hloaded : ∃ loaded, (fates trace).length ≤ loaded ∧ loaded ≤ (puts trace).length
      ∧ b.inIndex = loaded % (n + 1) :=
    ⟨_, h.shared.fates_le, Nat.le_refl _, h.shared.inIndex_eq⟩
  unfold Buffer.getterCall at hstep
  split at hstep
  . injection hstep with hstep
    cases hstep
    rw [List.append_nil]
    exact ⟨h.shared, h.putter, h.shared.outIndex_eq⟩
  . injection hstep with hstep
    cases hstep
    rw [List.append_nil]
    exact ⟨h.shared, h.putter, hloaded⟩
  . injection hstep with hstep
    cases hstep
    rw [List.append_nil]
    exact ⟨h.shared, h.putter, hloaded⟩
  . contradiction

theorem getterStep_inv (h : Inv n b trace) (hstep : b.getterStep = some (b', events))
    : Inv n b' (trace ++ events) := by
  have hinv := h.getter
  have h1 := h.shared.fates_le
  have h2 := h.shared.puts_le
  unfold Buffer.getterStep at hstep
  cases hg : b.getter with
  | idle => simp [hg] at hstep
  | loadedOut outIndex =>
    rw [hg] at hstep hinv
    dsimp only at hstep
    split at hstep
    . injection hstep with hstep
      cases hstep
      refine Inv.failed ?_ (Or.inr rfl)
      exact ⟨h.shared, h.putter, trivial⟩
    . next hne =>
      injection hstep with hstep
      cases hstep
      rw [List.append_nil]
      refine ⟨h.shared, h.putter, ?_⟩
      have hinv : outIndex = (fates trace).length % (n + 1) := hinv
      rw [hinv, h.shared.inIndex_eq, Fifo.mod_eq_iff h1 (by omega)] at hne
      change (fates trace).length < (puts trace).length
      omega
  | loadedIn inIndex =>
    rw [hg] at hstep hinv
    obtain ⟨loaded, h3, h4, hin⟩ := hinv
    dsimp only at hstep
    split at hstep
    . injection hstep with hstep
      cases hstep
      refine Inv.failed ?_ (Or.inr rfl)
      exact ⟨h.shared, h.putter, trivial⟩
    . next hne =>
      injection hstep with hstep
      cases hstep
      rw [List.append_nil]
      refine ⟨h.shared, h.putter, ?_⟩
      rw [hin, h.shared.outIndex_eq, Fifo.mod_eq_iff h3 (by omega)] at hne
      change (fates trace).length < (puts trace).length
      omega
  | checked =>
    rw [hg] at hstep hinv
    injection hstep with hstep
    cases hstep
    rw [List.append_nil]
    exact ⟨h.shared, h.putter, hinv, h.shared.outIndex_eq⟩
  | reading index =>
    rw [hg] at hstep hinv
    obtain ⟨hlt, hindex⟩ := hinv
    injection hstep with hstep
    cases hstep
    rw [List.append_nil]
    refine ⟨h.shared, h.putter, (puts trace)[(fates trace).length], ?_, ?_⟩
    . exact List.getElem?_eq_getElem hlt
    . rw [hindex, h.shared.items_eq _ _ (Nat.le_refl _) (List.getElem?_eq_getElem hlt)]
      rfl
  | read slot =>
    rw [hg] at hstep hinv
    injection hstep with hstep
    cases hstep
    rw [List.append_nil]
    refine ⟨h.shared, h.putter, ?_, hinv⟩
    rw [h.shared.outIndex_eq, inc_eq h.shared.length_items]
  | incremented slot next =>
    rw [hg] at hstep hinv
    obtain ⟨hnext, item, hitem, hslot⟩ := hinv
    injection hstep with hstep
    cases hstep
    have hlt := (List.getElem?_eq_some_iff.mp hitem).1
    have hputs : puts (trace ++ [.got slot]) = puts trace := by simp [puts]
    have hfates : fates (trace ++ [.got slot]) = fates trace ++ [true] := by simp [fates]
    have hleave := h.shared.leave hputs hfates hlt
      (by rw [gots_append, h.shared.gots_eq, Fifo.select_snoc_true hitem, hslot]; simp [gots])
    rw [List.length_singleton, ← hnext] at hleave
    exact ⟨hleave, h.putter.leave (by simp [puts]) (by simp), trivial⟩
  | flushing inIndex =>
    rw [hg] at hstep hinv
    obtain ⟨loaded, h3, h4, hin⟩ := hinv
    injection hstep with hstep
    cases hstep
    have hcount : b.distance b.outIndex inIndex = loaded - (fates trace).length := by
      unfold Buffer.distance
      rw [h.shared.length_items, h.shared.outIndex_eq, hin]
      exact Fifo.mod_distance h3 (by omega)
    rw [hcount]
    generalize hk : loaded - (fates trace).length = k
    have hputs : puts (trace ++ [.flushedFromGet k]) = puts trace := by simp [puts]
    have hfates : fates (trace ++ [.flushedFromGet k])
        = fates trace ++ List.replicate k false := by
      simp [fates]
    have hleave := h.shared.leave hputs hfates (by simp; omega)
      (by rw [gots_append, h.shared.gots_eq, Fifo.select_append_false]; simp [gots])
    have hend : (fates trace).length + (List.replicate k false).length = loaded := by
      rw [List.length_replicate]
      omega
    rw [hend, ← hin] at hleave
    exact ⟨hleave, h.putter.leave (by simp [puts]) (by simp), trivial⟩

theorem step_inv (h : Inv n b trace) {action : Action α}
    (haction : action ≠ .putterCall .flushFromPut) (hstep : b.step action = some (b', events))
    : Inv n b' (trace ++ events) := by
  unfold Buffer.step at hstep
  cases action with
  | putterCall call =>
    apply putterCall_inv h _ hstep
    intro heq
    exact haction (by rw [heq])
  | putterStep => exact putterStep_inv h hstep
  | getterCall call => exact getterCall_inv h hstep
  | getterStep => exact getterStep_inv h hstep

theorem runFrom_inv (h : Inv n b trace) {actions : List (Action α)}
    (hactions : .putterCall .flushFromPut ∉ actions) {trace' : List (Event α)}
    (hrun : b.runFrom trace actions = some (b', trace'))
    : Inv n b' trace' := by
  induction actions generalizing b trace with
  | nil =>
    cases hrun
    exact h
  | cons action actions ih =>
    rw [List.mem_cons, not_or] at hactions
    unfold Buffer.runFrom at hrun
    cases hstep : b.step action with
    | none => simp [hstep] at hrun
    | some res =>
      rw [hstep] at hrun
      exact ih (step_inv h (Ne.symm hactions.1) hstep) hactions.2 hrun

theorem step_putFailed {action : Action α} (hstep : b.step action = some (b', events))
    (hfail : .putFailed ∈ events)
    : ∃ item, b.putter = .loadedIn item b.outIndex := by
  cases action with
  | putterCall call =>
    simp only [Buffer.step, Buffer.putterCall] at hstep
    grind
  | putterStep =>
    simp only [Buffer.step, Buffer.putterStep] at hstep
    grind
  | getterCall call =>
    simp only [Buffer.step, Buffer.getterCall] at hstep
    grind
  | getterStep =>
    simp only [Buffer.step, Buffer.getterStep] at hstep
    grind

theorem putFailed_full (h : Inv n b trace) {action : Action α}
    (hstep : b.step action = some (b', events)) (hfail : .putFailed ∈ events)
    : (puts trace).length = (fates trace).length + n := by
  obtain ⟨item, hp⟩ := step_putFailed hstep hfail
  have hinv := h.putter
  rw [hp] at hinv
  exact h.shared.next_eq_iff.mp hinv.symm

theorem run_fifo (n : Nat) (actions : List (Action α))
    (hactions : .putterCall .flushFromPut ∉ actions) (b : Buffer α) (trace : List (Event α))
    (hrun : Buffer.run n actions = some (b, trace))
    : gots trace = (Fifo.select (puts trace) (fates trace)).map .full
        ∧
      (Fifo.select (puts trace) (fates trace)).Sublist (puts trace)
        ∧
      (fates trace).length ≤ (puts trace).length
        ∧
      (puts trace).length - (fates trace).length ≤ n
        ∧
      (∀ index, b.getter = .reading index →
        (∃ item, b.items[index]? = some (.full item))
          ∧ ∀ item next, b.putter ≠ .writing item next index)
        ∧
      (∀ action b' events, b.step action = some (b', events) → .putFailed ∈ events →
        (puts trace).length - (fates trace).length = n) := by
  have h := runFrom_inv (new_inv n) hactions hrun
  have hle := h.shared.puts_le
  refine ⟨h.shared.gots_eq, Fifo.select_sublist, h.shared.fates_le, by omega, ?_, ?_⟩
  . intro index hg
    have hinv := h.getter
    rw [hg] at hinv
    obtain ⟨hlt, hindex⟩ := hinv
    constructor
    . refine ⟨(puts trace)[(fates trace).length], ?_⟩
      rw [hindex]
      exact h.shared.items_eq _ _ (Nat.le_refl _) (List.getElem?_eq_getElem hlt)
    . intro item next hp
      have hinv := h.putter
      rw [hp] at hinv
      obtain ⟨-, hroom, hindex'⟩ := hinv
      rw [hindex, Fifo.mod_eq_iff (by omega) (by omega)] at hindex'
      omega
  . intro action b' events hstep hfail
    have := putFailed_full h hstep hfail
    omega

-- The second item is flushed while the third is on its way, which then is about to be delivered.
def wrappedRun : List (Action Nat) :=
  [Action.putterCall (.put 7)] ++ List.replicate 4 Action.putterStep
    ++ [Action.getterCall (.get true)] ++ List.replicate 5 Action.getterStep
    ++ [Action.putterCall (.put 8)] ++ List.replicate 4 Action.putterStep
    ++ [Action.getterCall .flushFromGet, Action.putterCall (.put 9), Action.getterStep]
    ++ List.replicate 4 Action.putterStep ++ [Action.getterCall (.get false), Action.getterStep, Action.getterStep]

theorem run_fifo_wrapped
    : Buffer.run 1 wrappedRun
        =
      some ({ items := [.full 9, .full 8], inIndex := 1, outIndex := 0, putter := .idle,
              getter := .reading 0 },
        [.put 7, .got (.full 7), .put 8, .flushedFromGet 1, .put 9])
        ∧
      ∃ item, [Slot.full 9, .full 8][0]? = some (.full item) := by
  have hrun : Buffer.run 1 wrappedRun
      = some ({ items := [.full 9, .full 8], inIndex := 1, outIndex := 0, putter := .idle,
                getter := .reading 0 },
          [.put 7, .got (.full 7), .put 8, .flushedFromGet 1, .put 9]) := by
    decide
  have hfifo := run_fifo 1 wrappedRun (by decide) _ _ hrun
  exact ⟨hrun, (hfifo.2.2.2.2.1 0 rfl).1⟩

end Ring
end ObTools
