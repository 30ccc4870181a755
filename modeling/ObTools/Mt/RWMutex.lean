import Mathlib.Algebra.Order.BigOperators.Group.Finset
import ObTools.Lib.Runs

/-!
This module contains the model of `MT::RWMutex` and of threads that use it. What a call does while it
holds the internal mutex is one step; a call that waits for a condition gives the mutex up, and can
have it back at any time, since a condition variable can wake up spuriously. For this reason it does
not matter here who is notified.

It then contains the proof that `MT::RWMutex` excludes writers from each other and from readers,
as long as none of its counters overflows.

A writer that has found no readers can be overtaken by another writer, but not by a reader, because
readers wait as long as there are writers waiting.
-/

namespace ObTools
namespace MT

structure RWMutex (Thread : Type) where
  readersActive : UInt32
  writersWaiting : UInt32
  writerActive : Bool
  count : UInt32
  writer : Option Thread
deriving DecidableEq, Repr

/-
The conditions that a call can wait for.
-/
inductive Gate where
  -- A reader, for `no_writer`
  | reader
  -- A writer, for `no_readers`
  | noReaders
  -- A writer, for `no_writer`
  | noWriter
deriving DecidableEq, Repr

namespace RWMutex

variable {Thread : Type} [DecidableEq Thread] (m : RWMutex Thread) (self : Thread)

-- The count is not initialised
def new (count : UInt32) : RWMutex Thread where
  readersActive := 0
  writersWaiting := 0
  writerActive := false
  count := count
  writer := none

def isWriter : Bool := m.writerActive && m.writer = some self

/-
The following give the state when the mutex is released, and the gate the call is waiting at then,
`none` if it has returned.
-/

def passReader : RWMutex Thread × Option Gate :=
  if m.writersWaiting ≠ 0 ∨ m.writerActive = true then
    (m, some .reader)
  else
    -- Claim it and block writers
    ({ m with readersActive := m.readersActive + 1 }, none)

def lockReader : RWMutex Thread × Option Gate :=
  -- Check if we already own this as a writer
  if m.isWriter self then
    (m, none)
  else if m.readersActive = 0 then
    m.passReader
  else
    ({ m with readersActive := m.readersActive + 1 }, none)

def unlockReader : RWMutex Thread :=
  if m.isWriter self then
    m
  else
    { m with readersActive := m.readersActive - 1 }

def passNoWriter : RWMutex Thread × Option Gate :=
  if m.writerActive = true then
    (m, some .noWriter)
  else
    ({ m with writersWaiting := m.writersWaiting - 1
              writerActive := true
              writer := some self
              count := 1 }, none)

def passNoReaders : RWMutex Thread × Option Gate :=
  if m.readersActive ≠ 0 then
    (m, some .noReaders)
  else
    m.passNoWriter self

def lockWriter : RWMutex Thread × Option Gate :=
  if m.isWriter self then
    -- Accumulate another one, but don't lock again
    ({ m with count := m.count + 1 }, none)
  else
    -- Show there are writers waiting, to ensure priority
    passNoReaders { m with writersWaiting := m.writersWaiting + 1 } self

def unlockWriter : RWMutex Thread :=
  if m.count - 1 = 0 then
    { m with count := m.count - 1, writerActive := false }
  else
    { m with count := m.count - 1 }

-- A call that has been waiting checks its condition again
def pass : Gate → RWMutex Thread × Option Gate
  | .reader => m.passReader
  | .noReaders => m.passNoReaders self
  | .noWriter => m.passNoWriter self

end RWMutex

inductive Mode where
  | read
  | write
deriving DecidableEq, Repr

/-
What a thread holds, the innermost one first, and the lock it is waiting for.
-/
structure User where
  holds : List Mode
  waiting : Option Gate
deriving DecidableEq, Repr

inductive Action where
  | lockReader
  | unlockReader
  | lockWriter
  | unlockWriter
  -- Notified or not
  | wakeUp
deriving DecidableEq, Repr

def Gate.mode : Gate → Mode
  | .reader => .read
  | .noReaders | .noWriter => .write

structure System (Thread : Type) where
  mutex : RWMutex Thread
  users : Thread → User

namespace System

variable {Thread : Type} [DecidableEq Thread]

def new (count : UInt32) : System Thread where
  mutex := .new count
  users := fun _ => { holds := [], waiting := none }

-- A call for a lock has returned or waits
def locked (s : System Thread) (self : Thread) (mode : Mode) (res : RWMutex Thread × Option Gate)
    : System Thread where
  mutex := res.1
  users := Function.update s.users self
    (match res.2 with
    | none => { holds := mode :: (s.users self).holds, waiting := none }
    | some gate => { holds := (s.users self).holds, waiting := some gate })

def unlocked (s : System Thread) (self : Thread) (mutex : RWMutex Thread) : System Thread where
  mutex := mutex
  users := Function.update s.users self { holds := (s.users self).holds.tail, waiting := none }

/-
A step of a thread that uses the mutex in a properly nested fashion, with no write inside a read.
-/
def step (s : System Thread) : Thread × Action → Option (System Thread)
  | (self, action) =>
    let m := s.mutex
    let user := s.users self
    match user.waiting, action with
    | none, .lockReader => some (s.locked self .read (m.lockReader self))
    | none, .unlockReader =>
      if user.holds.head? = some .read then some (s.unlocked self (m.unlockReader self)) else none
    | none, .lockWriter =>
      if .read ∈ user.holds then none else some (s.locked self .write (m.lockWriter self))
    | none, .unlockWriter =>
      if user.holds.head? = some .write then some (s.unlocked self m.unlockWriter) else none
    | some gate, .wakeUp => some (s.locked self gate.mode (m.pass self gate))
    | _, _ => none

def run (count : UInt32) (actions : List (Thread × Action)) : Option (System Thread) :=
  Runs.run step (new count) actions

end System

-- The read locks that have not been taken inside a write lock
def outerReads : List Mode → Nat
  | [] => 0
  | .read :: holds => (if .write ∈ holds then 0 else 1) + outerReads holds
  | .write :: holds => outerReads holds

-- Whether it is waiting for a write lock
def User.isWaitingWriter (user : User) : Bool :=
  user.waiting = some .noReaders || user.waiting = some .noWriter

namespace System

variable {Thread : Type} [DecidableEq Thread]

/-
Whether no counter is incremented that has reached its maximum.
-/
def hasRoom (s : System Thread) : Thread × Action → Bool
  | (self, action) =>
    let m := s.mutex
    match (s.users self).waiting, action with
    | none, .lockReader => m.isWriter self || m.readersActive ≠ 0xFFFFFFFF
    | none, .lockWriter =>
      if m.isWriter self then m.count ≠ 0xFFFFFFFF else m.writersWaiting ≠ 0xFFFFFFFF
    | some .reader, .wakeUp =>
      m.writersWaiting ≠ 0 || m.writerActive || m.readersActive ≠ 0xFFFFFFFF
    | _, _ => true

/-
What holds for each of the threads.
-/
structure UserInv (m : RWMutex Thread) (t : Thread) (user : User) : Prop where
  -- Reads are inside of writes
  nested : ∃ r w, user.holds = List.replicate r .read ++ List.replicate w .write
  -- A call has to wait only if the thread holds no lock at all
  waiting : user.waiting ≠ none → user.holds = []
  held : .write ∈ user.holds → m.isWriter t = true ∧ m.count.toNat = user.holds.count .write
  priority : user.waiting = some .noWriter → m.readersActive = 0

variable [Fintype Thread]

structure Inv (s : System Thread) : Prop where
  users : ∀ t, UserInv s.mutex t (s.users t)
  active : s.mutex.writerActive = true →
    ∃ t, s.mutex.writer = some t ∧ .write ∈ (s.users t).holds
  readers : s.mutex.readersActive.toNat = ∑ t, outerReads (s.users t).holds
  writers : s.mutex.writersWaiting.toNat = ∑ t, (s.users t).isWaitingWriter.toNat
  excluded : s.mutex.writerActive = true → s.mutex.readersActive = 0

variable {s s' : System Thread} {self : Thread}

theorem new_inv (count : UInt32) : Inv (new count : System Thread) where
  users := fun _ => ⟨⟨0, 0, rfl⟩, fun _ => rfl, by simp [new], fun _ => rfl⟩
  active := by simp [new, RWMutex.new]
  readers := by simp [new, RWMutex.new, outerReads]
  writers := by simp [new, RWMutex.new, User.isWaitingWriter]
  excluded := fun _ => rfl

theorem toNat_add_one {c : UInt32} (h : c ≠ 0xFFFFFFFF) : (c + 1).toNat = c.toNat + 1 := by
  have hne : c.toNat ≠ 0xFFFFFFFF := by
    intro heq
    exact h (UInt32.toNat_inj.mp heq)
  have hlt := c.toNat_lt
  rw [UInt32.toNat_add]
  exact Nat.mod_eq_of_lt (by simp; omega)

theorem toNat_sub_one {c : UInt32} (h : c ≠ 0) : (c - 1).toNat = c.toNat - 1 := by
  have hpos : 1 ≤ c.toNat := by
    have hne : c.toNat ≠ 0 := by
      intro heq
      exact h (UInt32.toNat_inj.mp heq)
    omega
  exact UInt32.toNat_sub_of_le c 1 (UInt32.le_iff_toNat_le.mpr hpos)

section OuterReads

theorem outerReads_of_write_mem {holds : List Mode} {r w : Nat}
    (h : holds = List.replicate r .read ++ List.replicate w .write) (hmem : .write ∈ holds)
    : outerReads holds = 0 := by
  subst h
  induction r with
  | zero =>
    clear hmem
    rw [List.replicate_zero, List.nil_append]
    induction w with
    | zero => rfl
    | succ w ih => exact ih
  | succ r ih =>
    rw [List.replicate_succ, List.cons_append] at hmem
    have hmem : .write ∈ List.replicate r Mode.read ++ List.replicate w .write := by
      simpa using hmem
    rw [List.replicate_succ, List.cons_append, outerReads, if_pos hmem, ih hmem]

theorem outerReads_eq_zero {holds : List Mode} (h : outerReads holds = 0) (hmem : .read ∈ holds)
    : .write ∈ holds := by
  induction holds with
  | nil => simp at hmem
  | cons mode holds ih =>
    cases mode with
    | write => simp
    | read =>
      rw [outerReads] at h
      split at h
      . next hwrite => simp [hwrite]
      . omega

end OuterReads

-- The state after a step of one thread
def update (s : System Thread) (self : Thread) (mutex : RWMutex Thread) (user : User)
    : System Thread where
  mutex := mutex
  users := Function.update s.users self user

namespace Inv

/-
What has to be shown for a step: the other threads are not affected by it, and the counters change by
what the thread itself contributes to them.
-/
theorem update (h : Inv s) {mutex : RWMutex Thread} {user : User}
    (hself : UserInv mutex self user)
    (hother : ∀ t, t ≠ self → UserInv s.mutex t (s.users t) → UserInv mutex t (s.users t))
    (hactive : mutex.writerActive = true →
      ∃ t, mutex.writer = some t ∧ .write ∈ (Function.update s.users self user t).holds)
    (hreaders : mutex.readersActive.toNat + outerReads (s.users self).holds
      = s.mutex.readersActive.toNat + outerReads user.holds)
    (hwriters : mutex.writersWaiting.toNat + (s.users self).isWaitingWriter.toNat
      = s.mutex.writersWaiting.toNat + user.isWaitingWriter.toNat)
    (hexcluded : mutex.writerActive = true → mutex.readersActive = 0)
    : Inv (s.update self mutex user) := by
  have hreads := Runs.sum_update (fun user => outerReads user.holds) s.users self user
  have hwaiting := Runs.sum_update (fun user => user.isWaitingWriter.toNat) s.users self user
  have h1 := h.readers
  have h2 := h.writers
  refine ⟨?_, hactive, ?_, ?_, hexcluded⟩
  . exact Runs.forall_update hself fun t ht => hother t ht (h.users t)
  . dsimp only [System.update]
    omega
  . dsimp only [System.update]
    omega

theorem write_notMem (h : Inv s) (hwriter : s.mutex.isWriter self = false)
    : .write ∉ (s.users self).holds := by
  intro hmem
  rw [((h.users self).held hmem).1] at hwriter
  contradiction

theorem write_mem (h : Inv s) (hwriter : s.mutex.isWriter self = true)
    : .write ∈ (s.users self).holds := by
  simp only [RWMutex.isWriter, Bool.and_eq_true, decide_eq_true_eq] at hwriter
  obtain ⟨t, ht, hmem⟩ := h.active hwriter.1
  rw [hwriter.2] at ht
  cases ht
  exact hmem

-- Nobody holds a write lock without a writer
theorem write_notMem_of_inactive (h : Inv s) (hactive : s.mutex.writerActive = false) (t : Thread)
    : .write ∉ (s.users t).holds := by
  apply h.write_notMem
  simp [RWMutex.isWriter, hactive]

theorem read_notMem (h : Inv s) (hreaders : s.mutex.readersActive = 0)
    (hwriter : s.mutex.isWriter self = false)
    : .read ∉ (s.users self).holds := by
  intro hmem
  have hsum := h.readers
  rw [hreaders, UInt32.toNat_zero] at hsum
  have hzero : outerReads (s.users self).holds = 0 :=
    (Finset.sum_eq_zero_iff.mp hsum.symm) self (Finset.mem_univ self)
  exact h.write_notMem hwriter (outerReads_eq_zero hzero hmem)

theorem holds_eq_nil (h : Inv s) (hwriter : s.mutex.isWriter self = false)
    (hreads : .read ∉ (s.users self).holds)
    : (s.users self).holds = [] := by
  apply List.eq_nil_iff_forall_not_mem.mpr
  intro mode
  cases mode with
  | read => exact hreads
  | write => exact h.write_notMem hwriter

theorem idle_of_holds (h : Inv s) (hne : (s.users self).holds ≠ [])
    : (s.users self).waiting = none := by
  apply Classical.byContradiction
  intro hwaiting
  exact hne ((h.users self).waiting hwaiting)

/-
A thread that holds a write lock takes or releases another lock inside of it.
-/
theorem inside (h : Inv s) (holds : List Mode) (count : UInt32)
    (hmem : .write ∈ (s.users self).holds) (hmem' : .write ∈ holds)
    (hnested : ∃ r w, holds = List.replicate r .read ++ List.replicate w .write)
    (hcount : count.toNat = holds.count .write)
    : Inv (s.update self { s.mutex with count := count } { holds := holds, waiting := none }) := by
  have hwriter := ((h.users self).held hmem).1
  have hidle := h.idle_of_holds (List.ne_nil_of_mem hmem)
  obtain ⟨r, w, hshape⟩ := (h.users self).nested
  obtain ⟨r', w', hshape'⟩ := hnested
  have hwriter' : s.mutex.writerActive = true ∧ s.mutex.writer = some self := by
    simpa [RWMutex.isWriter] using hwriter
  apply h.update
  . exact ⟨⟨r', w', hshape'⟩, by simp, fun _ => ⟨hwriter, hcount⟩, by simp⟩
  . intro t ht hinv
    refine ⟨hinv.nested, hinv.waiting, ?_, hinv.priority⟩
    intro hwrite
    have hother := (hinv.held hwrite).1
    simp [RWMutex.isWriter, hwriter', Ne.symm ht] at hother
  . intro _
    exact ⟨self, hwriter'.2, by rw [Function.update_self]; exact hmem'⟩
  . rw [outerReads_of_write_mem hshape hmem, outerReads_of_write_mem hshape' hmem']
  . simp [User.isWaitingWriter, hidle]
  . exact h.excluded

/-
A thread starts to wait, or waits for something else. It holds no lock.
-/
theorem await (h : Inv s) (gate : Gate) (writersWaiting : UInt32)
    (hnil : (s.users self).holds = [])
    (hwriters : writersWaiting.toNat + (s.users self).isWaitingWriter.toNat
      = s.mutex.writersWaiting.toNat
        + (User.isWaitingWriter { holds := [], waiting := some gate }).toNat)
    (hpriority : gate = .noWriter → s.mutex.readersActive = 0)
    : Inv (s.update self { s.mutex with writersWaiting := writersWaiting }
        { holds := [], waiting := some gate }) := by
  apply h.update
  . refine ⟨⟨0, 0, rfl⟩, fun _ => rfl, by simp, ?_⟩
    intro hgate
    exact hpriority (by simpa using hgate)
  . intro t _ hinv
    exact ⟨hinv.nested, hinv.waiting, hinv.held, hinv.priority⟩
  . intro hactive
    obtain ⟨t, ht, hmem⟩ := h.active hactive
    refine ⟨t, ht, ?_⟩
    have hne : t ≠ self := by
      intro heq
      rw [heq, hnil] at hmem
      simp at hmem
    rw [Function.update_of_ne hne]
    exact hmem
  . rw [hnil]
  . exact hwriters
  . exact h.excluded

theorem readerEnters (h : Inv s) (hactive : s.mutex.writerActive = false)
    (hgate : ∀ t, (s.users t).waiting ≠ some .noWriter)
    (hwaiting : (s.users self).isWaitingWriter = false)
    (hroom : s.mutex.readersActive ≠ 0xFFFFFFFF)
    : Inv (s.update self { s.mutex with readersActive := s.mutex.readersActive + 1 }
        { holds := .read :: (s.users self).holds, waiting := none }) := by
  have hwrite := h.write_notMem_of_inactive hactive
  apply h.update
  . refine ⟨?_, by simp, ?_, by simp⟩
    . obtain ⟨r, w, hshape⟩ := (h.users self).nested
      exact ⟨r + 1, w, by rw [hshape]; rfl⟩
    . intro hmem
      exact absurd (by simpa using hmem) (hwrite self)
  . intro t _ hinv
    exact ⟨hinv.nested, hinv.waiting, fun hmem => absurd hmem (hwrite t),
      fun hnoWriter => absurd hnoWriter (hgate t)⟩
  . intro hactive'
    rw [hactive] at hactive'
    contradiction
  . rw [outerReads, if_neg (hwrite self), toNat_add_one hroom]
    omega
  . rw [hwaiting]
    rfl
  . intro hactive'
    rw [hactive] at hactive'
    contradiction

theorem readerLeaves (h : Inv s) {holds : List Mode} (hwriter : s.mutex.isWriter self = false)
    (hholds : (s.users self).holds = .read :: holds)
    : Inv (s.update self { s.mutex with readersActive := s.mutex.readersActive - 1 }
        { holds := holds, waiting := none }) := by
  have hwrite := h.write_notMem hwriter
  rw [hholds] at hwrite
  have hidle : (s.users self).waiting = none := h.idle_of_holds (by rw [hholds]; simp)
  have hread : s.mutex.readersActive ≠ 0 := by
    intro hzero
    exact h.read_notMem hzero hwriter (by rw [hholds]; simp)
  have hactive : s.mutex.writerActive ≠ true := fun hactive => hread (h.excluded hactive)
  apply h.update
  . refine ⟨?_, by simp, fun hmem => absurd (by simp [hmem]) hwrite, by simp⟩
    obtain ⟨r, w, hshape⟩ := (h.users self).nested
    rw [hholds] at hshape
    cases r with
    | zero => cases w <;> simp [List.replicate_succ] at hshape
    | succ r =>
      rw [List.replicate_succ, List.cons_append, List.cons.injEq] at hshape
      exact ⟨r, w, hshape.2⟩
  . intro t _ hinv
    exact ⟨hinv.nested, hinv.waiting, hinv.held,
      fun hnoWriter => absurd (hinv.priority hnoWriter) hread⟩
  . intro hactive'
    exact absurd hactive' hactive
  . have hpos : 1 ≤ s.mutex.readersActive.toNat := by
      have hne : s.mutex.readersActive.toNat ≠ 0 := fun heq => hread (UInt32.toNat_inj.mp heq)
      omega
    rw [hholds, outerReads, if_neg (by simpa using hwrite), toNat_sub_one hread]
    dsimp only
    omega
  . simp [User.isWaitingWriter, hidle]
  . intro hactive'
    exact absurd hactive' hactive

theorem writerEnters (h : Inv s) (hactive : s.mutex.writerActive = false)
    (hreaders : s.mutex.readersActive = 0) (hwaiting : (s.users self).isWaitingWriter = true)
    : Inv (s.update self
        { s.mutex with writersWaiting := s.mutex.writersWaiting - 1
                       writerActive := true
                       writer := some self
                       count := 1 }
        { holds := [.write], waiting := none }) := by
  have hnil : (s.users self).holds = [] := by
    apply (h.users self).waiting
    intro hnone
    simp [User.isWaitingWriter, hnone] at hwaiting
  have hle : 1 ≤ s.mutex.writersWaiting.toNat := by
    rw [h.writers]
    refine Nat.le_trans ?_ (Finset.single_le_sum (fun t _ => Nat.zero_le _) (Finset.mem_univ self))
    rw [hwaiting]
    rfl
  have hne : s.mutex.writersWaiting ≠ 0 := by
    intro hzero
    rw [hzero] at hle
    simp at hle
  apply h.update
  . exact ⟨⟨0, 1, rfl⟩, by simp, fun _ => ⟨by simp [RWMutex.isWriter], rfl⟩, by simp⟩
  . intro t _ hinv
    exact ⟨hinv.nested, hinv.waiting,
      fun hmem => absurd hmem (h.write_notMem_of_inactive hactive t), hinv.priority⟩
  . intro _
    exact ⟨self, rfl, by rw [Function.update_self]; simp⟩
  . rw [hnil]
    rfl
  . have hidle : (User.isWaitingWriter { holds := [.write], waiting := none }).toNat = 0 := rfl
    rw [hwaiting, toNat_sub_one hne, hidle, Bool.toNat_true]
    omega
  . exact fun _ => hreaders

theorem writerLeaves (h : Inv s) (hholds : (s.users self).holds = [.write])
    : Inv (s.update self { s.mutex with count := s.mutex.count - 1, writerActive := false }
        { holds := [], waiting := none }) := by
  have hmem : .write ∈ (s.users self).holds := by
    rw [hholds]
    simp
  have hwriter := ((h.users self).held hmem).1
  have hidle := h.idle_of_holds (List.ne_nil_of_mem hmem)
  simp only [RWMutex.isWriter, Bool.and_eq_true, decide_eq_true_eq] at hwriter
  apply h.update
  . exact ⟨⟨0, 0, rfl⟩, fun _ => rfl, by simp, by simp⟩
  . intro t ht hinv
    refine ⟨hinv.nested, hinv.waiting, ?_, hinv.priority⟩
    intro hwrite
    have hother := (hinv.held hwrite).1
    simp [RWMutex.isWriter, hwriter, Ne.symm ht] at hother
  . intro hactive
    contradiction
  . rw [hholds]
    rfl
  . simp [User.isWaitingWriter, hidle]
  . intro hactive
    contradiction

end Inv

section Steps

theorem passReader_inv (h : Inv s) (hwaiting : (s.users self).waiting = some .reader)
    (hroom : s.mutex.writersWaiting = 0 → s.mutex.writerActive = false →
      s.mutex.readersActive ≠ 0xFFFFFFFF)
    : Inv (s.locked self .read s.mutex.passReader) := by
  have hnil := (h.users self).waiting (by simp [hwaiting])
  unfold RWMutex.passReader
  split
  . have := h.await .reader s.mutex.writersWaiting hnil (by simp [User.isWaitingWriter, hwaiting])
      (by simp)
    rw [locked, hnil]
    exact this
  . next hpass =>
    simp only [ne_eq, not_or, Decidable.not_not, Bool.not_eq_true] at hpass
    apply h.readerEnters hpass.2 _ (by simp [User.isWaitingWriter, hwaiting])
      (hroom hpass.1 hpass.2)
    -- No writer is waiting
    intro t ht
    have hsum := h.writers
    rw [hpass.1, UInt32.toNat_zero] at hsum
    have hzero := (Finset.sum_eq_zero_iff.mp hsum.symm) t (Finset.mem_univ t)
    simp [User.isWaitingWriter, ht] at hzero

theorem passNoWriter_inv (h : Inv s) (hreaders : s.mutex.readersActive = 0)
    (hwaiting : (s.users self).isWaitingWriter = true)
    : Inv (s.locked self .write (s.mutex.passNoWriter self)) := by
  have hnil : (s.users self).holds = [] := by
    apply (h.users self).waiting
    intro hnone
    simp [User.isWaitingWriter, hnone] at hwaiting
  unfold RWMutex.passNoWriter
  split
  . have := h.await .noWriter s.mutex.writersWaiting hnil
      (by rw [hwaiting]; rfl) (fun _ => hreaders)
    rw [locked, hnil]
    exact this
  . next hactive =>
    have := h.writerEnters (by simpa using hactive) hreaders hwaiting
    rw [locked, hnil]
    exact this

theorem passNoReaders_inv (h : Inv s) (hwaiting : (s.users self).waiting = some .noReaders)
    : Inv (s.locked self .write (s.mutex.passNoReaders self)) := by
  have hnil := (h.users self).waiting (by simp [hwaiting])
  unfold RWMutex.passNoReaders
  split
  . have := h.await .noReaders s.mutex.writersWaiting hnil (by simp [User.isWaitingWriter, hwaiting])
      (by simp)
    rw [locked, hnil]
    exact this
  . next hreaders =>
    exact passNoWriter_inv h (by simpa using hreaders) (by simp [User.isWaitingWriter, hwaiting])

omit [Fintype Thread] in
-- A call that waits is not different from one that has been called while waiting
theorem locked_update (s : System Thread) (self : Thread) (mode : Mode) (mutex : RWMutex Thread)
    (gate : Gate) (res : RWMutex Thread × Option Gate) (hnil : (s.users self).holds = [])
    : (s.update self mutex { holds := [], waiting := some gate }).locked self mode res
        = s.locked self mode res := by
  unfold locked System.update
  simp only [Function.update_self, Function.update_idem, hnil]

theorem lockReader_inv (h : Inv s) (hidle : (s.users self).waiting = none)
    (hroom : s.hasRoom (self, .lockReader) = true)
    : Inv (s.locked self .read (s.mutex.lockReader self)) := by
  simp only [hasRoom, hidle, Bool.or_eq_true, decide_eq_true_eq] at hroom
  unfold RWMutex.lockReader
  split
  . next hwriter =>
    have hmem := h.write_mem hwriter
    obtain ⟨r, w, hshape⟩ := (h.users self).nested
    exact h.inside (.read :: (s.users self).holds) s.mutex.count hmem (by simp [hmem])
      ⟨r + 1, w, by rw [hshape]; rfl⟩ (by simpa using ((h.users self).held hmem).2)
  . next hwriter =>
    have hroom : s.mutex.readersActive ≠ 0xFFFFFFFF := by
      cases hroom with
      | inl hroom => exact absurd hroom hwriter
      | inr hroom => exact hroom
    split
    . next hreaders =>
      have hwriter : s.mutex.isWriter self = false := by simpa using hwriter
      have hnil := h.holds_eq_nil hwriter (h.read_notMem hreaders hwriter)
      have hwait := h.await .reader s.mutex.writersWaiting hnil
        (by simp [User.isWaitingWriter, hidle]) (by simp)
      rw [← locked_update s self .read s.mutex .reader _ hnil]
      exact passReader_inv hwait (by simp [System.update]) (fun _ _ => hroom)
    . next hreaders =>
      apply h.readerEnters _ _ (by simp [User.isWaitingWriter, hidle]) hroom
      . apply Bool.eq_false_iff.mpr
        exact fun hactive => hreaders (h.excluded hactive)
      . exact fun t ht => hreaders ((h.users t).priority ht)

theorem unlockReader_inv (h : Inv s) (hread : (s.users self).holds.head? = some .read)
    : Inv (s.unlocked self (s.mutex.unlockReader self)) := by
  obtain ⟨holds, hholds⟩ := List.head?_eq_some_iff.mp hread
  unfold RWMutex.unlockReader unlocked
  rw [hholds, List.tail_cons]
  split
  . next hwriter =>
    have hmem := h.write_mem hwriter
    have hcount := ((h.users self).held hmem).2
    obtain ⟨r, w, hshape⟩ := (h.users self).nested
    rw [hholds] at hshape hmem hcount
    apply h.inside holds s.mutex.count (by rw [hholds]; exact hmem) (by simpa using hmem)
    . cases r with
      | zero => cases w <;> simp [List.replicate_succ] at hshape
      | succ r =>
        rw [List.replicate_succ, List.cons_append, List.cons.injEq] at hshape
        exact ⟨r, w, hshape.2⟩
    . simpa using hcount
  . next hwriter => exact h.readerLeaves (by simpa using hwriter) hholds

theorem lockWriter_inv (h : Inv s) (hidle : (s.users self).waiting = none)
    (hreads : .read ∉ (s.users self).holds) (hroom : s.hasRoom (self, .lockWriter) = true)
    : Inv (s.locked self .write (s.mutex.lockWriter self)) := by
  simp only [hasRoom, hidle] at hroom
  unfold RWMutex.lockWriter
  split
  . next hwriter =>
    rw [if_pos hwriter, decide_eq_true_eq] at hroom
    have hmem := h.write_mem hwriter
    have hcount := ((h.users self).held hmem).2
    apply h.inside (.write :: (s.users self).holds) (s.mutex.count + 1) hmem (by simp)
    . refine ⟨0, (s.users self).holds.length + 1, ?_⟩
      rw [List.replicate_zero, List.nil_append, List.replicate_succ, List.cons.injEq,
        List.eq_replicate_iff]
      refine ⟨rfl, rfl, ?_⟩
      intro mode hmode
      cases mode with
      | read => exact absurd hmode hreads
      | write => rfl
    . rw [List.count_cons_self, toNat_add_one hroom, hcount]
  . next hwriter =>
    rw [if_neg hwriter, decide_eq_true_eq] at hroom
    have hnil := h.holds_eq_nil (by simpa using hwriter) hreads
    have hwait := h.await .noReaders (s.mutex.writersWaiting + 1) hnil
      (by rw [toNat_add_one hroom]; simp [User.isWaitingWriter, hidle]) (by simp)
    rw [← locked_update s self .write
      { s.mutex with writersWaiting := s.mutex.writersWaiting + 1 } .noReaders _ hnil]
    exact passNoReaders_inv hwait (by simp [System.update])

theorem unlockWriter_inv (h : Inv s) (hwrite : (s.users self).holds.head? = some .write)
    : Inv (s.unlocked self s.mutex.unlockWriter) := by
  obtain ⟨holds, hholds⟩ := List.head?_eq_some_iff.mp hwrite
  have hmem : .write ∈ (s.users self).holds := by
    rw [hholds]
    simp
  have hcount := ((h.users self).held hmem).2
  obtain ⟨r, w, hshape⟩ := (h.users self).nested
  rw [hholds] at hshape hcount
  rw [List.count_cons_self] at hcount
  have hne : s.mutex.count ≠ 0 := by
    intro hzero
    rw [hzero] at hcount
    simp at hcount
  have hsub := toNat_sub_one hne
  -- The lock is on top, so there are writes only
  obtain ⟨w, rfl⟩ : ∃ w, holds = List.replicate w .write := by
    cases r with
    | zero =>
      cases w with
      | zero => simp at hshape
      | succ w =>
        rw [List.replicate_zero, List.nil_append, List.replicate_succ, List.cons.injEq] at hshape
        exact ⟨w, hshape.2⟩
    | succ r => simp [List.replicate_succ] at hshape
  rw [List.count_replicate_self] at hcount
  unfold RWMutex.unlockWriter unlocked
  rw [hholds, List.tail_cons]
  split
  . next hlast =>
    rw [hlast, UInt32.toNat_zero] at hsub
    have hzero : w = 0 := by omega
    subst hzero
    exact h.writerLeaves hholds
  . next hmore =>
    have hpos : w ≠ 0 := by
      intro hzero
      apply hmore
      rw [← UInt32.toNat_inj, hsub, hcount, hzero]
      rfl
    apply h.inside (List.replicate w .write) (s.mutex.count - 1) hmem
      (List.mem_replicate.mpr ⟨hpos, rfl⟩) ⟨0, w, rfl⟩
    rw [List.count_replicate_self]
    omega

theorem step_inv (h : Inv s) {action : Thread × Action} (hroom : s.hasRoom action = true)
    (hstep : s.step action = some s')
    : Inv s' := by
  obtain ⟨self, action⟩ := action
  unfold step at hstep
  dsimp only at hstep
  split at hstep
  . next hidle =>
    cases hstep
    exact lockReader_inv h hidle hroom
  . next hidle =>
    split at hstep
    . next hread =>
      cases hstep
      exact unlockReader_inv h hread
    . contradiction
  . next hidle =>
    split at hstep
    . contradiction
    . next hreads =>
      cases hstep
      exact lockWriter_inv h hidle hreads hroom
  . next hidle =>
    split at hstep
    . next hwrite =>
      cases hstep
      exact unlockWriter_inv h hwrite
    . contradiction
  . next gate hwaiting =>
    cases hstep
    cases gate with
    | reader =>
      apply passReader_inv h hwaiting
      intro h1 h2
      simpa [hasRoom, hwaiting, h1, h2] using hroom
    | noReaders => exact passNoReaders_inv h hwaiting
    | noWriter =>
      exact passNoWriter_inv h ((h.users self).priority hwaiting)
        (by simp [User.isWaitingWriter, hwaiting])
  . contradiction

end Steps

/--
In every run in which no counter overflows, writers exclude each other and readers, the readers are
counted correctly, and there are as many writers waiting as the mutex says.
-/
theorem run_excludes (count : UInt32) (actions : List (Thread × Action)) (s : System Thread)
    (hroom : Runs.all step hasRoom (new count) actions = true) (hrun : run count actions = some s)
    : (∀ t1 t2, t1 ≠ t2 → .write ∈ (s.users t1).holds → .write ∉ (s.users t2).holds)
        ∧
      (∀ t1 t2, t1 ≠ t2 → .write ∈ (s.users t1).holds → .read ∉ (s.users t2).holds)
        ∧
      s.mutex.readersActive.toNat = ∑ t, outerReads (s.users t).holds
        ∧
      s.mutex.writersWaiting.toNat = ∑ t, (s.users t).isWaitingWriter.toNat
        ∧
      (∀ t, (s.users t).isWaitingWriter = true → s.mutex.writersWaiting ≠ 0) := by
  have h := Runs.run_inv_of_all (fun s a s' h hroom hstep => step_inv h hroom hstep)
    (new_inv count) hroom hrun
  have hother : ∀ t1 t2, t1 ≠ t2 → .write ∈ (s.users t1).holds →
      s.mutex.isWriter t2 = false ∧ s.mutex.readersActive = 0 := by
    intro t1 t2 hne hwrite
    have hwriter := ((h.users t1).held hwrite).1
    simp only [RWMutex.isWriter, Bool.and_eq_true, decide_eq_true_eq] at hwriter
    refine ⟨?_, h.excluded hwriter.1⟩
    simp [RWMutex.isWriter, hwriter, hne]
  refine ⟨?_, ?_, h.readers, h.writers, ?_⟩
  . intro t1 t2 hne hwrite
    exact h.write_notMem (hother t1 t2 hne hwrite).1
  . intro t1 t2 hne hwrite
    obtain ⟨hwriter, hreaders⟩ := hother t1 t2 hne hwrite
    exact h.read_notMem hreaders hwriter
  . intro t hwaiting hzero
    have hsum := h.writers
    rw [hzero, UInt32.toNat_zero] at hsum
    have := (Finset.sum_eq_zero_iff.mp hsum.symm) t (Finset.mem_univ t)
    rw [hwaiting] at this
    contradiction

-- A read inside a write, while another writer and a reader are waiting; then the writer is next.
def nestedRun : List (Fin 3 × Action) :=
  [(0, .lockWriter), (0, .lockReader), (1, .lockWriter), (2, .lockReader), (1, .wakeUp),
    (0, .unlockReader), (0, .unlockWriter), (2, .wakeUp), (1, .wakeUp)]

theorem run_excludes_nested
    : ∃ s : System (Fin 3), run 7 nestedRun = some s
        ∧
      ((s.users 1).holds = [.write] ∧ (s.users 2).waiting = some .reader)
        ∧
      s.mutex.readersActive.toNat = ∑ t, outerReads (s.users t).holds := by
  have hsome : (run 7 nestedRun).isSome = true := by decide
  have hrun : run 7 nestedRun = some ((run 7 nestedRun).get hsome) := (Option.some_get hsome).symm
  have hexcludes := run_excludes 7 nestedRun _ (by decide) hrun
  exact ⟨_, hrun, ⟨rfl, rfl⟩, hexcludes.2.2.1⟩

-- One of two threads has taken the read lock a number of times.
def reading (n : Nat) : System Bool where
  mutex := { RWMutex.new 0 with readersActive := UInt32.ofNat n }
  users := fun t => { holds := if t then [] else List.replicate n .read, waiting := none }

theorem step_reading (n : Nat) : (reading n).step (false, .lockReader) = some (reading (n + 1)) := by
  have hnext : UInt32.ofNat n + 1 = UInt32.ofNat (n + 1) := by
    rw [UInt32.ofNat_add]
    rfl
  have hlock : (reading n).mutex.lockReader false = ((reading (n + 1)).mutex, none) := by
    have hmutex : (reading (n + 1)).mutex
        = { (reading n).mutex with readersActive := (reading n).mutex.readersActive + 1 } := by
      dsimp only [reading]
      rw [← hnext]
    rw [hmutex]
    unfold RWMutex.lockReader
    rw [if_neg (by simp [RWMutex.isWriter, reading, RWMutex.new])]
    split
    . rfl
    . rfl
  have husers : (reading (n + 1)).users
      = Function.update (reading n).users false
          { holds := .read :: ((reading n).users false).holds, waiting := none } := by
    funext t
    cases t with
    | false => rfl
    | true => rfl
  unfold step
  dsimp only [reading]
  have : (reading n).locked false .read ((reading n).mutex.lockReader false) = reading (n + 1) := by
    rw [hlock, locked, ← husers]
  exact congrArg some this

theorem run_reading (n k : Nat)
    : Runs.run step (reading k) (List.replicate n (false, .lockReader)) = some (reading (k + n)) := by
  induction n generalizing k with
  | zero => rfl
  | succ n ih =>
    rw [List.replicate_succ, Runs.run, step_reading]
    dsimp only
    rw [ih, Nat.add_right_comm, Nat.add_assoc]

/--
After `2 ^ 32` read locks there appear to be no readers, and another thread gets the write lock.
-/
theorem run_readers_overflow
    : ¬(∀ (actions : List (Bool × Action)) (s : System Bool), run 0 actions = some s →
        (∀ t1 t2, t1 ≠ t2 → .write ∈ (s.users t1).holds → .write ∉ (s.users t2).holds)
          ∧
        (∀ t1 t2, t1 ≠ t2 → .write ∈ (s.users t1).holds → .read ∉ (s.users t2).holds)
          ∧
        s.mutex.readersActive.toNat = ∑ t, outerReads (s.users t).holds
          ∧
        s.mutex.writersWaiting.toNat = ∑ t, (s.users t).isWaitingWriter.toNat
          ∧
        (∀ t, (s.users t).isWaitingWriter = true → s.mutex.writersWaiting ≠ 0)) := by
  intro h
  have hnew : (new 0 : System Bool) = reading 0 := by
    unfold new reading
    congr
    funext t
    cases t <;> rfl
  have hreading : run 0 (List.replicate (2 ^ 32) (false, .lockReader)) = some (reading (2 ^ 32)) := by
    rw [run, hnew, run_reading, Nat.zero_add]
  have hwriter : (reading (2 ^ 32)).mutex.lockWriter true
      = ({ (reading (2 ^ 32)).mutex with writerActive := true, writer := some true, count := 1 },
        none) := by
    rfl
  have hstep : (reading (2 ^ 32)).step (true, .lockWriter)
      = some ((reading (2 ^ 32)).locked true .write ((reading (2 ^ 32)).mutex.lockWriter true)) := by
    rfl
  have hrun : run 0 (List.replicate (2 ^ 32) (false, .lockReader) ++ [(true, .lockWriter)])
      = some ((reading (2 ^ 32)).locked true .write ((reading (2 ^ 32)).mutex.lockWriter true)) := by
    rw [run, Runs.run_append hreading, Runs.run_step hstep]
    rfl
  have hexcludes := (h _ _ hrun).2.1 true false (by decide)
  rw [hwriter] at hexcludes
  apply hexcludes
  . exact List.mem_cons_self
  . exact List.mem_replicate.mpr ⟨by decide, rfl⟩

end System

end MT
end ObTools
