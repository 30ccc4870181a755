import ObTools.Lib.Runs

/-!
This module contains the model of `MT::DataQueue`, with a thread that reads from it and any number of
threads that write to it. What is done while the mutex of the queue is held is one step, and so is what
the reader does on its own in between.

It then contains what the reader of a `DataQueue` gets: the bytes that have been written and no others,
in their order, and when a read has to wait for more of them than it asks for.
-/

namespace ObTools
namespace MT

structure DataBlock where
  -- `none` for the null pointer, which is the EOF marker
  data : Option (List UInt8)
  length : Nat
deriving DecidableEq, Repr

namespace DataBlock

def new : DataBlock := { data := none, length := 0 }

def ofData (data : List UInt8) : DataBlock := { data := some data, length := data.length }

def bytes (b : DataBlock) : List UInt8 := b.data.getD []

end DataBlock

structure DataQueue where
  q : List DataBlock
  workingBlock : DataBlock
  workingBlockUsed : Nat
  eof : Bool
deriving DecidableEq, Repr

namespace DataQueue

/-
Where the reader is in `read`: at the head of the loop, before `poll` or in `wait`.
-/
inductive Pc where
  | loop
  | poll
  | wait
deriving DecidableEq, Repr

-- A call of `read`, with what it has got already
structure Reading where
  length : Nat
  block : Bool
  n : Nat
  bytes : List UInt8
  pc : Pc
deriving DecidableEq, Repr

def new : DataQueue := { q := [], workingBlock := .new, workingBlockUsed := 0, eof := false }

def send (dq : DataQueue) (b : DataBlock) : DataQueue := { dq with q := dq.q ++ [b] }

def write (dq : DataQueue) (data : List UInt8) : DataQueue := dq.send (.ofData data)

def close (dq : DataQueue) : DataQueue := dq.send .new

-- See how much we can satisfy with the working block, if there is one
def satisfy (dq : DataQueue) (r : Reading) : DataQueue × Reading :=
  if dq.workingBlock.length ≠ 0 then
    let wbAvail := dq.workingBlock.length - dq.workingBlockUsed
    let toCopy := if wbAvail < r.length - r.n then wbAvail else r.length - r.n
    let copied := (dq.workingBlock.bytes.drop dq.workingBlockUsed).take toCopy
    let used := dq.workingBlockUsed + toCopy
    -- Delete it if we have used it up
    let workingBlock :=
      if used ≥ dq.workingBlock.length then { dq.workingBlock with length := 0 } else dq.workingBlock
    ({ dq with workingBlock, workingBlockUsed := used },
      { r with n := r.n + toCopy, bytes := r.bytes ++ copied })
  else
    (dq, r)

-- What `wait` gives becomes the working block
def take (dq : DataQueue) (b : DataBlock) (q : List DataBlock) : DataQueue :=
  { q, workingBlock := b, workingBlockUsed := 0, eof := dq.eof || b.data.isNone }

/-
What a call of `read` has returned and copied, and whether EOF has been noted by then.
-/
structure Result where
  length : Nat
  block : Bool
  n : Nat
  bytes : List UInt8
  eof : Bool
deriving DecidableEq, Repr

/-
The last three are ghosts.
-/
structure System where
  queue : DataQueue
  reading : Option Reading
  closed : Bool
  written : List UInt8
  results : List Result
deriving DecidableEq, Repr

inductive Event where
  | write (data : List UInt8) (ne : data ≠ [])
  | close
  -- The reader calls `read`
  | read (length : Nat) (block : Bool)
  -- The reader goes on
  | reader
deriving DecidableEq, Repr

namespace System

def new : System := { queue := .new, reading := none, closed := false, written := [], results := [] }

def finish (s : System) (r : Reading) : System :=
  { s with
    reading := none
    results :=
      s.results ++ [{ length := r.length, block := r.block, n := r.n, bytes := r.bytes, eof := s.queue.eof }] }

-- One time round the loop up to where the queue is needed
def loop (s : System) (r : Reading) : System :=
  if r.n < r.length ∧ s.queue.eof = false then
    let (queue, r) := s.queue.satisfy r
    -- If there is no working block, or we just used it up, get another one
    if queue.workingBlock.length = 0 then
      { s with queue, reading := some { r with pc := if r.block then .wait else .poll } }
    else
      { s with queue, reading := some r }
  else
    s.finish r

-- `none` while the reader is blocked, or not in a call
def reader (s : System) : Option System :=
  match s.reading with
  | none => none
  | some r =>
    match r.pc with
    | .loop => some (s.loop r)
    | .poll => if s.queue.q = [] then some (s.finish r) else some { s with reading := some { r with pc := .wait } }
    | .wait =>
      match s.queue.q with
      | [] => none
      | b :: q => some { s with queue := s.queue.take b q, reading := some { r with pc := .loop } }

def read (s : System) (length : Nat) (block : Bool) : System :=
  { s with reading := some { length, block, n := 0, bytes := [], pc := .loop } }

-- Nothing is sent any more when the queue has been closed.
def step (s : System) : Event → Option System
  | .write data _ =>
    if s.closed then none else some { s with queue := s.queue.write data, written := s.written ++ data }
  | .close => if s.closed then none else some { s with queue := s.queue.close, closed := true }
  | .read length block => if s.reading = none then some (s.read length block) else none
  | .reader => s.reader

end System

-- What is left of the working block
def rest (dq : DataQueue) : List UInt8 :=
  if dq.workingBlock.length = 0 then [] else dq.workingBlock.bytes.drop dq.workingBlockUsed

def queued (dq : DataQueue) : List UInt8 := dq.q.flatMap DataBlock.bytes

def unread (dq : DataQueue) : List UInt8 := dq.rest ++ dq.queued

/-
A block in the queue has data, unless it is the EOF marker.
-/
def IsBlock (b : DataBlock) : Prop := b = .new ∨ ∃ data, data ≠ [] ∧ b = .ofData data

structure Sound (dq : DataQueue) : Prop where
  blocks : ∀ b ∈ dq.q, IsBlock b
  working : dq.workingBlock.length ≠ 0 →
    dq.workingBlock.bytes.length = dq.workingBlock.length ∧ dq.workingBlockUsed < dq.workingBlock.length

variable {dq : DataQueue} {r : Reading} {b : DataBlock} {q : List DataBlock}

theorem Sound.length_rest (h : dq.Sound)
    : dq.rest.length = (if dq.workingBlock.length = 0 then 0 else dq.workingBlock.length - dq.workingBlockUsed) := by
  unfold rest
  split
  . rfl
  . next hne => rw [List.length_drop, (h.working hne).1]

theorem Sound.rest_eq_nil_iff (h : dq.Sound) : dq.rest = [] ↔ dq.workingBlock.length = 0 := by
  rw [← List.length_eq_zero_iff, h.length_rest]
  split
  . next hzero => exact iff_of_true rfl hzero
  . next hne =>
    have := (h.working hne).2
    omega

theorem sound_new : new.Sound := ⟨fun b hb => absurd hb (List.not_mem_nil), fun h => absurd rfl h⟩

theorem Sound.send (h : dq.Sound) (hb : IsBlock b) : (dq.send b).Sound := by
  refine ⟨?_, h.working⟩
  intro c hc
  rcases List.mem_append.mp hc with hc | hc
  . exact h.blocks c hc
  . rw [List.mem_singleton.mp hc]
    exact hb

theorem unread_send (dq : DataQueue) (b : DataBlock) : (dq.send b).unread = dq.unread ++ b.bytes := by
  unfold unread queued send
  rw [List.flatMap_append, List.flatMap_singleton, List.append_assoc]
  rfl

/--
What is copied is the start of what is left of the working block.
-/
theorem satisfy_spec (h : dq.Sound) (r : Reading)
    : (dq.satisfy r).1.Sound
        ∧
      (dq.satisfy r).1.rest = dq.rest.drop (r.length - r.n)
        ∧
      (dq.satisfy r).1.q = dq.q
        ∧
      (dq.satisfy r).1.eof = dq.eof
        ∧
      (dq.satisfy r).2
        =
      { r with
        n := r.n + (dq.rest.take (r.length - r.n)).length
        bytes := r.bytes ++ dq.rest.take (r.length - r.n) } := by
  by_cases hne : dq.workingBlock.length ≠ 0
  . obtain ⟨hlength, hused⟩ := h.working hne
    have hrest : dq.rest = dq.workingBlock.bytes.drop dq.workingBlockUsed := if_neg hne
    have hrestlength : dq.rest.length = dq.workingBlock.length - dq.workingBlockUsed := by
      rw [hrest, List.length_drop, hlength]
    unfold satisfy
    rw [if_pos hne, ← hrest]
    dsimp only
    rw [← hrestlength]
    generalize r.length - r.n = m
    by_cases hall : dq.rest.length < m
    . rw [if_pos hall, List.take_length, List.take_of_length_le (Nat.le_of_lt hall),
        List.drop_of_length_le (Nat.le_of_lt hall), if_pos (by omega)]
      exact ⟨⟨h.blocks, fun hz => absurd rfl hz⟩, if_pos rfl, rfl, rfl, rfl⟩
    . rw [if_neg hall, List.length_take, Nat.min_eq_left (by omega)]
      split
      . next hend =>
        rw [List.drop_of_length_le (by omega)]
        exact ⟨⟨h.blocks, fun hz => absurd rfl hz⟩, if_pos rfl, rfl, rfl, rfl⟩
      . next hleft =>
        refine ⟨⟨h.blocks, fun _ => ⟨hlength, by dsimp only; omega⟩⟩, ?_, rfl, rfl, rfl⟩
        rw [hrest, List.drop_drop]
        exact if_neg hne
  . have hzero : dq.workingBlock.length = 0 := not_not.mp hne
    have hrest : dq.rest = [] := if_pos hzero
    unfold satisfy
    rw [if_neg hne, hrest, List.drop_nil, List.take_nil, List.append_nil]
    exact ⟨h, rfl, rfl, rfl, rfl⟩

theorem take_spec (h : dq.Sound) (hq : dq.q = b :: q)
    : (dq.take b q).Sound ∧ (dq.take b q).rest = b.bytes ∧ (dq.take b q).unread = dq.queued := by
  have hb : IsBlock b := h.blocks b (by rw [hq]; exact List.mem_cons_self)
  have hblocks : ∀ c ∈ q, IsBlock c := fun c hc => h.blocks c (by rw [hq]; exact List.mem_cons_of_mem b hc)
  have hrest : (dq.take b q).rest = b.bytes := by
    unfold rest take
    rcases hb with rfl | ⟨data, hne, rfl⟩
    . rfl
    . rw [if_neg]
      . rfl
      . exact fun hzero => hne (List.length_eq_zero_iff.mp hzero)
  refine ⟨⟨hblocks, ?_⟩, hrest, ?_⟩
  . intro hne
    rcases hb with rfl | ⟨data, hdata, rfl⟩
    . exact absurd rfl hne
    . exact ⟨rfl, Nat.pos_of_ne_zero hne⟩
  . unfold unread
    rw [hrest]
    unfold queued take
    rw [hq, List.flatMap_cons]

namespace System

def delivered (s : System) : List UInt8 :=
  s.results.flatMap Result.bytes ++ (s.reading.map Reading.bytes).getD []

/-
The EOF marker is the last in the queue, and nothing is left when it has been seen.
-/
inductive Marked (closed : Bool) (dq : DataQueue) : Prop where
  | sending (closed_eq : closed = false) (eof : dq.eof = false) (data : ∀ b ∈ dq.q, b.data.isSome)
  | closed (closed_eq : closed = true) (eof : dq.eof = false) (q : List DataBlock) (q_eq : dq.q = q ++ [.new])
    (data : ∀ b ∈ q, b.data.isSome)
  | ended (closed_eq : closed = true) (eof : dq.eof = true) (q_eq : dq.q = []) (rest : dq.rest = [])

/-
The queue is only needed when there is no working block, and only polled by a read that does not block.
-/
structure Reads (dq : DataQueue) (r : Reading) : Prop where
  n_eq : r.n = r.bytes.length
  n_le : r.n ≤ r.length
  needed : r.pc ≠ .loop → dq.rest = [] ∧ dq.eof = false
  polled : r.pc = .poll → r.block = false

structure Inv (s : System) : Prop where
  sound : s.queue.Sound
  conserved : s.delivered ++ s.queue.unread = s.written
  marked : Marked s.closed s.queue
  reads : ∀ r, s.reading = some r → Reads s.queue r
  counted : ∀ res ∈ s.results, res.n = res.bytes.length
  short : ∀ res ∈ s.results, res.block = true → res.n < res.length → res.eof = true
  ended : ∀ res ∈ s.results, res.eof = true → s.queue.eof = true ∧ ∀ r, s.reading = some r → r.bytes = []
  later : s.results.Pairwise fun a b => a.eof = true → b.bytes = []

variable {s s' : System} {r : Reading}

theorem inv_new : new.Inv where
  sound := DataQueue.sound_new
  conserved := rfl
  marked := .sending rfl rfl (fun b hb => absurd hb (List.not_mem_nil))
  reads := fun r h => by contradiction
  counted := fun res h => by contradiction
  short := fun res h => by contradiction
  ended := fun res h => by contradiction
  later := List.Pairwise.nil

theorem delivered_of_reading (h : s.reading = some r)
    : s.delivered = s.results.flatMap Result.bytes ++ r.bytes := by
  unfold delivered
  rw [h]
  rfl

/--
What is sent leaves the reader where it is.
-/
theorem Inv.sent (h : s.Inv) {b : DataBlock} (hb : DataQueue.IsBlock b) {closed : Bool}
    (hmarked : Marked closed (s.queue.send b))
    : Inv { s with queue := s.queue.send b, closed, written := s.written ++ b.bytes } where
  sound := h.sound.send hb
  conserved := by
    rw [DataQueue.unread_send, ← h.conserved, List.append_assoc]
    rfl
  marked := hmarked
  reads := fun r hr => ⟨(h.reads r hr).n_eq, (h.reads r hr).n_le, (h.reads r hr).needed, (h.reads r hr).polled⟩
  counted := h.counted
  short := h.short
  ended := h.ended
  later := h.later

theorem Marked.open (h : Marked s.closed s.queue) (hopen : s.closed = false)
    : s.queue.eof = false ∧ ∀ b ∈ s.queue.q, b.data.isSome := by
  cases h with
  | sending closed_eq eof data => exact ⟨eof, data⟩
  | closed closed_eq => rw [hopen] at closed_eq; contradiction
  | ended closed_eq => rw [hopen] at closed_eq; contradiction

theorem Inv.write (h : s.Inv) (hopen : s.closed = false) {data : List UInt8} (hne : data ≠ [])
    : Inv { s with queue := s.queue.write data, written := s.written ++ data } := by
  obtain ⟨heof, hdata⟩ := h.marked.open hopen
  refine h.sent (.inr ⟨data, hne, rfl⟩) (.sending hopen heof ?_)
  intro b hb
  rcases List.mem_append.mp hb with hb | hb
  . exact hdata b hb
  . rw [List.mem_singleton.mp hb]
    rfl

theorem Inv.close (h : s.Inv) (hopen : s.closed = false)
    : Inv { s with queue := s.queue.close, closed := true } := by
  obtain ⟨heof, hdata⟩ := h.marked.open hopen
  have hsent := h.sent (.inl rfl) (.closed rfl heof s.queue.q rfl hdata)
  rw [show DataBlock.bytes .new = [] from rfl, List.append_nil] at hsent
  exact hsent

theorem Inv.read (h : s.Inv) (hidle : s.reading = none) (length : Nat) (block : Bool)
    : (s.read length block).Inv where
  sound := h.sound
  conserved := by
    have hconserved := h.conserved
    unfold delivered at hconserved ⊢
    rw [hidle] at hconserved
    exact hconserved
  marked := h.marked
  reads := by
    intro r hr
    cases hr
    exact ⟨rfl, Nat.zero_le _, fun hpc => absurd rfl hpc, fun hpc => by contradiction⟩
  counted := h.counted
  short := h.short
  ended := by
    intro res hres heof
    refine ⟨(h.ended res hres heof).1, ?_⟩
    intro r hr
    cases hr
    rfl
  later := h.later

theorem Inv.finish (h : s.Inv) (hr : s.reading = some r)
    (hshort : r.block = true → r.n < r.length → s.queue.eof = true)
    : (s.finish r).Inv where
  sound := h.sound
  conserved := by
    have hconserved := h.conserved
    rw [delivered_of_reading hr] at hconserved
    unfold System.finish delivered
    dsimp only
    rw [List.flatMap_append, List.flatMap_singleton]
    simpa using hconserved
  marked := h.marked
  reads := by
    intro r' hr'
    contradiction
  counted := by
    intro res hres
    rcases List.mem_append.mp hres with hres | hres
    . exact h.counted res hres
    . rw [List.mem_singleton.mp hres]
      exact (h.reads r hr).n_eq
  short := by
    intro res hres
    rcases List.mem_append.mp hres with hres | hres
    . exact h.short res hres
    . rw [List.mem_singleton.mp hres]
      exact hshort
  ended := by
    intro res hres heof
    refine ⟨?_, fun r' hr' => by contradiction⟩
    rcases List.mem_append.mp hres with hres | hres
    . exact (h.ended res hres heof).1
    . rw [List.mem_singleton.mp hres] at heof
      exact heof
  later := by
    apply List.pairwise_append.mpr
    refine ⟨h.later, List.pairwise_singleton _ _, ?_⟩
    intro a ha b hb heof
    rw [List.mem_singleton.mp hb]
    exact (h.ended a ha heof).2 r hr

-- The reader takes the start of what is unread
theorem Inv.satisfy (h : s.Inv) (hr : s.reading = some r) (hlt : r.n < r.length) (heof : s.queue.eof = false)
    {pc : Pc} (hpc : pc ≠ .loop → (s.queue.satisfy r).1.rest = []) (hpoll : pc = .poll → r.block = false)
    : Inv { s with queue := (s.queue.satisfy r).1, reading := some { (s.queue.satisfy r).2 with pc } } := by
  obtain ⟨hsound, hrest, hq, heof', hreading⟩ := DataQueue.satisfy_spec h.sound r
  have hreads := h.reads r hr
  constructor
  . exact hsound
  . have hconserved := h.conserved
    rw [delivered_of_reading hr] at hconserved
    have htake := List.take_append_drop (r.length - r.n) s.queue.rest
    rw [← hconserved, delivered_of_reading rfl, hreading]
    unfold DataQueue.unread DataQueue.queued
    dsimp only
    rw [hrest, hq]
    conv_rhs => rw [← htake]
    simp only [List.append_assoc]
  . have hmarked := h.marked
    cases hmarked with
    | sending closed_eq eof data => exact .sending closed_eq (heof'.trans eof) (by rw [hq]; exact data)
    | closed closed_eq eof q q_eq data => exact .closed closed_eq (heof'.trans eof) q (hq.trans q_eq) data
    | ended closed_eq eof => rw [heof] at eof; contradiction
  . intro r' hr'
    cases hr'
    rw [hreading] at *
    constructor
    . dsimp only
      rw [List.length_append, hreads.n_eq]
    . dsimp only
      rw [List.length_take]
      omega
    . exact fun hne => ⟨hpc hne, heof'.trans heof⟩
    . exact hpoll
  . exact h.counted
  . exact h.short
  . intro res hres hended
    have := (h.ended res hres hended).1
    rw [heof] at this
    contradiction
  . exact h.later

theorem Inv.loop (h : s.Inv) (hr : s.reading = some r) (hpc : r.pc = .loop) : (s.loop r).Inv := by
  unfold System.loop
  split
  . next hmore =>
    obtain ⟨hsound, hrest, hq, heof', hreading⟩ := DataQueue.satisfy_spec h.sound r
    dsimp only
    split
    . next hzero =>
      apply h.satisfy hr hmore.1 hmore.2
      . intro _
        exact hsound.rest_eq_nil_iff.mpr hzero
      . rw [hreading]
        dsimp only
        cases r.block with
        | true => intro hpoll; contradiction
        | false => intro _; rfl
    . have hsame : (s.queue.satisfy r).2 = { (s.queue.satisfy r).2 with pc := .loop } := by
        rw [hreading, ← hpc]
      rw [hsame]
      exact h.satisfy hr hmore.1 hmore.2 (fun hne => absurd rfl hne) (fun hpoll => by contradiction)
  . next hdone =>
    apply h.finish hr
    intro _ hshort
    by_contra heof
    apply hdone
    exact ⟨hshort, Bool.not_eq_true _ ▸ heof⟩

theorem Inv.take (h : s.Inv) (hr : s.reading = some r) (hpc : r.pc = .wait) {b : DataBlock} {q : List DataBlock}
    (hq : s.queue.q = b :: q)
    : Inv { s with queue := s.queue.take b q, reading := some { r with pc := .loop } } := by
  obtain ⟨hsound, hrest, hunread⟩ := DataQueue.take_spec h.sound hq
  have hreads := h.reads r hr
  obtain ⟨hempty, heof⟩ := hreads.needed (by rw [hpc]; decide)
  have hb : DataQueue.IsBlock b := h.sound.blocks b (by rw [hq]; exact List.mem_cons_self)
  constructor
  . exact hsound
  . have hconserved := h.conserved
    unfold DataQueue.unread at hconserved
    rw [delivered_of_reading hr, hempty, List.nil_append] at hconserved
    rw [delivered_of_reading rfl, hunread]
    exact hconserved
  . have hmarked := h.marked
    cases hmarked with
    | sending closed_eq _ data =>
      rw [hq, List.forall_mem_cons] at data
      apply Marked.sending closed_eq
      . unfold DataQueue.take
        rw [heof, Option.isNone_eq_false_iff.mpr data.1]
        rfl
      . exact data.2
    | closed closed_eq _ front q_eq data =>
      cases front with
      | nil =>
        rw [hq, List.nil_append, List.cons.injEq] at q_eq
        obtain ⟨rfl, rfl⟩ := q_eq
        apply Marked.ended closed_eq
        . unfold DataQueue.take
          rw [heof]
          rfl
        . rfl
        . exact hrest
      | cons c front =>
        rw [hq, List.cons_append, List.cons.injEq] at q_eq
        obtain ⟨rfl, rfl⟩ := q_eq
        rw [List.forall_mem_cons] at data
        apply Marked.closed closed_eq _ front rfl data.2
        unfold DataQueue.take
        rw [heof, Option.isNone_eq_false_iff.mpr data.1]
        rfl
    | ended _ eof => rw [heof] at eof; contradiction
  . intro r' hr'
    cases hr'
    exact ⟨hreads.n_eq, hreads.n_le, fun hne => absurd rfl hne, fun hpoll => by contradiction⟩
  . exact h.counted
  . exact h.short
  . intro res hres hended
    have := (h.ended res hres hended).1
    rw [heof] at this
    contradiction
  . exact h.later

theorem Inv.reader (h : s.Inv) (hstep : s.reader = some s') : s'.Inv := by
  unfold System.reader at hstep
  split at hstep
  . contradiction
  . next r hr =>
    split at hstep
    . next hpc =>
      cases hstep
      exact h.loop hr hpc
    . next hpc =>
      have hreads := h.reads r hr
      have hblock := hreads.polled hpc
      split at hstep
      . cases hstep
        apply h.finish hr
        intro hblocking
        rw [hblock] at hblocking
        contradiction
      . cases hstep
        obtain ⟨hrest, heof⟩ := hreads.needed (by rw [hpc]; decide)
        constructor
        . exact h.sound
        . rw [← h.conserved, delivered_of_reading hr, delivered_of_reading rfl]
        . exact h.marked
        . intro r' hr'
          cases hr'
          exact ⟨hreads.n_eq, hreads.n_le, fun _ => ⟨hrest, heof⟩, fun hpoll => by contradiction⟩
        . exact h.counted
        . exact h.short
        . intro res hres hended
          have := (h.ended res hres hended).1
          rw [heof] at this
          contradiction
        . exact h.later
    . next hpc =>
      split at hstep
      . contradiction
      . next b q hq =>
        cases hstep
        exact h.take hr hpc hq

theorem Inv.step (s : System) (e : Event) (s' : System) (h : s.Inv) (hstep : s.step e = some s') : s'.Inv := by
  cases e with
  | write data ne =>
    dsimp only [System.step] at hstep
    split at hstep
    . contradiction
    . next hopen =>
      cases hstep
      exact h.write (Bool.not_eq_true _ ▸ hopen) ne
  | close =>
    dsimp only [System.step] at hstep
    split at hstep
    . contradiction
    . next hopen =>
      cases hstep
      exact h.close (Bool.not_eq_true _ ▸ hopen)
  | read length block =>
    dsimp only [System.step] at hstep
    split at hstep
    . next hidle =>
      cases hstep
      exact h.read hidle length block
    . contradiction
  | reader => exact h.reader hstep

theorem inv_of_run {events : List Event} (hrun : Runs.run step new events = some s) : s.Inv :=
  Runs.run_inv Inv.step inv_new hrun

/--
What the reads return is the start of what has been written. A blocking read only comes short at EOF, which
is when everything has been read, and there is nothing more after it.
-/
theorem read_stream {events : List Event} (hrun : Runs.run step new events = some s)
    : s.results.flatMap Result.bytes <+: s.written
        ∧
      (∀ res ∈ s.results, res.n = res.bytes.length)
        ∧
      (∀ res ∈ s.results, res.block = true → res.n < res.length → res.eof = true)
        ∧
      (∀ res ∈ s.results, res.eof = true → s.closed = true ∧ s.results.flatMap Result.bytes = s.written)
        ∧
      s.results.Pairwise fun a b => a.eof = true → b.n = 0 := by
  have h := inv_of_run hrun
  refine ⟨?_, h.counted, h.short, ?_, ?_⟩
  . rw [← h.conserved]
    unfold delivered
    rw [List.append_assoc]
    exact List.prefix_append _ _
  . intro res hres heof
    obtain ⟨hqueue, hnothing⟩ := h.ended res hres heof
    have hdelivered : s.delivered = s.results.flatMap Result.bytes := by
      unfold delivered
      cases hr : s.reading with
      | none => exact List.append_nil _
      | some r =>
        rw [Option.map_some, Option.getD_some, hnothing r hr]
        exact List.append_nil _
    have hmarked := h.marked
    cases hmarked with
    | sending _ eof => rw [hqueue] at eof; contradiction
    | closed _ eof => rw [hqueue] at eof; contradiction
    | ended closed_eq _ q_eq rest =>
      refine ⟨closed_eq, ?_⟩
      rw [← h.conserved, hdelivered]
      unfold DataQueue.unread DataQueue.queued
      rw [rest, q_eq]
      simp
  . apply h.later.imp_of_mem
    intro a b _ hb hnone heof
    rw [h.counted b hb, hnone heof]
    rfl

-- Blocks of two bytes and one, read as one byte, two in a blocking read that has to wait, and the end
def exampleEvents : List Event :=
  [Event.write [1, 2] (by decide), Event.read 1 true] ++ List.replicate 4 Event.reader
    ++ [Event.read 2 true, Event.reader, Event.write [3] (by decide), Event.close] ++ List.replicate 4 Event.reader
    ++ [Event.read 1 false, Event.reader]

def exampleSystem : System := (Runs.run step new exampleEvents).getD new

theorem read_stream_example
    : exampleSystem.results.map Result.bytes = [[1], [2, 3], []]
        ∧
      exampleSystem.results.flatMap Result.bytes <+: exampleSystem.written := by
  have hrun : Runs.run step new exampleEvents = some exampleSystem := by decide
  exact ⟨by decide, (read_stream hrun).1⟩

/-
The reader comes to the end of its call without any others.
-/
def Completes (s : System) : Prop :=
  ∃ k s', Runs.run step s (List.replicate k .reader) = some s' ∧ s'.reading = none

theorem completes_of_reader (hstep : s.reader = some s') (h : s'.Completes) : s.Completes := by
  obtain ⟨k, s'', hrun, hidle⟩ := h
  refine ⟨k + 1, s'', ?_, hidle⟩
  rw [List.replicate_succ, Runs.run]
  rw [show s.step .reader = some s' from hstep]
  exact hrun

theorem completes_of_idle (h : s.reading = none) : s.Completes := ⟨0, s, rfl, h⟩

theorem reader_of_loop (hr : s.reading = some r) (hpc : r.pc = .loop) : s.reader = some (s.loop r) := by
  unfold reader
  rw [hr]
  dsimp only
  rw [hpc]

theorem completes_of_done (hr : s.reading = some r) (hpc : r.pc = .loop)
    (hdone : ¬(r.n < r.length ∧ s.queue.eof = false))
    : s.Completes := by
  apply completes_of_reader (reader_of_loop hr hpc)
  apply completes_of_idle
  unfold loop
  rw [if_neg hdone]
  rfl

-- The working block is used up, so that the next one is waited for.
theorem loop_used_up (h : s.Inv) (hblock : r.block = true) (hlt : r.n < r.length) (heof : s.queue.eof = false)
    (hle : s.queue.rest.length ≤ r.length - r.n)
    : (s.loop r).reading
        = some { r with n := r.n + s.queue.rest.length, bytes := r.bytes ++ s.queue.rest, pc := .wait }
        ∧
      (s.loop r).queue.q = s.queue.q ∧ (s.loop r).queue.rest = [] ∧ (s.loop r).closed = s.closed := by
  obtain ⟨hsound, hrest, hq, heof', hreading⟩ := DataQueue.satisfy_spec h.sound r
  rw [List.drop_of_length_le hle] at hrest
  rw [List.take_of_length_le hle] at hreading
  unfold loop
  rw [if_pos ⟨hlt, heof⟩]
  dsimp only
  rw [if_pos (hsound.rest_eq_nil_iff.mp hrest), hreading]
  dsimp only
  rw [hblock]
  exact ⟨rfl, hq, hrest, rfl⟩

theorem reader_of_wait {b : DataBlock} {q : List DataBlock} (hr : s.reading = some r) (hpc : r.pc = .wait)
    (hq : s.queue.q = b :: q)
    : s.reader = some { s with queue := s.queue.take b q, reading := some { r with pc := .loop } } := by
  unfold reader
  rw [hr]
  dsimp only
  rw [hpc, hq]

theorem Marked.exists_of_closed (h : Marked s.closed s.queue) (hclosed : s.closed = true)
    (heof : s.queue.eof = false)
    : s.queue.q ≠ [] := by
  cases h with
  | sending closed_eq => rw [hclosed] at closed_eq; contradiction
  | closed _ _ q q_eq =>
    rw [q_eq]
    exact List.append_ne_nil_of_right_ne_nil _ (List.cons_ne_nil _ _)
  | ended _ eof => rw [heof] at eof; contradiction

/--
There is more in the working block than is asked for.
-/
theorem completes_of_rest (h : s.Inv) (hr : s.reading = some r) (hpc : r.pc = .loop) (hlt : r.n < r.length)
    (heof : s.queue.eof = false) (hrest : r.length - r.n < s.queue.rest.length)
    : s.Completes := by
  obtain ⟨hsound, hrest', -, -, hreading⟩ := DataQueue.satisfy_spec h.sound r
  have hleft : (s.queue.satisfy r).1.workingBlock.length ≠ 0 := by
    rw [ne_eq, ← hsound.rest_eq_nil_iff, hrest', List.drop_eq_nil_iff]
    omega
  apply completes_of_reader (reader_of_loop hr hpc)
  have hloop : s.loop r = { s with queue := (s.queue.satisfy r).1, reading := some (s.queue.satisfy r).2 } := by
    unfold loop
    rw [if_pos ⟨hlt, heof⟩]
    dsimp only
    rw [if_neg hleft]
  rw [hloop]
  apply completes_of_done rfl
  . rw [hreading]
    exact hpc
  . rw [hreading]
    dsimp only
    rw [List.length_take]
    omega

theorem completes_of_more (h : s.Inv) (hr : s.reading = some r) (hpc : r.pc = .loop) (hblock : r.block = true)
    {q : List DataBlock} (hq : s.queue.q = q) (hle : r.length - r.n ≤ s.queue.unread.length)
    (hmore : r.length - r.n < s.queue.unread.length ∨ s.closed = true)
    : s.Completes := by
  induction q generalizing s r with
  | nil =>
    by_cases hgo : r.n < r.length ∧ s.queue.eof = false
    . have hunread : s.queue.unread = s.queue.rest := by
        unfold DataQueue.unread DataQueue.queued
        rw [hq, List.flatMap_nil, List.append_nil]
      rcases hmore with hmore | hclosed
      . rw [hunread] at hmore
        exact completes_of_rest h hr hpc hgo.1 hgo.2 hmore
      . exact absurd hq (h.marked.exists_of_closed hclosed hgo.2)
    . exact completes_of_done hr hpc hgo
  | cons b q ih =>
    by_cases hgo : r.n < r.length ∧ s.queue.eof = false
    . by_cases hrest : r.length - r.n < s.queue.rest.length
      . exact completes_of_rest h hr hpc hgo.1 hgo.2 hrest
      . have hunread := congrArg List.length (show s.queue.unread = s.queue.rest ++ s.queue.queued from rfl)
        rw [List.length_append] at hunread
        obtain ⟨hreading, hq', hempty, hclosed⟩ := loop_used_up h hblock hgo.1 hgo.2 (Nat.le_of_not_lt hrest)
        have hinv := h.loop hr hpc
        have hqueued : (s.loop r).queue.queued = s.queue.queued := by
          unfold DataQueue.queued
          rw [hq']
        rw [hq] at hq'
        obtain ⟨-, -, hunread'⟩ := DataQueue.take_spec hinv.sound hq'
        apply completes_of_reader (reader_of_loop hr hpc)
        apply completes_of_reader (reader_of_wait hreading rfl hq')
        apply ih (hinv.take hreading rfl hq') rfl rfl hblock rfl
        . dsimp only
          rw [hunread', hqueued]
          omega
        . dsimp only
          rw [hunread', hqueued, hclosed]
          exact hmore.imp_left (fun _ => by omega)
    . exact completes_of_done hr hpc hgo

/-
A blocking read that still needs all that is there, from a queue that is open.
-/
structure Starving (s : System) (r : Reading) : Prop where
  inv : s.Inv
  opened : s.closed = false
  reading : s.reading = some r
  block : r.block = true
  all : r.length - r.n = s.queue.unread.length
  lt : r.pc = .loop → r.n < r.length

theorem Starving.reader (h : Starving s r) (hstep : s.reader = some s') : ∃ r', Starving s' r' := by
  have hinv := h.inv.reader hstep
  have hreads := h.inv.reads r h.reading
  obtain ⟨heof, hdata⟩ := h.inv.marked.open h.opened
  have hall := h.all
  have hunread := congrArg List.length (show s.queue.unread = s.queue.rest ++ s.queue.queued from rfl)
  rw [List.length_append] at hunread
  cases hpc : r.pc with
  | loop =>
    rw [reader_of_loop h.reading hpc] at hstep
    cases hstep
    obtain ⟨hreading, hq, hempty, hclosed⟩ := loop_used_up h.inv h.block (h.lt hpc) heof (by omega)
    have hunread' : (s.loop r).queue.unread = s.queue.queued := by
      unfold DataQueue.unread DataQueue.queued
      rw [hempty, hq, List.nil_append]
    refine ⟨_, hinv, hclosed.trans h.opened, hreading, h.block, ?_, fun hloop => by contradiction⟩
    rw [hunread']
    dsimp only
    omega
  | poll =>
    have := hreads.polled hpc
    rw [h.block] at this
    contradiction
  | wait =>
    unfold System.reader at hstep
    rw [h.reading] at hstep
    dsimp only at hstep
    rw [hpc] at hstep
    dsimp only at hstep
    split at hstep
    . contradiction
    . next b q hq =>
      cases hstep
      obtain ⟨-, hbytes, hunread'⟩ := DataQueue.take_spec h.inv.sound hq
      have hrest := (hreads.needed (by rw [hpc]; decide)).1
      rw [hrest, List.length_nil, Nat.zero_add] at hunread
      have hpos : 0 < s.queue.queued.length := by
        rcases h.inv.sound.blocks b (by rw [hq]; exact List.mem_cons_self) with rfl | ⟨data, hne, rfl⟩
        . rw [hq, List.forall_mem_cons] at hdata
          exact absurd hdata.1 Bool.false_ne_true
        . unfold DataQueue.queued
          rw [hq, List.flatMap_cons, List.length_append]
          exact Nat.lt_of_lt_of_le (List.length_pos_of_ne_nil hne) (Nat.le_add_right _ _)
      refine ⟨_, hinv, h.opened, rfl, h.block, ?_, fun _ => ?_⟩
      . dsimp only
        rw [hunread']
        omega
      . dsimp only
        omega

theorem Starving.not_completes (h : Starving s r) : ¬s.Completes := by
  rintro ⟨k, s', hrun, hidle⟩
  induction k generalizing s r with
  | zero =>
    cases hrun
    rw [h.reading] at hidle
    contradiction
  | succ k ih =>
    rw [List.replicate_succ, Runs.run] at hrun
    cases hstep : s.reader with
    | none =>
      rw [show s.step .reader = none from hstep] at hrun
      contradiction
    | some s1 =>
      rw [show s.step .reader = some s1 from hstep] at hrun
      obtain ⟨r', h'⟩ := h.reader hstep
      exact ih h' hrun

/--
A blocking read of no more than there is comes to its end if and only if it asks for nothing, or for less
than there is, or the queue has been closed.
-/
theorem blocking_read_completes_iff {events : List Event} (hrun : Runs.run step new events = some s)
    (hidle : s.reading = none) {length : Nat} (hle : length ≤ s.queue.unread.length)
    : (s.read length true).Completes
        ↔
      length = 0 ∨ length < s.queue.unread.length ∨ s.closed = true := by
  have hinv := (inv_of_run hrun).read hidle length true
  constructor
  . intro hcompletes
    by_contra hnot
    rw [not_or, not_or, Bool.not_eq_true] at hnot
    obtain ⟨hpos, hall, hopen⟩ := hnot
    have hstarving : Starving (s.read length true)
        { length, block := true, n := 0, bytes := [], pc := .loop } := by
      refine ⟨hinv, hopen, rfl, rfl, ?_, fun _ => Nat.pos_of_ne_zero hpos⟩
      exact Nat.le_antisymm hle (Nat.le_of_not_lt hall)
    exact hstarving.not_completes hcompletes
  . rintro (rfl | hmore)
    . exact completes_of_done rfl rfl (fun hgo => absurd hgo.1 (Nat.lt_irrefl 0))
    . exact completes_of_more hinv rfl rfl rfl rfl hle hmore

-- A queue with a block of two bytes in it
def openSystem : System := { new with queue := DataQueue.new.write [1, 2], written := [1, 2] }

theorem blocking_read_completes_iff_one : (openSystem.read 1 true).Completes := by
  have hrun : Runs.run step new [.write [1, 2] (by decide)] = some openSystem := by decide
  exact (blocking_read_completes_iff hrun rfl (by decide : 1 ≤ 2)).mpr (.inr (.inl (by decide)))

/--
To read both of its bytes, the reader wants another block.
-/
theorem not_completes_two
    : Runs.run step new [.write [1, 2] (by decide)] = some openSystem
        ∧
      openSystem.queue.unread.length = 2
        ∧
      ¬(openSystem.read 2 true).Completes := by
  have hrun : Runs.run step new [.write [1, 2] (by decide)] = some openSystem := by decide
  have hstarving : Starving (openSystem.read 2 true)
      { length := 2, block := true, n := 0, bytes := [], pc := .loop } :=
    ⟨(inv_of_run hrun).read rfl 2 true, rfl, rfl, rfl, rfl, fun _ => by decide⟩
  exact ⟨hrun, rfl, hstarving.not_completes⟩

end System
end DataQueue
end MT
end ObTools
