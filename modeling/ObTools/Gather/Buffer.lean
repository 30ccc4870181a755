import ObTools.Lib.Memory

/-!
This module contains the model of `Gather::Segment` and `Gather::Buffer`. A length is an unsigned
64 bit integer; sums are taken modulo `2 ^ 64` wherever the source does not check them. No result
means that the program aborts, or that it accesses memory that is not there.
-/

namespace ObTools
namespace Gather

abbrev Bytes := List UInt8

structure Segment where
  -- The block that has been allocated, if there is one
  ownedData : Option Nat
  data : Pointer
  length : Nat
deriving Repr, DecidableEq

namespace Segment

def empty : Segment := { ownedData := none, data := Pointer.null, length := 0 }

-- `Segment(data, length)`
def ofData (data : Pointer) (length : Nat) : Segment := { ownedData := none, data, length }

def consume (seg : Segment) (n : Nat) : Segment :=
  { seg with data := seg.data.add n, length := seg.length - n }

def deleteOwned (seg : Segment) (m : Memory UInt8) : Option (Memory UInt8) :=
  match seg.ownedData with
  | some b => m.free b
  | none => some m

-- `reset()`, to length 0
def reset (seg : Segment) (m : Memory UInt8) : Option (Segment × Memory UInt8) := do
  let m ← seg.deleteOwned m
  some (empty, m)

def destroy (seg : Segment) (m : Memory UInt8) : Option (Segment × Memory UInt8) := do
  let m ← seg.deleteOwned m
  some ({ seg with ownedData := none }, m)

-- `seg.copy(s)`, where the owned data is copied from the start of its block
def copy (seg s : Segment) (m : Memory UInt8) : Option (Segment × Memory UInt8) := do
  -- Free any owned memory
  let m ← seg.deleteOwned m
  match s.ownedData with
  | some b => do
    let bytes ← m.read { block := some b, offset := 0 } s.length
    let (block, m) := m.allocate bytes
    some
      ({ ownedData := some block, data := { block := some block, offset := 0 }, length := s.length },
        m)
  | none => some ({ ownedData := none, data := s.data, length := s.length }, m)

-- The segment that takes the data, and what is left of `seg`
def take (seg : Segment) : Segment × Segment := (seg, { seg with ownedData := none })

end Segment

/-
The array of segments, split at `count`: `stale` are those behind the ones in use.
-/
structure Buffer where
  used : List Segment
  stale : List Segment
deriving Repr, DecidableEq

namespace Buffer

def new (size : Nat) : Buffer := { used := [], stale := List.replicate size Segment.empty }

def count (b : Buffer) : Nat := b.used.length

def size (b : Buffer) : Nat := b.used.length + b.stale.length

def getLength (b : Buffer) : Nat :=
  b.used.foldl (fun total seg => (total + seg.length) % 2 ^ 64) 0

def resize (b : Buffer) (newSize : Nat) : Option Buffer :=
  if newSize < b.count then
    none
  else
    some
      { used := b.used.map fun seg => seg.take.1
        stale := List.replicate (newSize - b.count) Segment.empty }

-- The new size is computed as an `unsigned int`
def extend (b : Buffer) : Option Buffer :=
  if b.count ≥ b.size then
    b.resize (if b.size ≠ 0 then b.size * 2 % 2 ^ 32 else 1)
  else
    some b

def addSegment (b : Buffer) (seg : Segment) : Option Buffer := do
  let b ← b.extend
  some { used := b.used ++ [seg.take.1], stale := b.stale.tail }

-- `add(data, length)`
def add (b : Buffer) (data : Pointer) (length : Nat) : Option Buffer :=
  b.addSegment (Segment.ofData data length)

def addBufferLoop : List Segment → Buffer → Memory UInt8 → Option (Buffer × Memory UInt8)
  | [], b, m => some (b, m)
  | s :: segments, b, m => do
    let (seg, m) ← Segment.empty.copy s m
    let b ← b.addSegment seg
    addBufferLoop segments b m

-- `add(buffer)` for another buffer
def addBuffer (b buffer : Buffer) (m : Memory UInt8) : Option (Buffer × Memory UInt8) :=
  addBufferLoop buffer.used b m

def insert (b : Buffer) (seg : Segment) (pos : Nat) : Option Buffer := do
  let b ← b.extend
  if pos > b.count then
    none
  else
    -- Shift up one
    some { used := b.used.take pos ++ seg.take.1 :: b.used.drop pos, stale := b.stale.tail }

/-
The part of a segment at `gatherOffset` that belongs to a run of data which starts at `offset` and
for which `wanted` bytes are still to be read.
-/
def part (seg : Segment) (offset gatherOffset wanted : Nat) : Nat × Nat :=
  let start := if gatherOffset > offset then 0 else offset - gatherOffset
  (start, if wanted > seg.length - start then seg.length - start else wanted)

def copyLoop (m : Memory UInt8) (offset len : Nat) : List Segment → Nat → Bytes → Option Bytes
  | [], _, data => some data
  | seg :: segments, gatherOffset, data =>
    if offset < (gatherOffset + seg.length) % 2 ^ 64 then do
      let (start, toRead) := part seg offset gatherOffset (len - data.length)
      let bytes ← m.read (seg.data.add start) toRead
      if (data ++ bytes).length ≥ len then
        some (data ++ bytes)
      else
        copyLoop m offset len segments ((gatherOffset + seg.length) % 2 ^ 64) (data ++ bytes)
    else
      copyLoop m offset len segments ((gatherOffset + seg.length) % 2 ^ 64) data

-- The data copied, of which the source returns the length
def copy (b : Buffer) (m : Memory UInt8) (offset len : Nat) : Option Bytes :=
  copyLoop m offset len b.used 0 []

def addRangeLoop (offset len : Nat) : List Segment → Nat → Nat → Buffer → Option Buffer
  | [], _, _, b => some b
  | seg :: segments, gatherOffset, dataRead, b =>
    if offset < (gatherOffset + seg.length) % 2 ^ 64 then do
      let (start, toRead) := part seg offset gatherOffset (len - dataRead)
      let b ← b.add (seg.data.add start) toRead
      if dataRead + toRead ≥ len then
        some b
      else
        addRangeLoop offset len segments ((gatherOffset + seg.length) % 2 ^ 64)
          (dataRead + toRead) b
    else
      addRangeLoop offset len segments ((gatherOffset + seg.length) % 2 ^ 64) dataRead b

-- `add(buffer, offset, len)` for another buffer
def addRange (b buffer : Buffer) (offset len : Nat) : Option Buffer :=
  addRangeLoop offset len buffer.used 0 0 b

/-
Returns the total, the segments needed and the remaining ones.
-/
def limitLoop (length : Nat) : List Segment → Nat → Nat × List Segment × List Segment
  | [], total => (total, [], [])
  | seg :: segments, total =>
    let total := (total + seg.length) % 2 ^ 64
    if total ≥ length then
      let reduced := (seg.length + 2 ^ 64 - (total - length)) % 2 ^ 64
      (length, [{ seg with length := reduced }], segments)
    else
      let (total, needed, remaining) := limitLoop length segments total
      (total, seg :: needed, remaining)

def destroyAll : List Segment → Memory UInt8 → Option (List Segment × Memory UInt8)
  | [], m => some ([], m)
  | seg :: segments, m => do
    let (seg, m) ← seg.destroy m
    let (segments, m) ← destroyAll segments m
    some (seg :: segments, m)

def limit (b : Buffer) (m : Memory UInt8) (length : Nat)
    : Option (Nat × Buffer × Memory UInt8) := do
  let (total, needed, remaining) := limitLoop length b.used 0
  let (destroyed, m) ← destroyAll remaining m
  some (total, { used := needed, stale := destroyed ++ b.stale }, m)

def consumeLoop : List Segment → Nat → Memory UInt8 → Option (List Segment × Memory UInt8)
  | [], _, m => some ([], m)
  | seg :: segments, n, m =>
    if seg.length = 0 then do
      let (segments, m) ← consumeLoop segments n m
      some (seg :: segments, m)
    else if seg.length > n then
      some (seg.consume n :: segments, m)
    else do
      let (seg', m) ← seg.reset m
      let (segments, m) ← consumeLoop segments (n - seg.length) m
      some (seg' :: segments, m)

def consume (b : Buffer) (m : Memory UInt8) (n : Nat) : Option (Buffer × Memory UInt8) := do
  let (used, m) ← consumeLoop b.used n m
  some ({ b with used }, m)

structure TidyState where
  segments : List Segment
  -- The queue of free segments, by index
  freeSegments : List Nat
  newCount : Nat

def tidyStep (state : TidyState) (i : Nat) : TidyState :=
  match state.segments[i]? with
  | none => state
  | some segment =>
    if segment.length ≠ 0 then
      match state.freeSegments with
      | firstFree :: freeSegments =>
        let (taken, left) := segment.take
        { segments := (state.segments.set firstFree taken).set i (left.consume left.length)
          freeSegments := freeSegments ++ [i]
          newCount := state.newCount + 1 }
      | [] => { state with newCount := state.newCount + 1 }
    else
      { state with freeSegments := state.freeSegments ++ [i] }

def tidy (b : Buffer) : Buffer :=
  let state := (List.range b.count).foldl tidyStep
    { segments := b.used, freeSegments := [], newCount := 0 }
  { used := state.segments.take state.newCount
    stale := state.segments.drop state.newCount ++ b.stale }

-- The rest of what has to be flattened into `tempBuf`, from the next segment on
def flattenLoop (length : Nat) (tempBuf : Pointer)
    : List Segment → Nat → Memory UInt8 → Option (Pointer × Memory UInt8)
  | [], copied, m => if copied < length then some (Pointer.null, m) else some (tempBuf, m)
  | seg2 :: segments, copied, m =>
    if copied < length then do
      -- Copy as much as we need, or whole segment if less
      let needed := length - copied
      let needed := if needed > seg2.length then seg2.length else needed
      let m ← m.memcpy (tempBuf.add copied) seg2.data needed
      flattenLoop length tempBuf segments (copied + needed) m
    else
      some (tempBuf, m)

def getFlatDataLoop (length : Nat) (tempBuf : Pointer)
    : List Segment → Nat → Memory UInt8 → Option (Pointer × Memory UInt8)
  -- Offset off the end of the buffer - fail
  | [], _, m => some (Pointer.null, m)
  | seg :: segments, offset, m =>
    if offset < seg.length then
      if (offset + length) % 2 ^ 64 < seg.length then
        some (seg.data.add offset, m)
      else do
        -- First the remainder of this segment
        let copied := seg.length - offset
        let m ← m.memcpy tempBuf (seg.data.add offset) copied
        flattenLoop length tempBuf segments copied m
    else
      getFlatDataLoop length tempBuf segments (offset - seg.length) m

def getFlatDataMulti (b : Buffer) (m : Memory UInt8) (offset length : Nat) (tempBuf : Pointer)
    : Option (Pointer × Memory UInt8) :=
  getFlatDataLoop length tempBuf b.used offset m

def getFlatData (b : Buffer) (m : Memory UInt8) (offset length : Nat) (tempBuf : Pointer)
    : Option (Pointer × Memory UInt8) :=
  match b.used with
  -- Fast inline optimisation for single segment
  | [seg] =>
    if (offset + length) % 2 ^ 64 > seg.length then
      some (Pointer.null, m)
    else
      some (seg.data.add offset, m)
  | _ => b.getFlatDataMulti m offset length tempBuf

-- `memcpy` of the `n` bytes at `start` in `buf`
def copyIn (m : Memory UInt8) (dest : Pointer) (buf : Bytes) (start n : Nat)
    : Option (Memory UInt8) :=
  if start + n ≤ buf.length then m.write dest ((buf.drop start).take n) else none

def replaceRest (buf : Bytes) : List Segment → Nat → Memory UInt8 → Option (Memory UInt8)
  | [], _, m => some m
  | seg :: segments, copied, m =>
    if copied < buf.length then do
      -- As much as we need, or whole segment if less
      let needed := buf.length - copied
      let needed := if needed > seg.length then seg.length else needed
      let m ← copyIn m seg.data buf copied needed
      replaceRest buf segments (copied + needed) m
    else
      some m

def replaceLoop (buf : Bytes) : List Segment → Nat → Memory UInt8 → Option (Memory UInt8)
  | [], _, m => some m
  | seg :: segments, offset, m =>
    if offset < seg.length then
      if (offset + buf.length) % 2 ^ 64 < seg.length then
        copyIn m (seg.data.add offset) buf 0 buf.length
      else do
        -- First the remainder of this segment
        let copied := seg.length - offset
        let m ← copyIn m (seg.data.add offset) buf 0 copied
        replaceRest buf segments copied m
    else
      replaceLoop buf segments (offset - seg.length) m

-- `buf` is memory of the caller, given by its bytes
def replace (b : Buffer) (m : Memory UInt8) (offset : Nat) (buf : Bytes)
    : Option (Memory UInt8) :=
  replaceLoop buf b.used offset m

end Buffer

/-
A buffer together with the memory that it refers to.
-/
structure State where
  memory : Memory UInt8
  buffer : Buffer
deriving Repr, DecidableEq

inductive Op where
  | add (data : Pointer) (length : Nat)
  | addRange (buffer : Buffer) (offset len : Nat)
  | insert (seg : Segment) (pos : Nat)
  | consume (n : Nat)
  | limit (length : Nat)
  | tidy
  | resize (newSize : Nat)
  | replace (offset : Nat) (buf : Bytes)
deriving Repr, DecidableEq

namespace Op

def apply (s : State) : Op → Option State
  | add data length => do
    let buffer ← s.buffer.add data length
    some { s with buffer }
  | addRange other offset len => do
    let buffer ← s.buffer.addRange other offset len
    some { s with buffer }
  | insert seg pos => do
    let buffer ← s.buffer.insert seg pos
    some { s with buffer }
  | consume n => do
    let (buffer, memory) ← s.buffer.consume s.memory n
    some { memory, buffer }
  | limit length => do
    let (_, buffer, memory) ← s.buffer.limit s.memory length
    some { memory, buffer }
  | tidy => some { s with buffer := s.buffer.tidy }
  | resize newSize => do
    let buffer ← s.buffer.resize newSize
    some { s with buffer }
  | replace offset buf => do
    let memory ← s.buffer.replace s.memory offset buf
    some { s with memory }

end Op

def run (s : State) : List Op → Option State
  | [] => some s
  | op :: ops => do
    let s ← op.apply s
    run s ops

end Gather
end ObTools
