import ObTools.Channel.Reader
import ObTools.Gather.Buffer

/-!
This module contains the model of `Gather::BufferIterator`, of the `Gather::Reader` that goes through
a buffer with one, and of the `Channel::BlockReader` of a block of bytes.

The loops of the iterator run with fuel, there is no result if they are still running when it is
used up.
-/

namespace ObTools
namespace Gather

open Channel (Error)

/-
The segment is given by its index, which is the number of segments at the end.
-/
structure BufferIterator where
  segments : List Segment
  segment : Nat
  countdown : Nat
  -- `none` for `&end`
  dp : Option Pointer
deriving Repr, DecidableEq

namespace BufferIterator

def isEnd (it : BufferIterator) : Bool := it.dp.isNone

def current (it : BufferIterator) : Segment := it.segments.getD it.segment Segment.empty

-- The first segment with data in it, of those from the index on
def firstFrom (segments : List Segment) : List Segment → Nat → BufferIterator
  | [], segment => { segments, segment, countdown := 0, dp := none }
  | seg :: rest, segment =>
    if seg.length ≠ 0 then
      { segments, segment, countdown := seg.length, dp := some seg.data }
    else
      firstFrom segments rest (segment + 1)

def nextSegment (it : BufferIterator) : BufferIterator :=
  firstFrom it.segments (it.segments.drop (it.segment + 1)) (it.segment + 1)

-- `while (segment > segments && !(--segment)->length)`
def stepBack (segments : List Segment) : Nat → Nat
  | 0 => 0
  | segment + 1 =>
    if (segments.getD segment Segment.empty).length = 0 then
      stepBack segments segment
    else
      segment

def previousSegment (it : BufferIterator) : BufferIterator :=
  if it.segment = 0 then
    { it with countdown := it.current.length, dp := some it.current.data }
  else
    let it := { it with segment := stepBack it.segments it.segment }
    if it.current.length ≠ 0 then
      { it with countdown := 1, dp := some (it.current.data.add (it.current.length - 1)) }
    else
      it.nextSegment

-- `+=`
def add : Nat → Nat → BufferIterator → Option BufferIterator
  | 0, _, _ => none
  | fuel + 1, n, it =>
    if n ≥ it.countdown then
      if it.isEnd then
        some it
      else
        add fuel (n - it.countdown) it.nextSegment
    else
      some { it with countdown := it.countdown - n, dp := it.dp.map fun p => p.add n }

/-
`-=`, which also tells whether the loop has come to its end, instead of throwing
"Attempt to decrement past start of buffer".
-/
def sub : Nat → Nat → BufferIterator → Option (Bool × BufferIterator)
  | 0, _, _ => none
  | fuel + 1, n, it =>
    let before := it.current.length - it.countdown
    if it.isEnd ∨ n > before then
      if it.segment = 0 then
        some (false, it)
      else
        let n := if it.isEnd then (n + 2 ^ 64 - 1) % 2 ^ 64 else n - (before + 1)
        sub fuel n it.previousSegment
    else
      some
        (true,
          { it with
            countdown := it.countdown + n
            dp := it.dp.map fun p => { p with offset := p.offset - n } })

end BufferIterator

namespace Buffer

def «begin» (b : Buffer) : BufferIterator := BufferIterator.firstFrom b.used b.used 0

def copyFromLoop (m : Memory UInt8) (len : Nat) : List Segment → Nat → Bytes → Option Bytes
  | [], _, data => some data
  | seg :: segments, segmentOffset, data => do
    let toRead := len - data.length
    let toRead := if toRead > seg.length - segmentOffset then seg.length - segmentOffset else toRead
    let bytes ← m.read (seg.data.add segmentOffset) toRead
    if (data ++ bytes).length ≥ len then
      some (data ++ bytes)
    else
      copyFromLoop m len segments 0 (data ++ bytes)

-- `copy` from an iterator position
def copyFrom (b : Buffer) (m : Memory UInt8) (offset : BufferIterator) (len : Nat) : Option Bytes :=
  if offset.isEnd ∨ offset.segment ≥ b.count then
    some []
  else
    copyFromLoop m len (b.used.drop offset.segment) (offset.current.length - offset.countdown) []

end Buffer

inductive Exception where
  | error (e : Error)
  -- `throw` of a string literal
  | text (s : String)
deriving DecidableEq, Repr

inductive Call where
  | basicRead (count : UInt64)
  | skip (n : UInt64)
  | rewind (n : UInt64)
deriving DecidableEq, Repr

inductive Result where
  | data (bytes : Bytes)
  | done
  | thrown (e : Exception)
deriving DecidableEq, Repr

def skipBeyondEnd : Result := .thrown (.error { error := 1, text := "Skip beyond end of block" })

def rewoundTooFar : Result := .thrown (.error { error := 1, text := "Rewound too far" })

structure Reader where
  buffer : Buffer
  it : BufferIterator
  offset : Nat
deriving Repr, DecidableEq

namespace Reader

def new (buffer : Buffer) : Reader := { buffer, it := buffer.begin, offset := 0 }

variable (fuel : Nat)

def basicRead (r : Reader) (m : Memory UInt8) (count : Nat) : Option (Result × Reader) :=
  if count ≠ 0 then do
    let bytes ← r.buffer.copyFrom m r.it count
    let it ← r.it.add fuel bytes.length
    some (.data bytes, { r with it, offset := (r.offset + bytes.length) % 2 ^ 64 })
  else
    some (.data [], r)

def skip (r : Reader) (n : Nat) : Option (Result × Reader) :=
  if (r.offset + n) % 2 ^ 64 > r.buffer.getLength then
    some (skipBeyondEnd, r)
  else do
    let it ← r.it.add fuel n
    some (.done, { r with it, offset := (r.offset + n) % 2 ^ 64 })

def rewind (r : Reader) (n : Nat) : Option (Result × Reader) :=
  if n ≤ r.offset then do
    let (finished, it) ← r.it.sub fuel n
    let r := { r with it, offset := r.offset - n }
    if finished then
      some (.done, r)
    else
      some (.thrown (.text "Attempt to decrement past start of buffer"), r)
  else
    some (rewoundTooFar, r)

def apply (r : Reader) (m : Memory UInt8) : Call → Option (Result × Reader)
  | .basicRead count => r.basicRead fuel m count.toNat
  | .skip n => r.skip fuel n.toNat
  | .rewind n => r.rewind fuel n.toNat

end Reader

/-
`data` is given by its distance from the start of the block.
-/
structure BlockReader where
  block : Bytes
  data : Nat
  offset : Nat
deriving Repr, DecidableEq

namespace BlockReader

def new (block : Bytes) : BlockReader := { block, data := 0, offset := 0 }

def length (r : BlockReader) : Nat := r.block.length

def basicRead (r : BlockReader) (count : Nat) : Option (Result × BlockReader) :=
  -- Limit to length available
  let available := (r.length + 2 ^ 64 - r.offset) % 2 ^ 64
  let count := if available < count then available else count
  if count ≠ 0 then
    if r.data + count ≤ r.length then
      some
        (.data ((r.block.drop r.data).take count),
          { r with data := r.data + count, offset := (r.offset + count) % 2 ^ 64 })
    else
      none
  else
    some (.data [], r)

def skip (r : BlockReader) (n : Nat) : Option (Result × BlockReader) :=
  if (r.offset + n) % 2 ^ 64 > r.length then
    some (skipBeyondEnd, r)
  else
    some (.done, { r with data := (r.data + n) % 2 ^ 64, offset := (r.offset + n) % 2 ^ 64 })

def rewind (r : BlockReader) (n : Nat) : Option (Result × BlockReader) :=
  if n ≤ r.offset then
    some (.done, { r with data := r.data - n, offset := r.offset - n })
  else
    some (rewoundTooFar, r)

def apply (r : BlockReader) : Call → Option (Result × BlockReader)
  | .basicRead count => r.basicRead count.toNat
  | .skip n => r.skip n.toNat
  | .rewind n => r.rewind n.toNat

end BlockReader

end Gather
end ObTools
