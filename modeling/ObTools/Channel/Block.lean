import ObTools.Gather.Reader
import ObTools.Gather.ReaderLemmas
import ObTools.Lib.Decoder

/-!
This module contains the calls that move around in a channel on a piece of memory: a `BlockReader`, a `StringReader` or
a `BlockWriter`, and the proof that the readers stay inside of it, and when a writer does. Offsets are computed modulo
`2 ^ 64`, and an access to memory outside of the block gives no result.
-/

namespace ObTools
namespace Channel

open Gather (Result BlockReader)

-- Any block that there can be
structure Block where
  bytes : List UInt8
  length_lt : bytes.length < 2 ^ 64

inductive Reader.Call where
  | basicRead (count : UInt64)
  | skip (n : UInt64)
  | align (n : UInt64) (pos : 0 < n)
  | rewind (n : UInt64)

inductive Writer.Call where
  | basicWrite (bytes : Block)
  | skip (n : UInt64)
  | align (n : UInt64) (pos : 0 < n)
  | rewind (n : UInt64)

namespace BlockReader

def apply (r : BlockReader) : Reader.Call → Option (Result × BlockReader)
  | .basicRead count => r.basicRead count.toNat
  | .skip n => r.skip n.toNat
  | .align n _ => r.skip (Reader.alignment r.offset n.toNat)
  | .rewind n => r.rewind n.toNat

end BlockReader

namespace StringReader

def rewind (n : Nat) (r : StringReader) : Except Error Unit × StringReader :=
  if n ≤ r.offset then
    (.ok (), { r with offset := r.offset - n, offset_le := Nat.le_trans (Nat.sub_le _ _) r.offset_le })
  else
    (.error { error := 1, text := "Rewound too far" }, r)

def result : Except Error Unit → Result
  | .ok () => .done
  | .error e => .thrown (.error e)

def apply (r : StringReader) : Reader.Call → Option (Result × StringReader)
  | .basicRead count => some (.data (basicRead count.toNat r).1, (basicRead count.toNat r).2)
  | .skip n => some (result (r.skip n.toNat).1, (r.skip n.toNat).2)
  | .align n _ =>
    let n := Reader.alignment r.offset n.toNat
    some (result (r.skip n).1, (r.skip n).2)
  | .rewind n => some (result (r.rewind n.toNat).1, (r.rewind n.toNat).2)

end StringReader

/-
`data` is given by its distance from the start of the block.
-/
structure BlockWriter where
  block : List UInt8
  data : Nat
  offset : Nat
deriving Repr, DecidableEq

namespace BlockWriter

def new (block : List UInt8) : BlockWriter := { block, data := 0, offset := 0 }

def length (w : BlockWriter) : Nat := w.block.length

def overflowed (text : String) : Result := .thrown (.error { error := 1, text })

def memcpy (w : BlockWriter) (bytes : List UInt8) : Option (List UInt8) :=
  if bytes.length = 0 then
    some w.block
  else if w.data + bytes.length ≤ w.length then
    some (w.block.take w.data ++ bytes ++ w.block.drop (w.data + bytes.length))
  else
    none

-- `memset` to zero
def memset (w : BlockWriter) (n : Nat) : Option (List UInt8) :=
  if n = 0 then
    some w.block
  else if w.data + n ≤ w.length then
    some (w.block.take w.data ++ List.replicate n 0 ++ w.block.drop (w.data + n))
  else
    none

def basicWrite (w : BlockWriter) (bytes : List UInt8) : Option (Result × BlockWriter) :=
  -- Must fit, or error
  if bytes.length ≤ (w.length + 2 ^ 64 - w.offset) % 2 ^ 64 then do
    let block ← w.memcpy bytes
    some
      (.done,
        { block, data := w.data + bytes.length, offset := (w.offset + bytes.length) % 2 ^ 64 })
  else
    some (overflowed "Data block overflowed", w)

def skip (w : BlockWriter) (n : Nat) : Option (Result × BlockWriter) :=
  -- Must fit, or error
  if (w.offset + n) % 2 ^ 64 ≤ w.length then do
    let block ← w.memset n
    some (.done, { block, data := (w.data + n) % 2 ^ 64, offset := (w.offset + n) % 2 ^ 64 })
  else
    some (overflowed "Data block overflowed in skip", w)

def rewind (w : BlockWriter) (n : Nat) : Option (Result × BlockWriter) :=
  if n ≤ w.offset then
    some (.done, { w with data := w.data - n, offset := w.offset - n })
  else
    some (Gather.rewoundTooFar, w)

-- The bytes to pad are cast to `int`, and back when they are passed on
def alignment (offset n : Nat) : Nat :=
  let pad := Reader.alignment offset n % 2 ^ 32
  if pad < 2 ^ 31 then pad else pad + (2 ^ 64 - 2 ^ 32)

def apply (w : BlockWriter) : Writer.Call → Option (Result × BlockWriter)
  | .basicWrite bytes => w.basicWrite bytes.bytes
  | .skip n => w.skip n.toNat
  | .align n _ => w.skip (alignment w.offset n.toNat)
  | .rewind n => w.rewind n.toNat

end BlockWriter

open Gather (Result BlockReader)

variable {σ κ : Type}

/-
A run that never is outside of the memory, and in which nothing moves with a call that throws.
-/
def StaysInside (apply : σ → κ → Option (Result × σ)) (offset : σ → Nat) (length : Nat)
    : σ → List κ → Prop
  | s, [] => offset s ≤ length
  | s, call :: calls =>
    offset s ≤ length
      ∧
    ∃ result s',
      apply s call = some (result, s')
        ∧
      (result.isThrown → offset s' = offset s)
        ∧
      StaysInside apply offset length s' calls

/--
It is enough that an invariant is kept by each of the calls.
-/
theorem staysInside_of_invariant {apply : σ → κ → Option (Result × σ)} {offset : σ → Nat} {length : Nat}
    (inv : σ → Prop) (hle : ∀ s, inv s → offset s ≤ length)
    (hstep : ∀ s call, inv s → ∃ result s',
      apply s call = some (result, s') ∧ (result.isThrown → offset s' = offset s) ∧ inv s')
    {s : σ} (hs : inv s) (calls : List κ)
    : StaysInside apply offset length s calls := by
  induction calls generalizing s with
  | nil => exact hle s hs
  | cons call calls ih =>
    obtain ⟨result, s', happly, hthrown, hs'⟩ := hstep s call hs
    exact ⟨hle s hs, result, s', happly, hthrown, ih hs'⟩

theorem Reader.alignment_lt (offset n : Nat) : Reader.alignment offset n < 2 ^ 64 :=
  Nat.mod_lt _ (by decide)

namespace BlockReader

structure On (block : Block) (r : BlockReader) : Prop where
  block_eq : r.block = block.bytes
  data : r.data = r.offset
  offset_le : r.offset ≤ block.bytes.length

variable {block : Block} {r : BlockReader}

theorem on_new (block : Block) : On block (BlockReader.new block.bytes) := ⟨rfl, rfl, Nat.zero_le _⟩

theorem basicRead_on (h : On block r) (count : Nat)
    : ∃ result r', r.basicRead count = some (result, r') ∧ ¬result.isThrown ∧ On block r' := by
  have hlt := block.length_lt
  have hle := h.offset_le
  have hlength : r.length = block.bytes.length := congrArg List.length h.block_eq
  have havailable : (block.bytes.length + 2 ^ 64 - r.offset) % 2 ^ 64 = block.bytes.length - r.offset := by
    omega
  unfold BlockReader.basicRead
  dsimp only
  rw [hlength, h.data, havailable]
  generalize hn : (if block.bytes.length - r.offset < count then block.bytes.length - r.offset else count)
    = n
  have hfits : r.offset + n ≤ block.bytes.length := by
    rw [← hn]
    split <;> omega
  have hmod : (r.offset + n) % 2 ^ 64 = r.offset + n := by omega
  rw [if_pos hfits, hmod]
  split
  . exact ⟨_, _, rfl, not_false, h.block_eq, rfl, hfits⟩
  . exact ⟨_, _, rfl, not_false, h⟩

-- A sum that wraps around only moves back, to where there is data too.
theorem skip_on (h : On block r) (n : Nat)
    : ∃ result r',
        r.skip n = some (result, r') ∧ (result.isThrown → r'.offset = r.offset) ∧ On block r' := by
  have hlength : r.length = block.bytes.length := congrArg List.length h.block_eq
  unfold BlockReader.skip
  split
  . exact ⟨_, _, rfl, fun _ => rfl, h⟩
  . next hle =>
    refine ⟨_, _, rfl, False.elim, h.block_eq, ?_, ?_⟩
    . dsimp only
      rw [h.data]
    . dsimp only
      omega

theorem rewind_on (h : On block r) (n : Nat)
    : ∃ result r',
        r.rewind n = some (result, r') ∧ (result.isThrown → r'.offset = r.offset) ∧ On block r' := by
  have hle := h.offset_le
  unfold BlockReader.rewind
  split
  . refine ⟨_, _, rfl, False.elim, h.block_eq, ?_, ?_⟩
    . dsimp only
      rw [h.data]
    . dsimp only
      omega
  . exact ⟨_, _, rfl, fun _ => rfl, h⟩

theorem apply_on (r : BlockReader) (call : Reader.Call) (h : On block r)
    : ∃ result r',
        apply r call = some (result, r') ∧ (result.isThrown → r'.offset = r.offset) ∧ On block r' := by
  cases call with
  | basicRead count =>
    obtain ⟨result, r', hread, hthrown, hr'⟩ := basicRead_on h count.toNat
    exact ⟨result, r', hread, fun ht => absurd ht hthrown, hr'⟩
  | skip n => exact skip_on h n.toNat
  | align n pos => exact skip_on h (Reader.alignment r.offset n.toNat)
  | rewind n => exact rewind_on h n.toNat

theorem staysInside (block : Block) (calls : List Reader.Call)
    : StaysInside apply BlockReader.offset block.bytes.length (BlockReader.new block.bytes) calls :=
  staysInside_of_invariant (On block) (fun _ h => h.offset_le) apply_on (on_new block) calls

/-
What is read through the functions of `Reader`. There is no reader any more after memory outside of the block.
-/

section Decode

variable {α : Type}

def readSome : BasicRead (Option BlockReader) := fun count r =>
  match r.bind (·.basicRead count) with
  | some (.data bytes, r) => (bytes, some r)
  | _ => ([], none)

def decode (read : Option BlockReader → ReadResult (Option BlockReader)) : Decoder BlockReader Error (List UInt8) :=
  fun r =>
    let res := read (some r)
    match res.reader with
    | none => none
    | some r =>
      match res.outcome with
      | .error e => some (.error e)
      | .ok _ => some (.ok (res.data, r))

def readExactly (count : Nat) : Decoder BlockReader Error (List UInt8) :=
  decode (Reader.read (Reader.tryRead readSome) count)

def readByte : Decoder BlockReader Error UInt8 := do
  let bytes ← readExactly 1
  return bytes.headD 0

def readNbo16 : Decoder BlockReader Error UInt16 := do
  let bytes ← readExactly 2
  return UInt16.ofNat (BigEndian.ofBytes bytes)

def readString (count : Nat) : Decoder BlockReader Error (List UInt8) :=
  decode (Reader.readString (Reader.tryReadString readSome) count)

def skipBytes (n : Nat) : Decoder BlockReader Error Unit := fun r =>
  match r.skip n with
  | none => none
  | some (.thrown (.error e), _) => some (.error e)
  | some (_, r) => some (.ok ((), r))

variable {bytes : List UInt8} {offset count n : Nat}

theorem readSome_eq {r : Option BlockReader} {r' : BlockReader}
    (h : r.bind (·.basicRead count) = some (.data bytes, r'))
    : readSome count r = (bytes, some r') := by
  unfold readSome
  rw [h]

theorem readSome_ofOffset (hlt : bytes.length < 2 ^ 64) (hoffset : offset ≤ bytes.length) (count : Nat)
    : readSome count (some (.ofOffset bytes offset))
        = ((bytes.drop offset).take count, some (.ofOffset bytes (offset + min count (bytes.length - offset)))) := by
  apply readSome_eq
  rw [Option.bind_some]
  exact BlockReader.basicRead_ofOffset hlt hoffset count

theorem tryReadLoop_ofOffset (hlt : bytes.length < 2 ^ 64) {size : Nat → Nat}
    (hsize : ∀ n, 0 < n → 0 < size n ∧ size n ≤ n) (text : String) {offset : Nat} (hoffset : offset ≤ bytes.length)
    {done : List UInt8} (hdone : done.length ≤ count)
    : Reader.tryReadLoop readSome size text count done (some (.ofOffset bytes offset))
        = if offset + (count - done.length) ≤ bytes.length then
            { outcome := .ok true, data := done ++ (bytes.drop offset).take (count - done.length),
              reader := some (.ofOffset bytes (offset + (count - done.length))) }
          else
            { outcome := if done = [] ∧ offset = bytes.length then .ok false else .error { error := 0, text },
              data := done ++ bytes.drop offset, reader := some (.ofOffset bytes bytes.length) } := by
  unfold Reader.tryReadLoop
  split
  . next hmore =>
    obtain ⟨hpos, hle⟩ := hsize (count - done.length) (by omega)
    generalize size (count - done.length) = n at *
    rw [readSome_ofOffset hlt hoffset]
    dsimp only
    by_cases hend : offset = bytes.length
    . have hnil : (bytes.drop offset).take n = [] := by
        rw [List.drop_of_length_le (Nat.le_of_eq hend.symm), List.take_nil]
      have hstop : ¬offset + (count - done.length) ≤ bytes.length := by omega
      rw [if_neg hstop, hnil, if_neg (by simp), hend, Nat.sub_self, Nat.min_zero, Nat.add_zero,
        List.drop_length, List.append_nil]
      by_cases hempty : done = []
      . rw [if_neg (by simp [hempty]), if_pos ⟨hempty, rfl⟩]
      . rw [if_pos (by simpa using hempty), if_neg fun h => hempty h.1]
    . have hlt' : offset < bytes.length := by omega
      have hlength : ((bytes.drop offset).take n).length = min n (bytes.length - offset) := by
        rw [List.length_take, List.length_drop]
      have hne : ((bytes.drop offset).take n).length ≠ 0 := by omega
      have hsum : (done ++ (bytes.drop offset).take n).length = done.length + min n (bytes.length - offset) := by
        rw [List.length_append, hlength]
      have hoffset' : offset + min n (bytes.length - offset) ≤ bytes.length := by omega
      have hdone' : (done ++ (bytes.drop offset).take n).length ≤ count := by omega
      have hrest : offset + min n (bytes.length - offset) + (count - (done.length + min n (bytes.length - offset)))
          = offset + (count - done.length) := by omega
      rw [if_pos hne, tryReadLoop_ofOffset hlt hsize text hoffset' hdone', hsum, hrest]
      have htake : (bytes.drop offset).take (min n (bytes.length - offset)) = (bytes.drop offset).take n := by
        rw [← List.length_drop, ← List.take_take, List.take_length]
      split
      . have hdata := @List.take_add _ (bytes.drop offset) (min n (bytes.length - offset))
          (count - (done.length + min n (bytes.length - offset)))
        have hcount : min n (bytes.length - offset) + (count - (done.length + min n (bytes.length - offset)))
            = count - done.length := by omega
        rw [hcount, htake, List.drop_drop] at hdata
        rw [List.append_assoc, ← hdata]
      . have hnonempty : done ++ (bytes.drop offset).take n ≠ [] := by
          intro hnil
          rw [hnil, List.length_nil] at hsum
          omega
        rw [if_neg fun h => hnonempty h.1, if_neg fun h => hend h.2, List.append_assoc, ← htake, ← List.drop_drop,
          List.take_append_drop]
  . next hfull =>
    have hzero : count - done.length = 0 := by omega
    rw [hzero, Nat.add_zero, if_pos hoffset, List.take_zero, List.append_nil]
termination_by count - done.length

theorem decode_ofOffset (hlt : bytes.length < 2 ^ 64) {size : Nat → Nat}
    (hsize : ∀ n, 0 < n → 0 < size n ∧ size n ≤ n) (text : String) (hoffset : offset ≤ bytes.length) (count : Nat)
    : decode (Reader.readOf (fun count => Reader.tryReadLoop readSome size text count []) text count)
          (.ofOffset bytes offset)
        = if offset + count ≤ bytes.length then
            some (.ok ((bytes.drop offset).take count, .ofOffset bytes (offset + count)))
          else
            some (.error { error := 0, text }) := by
  have hnone : ([] : List UInt8).length ≤ count := Nat.zero_le count
  have hloop := tryReadLoop_ofOffset hlt hsize text hoffset hnone
  unfold decode Reader.readOf
  dsimp only
  rw [hloop, List.length_nil, Nat.sub_zero, List.nil_append]
  by_cases hfits : offset + count ≤ bytes.length
  . rw [if_pos hfits, if_pos hfits]
  . rw [if_neg hfits, if_neg hfits]
    dsimp only
    by_cases hend : offset = bytes.length
    . rw [if_pos ⟨rfl, hend⟩]
    . rw [if_neg fun h => hend h.2]

theorem readExactly_ofOffset (hlt : bytes.length < 2 ^ 64) (hoffset : offset ≤ bytes.length) (count : Nat)
    : readExactly count (.ofOffset bytes offset)
        = if offset + count ≤ bytes.length then
            some (.ok ((bytes.drop offset).take count, .ofOffset bytes (offset + count)))
          else
            some (.error { error := 0, text := "EOF" }) :=
  decode_ofOffset hlt (fun _ hn => ⟨hn, Nat.le_refl _⟩) "EOF" hoffset count

theorem readString_ofOffset (hlt : bytes.length < 2 ^ 64) (hoffset : offset ≤ bytes.length) (count : Nat)
    : readString count (.ofOffset bytes offset)
        = if offset + count ≤ bytes.length then
            some (.ok ((bytes.drop offset).take count, .ofOffset bytes (offset + count)))
          else
            some (.error { error := 0, text := "EOF in string" }) := by
  apply decode_ofOffset hlt _ "EOF in string" hoffset count
  intro n hn
  unfold Reader.channelBufferSize
  omega

-- Where the sum does not wrap around
theorem skipBytes_ofOffset (hlt : offset + n < 2 ^ 64)
    : skipBytes n (.ofOffset bytes offset)
        = if offset + n ≤ bytes.length then
            some (.ok ((), .ofOffset bytes (offset + n)))
          else
            some (.error { error := 1, text := "Skip beyond end of block" }) := by
  have hskip : (BlockReader.ofOffset bytes offset).skip n
      = if offset + n ≤ bytes.length then
          some (.done, .ofOffset bytes (offset + n))
        else
          some (Gather.skipBeyondEnd, .ofOffset bytes offset) := by
    unfold BlockReader.skip BlockReader.ofOffset BlockReader.length
    dsimp only
    rw [Nat.mod_eq_of_lt hlt]
    split
    . rw [if_neg (by omega)]
    . rw [if_pos (by omega)]
  unfold skipBytes
  rw [hskip]
  by_cases hfits : offset + n ≤ bytes.length
  . rw [if_pos hfits, if_pos hfits]
  . rw [if_neg hfits, if_neg hfits]
    rfl

/-
A reader that is in its block, and has come at least so far.
-/
def Within (bytes : List UInt8) (start : Nat) (r : BlockReader) : Prop :=
  ∃ offset, start ≤ offset ∧ offset ≤ bytes.length ∧ r = .ofOffset bytes offset

theorem Within.of_le {start start' : Nat} (h : start' ≤ start) (r : BlockReader) (hr : Within bytes start r)
    : Within bytes start' r := by
  obtain ⟨offset, hstart, hoffset, hr⟩ := hr
  exact ⟨offset, h.trans hstart, hoffset, hr⟩

theorem within_new (bytes : List UInt8) : Within bytes 0 (.new bytes) := ⟨0, Nat.le_refl _, Nat.zero_le _, rfl⟩

variable {start : Nat}

theorem runs_of_ofOffset {x : Decoder BlockReader Error α} {e : Error} (n : Nat) (value : Nat → α)
    (h : ∀ offset ≤ bytes.length, x (.ofOffset bytes offset)
      = if offset + n ≤ bytes.length then
          some (.ok (value offset, .ofOffset bytes (offset + n)))
        else
          some (.error e))
    : Decoder.Runs (Within bytes start) (Within bytes (start + n)) x := by
  rintro r ⟨offset, hstart, hoffset, rfl⟩
  rw [h offset hoffset]
  split
  . next hmove =>
    refine ⟨Option.some_ne_none _, ?_⟩
    intro a r' heq
    cases heq
    exact ⟨_, Nat.add_le_add_right hstart n, hmove, rfl⟩
  . refine ⟨Option.some_ne_none _, ?_⟩
    intro a r' heq
    cases heq

theorem readExactly_runs (hlt : bytes.length < 2 ^ 64) (count : Nat)
    : Decoder.Runs (Within bytes start) (Within bytes (start + count)) (readExactly count) :=
  runs_of_ofOffset count (fun offset => (bytes.drop offset).take count)
    fun _ hoffset => readExactly_ofOffset hlt hoffset count

theorem readString_runs (hlt : bytes.length < 2 ^ 64) (count : Nat)
    : Decoder.Runs (Within bytes start) (Within bytes (start + count)) (readString count) :=
  runs_of_ofOffset count (fun offset => (bytes.drop offset).take count)
    fun _ hoffset => readString_ofOffset hlt hoffset count

theorem skipBytes_runs (hlt : bytes.length + n < 2 ^ 64)
    : Decoder.Runs (Within bytes start) (Within bytes (start + n)) (skipBytes n) :=
  runs_of_ofOffset n (fun _ => ()) fun _ hoffset => skipBytes_ofOffset (by omega)

theorem readByte_runs (hlt : bytes.length < 2 ^ 64)
    : Decoder.Runs (Within bytes start) (Within bytes (start + 1)) readByte :=
  (readExactly_runs hlt 1).bind fun _ => Decoder.Runs.pure _

theorem readNbo16_runs (hlt : bytes.length < 2 ^ 64)
    : Decoder.Runs (Within bytes start) (Within bytes (start + 2)) readNbo16 :=
  (readExactly_runs hlt 2).bind fun _ => Decoder.Runs.pure _

/-
A decoder reads bytes that are in front of it, wherever they are in a block.
-/
def Reads (x : Decoder BlockReader Error α) (bytes : List UInt8) (a : α) : Prop :=
  ∀ before rest : List UInt8, (before ++ (bytes ++ rest)).length < 2 ^ 31 →
    x (.ofOffset (before ++ (bytes ++ rest)) before.length)
      = some (.ok (a, .ofOffset (before ++ (bytes ++ rest)) (before.length + bytes.length)))

namespace Reads

variable {β : Type} {bytes1 bytes2 : List UInt8} {a : α} {b : β}

theorem pure (a : α) : Reads (Pure.pure a) [] a := fun _ _ _ => rfl

theorem bind {x : Decoder BlockReader Error α} {f : α → Decoder BlockReader Error β} (hx : Reads x bytes1 a)
    (hf : Reads (f a) bytes2 b)
    : Reads (x >>= f) (bytes1 ++ bytes2) b := by
  intro before rest hlt
  rw [List.append_assoc] at hlt ⊢
  have hf' := hf (before ++ bytes1) rest
  rw [List.append_assoc] at hf'
  rw [Decoder.bind_eq f (hx before (bytes2 ++ rest) hlt), List.length_append, ← Nat.add_assoc, ← List.length_append]
  exact hf' hlt

theorem readExactly (bytes : List UInt8) : Reads (readExactly bytes.length) bytes bytes := by
  intro before rest hlt
  have hlength : (before ++ (bytes ++ rest)).length = before.length + (bytes.length + rest.length) := by simp
  rw [readExactly_ofOffset (by omega) (by omega), if_pos (by omega), List.drop_left, List.take_left]

theorem readString (bytes : List UInt8) : Reads (readString bytes.length) bytes bytes := by
  intro before rest hlt
  have hlength : (before ++ (bytes ++ rest)).length = before.length + (bytes.length + rest.length) := by simp
  rw [readString_ofOffset (by omega) (by omega), if_pos (by omega), List.drop_left, List.take_left]

theorem skipBytes (bytes : List UInt8) : Reads (skipBytes bytes.length) bytes () := by
  intro before rest hlt
  have hlength : (before ++ (bytes ++ rest)).length = before.length + (bytes.length + rest.length) := by simp
  rw [skipBytes_ofOffset (by omega), if_pos (by omega)]

theorem readByte (c : UInt8) : Reads readByte [c] c := (readExactly [c]).bind (pure c)

theorem readNbo16 (i : UInt16) : Reads readNbo16 (Writer.writeNbo16 i) i := by
  have hread := (readExactly (Writer.writeNbo16 i)).bind
    (f := fun bytes => Pure.pure (UInt16.ofNat (BigEndian.ofBytes bytes))) (pure _)
  have hvalue : UInt16.ofNat (BigEndian.ofBytes (Writer.writeNbo16 i)) = i := by
    unfold Writer.writeNbo16
    rw [BigEndian.ofBytes_toBytes i.toNat_lt, UInt16.ofNat_toNat]
  rw [List.append_nil, hvalue] at hread
  exact hread

end Reads

end Decode

end BlockReader

namespace StringReader

theorem skip_data (n : Nat) (r : StringReader)
    : (r.skip n).2.data = r.data ∧ ((result (r.skip n).1).isThrown → (r.skip n).2.offset = r.offset) := by
  unfold skip
  split
  . exact ⟨rfl, fun _ => rfl⟩
  . exact ⟨rfl, False.elim⟩

theorem rewind_data (n : Nat) (r : StringReader)
    : (r.rewind n).2.data = r.data
        ∧
      ((result (r.rewind n).1).isThrown → (r.rewind n).2.offset = r.offset) := by
  unfold rewind
  split
  . exact ⟨rfl, False.elim⟩
  . exact ⟨rfl, fun _ => rfl⟩

theorem apply_data (block : Block) (r : StringReader) (call : Reader.Call) (h : r.data = block.bytes)
    : ∃ result r',
        apply r call = some (result, r')
          ∧
        (result.isThrown → r'.offset = r.offset)
          ∧
        r'.data = block.bytes := by
  cases call with
  | basicRead count => exact ⟨_, _, rfl, False.elim, h⟩
  | skip n =>
    obtain ⟨hdata, hthrown⟩ := r.skip_data n.toNat
    exact ⟨_, _, rfl, hthrown, hdata.trans h⟩
  | align n pos =>
    obtain ⟨hdata, hthrown⟩ := r.skip_data (Reader.alignment r.offset n.toNat)
    exact ⟨_, _, rfl, hthrown, hdata.trans h⟩
  | rewind n =>
    obtain ⟨hdata, hthrown⟩ := r.rewind_data n.toNat
    exact ⟨_, _, rfl, hthrown, hdata.trans h⟩

theorem staysInside (block : Block) (calls : List Reader.Call)
    : StaysInside apply StringReader.offset block.bytes.length (new block.bytes) calls := by
  apply staysInside_of_invariant (fun r => r.data = block.bytes)
  . intro r hr
    have := r.offset_le
    rw [hr] at this
    exact this
  . exact apply_data block
  . rfl

end StringReader

namespace Writer.Call

-- How much is cleared
def padding (offset : Nat) : Writer.Call → Nat
  | .skip n => n.toNat
  | .align n _ => BlockWriter.alignment offset n.toNat
  | _ => 0

/-
More is to be cleared than there is, but the sum that is checked for it wraps around to an offset
inside of the block.
-/
def Wraps (length offset : Nat) (call : Writer.Call) : Prop :=
  2 ^ 64 ≤ offset + call.padding offset ∧ offset + call.padding offset ≤ 2 ^ 64 + length

instance (length offset : Nat) (call : Writer.Call) : Decidable (call.Wraps length offset) :=
  inferInstanceAs (Decidable (_ ∧ _))

-- Where a call goes, in plain arithmetic
def next (length offset : Nat) : Writer.Call → Nat
  | .basicWrite bytes =>
    if offset + bytes.bytes.length ≤ length then offset + bytes.bytes.length else offset
  | .skip n => if offset + n.toNat ≤ length then offset + n.toNat else offset
  | .align n _ =>
    let n := BlockWriter.alignment offset n.toNat
    if offset + n ≤ length then offset + n else offset
  | .rewind n => if n.toNat ≤ offset then offset - n.toNat else offset

end Writer.Call

namespace BlockWriter

/-
No call of the sequence wraps around.
-/
def Permitted (length : Nat) : Nat → List Writer.Call → Prop
  | _, [] => True
  | offset, call :: calls => ¬call.Wraps length offset ∧ Permitted length (call.next length offset) calls

structure On (length : Nat) (w : BlockWriter) : Prop where
  length_eq : w.length = length
  data : w.data = w.offset
  offset_le : w.offset ≤ length

variable {w : BlockWriter} {length n : Nat}

theorem alignment_lt (offset n : Nat) : alignment offset n < 2 ^ 64 := by
  unfold alignment
  dsimp only
  have := Nat.mod_lt (Reader.alignment offset n) (show 2 ^ 32 > 0 by decide)
  split <;> omega

theorem length_splice {block bytes : List UInt8} {i : Nat} (h : i + bytes.length ≤ block.length)
    : (block.take i ++ bytes ++ block.drop (i + bytes.length)).length = block.length := by
  rw [List.length_append, List.length_append, List.length_take, List.length_drop]
  omega

theorem memcpy_of_le {bytes : List UInt8} (h : w.data + bytes.length ≤ w.length)
    : ∃ block, w.memcpy bytes = some block ∧ block.length = w.length := by
  unfold memcpy
  split
  . exact ⟨_, rfl, rfl⟩
  . exact ⟨_, rfl, length_splice h⟩

theorem memset_of_le (h : w.data + n ≤ w.length)
    : ∃ block, w.memset n = some block ∧ block.length = w.length := by
  unfold memset
  split
  . exact ⟨_, rfl, rfl⟩
  . refine ⟨_, rfl, ?_⟩
    have := @length_splice w.block (List.replicate n 0) w.data
    rw [List.length_replicate] at this
    exact this h

theorem basicWrite_spec (h : On length w) (hlt : length < 2 ^ 64) (bytes : List UInt8)
    : ∃ result w',
        w.basicWrite bytes = some (result, w')
          ∧
        (result.isThrown → w'.offset = w.offset)
          ∧
        w'.offset = (if w.offset + bytes.length ≤ length then w.offset + bytes.length else w.offset)
          ∧
        On length w' := by
  have hle := h.offset_le
  have havailable : (w.length + 2 ^ 64 - w.offset) % 2 ^ 64 = length - w.offset := by
    rw [h.length_eq]
    omega
  unfold basicWrite
  rw [havailable]
  split
  . next hfits =>
    have hend : w.offset + bytes.length ≤ length := by omega
    have hmod : (w.offset + bytes.length) % 2 ^ 64 = w.offset + bytes.length := by omega
    have hroom : w.data + bytes.length ≤ w.length := by
      rw [h.data, h.length_eq]
      exact hend
    obtain ⟨block, hcopy, hblock⟩ := memcpy_of_le hroom
    rw [hcopy, hmod, if_pos hend]
    refine ⟨_, _, rfl, False.elim, rfl, hblock.trans h.length_eq, ?_, hend⟩
    dsimp only
    rw [h.data]
  . next hover =>
    rw [if_neg (by omega)]
    exact ⟨_, _, rfl, fun _ => rfl, rfl, h⟩

theorem skip_spec (h : On length w) (hlt : length < 2 ^ 64) (hn : n < 2 ^ 64)
    (hwrap : ¬(2 ^ 64 ≤ w.offset + n ∧ w.offset + n ≤ 2 ^ 64 + length))
    : ∃ result w',
        w.skip n = some (result, w')
          ∧
        (result.isThrown → w'.offset = w.offset)
          ∧
        w'.offset = (if w.offset + n ≤ length then w.offset + n else w.offset)
          ∧
        On length w' := by
  have hle := h.offset_le
  unfold skip
  rw [h.length_eq, h.data]
  split
  . next hfits =>
    have hend : w.offset + n ≤ length := by omega
    have hmod : (w.offset + n) % 2 ^ 64 = w.offset + n := by omega
    have hroom : w.data + n ≤ w.length := by
      rw [h.data, h.length_eq]
      exact hend
    obtain ⟨block, hset, hblock⟩ := memset_of_le hroom
    rw [hset, hmod, if_pos hend]
    exact ⟨_, _, rfl, False.elim, rfl, hblock.trans h.length_eq, rfl, hend⟩
  . next hover =>
    rw [if_neg (by omega)]
    exact ⟨_, _, rfl, fun _ => rfl, rfl, h⟩

-- The memory that is cleared goes on behind the block.
theorem skip_wraps (h : On length w) (hlt : length < 2 ^ 64) (hn : n < 2 ^ 64)
    (hwrap : 2 ^ 64 ≤ w.offset + n ∧ w.offset + n ≤ 2 ^ 64 + length)
    : w.skip n = none := by
  have hle := h.offset_le
  have hfits : (w.offset + n) % 2 ^ 64 ≤ length := by omega
  unfold skip memset
  rw [h.length_eq, h.data, if_pos hfits, if_neg (by omega), if_neg (by omega)]
  rfl

theorem rewind_spec (h : On length w) (n : Nat)
    : ∃ result w',
        w.rewind n = some (result, w')
          ∧
        (result.isThrown → w'.offset = w.offset)
          ∧
        w'.offset = (if n ≤ w.offset then w.offset - n else w.offset)
          ∧
        On length w' := by
  have hle := h.offset_le
  unfold rewind
  split
  . refine ⟨_, _, rfl, False.elim, rfl, h.length_eq, ?_, ?_⟩
    . dsimp only
      rw [h.data]
    . dsimp only
      omega
  . exact ⟨_, _, rfl, fun _ => rfl, rfl, h⟩

theorem apply_spec (h : On length w) (hlt : length < 2 ^ 64) {call : Writer.Call}
    (hwrap : ¬call.Wraps length w.offset)
    : ∃ result w',
        w.apply call = some (result, w')
          ∧
        (result.isThrown → w'.offset = w.offset)
          ∧
        w'.offset = call.next length w.offset
          ∧
        On length w' := by
  cases call with
  | basicWrite bytes => exact basicWrite_spec h hlt bytes.bytes
  | skip n => exact skip_spec h hlt n.toNat_lt hwrap
  | align n pos => exact skip_spec h hlt (alignment_lt _ _) hwrap
  | rewind n => exact rewind_spec h n.toNat

theorem apply_wraps (h : On length w) (hlt : length < 2 ^ 64) {call : Writer.Call}
    (hwrap : call.Wraps length w.offset)
    : w.apply call = none := by
  have hle := h.offset_le
  cases call with
  | basicWrite bytes =>
    have hpadding : 2 ^ 64 ≤ w.offset + 0 := hwrap.1
    omega
  | skip n => exact skip_wraps h hlt n.toNat_lt hwrap
  | align n pos => exact skip_wraps h hlt (alignment_lt _ _) hwrap
  | rewind n =>
    have hpadding : 2 ^ 64 ≤ w.offset + 0 := hwrap.1
    omega

theorem staysInside_iff_of_on (hlt : length < 2 ^ 64) (calls : List Writer.Call) (h : On length w)
    : StaysInside apply offset length w calls ↔ Permitted length w.offset calls := by
  induction calls generalizing w with
  | nil => exact iff_of_true h.offset_le trivial
  | cons call calls ih =>
    unfold StaysInside Permitted
    by_cases hwrap : call.Wraps length w.offset
    . rw [apply_wraps h hlt hwrap]
      simp [hwrap]
    . obtain ⟨result, w', happly, hthrown, hnext, hw'⟩ := apply_spec h hlt hwrap
      rw [← hnext, ← ih hw', happly]
      constructor
      . rintro ⟨-, result', w'', heq, -, hinside⟩
        cases heq
        exact ⟨hwrap, hinside⟩
      . rintro ⟨-, hinside⟩
        exact ⟨h.offset_le, result, w', rfl, hthrown, hinside⟩

theorem staysInside_iff (block : Block) (calls : List Writer.Call)
    : StaysInside apply offset block.bytes.length (new block.bytes) calls
        ↔
      Permitted block.bytes.length 0 calls :=
  staysInside_iff_of_on block.length_lt calls ⟨rfl, rfl, Nat.zero_le _⟩

end BlockWriter

/--
A reader always stays inside of its block. A writer does if and only if what it has to clear never wraps
around.
-/
theorem block_channels_iff (block : Block) (reads : List Reader.Call) (writes : List Writer.Call)
    : (StaysInside BlockReader.apply BlockReader.offset block.bytes.length (BlockReader.new block.bytes) reads
        ∧
      StaysInside StringReader.apply StringReader.offset block.bytes.length (StringReader.new block.bytes) reads
        ∧
      StaysInside BlockWriter.apply BlockWriter.offset block.bytes.length (BlockWriter.new block.bytes) writes)
        ↔
      BlockWriter.Permitted block.bytes.length 0 writes := by
  rw [BlockWriter.staysInside_iff]
  exact ⟨fun h => h.2.2, fun h => ⟨BlockReader.staysInside block reads, StringReader.staysInside block reads, h⟩⟩

/--
A skip by the largest number behind the first byte is taken to go to the start of the block.
-/
theorem not_block_channels
    : ¬StaysInside BlockWriter.apply BlockWriter.offset 4 (BlockWriter.new [0, 0, 0, 0])
        [.basicWrite { bytes := [7], length_lt := by decide }, .skip 0xFFFFFFFFFFFFFFFF] := by
  have h := BlockWriter.staysInside_iff { bytes := [0, 0, 0, 0], length_lt := by decide }
    [.basicWrite { bytes := [7], length_lt := by decide }, .skip 0xFFFFFFFFFFFFFFFF]
  intro hinside
  exact (h.mp hinside).2.1 (by decide)

end Channel
end ObTools
