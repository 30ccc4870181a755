import ObTools.Channel.Reader

/-!
This module contains the model of `Channel::StreamReader` and `Channel::StreamWriter` on a
`Net::TCPStream`, and what is read from a stream that there is enough in.
-/

namespace ObTools

namespace Net

/-
What comes from the other side until it closes, what has been sent to it, and whether the stream is in a
failed state, as it is after a read that reached the end.
-/
structure TCPStream where
  input : List UInt8
  output : List UInt8
  failed : Bool
  deriving DecidableEq, Repr

end Net

namespace Channel

open Net

theorem bind_ok {α β : Type} {x : Except Error α} {f : α → Except Error β} {b : β}
    (h : (x >>= f) = .ok b)
    : ∃ a, x = .ok a ∧ f a = .ok b := by
  cases x with
  | error e => cases h
  | ok a => exact ⟨a, rfl, h⟩

namespace StreamReader

def basicRead (count : Nat) (stream : TCPStream) : Except Error (List UInt8 × TCPStream) :=
  if stream.failed then
    .error { error := 1, text := "Stream failed" }
  else
    .ok (stream.input.take count,
      { stream with input := stream.input.drop count, failed := stream.input.length < count })

/-
The loop of `try_read`, on a `basic_read` that can throw.
-/
def tryReadLoop (size : Nat → Nat) (text : String) (count : Nat) (data : List UInt8) (stream : TCPStream)
    : ReadResult TCPStream :=
  if data.length < count then
    match basicRead (size (count - data.length)) stream with
    | .error e => { outcome := .error e, data, reader := stream }
    | .ok (bytes, stream) =>
      if bytes.length ≠ 0 then
        tryReadLoop size text count (data ++ bytes) stream
      else if data.length ≠ 0 then
        { outcome := .error { error := 0, text }, data, reader := stream }
      else
        { outcome := .ok false, data, reader := stream }
  else
    { outcome := .ok true, data, reader := stream }
termination_by count - data.length
decreasing_by
  rw [List.length_append]
  omega

def tryRead (count : Nat) (stream : TCPStream) : ReadResult TCPStream :=
  tryReadLoop id "EOF" count [] stream

def tryReadString (count : Nat) (stream : TCPStream) : ReadResult TCPStream :=
  tryReadLoop (min Reader.channelBufferSize) "EOF in string" count [] stream

theorem tryReadLoop_spec {size : Nat → Nat} (hsize : ∀ n, 0 < n → 0 < size n ∧ size n ≤ n) (text : String)
    (count : Nat) (done input output : List UInt8) (hle : done.length ≤ count)
    (hcount : count ≤ done.length + input.length)
    : tryReadLoop size text count done { input, output, failed := false }
        = { outcome := .ok true
            data := done ++ input.take (count - done.length)
            reader := { input := input.drop (count - done.length), output, failed := false } } := by
  unfold tryReadLoop
  split
  . next hlt =>
    have hs := hsize (count - done.length) (by omega)
    generalize size (count - done.length) = n at hs ⊢
    have hlength : (input.take n).length = n := by
      rw [List.length_take]
      omega
    have hfailed : decide (input.length < n) = false := decide_eq_false (by omega)
    dsimp only [basicRead, Bool.false_eq_true, if_false]
    rw [if_neg Bool.false_ne_true]
    dsimp only
    rw [if_pos (by omega), hfailed]
    rw [tryReadLoop_spec hsize text count (done ++ input.take n) (input.drop n) output
      (by rw [List.length_append]; omega) (by rw [List.length_append, List.length_drop]; omega)]
    rw [List.length_append, hlength, ← Nat.sub_sub, List.append_assoc, List.drop_drop]
    have hrest : n + (count - done.length - n) = count - done.length := by omega
    rw [← List.take_add, hrest]
  . next hge =>
    have hzero : count - done.length = 0 := by omega
    rw [hzero, List.take_zero, List.append_nil, List.drop_zero]
termination_by count - done.length
decreasing_by
  rw [List.length_append]
  omega

/--
What has been read has gone from the stream.
-/
theorem tryReadLoop_consumes (size : Nat → Nat) (text : String) (count : Nat) (done : List UInt8)
    (stream : TCPStream)
    : (tryReadLoop size text count done stream).reader.input.length
          + (tryReadLoop size text count done stream).data.length
        = stream.input.length + done.length
        ∧
      ((tryReadLoop size text count done stream).outcome = .ok true →
        count ≤ (tryReadLoop size text count done stream).data.length) := by
  unfold tryReadLoop
  split
  . generalize size (count - done.length) = n
    unfold basicRead
    split
    . exact ⟨rfl, nofun⟩
    . next heq =>
      split at heq
      . cases heq
      . cases heq
        have hsplit : (stream.input.take n).length + (stream.input.drop n).length = stream.input.length := by
          rw [← List.length_append, List.take_append_drop]
        split
        . have ih := tryReadLoop_consumes size text count (done ++ stream.input.take n)
            { stream with
              input := stream.input.drop n
              failed := stream.input.length < n }
          refine ⟨?_, ih.2⟩
          rw [ih.1, List.length_append]
          dsimp only
          omega
        . next hnone =>
          have hall : (stream.input.drop n).length = stream.input.length := by omega
          split
          . exact ⟨congrArg (· + done.length) hall, nofun⟩
          . exact ⟨congrArg (· + done.length) hall, nofun⟩
  . next hge => exact ⟨rfl, fun _ => Nat.le_of_not_lt hge⟩
termination_by count - done.length
decreasing_by
  rw [List.length_append]
  omega

theorem tryRead_consumes (count : Nat) (stream : TCPStream)
    : (tryRead count stream).reader.input.length ≤ stream.input.length := by
  have hconsumes := (tryReadLoop_consumes id "EOF" count [] stream).1
  unfold tryRead
  rw [List.length_nil] at hconsumes
  omega

theorem tryReadString_consumes (count : Nat) (stream : TCPStream)
    : (tryReadString count stream).reader.input.length ≤ stream.input.length := by
  have hconsumes := (tryReadLoop_consumes (min Reader.channelBufferSize) "EOF in string" count [] stream).1
  unfold tryReadString
  rw [List.length_nil] at hconsumes
  omega

theorem readByte_consumes {stream stream' : TCPStream} {b : UInt8}
    (h : Reader.readByte tryRead stream = .ok (b, stream'))
    : stream'.input.length < stream.input.length := by
  unfold Reader.readByte at h
  dsimp only at h
  split at h
  . cases h
  . next hok =>
    cases h
    obtain ⟨heq, htrue⟩ := Reader.readOf_ok hok
    obtain ⟨hlength, hdata⟩ := tryReadLoop_consumes id "EOF" 1 [] stream
    have hdata := hdata htrue
    unfold Reader.read
    rw [heq]
    unfold tryRead
    rw [List.length_nil] at hlength
    omega

theorem readNbo_consumes {stream stream' : TCPStream} {w v : Nat}
    (h : Reader.readNbo tryRead w stream = .ok (v, stream'))
    : stream'.input.length ≤ stream.input.length := by
  unfold Reader.readNbo at h
  dsimp only at h
  split at h
  . cases h
  . cases h
    unfold Reader.read
    rw [Reader.readOf_reader]
    apply tryRead_consumes

theorem readNbo16_consumes {stream stream' : TCPStream} {i : UInt16}
    (h : Reader.readNbo16 tryRead stream = .ok (i, stream'))
    : stream'.input.length ≤ stream.input.length := by
  obtain ⟨⟨n, stream1⟩, hread, h⟩ := bind_ok h
  cases h
  apply readNbo_consumes hread

theorem readNbo32_consumes {stream stream' : TCPStream} {i : UInt32}
    (h : Reader.readNbo32 tryRead stream = .ok (i, stream'))
    : stream'.input.length ≤ stream.input.length := by
  obtain ⟨⟨n, stream1⟩, hread, h⟩ := bind_ok h
  cases h
  apply readNbo_consumes hread

theorem readNbo64_consumes {stream stream' : TCPStream} {i : UInt64}
    (h : Reader.readNbo64 tryRead stream = .ok (i, stream'))
    : stream'.input.length ≤ stream.input.length := by
  obtain ⟨⟨n, stream1⟩, hfirst, h⟩ := bind_ok h
  obtain ⟨⟨m, stream2⟩, hsecond, h⟩ := bind_ok h
  cases h
  apply Nat.le_trans (readNbo32_consumes hsecond) (readNbo32_consumes hfirst)

section Append

variable (bytes rest output : List UInt8)

/--
What is asked for is read and nothing behind it.
-/
theorem read_append
    : Reader.read tryRead bytes.length { input := bytes ++ rest, output, failed := false }
        = { outcome := .ok true, data := bytes, reader := { input := rest, output, failed := false } } := by
  have hsize : ∀ n, 0 < n → 0 < id n ∧ id n ≤ n := fun n hn => ⟨hn, Nat.le_refl n⟩
  have htry : tryRead bytes.length { input := bytes ++ rest, output, failed := false }
      = { outcome := .ok true, data := bytes, reader := { input := rest, output, failed := false } } := by
    unfold tryRead
    rw [tryReadLoop_spec hsize "EOF" bytes.length [] (bytes ++ rest) output (Nat.zero_le _) (by simp)]
    simp
  unfold Reader.read Reader.readOf
  rw [htry]

theorem readString_append
    : Reader.readString tryReadString bytes.length { input := bytes ++ rest, output, failed := false }
        = { outcome := .ok true, data := bytes, reader := { input := rest, output, failed := false } } := by
  have hsize : ∀ n, 0 < n → 0 < min Reader.channelBufferSize n ∧ min Reader.channelBufferSize n ≤ n := by
    intro n hn
    unfold Reader.channelBufferSize
    omega
  have htry : tryReadString bytes.length { input := bytes ++ rest, output, failed := false }
      = { outcome := .ok true, data := bytes, reader := { input := rest, output, failed := false } } := by
    unfold tryReadString
    rw [tryReadLoop_spec hsize "EOF in string" bytes.length [] (bytes ++ rest) output (Nat.zero_le _)
      (by simp)]
    simp
  unfold Reader.readString Reader.readOf
  rw [htry]

theorem readByte_cons (b : UInt8)
    : Reader.readByte tryRead { input := b :: rest, output, failed := false }
        = .ok (b, { input := rest, output, failed := false }) := by
  have hread := read_append [b] rest output
  rw [List.length_singleton, List.singleton_append] at hread
  unfold Reader.readByte
  rw [hread]
  rfl

theorem readNbo_append (w v : Nat)
    : Reader.readNbo tryRead w { input := BigEndian.toBytes w v ++ rest, output, failed := false }
        = .ok (v % 256 ^ w, { input := rest, output, failed := false }) := by
  have hread := read_append (BigEndian.toBytes w v) rest output
  rw [BigEndian.length_toBytes] at hread
  unfold Reader.readNbo
  rw [hread]
  dsimp only
  rw [BigEndian.ofBytes_toBytes_mod]

theorem readNbo16_append (v : Nat)
    : Reader.readNbo16 tryRead { input := BigEndian.toBytes 2 v ++ rest, output, failed := false }
        = .ok (UInt16.ofNat v, { input := rest, output, failed := false }) := by
  unfold Reader.readNbo16
  rw [readNbo_append rest output]
  exact congrArg (fun i => Except.ok (i, _)) UInt16.ofNat_mod_size

theorem readNbo32_append (v : Nat)
    : Reader.readNbo32 tryRead { input := BigEndian.toBytes 4 v ++ rest, output, failed := false }
        = .ok (UInt32.ofNat v, { input := rest, output, failed := false }) := by
  unfold Reader.readNbo32
  rw [readNbo_append rest output]
  exact congrArg (fun i => Except.ok (i, _)) UInt32.ofNat_mod_size

theorem readNbo64_append (v : Nat)
    : Reader.readNbo64 tryRead { input := BigEndian.toBytes 8 v ++ rest, output, failed := false }
        = .ok (UInt64.ofNat v, { input := rest, output, failed := false }) := by
  have hhalves : ((UInt32.ofNat (v / 2 ^ 32)).toUInt64 <<< 32) + (UInt32.ofNat v).toUInt64 = UInt64.ofNat v := by
    rw [← UInt64.toNat_inj, UInt64.toNat_add, UInt64.toNat_shiftLeft, UInt32.toNat_toUInt64,
      UInt32.toNat_toUInt64, UInt32.toNat_ofNat', UInt32.toNat_ofNat', UInt64.toNat_ofNat']
    simp only [UInt64.reduceToNat, Nat.reduceMod, Nat.shiftLeft_eq]
    omega
  unfold Reader.readNbo64
  rw [BigEndian.toBytes_add 4 4, List.append_assoc, readNbo32_append]
  dsimp only [bind, Except.bind]
  rw [readNbo32_append]
  exact congrArg (fun i => Except.ok (i, _)) hhalves

end Append

end StreamReader

namespace StreamWriter

def basicWrite (bytes : List UInt8) (stream : TCPStream) : Except Error TCPStream :=
  if stream.failed then
    .error { error := 1, text := "Stream failed" }
  else
    .ok { stream with output := stream.output ++ bytes }

end StreamWriter

end Channel
end ObTools
