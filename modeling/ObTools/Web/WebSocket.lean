import ObTools.Channel.StreamReader

/-!
This module contains the model of `Web::WebSocketFrame` and `Web::WebSocketServer`.

What is left in a frame and in its stream by a read that fails is not looked at by anyone.

It then contains the encodings of frames that a peer can choose from, and the proofs that each of them
is read as the frame and nothing behind it, and that a message is put together from its fragments with the
pings in between answered.
-/

namespace ObTools
namespace Web

open Net

abbrev Bytes := List UInt8

abbrev Opcode := UInt8

namespace Opcode

def continuation : Opcode := 0
def text : Opcode := 1
def binary : Opcode := 2
def close : Opcode := 8
def ping : Opcode := 9
def pong : Opcode := 10

end Opcode

structure WebSocketFrame where
  fin : Bool
  opcode : Opcode
  payload : Bytes
  deriving DecidableEq, Repr

namespace WebSocketFrame

open Channel

def new (opcode : Opcode) : WebSocketFrame := { fin := true, opcode, payload := [] }

def readLength (len : UInt8) (stream : TCPStream) : Except Error (Nat × TCPStream) :=
  if len = 126 then do
    let (n, stream) ← Reader.readNbo16 StreamReader.tryRead stream
    return (n.toNat, stream)
  else if len = 127 then do
    let (n, stream) ← Reader.readNbo64 StreamReader.tryRead stream
    return (n.toNat, stream)
  else
    return (len.toNat, stream)

def readMaskKey (masked : Bool) (stream : TCPStream) : Except Error (Bytes × TCPStream) :=
  if masked then
    let res := Reader.read StreamReader.tryRead 4 stream
    match res.outcome with
    | .error e => .error e
    | .ok _ => .ok (res.data, res.reader)
  else
    .ok ([], stream)

-- The payload is added to what there is already.
def readPayload (payload : Bytes) (len : Nat) (stream : TCPStream) : Except Error (Bytes × TCPStream) :=
  let res := Reader.readString StreamReader.tryReadString len stream
  match res.outcome with
  | .error e => .error e
  | .ok _ => .ok (payload ++ res.data, res.reader)

def unmask (maskKey : Bytes) (len : Nat) (payload : Bytes) : Bytes :=
  payload.mapIdx fun i b => if i < len then b ^^^ maskKey.getD (i % 4) 0 else b

def read (frame : WebSocketFrame) (stream : TCPStream) : Except Error (WebSocketFrame × TCPStream) := do
  let (finOp, stream) ← Reader.readByte StreamReader.tryRead stream
  let (maskLen, stream) ← Reader.readByte StreamReader.tryRead stream
  let masked : Bool := maskLen &&& 0x80 ≠ 0
  let (len, stream) ← readLength (maskLen &&& 0x7f) stream
  let (maskKey, stream) ← readMaskKey masked stream
  let (payload, stream) ← readPayload frame.payload len stream
  return (
    { fin := finOp &&& 0x80 ≠ 0
      opcode := finOp &&& 0x0F
      payload := if masked then unmask maskKey len payload else payload },
    stream)

-- Server-generated frames are never masked.
def bytes (frame : WebSocketFrame) : Bytes :=
  let finOp := if frame.fin then frame.opcode ||| 0x80 else frame.opcode
  let len := frame.payload.length
  let length :=
    if len < 126 then
      [UInt8.ofNat len]
    else if len ≤ 0xFFFF then
      126 :: Writer.writeNbo16 (UInt16.ofNat len)
    else
      127 :: Writer.writeNbo64 (UInt64.ofNat len)
  finOp :: (length ++ frame.payload)

def write (frame : WebSocketFrame) (stream : TCPStream) : Except Error TCPStream :=
  StreamWriter.basicWrite frame.bytes stream

theorem readLength_consumes {len : UInt8} {n : Nat} {stream stream' : TCPStream}
    (h : readLength len stream = .ok (n, stream'))
    : stream'.input.length ≤ stream.input.length := by
  unfold readLength at h
  split at h
  . obtain ⟨⟨i, stream1⟩, hread, h⟩ := bind_ok h
    cases h
    apply StreamReader.readNbo16_consumes hread
  . split at h
    . obtain ⟨⟨i, stream1⟩, hread, h⟩ := bind_ok h
      cases h
      apply StreamReader.readNbo64_consumes hread
    . cases h
      apply Nat.le_refl

theorem readMaskKey_consumes {masked : Bool} {maskKey : Bytes} {stream stream' : TCPStream}
    (h : readMaskKey masked stream = .ok (maskKey, stream'))
    : stream'.input.length ≤ stream.input.length := by
  unfold readMaskKey at h
  split at h
  . dsimp only at h
    split at h
    . cases h
    . cases h
      unfold Reader.read
      rw [Reader.readOf_reader]
      apply StreamReader.tryRead_consumes
  . cases h
    apply Nat.le_refl

theorem readPayload_consumes {payload payload' : Bytes} {len : Nat} {stream stream' : TCPStream}
    (h : readPayload payload len stream = .ok (payload', stream'))
    : stream'.input.length ≤ stream.input.length := by
  unfold readPayload at h
  dsimp only at h
  split at h
  . cases h
  . cases h
    unfold Reader.readString
    rw [Reader.readOf_reader]
    apply StreamReader.tryReadString_consumes

theorem read_consumes {frame frame' : WebSocketFrame} {stream stream' : TCPStream}
    (h : frame.read stream = .ok (frame', stream'))
    : stream'.input.length < stream.input.length := by
  obtain ⟨⟨finOp, stream1⟩, hfinOp, h⟩ := bind_ok h
  obtain ⟨⟨maskLen, stream2⟩, hmaskLen, h⟩ := bind_ok h
  obtain ⟨⟨len, stream3⟩, hlen, h⟩ := bind_ok h
  obtain ⟨⟨maskKey, stream4⟩, hmaskKey, h⟩ := bind_ok h
  obtain ⟨⟨payload, stream5⟩, hpayload, h⟩ := bind_ok h
  cases h
  calc stream'.input.length
    _ ≤ stream4.input.length := readPayload_consumes hpayload
    _ ≤ stream3.input.length := readMaskKey_consumes hmaskKey
    _ ≤ stream2.input.length := readLength_consumes hlen
    _ < stream1.input.length := StreamReader.readByte_consumes hmaskLen
    _ < stream.input.length := StreamReader.readByte_consumes hfinOp

end WebSocketFrame

namespace WebSocketServer

-- Returns whether successfully written
def write (frame : WebSocketFrame) (stream : TCPStream) : Bool × TCPStream :=
  match frame.write stream with
  | .error _ => (false, stream)
  | .ok stream => (true, stream)

theorem write_input (frame : WebSocketFrame) (stream : TCPStream)
    : (write frame stream).2.input = stream.input := by
  unfold write WebSocketFrame.write Channel.StreamWriter.basicWrite
  split
  . rfl
  . next heq =>
    split at heq
    . cases heq
    . cases heq
      rfl

-- A pong with same payload
def pongTo (frame : WebSocketFrame) : WebSocketFrame :=
  { WebSocketFrame.new .pong with payload := frame.payload }

-- Returns whether a valid message received
def readLoop (msg : Bytes) (stream : TCPStream) : Bool × Bytes × TCPStream :=
  -- loop after ping, fragmentation
  match h : (WebSocketFrame.new .binary).read stream with
  | .error _ => (false, msg, stream)
  | .ok (frame, stream') =>
    if frame.opcode = .continuation ∨ frame.opcode = .text ∨ frame.opcode = .binary then
      -- If last frame, return it
      if frame.fin then
        (true, msg ++ frame.payload, stream')
      else
        readLoop (msg ++ frame.payload) stream'
    else if frame.opcode = .close then
      -- Send the same back
      (false, msg, (write frame stream').2)
    else if frame.opcode = .ping then
      readLoop msg (write (pongTo frame) stream').2
    else
      -- A pong, or unexpected
      readLoop msg stream'
termination_by stream.input.length
decreasing_by
  . apply WebSocketFrame.read_consumes h
  . rw [write_input]
    apply WebSocketFrame.read_consumes h
  . apply WebSocketFrame.read_consumes h

def read (stream : TCPStream) : Bool × Bytes × TCPStream := readLoop [] stream

end WebSocketServer

open Net

abbrev MaskKey := Fin 4 → UInt8

inductive LengthForm where
  | short
  | medium
  | long
deriving DecidableEq, Repr

namespace LengthForm

def Fits (len : Nat) : LengthForm → Prop
  | short => len < 126
  | medium => len < 2 ^ 16
  | long => len < 2 ^ 63

-- The seven bits behind the one for the mask
def code (len : Nat) : LengthForm → Nat
  | short => len
  | medium => 126
  | long => 127

def extended (len : Nat) : LengthForm → Bytes
  | short => []
  | medium => BigEndian.toBytes 2 len
  | long => BigEndian.toBytes 8 len

end LengthForm

/--
A frame with what its sender is free to choose.
-/
structure Encoding where
  frame : WebSocketFrame
  mask : Option MaskKey
  form : LengthForm
  opcode_lt : frame.opcode < 16
  fits : form.Fits frame.payload.length

namespace Encoding

def masked (key : MaskKey) (payload : Bytes) : Bytes :=
  payload.mapIdx fun i b => b ^^^ key (Fin.ofNat 4 i)

def bytes (e : Encoding) : Bytes :=
  let finOp := (if e.frame.fin then 128 else 0) + e.frame.opcode.toNat
  let code := e.form.code e.frame.payload.length
  let extended := e.form.extended e.frame.payload.length
  match e.mask with
  | none => UInt8.ofNat finOp :: UInt8.ofNat code :: (extended ++ e.frame.payload)
  | some key =>
    UInt8.ofNat finOp :: UInt8.ofNat (128 + code)
      :: (extended ++ (List.ofFn key ++ masked key e.frame.payload))

end Encoding

namespace WebSocketFrame

open Channel

theorem finOp_eq (fin : Bool) {opcode : Opcode} (h : opcode < 16)
    : decide (UInt8.ofNat ((if fin then 128 else 0) + opcode.toNat) &&& 0x80 ≠ 0) = fin
        ∧
      UInt8.ofNat ((if fin then 128 else 0) + opcode.toNat) &&& 0x0F = opcode
        ∧
      (if fin then opcode ||| 0x80 else opcode) = UInt8.ofNat ((if fin then 128 else 0) + opcode.toNat) := by
  have hall : ∀ n < 16, ∀ fin : Bool,
      decide (UInt8.ofNat ((if fin then 128 else 0) + n) &&& 0x80 ≠ 0) = fin
        ∧
      UInt8.ofNat ((if fin then 128 else 0) + n) &&& 0x0F = UInt8.ofNat n
        ∧
      (if fin then UInt8.ofNat n ||| 0x80 else UInt8.ofNat n) = UInt8.ofNat ((if fin then 128 else 0) + n) := by
    decide
  have hopcode := hall opcode.toNat h fin
  rw [UInt8.ofNat_toNat] at hopcode
  exact hopcode

theorem maskLen_eq (masked : Bool) {code : Nat} (h : code < 128)
    : decide (UInt8.ofNat ((if masked then 128 else 0) + code) &&& 0x80 ≠ 0) = masked
        ∧
      UInt8.ofNat ((if masked then 128 else 0) + code) &&& 0x7f = UInt8.ofNat code := by
  have hall : ∀ n < 128, ∀ masked : Bool,
      decide (UInt8.ofNat ((if masked then 128 else 0) + n) &&& 0x80 ≠ 0) = masked
        ∧
      UInt8.ofNat ((if masked then 128 else 0) + n) &&& 0x7f = UInt8.ofNat n := by
    decide
  exact hall code h masked

variable (rest output : Bytes)

theorem code_lt {form : LengthForm} {len : Nat} (h : form.Fits len) : form.code len < 128 := by
  cases form with
  | short => exact Nat.lt_trans h (by decide)
  | medium => exact (by decide : 126 < 128)
  | long => exact (by decide : 127 < 128)

theorem readLength_append {form : LengthForm} {len : Nat} (h : form.Fits len)
    : readLength (UInt8.ofNat (form.code len))
          { input := form.extended len ++ rest, output, failed := false }
        = .ok (len, { input := rest, output, failed := false }) := by
  cases form with
  | short =>
    have hne : ∀ n < 126, UInt8.ofNat n ≠ 126 ∧ UInt8.ofNat n ≠ 127 ∧ (UInt8.ofNat n).toNat = n := by
      decide
    obtain ⟨hne, hne', hlen⟩ := hne len h
    dsimp only [LengthForm.code, LengthForm.extended]
    unfold readLength
    rw [if_neg hne, if_neg hne', hlen]
    rfl
  | medium =>
    dsimp only [LengthForm.code, LengthForm.extended]
    unfold readLength
    rw [if_pos (by decide), StreamReader.readNbo16_append]
    dsimp only [bind, Except.bind, pure, Except.pure]
    rw [UInt16.toNat_ofNat_of_lt' h]
  | long =>
    have hlt : len < UInt64.size := Nat.lt_trans h (by decide)
    dsimp only [LengthForm.code, LengthForm.extended]
    unfold readLength
    rw [if_neg (by decide), if_pos (by decide), StreamReader.readNbo64_append]
    dsimp only [bind, Except.bind, pure, Except.pure]
    rw [UInt64.toNat_ofNat_of_lt' hlt]

theorem readMaskKey_append (key : MaskKey)
    : readMaskKey true { input := List.ofFn key ++ rest, output, failed := false }
        = .ok (List.ofFn key, { input := rest, output, failed := false }) := by
  have hread := StreamReader.read_append (List.ofFn key) rest output
  rw [List.length_ofFn] at hread
  unfold readMaskKey
  rw [if_pos rfl, hread]

theorem readPayload_append (payload : Bytes)
    : readPayload [] payload.length { input := payload ++ rest, output, failed := false }
        = .ok (payload, { input := rest, output, failed := false }) := by
  unfold readPayload
  rw [StreamReader.readString_append]
  rfl

theorem unmask_masked (key : MaskKey) (payload : Bytes)
    : unmask (List.ofFn key) payload.length (Encoding.masked key payload) = payload := by
  apply List.ext_getElem
  . simp [unmask, Encoding.masked]
  . intro i hi hi'
    have hkey : (List.ofFn key).getD (i % 4) 0 = key (Fin.ofNat 4 i) := by
      have hlt : i % 4 < (List.ofFn key).length := by
        rw [List.length_ofFn]
        omega
      rw [List.getD_eq_getElem?_getD, List.getElem?_eq_getElem hlt, Option.getD_some, List.getElem_ofFn]
      rfl
    simp only [unmask, Encoding.masked, List.getElem_mapIdx]
    rw [if_pos hi', hkey, UInt8.xor_assoc, UInt8.xor_self, UInt8.xor_zero]

/--
A frame is read from each of its encodings, and nothing behind it.
-/
theorem read_bytes (e : Encoding)
    : (new .binary).read { input := e.bytes ++ rest, output, failed := false }
        = .ok (e.frame, { input := rest, output, failed := false }) := by
  obtain ⟨frame, mask, form, hopcode, hfits⟩ := e
  obtain ⟨hfin, hop, -⟩ := finOp_eq frame.fin hopcode
  have hcode := code_lt hfits
  cases mask with
  | none =>
    obtain ⟨hmasked, hlen⟩ := maskLen_eq false hcode
    rw [if_neg Bool.false_ne_true, Nat.zero_add] at hmasked hlen
    unfold read Encoding.bytes
    dsimp only
    rw [List.cons_append, List.cons_append, List.append_assoc, StreamReader.readByte_cons]
    dsimp only [bind, Except.bind]
    rw [StreamReader.readByte_cons]
    dsimp only
    rw [hmasked, hlen, readLength_append _ _ hfits]
    dsimp only [readMaskKey]
    rw [if_neg Bool.false_ne_true]
    dsimp only [new]
    rw [readPayload_append]
    dsimp only [pure, Except.pure]
    rw [if_neg Bool.false_ne_true, hfin, hop]
  | some key =>
    obtain ⟨hmasked, hlen⟩ := maskLen_eq true hcode
    rw [if_pos rfl] at hmasked hlen
    have hlength : (Encoding.masked key frame.payload).length = frame.payload.length :=
      List.length_mapIdx
    have hpayload := readPayload_append rest output (Encoding.masked key frame.payload)
    rw [hlength] at hpayload
    unfold read Encoding.bytes
    dsimp only
    rw [List.cons_append, List.cons_append, List.append_assoc, List.append_assoc,
      StreamReader.readByte_cons]
    dsimp only [bind, Except.bind]
    rw [StreamReader.readByte_cons]
    dsimp only
    rw [hmasked, hlen, readLength_append _ _ hfits]
    dsimp only
    rw [readMaskKey_append]
    dsimp only [new]
    rw [hpayload]
    dsimp only [pure, Except.pure]
    rw [if_pos rfl, hfin, hop, unmask_masked]

/--
What the code writes is an encoding without a mask.
-/
theorem exists_bytes_eq (frame : WebSocketFrame) (hopcode : frame.opcode < 16)
    (hlen : frame.payload.length < 2 ^ 63)
    : ∃ e : Encoding, e.frame = frame ∧ e.mask = none ∧ frame.bytes = e.bytes := by
  obtain ⟨-, -, hfinOp⟩ := finOp_eq frame.fin hopcode
  by_cases hshort : frame.payload.length < 126
  . refine ⟨⟨frame, none, .short, hopcode, hshort⟩, rfl, rfl, ?_⟩
    unfold bytes
    dsimp only
    rw [hfinOp, if_pos hshort]
    rfl
  . by_cases hmedium : frame.payload.length ≤ 0xFFFF
    . refine ⟨⟨frame, none, .medium, hopcode, by unfold LengthForm.Fits; omega⟩, rfl, rfl, ?_⟩
      unfold bytes
      dsimp only
      rw [hfinOp, if_neg hshort, if_pos hmedium]
      have hnbo : Writer.writeNbo16 (UInt16.ofNat frame.payload.length)
          = BigEndian.toBytes 2 frame.payload.length := by
        unfold Writer.writeNbo16
        rw [UInt16.toNat_ofNat_of_lt' (by unfold UInt16.size; omega)]
      rw [hnbo]
      rfl
    . refine ⟨⟨frame, none, .long, hopcode, hlen⟩, rfl, rfl, ?_⟩
      unfold bytes
      dsimp only
      rw [hfinOp, if_neg hshort, if_neg hmedium]
      have hlen' : frame.payload.length < UInt64.size := Nat.lt_trans hlen (by decide)
      have hnbo : Writer.writeNbo64 (UInt64.ofNat frame.payload.length)
          = BigEndian.toBytes 8 frame.payload.length := by
        rw [Writer.writeNbo64_eq, UInt64.toNat_ofNat_of_lt' hlen']
      rw [hnbo]
      rfl

theorem write_bytes (frame : WebSocketFrame) (input : Bytes)
    : frame.write { input, output, failed := false }
        = .ok { input, output := output ++ frame.bytes, failed := false } := by
  unfold write StreamWriter.basicWrite
  apply if_neg Bool.false_ne_true

end WebSocketFrame

/--
A message that is cut into pieces.
-/
def fragments (opcode : Opcode) : List Bytes → List WebSocketFrame
  | [] => []
  | [payload] => [{ fin := true, opcode, payload }]
  | payload :: payload' :: payloads =>
    { fin := false, opcode, payload } :: fragments .continuation (payload' :: payloads)

/--
Any pings and pongs can be in front of the frames with data, but the message is over with the last of these.
-/
inductive Interleaved : List WebSocketFrame → List WebSocketFrame → Prop where
  | done : Interleaved [] []
  | control {frame : WebSocketFrame} {data all : List WebSocketFrame}
      : frame.opcode = .ping ∨ frame.opcode = .pong → data ≠ [] → Interleaved data all →
        Interleaved data (frame :: all)
  | data {frame : WebSocketFrame} {data all : List WebSocketFrame}
      : Interleaved data all → Interleaved (frame :: data) (frame :: all)

theorem fragments_eq_nil {opcode : Opcode} {pieces : List Bytes}
    : fragments opcode pieces = [] ↔ pieces = [] := by
  match pieces with
  | [] => exact ⟨fun _ => rfl, fun _ => rfl⟩
  | [piece] => exact ⟨nofun, nofun⟩
  | piece :: piece' :: pieces => exact ⟨nofun, nofun⟩

theorem Interleaved.eq_nil {all : List WebSocketFrame} (h : Interleaved [] all) : all = [] := by
  cases h with
  | done => rfl
  | control hcontrol hne h => contradiction

namespace WebSocketServer

variable {msg rest output : Bytes}

theorem readLoop_data (e : Encoding)
    (hopcode : e.frame.opcode = .continuation ∨ e.frame.opcode = .text ∨ e.frame.opcode = .binary)
    : readLoop msg { input := e.bytes ++ rest, output, failed := false }
        = if e.frame.fin then
            (true, msg ++ e.frame.payload, { input := rest, output, failed := false })
          else
            readLoop (msg ++ e.frame.payload) { input := rest, output, failed := false } := by
  have hread := WebSocketFrame.read_bytes rest output e
  rw [readLoop]
  split
  . next heq =>
    rw [hread] at heq
    cases heq
  . next heq =>
    rw [hread] at heq
    cases heq
    rw [if_pos hopcode]

theorem readLoop_ping (e : Encoding) (hopcode : e.frame.opcode = .ping)
    : readLoop msg { input := e.bytes ++ rest, output, failed := false }
        = readLoop msg
            { input := rest, output := output ++ (pongTo e.frame).bytes, failed := false } := by
  have hread := WebSocketFrame.read_bytes rest output e
  rw [readLoop]
  split
  . next heq =>
    rw [hread] at heq
    cases heq
  . next heq =>
    rw [hread] at heq
    cases heq
    rw [hopcode, if_neg (by decide), if_neg (by decide), if_pos rfl]
    unfold write
    rw [WebSocketFrame.write_bytes]

theorem readLoop_pong (e : Encoding) (hopcode : e.frame.opcode = .pong)
    : readLoop msg { input := e.bytes ++ rest, output, failed := false }
        = readLoop msg { input := rest, output, failed := false } := by
  have hread := WebSocketFrame.read_bytes rest output e
  rw [readLoop]
  split
  . next heq =>
    rw [hread] at heq
    cases heq
  . next heq =>
    rw [hread] at heq
    cases heq
    rw [hopcode, if_neg (by decide), if_neg (by decide), if_neg (by decide)]

theorem length_lt (e : Encoding) : e.frame.payload.length < 2 ^ 63 := by
  have hfits := e.fits
  unfold LengthForm.Fits at hfits
  split at hfits
  . omega
  . omega
  . apply hfits

-- The pings among some frames, answered
def pongs (frames : List WebSocketFrame) : List WebSocketFrame :=
  (frames.filter (·.opcode = .ping)).map pongTo

/--
The fragments are added to the message until the last one of them.
-/
theorem readLoop_interleaved {data all : List WebSocketFrame} (h : Interleaved data all)
    {opcode : Opcode} (hopcode : opcode = .continuation ∨ opcode = .text ∨ opcode = .binary)
    {pieces : List Bytes} (hdata : data = fragments opcode pieces) (hne : pieces ≠ [])
    {es : List Encoding} (hall : all = es.map Encoding.frame) (msg output : Bytes)
    : readLoop msg { input := es.flatMap Encoding.bytes ++ rest, output, failed := false }
        = (true, msg ++ pieces.flatten,
            { input := rest
              output := output ++ (pongs all).flatMap WebSocketFrame.bytes
              failed := false }) := by
  induction h generalizing opcode pieces es msg output with
  | done =>
    rw [eq_comm, fragments_eq_nil] at hdata
    contradiction
  | @control frame data all hcontrol hrest h ih =>
    obtain ⟨e, es, rfl, hframe, hes⟩ := List.map_eq_cons_iff.mp hall.symm
    rw [List.flatMap_cons, List.append_assoc]
    rcases hcontrol with hping | hpong
    . rw [readLoop_ping e (hframe ▸ hping), ih hopcode hdata hne hes.symm, hframe]
      unfold pongs
      rw [List.filter_cons_of_pos (by simpa using hping), List.map_cons, List.flatMap_cons,
        List.append_assoc]
    . have hping : ¬frame.opcode = .ping := by
        rw [hpong]
        decide
      rw [readLoop_pong e (hframe ▸ hpong), ih hopcode hdata hne hes.symm]
      unfold pongs
      rw [List.filter_cons_of_neg (by simpa using hping)]
  | @data frame data all h ih =>
    obtain ⟨e, es, rfl, hframe, hes⟩ := List.map_eq_cons_iff.mp hall.symm
    rw [List.flatMap_cons, List.append_assoc]
    have hnoPong (hop : frame.opcode = opcode) : pongs (frame :: all) = pongs all := by
      have hping : ¬frame.opcode = .ping := by
        rw [hop]
        rintro rfl
        revert hopcode
        decide
      unfold pongs
      rw [List.filter_cons_of_neg (by simpa using hping)]
    match pieces, hne with
    | [piece], _ =>
      rw [fragments, List.cons_eq_cons] at hdata
      obtain ⟨rfl, rfl⟩ := hdata
      rw [h.eq_nil, List.map_eq_nil_iff] at hes
      rw [hnoPong rfl, readLoop_data e (hframe ▸ hopcode), hframe, if_pos rfl, hes, h.eq_nil]
      simp [pongs]
    | piece :: piece' :: pieces, _ =>
      rw [fragments, List.cons_eq_cons] at hdata
      obtain ⟨rfl, rfl⟩ := hdata
      have hflatten : (piece :: piece' :: pieces).flatten = piece ++ (piece' :: pieces).flatten :=
        List.flatten_cons
      rw [hnoPong rfl, readLoop_data e (hframe ▸ hopcode), hframe, if_neg Bool.false_ne_true,
        ih (.inl rfl) rfl (List.cons_ne_nil _ _) hes.symm, hflatten, List.append_assoc]

/--
What is sent back are encodings of the pongs.
-/
theorem exists_flatMap_bytes (es : List Encoding)
    : ∃ sent : List Encoding, sent.map Encoding.frame = pongs (es.map Encoding.frame)
        ∧ (pongs (es.map Encoding.frame)).flatMap WebSocketFrame.bytes = sent.flatMap Encoding.bytes := by
  induction es with
  | nil => exact ⟨[], rfl, rfl⟩
  | cons e es ih =>
    obtain ⟨sent, hframes, hbytes⟩ := ih
    rw [List.map_cons]
    by_cases hping : e.frame.opcode = .ping
    . have hopcode : (pongTo e.frame).opcode < 16 := (by decide : Opcode.pong < 16)
      obtain ⟨pong, hframe, -, hpong⟩ := WebSocketFrame.exists_bytes_eq (pongTo e.frame) hopcode
        (length_lt e)
      have hcons : pongs (e.frame :: es.map Encoding.frame)
          = pongTo e.frame :: pongs (es.map Encoding.frame) := by
        unfold pongs
        rw [List.filter_cons_of_pos (by simpa using hping), List.map_cons]
      refine ⟨pong :: sent, ?_, ?_⟩
      . rw [hcons, List.map_cons, hframe, hframes]
      . rw [hcons, List.flatMap_cons, List.flatMap_cons, hpong, hbytes]
    . have hskip : pongs (e.frame :: es.map Encoding.frame) = pongs (es.map Encoding.frame) := by
        unfold pongs
        rw [List.filter_cons_of_neg (by simpa using hping)]
      rw [hskip]
      exact ⟨sent, hframes, hbytes⟩

/--
A frame is written as one of its encodings and read from any of them, and a message is read from the
fragments that it is cut into, with a pong sent for each ping in between.
-/
theorem read_message (frame : WebSocketFrame) (e : Encoding) (opcode : Opcode) (pieces : List Bytes)
    (es : List Encoding) (input rest output : Bytes)
    : (frame.opcode < 16 → frame.payload.length < 2 ^ 63 →
        ∃ written : Encoding, written.frame = frame ∧ written.mask = none
          ∧ frame.write { input, output, failed := false }
              = .ok { input, output := output ++ written.bytes, failed := false })
        ∧
      (WebSocketFrame.new .binary).read { input := e.bytes ++ rest, output, failed := false }
        = .ok (e.frame, { input := rest, output, failed := false })
        ∧
      (opcode = .text ∨ opcode = .binary → pieces ≠ [] →
        Interleaved (fragments opcode pieces) (es.map Encoding.frame) →
        ∃ sent : List Encoding, sent.map Encoding.frame = pongs (es.map Encoding.frame)
          ∧ read { input := es.flatMap Encoding.bytes ++ rest, output, failed := false }
              = (true, pieces.flatten,
                  { input := rest, output := output ++ sent.flatMap Encoding.bytes, failed := false })) := by
  refine ⟨?_, WebSocketFrame.read_bytes rest output e, ?_⟩
  . intro hopcode hlen
    obtain ⟨written, hframe, hmask, hbytes⟩ := WebSocketFrame.exists_bytes_eq frame hopcode hlen
    rw [WebSocketFrame.write_bytes, hbytes]
    exact ⟨written, hframe, hmask, rfl⟩
  . intro hopcode hne hinterleaved
    obtain ⟨sent, hframes, hbytes⟩ := exists_flatMap_bytes es
    refine ⟨sent, hframes, ?_⟩
    unfold read
    rw [readLoop_interleaved hinterleaved (.inr hopcode) rfl hne rfl, hbytes, List.nil_append]

-- A masked fragment of a text, then a ping, then the rest of the text in its long form
def fragmented : List Encoding :=
  [{ frame := { fin := false, opcode := .text, payload := [72] }
     mask := some fun i => UInt8.ofNat (i + 1)
     form := .short
     opcode_lt := by decide
     fits := (by decide : 1 < 126) },
   { frame := { fin := true, opcode := .ping, payload := [1, 2] }
     mask := none
     form := .medium
     opcode_lt := by decide
     fits := (by decide : 2 < 2 ^ 16) },
   { frame := { fin := true, opcode := .continuation, payload := [105] }
     mask := none
     form := .long
     opcode_lt := by decide
     fits := (by decide : 1 < 2 ^ 63) }]

theorem read_message_fragmented
    : (∃ written : Encoding, written.frame = .new .close ∧ written.mask = none
        ∧ (WebSocketFrame.new .close).write { input := [], output := [], failed := false }
            = .ok { input := [], output := written.bytes, failed := false })
        ∧
      ∃ sent : List Encoding, sent.map Encoding.frame = [{ fin := true, opcode := .pong, payload := [1, 2] }]
        ∧ read { input := [1, 129, 1, 2, 3, 4, 73, 137, 126, 0, 2, 1, 2, 128, 127, 0, 0, 0, 0, 0, 0, 0, 1, 105]
                 output := []
                 failed := false }
            = (true, [72, 105],
                { input := [], output := sent.flatMap Encoding.bytes, failed := false }) := by
  have h := read_message (.new .close) (fragmented.head (by decide)) .text [[72], [105]] fragmented [] [] []
  have hinterleaved : Interleaved (fragments .text [[72], [105]]) (fragmented.map Encoding.frame) :=
    .data (.control (.inl rfl) (by decide) (.data .done))
  exact ⟨h.1 (by decide) (by decide), h.2.2 (.inl rfl) (by decide) hinterleaved⟩

end WebSocketServer

end Web
end ObTools
