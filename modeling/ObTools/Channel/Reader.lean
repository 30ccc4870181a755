import ObTools.Lib.BigEndian

/-!
This module contains the model of `Channel::Reader`, on top of any reader that is given by its state
and by what `basic_read` does to it. The functions that the source declares `virtual` are passed on
to those that call them.

A read with a null buffer only differs from one with a buffer in that the data goes nowhere.

The functions of `Channel::Writer` are given by the bytes that they write.

It then contains what the functions of `Channel::Reader` give on a reader that is lawful: the
data it has in front of it, however it comes in pieces.
-/

namespace ObTools
namespace Channel

structure Error where
  error : Int
  text : String
  deriving DecidableEq, Repr

-- What ends up in the buffer, also if the read fails after that.
structure ReadResult (σ : Type) where
  outcome : Except Error Bool
  data : List UInt8
  reader : σ

-- Returns what is read, at most the given number of bytes
abbrev BasicRead (σ : Type) := Nat → σ → List UInt8 × σ

namespace Reader

def channelBufferSize : Nat := 1024

variable {σ : Type} (basicRead : BasicRead σ)

/-
The loop of `try_read`. The buffer that is passed to `basic_read` is the rest of the caller's own or
a local one, which determines how much is asked for at once.
-/
def tryReadLoop (size : Nat → Nat) (text : String) (count : Nat) (data : List UInt8) (reader : σ)
    : ReadResult σ :=
  if data.length < count then
    let (bytes, reader) := basicRead (size (count - data.length)) reader
    if bytes.length ≠ 0 then
      tryReadLoop size text count (data ++ bytes) reader
    else if data.length ≠ 0 then
      { outcome := .error { error := 0, text }, data, reader }
    else
      { outcome := .ok false, data, reader }
  else
    { outcome := .ok true, data, reader }
termination_by count - data.length
decreasing_by
  rw [List.length_append]
  omega

def tryRead (count : Nat) (reader : σ) : ReadResult σ :=
  tryReadLoop basicRead id "EOF" count [] reader

def tryReadString (count : Nat) (reader : σ) : ReadResult σ :=
  tryReadLoop basicRead (min channelBufferSize) "EOF in string" count [] reader

-- `read`, where EOF is an error too
def readOf (tryRead : Nat → σ → ReadResult σ) (text : String) (count : Nat) (reader : σ)
    : ReadResult σ :=
  let res := tryRead count reader
  match res.outcome with
  | .ok false => { res with outcome := .error { error := 0, text } }
  | _ => res

def read (tryRead : Nat → σ → ReadResult σ) (count : Nat) (reader : σ) : ReadResult σ :=
  readOf tryRead "EOF" count reader

def readString (tryReadString : Nat → σ → ReadResult σ) (count : Nat) (reader : σ)
    : ReadResult σ :=
  readOf tryReadString "EOF in string" count reader

/-
The loop of `read_to_eof` with a limit, which is the same for all kinds of buffers.
-/
def readToEofLoop (limit : Nat) (data : List UInt8) (reader : σ) : List UInt8 × σ :=
  if data.length < limit then
    let (bytes, reader) := basicRead (min channelBufferSize (limit - data.length)) reader
    if bytes.length ≠ 0 then
      readToEofLoop limit (data ++ bytes) reader
    else
      (data, reader)
  else
    (data, reader)
termination_by limit - data.length
decreasing_by
  rw [List.length_append]
  omega

def readToEof (limit : Nat) (reader : σ) : List UInt8 × σ :=
  readToEofLoop basicRead limit [] reader

/-
The loop of `read_to_eof` without a limit. It stops at the first read that comes back with less than was
asked for.
-/
def readAllLoop : Nat → List UInt8 → σ → Option (List UInt8 × σ)
  | 0, _, _ => none
  | fuel + 1, data, reader =>
    let (bytes, reader) := basicRead channelBufferSize reader
    if bytes.length ≠ channelBufferSize then
      some (data ++ bytes, reader)
    else
      readAllLoop fuel (data ++ bytes) reader

def readAll (fuel : Nat) (reader : σ) : Option (List UInt8 × σ) := readAllLoop basicRead fuel [] reader

def tryReadByte (tryRead : Nat → σ → ReadResult σ) (reader : σ) : ReadResult σ := tryRead 1 reader

def readByte (tryRead : Nat → σ → ReadResult σ) (reader : σ) : Except Error (UInt8 × σ) :=
  let res := read tryRead 1 reader
  match res.outcome with
  | .error e => .error e
  | .ok _ => .ok (res.data.headD 0, res.reader)

-- A number in network byte order of the given number of bytes
def readNbo (tryRead : Nat → σ → ReadResult σ) (count : Nat) (reader : σ)
    : Except Error (Nat × σ) :=
  let res := read tryRead count reader
  match res.outcome with
  | .error e => .error e
  | .ok _ => .ok (BigEndian.ofBytes res.data, res.reader)

def readNbo16 (tryRead : Nat → σ → ReadResult σ) (reader : σ) : Except Error (UInt16 × σ) := do
  let (n, reader) ← readNbo tryRead 2 reader
  return (UInt16.ofNat n, reader)

def readNbo32 (tryRead : Nat → σ → ReadResult σ) (reader : σ) : Except Error (UInt32 × σ) := do
  let (n, reader) ← readNbo tryRead 4 reader
  return (UInt32.ofNat n, reader)

def readNbo64 (tryRead : Nat → σ → ReadResult σ) (reader : σ) : Except Error (UInt64 × σ) := do
  let (n, reader) ← readNbo32 tryRead reader
  let (m, reader) ← readNbo32 tryRead reader
  return ((n.toUInt64 <<< 32) + m.toUInt64, reader)

def skip (tryRead : Nat → σ → ReadResult σ) (n : Nat) (reader : σ) : ReadResult σ :=
  read tryRead n reader

-- Bytes to skip, in unsigned 64 bit arithmetic
def alignment (offset n : Nat) : Nat :=
  (n * ((offset + n - 1) % 2 ^ 64 / n) + (2 ^ 64 - offset)) % 2 ^ 64

end Reader

namespace Writer

def writeNbo16 (i : UInt16) : List UInt8 := BigEndian.toBytes 2 i.toNat

def writeNbo32 (i : UInt32) : List UInt8 := BigEndian.toBytes 4 i.toNat

def writeNbo64 (i : UInt64) : List UInt8 :=
  writeNbo32 (i >>> 32).toUInt32 ++ writeNbo32 (i &&& 0xFFFFFFFF).toUInt32

end Writer

/-
A reader that reads the given data and only comes back with nothing when there is no more of it.
-/
structure Lawful {σ : Type} (basicRead : BasicRead σ) (data : σ → List UInt8) : Prop where
  stream : ∀ n reader, data reader = (basicRead n reader).1 ++ data (basicRead n reader).2
  length_le : ∀ n reader, (basicRead n reader).1.length ≤ n
  progress : ∀ n reader, 0 < n → data reader ≠ [] → (basicRead n reader).1 ≠ []

/-
The string is not changed while there is a reader on it.
-/
structure StringReader where
  data : List UInt8
  offset : Nat
  offset_le : offset ≤ data.length

namespace StringReader

def new (data : List UInt8) : StringReader := { data, offset := 0, offset_le := by omega }

def rest (r : StringReader) : List UInt8 := r.data.drop r.offset

-- Limit to length available
def available (r : StringReader) (count : Nat) : Nat :=
  if r.data.length - r.offset < count then r.data.length - r.offset else count

theorem offset_add_available_le (r : StringReader) (count : Nat)
    : r.offset + r.available count ≤ r.data.length := by
  have := r.offset_le
  unfold available
  split <;> omega

def basicRead : BasicRead StringReader := fun count r =>
  let n := r.available count
  (r.rest.take n,
    { r with offset := r.offset + n, offset_le := r.offset_add_available_le count })

-- `offset + n` is computed modulo `2 ^ 64`
def skip (n : Nat) (r : StringReader) : Except Error Unit × StringReader :=
  if h : (r.offset + n) % 2 ^ 64 > r.data.length then
    (.error { error := 1, text := "Skip beyond end of string" }, r)
  else
    (.ok (), { r with offset := (r.offset + n) % 2 ^ 64, offset_le := Nat.le_of_not_lt h })

theorem rest_new (data : List UInt8) : (new data).rest = data := rfl

theorem basicRead_fst (count : Nat) (r : StringReader) : (basicRead count r).1 = r.rest.take count := by
  unfold basicRead available
  dsimp only
  split
  . rw [List.take_of_length_le, List.take_of_length_le]
    . unfold rest
      rw [List.length_drop]
      omega
    . exact Nat.le_of_eq List.length_drop
  . rfl

theorem basicRead_snd (count : Nat) (r : StringReader)
    : (basicRead count r).2.rest = r.rest.drop count := by
  unfold basicRead available rest
  dsimp only
  rw [List.drop_drop]
  split
  . have := r.offset_le
    rw [List.drop_of_length_le, List.drop_of_length_le]
    . omega
    . omega
  . rfl

theorem lawful : Lawful basicRead rest where
  stream := by
    intro n r
    rw [basicRead_fst, basicRead_snd, List.take_append_drop]
  length_le := by
    intro n r
    rw [basicRead_fst, List.length_take]
    omega
  progress := by
    intro n r hn hne hnil
    rw [basicRead_fst, List.take_eq_nil_iff] at hnil
    cases hnil with
    | inl hzero => omega
    | inr hnil => exact hne hnil

end StringReader

namespace Reader

variable {σ : Type} {basicRead : BasicRead σ} {data : σ → List UInt8}

/--
What a single `basic_read` preserves is preserved by the loops around it.
-/
theorem tryReadLoop_preserves {P : σ → Prop} (h : ∀ n reader, P reader → P (basicRead n reader).2)
    (size : Nat → Nat) (text : String) (count : Nat) (done : List UInt8) (reader : σ)
    (hreader : P reader)
    : P (tryReadLoop basicRead size text count done reader).reader := by
  unfold tryReadLoop
  split
  . have hnext := h (size (count - done.length)) reader hreader
    dsimp only
    split
    . exact tryReadLoop_preserves h size text count _ _ hnext
    . split
      . exact hnext
      . exact hnext
  . exact hreader
termination_by count - done.length
decreasing_by
  rw [List.length_append]
  omega

theorem readToEofLoop_preserves {P : σ → Prop} (h : ∀ n reader, P reader → P (basicRead n reader).2)
    (limit : Nat) (done : List UInt8) (reader : σ) (hreader : P reader)
    : P (readToEofLoop basicRead limit done reader).2 := by
  unfold readToEofLoop
  split
  . have hnext := h (min channelBufferSize (limit - done.length)) reader hreader
    dsimp only
    split
    . exact readToEofLoop_preserves h limit _ _ hnext
    . exact hnext
  . exact hreader
termination_by limit - done.length
decreasing_by
  rw [List.length_append]
  omega

theorem readOf_reader (tryRead : Nat → σ → ReadResult σ) (text : String) (count : Nat) (reader : σ)
    : (readOf tryRead text count reader).reader = (tryRead count reader).reader := by
  unfold readOf
  dsimp only
  split <;> rfl

theorem tryReadLoop_spec (h : Lawful basicRead data) {size : Nat → Nat}
    (hsize : ∀ n, 0 < n → 0 < size n ∧ size n ≤ n) (text : String) (count : Nat)
    (done : List UInt8) (reader : σ) (hle : done.length ≤ count)
    (hcount : count ≤ done.length + (data reader).length)
    : (tryReadLoop basicRead size text count done reader).outcome = .ok true
        ∧
      (tryReadLoop basicRead size text count done reader).data
        = done ++ (data reader).take (count - done.length)
        ∧
      data (tryReadLoop basicRead size text count done reader).reader
        = (data reader).drop (count - done.length) := by
  unfold tryReadLoop
  split
  . next hlt =>
    have hs := hsize (count - done.length) (by omega)
    have hstream := h.stream (size (count - done.length)) reader
    have hbytes := h.length_le (size (count - done.length)) reader
    have hprogress := h.progress (size (count - done.length)) reader hs.1
    generalize basicRead (size (count - done.length)) reader = res at *
    obtain ⟨bytes, reader'⟩ := res
    dsimp only at *
    have hne : bytes.length ≠ 0 := by
      have : data reader ≠ [] := by
        intro hnil
        simp [hnil] at hcount
        omega
      have := hprogress this
      simpa using this
    rw [if_pos hne]
    have hlen := congrArg List.length hstream
    rw [List.length_append] at hlen
    have ih := tryReadLoop_spec h hsize text count (done ++ bytes) reader'
      (by rw [List.length_append]; omega) (by rw [List.length_append]; omega)
    have hfit : bytes.length ≤ count - done.length := by omega
    rw [List.length_append, ← Nat.sub_sub] at ih
    refine ⟨ih.1, ?_, ?_⟩
    . rw [ih.2.1, hstream, List.append_assoc, List.take_append, List.take_of_length_le hfit]
    . rw [ih.2.2, hstream, List.drop_append, List.drop_of_length_le hfit, List.nil_append]
  . next hlt =>
    have : count - done.length = 0 := by omega
    simp [this]
termination_by count - done.length
decreasing_by
  rw [List.length_append]
  omega

theorem tryRead_spec (h : Lawful basicRead data) {count : Nat} {reader : σ}
    (hcount : count ≤ (data reader).length)
    : (tryRead basicRead count reader).outcome = .ok true
        ∧
      (tryRead basicRead count reader).data = (data reader).take count
        ∧
      data (tryRead basicRead count reader).reader = (data reader).drop count := by
  have hsize : ∀ n, 0 < n → 0 < id n ∧ id n ≤ n := by
    intro n hn
    exact ⟨hn, Nat.le_refl _⟩
  have := tryReadLoop_spec h hsize "EOF" count [] reader (by simp) (by simpa using hcount)
  unfold tryRead
  simpa using this

theorem readByte_cons (h : Lawful basicRead data) {reader : σ} {b : UInt8} {rest : List UInt8}
    (hdata : data reader = b :: rest)
    : ∃ reader', readByte (tryRead basicRead) reader = .ok (b, reader') ∧ data reader' = rest := by
  have hcount : 1 ≤ (data reader).length := by simp [hdata]
  have hspec := tryRead_spec h hcount
  rw [hdata] at hspec
  refine ⟨_, ?_, hspec.2.2⟩
  unfold readByte read readOf
  dsimp only
  rw [hspec.1]
  dsimp only
  rw [hspec.1, hspec.2.1]
  rfl

theorem tryReadString_spec (h : Lawful basicRead data) {count : Nat} {reader : σ}
    (hcount : count ≤ (data reader).length)
    : (tryReadString basicRead count reader).outcome = .ok true
        ∧
      (tryReadString basicRead count reader).data = (data reader).take count
        ∧
      data (tryReadString basicRead count reader).reader = (data reader).drop count := by
  have hsize : ∀ n, 0 < n → 0 < min channelBufferSize n ∧ min channelBufferSize n ≤ n := by
    intro n hn
    unfold channelBufferSize
    omega
  have := tryReadLoop_spec h hsize "EOF in string" count [] reader (by simp) (by simpa using hcount)
  unfold tryReadString
  simpa using this

theorem readOf_spec {tryRead : Nat → σ → ReadResult σ} {text : String} {count : Nat} {reader : σ}
    (h : (tryRead count reader).outcome = .ok true)
    : readOf tryRead text count reader = tryRead count reader := by
  unfold readOf
  dsimp only
  rw [h]

theorem readString_append (h : Lawful basicRead data) {reader : σ} {bytes rest : List UInt8}
    (hdata : data reader = bytes ++ rest)
    : ∃ reader',
        readString (tryReadString basicRead) bytes.length reader
          = { outcome := .ok true, data := bytes, reader := reader' }
          ∧
        data reader' = rest := by
  have hcount : bytes.length ≤ (data reader).length := by simp [hdata]
  have hspec := tryReadString_spec h hcount
  rw [hdata, List.take_left, List.drop_left] at hspec
  unfold readString
  rw [readOf_spec hspec.1]
  generalize tryReadString basicRead bytes.length reader = res at *
  obtain ⟨outcome, bytes', reader'⟩ := res
  dsimp only at hspec
  exact ⟨reader', by rw [hspec.1, hspec.2.1], hspec.2.2⟩

theorem readNbo_append (h : Lawful basicRead data) {reader : σ} {w v : Nat} {rest : List UInt8}
    (hv : v < 256 ^ w) (hdata : data reader = BigEndian.toBytes w v ++ rest)
    : ∃ reader', readNbo (tryRead basicRead) w reader = .ok (v, reader') ∧ data reader' = rest := by
  have hcount : w ≤ (data reader).length := by simp [hdata]
  have hspec := tryRead_spec h hcount
  have hlen := BigEndian.length_toBytes w v
  rw [hdata, List.take_left' hlen, List.drop_left' hlen] at hspec
  refine ⟨_, ?_, hspec.2.2⟩
  unfold readNbo read
  dsimp only
  rw [readOf_spec hspec.1, hspec.1, hspec.2.1, BigEndian.ofBytes_toBytes hv]

theorem readNbo16_append (h : Lawful basicRead data) {reader : σ} {i : UInt16} {rest : List UInt8}
    (hdata : data reader = BigEndian.toBytes 2 i.toNat ++ rest)
    : ∃ reader', readNbo16 (tryRead basicRead) reader = .ok (i, reader') ∧ data reader' = rest := by
  obtain ⟨reader', hread, hrest⟩ := readNbo_append h i.toNat_lt hdata
  refine ⟨reader', ?_, hrest⟩
  unfold readNbo16
  rw [hread]
  simp [bind, Except.bind, pure, Except.pure]

theorem readNbo32_append (h : Lawful basicRead data) {reader : σ} {i : UInt32} {rest : List UInt8}
    (hdata : data reader = BigEndian.toBytes 4 i.toNat ++ rest)
    : ∃ reader', readNbo32 (tryRead basicRead) reader = .ok (i, reader') ∧ data reader' = rest := by
  obtain ⟨reader', hread, hrest⟩ := readNbo_append h i.toNat_lt hdata
  refine ⟨reader', ?_, hrest⟩
  unfold readNbo32
  rw [hread]
  simp [bind, Except.bind, pure, Except.pure]

theorem halves_eq (i : UInt64)
    : ((i >>> 32).toUInt32.toUInt64 <<< 32) + (i &&& 0xFFFFFFFF).toUInt32.toUInt64 = i := by
  have hlt := i.toNat_lt
  have hmask : i.toNat &&& 0xFFFFFFFF = i.toNat % 2 ^ 32 := Nat.and_two_pow_sub_one_eq_mod i.toNat 32
  have hhigh : i.toNat >>> 32 = i.toNat / 2 ^ 32 := Nat.shiftRight_eq_div_pow i.toNat 32
  rw [← UInt64.toNat_inj, UInt64.toNat_add, UInt64.toNat_shiftLeft, UInt32.toNat_toUInt64,
    UInt32.toNat_toUInt64, UInt64.toNat_toUInt32, UInt64.toNat_toUInt32, UInt64.toNat_and,
    UInt64.toNat_shiftRight]
  simp only [UInt64.reduceToNat, Nat.reduceMod, hhigh, hmask, Nat.shiftLeft_eq]
  omega

theorem readNbo64_append (h : Lawful basicRead data) {reader : σ} {i : UInt64} {rest : List UInt8}
    (hdata : data reader = BigEndian.toBytes 4 (i >>> 32).toUInt32.toNat
      ++ (BigEndian.toBytes 4 (i &&& 0xFFFFFFFF).toUInt32.toNat ++ rest))
    : ∃ reader', readNbo64 (tryRead basicRead) reader = .ok (i, reader') ∧ data reader' = rest := by
  obtain ⟨reader1, hread1, hrest1⟩ := readNbo32_append h hdata
  obtain ⟨reader2, hread2, hrest2⟩ := readNbo32_append h hrest1
  refine ⟨reader2, ?_, hrest2⟩
  unfold readNbo64
  rw [hread1]
  simp only [bind, Except.bind]
  rw [hread2]
  exact congrArg (fun n => Except.ok (n, reader2)) (halves_eq i)

theorem readNbo_bytes (h : Lawful basicRead data) {reader : σ} {bytes rest : List UInt8}
    (hdata : data reader = bytes ++ rest)
    : ∃ reader', readNbo (tryRead basicRead) bytes.length reader
          = .ok (BigEndian.ofBytes bytes, reader')
        ∧ data reader' = rest := by
  have hcount : bytes.length ≤ (data reader).length := by simp [hdata]
  have hspec := tryRead_spec h hcount
  rw [hdata, List.take_left, List.drop_left] at hspec
  refine ⟨_, ?_, hspec.2.2⟩
  unfold readNbo read
  dsimp only
  rw [readOf_spec hspec.1, hspec.1, hspec.2.1]

/-
What has been read was there, and nothing else has gone.
-/

theorem tryReadLoop_taken (h : Lawful basicRead data) (size : Nat → Nat) (text : String) (count : Nat)
    (done : List UInt8) (reader : σ)
    : done ++ data reader = (tryReadLoop basicRead size text count done reader).data
        ++ data (tryReadLoop basicRead size text count done reader).reader := by
  unfold tryReadLoop
  split
  . dsimp only
    have hstream := h.stream (size (count - done.length)) reader
    split
    . rw [hstream, ← tryReadLoop_taken h size text count, List.append_assoc]
    . next hzero =>
      have hnil : (basicRead (size (count - done.length)) reader).1 = [] := by simpa using hzero
      rw [hnil, List.nil_append] at hstream
      rw [hstream]
      split
      . rfl
      . rfl
  . rfl
termination_by count - done.length
decreasing_by
  rw [List.length_append]
  omega

theorem tryReadLoop_length (h : Lawful basicRead data) {size : Nat → Nat} (hsize : ∀ n, size n ≤ n)
    (text : String) (count : Nat) (done : List UInt8) (reader : σ) (hle : done.length ≤ count)
    (hok : (tryReadLoop basicRead size text count done reader).outcome = .ok true)
    : (tryReadLoop basicRead size text count done reader).data.length = count := by
  unfold tryReadLoop at hok ⊢
  split at hok
  . next hlt =>
    rw [if_pos hlt]
    dsimp only at hok ⊢
    split at hok
    . next hne =>
      rw [if_pos hne]
      have hbytes := h.length_le (size (count - done.length)) reader
      have hbound := hsize (count - done.length)
      refine tryReadLoop_length h hsize text count _ _ ?_ hok
      rw [List.length_append]
      omega
    . split at hok
      . cases hok
      . cases hok
  . next hge =>
    rw [if_neg hge]
    dsimp only
    omega
termination_by count - done.length
decreasing_by
  rw [List.length_append]
  omega

theorem readOf_ok {tryRead : Nat → σ → ReadResult σ} {text : String} {count : Nat} {reader : σ} {b : Bool}
    (hok : (readOf tryRead text count reader).outcome = .ok b)
    : readOf tryRead text count reader = tryRead count reader
        ∧ (tryRead count reader).outcome = .ok true := by
  unfold readOf at hok ⊢
  dsimp only at hok ⊢
  split at hok
  . cases hok
  . next hne =>
    refine ⟨rfl, ?_⟩
    cases b with
    | false => exact absurd hok (hne ·)
    | true => exact hok

theorem read_ok (h : Lawful basicRead data) {count : Nat} {reader : σ} {b : Bool}
    (hok : (read (tryRead basicRead) count reader).outcome = .ok b)
    : data reader = (read (tryRead basicRead) count reader).data
          ++ data (read (tryRead basicRead) count reader).reader
        ∧ (read (tryRead basicRead) count reader).data.length = count := by
  unfold read at hok ⊢
  obtain ⟨heq, htrue⟩ := readOf_ok hok
  rw [heq]
  exact ⟨tryReadLoop_taken h id "EOF" count [] reader,
    tryReadLoop_length h (fun _ => Nat.le_refl _) "EOF" count [] reader (Nat.zero_le _) htrue⟩

theorem readString_ok (h : Lawful basicRead data) {count : Nat} {reader : σ} {b : Bool}
    (hok : (readString (tryReadString basicRead) count reader).outcome = .ok b)
    : data reader = (readString (tryReadString basicRead) count reader).data
          ++ data (readString (tryReadString basicRead) count reader).reader
        ∧ (readString (tryReadString basicRead) count reader).data.length = count := by
  unfold readString at hok ⊢
  obtain ⟨heq, htrue⟩ := readOf_ok hok
  rw [heq]
  exact ⟨tryReadLoop_taken h _ "EOF in string" count [] reader,
    tryReadLoop_length h (fun _ => Nat.min_le_right _ _) "EOF in string" count [] reader
      (Nat.zero_le _) htrue⟩

theorem readByte_ok (h : Lawful basicRead data) {reader reader' : σ} {b : UInt8}
    (hread : readByte (tryRead basicRead) reader = .ok (b, reader'))
    : data reader = b :: data reader' := by
  unfold readByte at hread
  dsimp only at hread
  split at hread
  . cases hread
  . next hok =>
    cases hread
    obtain ⟨hdata, hlength⟩ := read_ok h hok
    rw [List.length_eq_one_iff] at hlength
    obtain ⟨c, hc⟩ := hlength
    rw [hc] at hdata ⊢
    exact hdata

theorem readNbo_ok (h : Lawful basicRead data) {reader reader' : σ} {w n : Nat}
    (hread : readNbo (tryRead basicRead) w reader = .ok (n, reader'))
    : ∃ bytes, data reader = bytes ++ data reader' ∧ bytes.length = w
        ∧ n = BigEndian.ofBytes bytes := by
  unfold readNbo at hread
  dsimp only at hread
  split at hread
  . cases hread
  . next hok =>
    cases hread
    obtain ⟨hdata, hlength⟩ := read_ok h hok
    exact ⟨_, hdata, hlength, rfl⟩

end Reader

theorem Writer.writeNbo64_eq (i : UInt64) : Writer.writeNbo64 i = BigEndian.toBytes 8 i.toNat := by
  have hmask : i.toNat &&& 0xFFFFFFFF = i.toNat % 2 ^ 32 := Nat.and_two_pow_sub_one_eq_mod i.toNat 32
  have hhigh : i.toNat >>> 32 = i.toNat / 2 ^ 32 := Nat.shiftRight_eq_div_pow i.toNat 32
  have hlt := i.toNat_lt
  have hfirst : (i >>> 32).toUInt32.toNat = i.toNat / 256 ^ 4 := by
    rw [UInt64.toNat_toUInt32, UInt64.toNat_shiftRight]
    simp only [UInt64.reduceToNat, Nat.reduceMod, hhigh]
    omega
  have hsecond : (i &&& 0xFFFFFFFF).toUInt32.toNat = i.toNat % 256 ^ 4 := by
    rw [UInt64.toNat_toUInt32, UInt64.toNat_and]
    simp only [UInt64.reduceToNat, hmask]
    omega
  unfold writeNbo64 writeNbo32
  rw [BigEndian.toBytes_add 4 4, hfirst, hsecond, BigEndian.toBytes_mod]

end Channel
end ObTools
