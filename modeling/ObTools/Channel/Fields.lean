import ObTools.Channel.Block

/-!
This module contains the other functions of `Channel::Writer` and `Channel::Reader`, and what becomes of a record of
any fields that is written with them: it is read back from any reader, however the data comes in pieces, and no part of
it is taken for the whole.
-/

namespace ObTools
namespace Channel

namespace Writer

def writeByte (b : UInt8) : List UInt8 := [b]

def writeNbo24 (i : UInt32) : List UInt8 := [(i >>> 16).toUInt8, (i >>> 8).toUInt8, i.toUInt8]

def writeLe16 (i : UInt16) : List UInt8 := [i.toUInt8, (i >>> 8).toUInt8]

def writeLe24 (i : UInt32) : List UInt8 := [i.toUInt8, (i >>> 8).toUInt8, (i >>> 16).toUInt8]

def writeLe32 (i : UInt32) : List UInt8 := [i.toUInt8, (i >>> 8).toUInt8, (i >>> 16).toUInt8, (i >>> 24).toUInt8]

def writeLe64 (i : UInt64) : List UInt8 :=
  writeLe32 (i &&& 0xFFFFFFFF).toUInt32 ++ writeLe32 (i >>> 32).toUInt32

-- Limited to the given length, or padded with the given character
def writeFixed (s : List UInt8) (length : Nat) (pad : UInt8) : List UInt8 :=
  let len := min length s.length
  s.take len ++ List.replicate (length - len) pad

-- Zeros, of a buffer at a time
def skip (n : Nat) : List UInt8 :=
  if h : n ≠ 0 then
    List.replicate (min 256 n) 0 ++ skip (n - min 256 n)
  else
    []
termination_by n
decreasing_by omega

end Writer

namespace Reader

variable {σ : Type}

-- The buffer that is read into
def readBytes (tryRead : Nat → σ → ReadResult σ) (count : Nat) (reader : σ) : Except Error (List UInt8 × σ) :=
  let res := read tryRead count reader
  match res.outcome with
  | .error e => .error e
  | .ok _ => .ok (res.data, res.reader)

def at16 (buf : List UInt8) (i : Nat) : UInt16 := (buf.getD i 0).toUInt16

def at32 (buf : List UInt8) (i : Nat) : UInt32 := (buf.getD i 0).toUInt32

def readNbo24 (tryRead : Nat → σ → ReadResult σ) (reader : σ) : Except Error (UInt32 × σ) := do
  let (buf, reader) ← readBytes tryRead 3 reader
  return ((at32 buf 0 <<< 16) + (at32 buf 1 <<< 8) + at32 buf 2, reader)

def readLe16 (tryRead : Nat → σ → ReadResult σ) (reader : σ) : Except Error (UInt16 × σ) := do
  let (buf, reader) ← readBytes tryRead 2 reader
  return (at16 buf 0 + (at16 buf 1 <<< 8), reader)

def readLe24 (tryRead : Nat → σ → ReadResult σ) (reader : σ) : Except Error (UInt32 × σ) := do
  let (buf, reader) ← readBytes tryRead 3 reader
  return (at32 buf 0 + (at32 buf 1 <<< 8) + (at32 buf 2 <<< 16), reader)

def readLe32 (tryRead : Nat → σ → ReadResult σ) (reader : σ) : Except Error (UInt32 × σ) := do
  let (buf, reader) ← readBytes tryRead 4 reader
  return (at32 buf 0 + (at32 buf 1 <<< 8) + (at32 buf 2 <<< 16) + (at32 buf 3 <<< 24), reader)

def readLe64 (tryRead : Nat → σ → ReadResult σ) (reader : σ) : Except Error (UInt64 × σ) := do
  let (n, reader) ← readLe32 tryRead reader
  let (m, reader) ← readLe32 tryRead reader
  return (n.toUInt64 + (m.toUInt64 <<< 32), reader)

end Reader

/-
A reader with the offset that it is at.
-/
structure Positioned (σ : Type) where
  offset : Nat
  reader : σ

namespace Positioned

variable {σ : Type}

-- Also adjusts the offset
def basicRead (basicRead : BasicRead σ) : BasicRead (Positioned σ) := fun count r =>
  let res := basicRead count r.reader
  (res.1, { offset := (r.offset + res.1.length) % 2 ^ 64, reader := res.2 })

end Positioned

/-
Records.
-/

inductive Field where
  | byte (b : UInt8)
  | nbo16 (i : UInt16)
  | nbo24 (i : UInt32)
  | nbo32 (i : UInt32)
  | nbo64 (i : UInt64)
  | le16 (i : UInt16)
  | le24 (i : UInt32)
  | le32 (i : UInt32)
  | le64 (i : UInt64)
  | string (s : List UInt8)
  | fixed (s : List UInt8) (length : Nat) (pad : UInt8)
  | skip (n : Nat)
  | align (n : Nat)

-- How a field is read
inductive Kind where
  | byte
  | nbo16
  | nbo24
  | nbo32
  | nbo64
  | le16
  | le24
  | le32
  | le64
  | string (count : Nat)
  | skip (n : Nat)
  | align (n : Nat)
deriving DecidableEq, Repr

inductive Value where
  | number (n : Nat)
  | bytes (s : List UInt8)
  | skipped
deriving DecidableEq, Repr

namespace Field

-- At an offset
def write (offset : Nat) : Field → List UInt8
  | byte b => Writer.writeByte b
  | nbo16 i => Writer.writeNbo16 i
  | nbo24 i => Writer.writeNbo24 i
  | nbo32 i => Writer.writeNbo32 i
  | nbo64 i => Writer.writeNbo64 i
  | le16 i => Writer.writeLe16 i
  | le24 i => Writer.writeLe24 i
  | le32 i => Writer.writeLe32 i
  | le64 i => Writer.writeLe64 i
  | string s => s
  | fixed s length pad => Writer.writeFixed s length pad
  | skip n => Writer.skip n
  | align n => Writer.skip (BlockWriter.alignment offset n)

def kind : Field → Kind
  | byte _ => .byte
  | nbo16 _ => .nbo16
  | nbo24 _ => .nbo24
  | nbo32 _ => .nbo32
  | nbo64 _ => .nbo64
  | le16 _ => .le16
  | le24 _ => .le24
  | le32 _ => .le32
  | le64 _ => .le64
  | string s => .string s.length
  | fixed _ length _ => .string length
  | skip n => .skip n
  | align n => .align n

-- What is kept of a field: the low bytes of a number, and what is not cut off a string
def value : Field → Value
  | byte b => .number b.toNat
  | nbo16 i => .number i.toNat
  | nbo24 i => .number (i.toNat % 2 ^ 24)
  | nbo32 i => .number i.toNat
  | nbo64 i => .number i.toNat
  | le16 i => .number i.toNat
  | le24 i => .number (i.toNat % 2 ^ 24)
  | le32 i => .number i.toNat
  | le64 i => .number i.toNat
  | string s => .bytes s
  | fixed s length pad => .bytes (s.take length ++ List.replicate (length - s.length) pad)
  | skip _ => .skipped
  | align _ => .skipped

-- An alignment is positive, and fits in an `int`
def Fits : Field → Prop
  | align n => 0 < n ∧ n ≤ 2 ^ 31
  | _ => True

end Field

def writeFields (offset : Nat) : List Field → List UInt8
  | [] => []
  | field :: fields =>
    let bytes := field.write offset
    bytes ++ writeFields ((offset + bytes.length) % 2 ^ 64) fields

namespace Positioned

variable {σ : Type} (basicRead : BasicRead σ)

def tryRead : Nat → Positioned σ → ReadResult (Positioned σ) := Reader.tryRead (Positioned.basicRead basicRead)

def number {ι : Type} (toNat : ι → Nat) (read : Except Error (ι × Positioned σ))
    : Except Error (Value × Positioned σ) :=
  read.map fun res => (.number (toNat res.1), res.2)

def done (value : List UInt8 → Value) (res : ReadResult (Positioned σ)) : Except Error (Value × Positioned σ) :=
  res.outcome.map fun _ => (value res.data, res.reader)

def readField (reader : Positioned σ) : Kind → Except Error (Value × Positioned σ)
  | .byte => number UInt8.toNat (Reader.readByte (tryRead basicRead) reader)
  | .nbo16 => number UInt16.toNat (Reader.readNbo16 (tryRead basicRead) reader)
  | .nbo24 => number UInt32.toNat (Reader.readNbo24 (tryRead basicRead) reader)
  | .nbo32 => number UInt32.toNat (Reader.readNbo32 (tryRead basicRead) reader)
  | .nbo64 => number UInt64.toNat (Reader.readNbo64 (tryRead basicRead) reader)
  | .le16 => number UInt16.toNat (Reader.readLe16 (tryRead basicRead) reader)
  | .le24 => number UInt32.toNat (Reader.readLe24 (tryRead basicRead) reader)
  | .le32 => number UInt32.toNat (Reader.readLe32 (tryRead basicRead) reader)
  | .le64 => number UInt64.toNat (Reader.readLe64 (tryRead basicRead) reader)
  | .string count =>
    done .bytes (Reader.readString (Reader.tryReadString (Positioned.basicRead basicRead)) count reader)
  | .skip n => done (fun _ => .skipped) (Reader.skip (tryRead basicRead) n reader)
  | .align n => done (fun _ => .skipped) (Reader.skip (tryRead basicRead) (Reader.alignment reader.offset n) reader)

def readFields : Positioned σ → List Kind → Except Error (List Value × Positioned σ)
  | reader, [] => .ok ([], reader)
  | reader, kind :: kinds => do
    let (value, reader) ← readField basicRead reader kind
    let (values, reader) ← readFields reader kinds
    return (value :: values, reader)

end Positioned

variable {σ : Type} {basicRead : BasicRead σ} {data : σ → List UInt8}

/-
What is not all there is not read.
-/

theorem Reader.tryReadLoop_short (h : Lawful basicRead data) {size : Nat → Nat} (hsize : ∀ n, 0 < n → 0 < size n)
    (text : String) (count : Nat) (done : List UInt8) (reader : σ)
    (hcount : done.length + (data reader).length < count)
    : (Reader.tryReadLoop basicRead size text count done reader).outcome = .error { error := 0, text }
      ∨ (Reader.tryReadLoop basicRead size text count done reader).outcome = .ok false := by
  unfold Reader.tryReadLoop
  rw [if_pos (by omega)]
  have hstream := congrArg List.length (h.stream (size (count - done.length)) reader)
  rw [List.length_append] at hstream
  dsimp only
  split
  . next hne =>
    refine tryReadLoop_short h hsize text count _ _ ?_
    rw [List.length_append]
    omega
  . split
    . exact .inl rfl
    . exact .inr rfl
termination_by count - done.length
decreasing_by
  rw [List.length_append]
  omega

theorem Reader.readOf_short {tryRead : Nat → σ → ReadResult σ} {text : String} {count : Nat} {reader : σ}
    (h : (tryRead count reader).outcome = .error { error := 0, text } ∨ (tryRead count reader).outcome = .ok false)
    : (Reader.readOf tryRead text count reader).outcome = .error { error := 0, text } := by
  unfold Reader.readOf
  dsimp only
  rcases h with h | h
  . rw [h]
    exact h
  . rw [h]

theorem Positioned.lawful (h : Lawful basicRead data)
    : Lawful (Positioned.basicRead basicRead) fun r => data r.reader where
  stream := fun n r => h.stream n r.reader
  length_le := fun n r => h.length_le n r.reader
  progress := fun n r => h.progress n r.reader

-- The place that the data ends at stays the same
theorem Positioned.basicRead_end (h : Lawful basicRead data) {place : Nat} (hplace : place < 2 ^ 64) (n : Nat)
    (r : Positioned σ) (hr : r.offset + (data r.reader).length = place)
    : (Positioned.basicRead basicRead n r).2.offset + (data (Positioned.basicRead basicRead n r).2.reader).length
        = place := by
  have hstream := congrArg List.length (h.stream n r.reader)
  rw [List.length_append] at hstream
  unfold Positioned.basicRead
  dsimp only
  omega

/-
A function that takes some bytes for a value, from a reader that has an offset.
-/
structure Takes {α : Type} (data : σ → List UInt8) (offset : Nat) (f : Positioned σ → Except Error (α × Positioned σ))
    (bytes : List UInt8) (a : α) : Prop where
  full : ∀ r rest, r.offset = offset → data r.reader = bytes ++ rest → offset + (data r.reader).length < 2 ^ 64 →
    ∃ r', f r = .ok (a, r') ∧ data r'.reader = rest ∧ r'.offset = offset + bytes.length
  short : ∀ r rest, r.offset = offset → data r.reader ++ rest = bytes → rest ≠ [] → ∃ e, f r = .error e ∧ e.error = 0

namespace Takes

variable {α β : Type} {a : α} {b : β} {offset : Nat} {bytes bytes' : List UInt8}
  {f : Positioned σ → Except Error (α × Positioned σ)}

theorem pure (a : α) : Takes data offset (fun r => .ok (a, r)) [] a where
  full := fun r _ hoffset hdata _ => ⟨r, rfl, hdata, hoffset⟩
  short := fun _ _ _ hrest hne => absurd (List.append_eq_nil_iff.mp hrest).2 hne

theorem bind {g : α × Positioned σ → Except Error (β × Positioned σ)} (hf : Takes data offset f bytes a)
    (hlt : offset + (bytes ++ bytes').length < 2 ^ 64)
    (hg : Takes data (offset + bytes.length) (fun r => g (a, r)) bytes' b)
    : Takes data offset (fun r => f r >>= g) (bytes ++ bytes') b where
  full := by
    intro r rest hoffset hdata hlength
    rw [List.append_assoc] at hdata
    obtain ⟨r1, hr1, hdata1, hoffset1⟩ := hf.full r _ hoffset hdata hlength
    rw [hdata, List.length_append] at hlength
    obtain ⟨r2, hr2, hdata2, hoffset2⟩ := hg.full r1 rest hoffset1 hdata1 (by rw [hdata1]; omega)
    refine ⟨r2, ?_, hdata2, ?_⟩
    . rw [hr1]
      exact hr2
    . rw [hoffset2, List.length_append, Nat.add_assoc]
  short := by
    intro r rest hoffset hrest hne
    rcases List.append_eq_append_iff.mp hrest with ⟨more, hbytes, hmore⟩ | ⟨taken, hdata, hbytes'⟩
    . by_cases hnil : more = []
      . rw [hnil, List.append_nil] at hbytes
        rw [hnil, List.nil_append] at hmore
        have hall : data r.reader = bytes ++ [] := by rw [List.append_nil, hbytes]
        rw [List.length_append] at hlt
        obtain ⟨r1, hr1, hdata1, hoffset1⟩ := hf.full r [] hoffset hall (by rw [hall, List.append_nil]; omega)
        obtain ⟨e, he, hzero⟩ := hg.short r1 rest hoffset1 (by rw [hdata1, hmore]; rfl) hne
        refine ⟨e, ?_, hzero⟩
        rw [hr1]
        exact he
      . obtain ⟨e, he, hzero⟩ := hf.short r more hoffset hbytes.symm hnil
        refine ⟨e, ?_, hzero⟩
        rw [he]
        rfl
    . rw [List.length_append] at hlt
      have hlength := congrArg List.length hbytes'
      rw [List.length_append] at hlength
      obtain ⟨r1, hr1, hdata1, hoffset1⟩ := hf.full r taken hoffset hdata
        (by rw [hdata, List.length_append]; omega)
      obtain ⟨e, he, hzero⟩ := hg.short r1 rest hoffset1 (by rw [hdata1, hbytes']) hne
      refine ⟨e, ?_, hzero⟩
      rw [hr1]
      exact he

theorem map {g : α × Positioned σ → Except Error (β × Positioned σ)} (hf : Takes data offset f bytes a)
    (hg : ∀ r, g (a, r) = .ok (b, r))
    : Takes data offset (fun r => f r >>= g) bytes b where
  full := by
    intro r rest hoffset hdata hlength
    obtain ⟨r', hr', hdata', hoffset'⟩ := hf.full r rest hoffset hdata hlength
    refine ⟨r', ?_, hdata', hoffset'⟩
    rw [hr']
    exact hg r'
  short := by
    intro r rest hoffset hrest hne
    obtain ⟨e, he, hzero⟩ := hf.short r rest hoffset hrest hne
    refine ⟨e, ?_, hzero⟩
    rw [he]
    rfl

end Takes

namespace Positioned

variable {α : Type} {offset : Nat} {bytes : List UInt8}

def tryLoop (basicRead : BasicRead σ) (size : Nat → Nat) (text : String) (count : Nat) (r : Positioned σ)
    : ReadResult (Positioned σ) :=
  Reader.tryReadLoop (Positioned.basicRead basicRead) size text count [] r

theorem id_size (n : Nat) (hn : 0 < n) : 0 < id n ∧ id n ≤ n := ⟨hn, Nat.le_refl n⟩

/--
An exact amount of data is taken by the loop, in pieces of any size.
-/
theorem takes_read (h : Lawful basicRead data) {size : Nat → Nat} (hsize : ∀ n, 0 < n → 0 < size n ∧ size n ≤ n)
    (text : String) (value : List UInt8 → α)
    : Takes data offset
        (fun r =>
          let res := Reader.readOf (tryLoop basicRead size text) text bytes.length r
          res.outcome.map fun _ => (value res.data, res.reader))
        bytes (value bytes) where
  full := by
    intro r rest hoffset hdata hlength
    have hcount : bytes.length ≤ (data r.reader).length := by simp [hdata]
    obtain ⟨hok, hread, hrest⟩ :=
      Reader.tryReadLoop_spec (lawful h) hsize text bytes.length [] r (Nat.zero_le _) (by simpa using hcount)
    have hend := Reader.tryReadLoop_preserves (basicRead_end h hlength) size text bytes.length [] r (by rw [hoffset])
    dsimp only at hread hrest hend ⊢
    have hres : Reader.readOf (tryLoop basicRead size text) text bytes.length r = _ := Reader.readOf_spec hok
    rw [hres, tryLoop, hok, hread, hdata]
    rw [List.length_nil, Nat.sub_zero, hdata, List.drop_left] at hrest
    rw [hrest, hdata, List.length_append] at hend
    refine ⟨_, ?_, hrest, by omega⟩
    rw [List.length_nil, Nat.sub_zero, List.nil_append, List.take_left]
    rfl
  short := by
    intro r rest hoffset hrest hne
    have hlength := congrArg List.length hrest
    have hpos := List.length_pos_iff.mpr hne
    rw [List.length_append] at hlength
    have hloop := Reader.tryReadLoop_short (lawful h) (fun n hn => (hsize n hn).1) text bytes.length [] r
      (by rw [List.length_nil]; omega)
    have hshort : (Reader.readOf (tryLoop basicRead size text) text bytes.length r).outcome = _ :=
      Reader.readOf_short hloop
    dsimp only
    rw [hshort]
    exact ⟨_, rfl, rfl⟩

theorem readBytes_eq (tryRead : Nat → Positioned σ → ReadResult (Positioned σ)) (count : Nat) (r : Positioned σ)
    : Reader.readBytes tryRead count r
        = (Reader.read tryRead count r).outcome.map
          fun _ => ((Reader.read tryRead count r).data, (Reader.read tryRead count r).reader) := by
  unfold Reader.readBytes
  dsimp only
  cases (Reader.read tryRead count r).outcome with
  | error e => rfl
  | ok b => rfl

theorem readByte_eq (tryRead : Nat → Positioned σ → ReadResult (Positioned σ)) (r : Positioned σ)
    : Reader.readByte tryRead r = Reader.readBytes tryRead 1 r >>= fun res => .ok (res.1.headD 0, res.2) := by
  unfold Reader.readByte Reader.readBytes
  dsimp only
  cases (Reader.read tryRead 1 r).outcome with
  | error e => rfl
  | ok b => rfl

theorem readNbo_eq (tryRead : Nat → Positioned σ → ReadResult (Positioned σ)) (count : Nat) (r : Positioned σ)
    : Reader.readNbo tryRead count r
        = Reader.readBytes tryRead count r >>= fun res => .ok (BigEndian.ofBytes res.1, res.2) := by
  unfold Reader.readNbo Reader.readBytes
  dsimp only
  cases (Reader.read tryRead count r).outcome with
  | error e => rfl
  | ok b => rfl

theorem takes_bytes (h : Lawful basicRead data) (bytes : List UInt8)
    : Takes data offset (Reader.readBytes (tryRead basicRead) bytes.length) bytes bytes := by
  have heq : Reader.readBytes (tryRead basicRead) bytes.length = _ := funext (readBytes_eq _ _)
  rw [heq]
  exact takes_read h id_size "EOF" id

theorem takes_byte (h : Lawful basicRead data) (b : UInt8)
    : Takes data offset (Reader.readByte (tryRead basicRead)) (Writer.writeByte b) b := by
  have heq : Reader.readByte (tryRead basicRead) = _ := funext (readByte_eq _)
  rw [heq]
  exact (takes_bytes h [b]).map fun _ => rfl

theorem takes_nbo (h : Lawful basicRead data) {w v : Nat} (hv : v < 256 ^ w)
    : Takes data offset (Reader.readNbo (tryRead basicRead) w) (BigEndian.toBytes w v) v := by
  have heq : Reader.readNbo (tryRead basicRead) w = _ := funext (readNbo_eq _ _)
  have hbytes : Takes data offset _ _ _ := takes_bytes h (BigEndian.toBytes w v)
  rw [BigEndian.length_toBytes] at hbytes
  rw [heq]
  refine hbytes.map fun r => ?_
  rw [BigEndian.ofBytes_toBytes hv]

theorem takes_nbo16 (h : Lawful basicRead data) (i : UInt16)
    : Takes data offset (Reader.readNbo16 (tryRead basicRead)) (Writer.writeNbo16 i) i :=
  (takes_nbo h i.toNat_lt).map fun r => congrArg (fun i => Except.ok (i, r)) UInt16.ofNat_toNat

theorem takes_nbo32 (h : Lawful basicRead data) (i : UInt32)
    : Takes data offset (Reader.readNbo32 (tryRead basicRead)) (Writer.writeNbo32 i) i :=
  (takes_nbo h i.toNat_lt).map fun r => congrArg (fun i => Except.ok (i, r)) UInt32.ofNat_toNat

theorem takes_nbo64 (h : Lawful basicRead data) (i : UInt64) (hlt : offset + (Writer.writeNbo64 i).length < 2 ^ 64)
    : Takes data offset (Reader.readNbo64 (tryRead basicRead)) (Writer.writeNbo64 i) i :=
  (takes_nbo32 h (i >>> 32).toUInt32).bind hlt <|
    (takes_nbo32 h (i &&& 0xFFFFFFFF).toUInt32).map fun r =>
      congrArg (fun i => Except.ok (i, r)) (Reader.halves_eq i)

/-
Numbers from their bytes.
-/

theorem toNat_byte (i : UInt32) {k : Nat} (hk : k < 32)
    : (i >>> UInt32.ofNat k).toUInt8.toUInt32.toNat = i.toNat / 2 ^ k % 256 := by
  rw [UInt8.toNat_toUInt32, UInt32.toNat_toUInt8, UInt32.toNat_shiftRight, UInt32.toNat_ofNat_of_lt' (by
    rw [UInt32.size]
    omega), Nat.mod_eq_of_lt hk, Nat.shiftRight_eq_div_pow]

theorem three_bytes_eq (i : UInt32)
    : (i >>> 16).toUInt8.toUInt32.toNat * 2 ^ 16 + (i >>> 8).toUInt8.toUInt32.toNat * 2 ^ 8 + i.toUInt8.toUInt32.toNat
        = i.toNat % 2 ^ 24 := by
  have h16 := toNat_byte i (k := 16) (by decide)
  have h8 := toNat_byte i (k := 8) (by decide)
  have h0 : i.toUInt8.toUInt32.toNat = i.toNat % 256 := by simp
  have hs16 : (UInt32.ofNat 16) = 16 := rfl
  have hs8 : (UInt32.ofNat 8) = 8 := rfl
  rw [hs16] at h16
  rw [hs8] at h8
  rw [h16, h8, h0]
  omega

theorem nbo24_eq (i : UInt32)
    : (((i >>> 16).toUInt8.toUInt32 <<< 16) + ((i >>> 8).toUInt8.toUInt32 <<< 8) + i.toUInt8.toUInt32).toNat
        = i.toNat % 2 ^ 24 := by
  have h := three_bytes_eq i
  have hlt : i.toNat % 2 ^ 24 < 2 ^ 24 := Nat.mod_lt _ (Nat.two_pow_pos 24)
  rw [UInt32.toNat_add, UInt32.toNat_add, UInt32.toNat_shiftLeft, UInt32.toNat_shiftLeft]
  simp only [UInt32.reduceToNat, Nat.reduceMod, Nat.shiftLeft_eq]
  omega

theorem add_rev (a b c : UInt32) : a + b + c = c + b + a := by
  rw [UInt32.add_comm a b, UInt32.add_comm (b + a) c, ← UInt32.add_assoc]

theorem le24_eq (i : UInt32)
    : (i.toUInt8.toUInt32 + ((i >>> 8).toUInt8.toUInt32 <<< 8) + ((i >>> 16).toUInt8.toUInt32 <<< 16)).toNat
        = i.toNat % 2 ^ 24 := by
  rw [← nbo24_eq i]
  exact congrArg UInt32.toNat (add_rev _ _ _)

theorem le32_eq (i : UInt32)
    : i.toUInt8.toUInt32 + ((i >>> 8).toUInt8.toUInt32 <<< 8) + ((i >>> 16).toUInt8.toUInt32 <<< 16)
        + ((i >>> 24).toUInt8.toUInt32 <<< 24) = i := by
  have h := le24_eq i
  have h24 := toNat_byte i (k := 24) (by decide)
  have hs24 : (UInt32.ofNat 24) = 24 := rfl
  have hlt := i.toNat_lt
  have hshift : (24 : UInt32).toNat % 32 = 24 := rfl
  rw [hs24] at h24
  rw [← UInt32.toNat_inj, UInt32.toNat_add, h, UInt32.toNat_shiftLeft, h24, hshift, Nat.shiftLeft_eq]
  omega

theorem le16_eq (i : UInt16) : i.toUInt8.toUInt16 + ((i >>> 8).toUInt8.toUInt16 <<< 8) = i := by
  have hlt := i.toNat_lt
  rw [← UInt16.toNat_inj, UInt16.toNat_add, UInt16.toNat_shiftLeft, UInt8.toNat_toUInt16, UInt8.toNat_toUInt16,
    UInt16.toNat_toUInt8, UInt16.toNat_toUInt8, UInt16.toNat_shiftRight]
  simp only [UInt16.reduceToNat, Nat.reduceMod, Nat.shiftLeft_eq, Nat.shiftRight_eq_div_pow]
  omega

theorem takes_le16 (h : Lawful basicRead data) (i : UInt16)
    : Takes data offset (Reader.readLe16 (tryRead basicRead)) (Writer.writeLe16 i) i :=
  (takes_bytes h (Writer.writeLe16 i)).map fun r => congrArg (fun i => Except.ok (i, r)) (le16_eq i)

theorem takes_nbo24 (h : Lawful basicRead data) (i : UInt32)
    : Takes data offset (Reader.readNbo24 (tryRead basicRead)) (Writer.writeNbo24 i)
        (((i >>> 16).toUInt8.toUInt32 <<< 16) + ((i >>> 8).toUInt8.toUInt32 <<< 8) + i.toUInt8.toUInt32) :=
  (takes_bytes h (Writer.writeNbo24 i)).map fun _ => rfl

theorem takes_le24 (h : Lawful basicRead data) (i : UInt32)
    : Takes data offset (Reader.readLe24 (tryRead basicRead)) (Writer.writeLe24 i)
        (i.toUInt8.toUInt32 + ((i >>> 8).toUInt8.toUInt32 <<< 8) + ((i >>> 16).toUInt8.toUInt32 <<< 16)) :=
  (takes_bytes h (Writer.writeLe24 i)).map fun _ => rfl

theorem takes_le32 (h : Lawful basicRead data) (i : UInt32)
    : Takes data offset (Reader.readLe32 (tryRead basicRead)) (Writer.writeLe32 i) i :=
  (takes_bytes h (Writer.writeLe32 i)).map fun r => congrArg (fun i => Except.ok (i, r)) (le32_eq i)

theorem le64_eq (i : UInt64)
    : (i &&& 0xFFFFFFFF).toUInt32.toUInt64 + ((i >>> 32).toUInt32.toUInt64 <<< 32) = i := by
  rw [UInt64.add_comm]
  exact Reader.halves_eq i

theorem takes_le64 (h : Lawful basicRead data) (i : UInt64) (hlt : offset + (Writer.writeLe64 i).length < 2 ^ 64)
    : Takes data offset (Reader.readLe64 (tryRead basicRead)) (Writer.writeLe64 i) i :=
  (takes_le32 h (i &&& 0xFFFFFFFF).toUInt32).bind hlt <|
    (takes_le32 h (i >>> 32).toUInt32).map fun r => congrArg (fun i => Except.ok (i, r)) (le64_eq i)

/-
Fields.
-/

theorem takes_number {ι : Type} {toNat : ι → Nat} {f : Positioned σ → Except Error (ι × Positioned σ)} {i : ι}
    (hf : Takes data offset f bytes i)
    : Takes data offset (fun r => number toNat (f r)) bytes (.number (toNat i)) where
  full := by
    intro r rest hoffset hdata hlength
    obtain ⟨r', hr', hrest⟩ := hf.full r rest hoffset hdata hlength
    refine ⟨r', ?_, hrest⟩
    rw [hr']
    rfl
  short := by
    intro r rest hoffset hrest hne
    obtain ⟨e, he, hzero⟩ := hf.short r rest hoffset hrest hne
    refine ⟨e, ?_, hzero⟩
    rw [he]
    rfl

theorem takes_done (h : Lawful basicRead data) (value : List UInt8 → Value) {count : Nat}
    (hcount : bytes.length = count)
    : Takes data offset (fun r => done value (Reader.skip (tryRead basicRead) count r)) bytes (value bytes) := by
  subst hcount
  exact takes_read h id_size "EOF" value

theorem takes_string (h : Lawful basicRead data) {count : Nat} (hcount : bytes.length = count)
    : Takes data offset
        (fun r => done .bytes (Reader.readString (Reader.tryReadString (Positioned.basicRead basicRead)) count r))
        bytes (.bytes bytes) := by
  subst hcount
  refine takes_read h ?_ "EOF in string" Value.bytes
  intro n hn
  unfold Reader.channelBufferSize
  omega

end Positioned

theorem Writer.skip_eq (n : Nat) : Writer.skip n = List.replicate n 0 := by
  induction n using Nat.strongRecOn with
  | ind n ih =>
    unfold Writer.skip
    by_cases hn : n ≠ 0
    . rw [dif_pos hn, ih _ (by omega), List.replicate_append_replicate]
      congr 1
      omega
    . rw [dif_neg hn, not_not.mp hn]
      rfl

theorem Writer.writeFixed_eq (s : List UInt8) (length : Nat) (pad : UInt8)
    : Writer.writeFixed s length pad = s.take length ++ List.replicate (length - s.length) pad := by
  unfold Writer.writeFixed
  dsimp only
  rcases Nat.le_total length s.length with hle | hle
  . rw [Nat.min_eq_left hle, Nat.sub_self, Nat.sub_eq_zero_of_le hle]
  . rw [Nat.min_eq_right hle, List.take_length, List.take_of_length_le hle]

-- The padding of an alignment is less than it is
theorem Reader.alignment_lt_self {offset n : Nat} (hpos : 0 < n) (hn : n ≤ 2 ^ 31) (hoffset : offset < 2 ^ 64)
    : Reader.alignment offset n < n := by
  have hdiv := Nat.div_add_mod ((offset + n - 1) % 2 ^ 64) n
  have hmod := Nat.mod_lt ((offset + n - 1) % 2 ^ 64) hpos
  unfold Reader.alignment
  by_cases hwraps : offset + n - 1 < 2 ^ 64
  . rw [Nat.mod_eq_of_lt hwraps] at hdiv hmod ⊢
    omega
  . have hsmall : (offset + n - 1) % 2 ^ 64 < n := by omega
    rw [Nat.div_eq_of_lt hsmall, Nat.mul_zero, Nat.zero_add]
    omega

theorem BlockWriter.alignment_eq {offset n : Nat} (hpos : 0 < n) (hn : n ≤ 2 ^ 31) (hoffset : offset < 2 ^ 64)
    : BlockWriter.alignment offset n = Reader.alignment offset n := by
  have hlt := Reader.alignment_lt_self hpos hn hoffset
  unfold BlockWriter.alignment
  dsimp only
  rw [Nat.mod_eq_of_lt (by omega), if_pos (by omega)]

namespace Positioned

theorem takes_congr {α : Type} {offset : Nat} {bytes : List UInt8} {a : α}
    {f g : Positioned σ → Except Error (α × Positioned σ)} (h : ∀ r, r.offset = offset → f r = g r)
    (hg : Takes data offset g bytes a)
    : Takes data offset f bytes a where
  full := by
    intro r rest hoffset
    rw [h r hoffset]
    exact hg.full r rest hoffset
  short := by
    intro r rest hoffset
    rw [h r hoffset]
    exact hg.short r rest hoffset

/--
Each field is read as it has been written, or not at all.
-/
theorem takes_field (h : Lawful basicRead data) {offset : Nat} {field : Field} (hfits : field.Fits)
    (hlt : offset + (field.write offset).length < 2 ^ 64)
    : Takes data offset (readField basicRead · field.kind) (field.write offset) field.value := by
  cases field with
  | byte b => exact takes_number (takes_byte h b)
  | nbo16 i => exact takes_number (takes_nbo16 h i)
  | nbo24 i =>
    have hnbo : Takes data offset _ _ (Value.number (UInt32.toNat _)) := takes_number (takes_nbo24 h i)
    rw [nbo24_eq] at hnbo
    exact hnbo
  | nbo32 i => exact takes_number (takes_nbo32 h i)
  | nbo64 i => exact takes_number (takes_nbo64 h i hlt)
  | le16 i => exact takes_number (takes_le16 h i)
  | le24 i =>
    have hle : Takes data offset _ _ (Value.number (UInt32.toNat _)) := takes_number (takes_le24 h i)
    rw [le24_eq] at hle
    exact hle
  | le32 i => exact takes_number (takes_le32 h i)
  | le64 i => exact takes_number (takes_le64 h i hlt)
  | string s => exact takes_string h rfl
  | fixed s length pad =>
    have hwrite : Field.write offset (.fixed s length pad) = _ := Writer.writeFixed_eq s length pad
    rw [hwrite]
    refine takes_string h ?_
    rw [List.length_append, List.length_take, List.length_replicate]
    omega
  | skip n =>
    have hwrite : Field.write offset (.skip n) = _ := Writer.skip_eq n
    rw [hwrite]
    exact takes_done h (fun _ => .skipped) List.length_replicate
  | align n =>
    have hwrite : Field.write offset (.align n) = List.replicate (Reader.alignment offset n) 0 := by
      rw [← BlockWriter.alignment_eq hfits.1 hfits.2 (by omega)]
      exact Writer.skip_eq _
    rw [hwrite]
    refine takes_congr ?_ (takes_done h (fun _ => .skipped) List.length_replicate)
    rintro r rfl
    rfl

theorem takes_fields (h : Lawful basicRead data) {offset : Nat} {fields : List Field} (hfits : ∀ f ∈ fields, f.Fits)
    (hlt : offset + (writeFields offset fields).length < 2 ^ 64)
    : Takes data offset (readFields basicRead · (fields.map Field.kind)) (writeFields offset fields)
        (fields.map Field.value) := by
  induction fields generalizing offset with
  | nil => exact .pure []
  | cons field fields ih =>
    unfold writeFields at hlt ⊢
    dsimp only at hlt ⊢
    have hlength := hlt
    rw [List.length_append] at hlength
    rw [Nat.mod_eq_of_lt (by omega)] at hlt hlength ⊢
    refine (takes_field h (hfits field List.mem_cons_self) (by omega)).bind hlt ?_
    exact (ih (fun f hf => hfits f (List.mem_cons_of_mem field hf)) (by omega)).map fun _ => rfl

/--
A record is read back from any reader that has it in front of what comes behind it.
-/
theorem readFields_writeFields (h : Lawful basicRead data) {fields : List Field} (hfits : ∀ f ∈ fields, f.Fits)
    {r : Positioned σ} {rest : List UInt8} (hdata : data r.reader = writeFields r.offset fields ++ rest)
    (hlt : r.offset + (data r.reader).length < 2 ^ 64)
    : ∃ r', readFields basicRead r (fields.map Field.kind) = .ok (fields.map Field.value, r') ∧ data r'.reader = rest
        ∧ r'.offset = r.offset + (writeFields r.offset fields).length := by
  refine (takes_fields h hfits ?_).full r rest rfl hdata hlt
  rw [hdata, List.length_append] at hlt
  omega

-- Two numbers and two strings, with a byte behind them
def sample : List Field := [.nbo16 258, .string [97, 98], .le32 67305985, .fixed [99] 3 32]

theorem sample_fits : ∀ f ∈ sample, f.Fits := by
  simp [sample, Field.Fits]

theorem readFields_writeFields_sample
    : ∃ r', readFields StringReader.basicRead { offset := 0, reader := .new (writeFields 0 sample ++ [1]) }
          (sample.map Field.kind) = .ok (sample.map Field.value, r')
        ∧ r'.reader.rest = [1] ∧ r'.offset = 0 + (writeFields 0 sample).length :=
  readFields_writeFields StringReader.lawful sample_fits rfl (by decide)

end Positioned

end Channel
end ObTools
