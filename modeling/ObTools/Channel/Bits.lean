import ObTools.Channel.Reader
import ObTools.Lib.Bits

/-!
This module contains the model of `Channel::BitReader` and `Channel::BitWriter`, and the proof that the one gets back
what the other has written. Both `int` and `uint32_t` are bit vectors of width 32. The number of valid bits and the
number of bits left to go are small counters and modelled as natural numbers.

Both sides stand for a string of bits: the bytes written so far followed by the residue of the writer, and the residue of
the reader followed by the bytes that it has not read yet.
-/

namespace ObTools
namespace Channel

structure BitReader (σ : Type) where
  reader : σ
  bitsValid : Nat
  currentByte : BitVec 32

namespace BitReader

variable {σ : Type} (basicRead : BasicRead σ)

def new (reader : σ) : BitReader σ := { reader, bitsValid := 0, currentByte := 0 }

-- Get another byte if there are no bits left
def fill (r : BitReader σ) : Except Error (BitReader σ) := do
  if r.bitsValid = 0 then
    let (byte, reader) ← Reader.readByte (Reader.tryRead basicRead) r.reader
    return { reader, bitsValid := 8, currentByte := byte.toBitVec.setWidth 32 }
  else
    return r

-- `(current_byte >> --bits_valid) & 1`
def nextBit (r : BitReader σ) : BitVec 32 × BitReader σ :=
  let bitsValid := r.bitsValid - 1
  (r.currentByte.sshiftRight bitsValid &&& 1, { r with bitsValid })

def readBit (r : BitReader σ) : Except Error (BitVec 32 × BitReader σ) := do
  let r ← fill basicRead r
  return nextBit r

def readBits (n : Nat) (r : BitReader σ) : Except Error (BitVec 32 × BitReader σ) := go n 0 r
where
  go : Nat → BitVec 32 → BitReader σ → Except Error (BitVec 32 × BitReader σ)
  | 0, bits, r => return (bits, r)
  | n + 1, bits, r => do
    let r ← fill basicRead r
    let (bit, r) := nextBit r
    go n (bits <<< 1 ||| bit) r

end BitReader

structure BitWriter where
  written : List UInt8
  bitsValid : Nat
  currentByte : BitVec 32
  deriving DecidableEq, Repr

namespace BitWriter

def new : BitWriter := { written := [], bitsValid := 0, currentByte := 0 }

-- The `writer.write_byte` of the source, which cuts an `int` down to an `unsigned char`
def writeByte (w : BitWriter) (byte : BitVec 32) : BitWriter :=
  { w with written := w.written ++ [UInt8.ofBitVec (byte.setWidth 8)] }

-- Accumulate a bit into the current byte and write it out if we have reached 8 bits
def pushBit (w : BitWriter) (bit : BitVec 32) : BitWriter :=
  let currentByte := w.currentByte <<< 1 ||| bit
  if w.bitsValid + 1 = 8 then
    { w.writeByte currentByte with bitsValid := 0, currentByte := 0 }
  else
    { w with bitsValid := w.bitsValid + 1, currentByte }

def writeBit (w : BitWriter) (bit : BitVec 32) : BitWriter := w.pushBit (bit &&& 1)

def writeBits (w : BitWriter) : Nat → BitVec 32 → BitWriter
  | 0, _ => w
  | n + 1, bits => writeBits (w.pushBit (bits >>> n &&& 1)) n bits

def flush (w : BitWriter) : BitWriter :=
  if w.bitsValid ≠ 0 then
    let w := w.writeByte (w.currentByte <<< (8 - w.bitsValid))
    { w with bitsValid := 0, currentByte := 0 }
  else
    w

end BitWriter

def byteBits (bytes : List UInt8) : List Bool := bytes.flatMap fun b => Bits.ofNat 8 b.toNat

@[simp]
theorem byteBits_nil : byteBits [] = [] := rfl

@[simp]
theorem byteBits_cons (b : UInt8) (bytes : List UInt8)
    : byteBits (b :: bytes) = Bits.ofNat 8 b.toNat ++ byteBits bytes := rfl

@[simp]
theorem byteBits_append (l1 l2 : List UInt8) : byteBits (l1 ++ l2) = byteBits l1 ++ byteBits l2 := by
  simp [byteBits]

@[simp]
theorem length_byteBits (bytes : List UInt8) : (byteBits bytes).length = 8 * bytes.length := by
  induction bytes with
  | nil => rfl
  | cons b bytes ih =>
    simp [ih]
    omega

theorem shiftLeft_or_toNat {x bit : BitVec 32} {b : Bool} (h : bit.toNat = b.toNat)
    : (x <<< 1 ||| bit).toNat = (2 * x.toNat + b.toNat) % 2 ^ 32 := by
  have hb := b.toNat_lt
  have heven : x.toNat <<< 1 % 2 ^ 32 = 2 ^ 1 * (x.toNat % 2 ^ 31) := by
    rw [Nat.shiftLeft_eq]
    omega
  rw [BitVec.toNat_or, BitVec.toNat_shiftLeft, h, heven,
    ← Nat.two_pow_add_eq_or_of_lt (by omega)]
  omega

theorem and_one_toNat (x : BitVec 32) : (x &&& 1).toNat = (x.toNat.testBit 0).toNat := by
  rw [BitVec.toNat_and, Nat.testBit_zero]
  change x.toNat &&& 1 = _
  rw [Nat.and_one_is_mod]
  cases Nat.mod_two_eq_zero_or_one x.toNat with
  | inl h => simp [h]
  | inr h => simp [h]

theorem shiftRight_and_one_toNat (x : BitVec 32) (n : Nat)
    : (x >>> n &&& 1).toNat = (x.toNat.testBit n).toNat := by
  rw [and_one_toNat, BitVec.toNat_ushiftRight, Nat.testBit_shiftRight, Nat.add_zero]

namespace BitWriter

structure Valid (w : BitWriter) : Prop where
  bitsValid_lt : w.bitsValid < 8
  currentByte_lt : w.currentByte.toNat < 2 ^ w.bitsValid

def bits (w : BitWriter) : List Bool :=
  byteBits w.written ++ Bits.ofNat w.bitsValid w.currentByte.toNat

theorem valid_new : new.Valid := by
  constructor <;> decide

theorem pushBit_spec {w : BitWriter} (h : w.Valid) {bit : BitVec 32} {b : Bool}
    (hbit : bit.toNat = b.toNat)
    : (w.pushBit bit).Valid ∧ (w.pushBit bit).bits = w.bits ++ [b] := by
  have h1 := h.bitsValid_lt
  have h2 := h.currentByte_lt
  have hb := b.toNat_lt
  have hpow : 2 ^ w.bitsValid ≤ 2 ^ 7 := Nat.pow_le_pow_right (by omega) (by omega)
  have hshift : (w.currentByte <<< 1 ||| bit).toNat = 2 * w.currentByte.toNat + b.toNat := by
    rw [shiftLeft_or_toNat hbit]
    apply Nat.mod_eq_of_lt
    omega
  unfold pushBit
  dsimp only
  split
  . next hfull =>
    constructor
    . constructor <;> simp
    . have hbyte : (UInt8.ofBitVec ((w.currentByte <<< 1 ||| bit).setWidth 8)).toNat
          = 2 * w.currentByte.toNat + b.toNat := by
        rw [UInt8.toNat_ofBitVec, BitVec.toNat_setWidth, hshift]
        apply Nat.mod_eq_of_lt
        omega
      have height : (8 : Nat) = w.bitsValid + 1 := hfull.symm
      unfold bits writeByte
      simp only [byteBits_append, byteBits_cons, byteBits_nil, hbyte, List.append_nil]
      rw [height, Bits.ofNat_snoc, List.append_assoc]
      simp [Bits.ofNat]
  . next hfull =>
    constructor
    . constructor
      . dsimp only
        omega
      . dsimp only
        rw [hshift, Nat.pow_succ]
        omega
    . unfold bits
      dsimp only
      rw [hshift, Bits.ofNat_snoc, List.append_assoc]

theorem writeBits_spec {w : BitWriter} (h : w.Valid) (n : Nat) (v : BitVec 32)
    : (w.writeBits n v).Valid ∧ (w.writeBits n v).bits = w.bits ++ Bits.ofNat n v.toNat := by
  induction n generalizing w with
  | zero =>
    unfold writeBits
    simp [h, Bits.ofNat]
  | succ n ih =>
    have hpush := pushBit_spec h (shiftRight_and_one_toNat v n)
    have ih := ih hpush.1
    unfold writeBits
    rw [hpush.2] at ih
    refine ⟨ih.1, ?_⟩
    rw [ih.2, Bits.ofNat, List.append_assoc, List.singleton_append]

theorem flush_spec {w : BitWriter} (h : w.Valid)
    : ∃ pad, pad < 8 ∧ byteBits w.flush.written = w.bits ++ List.replicate pad false := by
  have h1 := h.bitsValid_lt
  have h2 := h.currentByte_lt
  unfold flush bits
  split
  . next hne =>
    have hpow : 2 ^ w.bitsValid * 2 ^ (8 - w.bitsValid) = 2 ^ 8 := by
      rw [← Nat.pow_add]
      congr
      omega
    have hlt : w.currentByte.toNat * 2 ^ (8 - w.bitsValid) < 2 ^ 8 := by
      rw [← hpow]
      exact Nat.mul_lt_mul_of_pos_right h2 (Nat.two_pow_pos _)
    have hbyte : (UInt8.ofBitVec ((w.currentByte <<< (8 - w.bitsValid)).setWidth 8)).toNat
        = w.currentByte.toNat * 2 ^ (8 - w.bitsValid) := by
      rw [UInt8.toNat_ofBitVec, BitVec.toNat_setWidth, BitVec.toNat_shiftLeft, Nat.shiftLeft_eq]
      omega
    have hsplit := Bits.ofNat_shiftLeft w.bitsValid (8 - w.bitsValid) w.currentByte.toNat
    have height : w.bitsValid + (8 - w.bitsValid) = 8 := by omega
    rw [height] at hsplit
    refine ⟨8 - w.bitsValid, by omega, ?_⟩
    unfold writeByte
    simp only [byteBits_append, byteBits_cons, byteBits_nil, hbyte, hsplit, List.append_nil]
    rw [List.append_assoc]
  . next hne =>
    have hzero : w.bitsValid = 0 := by omega
    exact ⟨0, by omega, by simp [hzero, Bits.ofNat]⟩

end BitWriter

namespace BitReader

variable {σ : Type} {basicRead : BasicRead σ} {data : σ → List UInt8}

structure Valid (r : BitReader σ) : Prop where
  bitsValid_le : r.bitsValid ≤ 8
  currentByte_lt : r.currentByte.toNat < 2 ^ 8

def pending (data : σ → List UInt8) (r : BitReader σ) : List Bool :=
  Bits.ofNat r.bitsValid r.currentByte.toNat ++ byteBits (data r.reader)

theorem valid_new (reader : σ) : (new reader).Valid := by
  constructor <;> simp [new]

theorem fill_spec (h : Lawful basicRead data) {r : BitReader σ} (hr : r.Valid) {b : Bool}
    {rest : List Bool} (hpending : r.pending data = b :: rest)
    : ∃ r',
        fill basicRead r = .ok r'
          ∧
        r'.Valid ∧ 0 < r'.bitsValid ∧ r'.pending data = b :: rest := by
  unfold fill
  split
  . next hzero =>
    unfold pending at hpending
    rw [hzero] at hpending
    cases hdata : data r.reader with
    | nil => simp [hdata, Bits.ofNat] at hpending
    | cons byte bytes =>
      obtain ⟨reader', hread, hdata'⟩ := Reader.readByte_cons h hdata
      rw [hread]
      refine ⟨_, rfl, ⟨?_, ?_⟩, ?_, ?_⟩
      . dsimp only
        omega
      . have := byte.toNat_lt
        simp
        omega
      . dsimp only
        omega
      . have hbyte : (byte.toBitVec.setWidth 32).toNat = byte.toNat := by
          have := byte.toNat_lt
          simp
        rw [← hpending, hdata]
        simp [pending, hdata', hbyte, Bits.ofNat]
  . next hne => exact ⟨r, rfl, hr, by omega, hpending⟩

theorem nextBit_spec {r : BitReader σ} (hr : r.Valid) (hpos : 0 < r.bitsValid) {b : Bool}
    {rest : List Bool} (hpending : r.pending data = b :: rest)
    : (nextBit r).1.toNat = b.toNat
        ∧
      (nextBit r).2.Valid ∧ (nextBit r).2.pending data = rest := by
  obtain ⟨n, hn⟩ := Nat.exists_eq_succ_of_ne_zero (Nat.ne_of_gt hpos)
  have h1 := hr.bitsValid_le
  have h2 := hr.currentByte_lt
  have hmsb : r.currentByte.msb = false := by
    rw [BitVec.msb_eq_false_iff_two_mul_lt]
    omega
  unfold pending at hpending
  rw [hn, Bits.ofNat, List.cons_append, List.cons.injEq] at hpending
  unfold nextBit
  dsimp only
  rw [hn, Nat.succ_sub_one, BitVec.sshiftRight_eq_of_msb_false hmsb, shiftRight_and_one_toNat,
    hpending.1]
  refine ⟨rfl, ⟨?_, h2⟩, hpending.2⟩
  dsimp only
  omega

theorem readBit_spec (h : Lawful basicRead data) {r : BitReader σ} (hr : r.Valid) {b : Bool}
    {rest : List Bool} (hpending : r.pending data = b :: rest)
    : ∃ bit r',
        readBit basicRead r = .ok (bit, r')
          ∧
        bit.toNat = b.toNat ∧ r'.Valid ∧ r'.pending data = rest := by
  obtain ⟨r', hfill, hr', hpos, hpending'⟩ := fill_spec h hr hpending
  unfold readBit
  rw [hfill]
  exact ⟨_, _, rfl, nextBit_spec hr' hpos hpending'⟩

theorem readBit_nil (h : Lawful basicRead data) {r : BitReader σ} (hpending : r.pending data = [])
    : ∃ e, readBit basicRead r = .error e := by
  unfold pending at hpending
  rw [List.append_eq_nil_iff] at hpending
  have hvalid := congrArg List.length hpending.1
  rw [Bits.length_ofNat, List.length_nil] at hvalid
  have hdata := congrArg List.length hpending.2
  rw [length_byteBits, List.length_nil] at hdata
  unfold readBit fill
  rw [if_pos hvalid]
  cases hread : Reader.readByte (Reader.tryRead basicRead) r.reader with
  | error e => exact ⟨e, rfl⟩
  | ok res =>
    obtain ⟨byte, reader⟩ := res
    have hbyte := congrArg List.length (Reader.readByte_ok h hread)
    rw [List.length_cons] at hbyte
    omega

theorem bit_eq_zero_iff {bit : BitVec 32} {b : Bool} (h : bit.toNat = b.toNat) : bit = 0 ↔ b = false := by
  cases b with
  | false => exact iff_of_true (BitVec.eq_of_toNat_eq h) rfl
  | true =>
    apply iff_of_false
    . intro hzero
      rw [hzero] at h
      contradiction
    . decide

theorem decide_bit_ne_zero {bit : BitVec 32} {b : Bool} (h : bit = 0 ↔ b = false) : decide (bit ≠ 0) = b := by
  cases b with
  | false => exact decide_eq_false (not_not.mpr (h.mpr rfl))
  | true => exact decide_eq_true (fun hzero => Bool.noConfusion (h.mp hzero))

theorem readBit_ok (h : Lawful basicRead data) {r r' : BitReader σ} (hr : r.Valid) {bit : BitVec 32}
    (hread : readBit basicRead r = .ok (bit, r'))
    : ∃ b, r.pending data = b :: r'.pending data ∧ (bit = 0 ↔ b = false) ∧ r'.Valid := by
  cases hpending : r.pending data with
  | nil =>
    obtain ⟨e, hnone⟩ := readBit_nil h hpending
    rw [hnone] at hread
    contradiction
  | cons b rest =>
    obtain ⟨bit', r'', hbit, hb, hr'', hrest⟩ := readBit_spec h hr hpending
    rw [hbit] at hread
    cases hread
    exact ⟨b, by rw [hrest], bit_eq_zero_iff hb, hr''⟩

theorem readBits_go_spec (h : Lawful basicRead data) {r : BitReader σ} (hr : r.Valid) (l : List Bool)
    {rest : List Bool} (hpending : r.pending data = l ++ rest) {k : Nat} {bits : BitVec 32}
    (hbits : bits.toNat < 2 ^ k) (hk : k + l.length ≤ 32)
    : ∃ bits' r',
        readBits.go basicRead l.length bits r = .ok (bits', r')
          ∧
        bits'.toNat = l.foldl (fun v b => 2 * v + b.toNat) bits.toNat
          ∧
        r'.Valid ∧ r'.pending data = rest := by
  induction l generalizing r bits k with
  | nil => exact ⟨bits, r, rfl, rfl, hr, hpending⟩
  | cons b l ih =>
    obtain ⟨r1, hfill, hr1, hpos, hpending1⟩ := fill_spec h hr hpending
    obtain ⟨hbit, hr2, hpending2⟩ := nextBit_spec hr1 hpos hpending1
    have hb := b.toNat_lt
    rw [List.length_cons] at hk
    have hlt : 2 * bits.toNat + b.toNat < 2 ^ (k + 1) := by
      rw [Nat.pow_succ]
      omega
    -- The accumulator has room for another bit, so that none is shifted out at the top.
    have hshift : (bits <<< 1 ||| (nextBit r1).1).toNat = 2 * bits.toNat + b.toNat := by
      rw [shiftLeft_or_toNat hbit]
      apply Nat.mod_eq_of_lt
      exact Nat.lt_of_lt_of_le hlt (Nat.pow_le_pow_right (by omega) (by omega))
    rw [← hshift] at hlt
    obtain ⟨bits', r', hgo, hval, hr', hrest⟩ := ih hr2 hpending2 hlt (by omega)
    refine ⟨bits', r', ?_, ?_, hr', hrest⟩
    . rw [List.length_cons, readBits.go, hfill]
      exact hgo
    . rw [hval, hshift]
      rfl

theorem readBits_spec (h : Lawful basicRead data) {r : BitReader σ} (hr : r.Valid) {n : Nat}
    (hn : n ≤ 32) (v : Nat) {rest : List Bool} (hpending : r.pending data = Bits.ofNat n v ++ rest)
    : ∃ bits r',
        readBits basicRead n r = .ok (bits, r')
          ∧
        bits.toNat = v % 2 ^ n ∧ r'.Valid ∧ r'.pending data = rest := by
  have hzero : (0 : BitVec 32).toNat < 2 ^ 0 := by decide
  have hgo := readBits_go_spec h hr _ hpending hzero (by simpa using hn)
  rw [Bits.length_ofNat] at hgo
  rw [← Bits.toNat_ofNat]
  exact hgo

end BitReader

/-
A call on the writer and the corresponding one on the reader.
-/
inductive BitOp where
  | bit (b : BitVec 32)
  | bits (n : Nat) (v : BitVec 32)
  deriving DecidableEq, Repr

namespace BitOp

def width : BitOp → Nat
  | bit _ => 1
  | bits n _ => n

def written : BitOp → List Bool
  | bit b => [b.toNat.testBit 0]
  | bits n v => Bits.ofNat n v.toNat

-- `b & 1` and `v mod 2 ^ n`
def expected : BitOp → BitVec 32
  | bit b => b &&& 1
  | bits n v => BitVec.ofNat 32 (v.toNat % 2 ^ n)

def write (w : BitWriter) : BitOp → BitWriter
  | bit b => w.writeBit b
  | bits n v => w.writeBits n v

def read {σ : Type} (basicRead : BasicRead σ) (r : BitReader σ)
    : BitOp → Except Error (BitVec 32 × BitReader σ)
  | bit _ => r.readBit basicRead
  | bits n _ => r.readBits basicRead n

def writeAll (ops : List BitOp) : BitWriter := (ops.foldl write BitWriter.new).flush

def readAll {σ : Type} (basicRead : BasicRead σ)
    : List BitOp → BitReader σ → Except Error (List (BitVec 32) × BitReader σ)
  | [], r => return ([], r)
  | op :: ops, r => do
    let (v, r) ← op.read basicRead r
    let (vs, r) ← readAll basicRead ops r
    return (v :: vs, r)

theorem length_written (op : BitOp) : op.written.length = op.width := by
  cases op <;> simp [written, width]

theorem write_spec {w : BitWriter} (h : w.Valid) (op : BitOp)
    : (op.write w).Valid ∧ (op.write w).bits = w.bits ++ op.written := by
  cases op with
  | bit b => exact BitWriter.pushBit_spec h (and_one_toNat b)
  | bits n v => exact BitWriter.writeBits_spec h n v

theorem foldl_write_spec {w : BitWriter} (h : w.Valid) (ops : List BitOp)
    : (ops.foldl write w).Valid ∧ (ops.foldl write w).bits = w.bits ++ ops.flatMap written := by
  induction ops generalizing w with
  | nil => simp [h]
  | cons op ops ih =>
    have hop := write_spec h op
    have ih := ih hop.1
    rw [hop.2] at ih
    simpa using ih

theorem read_spec {σ : Type} {basicRead : BasicRead σ} {data : σ → List UInt8}
    (h : Lawful basicRead data) {r : BitReader σ} (hr : r.Valid) {op : BitOp} (hn : op.width ≤ 32)
    {rest : List Bool} (hpending : r.pending data = op.written ++ rest)
    : ∃ r', op.read basicRead r = .ok (op.expected, r') ∧ r'.Valid ∧ r'.pending data = rest := by
  cases op with
  | bit b =>
    obtain ⟨bit, r', hread, hbit, hr'⟩ := BitReader.readBit_spec h hr hpending
    have : bit = b &&& 1 := by
      apply BitVec.eq_of_toNat_eq
      rw [hbit, and_one_toNat]
    rw [this] at hread
    exact ⟨r', hread, hr'⟩
  | bits n v =>
    obtain ⟨bits, r', hread, hbits, hr'⟩ := BitReader.readBits_spec h hr hn v.toNat hpending
    have : bits = BitVec.ofNat 32 (v.toNat % 2 ^ n) := by
      change bits.toNat = v.toNat % 2 ^ n at hbits
      apply BitVec.eq_of_toNat_eq
      have := bits.isLt
      rw [BitVec.toNat_ofNat]
      omega
    rw [this] at hread
    exact ⟨r', hread, hr'⟩

theorem readAll_spec {σ : Type} {basicRead : BasicRead σ} {data : σ → List UInt8}
    (h : Lawful basicRead data) {r : BitReader σ} (hr : r.Valid) {ops : List BitOp}
    (hn : ∀ op ∈ ops, op.width ≤ 32) {rest : List Bool}
    (hpending : r.pending data = ops.flatMap written ++ rest)
    : ∃ r', readAll basicRead ops r = .ok (ops.map expected, r') := by
  induction ops generalizing r with
  | nil => exact ⟨r, rfl⟩
  | cons op ops ih =>
    rw [List.flatMap_cons, List.append_assoc] at hpending
    obtain ⟨r1, hread, hr1, hpending1⟩ := read_spec h hr (hn op (by simp)) hpending
    obtain ⟨r2, hreads⟩ := ih hr1 (fun op hop => hn op (by simp [hop])) hpending1
    refine ⟨r2, ?_⟩
    rw [readAll, hread]
    simp only [bind, Except.bind]
    rw [hreads]
    rfl

theorem bitStream_round_trip (ops : List BitOp) (hn : ∀ op ∈ ops, op.width ≤ 32)
    : (∀ (σ : Type) (basicRead : BasicRead σ) (data : σ → List UInt8) (reader : σ),
        Lawful basicRead data → data reader = (writeAll ops).written →
          ∃ r, readAll basicRead ops (BitReader.new reader) = .ok (ops.map expected, r))
        ∧
      (writeAll ops).written.length = ((ops.map width).sum + 7) / 8
        ∧
      byteBits (writeAll ops).written
        =
      ops.flatMap written
        ++ List.replicate (8 * (writeAll ops).written.length - (ops.map width).sum) false := by
  have hfold := foldl_write_spec BitWriter.valid_new ops
  obtain ⟨pad, hpad, hflush⟩ := BitWriter.flush_spec hfold.1
  have hnew : BitWriter.new.bits = [] := rfl
  rw [hfold.2, hnew, List.nil_append] at hflush
  have hlen : (ops.flatMap written).length = (ops.map width).sum := by
    rw [List.length_flatMap]
    congr
    funext op
    exact length_written op
  have htotal := congrArg List.length hflush
  rw [length_byteBits, List.length_append, hlen, List.length_replicate] at htotal
  have hpad' : 8 * (writeAll ops).written.length - (ops.map width).sum = pad := by
    unfold writeAll
    omega
  refine ⟨?_, ?_, ?_⟩
  . intro σ basicRead data reader h hdata
    have hpending : (BitReader.new reader).pending data
        = ops.flatMap written ++ List.replicate pad false := by
      unfold BitReader.pending BitReader.new
      rw [hdata]
      exact hflush
    exact readAll_spec h (BitReader.valid_new reader) hn hpending
  . unfold writeAll
    omega
  . rw [hpad']
    exact hflush

theorem bitStream_round_trip_mixed
    : (writeAll [.bits 3 5, .bit 3, .bits 5 18, .bits 0 7]).written = [185, 0]
        ∧
      ∃ r,
        readAll StringReader.basicRead [.bits 3 5, .bit 3, .bits 5 18, .bits 0 7]
          (BitReader.new (StringReader.new [185, 0]))
          =
        .ok ([5, 1, 18, 0], r) := by
  have hwritten : (writeAll [.bits 3 5, .bit 3, .bits 5 18, .bits 0 7]).written = [185, 0] := by
    decide
  have hexpected : List.map expected [.bits 3 5, .bit 3, .bits 5 18, .bits 0 7] = [5, 1, 18, 0] := by
    decide
  refine ⟨hwritten, ?_⟩
  rw [← hexpected]
  apply (bitStream_round_trip _ (by decide)).1 _ _ _ _ StringReader.lawful
  rw [StringReader.rest_new, hwritten]

end BitOp

end Channel
end ObTools
