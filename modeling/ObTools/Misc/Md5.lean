import Mathlib.Algebra.GroupWithZero.Nat
import ObTools.Lib.BigEndian
import ObTools.Lib.Blocks

/-!
This module contains the model of `MD5`, and the proof that it does not matter in which pieces it is given a message.

The machine is one with the low byte first, where `byte_reverse` does nothing. The buffer for a block is memory of 64
bytes. An access outside of it gives no result.
-/

namespace ObTools
namespace Misc

namespace MD5

def littleEndian (width v : Nat) : List UInt8 := (BigEndian.toBytes width v).reverse

def f1 (x y z : UInt32) : UInt32 := z ^^^ (x &&& (y ^^^ z))

def f2 (x y z : UInt32) : UInt32 := f1 z x y

def f3 (x y z : UInt32) : UInt32 := x ^^^ y ^^^ z

def f4 (x y z : UInt32) : UInt32 := y ^^^ (x ||| ~~~z)

def md5Step (f : UInt32 → UInt32 → UInt32 → UInt32) (w x y z data s : UInt32) : UInt32 :=
  let w := w + (f x y z + data)
  let w := w <<< s ||| w >>> (32 - s)
  w + x

def round1 (input : Vector UInt32 16) (v : Vector UInt32 4) : Vector UInt32 4 :=
  let a := v[0]
  let b := v[1]
  let c := v[2]
  let d := v[3]
  let a := md5Step f1 a b c d (input[0] + 0xd76aa478) 7
  let d := md5Step f1 d a b c (input[1] + 0xe8c7b756) 12
  let c := md5Step f1 c d a b (input[2] + 0x242070db) 17
  let b := md5Step f1 b c d a (input[3] + 0xc1bdceee) 22
  let a := md5Step f1 a b c d (input[4] + 0xf57c0faf) 7
  let d := md5Step f1 d a b c (input[5] + 0x4787c62a) 12
  let c := md5Step f1 c d a b (input[6] + 0xa8304613) 17
  let b := md5Step f1 b c d a (input[7] + 0xfd469501) 22
  let a := md5Step f1 a b c d (input[8] + 0x698098d8) 7
  let d := md5Step f1 d a b c (input[9] + 0x8b44f7af) 12
  let c := md5Step f1 c d a b (input[10] + 0xffff5bb1) 17
  let b := md5Step f1 b c d a (input[11] + 0x895cd7be) 22
  let a := md5Step f1 a b c d (input[12] + 0x6b901122) 7
  let d := md5Step f1 d a b c (input[13] + 0xfd987193) 12
  let c := md5Step f1 c d a b (input[14] + 0xa679438e) 17
  let b := md5Step f1 b c d a (input[15] + 0x49b40821) 22
  #v[a, b, c, d]

def round2 (input : Vector UInt32 16) (v : Vector UInt32 4) : Vector UInt32 4 :=
  let a := v[0]
  let b := v[1]
  let c := v[2]
  let d := v[3]
  let a := md5Step f2 a b c d (input[1] + 0xf61e2562) 5
  let d := md5Step f2 d a b c (input[6] + 0xc040b340) 9
  let c := md5Step f2 c d a b (input[11] + 0x265e5a51) 14
  let b := md5Step f2 b c d a (input[0] + 0xe9b6c7aa) 20
  let a := md5Step f2 a b c d (input[5] + 0xd62f105d) 5
  let d := md5Step f2 d a b c (input[10] + 0x02441453) 9
  let c := md5Step f2 c d a b (input[15] + 0xd8a1e681) 14
  let b := md5Step f2 b c d a (input[4] + 0xe7d3fbc8) 20
  let a := md5Step f2 a b c d (input[9] + 0x21e1cde6) 5
  let d := md5Step f2 d a b c (input[14] + 0xc33707d6) 9
  let c := md5Step f2 c d a b (input[3] + 0xf4d50d87) 14
  let b := md5Step f2 b c d a (input[8] + 0x455a14ed) 20
  let a := md5Step f2 a b c d (input[13] + 0xa9e3e905) 5
  let d := md5Step f2 d a b c (input[2] + 0xfcefa3f8) 9
  let c := md5Step f2 c d a b (input[7] + 0x676f02d9) 14
  let b := md5Step f2 b c d a (input[12] + 0x8d2a4c8a) 20
  #v[a, b, c, d]

def round3 (input : Vector UInt32 16) (v : Vector UInt32 4) : Vector UInt32 4 :=
  let a := v[0]
  let b := v[1]
  let c := v[2]
  let d := v[3]
  let a := md5Step f3 a b c d (input[5] + 0xfffa3942) 4
  let d := md5Step f3 d a b c (input[8] + 0x8771f681) 11
  let c := md5Step f3 c d a b (input[11] + 0x6d9d6122) 16
  let b := md5Step f3 b c d a (input[14] + 0xfde5380c) 23
  let a := md5Step f3 a b c d (input[1] + 0xa4beea44) 4
  let d := md5Step f3 d a b c (input[4] + 0x4bdecfa9) 11
  let c := md5Step f3 c d a b (input[7] + 0xf6bb4b60) 16
  let b := md5Step f3 b c d a (input[10] + 0xbebfbc70) 23
  let a := md5Step f3 a b c d (input[13] + 0x289b7ec6) 4
  let d := md5Step f3 d a b c (input[0] + 0xeaa127fa) 11
  let c := md5Step f3 c d a b (input[3] + 0xd4ef3085) 16
  let b := md5Step f3 b c d a (input[6] + 0x04881d05) 23
  let a := md5Step f3 a b c d (input[9] + 0xd9d4d039) 4
  let d := md5Step f3 d a b c (input[12] + 0xe6db99e5) 11
  let c := md5Step f3 c d a b (input[15] + 0x1fa27cf8) 16
  let b := md5Step f3 b c d a (input[2] + 0xc4ac5665) 23
  #v[a, b, c, d]

def round4 (input : Vector UInt32 16) (v : Vector UInt32 4) : Vector UInt32 4 :=
  let a := v[0]
  let b := v[1]
  let c := v[2]
  let d := v[3]
  let a := md5Step f4 a b c d (input[0] + 0xf4292244) 6
  let d := md5Step f4 d a b c (input[7] + 0x432aff97) 10
  let c := md5Step f4 c d a b (input[14] + 0xab9423a7) 15
  let b := md5Step f4 b c d a (input[5] + 0xfc93a039) 21
  let a := md5Step f4 a b c d (input[12] + 0x655b59c3) 6
  let d := md5Step f4 d a b c (input[3] + 0x8f0ccc92) 10
  let c := md5Step f4 c d a b (input[10] + 0xffeff47d) 15
  let b := md5Step f4 b c d a (input[1] + 0x85845dd1) 21
  let a := md5Step f4 a b c d (input[8] + 0x6fa87e4f) 6
  let d := md5Step f4 d a b c (input[15] + 0xfe2ce6e0) 10
  let c := md5Step f4 c d a b (input[6] + 0xa3014314) 15
  let b := md5Step f4 b c d a (input[13] + 0x4e0811a1) 21
  let a := md5Step f4 a b c d (input[4] + 0xf7537e82) 6
  let d := md5Step f4 d a b c (input[11] + 0xbd3af235) 10
  let c := md5Step f4 c d a b (input[2] + 0x2ad7d2bb) 15
  let b := md5Step f4 b c d a (input[9] + 0xeb86d391) 21
  #v[a, b, c, d]

-- Alter an existing hash to reflect the addition of 16 longwords of new data
def transform (buf : Vector UInt32 4) (input : Vector UInt32 16) : Vector UInt32 4 :=
  let v := round4 input (round3 input (round2 input (round1 input buf)))
  #v[buf[0] + v[0], buf[1] + v[1], buf[2] + v[2], buf[3] + v[3]]

-- The bytes of a block as longwords
def longwords (block : List UInt8) : Vector UInt32 16 :=
  Vector.ofFn fun i => UInt32.ofNat (BigEndian.ofBytes ((block.drop (4 * i)).take 4).reverse)

abbrev Input := { bytes : List UInt8 // bytes.length = 64 }

def memcpy (memory : Input) (offset : Nat) (bytes : List UInt8) : Option Input :=
  if h : offset + bytes.length ≤ 64 then
    some {
      val := memory.val.take offset ++ bytes ++ memory.val.drop (offset + bytes.length)
      property := by
        have hmemory := memory.property
        simp only [List.length_append, List.length_take, List.length_drop, hmemory]
        omega
    }
  else
    none

-- What a call of `update` can be given: its length is an `unsigned`.
structure Piece where
  bytes : List UInt8
  lt : bytes.length < 2 ^ 32

def Piece.len (piece : Piece) : UInt32 := UInt32.ofNat piece.bytes.length

end MD5

structure MD5 where
  ctxBuf : Vector UInt32 4
  ctxBits : Vector UInt32 2
  ctxIn : MD5.Input

namespace MD5

-- Mysterious initialization constants
def initialBuf : Vector UInt32 4 := #v[0x67452301, 0xefcdab89, 0x98badcfe, 0x10325476]

-- Start accumulation, `ctx_in` is left alone
def initialise (md5 : MD5) : MD5 where
  ctxBuf := initialBuf
  ctxBits := #v[0, 0]
  ctxIn := md5.ctxIn

def fill (md5 : MD5) (offset : Nat) (bytes : List UInt8) : Option MD5 := do
  let ctxIn ← memcpy md5.ctxIn offset bytes
  return { md5 with ctxIn }

def process (md5 : MD5) : MD5 := { md5 with ctxBuf := transform md5.ctxBuf (longwords md5.ctxIn.val) }

-- Process data in 64-byte chunks, and keep any remaining bytes of data
def updateChunks (md5 : MD5) (buf : List UInt8) : Option MD5 :=
  if 64 ≤ buf.length then do
    let md5 ← md5.fill 0 (buf.take 64)
    updateChunks md5.process (buf.drop 64)
  else
    md5.fill 0 buf
termination_by buf.length
decreasing_by
  rw [List.length_drop]
  omega

-- Handle any leading odd-sized chunks, `t` bytes are held already
def updateFrom (md5 : MD5) (t : Nat) (buf : List UInt8) : Option MD5 :=
  if t = 0 then
    updateChunks md5 buf
  else if buf.length < 64 - t then
    md5.fill t buf
  else do
    let md5 ← md5.fill t (buf.take (64 - t))
    updateChunks md5.process (buf.drop (64 - t))

-- Update bitcount, with a carry from low to high
def updateBits (ctxBits : Vector UInt32 2) (len : UInt32) : Vector UInt32 2 :=
  let t := ctxBits[0]
  let low := t + len <<< 3
  let high := if low < t then ctxBits[1] + 1 else ctxBits[1]
  #v[low, high + len >>> 29]

-- Number of bytes mod 64
def held (ctxBits : Vector UInt32 2) : Nat := (ctxBits[0] >>> 3 &&& 0x3f).toNat

def update (md5 : MD5) (buf : Piece) : Option MD5 :=
  updateFrom { md5 with ctxBits := updateBits md5.ctxBits buf.len } (held md5.ctxBits) buf.bytes

-- Pad out to 56 mod 64, behind the `count` bytes that are held
def padOut (md5 : MD5) (count : Nat) : Option MD5 := do
  let md5 ← md5.fill count [0x80]
  let p := count + 1
  -- Bytes of padding needed to make 64 bytes
  let count := 64 - 1 - count
  if count < 8 then
    -- Two lots of padding
    let md5 ← md5.fill p (List.replicate count 0)
    md5.process.fill 0 (List.replicate 56 0)
  else
    md5.fill p (List.replicate (count - 8) 0)

-- Append length in bits and transform
def appendLength (md5 : MD5) : Option MD5 := do
  let md5 ← md5.fill (14 * 4) (littleEndian 4 md5.ctxBits[0].toNat)
  let md5 ← md5.fill (15 * 4) (littleEndian 4 md5.ctxBits[1].toNat)
  return md5.process

def output (ctxBuf : Vector UInt32 4) : List UInt8 := ctxBuf.toList.flatMap fun word => littleEndian 4 word.toNat

-- Final wrapup, with the state that is left
def finalise (md5 : MD5) : Option (List UInt8 × MD5) := do
  let md5 ← md5.padOut (held md5.ctxBits)
  let md5 ← md5.appendLength
  return (output md5.ctxBuf, md5)

-- Get bytes 64 at a time, and do the rest, if any
def sumChunks (md5 : MD5) (text : List UInt8) : Option MD5 :=
  if h : 64 ≤ text.length then do
    let md5 ← md5.update { bytes := text.take 64, lt := by rw [List.length_take]; omega }
    sumChunks md5 (text.drop 64)
  else if 0 < text.length then
    md5.update { bytes := text, lt := by omega }
  else
    some md5
termination_by text.length
decreasing_by
  rw [List.length_drop]
  omega

def sum (md5 : MD5) (text : List UInt8) : Option (List UInt8 × MD5) := do
  let md5 ← sumChunks md5.initialise text
  md5.finalise

/-
What the digest is for: the message with its padding, block by block.
-/

-- Zeros up to 56 mod 64, after the bit in front of them
def zeros (length : Nat) : Nat := (56 + (64 - (length + 1) % 64)) % 64

theorem zeros_mod (length : Nat) : (length + 1 + zeros length) % 64 = 56 := by
  unfold zeros
  omega

def pad (message : List UInt8) : List UInt8 :=
  message ++ [0x80] ++ List.replicate (zeros message.length) 0 ++ littleEndian 8 (8 * message.length % 2 ^ 64)

def compress (buf : Vector UInt32 4) (block : List UInt8) : Vector UInt32 4 := transform buf (longwords block)

def digestOf (message : List UInt8) : List UInt8 := output (Blocks.fold 64 compress initialBuf (pad message))

variable {md5 : MD5} {message pre bytes : List UInt8}

theorem length_littleEndian (width v : Nat) : (littleEndian width v).length = width := by
  unfold littleEndian
  rw [List.length_reverse, BigEndian.length_toBytes]

theorem fill_of_prefix (md5 : MD5) (h : pre <+: md5.ctxIn.val) (hle : pre.length + bytes.length ≤ 64)
    : ∃ ctxIn, md5.fill pre.length bytes = some { md5 with ctxIn } ∧ pre ++ bytes <+: ctxIn.val := by
  have htake : md5.ctxIn.val.take pre.length = pre := (List.prefix_iff_eq_take.mp h).symm
  unfold fill memcpy
  rw [dif_pos hle]
  refine ⟨_, rfl, ?_⟩
  dsimp only
  rw [htake]
  apply List.prefix_append

theorem process_of_prefix (h : pre <+: md5.ctxIn.val) (hlen : pre.length = 64)
    : md5.process = { md5 with ctxBuf := compress md5.ctxBuf pre } := by
  have hall : pre = md5.ctxIn.val := h.eq_of_length (hlen.trans md5.ctxIn.property.symm)
  unfold process compress
  rw [hall]

theorem updateChunks_eq (md5 : MD5) (buf : List UInt8)
    : ∃ ctxIn, updateChunks md5 buf = some { md5 with ctxBuf := Blocks.fold 64 compress md5.ctxBuf buf, ctxIn }
        ∧ Blocks.rest 64 buf <+: ctxIn.val := by
  induction buf using Blocks.induction (n := 64) (by decide) generalizing md5 with
  | short buf h =>
    have hle : ([] : List UInt8).length + buf.length ≤ 64 := by rw [List.length_nil]; omega
    obtain ⟨ctxIn, hfill, hpre⟩ := fill_of_prefix md5 List.nil_prefix hle
    rw [updateChunks, if_neg (by omega), Blocks.fold_of_lt h, Blocks.rest_of_lt h]
    exact ⟨ctxIn, hfill, hpre⟩
  | block block buf h ih =>
    have hle : ([] : List UInt8).length + block.length ≤ 64 := by rw [List.length_nil]; omega
    obtain ⟨ctxIn, hfill, hpre⟩ := fill_of_prefix md5 List.nil_prefix hle
    have hlong : 64 ≤ (block ++ buf).length := by rw [List.length_append]; omega
    rw [updateChunks, if_pos hlong, List.take_left' h, List.drop_left' h,
      Blocks.fold_append_of_length (by decide) h, Blocks.rest_append_of_length (by decide) h]
    rw [List.length_nil] at hfill
    rw [hfill, Option.bind_eq_bind, Option.bind_some, process_of_prefix hpre h]
    exact ih _

theorem updateFrom_eq (h : pre <+: md5.ctxIn.val) (hlt : pre.length < 64) (buf : List UInt8)
    : ∃ ctxIn, updateFrom md5 pre.length buf
          = some { md5 with ctxBuf := Blocks.fold 64 compress md5.ctxBuf (pre ++ buf), ctxIn }
        ∧ Blocks.rest 64 (pre ++ buf) <+: ctxIn.val := by
  unfold updateFrom
  split
  . next hnil =>
    rw [List.eq_nil_of_length_eq_zero hnil, List.nil_append]
    exact updateChunks_eq md5 buf
  . split
    . next hshort =>
      have hlen : (pre ++ buf).length < 64 := by rw [List.length_append]; omega
      rw [Blocks.fold_of_lt hlen, Blocks.rest_of_lt hlen]
      exact fill_of_prefix md5 h (by omega)
    . have hlen : (pre ++ buf.take (64 - pre.length)).length = 64 := by
        rw [List.length_append, List.length_take]
        omega
      have hsplit : pre ++ buf = (pre ++ buf.take (64 - pre.length)) ++ buf.drop (64 - pre.length) := by
        rw [List.append_assoc, List.take_append_drop]
      obtain ⟨ctxIn, hfill, hpre⟩ := fill_of_prefix md5 h (Nat.le_of_eq (List.length_append ▸ hlen))
      rw [hfill, Option.bind_eq_bind, Option.bind_some, process_of_prefix hpre hlen, hsplit,
        Blocks.fold_append_of_length (by decide) hlen, Blocks.rest_append_of_length (by decide) hlen]
      exact updateChunks_eq _ _

def bits (ctxBits : Vector UInt32 2) : Nat := ctxBits[1].toNat * 2 ^ 32 + ctxBits[0].toNat

theorem bits_updateBits (ctxBits : Vector UInt32 2) (len : UInt32)
    : bits (updateBits ctxBits len) = (bits ctxBits + 8 * len.toNat) % 2 ^ 64 := by
  have hlow := ctxBits[0].toNat_lt
  have hhigh := ctxBits[1].toNat_lt
  have hlen := len.toNat_lt
  have hshift : (len <<< 3).toNat = 8 * len.toNat % 2 ^ 32 := by simp [Nat.shiftLeft_eq, Nat.mul_comm]
  have htop : (len >>> 29).toNat = len.toNat / 2 ^ 29 := by simp [Nat.shiftRight_eq_div_pow]
  unfold bits updateBits
  simp only [Vector.getElem_mk, List.getElem_toArray, List.getElem_cons_succ, List.getElem_cons_zero, UInt32.toNat_add,
    UInt32.lt_iff_toNat_lt, hshift, htop]
  -- there is a carry if and only if the sum is too large for the low word
  split
  . rw [UInt32.toNat_add, UInt32.toNat_one]
    omega
  . omega

theorem held_eq (ctxBits : Vector UInt32 2) : held ctxBits = bits ctxBits / 8 % 64 := by
  have hmask : (ctxBits[0] >>> 3 &&& 0x3f).toNat = ctxBits[0].toNat / 8 % 64 := by
    have hshift : (ctxBits[0] >>> 3).toNat = ctxBits[0].toNat / 8 := by simp [Nat.shiftRight_eq_div_pow]
    rw [UInt32.toNat_and, hshift]
    exact Nat.and_two_pow_sub_one_eq_mod _ 6
  unfold held bits
  rw [hmask]
  omega

/-
What is held after some of the message.
-/
structure Holds (md5 : MD5) (message : List UInt8) : Prop where
  ctxBuf : md5.ctxBuf = Blocks.fold 64 compress initialBuf message
  ctxBits : bits md5.ctxBits = 8 * message.length % 2 ^ 64
  ctxIn : Blocks.rest 64 message <+: md5.ctxIn.val

theorem Holds.held_eq (h : md5.Holds message) : held md5.ctxBits = (Blocks.rest 64 message).length := by
  rw [MD5.held_eq, h.ctxBits, Blocks.length_rest]
  omega

theorem holds_initialise (md5 : MD5) : md5.initialise.Holds [] where
  ctxBuf := by
    rw [Blocks.fold_of_lt (Nat.zero_lt_succ 63)]
    rfl
  ctxBits := by simp [bits, initialise]
  ctxIn := List.nil_prefix

theorem update_holds (h : md5.Holds message) (buf : Piece)
    : ∃ md5', md5.update buf = some md5' ∧ md5'.Holds (message ++ buf.bytes) := by
  have hlen : buf.len.toNat = buf.bytes.length := UInt32.toNat_ofNat_of_lt' buf.lt
  have hlt : (Blocks.rest 64 message).length < 64 := by
    rw [Blocks.length_rest]
    omega
  let counted : MD5 := { md5 with ctxBits := updateBits md5.ctxBits buf.len }
  have hheld : Blocks.rest 64 message <+: counted.ctxIn.val := h.ctxIn
  obtain ⟨ctxIn, hupdate, hpre⟩ := updateFrom_eq hheld hlt buf.bytes
  unfold update
  rw [h.held_eq]
  refine ⟨_, hupdate, ?_, ?_, ?_⟩
  . rw [Blocks.fold_append (by decide) compress initialBuf message, ← h.ctxBuf]
  . dsimp only [counted]
    rw [bits_updateBits, h.ctxBits, hlen, List.length_append]
    omega
  . rw [Blocks.rest_append (by decide)]
    exact hpre

theorem foldlM_update_holds (h : md5.Holds message) (pieces : List Piece)
    : ∃ md5', pieces.foldlM update md5 = some md5' ∧ md5'.Holds (message ++ pieces.flatMap Piece.bytes) := by
  induction pieces generalizing md5 message with
  | nil =>
    refine ⟨md5, rfl, ?_⟩
    rw [List.flatMap_nil, List.append_nil]
    exact h
  | cons buf pieces ih =>
    obtain ⟨md5', hupdate, h'⟩ := update_holds h buf
    rw [List.foldlM_cons, hupdate, List.flatMap_cons, ← List.append_assoc]
    exact ih h'

theorem sumChunks_holds (h : md5.Holds message) (text : List UInt8)
    : ∃ md5', md5.sumChunks text = some md5' ∧ md5'.Holds (message ++ text) := by
  fun_induction sumChunks md5 text generalizing message with
  | case1 md5 text hlong ih =>
    obtain ⟨md5', hupdate, h'⟩ := update_holds h { bytes := text.take 64, lt := by rw [List.length_take]; omega }
    obtain ⟨md5'', hrest, h''⟩ := ih md5' h'
    rw [hupdate, Option.bind_eq_bind, Option.bind_some, hrest]
    rw [List.append_assoc, List.take_append_drop] at h''
    exact ⟨md5'', rfl, h''⟩
  | case2 md5 text hshort hsome => exact update_holds h _
  | case3 md5 text hshort hnone =>
    have hnil : text = [] := List.eq_nil_of_length_eq_zero (by omega)
    rw [hnil, List.append_nil]
    exact ⟨md5, rfl, h⟩

theorem littleEndian_bits (ctxBits : Vector UInt32 2)
    : littleEndian 8 (bits ctxBits) = littleEndian 4 ctxBits[0].toNat ++ littleEndian 4 ctxBits[1].toNat := by
  have hlow := ctxBits[0].toNat_lt
  have hdiv : bits ctxBits / 256 ^ 4 = ctxBits[1].toNat := by
    unfold bits
    omega
  have hmod : bits ctxBits % 256 ^ 4 = ctxBits[0].toNat := by
    unfold bits
    omega
  unfold littleEndian
  rw [BigEndian.toBytes_add 4 4, List.reverse_append, hdiv, ← hmod, BigEndian.toBytes_mod]

theorem length_rest_lt (message : List UInt8) : (Blocks.rest 64 message).length < 64 := by
  rw [Blocks.length_rest]
  omega

/-
One block or two: all of the padding that does not fit is in the block that is full.
-/
theorem padOut_eq (h : pre <+: md5.ctxIn.val) (hlt : pre.length < 64)
    : ∃ md5' pre', md5.padOut pre.length = some md5' ∧ md5'.ctxBits = md5.ctxBits ∧ pre' <+: md5'.ctxIn.val
        ∧ pre'.length = 56
        ∧ ∀ bytes, Blocks.fold 64 compress md5'.ctxBuf (pre' ++ bytes)
            = Blocks.fold 64 compress md5.ctxBuf (pre ++ [0x80] ++ List.replicate (zeros pre.length) 0 ++ bytes) := by
  have hmark : (pre ++ [0x80]).length = pre.length + 1 := List.length_append
  obtain ⟨ctxIn, hfill, hpre⟩ := fill_of_prefix md5 h (show pre.length + [0x80].length ≤ 64 from hlt)
  unfold padOut
  rw [hfill, Option.bind_eq_bind, Option.bind_some]
  dsimp only
  rw [← hmark]
  split
  . next hfew =>
    have hblock : (pre ++ [0x80] ++ List.replicate (64 - 1 - pre.length) 0).length = 64 := by
      rw [List.length_append, List.length_replicate, hmark]
      omega
    have hzeros : zeros pre.length = 64 - 1 - pre.length + 56 := by
      unfold zeros
      omega
    let marked : MD5 := { md5 with ctxIn }
    obtain ⟨ctxIn, hfull, hpre⟩ := fill_of_prefix marked hpre (Nat.le_of_eq (List.length_append ▸ hblock))
    rw [hfull, Option.bind_some, process_of_prefix hpre hblock]
    let full : MD5 :=
      { ctxBuf := compress md5.ctxBuf (pre ++ [0x80] ++ List.replicate (64 - 1 - pre.length) 0)
        ctxBits := md5.ctxBits
        ctxIn }
    have hzero : ([] : List UInt8).length + (List.replicate 56 (0 : UInt8)).length ≤ 64 := by
      rw [List.length_replicate]
      decide
    obtain ⟨ctxIn, hnext, hpre⟩ := fill_of_prefix full List.nil_prefix hzero
    refine ⟨_, _, hnext, rfl, hpre, List.length_replicate, ?_⟩
    intro bytes
    rw [hzeros, List.replicate_add, ← List.append_assoc, List.append_assoc (pre ++ [0x80] ++ _),
      Blocks.fold_append_of_length (by decide) hblock, List.nil_append]
  . next hmany =>
    have hzeros : zeros pre.length = 64 - 1 - pre.length - 8 := by
      unfold zeros
      omega
    have hlen : (pre ++ [0x80] ++ List.replicate (zeros pre.length) 0).length = 56 := by
      rw [List.length_append, List.length_replicate, hmark, hzeros]
      omega
    rw [← hzeros]
    obtain ⟨ctxIn, hfull, hpre⟩ := fill_of_prefix { md5 with ctxIn } hpre
      (Nat.le_trans (Nat.le_of_eq (List.length_append ▸ hlen)) (by decide))
    refine ⟨_, _, hfull, rfl, hpre, hlen, ?_⟩
    intro bytes
    rfl

theorem appendLength_eq (h : pre <+: md5.ctxIn.val) (hlen : pre.length = 56)
    : ∃ md5', md5.appendLength = some md5'
        ∧ md5'.ctxBuf = compress md5.ctxBuf (pre ++ littleEndian 8 (bits md5.ctxBits)) := by
  have hlow : (pre ++ littleEndian 4 md5.ctxBits[0].toNat).length = 60 := by
    rw [List.length_append, length_littleEndian, hlen]
  have hboth : (pre ++ littleEndian 4 md5.ctxBits[0].toNat ++ littleEndian 4 md5.ctxBits[1].toNat).length = 64 := by
    rw [List.length_append, length_littleEndian, hlow]
  obtain ⟨ctxIn, hfirst, hpre⟩ := fill_of_prefix md5 h
    (Nat.le_trans (Nat.le_of_eq (List.length_append ▸ hlow)) (by decide))
  let filled : MD5 := { md5 with ctxIn }
  obtain ⟨ctxIn, hsecond, hpre⟩ := fill_of_prefix filled hpre (Nat.le_of_eq (List.length_append ▸ hboth))
  rw [hlen] at hfirst
  rw [hlow] at hsecond
  unfold appendLength
  rw [hfirst, Option.bind_eq_bind, Option.bind_some, hsecond, Option.bind_some,
    process_of_prefix hpre hboth]
  refine ⟨_, rfl, ?_⟩
  rw [littleEndian_bits, ← List.append_assoc]

theorem finalise_eq (h : pre <+: md5.ctxIn.val) (hlt : pre.length < 64) (hheld : held md5.ctxBits = pre.length)
    : md5.finalise.map Prod.fst = some (output (Blocks.fold 64 compress md5.ctxBuf
        (pre ++ [0x80] ++ List.replicate (zeros pre.length) 0 ++ littleEndian 8 (bits md5.ctxBits)))) := by
  obtain ⟨padded, pre', hpad, hbits, hpre, hlen, hfold⟩ := padOut_eq h hlt
  obtain ⟨done, hdone, hbuf⟩ := appendLength_eq hpre hlen
  have hblock : (pre' ++ littleEndian 8 (bits md5.ctxBits)).length = 64 := by
    rw [List.length_append, length_littleEndian, hlen]
  unfold finalise
  rw [hheld, hpad, Option.bind_eq_bind, Option.bind_some, hdone, Option.bind_some, ← hfold,
    Blocks.fold_of_length (by decide) hblock, ← hbits, ← hbuf]
  rfl

theorem finalise_holds (h : md5.Holds message) : md5.finalise.map Prod.fst = some (digestOf message) := by
  have hzeros : zeros (Blocks.rest 64 message).length = zeros message.length := by
    rw [Blocks.length_rest]
    unfold zeros
    omega
  rw [finalise_eq h.ctxIn (length_rest_lt message) h.held_eq, h.ctxBuf, h.ctxBits, hzeros, List.append_assoc,
    List.append_assoc, ← Blocks.fold_append (by decide)]
  unfold digestOf pad
  rw [List.append_assoc, List.append_assoc]

theorem digest_of_pieces (md5 : MD5)
    : (∀ pieces : List Piece, (pieces.foldlM update md5.initialise >>= finalise).map Prod.fst
          = some (digestOf (pieces.flatMap Piece.bytes)))
      ∧ ∀ text, (md5.sum text).map Prod.fst = some (digestOf text) := by
  refine ⟨?_, ?_⟩
  . intro pieces
    obtain ⟨md5', hupdates, h⟩ := foldlM_update_holds (holds_initialise md5) pieces
    rw [hupdates]
    exact finalise_holds h
  . intro text
    obtain ⟨md5', hchunks, h⟩ := sumChunks_holds (holds_initialise md5) text
    unfold sum
    rw [hchunks]
    exact finalise_holds h

end MD5

end Misc
end ObTools
