import ObTools.Channel.Bits
import ObTools.Lib.Bits

/-!
This module contains the model of `Channel::BitEGReader`, and the proof of which codes it reads. What the
language leaves undefined (a counter that overflows, a shift by the width of an `int`) gives no result.
-/

namespace ObTools
namespace Channel
namespace BitEGReader

open BitReader

variable {σ : Type} (basicRead : BasicRead σ)

-- `while (!read_bit()) len++`
def countZeros (len : Nat) (r : BitReader σ) : Option (Except Error (Nat × BitReader σ)) :=
  match readBit basicRead r with
  | .error e => some (.error e)
  | .ok (bit, r) =>
    if bit = 0 then
      if len + 1 < 2 ^ 31 then countZeros (len + 1) r else none
    else
      some (.ok (len, r))
termination_by 2 ^ 31 - len

-- `value += read_bit() << (i - 1)`, for `i` down to one
def addBits : Nat → BitVec 32 → BitReader σ → Option (Except Error (BitVec 32 × BitReader σ))
  | 0, value, r => some (.ok (value, r))
  | i + 1, value, r =>
    match readBit basicRead r with
    | .error e => some (.error e)
    | .ok (bit, r) => if i < 32 then addBits i (value + bit <<< i) r else none

/-
With a length of 31 the shift gives the smallest `int`, of which nothing can be subtracted.
-/
def readExpGolomb (r : BitReader σ) : Option (Except Error (BitVec 32 × BitReader σ)) :=
  match countZeros basicRead 0 r with
  | none => none
  | some (.error e) => some (.error e)
  | some (.ok (len, r)) =>
    match addBits basicRead len 0 r with
    | none => none
    | some (.error e) => some (.error e)
    | some (.ok (value, r)) => if len < 31 then some (.ok (value + ((1 : BitVec 32) <<< len - 1), r)) else none

end BitEGReader

namespace BitEGReader

open BitReader ExpGolomb

variable {σ : Type} {basicRead : BasicRead σ} {data : σ → List UInt8} {r : BitReader σ} {rest : List Bool}
  {k n : Nat}

theorem countZeros_cons (h : Lawful basicRead data) (hr : r.Valid) {b : Bool}
    (hpending : r.pending data = b :: rest) (len : Nat)
    : ∃ r',
        countZeros basicRead len r
            = (if b then some (.ok (len, r'))
              else if len + 1 < 2 ^ 31 then countZeros basicRead (len + 1) r' else none)
          ∧
        r'.Valid ∧ r'.pending data = rest := by
  obtain ⟨bit, r', hread, hbit, hr', hrest⟩ := readBit_spec h hr hpending
  refine ⟨r', ?_, hr', hrest⟩
  conv_lhs => unfold countZeros
  rw [hread]
  dsimp only
  cases b with
  | true => rw [if_neg (by rw [bit_eq_zero_iff hbit]; decide), if_pos rfl]
  | false => rw [if_pos ((bit_eq_zero_iff hbit).mpr rfl), if_neg Bool.false_ne_true]

theorem countZeros_nil (h : Lawful basicRead data) (hpending : r.pending data = []) (len : Nat)
    : ∃ e, countZeros basicRead len r = some (.error e) := by
  obtain ⟨e, hread⟩ := readBit_nil h hpending
  unfold countZeros
  rw [hread]
  exact ⟨e, rfl⟩

theorem countZeros_one (h : Lawful basicRead data) (hr : r.Valid)
    (hpending : r.pending data = List.replicate k false ++ true :: rest) {len : Nat}
    (hlen : len + k < 2 ^ 31)
    : ∃ r',
        countZeros basicRead len r = some (.ok (len + k, r')) ∧ r'.Valid ∧ r'.pending data = rest := by
  induction k generalizing r len with
  | zero =>
    obtain ⟨r', hstep, hr', hrest⟩ := countZeros_cons h hr hpending len
    exact ⟨r', hstep, hr', hrest⟩
  | succ k ih =>
    obtain ⟨r', hstep, hr', hrest⟩ := countZeros_cons h hr hpending len
    have hlen' : len + 1 + k < 2 ^ 31 := by omega
    obtain ⟨r'', hcount, hr'', hrest'⟩ := ih hr' hrest hlen'
    refine ⟨r'', ?_, hr'', hrest'⟩
    rw [hstep, if_neg Bool.false_ne_true, if_pos (by omega), hcount, Nat.add_right_comm, Nat.add_assoc]

theorem countZeros_end (h : Lawful basicRead data) (hr : r.Valid)
    (hpending : r.pending data = List.replicate k false) {len : Nat} (hlen : len + k < 2 ^ 31)
    : ∃ e, countZeros basicRead len r = some (.error e) := by
  induction k generalizing r len with
  | zero => exact countZeros_nil h hpending len
  | succ k ih =>
    obtain ⟨r', hstep, hr', hrest⟩ := countZeros_cons h hr hpending len
    have hlen' : len + 1 + k < 2 ^ 31 := by omega
    obtain ⟨e, hcount⟩ := ih hr' hrest hlen'
    refine ⟨e, ?_⟩
    rw [hstep, if_neg Bool.false_ne_true, if_pos (by omega), hcount]

theorem countZeros_overflow (h : Lawful basicRead data) (hr : r.Valid)
    (hpending : r.pending data = List.replicate k false ++ rest) {len : Nat} (hlt : len < 2 ^ 31)
    (hlen : 2 ^ 31 ≤ len + k)
    : countZeros basicRead len r = none := by
  induction k generalizing r len with
  | zero => omega
  | succ k ih =>
    obtain ⟨r', hstep, hr', hrest⟩ := countZeros_cons h hr hpending len
    rw [hstep, if_neg Bool.false_ne_true]
    split
    . next hnext => exact ih hr' hrest hnext (by omega)
    . rfl

theorem add_shift_toNat {value bit : BitVec 32} {b : Bool} (hbit : bit.toNat = b.toNat)
    (hlt : value.toNat + 2 ^ (n + 1) ≤ 2 ^ 32)
    : (value + bit <<< n).toNat = value.toNat + b.toNat * 2 ^ n := by
  have hb := b.toNat_lt
  have hpow : 2 ^ (n + 1) = 2 ^ n * 2 := Nat.pow_succ 2 n
  have hle : b.toNat * 2 ^ n ≤ 1 * 2 ^ n := Nat.mul_le_mul_right _ (by omega)
  have hpos := Nat.two_pow_pos n
  rw [BitVec.toNat_add, BitVec.toNat_shiftLeft, hbit, Nat.shiftLeft_eq]
  rw [Nat.mod_eq_of_lt (show b.toNat * 2 ^ n < 2 ^ 32 by omega)]
  apply Nat.mod_eq_of_lt
  omega

theorem addBits_cons (h : Lawful basicRead data) (hr : r.Valid) {b : Bool}
    (hpending : r.pending data = b :: rest) (n : Nat) (value : BitVec 32)
    : ∃ (bit : BitVec 32) (r' : BitReader σ),
        addBits basicRead (n + 1) value r
            = (if n < 32 then addBits basicRead n (value + bit <<< n) r' else none)
          ∧
        bit.toNat = b.toNat ∧ r'.Valid ∧ r'.pending data = rest := by
  obtain ⟨bit, r', hread, hbit, hr', hrest⟩ := readBit_spec h hr hpending
  refine ⟨bit, r', ?_, hbit, hr', hrest⟩
  conv_lhs => unfold addBits
  rw [hread]

theorem addBits_none (h : Lawful basicRead data) (value : BitVec 32) (hpending : r.pending data = [])
    (hn : 0 < n)
    : ∃ e, addBits basicRead n value r = some (.error e) := by
  obtain ⟨e, hread⟩ := readBit_nil h hpending
  obtain ⟨i, rfl⟩ := Nat.exists_eq_add_of_lt hn
  unfold addBits
  rw [hread]
  exact ⟨e, rfl⟩

theorem addBits_suffix (h : Lawful basicRead data) (hr : r.Valid) {suffix : List Bool} {value : BitVec 32}
    (hpending : r.pending data = suffix ++ rest) (hlt : value.toNat + 2 ^ suffix.length ≤ 2 ^ 32)
    : ∃ value' r',
        addBits basicRead suffix.length value r = some (.ok (value', r'))
          ∧
        value'.toNat = value.toNat + Bits.toNat suffix
          ∧
        r'.Valid ∧ r'.pending data = rest := by
  induction suffix generalizing r value with
  | nil => exact ⟨value, r, rfl, rfl, hr, hpending⟩
  | cons b suffix ih =>
    obtain ⟨bit, r', hstep, hbit, hr', hrest⟩ := addBits_cons h hr hpending suffix.length value
    rw [List.length_cons] at hlt ⊢
    have hnext := add_shift_toNat hbit hlt
    have hpow : 2 ^ (suffix.length + 1) = 2 ^ suffix.length * 2 := Nat.pow_succ 2 _
    have hb := b.toNat_lt
    have hle : b.toNat * 2 ^ suffix.length ≤ 1 * 2 ^ suffix.length := Nat.mul_le_mul_right _ (by omega)
    have hlt' : (value + bit <<< suffix.length).toNat + 2 ^ suffix.length ≤ 2 ^ 32 := by omega
    obtain ⟨value', r'', hadd, hvalue, hr'', hrest'⟩ := ih hr' hrest hlt'
    have hwidth : suffix.length < 32 := by
      have : 2 ^ suffix.length < 2 ^ 32 := by
        have := Nat.two_pow_pos suffix.length
        omega
      exact (Nat.pow_lt_pow_iff_right (by omega)).mp this
    refine ⟨value', r'', ?_, ?_, hr'', hrest'⟩
    . rw [hstep, if_pos hwidth, hadd]
    . rw [hvalue, hnext, Bits.toNat_cons]
      omega

theorem addBits_end (h : Lawful basicRead data) (hr : r.Valid) {bits : List Bool} (value : BitVec 32)
    (hpending : r.pending data = bits) (hlt : bits.length < n) (hn : n ≤ 32)
    : ∃ e, addBits basicRead n value r = some (.error e) := by
  induction bits generalizing r value n with
  | nil => exact addBits_none h value hpending hlt
  | cons b bits ih =>
    rw [List.length_cons] at hlt
    cases n with
    | zero => contradiction
    | succ n =>
      obtain ⟨bit, r', hstep, -, hr', hrest⟩ := addBits_cons h hr hpending n value
      rw [hstep, if_pos (by omega)]
      exact ih hr' _ hrest (by omega) (by omega)

-- A shift by the width of the type or more
theorem addBits_shift (h : Lawful basicRead data) (hr : r.Valid) {value : BitVec 32} {b : Bool}
    (hpending : r.pending data = b :: rest) (hn : 32 < n)
    : addBits basicRead n value r = none := by
  cases n with
  | zero => contradiction
  | succ n =>
    obtain ⟨bit, r', hstep, -⟩ := addBits_cons h hr hpending n value
    rw [hstep, if_neg (by omega)]

/-
What is there is the code of a value, or no code at all and the end of the data is reached.
-/
def Decodes (data : σ → List UInt8) (r : BitReader σ)
    : Option (Except Error (BitVec 32 × BitReader σ)) → Prop
  | none => False
  | some (.error _) => ¬∃ value rest suffix, IsCode (r.pending data) value rest suffix
  | some (.ok (value, r')) => ∃ suffix, IsCode (r.pending data) value.toNat (r'.pending data) suffix

/-
The zeros can be counted, and either there are less than 31 of them or the data ends before the bits
behind the one are shifted too far or the power of two is needed.
-/
def InRange (bits : List Bool) : Prop :=
  leadingZeros bits < 2 ^ 31
    ∧
  (leadingZeros bits ≤ 30 ∨ (behind bits < leadingZeros bits ∧ (leadingZeros bits ≤ 32 ∨ behind bits = 0)))

instance (bits : List Bool) : Decidable (InRange bits) := inferInstanceAs (Decidable (_ ∧ _))

theorem no_code_of_zeros {bits : List Bool} (h : bits = List.replicate (leadingZeros bits) false)
    : ¬∃ value rest suffix, IsCode bits value rest suffix := by
  rintro ⟨value, rest, suffix, hcode⟩
  have hlength := congrArg List.length h
  rw [List.length_replicate] at hlength
  exact Nat.ne_of_lt hcode.le_behind.1 hlength.symm

theorem no_code_of_short {bits : List Bool} (h : behind bits < leadingZeros bits)
    : ¬∃ value rest suffix, IsCode bits value rest suffix := by
  rintro ⟨value, rest, suffix, hcode⟩
  exact Nat.not_lt.mpr hcode.le_behind.2 h

theorem mask_toNat (h : k ≤ 30) : ((1 : BitVec 32) <<< k - 1).toNat = 2 ^ k - 1 := by
  have hpos := Nat.two_pow_pos k
  have hle : 2 ^ k ≤ 2 ^ 30 := Nat.pow_le_pow_right (by omega) h
  have hone : ((1 : BitVec 32) <<< k).toNat = 2 ^ k := by
    rw [BitVec.toNat_shiftLeft, Nat.shiftLeft_eq]
    show 1 * 2 ^ k % 2 ^ 32 = 2 ^ k
    omega
  rw [BitVec.toNat_sub, hone]
  show (2 ^ 32 - 1 + 2 ^ k) % 2 ^ 32 = 2 ^ k - 1
  omega

/--
All there is are zeros.
-/
theorem zeros_iff (h : Lawful basicRead data) (hr : r.Valid)
    (hzeros : r.pending data = List.replicate (leadingZeros (r.pending data)) false)
    : Decodes data r (readExpGolomb basicRead r) ↔ InRange (r.pending data) := by
  have hno := no_code_of_zeros hzeros
  have hbehind : behind (r.pending data) = 0 := by
    have hlength := congrArg List.length hzeros
    rw [List.length_replicate] at hlength
    unfold behind
    omega
  unfold InRange
  rw [hbehind]
  generalize leadingZeros (r.pending data) = k at hzeros
  unfold readExpGolomb
  by_cases hk : k < 2 ^ 31
  . have hcounted : 0 + k < 2 ^ 31 := by omega
    obtain ⟨e, hcount⟩ := countZeros_end h hr hzeros hcounted
    rw [hcount]
    apply iff_of_true
    . exact hno
    . omega
  . rw [← List.append_nil (List.replicate k false)] at hzeros
    rw [countZeros_overflow h hr hzeros (by omega) (by omega)]
    exact iff_of_false id (fun hrange => hk hrange.1)

/--
There is a one behind the zeros.
-/
theorem one_iff (h : Lawful basicRead data) (hr : r.Valid)
    (hone : r.pending data = List.replicate k false ++ true :: rest)
    : Decodes data r (readExpGolomb basicRead r) ↔ InRange (r.pending data) := by
  have hzeros : leadingZeros (r.pending data) = k := by
    rw [hone, leadingZeros_replicate_append]
  have hbehind : behind (r.pending data) = rest.length := by
    rw [hone, behind_replicate_append]
  have hshort := @no_code_of_short (r.pending data)
  unfold InRange
  rw [hzeros, hbehind] at *
  unfold readExpGolomb
  by_cases hk : k < 2 ^ 31
  . have hcounted : 0 + k < 2 ^ 31 := by omega
    obtain ⟨r1, hcount, hr1, hrest⟩ := countZeros_one h hr hone hcounted
    rw [hcount, Nat.zero_add]
    dsimp only
    by_cases hlast : rest.length < k
    . -- The data ends, but a shift may come first.
      by_cases hfew : k ≤ 32
      . obtain ⟨e, hadd⟩ := addBits_end h hr1 0 hrest hlast hfew
        rw [hadd]
        apply iff_of_true
        . exact hshort hlast
        . omega
      . cases rest with
        | nil =>
          obtain ⟨e, hadd⟩ := addBits_none h 0 hrest (Nat.zero_lt_of_lt hlast)
          rw [hadd]
          apply iff_of_true
          . exact hshort hlast
          . exact ⟨hk, .inr ⟨hlast, .inr rfl⟩⟩
        | cons b rest =>
          rw [addBits_shift h hr1 hrest (by omega)]
          apply iff_of_false id
          rw [List.length_cons]
          omega
    . -- All bits are there.
      obtain ⟨suffix, rest', rfl, hlength⟩ : ∃ suffix rest', rest = suffix ++ rest' ∧ suffix.length = k := by
        refine ⟨rest.take k, rest.drop k, (List.take_append_drop k rest).symm, ?_⟩
        rw [List.length_take]
        omega
      by_cases hfew : k ≤ 32
      . have hroom : (0 : BitVec 32).toNat + 2 ^ suffix.length ≤ 2 ^ 32 := by
          rw [hlength, show (0 : BitVec 32).toNat = 0 from rfl, Nat.zero_add]
          exact Nat.pow_le_pow_right (by omega) hfew
        obtain ⟨value, r2, hadd, hvalue, hr2, hrest2⟩ := addBits_suffix h hr1 hrest hroom
        rw [hlength] at hadd
        rw [hadd]
        dsimp only
        split
        . next hlt =>
          apply iff_of_true
          . refine ⟨suffix, ?_, ?_⟩
            . rw [hone, hlength, hrest2]
            . have hsuffix := Bits.toNat_lt suffix
              rw [hlength] at hsuffix ⊢
              have hle : 2 ^ k ≤ 2 ^ 30 := Nat.pow_le_pow_right (by omega) (by omega)
              rw [BitVec.toNat_add, mask_toNat (by omega), hvalue]
              have hzero : (0 : BitVec 32).toNat = 0 := rfl
              omega
          . omega
        . apply iff_of_false id
          omega
      . cases suffix with
        | nil =>
          rw [List.length_nil] at hlength
          omega
        | cons b suffix =>
          rw [addBits_shift h hr1 hrest (by omega)]
          apply iff_of_false id
          omega
  . rw [countZeros_overflow h hr hone (by omega) (by omega)]
    exact iff_of_false id (fun hrange => hk hrange.1)

/--
A code is decoded exactly, or found to be cut off, if and only if the bits are in range.
-/
theorem readExpGolomb_iff (h : Lawful basicRead data) (hr : r.Valid)
    : Decodes data r (readExpGolomb basicRead r) ↔ InRange (r.pending data) := by
  rcases ExpGolomb.cases (r.pending data) with hzeros | ⟨rest, hone⟩
  . exact zeros_iff h hr hzeros
  . exact one_iff h hr hone

theorem readExpGolomb_iff_three
    : Decodes StringReader.rest (BitReader.new (StringReader.new [0x20]))
        (readExpGolomb StringReader.basicRead (BitReader.new (StringReader.new [0x20]))) :=
  (readExpGolomb_iff StringReader.lawful (BitReader.valid_new _)).mpr (by decide)

/--
With 32 zeros the one is shifted by the width of an `int`.
-/
theorem not_readExpGolomb
    : ¬Decodes StringReader.rest (BitReader.new (StringReader.new [0, 0, 0, 0, 0x80, 0, 0, 0, 0]))
        (readExpGolomb StringReader.basicRead
          (BitReader.new (StringReader.new [0, 0, 0, 0, 0x80, 0, 0, 0, 0]))) := by
  have hone : (BitReader.new (StringReader.new [0, 0, 0, 0, 0x80, 0, 0, 0, 0])).pending StringReader.rest
      = List.replicate 32 false ++ true :: List.replicate 39 false := by decide
  rw [one_iff StringReader.lawful (BitReader.valid_new _) hone, hone]
  decide

end BitEGReader
end Channel
end ObTools
