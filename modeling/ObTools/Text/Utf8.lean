import Mathlib.Tactic.IntervalCases
import ObTools.Text.Convert

/-!
This module contains the model of `Text::UTF8`, and the proof that decoding undoes encoding, for all characters
of up to 31 bits. A `wchar_t` is a signed 32 bit integer here, given by its bits; it is not negative where it is
shifted.
-/

namespace ObTools
namespace Text
namespace Utf8

-- Some bits of the character, behind a prefix
def bits (unicode leading mask shift : UInt32) : UInt8 :=
  (leading ||| (mask &&& (unicode >>> shift))).toUInt8

-- What is appended to the string
def append (unicode : UInt32) : List UInt8 :=
  let tail := bits unicode 0x80 0x3f
  if unicode.toInt32 < 0x80 then
    [(unicode &&& 0x7f).toUInt8]
  else if unicode.toInt32 < 0x800 then
    [bits unicode 0xc0 0x1f 6, tail 0]
  else if unicode.toInt32 < 0x10000 then
    [bits unicode 0xe0 0x0f 12, tail 6, tail 0]
  else if unicode.toInt32 < 0x200000 then
    [bits unicode 0xf0 0x07 18, tail 12, tail 6, tail 0]
  else if unicode.toInt32 < 0x4000000 then
    [bits unicode 0xf8 0x03 24, tail 18, tail 12, tail 6, tail 0]
  else
    [bits unicode 0xfc 0x01 30, tail 24, tail 18, tail 12, tail 6, tail 0]

def encode (unicode : List UInt32) : List UInt8 := unicode.flatMap append

/-
How many extra characters follow, and the bits of the first one. The character is signed.
-/
def first (p : UInt8) : Nat × UInt32 :=
  let c := p.toInt8.toInt32.toUInt32
  let step (bits : UInt32) (state : Nat × UInt32) : Nat × UInt32 :=
    if c &&& bits = bits then (state.1 + 1, state.2 >>> 1) else state
  let (extra, mask) := if c &&& 0xc0 = 0xc0 then (1, 0x1f) else (0, 0xff)
  let (extra, mask) := step 0xfc (step 0xf8 (step 0xf0 (step 0xe0 (extra, mask))))
  (extra, c &&& mask)

-- Six bits each
def extras (c : UInt32) (s : List UInt8) : UInt32 :=
  s.foldl (fun c p => (c <<< 6) ||| (p.toInt8.toInt32.toUInt32 &&& 0x3f)) c

def decode : List UInt8 → List UInt32
  | [] => []
  | p :: s =>
    let (extra, c) := first p
    -- Running off the end with broken UTF8
    if s.length < extra then
      []
    else
      extras c (s.take extra) :: decode (s.drop extra)
termination_by s => s.length
decreasing_by
  rw [List.length_drop, List.length_cons]
  omega

variable {u : UInt32}

-- A character that is not negative
theorem toInt_toInt32 (h : u.toNat < 2 ^ 31) : u.toInt32.toInt = u.toNat := by
  change u.toBitVec.toInt = u.toNat
  rw [BitVec.toInt_eq_toNat_of_lt]
  . rfl
  . change 2 * u.toNat < 2 ^ 32
    omega

theorem toInt32_lt_iff (h : u.toNat < 2 ^ 31) {k : Nat} (hk : k < 2 ^ 31)
    : u.toInt32 < Int32.ofNat k ↔ u.toNat < k := by
  rw [Int32.lt_iff_toInt_lt, Int32.toInt_ofNat_of_lt hk, toInt_toInt32 h]
  omega

theorem lt_toInt32_iff (h : u.toNat < 2 ^ 31) {k : Nat} (hk : k < 2 ^ 31)
    : Int32.ofNat k < u.toInt32 ↔ k < u.toNat := by
  rw [Int32.lt_iff_toInt_lt, Int32.toInt_ofNat_of_lt hk, toInt_toInt32 h]
  omega

-- `k` bits from bit `i` on
theorem bits_eq (leading k i : Nat) (hlead : 2 ^ k ∣ leading) (hle : leading + 2 ^ k ≤ 256)
    (hi : i < 32)
    : bits u (UInt32.ofNat leading) (UInt32.ofNat (2 ^ k - 1)) (UInt32.ofNat i)
        = UInt8.ofNat (leading + u.toNat / 2 ^ i % 2 ^ k) := by
  obtain ⟨a, ha⟩ := hlead
  have hlt : u.toNat / 2 ^ i % 2 ^ k < 2 ^ k := Nat.mod_lt _ (Nat.two_pow_pos k)
  have h1 : leading < 2 ^ 32 := by omega
  have h2 : 2 ^ k - 1 < 2 ^ 32 := by omega
  have h3 : i < 2 ^ 32 := by omega
  unfold bits
  rw [← UInt8.toNat_inj, UInt32.toNat_toUInt8, UInt32.toNat_or, UInt32.toNat_and,
    UInt32.toNat_shiftRight, UInt32.toNat_ofNat_of_lt' h1, UInt32.toNat_ofNat_of_lt' h2,
    UInt32.toNat_ofNat_of_lt' h3, Nat.mod_eq_of_lt hi, Nat.shiftRight_eq_div_pow, Nat.and_comm,
    Nat.and_two_pow_sub_one_eq_mod, ha, ← Nat.two_pow_add_eq_or_of_lt hlt, UInt8.toNat_ofNat']

/-
The six lengths of a character, by the number of bytes behind the first one.
-/

-- The prefix of the first byte, and the number of bits behind it
def lead (k : Nat) : Nat := [0, 0xc0, 0xe0, 0xf0, 0xf8, 0xfc].getD k 0

def width (k : Nat) : Nat := [7, 5, 4, 3, 2, 1].getD k 0

structure HasExtra (v k : Nat) : Prop where
  le : k ≤ 5
  lt : v < 2 ^ (width k + 6 * k)
  ge : k ≠ 0 → 2 ^ (width (k - 1) + 6 * (k - 1)) ≤ v

theorem exists_hasExtra {v : Nat} (hv : v < 2 ^ 31) : ∃ k, HasExtra v k := by
  by_cases h0 : v < 2 ^ 7
  . exact ⟨0, by decide, h0, fun h => absurd rfl h⟩
  . by_cases h1 : v < 2 ^ 11
    . exact ⟨1, by decide, h1, fun _ => Nat.le_of_not_lt h0⟩
    . by_cases h2 : v < 2 ^ 16
      . exact ⟨2, by decide, h2, fun _ => Nat.le_of_not_lt h1⟩
      . by_cases h3 : v < 2 ^ 21
        . exact ⟨3, by decide, h3, fun _ => Nat.le_of_not_lt h2⟩
        . by_cases h4 : v < 2 ^ 26
          . exact ⟨4, by decide, h4, fun _ => Nat.le_of_not_lt h3⟩
          . exact ⟨5, by decide, hv, fun _ => Nat.le_of_not_lt h4⟩

-- The bytes behind the first one, with six bits each
def tails (v : Nat) : Nat → List UInt8
  | 0 => []
  | k + 1 => UInt8.ofNat (0x80 + v / 2 ^ (6 * k) % 64) :: tails v k

theorem length_tails (v k : Nat) : (tails v k).length = k := by
  induction k with
  | zero => rfl
  | succ k ih => rw [tails, List.length_cons, ih]

theorem first_lead : ∀ k : Fin 6, ∀ y : Fin 128, (y : Nat) < 2 ^ width k →
    first (UInt8.ofNat (lead k + y)) = ((k : Nat), UInt32.ofNat y) := by
  decide

theorem tail_bits
    : ∀ z : Fin 64,
        (UInt8.ofNat (0x80 + z)).toInt8.toInt32.toUInt32 &&& 0x3f = UInt32.ofNat z := by
  decide

theorem extras_cons (c : UInt32) (s : List UInt8) (z : Nat) (hz : z < 64)
    (hc : c.toNat * 64 + z < 2 ^ 32)
    : extras c (UInt8.ofNat (0x80 + z) :: s) = extras (UInt32.ofNat (c.toNat * 64 + z)) s := by
  unfold extras
  rw [List.foldl_cons]
  congr 1
  have hz' : z < 2 ^ 32 := by omega
  rw [tail_bits ⟨z, hz⟩, ← UInt32.toNat_inj, UInt32.toNat_or, UInt32.toNat_shiftLeft,
    UInt32.toNat_ofNat_of_lt' hz', UInt32.toNat_ofNat_of_lt' hc]
  have hshift : c.toNat <<< (UInt32.toNat 6 % 32) % 2 ^ 32 = c.toNat <<< 6 := by
    rw [Nat.mod_eq_of_lt]
    . rfl
    . change c.toNat <<< 6 < 2 ^ 32
      rw [Nat.shiftLeft_eq]
      omega
  rw [hshift]
  have := Nat.shiftLeft_add_eq_or_of_lt (b := z) (i := 6) (by omega) c.toNat
  rw [← this, Nat.shiftLeft_eq]

theorem decode_cons (p : UInt8) (s : List UInt8)
    : decode (p :: s)
        =
      if s.length < (first p).1 then
        []
      else
        extras (first p).2 (s.take (first p).1) :: decode (s.drop (first p).1) := by
  rw [decode]

theorem extras_tails {v : Nat} (hv : v < 2 ^ 32) (k : Nat)
    : extras (UInt32.ofNat (v / 2 ^ (6 * k))) (tails v k) = UInt32.ofNat v := by
  induction k with
  | zero =>
    rw [Nat.mul_zero, Nat.pow_zero, Nat.div_one]
    rfl
  | succ k ih =>
    have hstep : v / 2 ^ (6 * (k + 1)) * 64 + v / 2 ^ (6 * k) % 64 = v / 2 ^ (6 * k) := by
      rw [Nat.mul_add, Nat.pow_add, ← Nat.div_div_eq_div_mul]
      exact Nat.div_add_mod' _ _
    have hle : v / 2 ^ (6 * k) ≤ v := Nat.div_le_self _ _
    have hc : (UInt32.ofNat (v / 2 ^ (6 * (k + 1)))).toNat = v / 2 ^ (6 * (k + 1)) :=
      UInt32.toNat_ofNat_of_lt' (Nat.lt_of_le_of_lt (Nat.div_le_self _ _) hv)
    rw [tails, extras_cons _ _ _ (Nat.mod_lt _ (by decide)) (by omega), hc, hstep, ih]

section Append

theorem bits_tail (k : Nat) (hk : 6 * k < 32)
    : bits u 0x80 0x3f (UInt32.ofNat (6 * k)) = UInt8.ofNat (0x80 + u.toNat / 2 ^ (6 * k) % 64) :=
  bits_eq 0x80 6 (6 * k) (by decide) (by decide) hk

-- All bits in front of those of the bytes behind
theorem bits_lead {leading w k : Nat} (hlead : 2 ^ w ∣ leading) (hle : leading + 2 ^ w ≤ 256) (hk : 6 * k < 32)
    (hlt : u.toNat < 2 ^ (w + 6 * k))
    : bits u (UInt32.ofNat leading) (UInt32.ofNat (2 ^ w - 1)) (UInt32.ofNat (6 * k))
        = UInt8.ofNat (leading + u.toNat / 2 ^ (6 * k)) := by
  rw [bits_eq leading w (6 * k) hlead hle hk, Nat.mod_eq_of_lt]
  apply Nat.div_lt_of_lt_mul
  rw [← Nat.pow_add, Nat.add_comm]
  exact hlt

theorem HasExtra.lt_two_pow {v k : Nat} (h : HasExtra v k) : v < 2 ^ 31 := by
  obtain ⟨hle, hlt, -⟩ := h
  apply Nat.lt_of_lt_of_le hlt
  apply Nat.pow_le_pow_right (by decide)
  interval_cases k <;> decide

theorem append_one (h : u.toNat < 0x80) : append u = [UInt8.ofNat u.toNat] := by
  have h1 : u.toInt32 < 0x80 := (toInt32_lt_iff (by omega) (by decide)).mpr h
  unfold append
  dsimp only
  rw [if_pos h1, List.cons.injEq, ← UInt8.toNat_inj, UInt32.toNat_toUInt8, UInt32.toNat_and]
  refine ⟨?_, rfl⟩
  change (u.toNat &&& (2 ^ 7 - 1)) % 256 = _
  rw [Nat.and_two_pow_sub_one_eq_mod, UInt8.toNat_ofNat', Nat.mod_eq_of_lt h]

-- The comparisons with the limits, and the bytes behind the first one
theorem append_parts (h31 : u.toNat < 2 ^ 31)
    : append u
        =
      if u.toNat < 2 ^ 7 then
        [UInt8.ofNat u.toNat]
      else if u.toNat < 2 ^ 11 then
        bits u 0xc0 0x1f 6 :: tails u.toNat 1
      else if u.toNat < 2 ^ 16 then
        bits u 0xe0 0x0f 12 :: tails u.toNat 2
      else if u.toNat < 2 ^ 21 then
        bits u 0xf0 0x07 18 :: tails u.toNat 3
      else if u.toNat < 2 ^ 26 then
        bits u 0xf8 0x03 24 :: tails u.toNat 4
      else
        bits u 0xfc 0x01 30 :: tails u.toNat 5 := by
  have h1 : u.toInt32 < 0x80 ↔ u.toNat < 2 ^ 7 := toInt32_lt_iff h31 (by decide)
  have h2 : u.toInt32 < 0x800 ↔ u.toNat < 2 ^ 11 := toInt32_lt_iff h31 (by decide)
  have h3 : u.toInt32 < 0x10000 ↔ u.toNat < 2 ^ 16 := toInt32_lt_iff h31 (by decide)
  have h4 : u.toInt32 < 0x200000 ↔ u.toNat < 2 ^ 21 := toInt32_lt_iff h31 (by decide)
  have h5 : u.toInt32 < 0x4000000 ↔ u.toNat < 2 ^ 26 := toInt32_lt_iff h31 (by decide)
  have hlow : bits u 0x80 0x3f 0 = UInt8.ofNat (0x80 + u.toNat / 2 ^ (6 * 0) % 64) := bits_tail 0 (by decide)
  have hmid : bits u 0x80 0x3f 6 = UInt8.ofNat (0x80 + u.toNat / 2 ^ (6 * 1) % 64) := bits_tail 1 (by decide)
  have h12 : bits u 0x80 0x3f 12 = UInt8.ofNat (0x80 + u.toNat / 2 ^ (6 * 2) % 64) := bits_tail 2 (by decide)
  have h18 : bits u 0x80 0x3f 18 = UInt8.ofNat (0x80 + u.toNat / 2 ^ (6 * 3) % 64) := bits_tail 3 (by decide)
  have h24 : bits u 0x80 0x3f 24 = UInt8.ofNat (0x80 + u.toNat / 2 ^ (6 * 4) % 64) := bits_tail 4 (by decide)
  unfold append
  dsimp only
  rw [hlow, hmid, h12, h18, h24]
  simp only [h2, h3, h4, h5]
  split
  . next hlt =>
    rw [if_pos (h1.mp hlt), ← append_one (h1.mp hlt)]
    unfold append
    rw [if_pos hlt]
  . next hge =>
    rw [if_neg (mt h1.mpr hge)]
    rfl

theorem append_eq {k : Nat} (h : HasExtra u.toNat k)
    : append u = UInt8.ofNat (lead k + u.toNat / 2 ^ (6 * k)) :: tails u.toNat k := by
  rw [append_parts h.lt_two_pow]
  obtain ⟨hle, hlt, hge⟩ := h
  obtain rfl | rfl | rfl | rfl | rfl | rfl : k = 0 ∨ k = 1 ∨ k = 2 ∨ k = 3 ∨ k = 4 ∨ k = 5 := by omega
  . change u.toNat < 2 ^ 7 at hlt
    rw [if_pos hlt, Nat.mul_zero, Nat.pow_zero, Nat.div_one]
    change _ = [UInt8.ofNat (0 + u.toNat)]
    rw [Nat.zero_add]
  . change u.toNat < 2 ^ 11 at hlt
    have hge : 2 ^ 7 ≤ u.toNat := hge (by decide)
    rw [if_neg (by omega), if_pos hlt]
    exact congrArg (· :: tails u.toNat 1) (@bits_lead u 0xc0 5 1 (by decide) (by decide) (by decide) hlt)
  . change u.toNat < 2 ^ 16 at hlt
    have hge : 2 ^ 11 ≤ u.toNat := hge (by decide)
    rw [if_neg (by omega), if_neg (by omega), if_pos hlt]
    exact congrArg (· :: tails u.toNat 2) (@bits_lead u 0xe0 4 2 (by decide) (by decide) (by decide) hlt)
  . change u.toNat < 2 ^ 21 at hlt
    have hge : 2 ^ 16 ≤ u.toNat := hge (by decide)
    rw [if_neg (by omega), if_neg (by omega), if_neg (by omega), if_pos hlt]
    exact congrArg (· :: tails u.toNat 3) (@bits_lead u 0xf0 3 3 (by decide) (by decide) (by decide) hlt)
  . change u.toNat < 2 ^ 26 at hlt
    have hge : 2 ^ 21 ≤ u.toNat := hge (by decide)
    rw [if_neg (by omega), if_neg (by omega), if_neg (by omega), if_neg (by omega), if_pos hlt]
    exact congrArg (· :: tails u.toNat 4) (@bits_lead u 0xf8 2 4 (by decide) (by decide) (by decide) hlt)
  . change u.toNat < 2 ^ 31 at hlt
    have hge : 2 ^ 26 ≤ u.toNat := hge (by decide)
    rw [if_neg (by omega), if_neg (by omega), if_neg (by omega), if_neg (by omega), if_neg (by omega)]
    exact congrArg (· :: tails u.toNat 5) (@bits_lead u 0xfc 1 5 (by decide) (by decide) (by decide) hlt)

theorem append_two (hge : 0x80 ≤ u.toNat) (hlt : u.toNat < 0x800)
    : append u = [UInt8.ofNat (0xc0 + u.toNat / 64), UInt8.ofNat (0x80 + u.toNat % 64)] := by
  have hextra : HasExtra u.toNat 1 := ⟨by decide, hlt, fun _ => hge⟩
  rw [append_eq hextra, tails, tails, Nat.mul_zero, Nat.pow_zero, Nat.div_one]
  rfl

theorem append_three (hge : 0x800 ≤ u.toNat) (hlt : u.toNat < 0x10000)
    : append u
        =
      [UInt8.ofNat (0xe0 + u.toNat / 4096), UInt8.ofNat (0x80 + u.toNat / 64 % 64),
        UInt8.ofNat (0x80 + u.toNat % 64)] := by
  have hextra : HasExtra u.toNat 2 := ⟨by decide, hlt, fun _ => hge⟩
  rw [append_eq hextra, tails, tails, tails, Nat.mul_zero, Nat.pow_zero, Nat.div_one]
  rfl

end Append

/--
A character in front of a string, with up to 31 bits.
-/
theorem decode_append (h : u.toNat < 2 ^ 31) (s : List UInt8) : decode (append u ++ s) = u :: decode s := by
  obtain ⟨k, hextra⟩ := exists_hasExtra h
  have hwidth : width k ≤ 7 := by
    have hle := hextra.le
    unfold width
    interval_cases k <;> decide
  have hlt : u.toNat / 2 ^ (6 * k) < 2 ^ width k := by
    apply Nat.div_lt_of_lt_mul
    rw [← Nat.pow_add, Nat.add_comm]
    exact hextra.lt
  have hlt128 : u.toNat / 2 ^ (6 * k) < 128 := Nat.lt_of_lt_of_le hlt (Nat.pow_le_pow_right (by decide) hwidth)
  have hfirst := first_lead ⟨k, Nat.lt_succ_of_le hextra.le⟩ ⟨_, hlt128⟩ hlt
  have hlength : ¬(tails u.toNat k ++ s).length < k := by
    rw [List.length_append, length_tails]
    omega
  rw [append_eq hextra, List.cons_append, decode_cons, hfirst]
  dsimp only
  rw [if_neg hlength, List.take_left' (length_tails _ _), List.drop_left' (length_tails _ _),
    extras_tails (by omega), UInt32.ofNat_toNat]

theorem decode_encode_append {l : List UInt32} (h : ∀ u ∈ l, u.toNat < 2 ^ 31) (s : List UInt8)
    : decode (encode l ++ s) = l ++ decode s := by
  unfold encode
  induction l with
  | nil => rfl
  | cons u l ih =>
    rw [List.forall_mem_cons] at h
    rw [List.flatMap_cons, List.append_assoc, decode_append h.1, ih h.2]
    rfl

/--
Decoding undoes encoding.
-/
theorem decode_encode_utf8 (l : List UInt32) (h : ∀ u ∈ l, u.toNat ≤ 0x7fffffff) : decode (encode l) = l := by
  have happend := decode_encode_append (fun u hu => Nat.lt_succ_of_le (h u hu)) []
  rw [List.append_nil, decode, List.append_nil] at happend
  exact happend

-- The first and the last character of each length
def limits : List UInt32 :=
  [0, 0x7f, 0x80, 0x7ff, 0x800, 0xffff, 0x10000, 0x1fffff, 0x200000, 0x3ffffff, 0x4000000, 0x7fffffff]

theorem decode_encode_utf8_limits : decode (encode limits) = limits := by
  have hall : limits.all (fun u => u.toNat ≤ 0x7fffffff) = true := by decide
  apply decode_encode_utf8
  intro u hu
  exact of_decide_eq_true (List.all_eq_true.mp hall u hu)

end Utf8
end Text
end ObTools
