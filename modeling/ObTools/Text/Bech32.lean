import Mathlib.Tactic.IntervalCases
import ObTools.Lib.Digits

/-!
This module contains the model of `Text::Bech32`, with the shifts of `Gen` in either direction, and the proof that
decoding undoes encoding, with which failures leave the output alone.
-/

namespace ObTools

namespace Gen

-- Bit shift a value in a direction based on sign of value
def shiftr (value : UInt8) (places : Int) : UInt8 :=
  if 0 ≤ places then
    UInt8.ofNat (value.toNat >>> places.toNat)
  else
    UInt8.ofNat (value.toNat <<< places.natAbs)

def shiftl (value : UInt8) (places : Int) : UInt8 :=
  if 0 ≤ places then
    UInt8.ofNat (value.toNat <<< places.toNat)
  else
    UInt8.ofNat (value.toNat >>> places.natAbs)

end Gen

namespace Text
namespace Bech32

-- Encoding alphabet
def data : List (UInt8 × UInt8) :=
  [(0, 113), (1, 112), (2, 122), (3, 114), (4, 121), (5, 57), (6, 120), (7, 56), (8, 103), (9, 102), (10, 50), (11, 116),
    (12, 118), (13, 100), (14, 119), (15, 48), (16, 115), (17, 51), (18, 106), (19, 110), (20, 53), (21, 52), (22, 107),
    (23, 104), (24, 99), (25, 101), (26, 54), (27, 109), (28, 117), (29, 97), (30, 55), (31, 108)]

-- `none` where there is a range error
def lookup (key : UInt8) : Option UInt8 := (data.find? fun d => d.1 = key).map Prod.snd

def reverseLookup (value : UInt8) : Option UInt8 := (data.find? fun d => d.2 = value).map Prod.fst

-- The five bits from a position on
def numAt (binary : List UInt8) (bitpos : Nat) : UInt8 :=
  let next :=
    if 3 < bitpos % 8 ∧ 1 + bitpos / 8 < binary.length then
      (binary.getD (1 + bitpos / 8) 0).toNat >>> (11 - bitpos % 8)
    else
      0
  UInt8.ofNat (0x1f &&& ((Gen.shiftr (binary.getD (bitpos / 8) 0) (3 - (bitpos % 8 : ℕ))).toNat + next))

def encodeFrom (binary : List UInt8) (bitpos : Nat) : Option (List UInt8) :=
  if bitpos < binary.length * 8 then do
    let c ← lookup (numAt binary bitpos)
    let result ← encodeFrom binary (bitpos + 5)
    some (c :: result)
  else
    some []
termination_by binary.length * 8 - bitpos

def encode (binary : List UInt8) : Option (List UInt8) := encodeFrom binary 0

-- Whether successful, and what the output is then
def decodeLoop : List UInt8 → Nat → UInt8 → List UInt8 → Bool × List UInt8
  | [], _, _, binary => (true, binary)
  | c :: bech32, bytepos, b, binary =>
    match reverseLookup c with
    | none => (false, binary)
    | some num =>
      let b := b ||| Gen.shiftl num (8 - (bytepos + 5))
      if 8 ≤ bytepos + 5 then
        decodeLoop bech32 ((bytepos + 5) % 8) (UInt8.ofNat (num.toNat <<< (8 - (bytepos + 5) % 8))) (binary ++ [b])
      else
        decodeLoop bech32 ((bytepos + 5) % 8) b binary

def decode (bech32 binary : List UInt8) : Bool × List UInt8 := decodeLoop bech32 0 0 binary

def decodeAs5Bit : List UInt8 → List UInt8 → Bool × List UInt8
  | [], binary => (true, binary)
  | c :: bech32, binary =>
    match reverseLookup c with
    | none => (false, binary)
    | some num => decodeAs5Bit bech32 (binary ++ [num])

/-
The alphabet.
-/

def alphabet : List UInt8 := data.map Prod.snd

theorem lookup_spec : ∀ n : Fin 32, ∃ c, lookup (UInt8.ofNat n) = some c ∧ reverseLookup c = some (UInt8.ofNat n) := by
  decide

theorem reverseLookup_eq_none {c : UInt8} : reverseLookup c = none ↔ c ∉ alphabet := by
  unfold reverseLookup alphabet
  rw [Option.map_eq_none_iff, List.find?_eq_none, List.mem_map]
  constructor
  . rintro h ⟨d, hd, heq⟩
    exact h d hd (decide_eq_true heq)
  . intro h d hd heq
    exact h ⟨d, hd, of_decide_eq_true heq⟩

theorem mem_alphabet {c num : UInt8} (hc : reverseLookup c = some num) : c ∈ alphabet := by
  by_contra hmem
  rw [reverseLookup_eq_none.mpr hmem] at hc
  cases hc

/-
The bits of two bytes that follow each other, at the position `r` in the first one.
-/

variable {B C r : Nat}

-- The first bits of a byte, with zeros behind them
def top (B r : Nat) : Nat := B / 2 ^ (8 - r) * 2 ^ (8 - r)

def five (B C r : Nat) : Nat := (B * 256 + C) / 2 ^ (11 - r) % 32

theorem top_or (B : Nat) {n : Nat} (hn : n < 2 ^ (8 - r)) : top B r ||| n = top B r + n := by
  unfold top
  rw [Nat.mul_comm, ← Nat.two_pow_add_eq_or_of_lt hn]

theorem five_within (hC : C < 256) (hr : r < 3)
    : five B C r * 2 ^ (3 - r) < 2 ^ (8 - r) ∧ top B r + five B C r * 2 ^ (3 - r) = top B (r + 5) := by
  unfold top five
  interval_cases r <;> omega

theorem five_across (hC : C < 256) (hr : 3 ≤ r) (hr8 : r < 8)
    : five B C r / 2 ^ (r - 3) < 2 ^ (8 - r) ∧ top B r + five B C r / 2 ^ (r - 3) = B
        ∧ five B C r * 2 ^ (8 - (r - 3)) % 256 = top C (r - 3) := by
  unfold top five
  interval_cases r <;> omega

-- What the encoder makes of the two bytes
theorem five_shiftr (hC : C < 256) (hr : r ≤ 3) : five B C r = B / 2 ^ (3 - r) % 32 := by
  unfold five
  interval_cases r <;> omega

theorem five_shiftl (hr : 3 < r) (hr8 : r < 8)
    : five B C r = (B * 2 ^ (r - 3) % 256 + C / 2 ^ (11 - r)) % 32 := by
  unfold five
  interval_cases r <;> omega

variable {binary out : List UInt8}

def byteAt (binary : List UInt8) (i : Nat) : Nat := (binary.getD i 0).toNat

theorem byteAt_lt (binary : List UInt8) (i : Nat) : byteAt binary i < 256 := UInt8.toNat_lt _

theorem toNat_shiftr_of_le (v : UInt8) (hr : r ≤ 3) : (Gen.shiftr v (3 - (r : ℕ))).toNat = v.toNat / 2 ^ (3 - r) := by
  have hplaces : ((3 : Int) - (r : ℕ)).toNat = 3 - r := by omega
  have hlt : v.toNat / 2 ^ (3 - r) < 256 := Nat.lt_of_le_of_lt (Nat.div_le_self _ _) v.toNat_lt
  unfold Gen.shiftr
  rw [if_pos (by omega), hplaces, UInt8.toNat_ofNat', Nat.shiftRight_eq_div_pow, Nat.mod_eq_of_lt hlt]

theorem toNat_shiftr_of_lt (v : UInt8) (hr : 3 < r)
    : (Gen.shiftr v (3 - (r : ℕ))).toNat = v.toNat * 2 ^ (r - 3) % 256 := by
  have hplaces : ((3 : Int) - (r : ℕ)).natAbs = r - 3 := by omega
  unfold Gen.shiftr
  rw [if_neg (by omega), hplaces, UInt8.toNat_ofNat', Nat.shiftLeft_eq]

theorem toNat_numAt (binary : List UInt8) (bitpos : Nat)
    : (numAt binary bitpos).toNat
        = five (byteAt binary (bitpos / 8)) (byteAt binary (bitpos / 8 + 1)) (bitpos % 8) := by
  have hnext := byteAt_lt binary (bitpos / 8 + 1)
  have hr8 : bitpos % 8 < 8 := Nat.mod_lt _ (by decide)
  unfold numAt
  dsimp only
  rw [UInt8.toNat_ofNat', Nat.and_comm, Nat.and_two_pow_sub_one_eq_mod _ 5]
  by_cases hr : 3 < bitpos % 8
  . rw [five_shiftl hr hr8, toNat_shiftr_of_lt _ hr]
    have hif : (if 3 < bitpos % 8 ∧ 1 + bitpos / 8 < binary.length then
        (binary.getD (1 + bitpos / 8) 0).toNat >>> (11 - bitpos % 8) else 0)
        = byteAt binary (bitpos / 8 + 1) / 2 ^ (11 - bitpos % 8) := by
      unfold byteAt
      rw [Nat.add_comm (bitpos / 8) 1]
      split
      . exact Nat.shiftRight_eq_div_pow _ _
      . next hend =>
        have hlength : binary.length ≤ 1 + bitpos / 8 := by omega
        rw [List.getD_eq_getElem?_getD, List.getElem?_eq_none hlength]
        exact (Nat.zero_div _).symm
    rw [hif]
    exact Nat.mod_eq_of_lt (by omega)
  . rw [five_shiftr hnext (by omega), toNat_shiftr_of_le _ (by omega), if_neg (fun h => hr h.1), Nat.add_zero]
    exact Nat.mod_eq_of_lt (by omega)

theorem toNat_shiftl_of_lt {num : UInt8} (hnum : num.toNat < 32) (hr : r < 3)
    : (Gen.shiftl num (8 - ((r : ℕ) + 5))).toNat = num.toNat * 2 ^ (3 - r) := by
  have hplaces : ((8 : Int) - ((r : ℕ) + 5)).toNat = 3 - r := by omega
  unfold Gen.shiftl
  rw [if_pos (by omega), hplaces, UInt8.toNat_ofNat', Nat.shiftLeft_eq]
  interval_cases r <;> omega

theorem toNat_shiftl_of_le {num : UInt8} (hr : 3 ≤ r)
    : (Gen.shiftl num (8 - ((r : ℕ) + 5))).toNat = num.toNat / 2 ^ (r - 3) := by
  have hlt : num.toNat / 2 ^ (r - 3) < 256 := Nat.lt_of_le_of_lt (Nat.div_le_self _ _) num.toNat_lt
  unfold Gen.shiftl
  split
  . next hle =>
    have heq : r = 3 := by omega
    rw [heq]
    simp
  . have hplaces : ((8 : Int) - ((r : ℕ) + 5)).natAbs = r - 3 := by omega
    rw [hplaces, UInt8.toNat_ofNat', Nat.shiftRight_eq_div_pow, Nat.mod_eq_of_lt hlt]

/-
The decoder goes through the bits along with the encoder.
-/

theorem decodeLoop_cons {c num : UInt8} (hc : reverseLookup c = some num) (bech32 : List UInt8) (bytepos : Nat) (b : UInt8)
    : decodeLoop (c :: bech32) bytepos b out
        =
      if 8 ≤ bytepos + 5 then
        decodeLoop bech32 ((bytepos + 5) % 8) (UInt8.ofNat (num.toNat <<< (8 - (bytepos + 5) % 8)))
          (out ++ [b ||| Gen.shiftl num (8 - (bytepos + 5))])
      else
        decodeLoop bech32 ((bytepos + 5) % 8) (b ||| Gen.shiftl num (8 - (bytepos + 5))) out := by
  conv_lhs => unfold decodeLoop
  rw [hc]

theorem take_succ_byteAt {i : Nat} (hi : i < binary.length) {c : UInt8} (hc : c.toNat = byteAt binary i)
    : binary.take (i + 1) = binary.take i ++ [c] := by
  have heq : binary[i]? = some c := by
    unfold byteAt at hc
    rw [List.getD_eq_getElem?_getD, List.getElem?_eq_getElem hi] at hc
    rw [List.getElem?_eq_getElem hi]
    exact congrArg some (UInt8.toNat_inj.mp hc).symm
  rw [List.take_add_one, heq]
  rfl

theorem decodeLoop_encodeFrom (binary : List UInt8) (bitpos : Nat) (hend : bitpos < binary.length * 8 + 5) (b : UInt8)
    (hb : b.toNat = top (byteAt binary (bitpos / 8)) (bitpos % 8))
    : ∃ bech32, encodeFrom binary bitpos = some bech32
        ∧ decodeLoop bech32 (bitpos % 8) b (out ++ binary.take (bitpos / 8)) = (true, out ++ binary) := by
  induction hn : binary.length * 8 + 5 - bitpos using Nat.strongRecOn generalizing bitpos b with
  | ind n ih =>
    unfold encodeFrom
    by_cases hlt : bitpos < binary.length * 8
    . have hnum := toNat_numAt binary bitpos
      have hnum32 : (numAt binary bitpos).toNat < 32 := by
        rw [hnum]
        unfold five
        omega
      have hnext := byteAt_lt binary (bitpos / 8 + 1)
      have hr8 : bitpos % 8 < 8 := Nat.mod_lt _ (by decide)
      obtain ⟨c, hlookup, hreverse⟩ := lookup_spec ⟨(numAt binary bitpos).toNat, hnum32⟩
      dsimp only at hlookup hreverse
      rw [UInt8.ofNat_toNat] at hlookup hreverse
      rw [if_pos hlt, hlookup]
      by_cases hr : bitpos % 8 < 3
      . obtain ⟨hsmall, htop⟩ := @five_within (byteAt binary (bitpos / 8)) _ _ hnext hr
        have hb' : (b ||| Gen.shiftl (numAt binary bitpos) (8 - ((bitpos % 8 : ℕ) + 5))).toNat
            = top (byteAt binary ((bitpos + 5) / 8)) ((bitpos + 5) % 8) := by
          have hbyte : (bitpos + 5) / 8 = bitpos / 8 := by omega
          have hbit : (bitpos + 5) % 8 = bitpos % 8 + 5 := by omega
          rw [UInt8.toNat_or, hb, toNat_shiftl_of_lt hnum32 hr, hnum, top_or _ hsmall, htop, hbyte, hbit]
        obtain ⟨bech32, hencode, hdecode⟩ := ih _ (by omega) (bitpos + 5) (by omega) _ hb' rfl
        have hbyte : (bitpos + 5) / 8 = bitpos / 8 := by omega
        have hbit : (bitpos % 8 + 5) % 8 = (bitpos + 5) % 8 := by omega
        rw [hencode]
        refine ⟨c :: bech32, rfl, ?_⟩
        rw [decodeLoop_cons hreverse, if_neg (by omega), hbit, ← hbyte]
        exact hdecode
      . obtain ⟨hsmall, hwhole, htop⟩ := @five_across (byteAt binary (bitpos / 8)) _ _ hnext (by omega) hr8
        have hbyte : (bitpos + 5) / 8 = bitpos / 8 + 1 := by omega
        have hbit : (bitpos + 5) % 8 = bitpos % 8 - 3 := by omega
        have hbit' : (bitpos % 8 + 5) % 8 = (bitpos + 5) % 8 := by omega
        have hb' : (UInt8.ofNat ((numAt binary bitpos).toNat <<< (8 - (bitpos + 5) % 8))).toNat
            = top (byteAt binary ((bitpos + 5) / 8)) ((bitpos + 5) % 8) := by
          rw [UInt8.toNat_ofNat', Nat.shiftLeft_eq, hnum, hbyte, hbit, ← htop]
        have hpushed : (b ||| Gen.shiftl (numAt binary bitpos) (8 - ((bitpos % 8 : ℕ) + 5))).toNat
            = byteAt binary (bitpos / 8) := by
          rw [UInt8.toNat_or, hb, toNat_shiftl_of_le (by omega), hnum, top_or _ hsmall, hwhole]
        obtain ⟨bech32, hencode, hdecode⟩ := ih _ (by omega) (bitpos + 5) (by omega) _ hb' rfl
        rw [hencode]
        refine ⟨c :: bech32, rfl, ?_⟩
        rw [decodeLoop_cons hreverse, if_pos (by omega), hbit', List.append_assoc,
          ← take_succ_byteAt (by omega) hpushed, ← hbyte]
        exact hdecode
    . rw [if_neg hlt]
      refine ⟨[], rfl, ?_⟩
      unfold decodeLoop
      rw [List.take_of_length_le (by omega)]

theorem decode_encode (binary out : List UInt8)
    : ∃ bech32, encode binary = some bech32 ∧ decode bech32 out = (true, out ++ binary) := by
  have hzero : (0 : UInt8).toNat = top (byteAt binary (0 / 8)) (0 % 8) := by
    have hlt := byteAt_lt binary 0
    change 0 = byteAt binary 0 / 2 ^ 8 * 2 ^ 8
    omega
  have h := @decodeLoop_encodeFrom out binary 0 (by omega) 0 hzero
  rw [Nat.zero_div, List.take_zero, List.append_nil] at h
  exact h

/-
Failures.
-/

theorem decodeAs5Bit_spec (bech32 out : List UInt8)
    : ((decodeAs5Bit bech32 out).1 = true ↔ ∀ c ∈ bech32, c ∈ alphabet)
        ∧
      ∃ nums, (decodeAs5Bit bech32 out).2 = out ++ nums ∧ ((∃ c ∈ bech32.head?, c ∈ alphabet) → nums ≠ []) := by
  induction bech32 generalizing out with
  | nil => simp [decodeAs5Bit]
  | cons c bech32 ih =>
    unfold decodeAs5Bit
    rw [List.forall_mem_cons]
    cases hc : reverseLookup c with
    | none =>
      have hmem := reverseLookup_eq_none.mp hc
      simp [hmem]
    | some num =>
      have hmem := mem_alphabet hc
      obtain ⟨hsuccess, nums, hnums, -⟩ := ih (out ++ [num])
      dsimp only
      rw [hsuccess, and_iff_right hmem, hnums, List.append_assoc]
      exact ⟨Iff.rfl, _, rfl, fun _ => List.cons_ne_nil _ _⟩

/--
What has been decoded in front of a wrong character stays in the output.
-/
theorem decode_atomic_iff (binary out bech32 : List UInt8)
    : ((∃ encoded, encode binary = some encoded ∧ decode encoded out = (true, out ++ binary))
          ∧
        ((∃ c ∈ bech32, c ∉ alphabet) → decode bech32 out = (false, out) ∧ decodeAs5Bit bech32 out = (false, out)))
        ↔
      ((∀ c ∈ bech32, c ∈ alphabet) ∨ ∃ c ∈ bech32.head?, c ∉ alphabet) := by
  rw [and_iff_right (decode_encode binary out)]
  constructor
  . intro h
    by_contra hnot
    rw [not_or] at hnot
    obtain ⟨hsome, hhead⟩ := hnot
    push Not at hsome hhead
    obtain ⟨c, hc, hout⟩ := hsome
    have hfirst : ∃ c ∈ bech32.head?, c ∈ alphabet := by
      cases bech32 with
      | nil => cases hc
      | cons d bech32 => exact ⟨d, rfl, hhead d rfl⟩
    obtain ⟨nums, hnums, hne⟩ := (decodeAs5Bit_spec bech32 out).2
    rw [(h ⟨c, hc, hout⟩).2] at hnums
    apply hne hfirst
    exact List.self_eq_append_right.mp hnums
  . rintro (hall | ⟨c, hc, hout⟩)
    . rintro ⟨c, hc, hout⟩
      exact absurd (hall c hc) hout
    . intro _
      cases bech32 with
      | nil => cases hc
      | cons d bech32 =>
        cases hc
        have hnone := reverseLookup_eq_none.mpr hout
        unfold decode decodeLoop decodeAs5Bit
        rw [hnone]
        exact ⟨rfl, rfl⟩

-- qqb
theorem not_decode_atomic
    : ¬((∃ encoded, encode [] = some encoded ∧ decode encoded [] = (true, [] ++ []))
          ∧
        ((∃ c ∈ ([113, 113, 98] : List UInt8), c ∉ alphabet) →
          decode [113, 113, 98] [] = (false, []) ∧ decodeAs5Bit [113, 113, 98] [] = (false, []))) := by
  rintro ⟨-, h⟩
  have hb : (98 : UInt8) ∉ alphabet := by decide
  have hdecode := (h ⟨98, by decide, hb⟩).1
  revert hdecode
  decide

end Bech32
end Text
end ObTools
