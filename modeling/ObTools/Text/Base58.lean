import Mathlib.Logic.Function.Basic
import ObTools.Lib.Digits
import ObTools.Lib.Places

/-!
This module contains the model of `Text::Base58`, and the proof that encoding and decoding undo each other, with
what an alphabet of one's own changes about it.
-/

namespace ObTools
namespace Text

structure Base58 where
  map : List UInt8
  -- -1 for the characters that are not in the map
  reverseMap : UInt8 → Int

namespace Base58

-- Encoding alphabet
def base58Chars : List UInt8 :=
  "123456789ABCDEFGHJKLMNPQRSTUVWXYZabcdefghijkmnopqrstuvwxyz".toList.map Char.toUInt8

-- Constructor with custom alphabet (58 characters)
def ofAlphabet (alphabet : List UInt8) : Base58 :=
  let map := alphabet.take 58
  { map := map
    reverseMap := (List.range 58).foldl (fun reverseMap i => Function.update reverseMap (map.getD i 0) i) fun _ => -1 }

-- Constructor with standard alphabet
def standard : Base58 := ofAlphabet base58Chars

variable (b : Base58)

-- The places for some bytes of which the first ones are zeros
def encodeSize (length zeroes : Nat) : Nat := (length - zeroes) * 138 / 100 + 1

-- What is done for a byte, with the carry that is left
def encodeStep (b58 : List Nat) (byte : UInt8) : Nat × List Nat := Places.mulAdd 58 256 b58 byte.toNat

def encodeLoop (size : Nat) (binary : List UInt8) : List Nat :=
  binary.foldl (fun b58 byte => (encodeStep b58 byte).2) (List.replicate size 0)

def encode (binary : List UInt8) : List UInt8 :=
  if binary = [] then
    []
  else
    -- Count leading zeros
    let zeroes := (binary.takeWhile (· = 0)).length
    let b58 := encodeLoop (encodeSize binary.length zeroes) binary
    -- Skip leading zeros in base58 result
    List.replicate zeroes 49 ++ (b58.dropWhile (· = 0)).map fun d => b.map.getD d 0

def decodeSize (length : Nat) : Nat := length * 733 / 1000 + 1

-- What is done for the value of a character, with the carry that is left
def decodeStep (b256 : List Nat) (value : Int) : Nat × List Nat := Places.mulAdd 256 58 b256 value.toNat

def decodeLoop (size : Nat) (base58 : List UInt8) : Option (List Nat) :=
  base58.foldlM
    (fun b256 c => if b.reverseMap c = -1 then none else some (decodeStep b256 (b.reverseMap c)).2)
    (List.replicate size 0)

-- The binary if successful
def decode (base58 : List UInt8) : Option (List UInt8) := do
  let b256 ← b.decodeLoop (decodeSize base58.length) base58
  -- Restore leading zeros from base58 input
  let leadingZeros := (base58.takeWhile (· = b.map.getD 0 0)).length
  some (List.replicate leadingZeros 0 ++ (b256.dropWhile (· = 0)).map UInt8.ofNat)

end Base58

namespace Base58

open Places (value zeros)

variable {alphabet : List UInt8} {binary : List UInt8}

/-
The alphabets.
-/

structure IsAlphabet (alphabet : List UInt8) : Prop where
  length : alphabet.length = 58
  nodup : alphabet.Nodup
  ascii : ∀ c ∈ alphabet, c < 128

-- The digit of a value
def digit (alphabet : List UInt8) (d : Nat) : UInt8 := alphabet.getD d 0

theorem map_ofAlphabet (h : IsAlphabet alphabet) : (ofAlphabet alphabet).map = alphabet :=
  List.take_of_length_le (by rw [h.length])

theorem IsAlphabet.digit_inj (h : IsAlphabet alphabet) {d d' : Nat} (hd : d < 58) (hd' : d' < 58)
    : digit alphabet d = digit alphabet d' ↔ d = d' := by
  have hlength := h.length
  have hget : ∀ {d : Nat} (hd : d < 58), digit alphabet d = alphabet.get ⟨d, by omega⟩ := by
    intro d hd
    unfold digit
    rw [List.getD_eq_getElem?_getD, List.getElem?_eq_getElem (by omega)]
    rfl
  rw [hget hd, hget hd', h.nodup.get_inj_iff, Fin.mk.injEq]

theorem IsAlphabet.mem_iff (h : IsAlphabet alphabet) {c : UInt8} : c ∈ alphabet ↔ ∃ d < 58, digit alphabet d = c := by
  unfold digit
  rw [List.mem_iff_getElem?]
  constructor
  . rintro ⟨d, hd⟩
    refine ⟨d, ?_, ?_⟩
    . rw [← h.length]
      exact (List.getElem?_eq_some_iff.mp hd).1
    . rw [List.getD_eq_getElem?_getD, hd]
      rfl
  . rintro ⟨d, hlt, hd⟩
    have hlength := h.length
    refine ⟨d, ?_⟩
    rw [List.getD_eq_getElem?_getD, List.getElem?_eq_getElem (by omega)] at hd
    rw [List.getElem?_eq_getElem (by omega)]
    exact congrArg some hd

-- The values of the first digits have been entered.
theorem IsAlphabet.reverse_spec (h : IsAlphabet alphabet) (k : Nat) (hk : k ≤ 58)
    : (∀ d < k, ((List.range k).foldl (fun r i => Function.update r (digit alphabet i) i) fun _ => (-1 : Int))
          (digit alphabet d) = d)
        ∧
      ∀ c, (∀ d < k, digit alphabet d ≠ c) →
        ((List.range k).foldl (fun r i => Function.update r (digit alphabet i) i) fun _ => (-1 : Int)) c = -1 := by
  induction k with
  | zero => exact ⟨nofun, fun _ _ => rfl⟩
  | succ k ih =>
    obtain ⟨hvalues, hothers⟩ := ih (by omega)
    rw [List.range_succ, List.foldl_append, List.foldl_cons, List.foldl_nil]
    constructor
    . intro d hd
      by_cases heq : d = k
      . rw [heq, Function.update_self]
      . have hne : digit alphabet d ≠ digit alphabet k := by
          rw [Ne, h.digit_inj (by omega) (by omega)]
          exact heq
        rw [Function.update_of_ne hne]
        exact hvalues d (by omega)
    . intro c hc
      rw [Function.update_of_ne (hc k (by omega)).symm]
      exact hothers c fun d hd => hc d (by omega)

theorem IsAlphabet.reverseMap_digit (h : IsAlphabet alphabet) {d : Nat} (hd : d < 58)
    : (ofAlphabet alphabet).reverseMap (digit alphabet d) = d := by
  have hspec := (h.reverse_spec 58 (Nat.le_refl 58)).1 d hd
  unfold ofAlphabet
  dsimp only
  rw [List.take_of_length_le (by rw [h.length])]
  exact hspec

/-
Both conversions in terms of numbers.
-/

def bytes (binary : List UInt8) : List Nat := binary.map UInt8.toNat

theorem bytes_lt (binary : List UInt8) : ∀ d ∈ bytes binary, d < 256 := by
  intro d hd
  obtain ⟨c, -, rfl⟩ := List.mem_map.mp hd
  exact c.toNat_lt

theorem ofNat_bytes (binary : List UInt8) : (bytes binary).map UInt8.ofNat = binary := by
  unfold bytes
  rw [List.map_map]
  conv_rhs => rw [← List.map_id binary]
  apply List.map_congr_left
  intro c hc
  exact UInt8.ofNat_toNat

theorem encodeLoop_eq (size : Nat) (binary : List UInt8)
    : encodeLoop size binary = Places.convert 58 256 size (bytes binary) := by
  unfold encodeLoop Places.convert bytes
  rw [List.foldl_map]
  rfl

theorem zeros_bytes (binary : List UInt8) : (binary.takeWhile (· = 0)).length = zeros (bytes binary) := by
  unfold zeros bytes
  rw [List.takeWhile_map, List.length_map]
  congr 2
  funext c
  simp [← UInt8.toNat_inj]

-- There are enough places.
theorem bytes_fit (binary : List UInt8)
    : value 256 (bytes binary) < 58 ^ encodeSize binary.length (zeros (bytes binary)) := by
  have hsplit := congrArg List.length (Places.eq_zeros_append (bytes binary))
  have hlt : value 256 ((bytes binary).dropWhile (· = 0)) < 256 ^ ((bytes binary).dropWhile (· = 0)).length := by
    apply Places.value_lt (by decide)
    intro d hd
    exact bytes_lt binary d ((List.dropWhile_sublist _).subset hd)
  rw [List.length_append, List.length_replicate] at hsplit
  have hlength : ((bytes binary).dropWhile (· = 0)).length = binary.length - zeros (bytes binary) := by
    unfold bytes at hsplit ⊢
    rw [List.length_map] at hsplit
    omega
  rw [Places.value_dropWhile, hlength] at hlt
  apply Nat.lt_of_lt_of_le hlt
  exact Places.pow_le_pow_places (by decide) (by decide) (by decide) _

theorem IsAlphabet.encode_eq (h : IsAlphabet alphabet) (binary : List UInt8)
    : (ofAlphabet alphabet).encode binary
        = List.replicate (zeros (bytes binary)) 49
            ++ (Nat.digits 58 (value 256 (bytes binary))).reverse.map (digit alphabet) := by
  unfold encode
  split
  . next hnil =>
    rw [hnil]
    rfl
  . dsimp only
    rw [zeros_bytes, encodeLoop_eq, map_ofAlphabet h,
      Places.dropWhile_convert (by decide) (by decide) (bytes_fit binary)]
    rfl

variable {l : List Nat}

theorem IsAlphabet.decodeLoop_eq (h : IsAlphabet alphabet) (hl : ∀ d ∈ l, d < 58) (size : Nat)
    : (ofAlphabet alphabet).decodeLoop size (l.map (digit alphabet)) = some (Places.convert 256 58 size l) := by
  unfold decodeLoop Places.convert
  generalize List.replicate size 0 = b256
  induction l generalizing b256 with
  | nil => rfl
  | cons d l ih =>
    rw [List.forall_mem_cons] at hl
    rw [List.map_cons, List.foldlM_cons, h.reverseMap_digit hl.1, if_neg (by omega)]
    exact ih hl.2 _

theorem IsAlphabet.zeros_digit (h : IsAlphabet alphabet) (hl : ∀ d ∈ l, d < 58)
    : ((l.map (digit alphabet)).takeWhile (· = digit alphabet 0)).length = zeros l := by
  unfold zeros
  induction l with
  | nil => rfl
  | cons d l ih =>
    rw [List.forall_mem_cons] at hl
    rw [List.map_cons, List.takeWhile_cons, List.takeWhile_cons]
    simp only [h.digit_inj hl.1 (by decide : 0 < 58)]
    by_cases hzero : d = 0
    . simp [hzero, ih hl.2]
    . simp [hzero]

theorem digits_fit (hl : ∀ d ∈ l, d < 58) : value 58 l < 256 ^ decodeSize l.length := by
  apply Nat.lt_of_lt_of_le (Places.value_lt (by decide) hl)
  exact Places.pow_le_pow_places (by decide) (by decide) (by decide +kernel) _

theorem IsAlphabet.decode_eq (h : IsAlphabet alphabet) (hl : ∀ d ∈ l, d < 58)
    : (ofAlphabet alphabet).decode (l.map (digit alphabet))
        = some (List.replicate (zeros l) 0 ++ (Nat.digits 256 (value 58 l)).reverse.map UInt8.ofNat) := by
  have hzeros := h.zeros_digit hl
  unfold digit at hzeros
  unfold decode
  rw [h.decodeLoop_eq hl, List.length_map, map_ofAlphabet h, Option.bind_eq_bind, Option.bind_some,
    Places.dropWhile_convert (by decide) (by decide) (digits_fit hl)]
  dsimp only
  unfold digit
  rw [hzeros]

/-
Round trips.
-/

theorem bytes_eq (binary : List UInt8)
    : List.replicate (zeros (bytes binary)) 0 ++ (Nat.digits 256 (value 256 (bytes binary))).reverse = bytes binary := by
  rw [← Places.dropWhile_eq (by decide) (bytes_lt binary)]
  exact (Places.eq_zeros_append (bytes binary)).symm

theorem digits_lt {base : Nat} (hb : 1 < base) (k n : Nat)
    : ∀ d ∈ List.replicate k 0 ++ (Nat.digits base n).reverse, d < base := by
  rw [List.forall_mem_append]
  constructor
  . intro d hd
    rw [List.eq_of_mem_replicate hd]
    omega
  . intro d hd
    exact Nat.digits_lt_base hb (List.mem_reverse.mp hd)

-- The first digit is always taken from the standard alphabet.
theorem IsAlphabet.encode_digits (h : IsAlphabet alphabet) (hzero : zeros (bytes binary) = 0 ∨ digit alphabet 0 = 49)
    : (ofAlphabet alphabet).encode binary
        = (List.replicate (zeros (bytes binary)) 0 ++ (Nat.digits 58 (value 256 (bytes binary))).reverse).map
            (digit alphabet) := by
  rw [h.encode_eq, List.map_append, List.map_replicate]
  cases hzero with
  | inl hnone => rw [hnone, List.replicate_zero, List.replicate_zero]
  | inr hsame => rw [hsame]

theorem IsAlphabet.decode_encode (h : IsAlphabet alphabet) (hzero : zeros (bytes binary) = 0 ∨ digit alphabet 0 = 49)
    : (ofAlphabet alphabet).decode ((ofAlphabet alphabet).encode binary) = some binary := by
  rw [h.encode_digits hzero, h.decode_eq (digits_lt (by decide) _ _), Places.zeros_append _ (Places.digits_head 58 _),
    Places.value_zeros, Places.value_digits]
  have hbinary := congrArg (List.map UInt8.ofNat) (bytes_eq binary)
  rw [List.map_append, List.map_replicate, ofNat_bytes] at hbinary
  exact congrArg some hbinary

theorem IsAlphabet.exists_digits (h : IsAlphabet alphabet) {base58 : List UInt8} (hs : ∀ c ∈ base58, c ∈ alphabet)
    : ∃ l : List Nat, (∀ d ∈ l, d < 58) ∧ base58 = l.map (digit alphabet) := by
  induction base58 with
  | nil => exact ⟨[], nofun, rfl⟩
  | cons c base58 ih =>
    rw [List.forall_mem_cons] at hs
    obtain ⟨l, hl, heq⟩ := ih hs.2
    obtain ⟨d, hd, hc⟩ := h.mem_iff.mp hs.1
    refine ⟨d :: l, List.forall_mem_cons.mpr ⟨hd, hl⟩, ?_⟩
    rw [List.map_cons, hc, heq]

theorem map_ofNat_bytes {l : List Nat} (hl : ∀ d ∈ l, d < 256) : bytes (l.map UInt8.ofNat) = l := by
  unfold bytes
  rw [List.map_map]
  conv_rhs => rw [← List.map_id l]
  apply List.map_congr_left
  intro d hd
  exact UInt8.toNat_ofNat_of_lt' (hl d hd)

theorem IsAlphabet.encode_decode (h : IsAlphabet alphabet) (hsame : digit alphabet 0 = 49) (hl : ∀ d ∈ l, d < 58)
    : ∃ binary, (ofAlphabet alphabet).decode (l.map (digit alphabet)) = some binary
        ∧ (ofAlphabet alphabet).encode binary = l.map (digit alphabet) := by
  refine ⟨_, h.decode_eq hl, ?_⟩
  have hbytes := map_ofNat_bytes (digits_lt (show 1 < 256 by decide) (zeros l) (value 58 l))
  rw [List.map_append, List.map_replicate] at hbytes
  rw [h.encode_digits (Or.inr hsame)]
  apply congrArg (List.map (digit alphabet))
  change bytes (List.replicate (zeros l) 0 ++ _) = _ at hbytes
  rw [hbytes, Places.zeros_append _ (Places.digits_head 256 _), Places.value_zeros, Places.value_digits,
    ← Places.dropWhile_eq (by decide) hl]
  exact (Places.eq_zeros_append l).symm

-- 0, I, O and l are left out.
theorem base58Chars_eq
    : base58Chars = (List.range' 49 9 ++ List.range' 65 8 ++ List.range' 74 5 ++ List.range' 80 11
        ++ List.range' 97 11 ++ List.range' 109 14).map UInt8.ofNat := by
  decide

theorem digit_base58Chars : digit base58Chars 0 = 49 := by
  rw [base58Chars_eq]
  rfl

theorem isAlphabet_standard : IsAlphabet base58Chars := by
  rw [base58Chars_eq]
  constructor
  . decide
  . decide
  . rw [List.forall_mem_map]
    intro n hn
    simp only [List.mem_append, List.mem_range'_1] at hn
    rw [UInt8.lt_iff_toNat_lt, UInt8.toNat_ofNat', Nat.mod_eq_of_lt (by omega)]
    exact (by omega : n < 128)

-- The digit of an alphabet that has the value of a standard digit
def rename (alphabet : List UInt8) (c : UInt8) : UInt8 := digit alphabet (base58Chars.idxOf c)

theorem rename_digit (alphabet : List UInt8) {d : Nat} (hd : d < 58)
    : rename alphabet (digit base58Chars d) = digit alphabet d := by
  have hlt : d < base58Chars.length := by
    rw [isAlphabet_standard.length]
    exact hd
  clear hd
  have hget : digit base58Chars d = base58Chars[d] := by
    unfold digit
    rw [List.getD_eq_getElem?_getD, List.getElem?_eq_getElem hlt]
    rfl
  unfold rename
  rw [hget, isAlphabet_standard.nodup.idxOf_getElem]

theorem map_rename (alphabet : List UInt8) {l : List Nat} (hl : ∀ d ∈ l, d < 58)
    : (l.map (digit base58Chars)).map (rename alphabet) = l.map (digit alphabet) := by
  rw [List.map_map]
  apply List.map_congr_left
  intro d hd
  exact rename_digit alphabet (hl d hd)

theorem encode_standard (binary : List UInt8)
    : standard.encode binary
        = (List.replicate (zeros (bytes binary)) 0 ++ (Nat.digits 58 (value 256 (bytes binary))).reverse).map
            (digit base58Chars) :=
  isAlphabet_standard.encode_digits (Or.inr digit_base58Chars)

theorem zeros_bytes_eq_zero (binary : List UInt8) : zeros (bytes binary) = 0 ↔ binary.head? ≠ some 0 := by
  rw [← zeros_bytes]
  cases binary with
  | nil => simp
  | cons c binary =>
    rw [List.takeWhile_cons, List.head?_cons]
    by_cases hc : c = 0
    . simp [hc]
    . simp [hc]

theorem digit_zero (alphabet : List UInt8) (h : IsAlphabet alphabet) : digit alphabet 0 = 49 ↔ alphabet.head? = some 49 := by
  cases alphabet with
  | nil =>
    have := h.length
    contradiction
  | cons c alphabet =>
    rw [List.head?_cons, Option.some.injEq]
    rfl

theorem IsAlphabet.reverse (h : IsAlphabet alphabet) : IsAlphabet alphabet.reverse where
  length := by rw [List.length_reverse, h.length]
  nodup := List.nodup_reverse.mpr h.nodup
  ascii c hc := h.ascii c (List.mem_reverse.mp hc)

end Base58
end Text
end ObTools
