import Mathlib.Algebra.Group.Int.Defs
import Mathlib.Algebra.Group.Nat.Defs
import Mathlib.Data.List.GetD
import ObTools.Crypto.Aes

/-!
This module contains the model of `Crypto::PKCS7` and of the functions of `Crypto::AES` that encrypt strings with it,
and the proof of which strings come back from them. There is no result where a length is negative or too large for an
`int`.
-/

namespace ObTools
namespace Crypto

abbrev Bytes := List UInt8

-- A `size_t` that is assigned to an `int`
def toInt (n : Nat) : Int := Int.bmod n (2 ^ 32)

namespace PKCS7

-- Always adds padding, even if not really needed
def pad (data : Bytes) (multiple : Int) : Option Bytes :=
  let length := toInt data.length
  if length + multiple < 2 ^ 31 then
    let newLength := (length + multiple).tdiv multiple * multiple
    let extra := newLength - length
    some (data ++ List.replicate extra.toNat (UInt8.ofNat extra.toNat))
  else
    none

def originalLength (data : Bytes) (length : Int) : Int :=
  if length = 0 then
    0
  else
    let pad : Int := (data.getD (length - 1).toNat 0).toNat
    -- Broken or not padded, leave padding in
    let pad := if pad > length then 0 else pad
    length - pad

end PKCS7

namespace AES

-- A buffer with the data in it
def bufferOf (data : Bytes) : Data := fresh fun x => if 0 ≤ x then data.getD x.toNat 0 else 0

def contents (data : Data) (length : Nat) : Bytes := (List.range length).map fun i : Nat => data.bytes i

/-
The ciphertext, if the encryption is successful.
-/
def encryptString (cipher : Cipher) (aes : AES) (plaintext : Bytes) : Option (Option Bytes) :=
  let length := toInt plaintext.length
  if length < 0 then
    none
  else do
    -- Copy to safe buffer and pad
    let pt ← PKCS7.pad (plaintext.take length.toNat) blockSize
    let length := toInt pt.length
    let (ok, _, data) := aes.encrypt cipher (bufferOf pt) length.toNat true false
    if ok then
      some (some (contents data length.toNat))
    else
      some none

def decryptString (cipher : Cipher) (aes : AES) (ciphertext : Bytes) : Option (Option Bytes) :=
  if ciphertext = [] then
    some (some [])
  else
    let length := toInt ciphertext.length
    if length < 0 then
      none
    else
      -- Copy to safe buffer
      let (ok, _, data) := aes.encrypt cipher (bufferOf (ciphertext.take length.toNat)) length.toNat false false
      if ok then
        let data := contents data length.toNat
        some (some (data.take (PKCS7.originalLength data length).toNat))
      else
        some none

end AES

theorem toInt_of_lt {n : Nat} (h : n < 2 ^ 31) : toInt n = n := Int.bmod_eq_of_le (by omega) (by omega)

theorem toInt_lt (n : Nat) : toInt n < 2 ^ 31 := Int.bmod_lt (by decide)

namespace PKCS7

variable {data : Bytes}

-- How much padding there is for a length
def extra (length : Nat) : Nat := 16 - length % 16

theorem pad_eq (h : data.length + 16 < 2 ^ 31)
    : pad data AES.blockSize = some (data ++ List.replicate (extra data.length) (UInt8.ofNat (extra data.length))) := by
  have hlength : toInt data.length = data.length := toInt_of_lt (by omega)
  have hextra : ((data.length + (16 : Int)).tdiv 16 * 16 - data.length).toNat = extra data.length := by
    unfold extra
    rw [Int.tdiv_eq_ediv_of_nonneg (by omega)]
    omega
  unfold pad AES.blockSize
  dsimp only
  rw [hlength]
  rw [if_pos (by omega)]
  exact congrArg some (congrArg (fun n => data ++ List.replicate n (UInt8.ofNat n)) hextra)

theorem extra_bounds (length : Nat) : 0 < extra length ∧ extra length ≤ 16 := by
  unfold extra
  omega

theorem originalLength_pad (data : Bytes)
    : originalLength (data ++ List.replicate (extra data.length) (UInt8.ofNat (extra data.length)))
        (data.length + extra data.length) = data.length := by
  obtain ⟨hpos, hle⟩ := extra_bounds data.length
  generalize extra data.length = n at *
  have hlast : (data ++ List.replicate n (UInt8.ofNat n)).getD ((data.length : Int) + n - 1).toNat 0
      = UInt8.ofNat n := by
    have hindex : ((data.length : Int) + n - 1).toNat = data.length + (n - 1) := by omega
    have hin : n - 1 < n := by omega
    rw [hindex, List.getD_append_right _ _ _ _ (Nat.le_add_right _ _), Nat.add_sub_cancel_left]
    exact List.getD_replicate _ hin
  have hvalue : (UInt8.ofNat n).toNat = n := UInt8.toNat_ofNat_of_lt (Nat.lt_of_le_of_lt hle (by decide))
  unfold originalLength
  rw [if_neg (by omega), hlast, hvalue]
  dsimp only
  rw [if_neg (by omega)]
  omega

end PKCS7

namespace AES

open PKCS7 (extra extra_bounds)
open Window (blockStart)

theorem length_contents (data : Data) (length : Nat) : (contents data length).length = length := by
  unfold contents
  rw [List.length_map, List.length_range]

theorem getElem_contents {data : Data} {length i : Nat} (hi : i < (contents data length).length)
    : (contents data length)[i] = data.bytes i := by
  simp only [contents, List.getElem_map, List.getElem_range]

theorem contents_eq {data : Data} {bytes : Bytes} (h : ∀ i, i < bytes.length → data.bytes (i : Nat) = bytes.getD i 0)
    : contents data bytes.length = bytes := by
  apply List.ext_getElem
  . exact length_contents data bytes.length
  . intro i hi hi'
    rw [getElem_contents, h i hi']
    exact List.getD_eq_getElem _ _ hi'

theorem bufferOf_bytes (bytes : Bytes) (i : Nat) : (bufferOf bytes).bytes i = bytes.getD i 0 := by
  unfold bufferOf fresh
  dsimp only
  rw [if_pos (Int.natCast_nonneg i)]
  rfl

theorem bufferOf_contents {data : Data} {length i : Nat} (hi : i < length)
    : (bufferOf (contents data length)).bytes i = data.bytes i := by
  rw [bufferOf_bytes, List.getD_eq_getElem _ _ (by rwa [length_contents]), getElem_contents]

-- The object can be used to encrypt
def Ready (aes : AES) : Prop := aes.ctr = true → aes.key.size = .bits128 ∧ aes.iv.valid = true

/-
A string comes back when what it is encrypted to is decrypted.
-/
def InvertsString (cipher : Cipher) (aes : AES) (plaintext : Bytes) : Prop :=
  ∃ ciphertext, aes.encryptString cipher plaintext = some (some ciphertext)
    ∧ aes.decryptString cipher ciphertext = some (some plaintext)

variable {cipher : Cipher} {aes : AES} {plaintext : Bytes}

theorem encrypt_ok (hready : aes.Ready) (data : Data) (length : Nat) (encryption rtb : Bool)
    : (aes.encrypt cipher data length encryption rtb).1 = true := by
  cases hctr : aes.ctr with
  | true =>
    obtain ⟨hsize, hvalid⟩ := hready hctr
    rw [encrypt_ctr hctr hsize hvalid]
  | false =>
    cases hvalid : aes.iv.valid with
    | false => rw [encrypt_ecb hctr hvalid]
    | true =>
      by_cases hrtb : rtb = true ∧ length > blockSize * (length / blockSize)
      . obtain ⟨rfl, hmore⟩ := hrtb
        obtain ⟨-, -, hok, -⟩ := @encrypt_residual cipher aes length hctr hvalid hmore encryption data
        exact hok
      . rw [encrypt_cbc hctr hvalid hrtb]

theorem length_decryptString {ciphertext : Bytes} (h : aes.decryptString cipher ciphertext = some (some plaintext))
    : plaintext.length < 2 ^ 31 := by
  have hlt := toInt_lt ciphertext.length
  unfold decryptString at h
  by_cases hempty : ciphertext = []
  . rw [if_pos hempty] at h
    rw [← Option.some.inj (Option.some.inj h)]
    decide
  . rw [if_neg hempty] at h
    dsimp only at h
    by_cases hnegative : toInt ciphertext.length < 0
    . rw [if_pos hnegative] at h
      exact absurd h.symm (Option.some_ne_none _)
    . rw [if_neg hnegative] at h
      split at h
      . rw [← Option.some.inj (Option.some.inj h), List.length_take, length_contents]
        omega
      . exact absurd (Option.some.inj h).symm (Option.some_ne_none _)

theorem encryptString_eq (hready : aes.Ready) {pt : Bytes} (hlength : toInt plaintext.length = plaintext.length)
    (hpad : PKCS7.pad plaintext blockSize = some pt) (hfits : toInt pt.length = pt.length)
    : aes.encryptString cipher plaintext
        = some (some (contents (aes.encrypt cipher (bufferOf pt) pt.length true false).2.2 pt.length)) := by
  have hok := @encrypt_ok cipher aes hready (bufferOf pt) pt.length true false
  have hnonneg : ¬(plaintext.length : Int) < 0 := Int.not_lt.mpr (Int.natCast_nonneg _)
  unfold encryptString
  rw [hlength, if_neg hnonneg, Int.toNat_natCast, List.take_length, hpad]
  simp only [Option.bind_eq_bind, Option.bind_some]
  rw [hfits, Int.toNat_natCast, if_pos hok]

theorem decryptString_eq (hready : aes.Ready) {ciphertext : Bytes} (hne : ciphertext ≠ [])
    (hlength : toInt ciphertext.length = ciphertext.length) {data : Bytes}
    (hdata : contents (aes.encrypt cipher (bufferOf ciphertext) ciphertext.length false false).2.2 ciphertext.length
      = data)
    : aes.decryptString cipher ciphertext
        = some (some (data.take (PKCS7.originalLength data ciphertext.length).toNat)) := by
  have hok := @encrypt_ok cipher aes hready (bufferOf ciphertext) ciphertext.length false false
  have hnonneg : ¬(ciphertext.length : Int) < 0 := Int.not_lt.mpr (Int.natCast_nonneg _)
  unfold decryptString
  rw [if_neg hne]
  dsimp only
  rw [hlength, if_neg hnonneg, Int.toNat_natCast, List.take_length, if_pos hok, hdata]

theorem invertsString (hready : aes.Ready) (h : plaintext.length + 16 < 2 ^ 31)
    : InvertsString cipher aes plaintext := by
  obtain ⟨hpos, hle⟩ := extra_bounds plaintext.length
  have hpad := PKCS7.pad_eq h
  have hshort : toInt plaintext.length = plaintext.length := toInt_of_lt (by omega)
  have hfits : plaintext.length + extra plaintext.length < 2 ^ 31 := by omega
  have hlong : toInt (plaintext.length + extra plaintext.length) = (plaintext.length + extra plaintext.length : Nat) :=
    toInt_of_lt hfits
  have horiginal := PKCS7.originalLength_pad plaintext
  generalize hpt : plaintext ++ List.replicate (extra plaintext.length) (UInt8.ofNat (extra plaintext.length)) = pt at *
  have hlength : pt.length = plaintext.length + extra plaintext.length := by
    rw [← hpt, List.length_append, List.length_replicate]
  rw [← hlength] at hlong
  refine ⟨_, encryptString_eq hready hshort hpad hlong, ?_⟩
  generalize hciphertext : contents (aes.encrypt cipher (bufferOf pt) pt.length true false).2.2 pt.length = ciphertext
  have hsize : ciphertext.length = pt.length := by
    rw [← hciphertext, length_contents]
  have hne : ciphertext ≠ [] := by
    apply List.ne_nil_of_length_pos
    omega
  have hdata : contents (aes.encrypt cipher (bufferOf ciphertext) ciphertext.length false false).2.2 ciphertext.length
      = pt := by
    rw [hsize]
    apply contents_eq
    intro i hi
    rw [← bufferOf_bytes]
    apply (inverts cipher aes (bufferOf pt) pt.length false (encrypt_ok hready _ _ _ _) _ _).2 i (Int.natCast_nonneg i)
      (Int.ofNat_lt.mpr hi)
    intro x hpos hlt
    obtain ⟨j, rfl⟩ := Int.eq_ofNat_of_zero_le hpos
    rw [← hciphertext, bufferOf_contents (Int.ofNat_lt.mp hlt)]
  rw [decryptString_eq hready hne (by rw [hsize, hlong]) hdata, hsize, hlength, Int.natCast_add, horiginal,
    Int.toNat_natCast, ← hpt, List.take_left]

theorem not_invertsString (h : 2 ^ 31 ≤ plaintext.length + 16) : ¬InvertsString cipher aes plaintext := by
  rintro ⟨ciphertext, hencrypt, hdecrypt⟩
  have hshort := length_decryptString hdecrypt
  have hlength : toInt plaintext.length = plaintext.length := toInt_of_lt hshort
  have hpad : PKCS7.pad plaintext blockSize = none := by
    unfold PKCS7.pad blockSize
    dsimp only
    rw [hlength, if_neg]
    omega
  unfold encryptString at hencrypt
  rw [hlength, if_neg (by omega), Int.toNat_natCast, List.take_length, hpad] at hencrypt
  contradiction

/--
Data that is encrypted in place can always be decrypted, and without a residual block what is less than a block stays
as it is. A string comes back if and only if it can be padded within the lengths of an `int`.
-/
theorem decrypt_encrypt_iff (cipher : Cipher) (aes : AES) (hready : aes.Ready)
    : (∀ (data : Data) (length : Nat) (rtb : Bool),
        (aes.encrypt cipher data length true rtb).1 = true ∧ Inverts cipher aes data length rtb)
      ∧ (aes.ctr = false → ∀ (data : Data) (length : Nat) (encryption : Bool) (x : Int),
        blockStart 16 (length / blockSize) ≤ x →
          (aes.encrypt cipher data length encryption false).2.2.bytes x = data.bytes x)
      ∧ ∀ plaintext, InvertsString cipher aes plaintext ↔ plaintext.length + 16 < 2 ^ 31 := by
  refine ⟨?_, ?_, ?_⟩
  . intro data length rtb
    exact ⟨encrypt_ok hready data length true rtb, inverts cipher aes data length rtb⟩
  . intro hctr data length encryption x hx
    exact encrypt_partial hctr encryption data hx
  . intro plaintext
    constructor
    . intro hinverts
      apply Nat.lt_of_not_le
      intro hlarge
      exact not_invertsString hlarge hinverts
    . exact invertsString hready

-- An IV that makes zeros of the padding of an empty string
theorem decrypt_encrypt_sample
    : InvertsString sampleCipher
          { key := sampleKey 0, iv := sampleKey 16, shortRand := sampleKey 0, ctr := false } []
        ↔ ([] : Bytes).length + 16 < 2 ^ 31 :=
  (decrypt_encrypt_iff sampleCipher { key := sampleKey 0, iv := sampleKey 16, shortRand := sampleKey 0, ctr := false }
    nofun).2.2 []

theorem not_invertsString_all
    : ¬∀ (cipher : Cipher) (aes : AES), aes.Ready → ∀ plaintext, InvertsString cipher aes plaintext := by
  intro h
  have hlong : 2 ^ 31 ≤ (List.replicate (2 ^ 32) (0 : UInt8)).length + 16 := by
    rw [List.length_replicate]
    omega
  exact not_invertsString hlong
    (h sampleCipher { key := sampleKey 0, iv := sampleKey 16, shortRand := sampleKey 0, ctr := false } nofun _)

end AES

end Crypto
end ObTools
