import Mathlib.Data.Fin.VecNotation
import Mathlib.Data.Fintype.Pi
import Mathlib.Logic.Equiv.Basic
import ObTools.Lib.Window

/-!
This module contains the model of `Crypto::AES` for data in place, on top of a block cipher and a key stream, and the
proofs that what is encrypted can be decrypted, and when all that is accessed is in the data.
-/

namespace ObTools
namespace Crypto

open Window (blockStart eachBlock eachFrom Inverse Within)

abbrev Block := Fin 16 → UInt8

abbrev Data := Window UInt8

def xor (a b : Block) : Block := fun i => a i ^^^ b i

inductive Size where
  | bits128
  | bits192
  | bits256
deriving DecidableEq

structure AESKey where
  key : Fin 32 → UInt8
  size : Size
  valid : Bool

namespace AESKey

-- As much as is used of an IV
def block (k : AESKey) : Block := fun i => k.key (i.castLE (by decide))

def setBlock (k : AESKey) (b : Block) : AESKey :=
  { k with key := fun i => if h : i.val < 16 then b ⟨i.val, h⟩ else k.key i }

end AESKey

/-
What the library provides for a key: the cipher of a single block, and the bytes that are combined with the data in
counter mode.
-/
structure Cipher where
  encrypt : AESKey → Block → Block
  decrypt : AESKey → Block → Block
  decrypt_encrypt : ∀ key block, decrypt key (encrypt key block) = block
  keystream : AESKey → Block → Nat → UInt8

namespace Cipher

variable (cipher : Cipher) (key : AESKey)

-- The steps of `AES_cbc_encrypt`, which leaves the last block of the ciphertext as the IV
def cbc (encryption : Bool) (iv data : Block) : Block × Block :=
  if encryption then
    let data := cipher.encrypt key (xor data iv)
    (data, data)
  else
    (xor (cipher.decrypt key data) iv, data)

-- And of `AES_ecb_encrypt`
def ecb (encryption : Bool) (_ : Unit) (data : Block) : Block × Unit :=
  (if encryption then cipher.encrypt key data else cipher.decrypt key data, ())

end Cipher

structure AES where
  key : AESKey
  iv : AESKey
  shortRand : AESKey
  ctr : Bool

namespace AES

def blockSize : Nat := 16

-- What the residual is combined with
def residualMask (cipher : Cipher) (aes : AES) (initialIv : AESKey) (encLength : Nat) (p : Block) : Block :=
  if encLength ≠ 0 then
    cipher.encrypt aes.key (xor p initialIv.block)
  else
    cipher.encrypt aes.key aes.shortRand.block

-- Encrypt/decrypt a block in place
def encrypt (cipher : Cipher) (aes : AES) (data : Data) (length : Nat) (encryption rtb : Bool) : Bool × AES × Data :=
  -- Save the initial IV for residual termination block
  let initialIv := aes.iv
  if aes.ctr then
    if aes.key.size ≠ .bits128 ∨ aes.iv.valid = false then
      (false, aes, data)
    else
      (true, aes, eachFrom (fun i c => c ^^^ cipher.keystream aes.key aes.iv.block i) 0 length data)
  else if aes.iv.valid then
    -- Round length down to block size multiple
    let encLength := blockSize * (length / blockSize)
    let lastFull : Int := encLength - blockSize
    let decLastFull : Block := data.load lastFull
    let data := if encryption = false ∧ rtb ∧ length > encLength then data.touch lastFull blockSize else data
    let (data, iv) := eachBlock (cipher.cbc aes.key encryption) (length / blockSize) data aes.iv.block
    let aes := { aes with iv := aes.iv.setBlock iv }
    -- Residual termination block if requested
    if rtb ∧ length > encLength then
      let p := if encryption then data.load lastFull else decLastFull
      let data := if encryption ∧ encLength ≠ 0 then data.touch lastFull blockSize else data
      let last := residualMask cipher aes initialIv encLength p
      (true, aes, eachFrom (fun i c => c ^^^ last (Fin.ofNat 16 i)) encLength (length - encLength) data)
    else
      (true, aes, data)
  else
    (true, aes, (eachBlock (cipher.ecb aes.key encryption) (length / blockSize) data ()).1)

section InPlace

variable {cipher : Cipher} {aes : AES} {data data' : Data} {length : Nat}

theorem xor_xor_cancel (a b : UInt8) : (a ^^^ b) ^^^ b = a := by
  rw [UInt8.xor_assoc, UInt8.xor_self, UInt8.xor_zero]

theorem xor_xor (a b : Block) : xor (xor a b) b = a := funext fun i => xor_xor_cancel (a i) (b i)

theorem cbc_inverse (key : AESKey) : Inverse (cipher.cbc key true) (cipher.cbc key false) := by
  intro iv block
  unfold Cipher.cbc
  rw [if_pos rfl, if_neg Bool.false_ne_true]
  dsimp only
  rw [cipher.decrypt_encrypt, xor_xor]

theorem ecb_inverse (key : AESKey) : Inverse (cipher.ecb key true) (cipher.ecb key false) := by
  intro s block
  unfold Cipher.ecb
  rw [if_pos rfl, if_neg Bool.false_ne_true]
  dsimp only
  rw [cipher.decrypt_encrypt]

-- How long the whole blocks are
theorem blockStart_div (length : Nat)
    : blockStart 16 (length / blockSize) = ((blockSize * (length / blockSize) : Nat) : Int) :=
  rfl

theorem encLength_le (length : Nat) : blockSize * (length / blockSize) ≤ length := Nat.mul_div_le length blockSize

theorem blockSize_le (h : blockSize * (length / blockSize) ≠ 0)
    : (blockSize : Int) ≤ blockStart 16 (length / blockSize) := by
  apply Int.ofNat_le.mpr
  exact Nat.le_mul_of_pos_right 16 (Nat.pos_of_ne_zero fun hzero => h (by rw [hzero, Nat.mul_zero]))

theorem encrypt_ctr (hctr : aes.ctr = true) (hsize : aes.key.size = .bits128) (hvalid : aes.iv.valid = true)
    (encryption rtb : Bool) (data : Data)
    : aes.encrypt cipher data length encryption rtb
        = (true, aes, eachFrom (fun i c => c ^^^ cipher.keystream aes.key aes.iv.block i) 0 length data) := by
  unfold encrypt
  rw [if_pos hctr, if_neg]
  simp [hsize, hvalid]

theorem encrypt_ctr_refused (hctr : aes.ctr = true) (h : ¬(aes.key.size = .bits128 ∧ aes.iv.valid = true))
    (encryption rtb : Bool) (data : Data)
    : aes.encrypt cipher data length encryption rtb = (false, aes, data) := by
  unfold encrypt
  rw [if_pos hctr, if_pos]
  by_cases hsize : aes.key.size = .bits128
  . simpa [hsize] using h
  . exact Or.inl hsize

theorem encrypt_ecb (hctr : aes.ctr = false) (hvalid : aes.iv.valid = false) (encryption rtb : Bool) (data : Data)
    : aes.encrypt cipher data length encryption rtb
        = (true, aes, (eachBlock (cipher.ecb aes.key encryption) (length / blockSize) data ()).1) := by
  unfold encrypt
  rw [if_neg (by simp [hctr]), if_neg (by simp [hvalid])]

-- Without a residual block
theorem encrypt_cbc (hctr : aes.ctr = false) (hvalid : aes.iv.valid = true) {rtb : Bool}
    (hrtb : ¬(rtb = true ∧ length > blockSize * (length / blockSize))) (encryption : Bool) (data : Data)
    : aes.encrypt cipher data length encryption rtb
        = (true, { aes with
              iv := aes.iv.setBlock
                (eachBlock (cipher.cbc aes.key encryption) (length / blockSize) data aes.iv.block).2 },
            (eachBlock (cipher.cbc aes.key encryption) (length / blockSize) data aes.iv.block).1) := by
  unfold encrypt
  rw [if_neg (by simp [hctr]), if_pos hvalid]
  dsimp only
  rw [if_neg hrtb, if_neg (fun h => hrtb h.2)]

-- With one
theorem encrypt_residual (hctr : aes.ctr = false) (hvalid : aes.iv.valid = true)
    (hmore : length > blockSize * (length / blockSize)) (encryption : Bool) (data : Data)
    : ∃ m : Data, m.bytes = data.bytes
        ∧ (aes.encrypt cipher data length encryption true).1 = true
        ∧ ∀ x, (aes.encrypt cipher data length encryption true).2.2.bytes x
            = let r := (eachBlock (cipher.cbc aes.key encryption) (length / blockSize) m aes.iv.block).1
              let lastFull : Int := ((blockSize * (length / blockSize) : Nat) : Int) - blockSize
              if ((blockSize * (length / blockSize) : Nat) : Int) ≤ x ∧ x < length then
                r.bytes x ^^^ residualMask cipher aes aes.iv (blockSize * (length / blockSize))
                  (if encryption then r.load lastFull else data.load lastFull)
                  (Fin.ofNat 16 (x - (blockSize * (length / blockSize) : Nat)).toNat)
              else
                r.bytes x := by
  have hle := encLength_le length
  refine ⟨if encryption = false ∧ true = true ∧ length > blockSize * (length / blockSize) then
    data.touch ((blockSize * (length / blockSize) : Nat) - blockSize) blockSize else data, ?_, ?_, ?_⟩
  . apply Window.bytes_ite_touch
  . unfold encrypt
    rw [if_neg (by simp [hctr]), if_pos hvalid]
    dsimp only
    rw [if_pos ⟨rfl, hmore⟩]
  . intro x
    have hend : ((blockSize * (length / blockSize) : Nat) : Int) + (length - blockSize * (length / blockSize) : Nat)
        = length := by omega
    unfold encrypt
    rw [if_neg (by simp [hctr]), if_pos hvalid]
    dsimp only
    rw [if_pos ⟨rfl, hmore⟩]
    dsimp only
    rw [Window.bytes_eachFrom, hend, Window.bytes_ite_touch]
    rfl

/-
What is encrypted with an object is decrypted with another one that is like it, where the same data stands.
-/
def Inverts (cipher : Cipher) (aes : AES) (data : Data) (length : Nat) (rtb : Bool) : Prop :=
  (aes.encrypt cipher data length true rtb).1 = true → ∀ data' : Data,
    (∀ x : Int, 0 ≤ x → x < length → data'.bytes x = (aes.encrypt cipher data length true rtb).2.2.bytes x) →
      (aes.encrypt cipher data' length false rtb).1 = true
        ∧ ∀ x : Int, 0 ≤ x → x < length → (aes.encrypt cipher data' length false rtb).2.2.bytes x = data.bytes x

theorem inverts_ctr (hctr : aes.ctr = true) (data : Data) (length : Nat) (rtb : Bool)
    : Inverts cipher aes data length rtb := by
  unfold Inverts
  by_cases hready : aes.key.size = .bits128 ∧ aes.iv.valid = true
  . simp only [encrypt_ctr hctr hready.1 hready.2]
    intro _ data' hsame
    refine ⟨trivial, ?_⟩
    intro x hpos hlt
    have hx := hsame x hpos hlt
    rw [Window.bytes_eachFrom, if_pos (by omega)] at hx
    rw [Window.bytes_eachFrom, if_pos (by omega), hx, xor_xor_cancel]
  . rw [encrypt_ctr_refused hctr hready]
    intro h
    contradiction

theorem blockStart_le (length : Nat) : blockStart 16 (length / blockSize) ≤ length :=
  Int.ofNat_le.mpr (encLength_le length)

-- The rest of the data stays as it is
theorem inverts_ecb (hctr : aes.ctr = false) (hvalid : aes.iv.valid = false) (data : Data) (length : Nat) (rtb : Bool)
    : Inverts cipher aes data length rtb := by
  unfold Inverts
  simp only [encrypt_ecb hctr hvalid]
  intro _ data' hsame
  refine ⟨trivial, ?_⟩
  intro x hpos hlt
  exact Window.eachBlock_inverse_rest (ecb_inverse aes.key) (blockStart_le length) hsame hpos hlt

theorem inverts_cbc (hctr : aes.ctr = false) (hvalid : aes.iv.valid = true) (data : Data) {length : Nat} {rtb : Bool}
    (hrtb : ¬(rtb = true ∧ length > blockSize * (length / blockSize)))
    : Inverts cipher aes data length rtb := by
  unfold Inverts
  simp only [encrypt_cbc hctr hvalid hrtb]
  intro _ data' hsame
  refine ⟨trivial, ?_⟩
  intro x hpos hlt
  exact Window.eachBlock_inverse_rest (cbc_inverse aes.key) (blockStart_le length) hsame hpos hlt

-- The mask is the same whenever the last of the whole blocks is
theorem residualMask_congr {p p' : Block} (initialIv : AESKey) (encLength : Nat) (h : encLength ≠ 0 → p = p')
    : residualMask cipher aes initialIv encLength p = residualMask cipher aes initialIv encLength p' := by
  unfold residualMask
  split
  . next hne => rw [h hne]
  . rfl

theorem inverts_residual (hctr : aes.ctr = false) (hvalid : aes.iv.valid = true) (data : Data) {length : Nat}
    (hmore : length > blockSize * (length / blockSize))
    : Inverts cipher aes data length true := by
  intro _ data' hsame
  obtain ⟨m, hm, -, hencrypted⟩ := @encrypt_residual cipher aes length hctr hvalid hmore true data
  obtain ⟨m', hm', hok, hdecrypted⟩ := @encrypt_residual cipher aes length hctr hvalid hmore false data'
  refine ⟨hok, ?_⟩
  have hle := blockStart_le length
  rw [← blockStart_div] at hencrypted hdecrypted
  simp only [if_pos, if_neg Bool.false_ne_true] at hencrypted hdecrypted
  generalize hr : (eachBlock (cipher.cbc aes.key true) (length / blockSize) m aes.iv.block).1 = r at *
  have hblocks : ∀ x, 0 ≤ x → x < blockStart 16 (length / blockSize) → data'.bytes x = r.bytes x := by
    intro x hpos hlt
    rw [hsame x hpos (by omega), hencrypted, if_neg (by omega)]
  have hmask : residualMask cipher aes aes.iv (blockSize * (length / blockSize))
        (r.load (blockStart 16 (length / blockSize) - blockSize))
      = residualMask cipher aes aes.iv (blockSize * (length / blockSize))
        (data'.load (blockStart 16 (length / blockSize) - blockSize)) := by
    apply residualMask_congr
    intro hne
    have hfull := blockSize_le hne
    apply Window.load_congr
    intro x hlow hhigh
    have hend : x < blockStart 16 (length / blockSize) - blockSize + blockSize := hhigh
    exact (hblocks x (by omega) (by omega)).symm
  intro x hpos hlt
  rw [hdecrypted]
  by_cases hx : x < blockStart 16 (length / blockSize)
  . rw [if_neg (by omega), ← hm]
    apply Window.eachBlock_inverse (cbc_inverse aes.key) _ hpos hx
    intro y hy hylt
    rw [hm', hblocks y hy hylt, hr]
  . have houtside : x < 0 ∨ blockStart 16 (length / blockSize) ≤ x := Or.inr (Int.not_lt.mp hx)
    have hin : blockStart 16 (length / blockSize) ≤ x ∧ x < length := ⟨Int.not_lt.mp hx, hlt⟩
    have hrest : r.bytes x = m.bytes x := by
      rw [← hr]
      exact Window.eachBlock_outside _ _ _ _ houtside
    rw [if_pos hin, Window.eachBlock_outside _ _ _ _ houtside, hm', hsame x hpos hlt, hencrypted, if_pos hin, hmask,
      xor_xor_cancel, hrest, hm]

theorem inverts (cipher : Cipher) (aes : AES) (data : Data) (length : Nat) (rtb : Bool)
    : Inverts cipher aes data length rtb := by
  cases hctr : aes.ctr with
  | true => exact inverts_ctr hctr data length rtb
  | false =>
    cases hvalid : aes.iv.valid with
    | false => exact inverts_ecb hctr hvalid data length rtb
    | true =>
      by_cases hrtb : rtb = true ∧ length > blockSize * (length / blockSize)
      . rw [hrtb.1]
        exact inverts_residual hctr hvalid data hrtb.2
      . exact inverts_cbc hctr hvalid data hrtb

-- Without a residual block, what is behind the whole blocks stays as it is
theorem encrypt_partial (hctr : aes.ctr = false) (encryption : Bool) (data : Data) {x : Int}
    (hx : blockStart 16 (length / blockSize) ≤ x)
    : (aes.encrypt cipher data length encryption false).2.2.bytes x = data.bytes x := by
  cases hvalid : aes.iv.valid with
  | false =>
    rw [encrypt_ecb hctr hvalid]
    exact Window.eachBlock_outside _ _ _ _ (Or.inr hx)
  | true =>
    rw [encrypt_cbc hctr hvalid (by simp)]
    exact Window.eachBlock_outside _ _ _ _ (Or.inr hx)

/-
What is accessed.
-/

-- A decryption of less than a block, with a residual block, saves the block in front of the data
def SavesBefore (aes : AES) (length : Nat) (encryption rtb : Bool) : Prop :=
  aes.ctr = false ∧ aes.iv.valid = true ∧ encryption = false ∧ rtb = true ∧ 0 < length ∧ length < blockSize

-- The last of the whole blocks is in the data, if there is one
theorem within_touch_last (hdata : data.Within length) (hne : blockSize * (length / blockSize) ≠ 0)
    : (data.touch (blockStart 16 (length / blockSize) - blockSize) blockSize).Within length := by
  have hfull := blockSize_le hne
  have hle := blockStart_le length
  exact Window.within_touch hdata (by omega) (by omega)

theorem within_residual (hctr : aes.ctr = false) (hvalid : aes.iv.valid = true)
    (hmore : length > blockSize * (length / blockSize)) (hdata : data.Within length) {encryption : Bool}
    (hdecrypt : encryption = false → blockSize * (length / blockSize) ≠ 0)
    : (aes.encrypt cipher data length encryption true).2.2.Within length := by
  have hsaved : (if encryption = false ∧ true = true ∧ length > blockSize * (length / blockSize) then
      data.touch ((blockSize * (length / blockSize) : Nat) - blockSize) blockSize
      else data).Within length := by
    split
    . next hc => exact within_touch_last hdata (hdecrypt hc.1)
    . exact hdata
  have hcbc := Window.within_eachBlock (cipher.cbc aes.key encryption) aes.iv.block (blockStart_le length) hsaved
  have hpos := Window.blockStart_nonneg 16 (length / blockSize)
  unfold encrypt
  rw [if_neg (by simp [hctr]), if_pos hvalid]
  dsimp only
  rw [if_pos ⟨rfl, hmore⟩]
  apply Window.within_eachFrom
  . exact hpos
  . omega
  . split
    . next hc => exact within_touch_last hcbc hc.2
    . exact hcbc

theorem within_encrypt (hdata : data.Within length) {encryption rtb : Bool}
    (h : ¬SavesBefore aes length encryption rtb)
    : (aes.encrypt cipher data length encryption rtb).2.2.Within length := by
  cases hctr : aes.ctr with
  | true =>
    by_cases hready : aes.key.size = .bits128 ∧ aes.iv.valid = true
    . rw [encrypt_ctr hctr hready.1 hready.2]
      exact Window.within_eachFrom _ _ (Int.le_refl 0) (by omega) hdata
    . rw [encrypt_ctr_refused hctr hready]
      exact hdata
  | false =>
    cases hvalid : aes.iv.valid with
    | false =>
      rw [encrypt_ecb hctr hvalid]
      exact Window.within_eachBlock _ _ (blockStart_le length) hdata
    | true =>
      by_cases hrtb : rtb = true ∧ length > blockSize * (length / blockSize)
      . obtain ⟨rfl, hmore⟩ := hrtb
        apply within_residual hctr hvalid hmore hdata
        -- Less than a block is not decrypted
        intro hdirection hzero
        apply h
        refine ⟨hctr, hvalid, hdirection, rfl, by omega, ?_⟩
        rw [← Nat.div_eq_zero_iff_lt (by decide : 0 < blockSize)]
        exact (Nat.mul_eq_zero.mp hzero).resolve_left (by decide)
      . rw [encrypt_cbc hctr hvalid hrtb]
        exact Window.within_eachBlock _ _ (blockStart_le length) hdata

theorem not_within_encrypt {encryption rtb : Bool} (h : SavesBefore aes length encryption rtb)
    : ¬(aes.encrypt cipher data length encryption rtb).2.2.Within length := by
  obtain ⟨hctr, hvalid, rfl, rfl, hpos, hlt⟩ := h
  have hzero : length / blockSize = 0 := Nat.div_eq_of_lt hlt
  have hmore : length > blockSize * (length / blockSize) := by
    rw [hzero, Nat.mul_zero]
    exact hpos
  intro hwithin
  have hbefore : ((-16, 16) : Int × Nat) ∈ (aes.encrypt cipher data length false true).2.2.accesses := by
    unfold encrypt
    rw [if_neg (by simp [hctr]), if_pos hvalid]
    dsimp only
    rw [if_pos ⟨rfl, hmore⟩]
    apply Window.mem_accesses_eachFrom
    rw [if_neg (by simp), if_pos ⟨rfl, rfl, hmore⟩, hzero]
    exact List.mem_append_right _ (List.mem_singleton_self _)
  have hin := (hwithin _ hbefore).1
  contradiction

end InPlace

-- Nothing has been accessed yet
def fresh (bytes : Int → UInt8) : Data := { bytes, accesses := [] }

/--
All that is accessed is in the data, if and only if it is not a residual block alone that is decrypted.
-/
theorem within_encrypt_iff (cipher : Cipher) (aes : AES) (bytes : Int → UInt8) (length : Nat) (encryption rtb : Bool)
    : (aes.encrypt cipher (fresh bytes) length encryption rtb).2.2.Within length
        ↔ ¬(aes.ctr = false ∧ aes.iv.valid = true ∧ encryption = false ∧ rtb = true ∧ 0 < length
          ∧ length < blockSize) := by
  have hfresh : (fresh bytes).Within length := fun access h => absurd h List.not_mem_nil
  constructor
  . intro hwithin h
    exact not_within_encrypt h hwithin
  . exact within_encrypt hfresh

-- What AES makes of a block of zeros with a key of zeros
def zeroCiphertext : Block :=
  ![0x66, 0xe9, 0x4b, 0xd4, 0xef, 0x8a, 0x2c, 0x3b, 0x88, 0x4c, 0xfa, 0x59, 0xca, 0x34, 0x2b, 0x2e]

-- A cipher that does the same with this block
def sampleCipher : Cipher where
  encrypt _ := Equiv.swap (fun _ => 0) zeroCiphertext
  decrypt _ := (Equiv.swap (fun _ => 0) zeroCiphertext).symm
  decrypt_encrypt _ := (Equiv.swap (fun _ => 0) zeroCiphertext).symm_apply_apply
  keystream _ _ i := zeroCiphertext (Fin.ofNat 16 i)

def sampleKey (c : UInt8) : AESKey := { key := fun _ => c, size := .bits128, valid := true }

theorem not_within_residual
    : ¬∀ (cipher : Cipher) (aes : AES) (bytes : Int → UInt8) (length : Nat) (encryption rtb : Bool),
        (aes.encrypt cipher (fresh bytes) length encryption rtb).2.2.Within length := by
  intro h
  have hone := h sampleCipher { key := sampleKey 0, iv := sampleKey 0, shortRand := sampleKey 0, ctr := false }
    (fun _ => 0) 1 false true
  exact not_within_encrypt ⟨rfl, rfl, rfl, rfl, by decide, by decide⟩ hone

end AES

end Crypto
end ObTools
