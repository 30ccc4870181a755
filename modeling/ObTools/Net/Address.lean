import ObTools.Lib.Delimiter
import ObTools.Text.Convert

/-!
This module contains the model of `IPAddress` and `MaskedAddress`, of what a text in CIDR form denotes, and the proof of
which masks come back from the text that they are written as.
-/

namespace ObTools
namespace Net

abbrev Bytes := List UInt8

/-
The names that the machine knows, and what the compiler makes of a shift that the language leaves undefined.
-/
structure Host where
  -- `inet_addr`, in host byte order: `INADDR_NONE` is given for `none`
  inetAddr : Bytes → Option UInt32
  -- `gethostbyname_r`, in host byte order
  getHostByName : Bytes → Option UInt32
  -- `1 << n` where `n` is not from 0 to 31
  shift : Int → UInt32

def Host.lookup (host : Host) (hostname : Bytes) : Option UInt32 :=
  -- The functions of the system are given a C string
  let hostname := hostname.takeWhile (· ≠ 0)
  if hostname.head?.any (Digits.isDigit 10) then host.inetAddr hostname else host.getHostByName hostname

-- Host byte order
structure IPAddress where
  address : UInt32
deriving DecidableEq, Repr

namespace IPAddress

def BADADDR : UInt32 := 0xffffffff

def bad : IPAddress := { address := BADADDR }

-- Name lookup constructor
def ofName (host : Host) (hostname : Bytes) : IPAddress := { address := (host.lookup hostname).getD BADADDR }

-- Get dotted quad, as `inet_ntoa` makes it
def getDottedQuad (a : IPAddress) : Bytes :=
  let octet (shift : UInt32) := Digits.toBytes 10 (a.address >>> shift &&& 0xFF).toNat
  octet 24 ++ 46 :: octet 16 ++ 46 :: octet 8 ++ 46 :: octet 0

-- Get network number given a mask
def and (a mask : IPAddress) : IPAddress := { address := a.address &&& mask.address }

end IPAddress

structure MaskedAddress where
  address : IPAddress
  mask : IPAddress
deriving DecidableEq, Repr

namespace MaskedAddress

-- Work out mask bits from number of bits
def maskBits (host : Host) (n : Int32) : UInt32 :=
  if n = 0 then
    0
  else
    let count := 32 - n.toInt
    let shifted := if 0 ≤ count ∧ count < 32 then 1 <<< UInt32.ofNat count.toNat else host.shift count
    ~~~(shifted - 1)

-- Constructor from CIDR-form a.b.c.d/xx or a.b.c.d/A.B.C.D
def ofCidr (host : Host) (cidr : Bytes) : MaskedAddress :=
  if 47 ∈ cidr then
    let addr := cidr.takeWhile (· ≠ 47)
    let mask := cidr.drop (addr.length + 1)
    { address := .ofName host addr
      -- Check for dots, otherwise it's a bit count
      mask := if 46 ∈ mask then .ofName host mask else { address := maskBits host (Text.atoi mask) } }
  else
    { address := .ofName host cidr, mask := .bad }

-- One operation of the binary chop
def chop (test : UInt32) (bits : Nat) (keep : UInt32) (s : Nat × UInt32) : Nat × UInt32 :=
  if s.2 &&& test ≠ 0 then (s.1 + bits, s.2 &&& keep) else s

-- Get number of network bits in mask
def getNetworkBits (m : MaskedAddress) : Nat :=
  let s := (0, m.mask.address)
  let s := chop 0xFFFF0000 16 0xFFFF s
  let s := chop 0xFF00 8 0xFF s
  let s := chop 0xF0 4 0xF s
  let s := chop 0xC0 2 3 s
  let s := chop 2 1 1 s
  s.1 + s.2.toNat

-- Get CIDR form, always with a number of bits
def getCidr (m : MaskedAddress) : Bytes :=
  m.address.getDottedQuad ++ if m.mask ≠ .bad then 47 :: Digits.toBytes 10 m.getNetworkBits else []

-- See if given address fits within masked subnet
def fits (a : MaskedAddress) (o : IPAddress) : Bool := a.address.and a.mask = o.and a.mask

end MaskedAddress

-- The first `n` bits
def netmask (n : Nat) : UInt32 := UInt32.ofNat (2 ^ 32 - 2 ^ (32 - n))

-- The number at the start of a text, as it is read by `atoi`
def leadingNumber (text : Bytes) : Option Nat :=
  let (negative, rest) := Text.scanSign (text.dropWhile Text.isSpace)
  let digits := rest.takeWhile (Digits.isDigit 10)
  if negative ∨ digits = [] then none else some (Digits.ofBytes 10 digits)

/-
The network and the mask that a text stands for. There are none for a name that is not known or a number of bits
that is not there.
-/
inductive Denotes (host : Host) : Bytes → UInt32 → UInt32 → Prop
  | whole {text : Bytes} {a : UInt32} (slash : 47 ∉ text) (address : host.lookup text = some a)
    : Denotes host text a (netmask 32)
  | bits {addr mask : Bytes} {a : UInt32} {n : Nat} (slash : 47 ∉ addr) (address : host.lookup addr = some a)
      (dot : 46 ∉ mask) (count : leadingNumber mask = some n) (le : n ≤ 32)
    : Denotes host (addr ++ 47 :: mask) a (netmask n)
  | quad {addr mask : Bytes} {a m : UInt32} (slash : 47 ∉ addr) (address : host.lookup addr = some a)
      (dot : 46 ∈ mask) (quad : host.lookup mask = some m)
    : Denotes host (addr ++ 47 :: mask) a m

variable {host : Host} {text mask : Bytes} {a m : UInt32} {n : Nat}

theorem atoi_of_leadingNumber (h : leadingNumber mask = some n) (hle : n ≤ 32) : Text.atoi mask = Int32.ofInt n := by
  unfold leadingNumber at h
  dsimp only at h
  split at h
  . cases h
  . next hnumber =>
    rw [not_or, Bool.not_eq_true] at hnumber
    rw [Option.some.injEq] at h
    unfold Text.atoi
    dsimp only
    rw [hnumber.1, h, if_neg Bool.false_ne_true, Int.min_eq_left (by omega)]

theorem maskBits_ofInt (host : Host) (hle : n ≤ 32) : MaskedAddress.maskBits host (Int32.ofInt n) = netmask n := by
  have hshift : ∀ k : Fin 32, ~~~((1 : UInt32) <<< UInt32.ofNat k - 1) = UInt32.ofNat (2 ^ 32 - 2 ^ k.val) := by decide
  have hint : (Int32.ofInt n).toInt = n := by
    have hsize : Int32.size = 2 ^ 32 := rfl
    rw [Int32.toInt_ofInt, hsize]
    exact Int.bmod_eq_of_le (by omega) (by omega)
  unfold MaskedAddress.maskBits
  split
  . next hzero =>
    rw [hzero, Int32.toInt_zero] at hint
    have hn : n = 0 := by omega
    rw [hn]
    rfl
  . next hne =>
    have hpos : n ≠ 0 := by
      rintro rfl
      exact hne rfl
    have hcount : (32 - (n : Int)).toNat = 32 - n := by omega
    dsimp only
    rw [hint, if_pos (by omega), hcount]
    exact hshift ⟨32 - n, by omega⟩

theorem ofName_of_lookup (h : host.lookup text = some a) : IPAddress.ofName host text = { address := a } := by
  unfold IPAddress.ofName
  rw [h]
  rfl

theorem ofCidr_slash {addr : Bytes} (slash : 47 ∉ addr)
    : MaskedAddress.ofCidr host (addr ++ 47 :: mask)
        = { address := .ofName host addr
            mask :=
              if 46 ∈ mask then .ofName host mask else { address := MaskedAddress.maskBits host (Text.atoi mask) } } := by
  have haddr : (addr ++ 47 :: mask).takeWhile (· ≠ 47) = addr := (Delimiter.takeWhile_ne slash mask).1
  have hmask : (addr ++ 47 :: mask).drop (addr.length + 1) = mask := by
    rw [← List.drop_drop, List.drop_left' rfl]
    rfl
  have hmem : 47 ∈ addr ++ 47 :: mask := List.mem_append_right _ List.mem_cons_self
  unfold MaskedAddress.ofCidr
  rw [if_pos hmem]
  dsimp only
  rw [haddr, hmask]

theorem Denotes.ofCidr_eq (h : Denotes host text a m)
    : MaskedAddress.ofCidr host text = { address := { address := a }, mask := { address := m } } := by
  cases h with
  | whole slash address =>
    unfold MaskedAddress.ofCidr
    rw [if_neg slash, ofName_of_lookup address]
    rfl
  | bits slash address dot count le =>
    rw [ofCidr_slash slash, if_neg dot, ofName_of_lookup address, atoi_of_leadingNumber count le, maskBits_ofInt host le]
  | quad slash address dot quad => rw [ofCidr_slash slash, if_pos dot, ofName_of_lookup address, ofName_of_lookup quad]

/-
Masks of the first bits.
-/

theorem toNat_netmask (n : Nat) : (netmask n).toNat = 2 ^ 32 - 2 ^ (32 - n) := by
  have hpos := Nat.two_pow_pos (32 - n)
  unfold netmask
  rw [UInt32.toNat_ofNat']
  omega

-- The bits that are left are those above the last ones
theorem toNat_and_netmask (a : UInt32) (hle : n ≤ 32)
    : (a &&& netmask n).toNat = a.toNat / 2 ^ (32 - n) * 2 ^ (32 - n) := by
  have hpos := Nat.two_pow_pos (32 - n)
  have hpow : 2 ^ (32 - n) ≤ 2 ^ 32 := Nat.pow_le_pow_right (by decide) (by omega)
  have hmask : 2 ^ 32 - 2 ^ (32 - n) = 2 ^ 32 - (2 ^ (32 - n) - 1 + 1) := by omega
  rw [UInt32.toNat_and, toNat_netmask, hmask]
  apply Nat.eq_of_testBit_eq
  intro i
  rw [Nat.testBit_and, Nat.testBit_two_pow_sub_succ (by omega), Nat.testBit_two_pow_sub_one, Nat.testBit_mul_two_pow,
    Nat.testBit_div_two_pow]
  by_cases hi : i < 32 - n
  . simp [hi, Nat.not_le_of_lt hi]
  . have hge : 32 - n ≤ i := Nat.le_of_not_lt hi
    rw [Nat.sub_add_cancel hge]
    by_cases h32 : i < 32
    . simp [hi, hge, h32]
    . have hzero : a.toNat.testBit i = false :=
        Nat.testBit_lt_two_pow (Nat.lt_of_lt_of_le a.toNat_lt (Nat.pow_le_pow_right (by decide) (Nat.le_of_not_lt h32)))
      simp [hi, h32, hzero]

theorem and_netmask_eq_iff (a o : UInt32) (hle : n ≤ 32)
    : a &&& netmask n = o &&& netmask n ↔ a.toNat / 2 ^ (32 - n) = o.toNat / 2 ^ (32 - n) := by
  rw [← UInt32.toNat_inj, toNat_and_netmask a hle, toNat_and_netmask o hle]
  exact Nat.mul_left_inj (Nat.two_pow_pos _).ne'

-- An address that differs in all bits that one mask leaves out tells the masks apart
theorem bits_le_of_and_eq {a m m' : UInt32} (h : ∀ o : UInt32, a &&& m = o &&& m → a &&& m' = o &&& m') (i : Nat)
    (hi : m'.toBitVec.getLsbD i = true)
    : m.toBitVec.getLsbD i = true := by
  have hlt := BitVec.lt_of_getLsbD hi
  have hsame : a &&& m = (a ^^^ ~~~m) &&& m := by
    rw [← UInt32.toBitVec_inj]
    apply BitVec.eq_of_getLsbD_eq
    intro j hj
    simp only [UInt32.toBitVec_and, UInt32.toBitVec_xor, UInt32.toBitVec_not, BitVec.getLsbD_and, BitVec.getLsbD_xor,
      BitVec.getLsbD_not, hj, decide_true, Bool.true_and]
    cases m.toBitVec.getLsbD j <;> simp
  have hother := congrArg (fun x : UInt32 => x.toBitVec.getLsbD i) (h _ hsame)
  simp only [UInt32.toBitVec_and, UInt32.toBitVec_xor, UInt32.toBitVec_not, BitVec.getLsbD_and, BitVec.getLsbD_xor,
    BitVec.getLsbD_not, hi, hlt, decide_true, Bool.true_and, Bool.and_true] at hother
  cases hbit : m.toBitVec.getLsbD i with
  | true => rfl
  | false =>
    rw [hbit] at hother
    simp at hother

theorem and_eq_iff (a m m' : UInt32) : (∀ o : UInt32, a &&& m = o &&& m ↔ a &&& m' = o &&& m') ↔ m = m' := by
  constructor
  . intro h
    rw [← UInt32.toBitVec_inj]
    apply BitVec.eq_of_getLsbD_eq
    intro i _
    rw [Bool.eq_iff_iff]
    exact ⟨bits_le_of_and_eq (fun o => (h o).mpr) i, bits_le_of_and_eq (fun o => (h o).mp) i⟩
  . rintro rfl
    exact fun _ => Iff.rfl

/-
The text of an address, and of a number of bits.
-/

theorem digit_ne : ∀ c : UInt8, Digits.isDigit 10 c = true → c ≠ 0 ∧ c ≠ 46 ∧ c ≠ 47 := by
  apply Digits.forall_byte
  decide

theorem isDigit_toBytes {c : UInt8} (h : c ∈ Digits.toBytes 10 n) : Digits.isDigit 10 c = true :=
  Digits.isDigit_of_mem_toBytes (by decide) (by decide) h

theorem isDigit_of_mem_dottedQuad {ip : IPAddress} {c : UInt8} (h : c ∈ ip.getDottedQuad)
    : Digits.isDigit 10 c = true ∨ c = 46 := by
  unfold IPAddress.getDottedQuad at h
  simp only [List.mem_append, List.mem_cons] at h
  rcases h with ((h | rfl | h) | rfl | h) | rfl | h
  . exact Or.inl (isDigit_toBytes h)
  . exact Or.inr rfl
  . exact Or.inl (isDigit_toBytes h)
  . exact Or.inr rfl
  . exact Or.inl (isDigit_toBytes h)
  . exact Or.inr rfl
  . exact Or.inl (isDigit_toBytes h)

theorem ne_of_mem_dottedQuad {ip : IPAddress} {c : UInt8} (h : c ∈ ip.getDottedQuad) : c ≠ 0 ∧ c ≠ 47 := by
  rcases isDigit_of_mem_dottedQuad h with hdigit | rfl
  . exact ⟨(digit_ne c hdigit).1, (digit_ne c hdigit).2.2⟩
  . decide

theorem head_dottedQuad (ip : IPAddress) : ip.getDottedQuad.head?.any (Digits.isDigit 10) = true := by
  unfold IPAddress.getDottedQuad
  dsimp only
  cases hdigits : Digits.toBytes 10 (ip.address >>> 24 &&& 0xFF).toNat with
  | nil => exact absurd hdigits Digits.toBytes_ne_nil
  | cons c digits =>
    have hc : c ∈ Digits.toBytes 10 (ip.address >>> 24 &&& 0xFF).toNat := by
      rw [hdigits]
      exact List.mem_cons_self
    exact isDigit_toBytes hc

theorem leadingNumber_toBytes (n : Nat) : leadingNumber (Digits.toBytes 10 n) = some n := by
  have hdigits : ∀ c ∈ Digits.toBytes 10 n, Digits.isDigit 10 c = true := fun _ hc => isDigit_toBytes hc
  unfold leadingNumber
  rw [Text.dropWhile_isSpace_digits (by decide) hdigits, Text.scanSign_digits (by decide) hdigits]
  dsimp only
  rw [List.takeWhile_eq_self_iff.mpr hdigits, Digits.ofBytes_toBytes (by decide) (by decide), if_neg]
  simp [Digits.toBytes_ne_nil]

-- The number of bits that is recovered from the mask of `n` bits
def recovered (n : Nat) : Nat := ({ address := .bad, mask := { address := netmask n } } : MaskedAddress).getNetworkBits

theorem getNetworkBits_netmask (ip : IPAddress) (n : Nat)
    : ({ address := ip, mask := { address := netmask n } } : MaskedAddress).getNetworkBits = recovered n := rfl

theorem recovered_cases : ∀ n : Fin 32,
    (recovered n ≤ 32 ∧ (recovered n = n ↔ n.val ∈ [0, 16, 24, 28]) ∧ n.val ≠ 29 ∧ n.val ≠ 30)
      ∨ (n.val = 29 ∧ recovered n = 36) ∨ (n.val = 30 ∧ recovered n = 40) := by
  decide

theorem recovered_le (hlt : n < 32) : recovered n ≤ 40 := by
  have hcases := recovered_cases ⟨n, hlt⟩
  dsimp only at hcases
  omega

theorem netmask_inj {n' : Nat} (hle : n ≤ 32) (hle' : n' ≤ 32) (h : netmask n = netmask n') : n = n' := by
  have heq := congrArg UInt32.toNat h
  have hpow := Nat.pow_le_pow_right (n := 2) (by decide) (show 32 - n ≤ 32 by omega)
  have hpow' := Nat.pow_le_pow_right (n := 2) (by decide) (show 32 - n' ≤ 32 by omega)
  rw [toNat_netmask, toNat_netmask] at heq
  have hexp := Nat.pow_right_injective (Nat.le_refl 2) (show 2 ^ (32 - n) = 2 ^ (32 - n') by omega)
  omega

-- The shift of the constructor by a number of bits that is not there
theorem maskBits_beyond (host : Host) {bits : Nat} (hlt : 32 < bits) (hle : bits ≤ 40) (hn : n ≤ 32)
    : MaskedAddress.maskBits host (Int32.ofInt bits) = netmask n
        ↔ host.shift (32 - bits) = UInt32.ofNat (2 ^ (32 - n)) := by
  have hmask : ∀ n : Fin 33, ~~~(UInt32.ofNat (2 ^ (32 - n.val)) - 1) = netmask n := by decide
  have hint : (Int32.ofInt bits).toInt = bits := by
    have hsize : Int32.size = 2 ^ 32 := rfl
    rw [Int32.toInt_ofInt, hsize]
    exact Int.bmod_eq_of_le (by omega) (by omega)
  have hne : Int32.ofInt bits ≠ 0 := by
    intro hzero
    rw [hzero, Int32.toInt_zero] at hint
    omega
  unfold MaskedAddress.maskBits
  dsimp only
  rw [if_neg hne, hint, if_neg (by omega), ← hmask ⟨n, by omega⟩]
  constructor
  . intro h
    have hsub := congrArg (~~~ ·) h
    simp only [UInt32.not_not] at hsub
    have hadd := congrArg (· + 1) hsub
    simpa only [UInt32.sub_add_cancel] using hadd
  . intro h
    rw [h]

-- For which masks the number of bits leads back to them
def Recovers (host : Host) (n : Nat) : Prop :=
  n ∈ [0, 16, 24, 28, 32] ∨ (n = 29 ∧ host.shift (-4) = 8) ∨ (n = 30 ∧ host.shift (-8) = 4)

theorem maskBits_recovered_iff (host : Host) (hlt : n < 32)
    : MaskedAddress.maskBits host (Int32.ofInt (recovered n)) = netmask n ↔ Recovers host n := by
  rcases recovered_cases ⟨n, hlt⟩ with ⟨hle, hiff, h29, h30⟩ | ⟨h29, hbits⟩ | ⟨h30, hbits⟩
  . dsimp only at hle hiff h29 h30
    have hinj : netmask (recovered n) = netmask n ↔ recovered n = n :=
      ⟨netmask_inj hle (Nat.le_of_lt hlt), congrArg netmask⟩
    rw [maskBits_ofInt host hle, hinj, hiff]
    unfold Recovers
    simp only [List.mem_cons, List.not_mem_nil, h29, h30, false_and, or_false]
    omega
  . dsimp only at h29 hbits
    subst h29
    rw [hbits, maskBits_beyond host (by decide) (by decide) (by decide)]
    unfold Recovers
    simp
  . dsimp only at h30 hbits
    subst h30
    rw [hbits, maskBits_beyond host (by decide) (by decide) (by decide)]
    unfold Recovers
    simp

section Inverse

-- What `inet_ntoa` gives is read back by `inet_addr`, which has no other result than `INADDR_NONE` for the last address
variable {ip : IPAddress} (hinverse : (host.inetAddr ip.getDottedQuad).getD IPAddress.BADADDR = ip.address)

include hinverse

theorem ofName_dottedQuad : IPAddress.ofName host ip.getDottedQuad = ip := by
  have hname : ip.getDottedQuad.takeWhile (· ≠ 0) = ip.getDottedQuad :=
    List.takeWhile_eq_self_iff.mpr fun c hc => by simpa using (ne_of_mem_dottedQuad hc).1
  unfold IPAddress.ofName Host.lookup
  dsimp only
  rw [hname, if_pos (head_dottedQuad ip), hinverse]

theorem ofCidr_dottedQuad : MaskedAddress.ofCidr host ip.getDottedQuad = { address := ip, mask := .bad } := by
  have hslash : 47 ∉ ip.getDottedQuad := fun h => (ne_of_mem_dottedQuad h).2 rfl
  unfold MaskedAddress.ofCidr
  rw [if_neg hslash, ofName_dottedQuad hinverse]

theorem ofCidr_bits (n : Nat)
    : MaskedAddress.ofCidr host (ip.getDottedQuad ++ 47 :: Digits.toBytes 10 n)
        = { address := ip, mask := { address := MaskedAddress.maskBits host (Text.atoi (Digits.toBytes 10 n)) } } := by
  have hslash : 47 ∉ ip.getDottedQuad := fun h => (ne_of_mem_dottedQuad h).2 rfl
  have hdot : 46 ∉ Digits.toBytes 10 n := fun h => (digit_ne 46 (isDigit_toBytes h)).2.1 rfl
  rw [ofCidr_slash hslash, if_neg hdot, ofName_dottedQuad hinverse]

theorem ofCidr_masked (hle : n ≤ 32)
    : MaskedAddress.ofCidr host (ip.getDottedQuad ++ 47 :: Digits.toBytes 10 n)
        = { address := ip, mask := { address := netmask n } } := by
  rw [ofCidr_bits hinverse, atoi_of_leadingNumber (leadingNumber_toBytes n) hle, maskBits_ofInt host hle]

-- The text that a mask of the first bits is written as, and what it is read as
theorem ofCidr_getCidr (hle : n ≤ 32)
    : MaskedAddress.ofCidr host ({ address := ip, mask := { address := netmask n } } : MaskedAddress).getCidr
        = { address := ip
            mask := { address := if n < 32 then MaskedAddress.maskBits host (Int32.ofInt (recovered n)) else netmask n } } := by
  have hbad : ∀ n : Fin 33, (netmask n ≠ 0xffffffff ↔ n.val < 32) := by decide
  have hmask : ({ address := netmask n } : IPAddress) ≠ .bad ↔ n < 32 := by
    rw [← hbad ⟨n, by omega⟩]
    simp [IPAddress.bad, IPAddress.BADADDR]
  unfold MaskedAddress.getCidr
  dsimp only
  by_cases hlt : n < 32
  . have hrecovered := getNetworkBits_netmask ip n
    rw [if_pos (hmask.mpr hlt), if_pos hlt, hrecovered, ofCidr_bits hinverse, ← Text.stoi, Text.stoi_decimal,
      Int.min_eq_left (by have := recovered_le hlt; omega)]
  . have hn : n = 32 := by omega
    rw [if_neg (mt hmask.mp hlt), if_neg hlt, List.append_nil, ofCidr_dottedQuad hinverse, hn]
    rfl

/--
An address in CIDR form stands for the addresses that share its first bits. The text that is made of it stands for the
same ones for 0, 16, 24, 28 and 32 bits, and otherwise by accident.
-/
theorem fits_getCidr_iff (hle : n ≤ 32)
    : (∀ o : IPAddress,
          (MaskedAddress.ofCidr host (ip.getDottedQuad ++ 47 :: Digits.toBytes 10 n)).fits o = true
            ↔ ip.address.toNat / 2 ^ (32 - n) = o.address.toNat / 2 ^ (32 - n))
        ∧
      ((∀ o : IPAddress,
          (MaskedAddress.ofCidr host
              (MaskedAddress.ofCidr host (ip.getDottedQuad ++ 47 :: Digits.toBytes 10 n)).getCidr).fits o
            = (MaskedAddress.ofCidr host (ip.getDottedQuad ++ 47 :: Digits.toBytes 10 n)).fits o)
        ↔ Recovers host n) := by
  have hfits (m : UInt32) (o : IPAddress)
      : ({ address := ip, mask := { address := m } } : MaskedAddress).fits o = true
        ↔ ip.address &&& m = o.address &&& m := by
    simp [MaskedAddress.fits, IPAddress.and]
  rw [ofCidr_masked hinverse hle]
  refine ⟨fun o => ?_, ?_⟩
  . rw [hfits, and_netmask_eq_iff _ _ hle]
  . have hsame (m m' : UInt32)
        : (∀ o : IPAddress, ({ address := ip, mask := { address := m } } : MaskedAddress).fits o
            = ({ address := ip, mask := { address := m' } } : MaskedAddress).fits o) ↔ m = m' := by
      rw [← and_eq_iff ip.address]
      constructor
      . intro h o
        rw [← hfits m { address := o }, ← hfits m' { address := o }, h]
      . intro h o
        rw [Bool.eq_iff_iff, hfits, hfits]
        exact h o.address
    rw [ofCidr_getCidr hinverse hle, hsame]
    by_cases hlt : n < 32
    . rw [if_pos hlt]
      exact maskBits_recovered_iff host hlt
    . rw [if_neg hlt]
      have hn : n = 32 := by omega
      unfold Recovers
      simp [hn]

end Inverse

-- Reads dotted quads, shifts as the processor does, and knows no names
def sampleHost : Host where
  inetAddr text := some (UInt32.ofNat (((text.splitOn 46).map (Digits.ofBytes 10)).foldl (fun n octet => 256 * n + octet) 0))
  getHostByName _ := none
  shift n := 1 <<< UInt32.ofNat (n % 32).toNat

-- `192.168.1.0`
def sampleAddress : IPAddress := { address := 0xC0A80100 }

theorem fits_getCidr_iff_sample
    : (∀ o : IPAddress,
          (MaskedAddress.ofCidr sampleHost (sampleAddress.getDottedQuad ++ 47 :: Digits.toBytes 10 24)).fits o = true
            ↔ sampleAddress.address.toNat / 2 ^ (32 - 24) = o.address.toNat / 2 ^ (32 - 24))
        ∧
      ((∀ o : IPAddress,
          (MaskedAddress.ofCidr sampleHost
              (MaskedAddress.ofCidr sampleHost
                (sampleAddress.getDottedQuad ++ 47 :: Digits.toBytes 10 24)).getCidr).fits o
            = (MaskedAddress.ofCidr sampleHost
                (sampleAddress.getDottedQuad ++ 47 :: Digits.toBytes 10 24)).fits o)
        ↔ Recovers sampleHost 24) :=
  fits_getCidr_iff (by decide) (by decide)

-- `10.0.0.0/8` is written as `10.0.0.0/16`, and `10.1.0.0` does not match that.
theorem not_fits_getCidr
    : (MaskedAddress.ofCidr sampleHost (({ address := 0x0A000000 } : IPAddress).getDottedQuad ++ [47, 56])).getCidr
          = ({ address := 0x0A000000 } : IPAddress).getDottedQuad ++ [47, 49, 54]
        ∧ ¬∀ (ip : IPAddress) (n : Nat), n ≤ 32 →
          (sampleHost.inetAddr ip.getDottedQuad).getD IPAddress.BADADDR = ip.address →
          ∀ o : IPAddress,
            (MaskedAddress.ofCidr sampleHost
                (MaskedAddress.ofCidr sampleHost (ip.getDottedQuad ++ 47 :: Digits.toBytes 10 n)).getCidr).fits o
              = (MaskedAddress.ofCidr sampleHost (ip.getDottedQuad ++ 47 :: Digits.toBytes 10 n)).fits o := by
  refine ⟨by decide, ?_⟩
  intro h
  have hfits := h { address := 0x0A000000 } 8 (by decide) (by decide) { address := 0x0A010000 }
  exact absurd hfits (by decide)

end Net
end ObTools
