import Mathlib.Algebra.Group.Int.Defs
import Mathlib.Algebra.Group.Nat.Defs
import Mathlib.Data.List.TakeWhile
import ObTools.Lib.Digits

/-!
This module contains the model of the conversions between numbers and strings of `Text`, and the proof that
numbers are read as they have been written.
-/

namespace ObTools
namespace Text

-- `%d`
def itos (i : Int32) : List UInt8 := (toString i.toInt).toList.map Char.toUInt8

def isSpace (c : UInt8) : Bool := c = 32 || (9 ≤ c && c ≤ 13)

-- Whether the number is negative, and what comes behind the sign
def scanSign (s : List UInt8) : Bool × List UInt8 :=
  if s.head? = some 45 then
    (true, s.tail)
  else if s.head? = some 43 then
    (false, s.tail)
  else
    (false, s)

-- A hexadecimal number can start with `0x`
def skip0x (base : Nat) (s : List UInt8) : List UInt8 :=
  if base = 16 ∧ s.head? = some 48 ∧ (s.tail.head? = some 120 ∨ s.tail.head? = some 88) then
    s.drop 2
  else
    s

/-
The number that `sscanf` finds with `%llu` or `%lx`, 0 if it finds none.
-/
def scan (base : Nat) (s : List UInt8) : UInt64 :=
  let (negative, s) := scanSign (s.dropWhile isSpace)
  let n := Digits.ofBytes base ((skip0x base s).takeWhile (Digits.isDigit base))
  if n ≥ 2 ^ 64 then
    0xFFFFFFFFFFFFFFFF
  else if negative then
    -UInt64.ofNat n
  else
    UInt64.ofNat n

-- The value as a `long`, converted to an `int`
def atoi (s : List UInt8) : Int32 :=
  let (negative, s) := scanSign (s.dropWhile isSpace)
  let n : Int := Digits.ofBytes 10 (s.takeWhile (Digits.isDigit 10))
  Int32.ofInt (if negative then max (-n) (-2 ^ 63) else min n (2 ^ 63 - 1))

def stoi (s : List UInt8) : Int32 := atoi s

-- `%llu`
def i64tos (i : UInt64) : List UInt8 := Digits.toBytes 10 i.toNat

def stoi64 (s : List UInt8) : UInt64 := scan 10 s

-- `%x` into an `unsigned int`
def xtoi (s : List UInt8) : UInt32 := (scan 16 s).toUInt32

variable {base : Nat} {digits : List UInt8}

theorem isDigit_spec
    : ∀ c : UInt8, Digits.value c < 16 →
        isSpace c = false ∧ c ≠ 45 ∧ c ≠ 43 ∧ c ≠ 120 ∧ c ≠ 88 ∧ c ≠ 0 := by
  apply Digits.forall_byte
  decide

theorem value_lt (hle : base ≤ 16) (h : ∀ c ∈ digits, Digits.isDigit base c = true)
    : ∀ c ∈ digits, Digits.value c < 16 := by
  intro c hc
  have := of_decide_eq_true (h c hc)
  omega

section Digits

variable (hle : base ≤ 16) (h : ∀ c ∈ digits, Digits.isDigit base c = true)
include hle h

-- There is nothing in front of the digits
theorem dropWhile_isSpace_digits : digits.dropWhile isSpace = digits := by
  cases digits with
  | nil => rfl
  | cons d ds =>
    rw [List.dropWhile_cons_of_neg (by simp [isDigit_spec d (value_lt hle h d (by simp))])]

theorem scanSign_digits : scanSign digits = (false, digits) := by
  cases digits with
  | nil => rfl
  | cons d ds =>
    have := isDigit_spec d (value_lt hle h d (by simp))
    simp [scanSign, this]

theorem skip0x_digits : skip0x base digits = digits := by
  unfold skip0x
  split
  . next hx =>
    obtain ⟨-, -, hx⟩ := hx
    cases digits with
    | nil => simp at hx
    | cons d ds =>
      cases ds with
      | nil => simp at hx
      | cons x ds =>
        have := isDigit_spec x (value_lt hle h x (by simp))
        simp [this] at hx
  . rfl

theorem ofBytes_takeWhile_digits
    : Digits.ofBytes base ((skip0x base digits).takeWhile (Digits.isDigit base))
        = Digits.ofBytes base digits := by
  have hall : digits.takeWhile (Digits.isDigit base) = digits :=
    List.takeWhile_eq_self_iff.mpr h
  rw [skip0x_digits hle h, hall]

theorem scan_digits (hlt : Digits.ofBytes base digits < 2 ^ 64)
    : scan base digits = UInt64.ofNat (Digits.ofBytes base digits) := by
  unfold scan
  rw [dropWhile_isSpace_digits hle h, scanSign_digits hle h]
  dsimp only
  rw [ofBytes_takeWhile_digits hle h, if_neg (by omega), if_neg (by decide)]

theorem scan_negative (hlt : Digits.ofBytes base digits < 2 ^ 64)
    : scan base (45 :: digits) = -UInt64.ofNat (Digits.ofBytes base digits) := by
  have hsign : scanSign ((45 :: digits).dropWhile isSpace) = (true, digits) := by
    rw [List.dropWhile_cons_of_neg (by decide)]
    simp [scanSign]
  unfold scan
  rw [hsign]
  dsimp only
  rw [ofBytes_takeWhile_digits hle h, if_neg (by omega), if_pos rfl]

end Digits

/--
A number of 16 bits, in hexadecimal with leading zeros.
-/
theorem xtoi_hex {n k : Nat} (hn : n < 2 ^ 32)
    : xtoi (List.replicate k 48 ++ Digits.toBytes 16 n) = UInt32.ofNat n := by
  have hdigits : ∀ c ∈ List.replicate k 48 ++ Digits.toBytes 16 n,
      Digits.isDigit 16 c = true := by
    intro c hc
    rw [List.mem_append] at hc
    cases hc with
    | inl hzero =>
      rw [List.eq_of_mem_replicate hzero]
      decide
    | inr hdigit => exact Digits.isDigit_of_mem_toBytes (by decide) (by decide) hdigit
  have hvalue : Digits.ofBytes 16 (List.replicate k 48 ++ Digits.toBytes 16 n) = n := by
    rw [Digits.ofBytes_zeros, Digits.ofBytes_toBytes (by decide) (by decide)]
  unfold xtoi
  rw [scan_digits (by decide) hdigits (by omega), hvalue, ← UInt32.toNat_inj,
    UInt64.toNat_toUInt32, UInt64.toNat_ofNat', UInt32.toNat_ofNat']
  omega

theorem stoi64_decimal {n : Nat} (hn : n < 2 ^ 64)
    : stoi64 (Digits.toBytes 10 n) = UInt64.ofNat n
        ∧
      stoi64 (45 :: Digits.toBytes 10 n) = -UInt64.ofNat n := by
  have hdigits : ∀ c ∈ Digits.toBytes 10 n, Digits.isDigit 10 c = true := by
    intro c hc
    exact Digits.isDigit_of_mem_toBytes (by decide) (by decide) hc
  have hvalue : Digits.ofBytes 10 (Digits.toBytes 10 n) = n :=
    Digits.ofBytes_toBytes (by decide) (by decide) n
  unfold stoi64
  rw [scan_digits (by decide) hdigits (by omega), scan_negative (by decide) hdigits (by omega),
    hvalue]
  exact ⟨rfl, rfl⟩

/--
A number is cut off, first to a `long` and then to an `int`.
-/
theorem stoi_decimal (n : Nat) : stoi (Digits.toBytes 10 n) = Int32.ofInt (min n (2 ^ 63 - 1)) := by
  have hdigits : ∀ c ∈ Digits.toBytes 10 n, Digits.isDigit 10 c = true := by
    intro c hc
    exact Digits.isDigit_of_mem_toBytes (by decide) (by decide) hc
  have hall : (Digits.toBytes 10 n).takeWhile (Digits.isDigit 10) = Digits.toBytes 10 n :=
    List.takeWhile_eq_self_iff.mpr hdigits
  unfold stoi atoi
  rw [dropWhile_isSpace_digits (by decide) hdigits, scanSign_digits (by decide) hdigits]
  dsimp only
  rw [hall, Digits.ofBytes_toBytes (by decide) (by decide), if_neg Bool.false_ne_true]

end Text
end ObTools
