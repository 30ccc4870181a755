import Mathlib.Data.List.Basic
import Mathlib.Data.Nat.Bitwise

/-!
This module contains the theory of bit strings with the most significant bit in front, of the numbers they stand for,
and of the exponential Golomb codes: a number of zeros, a one, and as many bits again as there are zeros.
-/

namespace Bits

-- The `n` low bits of a number
def ofNat : Nat → Nat → List Bool
  | 0, _ => []
  | n + 1, v => v.testBit n :: ofNat n v

def toNat (l : List Bool) : Nat := l.foldl (fun v b => 2 * v + b.toNat) 0

@[simp]
theorem length_ofNat (n v : Nat) : (ofNat n v).length = n := by
  induction n with
  | zero => rfl
  | succ n ih => simp [ofNat, ih]

theorem ofNat_mod {n m : Nat} (v : Nat) (h : n ≤ m) : ofNat n (v % 2 ^ m) = ofNat n v := by
  induction n with
  | zero => rfl
  | succ n ih =>
    have hn : n < m := by omega
    simp only [ofNat, Nat.testBit_mod_two_pow, hn, decide_true, Bool.true_and]
    rw [ih (by omega)]

/--
Shifting in a bit at the end.
-/
theorem ofNat_snoc (n v : Nat) (b : Bool) : ofNat (n + 1) (2 * v + b.toNat) = ofNat n v ++ [b] := by
  induction n with
  | zero =>
    cases b <;> simp [ofNat, Nat.testBit_zero]
  | succ n ih =>
    have hbit : (2 * v + b.toNat).testBit (n + 1) = v.testBit n := by
      rw [Nat.testBit_add_one]
      congr
      have := b.toNat_lt
      omega
    rw [ofNat, ih, hbit]
    rfl

theorem ofNat_shiftLeft (n k v : Nat)
    : ofNat (n + k) (v * 2 ^ k) = ofNat n v ++ List.replicate k false := by
  induction k with
  | zero => simp
  | succ k ih =>
    have hdouble : v * 2 ^ (k + 1) = 2 * (v * 2 ^ k) + Bool.toNat false := by
      rw [Nat.pow_succ]
      simp only [Bool.toNat_false, Nat.add_zero]
      rw [← Nat.mul_assoc, Nat.mul_comm]
    rw [hdouble, ← Nat.add_assoc, ofNat_snoc, ih, List.replicate_succ', List.append_assoc]

theorem toNat_snoc (l : List Bool) (b : Bool) : toNat (l ++ [b]) = 2 * toNat l + b.toNat := by
  simp [toNat]

theorem foldl_eq (l : List Bool) (v : Nat)
    : l.foldl (fun v b => 2 * v + b.toNat) v = v * 2 ^ l.length + toNat l := by
  induction l generalizing v with
  | nil => simp [toNat]
  | cons b l ih =>
    have htoNat : toNat (b :: l) = b.toNat * 2 ^ l.length + toNat l := by
      unfold toNat
      rw [List.foldl_cons, ih, Nat.mul_zero, Nat.zero_add]
      rfl
    rw [List.foldl_cons, ih, htoNat, List.length_cons, Nat.pow_succ, Nat.add_mul, Nat.mul_comm 2 v,
      Nat.mul_assoc, Nat.mul_comm 2, Nat.add_assoc]

theorem toNat_cons (b : Bool) (l : List Bool) : toNat (b :: l) = b.toNat * 2 ^ l.length + toNat l := by
  unfold toNat
  rw [List.foldl_cons, foldl_eq, Nat.mul_zero, Nat.zero_add]
  rfl

theorem toNat_lt (l : List Bool) : toNat l < 2 ^ l.length := by
  induction l with
  | nil => exact Nat.one_pos
  | cons b l ih =>
    rw [toNat_cons, List.length_cons, Nat.pow_succ]
    cases b with
    | false =>
      rw [Bool.toNat_false, Nat.zero_mul]
      omega
    | true =>
      rw [Bool.toNat_true, Nat.one_mul]
      omega

theorem toNat_ofNat (n v : Nat) : toNat (ofNat n v) = v % 2 ^ n := by
  induction n generalizing v with
  | zero => simp [ofNat, toNat, Nat.mod_one]
  | succ n ih =>
    obtain ⟨b, hv⟩ : ∃ b : Bool, v = 2 * (v / 2) + b.toNat := by
      refine ⟨v.testBit 0, ?_⟩
      rw [Nat.testBit_zero]
      cases Nat.mod_two_eq_zero_or_one v with
      | inl h => simp [h]; omega
      | inr h => simp [h]; omega
    have hb := b.toNat_lt
    have hdiv : (2 * (v / 2) + b.toNat) / 2 = v / 2 := by omega
    have hmod : (2 * (v / 2) + b.toNat) % 2 = b.toNat := by omega
    rw [hv, ofNat_snoc, toNat_snoc, ih, Nat.pow_succ, Nat.mul_comm (2 ^ n), Nat.mod_mul, hdiv, hmod]
    rw [Nat.add_comm]

end Bits

namespace ExpGolomb

-- A code at the start of a string of bits, and what follows on it
structure IsCode (bits : List Bool) (value : Nat) (rest suffix : List Bool) : Prop where
  bits_eq : bits = List.replicate suffix.length false ++ true :: (suffix ++ rest)
  value_eq : value = 2 ^ suffix.length - 1 + Bits.toNat suffix

def leadingZeros : List Bool → Nat
  | false :: bits => leadingZeros bits + 1
  | _ => 0

-- The number of bits behind the first one
def behind (bits : List Bool) : Nat := bits.length - leadingZeros bits - 1

theorem leadingZeros_replicate_append (k : Nat) (rest : List Bool)
    : leadingZeros (List.replicate k false ++ true :: rest) = k := by
  induction k with
  | zero => rfl
  | succ k ih =>
    rw [List.replicate_succ, List.cons_append, leadingZeros, ih]

theorem behind_replicate_append (k : Nat) (rest : List Bool)
    : behind (List.replicate k false ++ true :: rest) = rest.length := by
  unfold behind
  rw [leadingZeros_replicate_append, List.length_append, List.length_replicate, List.length_cons]
  omega

theorem cases (bits : List Bool)
    : bits = List.replicate (leadingZeros bits) false
        ∨
      ∃ rest, bits = List.replicate (leadingZeros bits) false ++ true :: rest := by
  induction bits with
  | nil => exact .inl rfl
  | cons b bits ih =>
    cases b with
    | true => exact .inr ⟨bits, rfl⟩
    | false =>
      rw [leadingZeros, List.replicate_succ]
      rcases ih with hzeros | ⟨rest, hrest⟩
      . exact .inl (congrArg _ hzeros)
      . exact .inr ⟨rest, congrArg (List.cons false) hrest⟩

variable {bits rest suffix : List Bool} {value : Nat}

theorem IsCode.leadingZeros_eq (h : IsCode bits value rest suffix) : leadingZeros bits = suffix.length := by
  rw [h.bits_eq, leadingZeros_replicate_append]

theorem IsCode.le_behind (h : IsCode bits value rest suffix)
    : leadingZeros bits < bits.length ∧ leadingZeros bits ≤ behind bits := by
  rw [h.leadingZeros_eq, h.bits_eq, behind_replicate_append, List.length_append, List.length_append,
    List.length_replicate, List.length_cons]
  omega

end ExpGolomb
