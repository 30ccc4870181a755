import Mathlib.Algebra.Group.Nat.Defs
import Mathlib.Data.List.Basic

/-!
This module contains numbers as strings of digits, in any base up to 16.
-/

namespace Digits

def toBytes (base n : Nat) : List UInt8 := (Nat.toDigits base n).map Char.toUInt8

-- 16 or more if it is not a digit
def value (c : UInt8) : Nat :=
  if 48 ≤ c ∧ c ≤ 57 then
    c.toNat - 48
  else if 97 ≤ c ∧ c ≤ 102 then
    c.toNat - 87
  else if 65 ≤ c ∧ c ≤ 70 then
    c.toNat - 55
  else
    16

def isDigit (base : Nat) (c : UInt8) : Bool := value c < base

def ofBytes (base : Nat) (digits : List UInt8) : Nat :=
  digits.foldl (fun n c => base * n + value c) 0

-- A property of bytes that can be checked for all of them, by their two halves
theorem forall_byte {P : UInt8 → Prop} (h : ∀ high low : Fin 16, P (UInt8.ofNat (16 * high + low)))
    (c : UInt8)
    : P c := by
  have hlt := c.toNat_lt
  have hhigh : c.toNat / 16 < 16 := by omega
  have hlow : c.toNat % 16 < 16 := Nat.mod_lt _ (by decide)
  have hbyte := h ⟨c.toNat / 16, hhigh⟩ ⟨c.toNat % 16, hlow⟩
  rwa [Nat.div_add_mod, UInt8.ofNat_toNat] at hbyte

theorem value_digitChar : ∀ d : Fin 16, value (Nat.digitChar d).toUInt8 = d := by
  decide

variable {base n : Nat}

theorem toBytes_eq_if (hb : 1 < base)
    : toBytes base n
        =
      if n < base then
        [(Nat.digitChar n).toUInt8]
      else
        toBytes base (n / base) ++ [(Nat.digitChar (n % base)).toUInt8] := by
  unfold toBytes
  rw [Nat.toDigits_eq_if hb]
  split
  . rfl
  . rw [List.map_append, List.map_singleton]

theorem ofBytes_snoc (base : Nat) (digits : List UInt8) (c : UInt8)
    : ofBytes base (digits ++ [c]) = base * ofBytes base digits + value c := by
  unfold ofBytes
  rw [List.foldl_append]
  rfl

theorem ofBytes_toBytes (hb : 1 < base) (hle : base ≤ 16) (n : Nat)
    : ofBytes base (toBytes base n) = n := by
  induction n using Nat.strongRecOn with
  | ind n ih =>
    rw [toBytes_eq_if hb]
    split
    . next hlt =>
      have := value_digitChar ⟨n, by omega⟩
      simpa [ofBytes] using this
    . next hge =>
      have hmod : n % base < base := Nat.mod_lt _ (by omega)
      have := value_digitChar ⟨n % base, by omega⟩
      dsimp only at this
      rw [ofBytes_snoc, ih (n / base) (Nat.div_lt_self (by omega) hb), this]
      exact Nat.div_add_mod n base

theorem isDigit_of_mem_toBytes (hb : 1 < base) (hle : base ≤ 16) {c : UInt8}
    (h : c ∈ toBytes base n)
    : isDigit base c = true := by
  induction n using Nat.strongRecOn with
  | ind n ih =>
    rw [toBytes_eq_if hb] at h
    unfold isDigit
    rw [decide_eq_true_iff]
    split at h
    . next hlt =>
      have := value_digitChar ⟨n, by omega⟩
      rw [List.mem_singleton] at h
      rw [h, this]
      exact hlt
    . next hge =>
      have hmod : n % base < base := Nat.mod_lt _ (by omega)
      have hval := value_digitChar ⟨n % base, by omega⟩
      rw [List.mem_append, List.mem_singleton] at h
      cases h with
      | inl hmem =>
        have := ih (n / base) (Nat.div_lt_self (by omega) hb) hmem
        unfold isDigit at this
        exact of_decide_eq_true this
      | inr heq =>
        rw [heq, hval]
        exact hmod

theorem toBytes_ne_nil : toBytes base n ≠ [] := by
  unfold toBytes
  simp [Nat.toDigits_ne_nil]

theorem length_toBytes_le {k : Nat} (hb : 1 < base) (hk : 0 < k) (h : n < base ^ k)
    : (toBytes base n).length ≤ k := by
  unfold toBytes
  rw [List.length_map]
  exact (Nat.length_toDigits_le_iff hb hk).mpr h

-- Zeros in front do not count
theorem ofBytes_zeros (base k : Nat) (digits : List UInt8)
    : ofBytes base (List.replicate k 48 ++ digits) = ofBytes base digits := by
  unfold ofBytes
  rw [List.foldl_append]
  congr 1
  induction k with
  | zero => rfl
  | succ k ih =>
    rw [List.replicate_succ, List.foldl_cons]
    exact ih

end Digits
