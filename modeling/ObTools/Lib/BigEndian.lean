import Mathlib.Algebra.Group.Nat.Defs
import Mathlib.Data.List.Basic

/-!
This module contains the theory of numbers in network byte order, with the most significant byte in
front.
-/

namespace BigEndian

def toBytes : Nat → Nat → List UInt8
  | 0, _ => []
  | w + 1, v => UInt8.ofNat (v / 256 ^ w) :: toBytes w v

def ofBytes (l : List UInt8) : Nat := l.foldl (fun v b => 256 * v + b.toNat) 0

@[simp]
theorem length_toBytes (w v : Nat) : (toBytes w v).length = w := by
  induction w with
  | zero => rfl
  | succ w ih => simp [toBytes, ih]

theorem foldl_toBytes (w v acc : Nat)
    : (toBytes w v).foldl (fun v b => 256 * v + b.toNat) acc = acc * 256 ^ w + v % 256 ^ w := by
  induction w generalizing acc with
  | zero => simp [toBytes, Nat.mod_one]
  | succ w ih =>
    have hbyte : (UInt8.ofNat (v / 256 ^ w)).toNat = v / 256 ^ w % 256 := by simp
    rw [toBytes, List.foldl_cons, ih, hbyte, Nat.pow_succ, Nat.mod_mul]
    grind

theorem ofBytes_toBytes_mod (w v : Nat) : ofBytes (toBytes w v) = v % 256 ^ w := by
  unfold ofBytes
  rw [foldl_toBytes, Nat.zero_mul, Nat.zero_add]

theorem ofBytes_toBytes {w v : Nat} (h : v < 256 ^ w) : ofBytes (toBytes w v) = v := by
  rw [ofBytes_toBytes_mod]
  exact Nat.mod_eq_of_lt h

theorem toBytes_add (w w' v : Nat) : toBytes (w + w') v = toBytes w (v / 256 ^ w') ++ toBytes w' v := by
  induction w with
  | zero => rw [Nat.zero_add, toBytes, List.nil_append]
  | succ w ih =>
    rw [Nat.succ_add, toBytes, toBytes, ih, Nat.div_div_eq_div_mul, ← Nat.pow_add, Nat.add_comm w' w,
      List.cons_append]

theorem toBytes_mod_add (w n v : Nat) : toBytes w (v % 256 ^ (w + n)) = toBytes w v := by
  induction w generalizing n with
  | zero => rfl
  | succ w ih =>
    have hbyte : UInt8.ofNat (v % 256 ^ (w + 1 + n) / 256 ^ w) = UInt8.ofNat (v / 256 ^ w) := by
      rw [← UInt8.toNat_inj, UInt8.toNat_ofNat', UInt8.toNat_ofNat', Nat.add_assoc, Nat.pow_add,
        Nat.mod_mul_right_div_self]
      apply Nat.mod_mod_of_dvd
      rw [Nat.add_comm, Nat.pow_succ]
      exact Nat.dvd_mul_left _ _
    rw [toBytes, toBytes, hbyte, Nat.add_assoc, ih]

theorem toBytes_mod (w v : Nat) : toBytes w (v % 256 ^ w) = toBytes w v := toBytes_mod_add w 0 v

theorem foldl_ofBytes (l : List UInt8) (acc : Nat)
    : l.foldl (fun v b => 256 * v + b.toNat) acc = acc * 256 ^ l.length + ofBytes l := by
  induction l generalizing acc with
  | nil => simp [ofBytes]
  | cons b l ih =>
    unfold ofBytes at ih ⊢
    rw [List.foldl_cons, List.foldl_cons, ih, ih (256 * 0 + b.toNat), List.length_cons, Nat.pow_succ]
    grind

theorem ofBytes_append (l l' : List UInt8)
    : ofBytes (l ++ l') = ofBytes l * 256 ^ l'.length + ofBytes l' := by
  unfold ofBytes
  rw [List.foldl_append]
  exact foldl_ofBytes l' _

theorem ofBytes_lt (l : List UInt8) : ofBytes l < 256 ^ l.length := by
  induction l with
  | nil => decide
  | cons b l ih =>
    have hb := b.toNat_lt
    rw [← List.singleton_append, ofBytes_append, List.length_append, Nat.pow_add]
    have hone : ofBytes [b] = b.toNat := by simp [ofBytes]
    rw [hone, List.length_singleton, Nat.pow_one]
    have hmul := Nat.mul_le_mul_right (256 ^ l.length) (show b.toNat + 1 ≤ 256 from hb)
    rw [Nat.add_mul, Nat.one_mul] at hmul
    omega

theorem toBytes_ofBytes (l : List UInt8) : toBytes l.length (ofBytes l) = l := by
  induction l with
  | nil => rfl
  | cons b l ih =>
    have hlt := ofBytes_lt l
    have hone : ofBytes [b] = b.toNat := by simp [ofBytes]
    have hcons : ofBytes (b :: l) = b.toNat * 256 ^ l.length + ofBytes l := by
      rw [← List.singleton_append, ofBytes_append, hone]
    have hdiv : (b.toNat * 256 ^ l.length + ofBytes l) / 256 ^ l.length = b.toNat := by
      rw [Nat.mul_comm, Nat.mul_add_div (Nat.zero_lt_of_lt hlt), Nat.div_eq_of_lt hlt, Nat.add_zero]
    have hmod : (b.toNat * 256 ^ l.length + ofBytes l) % 256 ^ l.length = ofBytes l := by
      rw [Nat.mul_comm, Nat.mul_add_mod, Nat.mod_eq_of_lt hlt]
    rw [List.length_cons, toBytes, hcons, hdiv, UInt8.ofNat_toNat, ← toBytes_mod, hmod, ih]

end BigEndian
