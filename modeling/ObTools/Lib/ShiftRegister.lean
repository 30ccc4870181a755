import Mathlib.Logic.Function.Iterate

/-!
This module contains shift registers with feedback, as they are used for cyclic redundancy checks: bits are
shifted in one after the other, with the low bit or with the top bit first. One direction is the mirror
image of the other.
-/

namespace ShiftRegister

variable {w : Nat} {poly s x : BitVec w}

/-
With the low bit first.
-/

-- What a step does with nothing at the input
def turn (poly s : BitVec w) : BitVec w := if s.getLsbD 0 then (s >>> 1) ^^^ poly else s >>> 1

def shiftIn (poly s : BitVec w) (b : Bool) : BitVec w :=
  if s.getLsbD 0 != b then (s >>> 1) ^^^ poly else s >>> 1

def lowFirst (byte : BitVec 8) : List Bool := (List.range 8).map byte.getLsbD

def crc (poly s : BitVec w) (data : List (BitVec 8)) : BitVec w := (data.flatMap lowFirst).foldl (shiftIn poly) s

theorem turn_xor (poly s x : BitVec w) : turn poly (s ^^^ x) = turn poly s ^^^ turn poly x := by
  unfold turn
  rw [BitVec.getLsbD_xor, BitVec.ushiftRight_xor_distrib]
  cases s.getLsbD 0 with
  | false =>
    cases x.getLsbD 0 with
    | false => rfl
    | true => simp [BitVec.xor_assoc]
  | true =>
    cases x.getLsbD 0 with
    | false =>
      simp only [Bool.xor_false, if_true, if_false, Bool.false_eq_true]
      rw [BitVec.xor_assoc, BitVec.xor_assoc, BitVec.xor_comm poly]
    | true =>
      have hcancel : (s >>> 1) ^^^ poly ^^^ ((x >>> 1) ^^^ poly) = (s >>> 1) ^^^ (x >>> 1) := by
        rw [BitVec.xor_comm (x >>> 1) poly, BitVec.xor_assoc, ← BitVec.xor_assoc poly, BitVec.xor_self,
          BitVec.zero_xor]
      simp [hcancel]

theorem iterate_turn_xor (poly s x : BitVec w) (n : Nat)
    : (turn poly)^[n] (s ^^^ x) = (turn poly)^[n] s ^^^ (turn poly)^[n] x := by
  induction n generalizing s x with
  | zero => rfl
  | succ n ih => rw [Function.iterate_succ_apply, turn_xor, ih]; rfl

-- As long as there are only zeros to be shifted out nothing is fed back.
theorem iterate_turn_of_low (poly : BitVec w) (n : Nat) (h : ∀ i, i < n → s.getLsbD i = false)
    : (turn poly)^[n] s = s >>> n := by
  induction n with
  | zero => simp
  | succ n ih =>
    have hlow : (s >>> n).getLsbD 0 = false := by
      rw [BitVec.getLsbD_ushiftRight]
      exact h n (Nat.lt_succ_self n)
    rw [Function.iterate_succ_apply', ih fun i hi => h i (Nat.lt_succ_of_lt hi), turn, hlow,
      if_neg Bool.false_ne_true, BitVec.shiftRight_add]

theorem shiftIn_eq (hw : 0 < w) (poly s : BitVec w) (b : Bool)
    : shiftIn poly s b = turn poly (s ^^^ (BitVec.ofBool b).setWidth w) := by
  have hbit : (s ^^^ (BitVec.ofBool b).setWidth w).getLsbD 0 = (s.getLsbD 0 != b) := by
    rw [BitVec.getLsbD_xor, BitVec.getLsbD_setWidth]
    simp [hw]
  have hshift : (s ^^^ (BitVec.ofBool b).setWidth w) >>> 1 = s >>> 1 := by
    apply BitVec.eq_of_getLsbD_eq
    intro i hi
    simp
  unfold shiftIn turn
  rw [hbit, hshift]

-- The bits that are shifted in, at the places from which they come out again if nothing is done
def ofBits (w : Nat) : List Bool → BitVec w
  | [] => 0
  | b :: bits => (BitVec.ofBool b).setWidth w ^^^ ofBits w bits <<< 1

theorem getLsbD_ofBits (w : Nat) (bits : List Bool) (i : Nat)
    : (ofBits w bits).getLsbD i = (decide (i < w) && bits.getD i false) := by
  induction bits generalizing i with
  | nil => simp [ofBits]
  | cons b bits ih =>
    rw [ofBits, BitVec.getLsbD_xor, BitVec.getLsbD_setWidth, BitVec.getLsbD_shiftLeft, ih]
    cases i with
    | zero => simp
    | succ i =>
      by_cases hi : i + 1 < w
      . have hlt : i < w := Nat.lt_of_succ_lt hi
        simp [hi, hlt]
      . simp [hi]

theorem foldl_shiftIn (poly s : BitVec w) (bits : List Bool) (h : bits.length ≤ w)
    : bits.foldl (shiftIn poly) s = (turn poly)^[bits.length] (s ^^^ ofBits w bits) := by
  induction bits generalizing s with
  | nil => simp [ofBits]
  | cons b bits ih =>
    rw [List.length_cons] at h
    have hw : 0 < w := by omega
    have hlow : (ofBits w bits <<< 1).getLsbD 0 = false := by
      rw [BitVec.getLsbD_shiftLeft]
      simp
    have hpast : turn poly (ofBits w bits <<< 1) = ofBits w bits := by
      unfold turn
      rw [hlow, if_neg Bool.false_ne_true]
      apply BitVec.eq_of_getLsbD_eq
      intro i hi
      rw [BitVec.getLsbD_ushiftRight, BitVec.getLsbD_shiftLeft, Nat.add_sub_cancel_left, getLsbD_ofBits]
      by_cases htop : 1 + i < w
      . simp [htop]
      . have hnone : bits.getD i false = false := by
          rw [List.getD_eq_getElem?_getD, List.getElem?_eq_none (by omega)]
          rfl
        simp only [hnone, Bool.and_false]
    rw [List.foldl_cons, ih _ (by omega), List.length_cons, Function.iterate_succ_apply, ofBits, ← BitVec.xor_assoc,
      turn_xor, ← shiftIn_eq hw, hpast]

theorem ofBits_lowFirst (byte : BitVec 8) : ofBits w (lowFirst byte) = byte.setWidth w := by
  apply BitVec.eq_of_getLsbD_eq
  intro i hi
  rw [getLsbD_ofBits, BitVec.getLsbD_setWidth]
  apply congrArg
  unfold lowFirst
  rw [List.getD_eq_getElem?_getD, List.getElem?_map]
  by_cases hbit : i < 8
  . rw [List.getElem?_range hbit]
    rfl
  . rw [List.getElem?_eq_none (by simpa using hbit), BitVec.getLsbD_of_ge byte i (Nat.not_lt.mp hbit)]
    rfl

theorem crc_append (poly s : BitVec w) (data data' : List (BitVec 8))
    : crc poly s (data ++ data') = crc poly (crc poly s data) data' := by
  unfold crc
  rw [List.flatMap_append, List.foldl_append]

theorem crc_singleton (hw : 8 ≤ w) (poly s : BitVec w) (byte : BitVec 8)
    : crc poly s [byte] = (turn poly)^[8] (s ^^^ byte.setWidth w) := by
  have hlength : (lowFirst byte).length = 8 := by simp [lowFirst]
  have hfold := foldl_shiftIn poly s (lowFirst byte) (by omega)
  rw [hlength, ofBits_lowFirst] at hfold
  unfold crc
  rw [List.flatMap_singleton, hfold]

theorem getLsbD_and_255 (s : BitVec w) (i : Nat) : (s &&& 255#w).getLsbD i = (s.getLsbD i && decide (i < 8)) := by
  have htwo : (255 : Nat) = 2 ^ 8 - 1 := rfl
  rw [BitVec.getLsbD_and, BitVec.getLsbD_ofNat, htwo, Nat.testBit_two_pow_sub_one]
  by_cases hi : i < w
  . simp [hi]
  . simp [BitVec.getLsbD_of_ge s i (Nat.not_lt.mp hi)]

-- All that is fed back in eight steps depends on the low byte.
theorem iterate_turn_eight (poly s : BitVec w)
    : (turn poly)^[8] s = (turn poly)^[8] (s &&& 255#w) ^^^ s >>> 8 := by
  have hsplit : s = (s &&& 255#w) ^^^ (s >>> 8) <<< 8 := by
    apply BitVec.eq_of_getLsbD_eq
    intro i hi
    rw [BitVec.getLsbD_xor, getLsbD_and_255, BitVec.getLsbD_shiftLeft, BitVec.getLsbD_ushiftRight]
    by_cases hlow : i < 8
    . simp [hi, hlow]
    . have heq : 8 + (i - 8) = i := by omega
      simp [hi, hlow, heq]
  have hhigh : (turn poly)^[8] ((s >>> 8) <<< 8) = s >>> 8 := by
    rw [iterate_turn_of_low]
    . apply BitVec.eq_of_getLsbD_eq
      intro i hi
      rw [BitVec.getLsbD_ushiftRight, BitVec.getLsbD_shiftLeft, BitVec.getLsbD_ushiftRight, Nat.add_sub_cancel_left]
      by_cases hin : 8 + i < w
      . simp [hin]
      . simp [BitVec.getLsbD_of_ge s (8 + i) (by omega)]
    . intro i hi
      rw [BitVec.getLsbD_shiftLeft]
      simp [hi]
  calc (turn poly)^[8] s
    _ = (turn poly)^[8] ((s &&& 255#w) ^^^ (s >>> 8) <<< 8) := congrArg _ hsplit
    _ = (turn poly)^[8] (s &&& 255#w) ^^^ s >>> 8 := by rw [iterate_turn_xor, hhigh]

-- A byte at a time
theorem crc_byte (hw : 8 ≤ w) (poly s : BitVec w) (byte : BitVec 8)
    : crc poly s [byte] = (turn poly)^[8] ((s &&& 255#w) ^^^ byte.setWidth w) ^^^ s >>> 8 := by
  have hlow : (s ^^^ byte.setWidth w) &&& 255#w = (s &&& 255#w) ^^^ byte.setWidth w := by
    apply BitVec.eq_of_getLsbD_eq
    intro i hi
    rw [getLsbD_and_255, BitVec.getLsbD_xor, BitVec.getLsbD_xor, getLsbD_and_255, BitVec.getLsbD_setWidth]
    by_cases hbyte : i < 8
    . simp [hbyte]
    . simp [hbyte, BitVec.getLsbD_of_ge byte i (Nat.not_lt.mp hbyte)]
  have hgone : byte.setWidth w >>> 8 = 0#w := by
    apply BitVec.eq_of_getLsbD_eq
    intro i hi
    rw [BitVec.getLsbD_ushiftRight, BitVec.getLsbD_setWidth, BitVec.getLsbD_of_ge byte (8 + i) (Nat.le_add_right 8 i),
      Bool.and_false, BitVec.getLsbD_zero]
  rw [crc_singleton hw, iterate_turn_eight, hlow, BitVec.ushiftRight_xor_distrib, hgone, BitVec.xor_zero]

/-
With the top bit first.
-/

def turnTop (poly s : BitVec w) : BitVec w := if s.msb then (s <<< 1) ^^^ poly else s <<< 1

def shiftInTop (poly s : BitVec w) (b : Bool) : BitVec w :=
  if s.msb != b then (s <<< 1) ^^^ poly else s <<< 1

def topFirst (byte : BitVec 8) : List Bool := (List.range 8).map byte.getMsbD

def crcTop (poly s : BitVec w) (data : List (BitVec 8)) : BitVec w :=
  (data.flatMap topFirst).foldl (shiftInTop poly) s

theorem reverse_xor (s x : BitVec w) : (s ^^^ x).reverse = s.reverse ^^^ x.reverse := by
  apply BitVec.eq_of_getLsbD_eq
  intro i hi
  simp only [BitVec.getLsbD_xor, BitVec.getLsbD_reverse, BitVec.getMsbD_xor]

theorem reverse_ushiftRight (s : BitVec w) (n : Nat) : (s >>> n).reverse = s.reverse <<< n := by
  apply BitVec.eq_of_getLsbD_eq
  intro i hi
  rw [BitVec.getLsbD_reverse, BitVec.getLsbD_shiftLeft, BitVec.getLsbD_reverse, BitVec.getMsbD_ushiftRight]
  by_cases hn : i < n
  . simp [hn]
  . simp [hi, hn]

theorem turnTop_eq (poly s : BitVec w) : turnTop poly s = (turn poly.reverse s.reverse).reverse := by
  unfold turnTop turn
  rw [BitVec.getLsbD_reverse, ← BitVec.msb_eq_getMsbD_zero]
  split
  . rw [reverse_xor, reverse_ushiftRight, BitVec.reverse_reverse_eq, BitVec.reverse_reverse_eq]
  . rw [reverse_ushiftRight, BitVec.reverse_reverse_eq]

theorem iterate_turnTop_eq (poly s : BitVec w) (n : Nat)
    : (turnTop poly)^[n] s = ((turn poly.reverse)^[n] s.reverse).reverse := by
  induction n generalizing s with
  | zero => rw [Function.iterate_zero, Function.iterate_zero, id, id, BitVec.reverse_reverse_eq]
  | succ n ih =>
    rw [Function.iterate_succ_apply, Function.iterate_succ_apply, ih, turnTop_eq, BitVec.reverse_reverse_eq]

theorem shiftInTop_eq (poly s : BitVec w) (b : Bool)
    : shiftInTop poly s b = (shiftIn poly.reverse s.reverse b).reverse := by
  unfold shiftInTop shiftIn
  rw [BitVec.getLsbD_reverse, ← BitVec.msb_eq_getMsbD_zero]
  split
  . rw [reverse_xor, reverse_ushiftRight, BitVec.reverse_reverse_eq, BitVec.reverse_reverse_eq]
  . rw [reverse_ushiftRight, BitVec.reverse_reverse_eq]

theorem foldl_shiftInTop_eq (poly s : BitVec w) (bits : List Bool)
    : bits.foldl (shiftInTop poly) s = (bits.foldl (shiftIn poly.reverse) s.reverse).reverse := by
  induction bits generalizing s with
  | nil => rw [List.foldl_nil, List.foldl_nil, BitVec.reverse_reverse_eq]
  | cons b bits ih => rw [List.foldl_cons, List.foldl_cons, ih, shiftInTop_eq, BitVec.reverse_reverse_eq]

theorem topFirst_eq (byte : BitVec 8) : topFirst byte = lowFirst byte.reverse := by
  unfold topFirst lowFirst
  apply List.map_congr_left
  intro i _
  rw [BitVec.getLsbD_reverse]

-- The mirror image
theorem crcTop_eq (poly s : BitVec w) (data : List (BitVec 8))
    : crcTop poly s data = (crc poly.reverse s.reverse (data.map BitVec.reverse)).reverse := by
  have hbits : topFirst = fun byte => lowFirst byte.reverse := funext topFirst_eq
  unfold crcTop crc
  rw [foldl_shiftInTop_eq, List.flatMap_map, hbits]

theorem crcTop_append (poly s : BitVec w) (data data' : List (BitVec 8))
    : crcTop poly s (data ++ data') = crcTop poly (crcTop poly s data) data' := by
  unfold crcTop
  rw [List.flatMap_append, List.foldl_append]

theorem crcTop_byte (hw : 8 ≤ w) (poly s : BitVec w) (byte : BitVec 8)
    : crcTop poly s [byte]
        = (turnTop poly)^[8] ((s >>> (w - 8) ^^^ byte.setWidth w) <<< (w - 8)) ^^^ s <<< 8 := by
  have hmirror : ((s.reverse &&& 255#w) ^^^ byte.reverse.setWidth w).reverse
      = (s >>> (w - 8) ^^^ byte.setWidth w) <<< (w - 8) := by
    apply BitVec.eq_of_getLsbD_eq
    intro i hi
    rw [BitVec.getLsbD_reverse, BitVec.getMsbD_eq_getLsbD, BitVec.getLsbD_xor, getLsbD_and_255, BitVec.getLsbD_reverse,
      BitVec.getMsbD_eq_getLsbD, BitVec.getLsbD_setWidth, BitVec.getLsbD_reverse, BitVec.getMsbD_eq_getLsbD,
      BitVec.getLsbD_shiftLeft, BitVec.getLsbD_xor, BitVec.getLsbD_ushiftRight, BitVec.getLsbD_setWidth]
    have hself : w - 1 - (w - 1 - i) = i := by omega
    by_cases hlow : i < w - 8
    . have hpast : ¬w - 1 - i < 8 := by omega
      simp [hlow, hpast]
    . have hin : w - 1 - i < 8 := by omega
      have hout : w - 1 - i < w := by omega
      have hback : w - 8 + (i - (w - 8)) = i := by omega
      have hplace : 8 - 1 - (w - 1 - i) = i - (w - 8) := by omega
      have hplace' : i - (w - 8) < w := by omega
      simp only [hself, hi, hin, hout, hlow, hback, hplace, hplace', decide_true, decide_false, Bool.true_and,
        Bool.and_true, Bool.not_false]
  have hstep : ((turn poly.reverse)^[8] ((s.reverse &&& 255#w) ^^^ byte.reverse.setWidth w)).reverse
      = (turnTop poly)^[8] ((s.reverse &&& 255#w) ^^^ byte.reverse.setWidth w).reverse := by
    rw [iterate_turnTop_eq, BitVec.reverse_reverse_eq]
  have hrest : (s.reverse >>> 8).reverse = s <<< 8 := by rw [reverse_ushiftRight, BitVec.reverse_reverse_eq]
  rw [crcTop_eq, List.map_singleton, crc_byte hw, reverse_xor, hstep, hmirror, hrest]

end ShiftRegister
