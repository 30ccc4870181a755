import Mathlib.Data.List.Basic
import ObTools.Lib.Digits
import ObTools.Lib.Places

/-!
This module contains the model of `Text::Base36` and `Text::Base16Alpha`, which are the same for different
digits, and the proof that numbers are read as they have been written, with which texts are read exactly.
-/

namespace ObTools
namespace Text

structure Positional where
  base : Nat
  two_le : 2 ≤ base
  alphabet : List UInt8
  -- The value of a character, if it is one of a digit
  digit : UInt8 → Option Nat

namespace Positional

variable (p : Positional)

-- The digits of a number in front of some other ones
def encodeLoop (n : Nat) (digits : List UInt8) : List UInt8 :=
  if h : n = 0 then digits else encodeLoop (n / p.base) (p.alphabet.getD (n % p.base) 0 :: digits)
termination_by n
decreasing_by apply Nat.div_lt_self (Nat.pos_of_ne_zero h) p.two_le

def encode (n : UInt64) : List UInt8 :=
  -- Special case
  if n = 0 then [p.alphabet.getD 0 0] else p.encodeLoop n.toNat []

-- Whether successful, and what `n` is then
def decodeLoop : List UInt8 → UInt64 → Bool × UInt64
  | [], n => (true, n)
  | c :: text, n =>
    match p.digit c with
    -- Fail on anything else
    | none => (false, n)
    | some cn => decodeLoop text (n * UInt64.ofNat p.base + UInt64.ofNat cn)

def decode (text : List UInt8) (n : UInt64) : Bool × UInt64 := if text = [] then (false, n) else p.decodeLoop text 0

end Positional

namespace Base36

def alphabet : List UInt8 := "0123456789abcdefghijklmnopqrstuvwxyz".toList.map Char.toUInt8

def digit (c : UInt8) : Option Nat :=
  if 65 ≤ c ∧ c ≤ 90 then
    some (10 + c.toNat - 65)
  else if 97 ≤ c ∧ c ≤ 122 then
    some (10 + c.toNat - 97)
  else if 48 ≤ c ∧ c ≤ 57 then
    some (c.toNat - 48)
  else
    none

end Base36

def base36 : Positional := { base := 36, two_le := by decide, alphabet := Base36.alphabet, digit := Base36.digit }

namespace Base16Alpha

def alphabet : List UInt8 := "bcdghjklmpqrsvwz".toList.map Char.toUInt8

-- Reverse array of alpha, -1 is disallowed
def reverse : List Int :=
  [-1, 0, 1, 2, -1, -1, 3, 4, -1, 5, 6, 7, 8, -1, -1, 9, 10, 11, 12, -1, -1, 13, 14, -1, -1, 15]

def dn (cn : Nat) : Option Nat := if reverse.getD cn (-1) < 0 then none else some (reverse.getD cn (-1)).toNat

def digit (c : UInt8) : Option Nat :=
  if 65 ≤ c ∧ c ≤ 90 then
    dn (c.toNat - 65)
  else if 97 ≤ c ∧ c ≤ 122 then
    dn (c.toNat - 97)
  else
    none

end Base16Alpha

def base16Alpha : Positional :=
  { base := 16, two_le := by decide, alphabet := Base16Alpha.alphabet, digit := Base16Alpha.digit }

namespace Positional

open Places (value)

variable {p : Positional} {text rest : List UInt8} {ds : List Nat} {n : UInt64}

-- The digits of the alphabet are read with their values.
structure Lawful (p : Positional) : Prop where
  digit_lt : ∀ c, ∀ d ∈ p.digit c, d < p.base
  digit_alphabet : ∀ d < p.base, p.digit (p.alphabet.getD d 0) = some d

theorem lawful_base36 : base36.Lawful := by
  constructor
  . apply Digits.forall_byte
    decide
  . decide

theorem lawful_base16Alpha : base16Alpha.Lawful := by
  constructor
  . apply Digits.forall_byte
    decide
  . decide

-- A text of digits, and the number it stands for
def IsNumber (p : Positional) (text : List UInt8) (v : Nat) : Prop :=
  text ≠ [] ∧ ∃ ds, text.mapM p.digit = some ds ∧ v = value p.base ds

theorem mapM_cons_some {c : UInt8} {d : Nat} (hc : p.digit c = some d)
    : (c :: text).mapM p.digit = (text.mapM p.digit).map (d :: ·) := by
  rw [List.mapM_cons, hc]
  cases text.mapM p.digit <;> rfl

theorem mapM_cases (p : Positional) (text : List UInt8)
    : (∃ ds, text.mapM p.digit = some ds)
        ∨
      text.mapM p.digit = none
        ∧ ∃ pre c post ds, text = pre ++ c :: post ∧ pre.mapM p.digit = some ds ∧ p.digit c = none := by
  induction text with
  | nil => exact Or.inl ⟨[], rfl⟩
  | cons c text ih =>
    cases hc : p.digit c with
    | none =>
      right
      refine ⟨?_, [], c, text, [], rfl, rfl, hc⟩
      rw [List.mapM_cons, hc]
      rfl
    | some d =>
      rw [mapM_cons_some hc]
      rcases ih with ⟨ds, hds⟩ | ⟨hnone, pre, c', post, ds, heq, hpre, hc'⟩
      . rw [hds]
        exact Or.inl ⟨d :: ds, rfl⟩
      . rw [hnone]
        right
        refine ⟨rfl, c :: pre, c', post, d :: ds, ?_, ?_, hc'⟩
        . rw [heq, List.cons_append]
        . rw [mapM_cons_some hc, hpre]
          rfl

-- The number that is read behind some digits, in the arithmetic of the machine
theorem decodeLoop_append (h : text.mapM p.digit = some ds) (rest : List UInt8) (m : Nat)
    : p.decodeLoop (text ++ rest) (UInt64.ofNat m)
        = p.decodeLoop rest (UInt64.ofNat (p.base ^ ds.length * m + value p.base ds)) := by
  induction text generalizing ds m with
  | nil =>
    obtain rfl : [] = ds := Option.some.inj h
    rw [List.nil_append, Places.value_nil, List.length_nil, Nat.pow_zero, Nat.one_mul, Nat.add_zero]
  | cons c text ih =>
    cases hc : p.digit c with
    | none =>
      rw [List.mapM_cons, hc] at h
      cases h
    | some d =>
      rw [mapM_cons_some hc, Option.map_eq_some_iff] at h
      obtain ⟨ds', hds', rfl⟩ := h
      rw [List.cons_append]
      conv_lhs => unfold decodeLoop
      rw [hc]
      dsimp only
      rw [← UInt64.ofNat_mul, ← UInt64.ofNat_add, ih hds', Places.value_cons, List.length_cons, Nat.pow_succ]
      congr 2
      ring

theorem decode_digits (hne : text ≠ []) (h : text.mapM p.digit = some ds) (n : UInt64)
    : p.decode text n = (true, UInt64.ofNat (value p.base ds)) := by
  have hloop := decodeLoop_append h [] 0
  rw [List.append_nil, Nat.mul_zero, Nat.zero_add] at hloop
  unfold decode
  rw [if_neg hne]
  exact hloop

-- What is left in the number of a text that is refused
theorem decode_refused {c : UInt8} (h : text.mapM p.digit = some ds) (hc : p.digit c = none) (post : List UInt8) (n : UInt64)
    : p.decode (text ++ c :: post) n = (false, UInt64.ofNat (value p.base ds)) := by
  have hloop := decodeLoop_append h (c :: post) 0
  have hend : ∀ n, p.decodeLoop (c :: post) n = (false, n) := by
    intro n
    unfold decodeLoop
    rw [hc]
  rw [Nat.mul_zero, Nat.zero_add, hend] at hloop
  unfold decode
  rw [if_neg (by simp)]
  exact hloop

/-
Round trip.
-/

theorem encodeLoop_eq (p : Positional) (n : Nat) (digits : List UInt8)
    : p.encodeLoop n digits = (Nat.digits p.base n).reverse.map (fun d => p.alphabet.getD d 0) ++ digits := by
  induction n using Nat.strongRecOn generalizing digits with
  | ind n ih =>
    rw [encodeLoop]
    split
    . next hzero =>
      rw [hzero, Nat.digits_zero]
      rfl
    . next hne =>
      rw [ih _ (Nat.div_lt_self (Nat.pos_of_ne_zero hne) p.two_le),
        Nat.digits_def' p.two_le (Nat.pos_of_ne_zero hne), List.reverse_cons, List.map_append, List.append_assoc]
      rfl

theorem Lawful.mapM_alphabet (hp : p.Lawful) (hds : ∀ d ∈ ds, d < p.base)
    : (ds.map fun d => p.alphabet.getD d 0).mapM p.digit = some ds := by
  induction ds with
  | nil => rfl
  | cons d ds ih =>
    rw [List.forall_mem_cons] at hds
    rw [List.map_cons, mapM_cons_some (hp.digit_alphabet d hds.1), ih hds.2]
    rfl

theorem Lawful.decode_encode (hp : p.Lawful) (m n : UInt64) : p.decode (p.encode m) n = (true, m) := by
  have hbase := p.two_le
  unfold encode
  split
  . next hzero =>
    have hmapM : ([0].map fun d => p.alphabet.getD d 0).mapM p.digit = some [0] := by
      apply hp.mapM_alphabet
      rw [List.forall_mem_singleton]
      omega
    rw [List.map_singleton] at hmapM
    rw [decode_digits (List.cons_ne_nil _ _) hmapM, hzero]
    rfl
  . next hne =>
    have hpos : m.toNat ≠ 0 := by
      intro hzero
      exact hne (UInt64.toNat_inj.mp hzero)
    have hmapM : ((Nat.digits p.base m.toNat).reverse.map fun d => p.alphabet.getD d 0).mapM p.digit
        = some (Nat.digits p.base m.toNat).reverse := by
      apply hp.mapM_alphabet
      intro d hd
      exact Nat.digits_lt_base hbase (List.mem_reverse.mp hd)
    have hdigits : (Nat.digits p.base m.toNat).reverse.map (fun d => p.alphabet.getD d 0) ≠ [] := by
      rw [Ne, List.map_eq_nil_iff, List.reverse_eq_nil_iff]
      exact Nat.digits_ne_nil_iff_ne_zero.mpr hpos
    rw [encodeLoop_eq, List.append_nil, decode_digits hdigits hmapM, Places.value_digits, UInt64.ofNat_toNat]

theorem IsNumber.unique {v v' : Nat} (h : p.IsNumber text v) (h' : p.IsNumber text v') : v = v' := by
  obtain ⟨-, ds, hds, rfl⟩ := h
  obtain ⟨-, ds', hds', rfl⟩ := h'
  rw [hds] at hds'
  rw [Option.some.inj hds']

theorem IsNumber.decode {v : Nat} (h : p.IsNumber text v) (n : UInt64) : p.decode text n = (true, UInt64.ofNat v) := by
  obtain ⟨hne, ds, hds, rfl⟩ := h
  exact decode_digits hne hds n

/--
A number that fits is read as it is. All others are read too, and what is not a number leaves something behind.
-/
theorem decode_exact_iff (p : Positional) (hp : p = base36 ∨ p = base16Alpha) (text : List UInt8) (n : UInt64)
    : ((∀ v, p.IsNumber text v → v < 2 ^ 64 → p.decode text n = (true, UInt64.ofNat v))
          ∧
        ((∀ v, p.IsNumber text v → 2 ^ 64 ≤ v) → p.decode text n = (false, n))
          ∧
        ∀ m, p.decode (p.encode m) n = (true, m))
        ↔
      ((∃ v, p.IsNumber text v ∧ v < 2 ^ 64)
          ∨
        text = []
          ∨
        ∃ pre c post ds, text = pre ++ c :: post ∧ pre.mapM p.digit = some ds ∧ p.digit c = none
          ∧ n = UInt64.ofNat (value p.base ds)) := by
  have hlawful : p.Lawful := by
    rcases hp with rfl | rfl
    . exact lawful_base36
    . exact lawful_base16Alpha
  constructor
  . rintro ⟨-, hrefused, -⟩
    rcases mapM_cases p text with ⟨ds, hds⟩ | ⟨hnone, pre, c, post, ds, heq, hpre, hc⟩
    . by_cases hnil : text = []
      . exact Or.inr (Or.inl hnil)
      . left
        by_contra hnot
        push Not at hnot
        have hdecode := hrefused hnot
        rw [decode_digits hnil hds] at hdecode
        cases hdecode
    . right
      right
      have hdecode := hrefused fun v h => by
        obtain ⟨-, ds, hds, -⟩ := h
        rw [hnone] at hds
        cases hds
      rw [heq, decode_refused hpre hc] at hdecode
      exact ⟨pre, c, post, ds, heq, hpre, hc, (Prod.mk.inj hdecode).2.symm⟩
  . intro h
    refine ⟨fun v hv _ => hv.decode n, ?_, fun m => hlawful.decode_encode m n⟩
    intro hlarge
    rcases h with ⟨v, hv, hlt⟩ | rfl | ⟨pre, c, post, ds, rfl, hpre, hc, hn⟩
    . exact absurd (hlarge v hv) (Nat.not_le.mpr hlt)
    . exact if_pos rfl
    . rw [decode_refused hpre hc, ← hn]

-- 3w5e11264sgsg
def largeText : List UInt8 := [51, 119, 53, 101, 49, 49, 50, 54, 52, 115, 103, 115, 103]

theorem not_decode_exact
    : ¬((∀ v, base36.IsNumber largeText v → v < 2 ^ 64 → base36.decode largeText 5 = (true, UInt64.ofNat v))
          ∧
        ((∀ v, base36.IsNumber largeText v → 2 ^ 64 ≤ v) → base36.decode largeText 5 = (false, 5))
          ∧
        ∀ m, base36.decode (base36.encode m) 5 = (true, m)) := by
  rintro ⟨-, hrefused, -⟩
  have hnumber : base36.IsNumber largeText (2 ^ 64) :=
    ⟨by decide, [3, 32, 5, 14, 1, 1, 2, 6, 4, 28, 16, 28, 16], by decide, by decide⟩
  have hdecode := hrefused fun v hv => Nat.le_of_eq (hnumber.unique hv)
  rw [hnumber.decode] at hdecode
  cases hdecode

-- zz
theorem decode_exact_iff_small
    : ((∀ v, base36.IsNumber [122, 122] v → v < 2 ^ 64 → base36.decode [122, 122] 5 = (true, UInt64.ofNat v))
          ∧
        ((∀ v, base36.IsNumber [122, 122] v → 2 ^ 64 ≤ v) → base36.decode [122, 122] 5 = (false, 5))
          ∧
        ∀ m, base36.decode (base36.encode m) 5 = (true, m))
        ↔
      ((∃ v, base36.IsNumber [122, 122] v ∧ v < 2 ^ 64)
          ∨
        ([122, 122] : List UInt8) = []
          ∨
        ∃ pre c post ds, [122, 122] = pre ++ c :: post ∧ pre.mapM base36.digit = some ds ∧ base36.digit c = none
          ∧ (5 : UInt64) = UInt64.ofNat (value base36.base ds)) :=
  decode_exact_iff base36 (Or.inl rfl) [122, 122] 5

end Positional
end Text
end ObTools
