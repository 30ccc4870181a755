import Mathlib.Data.List.TakeWhile
import Mathlib.Data.Nat.Digits.Lemmas

/-!
This module contains the theory of numbers in buffers of a fixed number of places, with the most significant
digit in front, and of their conversion from one base to another.
-/

namespace Places

variable {base : Nat} {digits : List Nat}

def value (base : Nat) (digits : List Nat) : Nat := Nat.ofDigits base digits.reverse

theorem value_nil (base : Nat) : value base [] = 0 := rfl

theorem value_concat (base : Nat) (digits : List Nat) (d : Nat)
    : value base (digits ++ [d]) = base * value base digits + d := by
  unfold value
  rw [List.reverse_append, List.reverse_singleton, List.singleton_append, Nat.ofDigits_cons]
  omega

theorem value_cons (base : Nat) (d : Nat) (digits : List Nat)
    : value base (d :: digits) = base ^ digits.length * d + value base digits := by
  unfold value
  rw [Nat.ofDigits_reverse_cons]
  omega

theorem value_zeros (base k : Nat) (digits : List Nat)
    : value base (List.replicate k 0 ++ digits) = value base digits := by
  unfold value
  rw [List.reverse_append, List.reverse_replicate, Nat.ofDigits_append_replicate_zero]

theorem value_replicate_zero (base k : Nat) : value base (List.replicate k 0) = 0 := by
  have h := value_zeros base k []
  rw [List.append_nil] at h
  exact h

theorem value_lt (hb : 1 < base) (h : ∀ d ∈ digits, d < base) : value base digits < base ^ digits.length := by
  have hlt := Nat.ofDigits_lt_base_pow_length hb (l := digits.reverse) fun d hd => h d (List.mem_reverse.mp hd)
  rw [List.length_reverse] at hlt
  exact hlt

/--
A number without leading zeros has only one sequence of digits.
-/
theorem eq_digits (hb : 1 < base) (h : ∀ d ∈ digits, d < base) (hhead : digits.head? ≠ some 0)
    : digits = (Nat.digits base (value base digits)).reverse := by
  unfold value
  rw [Nat.digits_ofDigits base hb, List.reverse_reverse]
  . intro d hd
    exact h d (List.mem_reverse.mp hd)
  . intro hne hlast
    rw [List.getLast_reverse] at hlast
    apply hhead
    rw [List.head?_eq_some_head (by simpa using hne), hlast]

def zeros (digits : List Nat) : Nat := (digits.takeWhile (· = 0)).length

theorem eq_zeros_append (digits : List Nat)
    : digits = List.replicate (zeros digits) 0 ++ digits.dropWhile (· = 0) := by
  have htake : digits.takeWhile (· = 0) = List.replicate (zeros digits) 0 := by
    apply List.eq_replicate_of_mem
    intro d hd
    simpa using List.mem_takeWhile_imp hd
  rw [← htake, List.takeWhile_append_dropWhile]

theorem zeros_append (k : Nat) (h : digits.head? ≠ some 0) : zeros (List.replicate k 0 ++ digits) = k := by
  unfold zeros
  rw [List.takeWhile_append_of_pos (by simp), List.length_append, List.length_replicate, Nat.add_eq_left]
  cases digits with
  | nil => rfl
  | cons d digits =>
    have hd : d ≠ 0 := by simpa using h
    rw [List.takeWhile_cons_of_neg (by simpa using hd), List.length_nil]

theorem value_dropWhile (base : Nat) (digits : List Nat) : value base (digits.dropWhile (· = 0)) = value base digits := by
  conv_rhs => rw [eq_zeros_append digits]
  rw [value_zeros]

-- What is left without the leading zeros
theorem dropWhile_eq (hb : 1 < base) (h : ∀ d ∈ digits, d < base)
    : digits.dropWhile (· = 0) = (Nat.digits base (value base digits)).reverse := by
  rw [← value_dropWhile base digits]
  apply eq_digits hb
  . intro d hd
    exact h d ((List.dropWhile_sublist _).subset hd)
  . intro hhead
    have hnot := List.head?_dropWhile_not (fun d => decide (d = 0)) digits
    rw [hhead] at hnot
    simp at hnot

theorem digits_head (base n : Nat) : (Nat.digits base n).reverse.head? ≠ some 0 := by
  rw [List.head?_reverse]
  intro hlast
  by_cases hn : n = 0
  . rw [hn, Nat.digits_zero] at hlast
    cases hlast
  . have hne := Nat.digits_ne_nil_iff_ne_zero (b := base).mpr hn
    rw [List.getLast?_eq_some_getLast hne] at hlast
    exact Nat.getLast_digit_ne_zero base hn (Option.some.inj hlast)

theorem value_digits (base n : Nat) : value base (Nat.digits base n).reverse = n := by
  unfold value
  rw [List.reverse_reverse, Nat.ofDigits_digits]

/-
Multiply by a number and add another one, from the last place to the first. What is left of the carry then is
lost.
-/
def mulAdd (base mult : Nat) (digits : List Nat) (carry : Nat) : Nat × List Nat :=
  digits.foldr (fun d state => ((state.1 + mult * d) / base, (state.1 + mult * d) % base :: state.2)) (carry, [])

variable {mult carry : Nat}

theorem mulAdd_cons (d : Nat)
    : mulAdd base mult (d :: digits) carry
        =
      (((mulAdd base mult digits carry).1 + mult * d) / base,
        ((mulAdd base mult digits carry).1 + mult * d) % base :: (mulAdd base mult digits carry).2) := rfl

@[simp]
theorem length_mulAdd (base mult : Nat) (digits : List Nat) (carry : Nat)
    : (mulAdd base mult digits carry).2.length = digits.length := by
  induction digits with
  | nil => rfl
  | cons d digits ih => rw [mulAdd_cons, List.length_cons, List.length_cons, ih]

theorem mulAdd_lt (hb : 0 < base) : ∀ d ∈ (mulAdd base mult digits carry).2, d < base := by
  induction digits with
  | nil => exact nofun
  | cons d digits ih =>
    rw [mulAdd_cons, List.forall_mem_cons]
    exact ⟨Nat.mod_lt _ hb, ih⟩

theorem mulAdd_value (base mult : Nat) (digits : List Nat) (carry : Nat)
    : base ^ digits.length * (mulAdd base mult digits carry).1 + value base (mulAdd base mult digits carry).2
        = mult * value base digits + carry := by
  induction digits with
  | nil =>
    change base ^ 0 * carry + 0 = mult * 0 + carry
    rw [Nat.pow_zero, Nat.one_mul, Nat.mul_zero, Nat.zero_add, Nat.add_zero]
  | cons d digits ih =>
    rw [mulAdd_cons]
    dsimp only
    rw [value_cons, value_cons, length_mulAdd, List.length_cons, Nat.pow_succ]
    generalize (mulAdd base mult digits carry).1 = rest at ih ⊢
    have hdiv := Nat.div_add_mod (rest + mult * d) base
    calc
      _ = base ^ digits.length * (base * ((rest + mult * d) / base) + (rest + mult * d) % base)
            + value base (mulAdd base mult digits carry).2 := by ring
      _ = base ^ digits.length * rest + value base (mulAdd base mult digits carry).2
            + base ^ digits.length * (mult * d) := by rw [hdiv]; ring
      _ = mult * value base digits + carry + base ^ digits.length * (mult * d) := by rw [ih]
      _ = _ := by ring

/--
Nothing is lost if the result fits.
-/
theorem mulAdd_spec (h : mult * value base digits + carry < base ^ digits.length)
    : (mulAdd base mult digits carry).1 = 0
        ∧
      value base (mulAdd base mult digits carry).2 = mult * value base digits + carry := by
  have hvalue := mulAdd_value base mult digits carry
  have hzero : (mulAdd base mult digits carry).1 = 0 := by
    by_contra hne
    have := Nat.mul_le_mul_left (base ^ digits.length) (Nat.one_le_iff_ne_zero.mpr hne)
    omega
  rw [hzero] at hvalue
  exact ⟨hzero, by omega⟩

-- The number that is read from its digits in another base, into a buffer of some size
def convert (base mult size : Nat) (input : List Nat) : List Nat :=
  input.foldl (fun digits d => (mulAdd base mult digits d).2) (List.replicate size 0)

variable {size : Nat} {input : List Nat}

theorem convert_concat (base mult size : Nat) (input : List Nat) (d : Nat)
    : convert base mult size (input ++ [d]) = (mulAdd base mult (convert base mult size input) d).2 := by
  unfold convert
  rw [List.foldl_append]
  rfl

@[simp]
theorem length_convert (base mult size : Nat) (input : List Nat) : (convert base mult size input).length = size := by
  induction input using List.reverseRecOn with
  | nil => exact List.length_replicate
  | append_singleton input d ih => rw [convert_concat, length_mulAdd, ih]

theorem convert_lt (hb : 0 < base) : ∀ d ∈ convert base mult size input, d < base := by
  induction input using List.reverseRecOn with
  | nil =>
    intro d hd
    rw [List.eq_of_mem_replicate hd]
    exact hb
  | append_singleton input d ih =>
    rw [convert_concat]
    exact mulAdd_lt hb

theorem value_prefix_le (hm : 0 < mult) (input post : List Nat) : value mult input ≤ value mult (input ++ post) := by
  induction post using List.reverseRecOn with
  | nil => rw [List.append_nil]
  | append_singleton post d ih =>
    rw [← List.append_assoc, value_concat]
    have := Nat.le_mul_of_pos_left (value mult (input ++ post)) hm
    omega

theorem value_convert (hm : 0 < mult) (h : value mult input < base ^ size)
    : value base (convert base mult size input) = value mult input := by
  induction input using List.reverseRecOn with
  | nil => exact value_replicate_zero base size
  | append_singleton input d ih =>
    have hinit := ih (Nat.lt_of_le_of_lt (value_prefix_le hm input [d]) h)
    rw [value_concat] at h ⊢
    rw [convert_concat, (mulAdd_spec (by rw [hinit, length_convert]; exact h)).2, hinit]

/--
No step loses a carry.
-/
theorem convert_carry (hm : 0 < mult) (h : value mult input < base ^ size) {pre post : List Nat} {d : Nat}
    (hinput : input = pre ++ d :: post)
    : (mulAdd base mult (convert base mult size pre) d).1 = 0 := by
  have hle := value_prefix_le hm (pre ++ [d]) post
  rw [List.append_assoc, List.singleton_append, ← hinput, value_concat] at hle
  have hpre : value base (convert base mult size pre) = value mult pre := by
    apply value_convert hm
    have := Nat.le_mul_of_pos_left (value mult pre) hm
    omega
  refine (mulAdd_spec ?_).1
  rw [hpre, length_convert]
  omega

/--
The digits in the other base.
-/
theorem dropWhile_convert (hb : 1 < base) (hm : 0 < mult) (h : value mult input < base ^ size)
    : (convert base mult size input).dropWhile (· = 0) = (Nat.digits base (value mult input)).reverse := by
  rw [dropWhile_eq hb (convert_lt (by omega)), value_convert hm h]

-- How many places are enough, by a rational bound of the logarithm
theorem pow_le_pow_places {p q : Nat} (hq : 0 < q) (hb : 0 < base) (h : mult ^ q ≤ base ^ p) (m : Nat)
    : mult ^ m ≤ base ^ (m * p / q + 1) := by
  rw [← Nat.pow_le_pow_iff_left (Nat.pos_iff_ne_zero.mp hq)]
  have hle : p * m ≤ (m * p / q + 1) * q := by
    have := Nat.div_add_mod (m * p) q
    have := Nat.mod_lt (m * p) hq
    rw [Nat.add_mul, Nat.one_mul, Nat.mul_comm (m * p / q) q, Nat.mul_comm p m]
    omega
  calc
    (mult ^ m) ^ q = (mult ^ q) ^ m := by rw [← Nat.pow_mul, ← Nat.pow_mul, Nat.mul_comm]
    _ ≤ (base ^ p) ^ m := Nat.pow_le_pow_left h m
    _ = base ^ (p * m) := (Nat.pow_mul ..).symm
    _ ≤ base ^ ((m * p / q + 1) * q) := Nat.pow_le_pow_right hb hle
    _ = _ := Nat.pow_mul ..

end Places
