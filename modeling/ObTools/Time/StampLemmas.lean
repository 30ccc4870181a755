import ObTools.Lib.Calendar
import ObTools.Time.Stamp

/-!
This module contains the exact conditions under which `Time::Stamp::split` finds the right date.

The years are estimated as if they all had 365.24 days. The estimate can be the year before or the
year after the right one, which makes no difference except when the next year is a leap year: then a
leap day is deleted that is yet to come.
-/

namespace ObTools
namespace Time
namespace Stamp

open Calendar (isLeap daysInYear daysInMonth daysBeforeYear daysBeforeMonth Date)

-- The number of leap days from 1900 to the beginning of a year
def leapsBefore (y : Nat) : Nat := (y + 3) / 4 + (y + 299) / 400 - (y + 99) / 100

theorem isLeap_1900 (y : Nat)
    : isLeap (1900 + y) = true ↔ y % 4 = 0 ∧ (y % 100 ≠ 0 ∨ (y + 300) % 400 = 0) := by
  rw [Calendar.isLeap_iff]
  omega

theorem daysBeforeYear_1900 (y : Nat)
    : daysBeforeYear (1900 + y) = daysBeforeYear 1900 + 365 * y + leapsBefore y := by
  have h1 := Calendar.daysBeforeYear_eq (1900 + y)
  have h2 := Calendar.daysBeforeYear_eq 1900
  unfold leapsBefore
  omega

theorem leapsBefore_succ (y : Nat)
    : leapsBefore (y + 1) = leapsBefore y + if isLeap (1900 + y) then 1 else 0 := by
  have h1 := daysBeforeYear_1900 (y + 1)
  have h2 := daysBeforeYear_1900 y
  have h3 : daysBeforeYear (1900 + y + 1) = daysBeforeYear (1900 + y) + daysInYear (1900 + y) := rfl
  rw [Nat.add_assoc] at h3
  unfold daysInYear at h3
  split at h3
  . next h =>
    rw [if_pos h]
    omega
  . next h =>
    rw [if_neg h]
    omega

/-
How far the years of the estimate and the years of the calendar are apart, in hundredths of a day.
-/
theorem leapsBefore_bounds (y : Nat)
    : 24 * y ≤ 100 * leapsBefore y + 125 ∧ 400 * leapsBefore y ≤ 97 * y + 600 := by
  unfold leapsBefore
  omega

section Estimate

theorem truncate_div {t a d : ℕ} (had : a < d)
    : truncate (((t : ℚ) - a) / d) = ((t - a) / d : ℕ) := by
  have hd : (0 : ℚ) < d := by exact_mod_cast Nat.lt_of_le_of_lt (Nat.zero_le a) had
  unfold truncate
  by_cases hle : a ≤ t
  . have hcast : (t : ℚ) - a = (t - a : ℕ) := by
      rw [Nat.cast_sub hle]
    rw [hcast, if_pos (by positivity)]
    exact Rat.floor_natCast_div_natCast ..
  . have hlt : (t : ℚ) < a := by exact_mod_cast Nat.lt_of_not_le hle
    have hneg : ((t : ℚ) - a) / d < 0 := div_neg_of_neg_of_pos (by linarith) hd
    rw [if_neg (not_le.mpr hneg), Nat.sub_eq_zero_of_le (by omega), Nat.zero_div, Int.ceil_eq_iff]
    constructor
    . have hpos : (0 : ℚ) ≤ t := by positivity
      have had : (a : ℚ) < d := by exact_mod_cast had
      rw [lt_div_iff₀ hd]
      push_cast
      linarith
    . push_cast
      exact le_of_lt hneg

theorem toNat_ofNat_of_lt {n : Nat} (h : n < 2 ^ 64) : (UInt64.ofNat n).toNat = n := by
  rw [UInt64.toNat_ofNat']
  exact Nat.mod_eq_of_lt h

theorem toNat_ofInt_natCast {n : Nat} (h : n < 2 ^ 64) : (UInt64.ofInt n).toNat = n := by
  unfold UInt64.ofInt
  rw [UInt64.toNat_ofNat']
  omega

theorem toNat_estimateYears (seconds : UInt64)
    : (estimateYears seconds).toNat = (seconds.toNat - 20736) / 31556736 := by
  have hlt := seconds.toNat_lt
  have hq : ((seconds.toNat : ℚ) - 0.24 * DAY.toNat) / (365.24 * DAY.toNat)
      = ((seconds.toNat : ℚ) - (20736 : ℕ)) / (31556736 : ℕ) := by
    have hday : (DAY.toNat : ℚ) = 86400 := by
      rw [show DAY.toNat = 86400 from rfl]
      norm_num
    rw [hday]
    norm_num
  unfold estimateYears
  rw [hq, truncate_div (by norm_num), toNat_ofInt_natCast]
  exact Nat.lt_of_le_of_lt (Nat.div_le_self _ _) (by omega)

end Estimate

section SplitSeconds

-- The month and the day of a day of a year without leap day
def monthOf (d : Nat) : Nat := findMonth (UInt64.ofNat d)
def dayOf (d : Nat) : Nat := d - daysBeforeMonth false (monthOf d) + 1

set_option maxRecDepth 2000 in
theorem monthOf_spec
    : ∀ d : Fin 365, (1 ≤ monthOf d ∧ monthOf d ≤ 12) ∧ dayOf d ≤ daysInMonth false (monthOf d)
        ∧ daysBeforeMonth false (monthOf d) ≤ d := by
  decide

set_option maxRecDepth 2000 in
theorem monthOf_leap
    : ∀ d : Fin 365, dayOf d ≤ daysInMonth true (monthOf d)
        ∧ daysBeforeMonth true (monthOf d)
          = daysBeforeMonth false (monthOf d) + if (d : Nat) < 59 then 0 else 1 := by
  decide

theorem monthdays_product
    : ∀ month : Fin 12, (UInt32.ofInt (monthdays[(month : Nat)]?.getD 0) * DAY).toUInt64
        = UInt64.ofNat (86400 * daysBeforeMonth false (month + 1)) := by
  decide

theorem monthdays_eq (d : Fin 365)
    : (UInt32.ofInt (monthdays[monthOf d - 1]?.getD 0) * DAY).toUInt64
        = UInt64.ofNat (86400 * daysBeforeMonth false (monthOf d)) := by
  obtain ⟨⟨h1, h2⟩, -, -⟩ := monthOf_spec d
  have hproduct := monthdays_product ⟨monthOf d - 1, by omega⟩
  have hindex : monthOf d - 1 + 1 = monthOf d := by omega
  dsimp only at hproduct
  rw [hindex] at hproduct
  exact hproduct

theorem quotient_eq {c q r : Nat} (hc : c < 2 ^ 64) (hr : r < c) (hlt : c * q + r < 2 ^ 64)
    : UInt64.ofNat (c * q + r) / UInt64.ofNat c = UInt64.ofNat q
        ∧
      UInt64.ofNat (c * q + r) - UInt64.ofNat q * UInt64.ofNat c = UInt64.ofNat r := by
  constructor
  . rw [← UInt64.ofNat_div hlt hc, Nat.mul_add_div (by omega), Nat.div_eq_of_lt hr, Nat.add_zero]
  . rw [← UInt64.ofNat_mul, ← UInt64.ofNat_sub (by rw [Nat.mul_comm q]; omega), Nat.mul_comm q,
      Nat.add_sub_cancel_left]

/--
The seconds of a year without leap day are split into its days.
-/
theorem splitSeconds_eq {y d s : Nat} (hy : y < 2 ^ 20) (hd : d < 365) (hs : s < 86400)
    (early : Bool)
    : splitSeconds (UInt64.ofNat (31536000 * y + (86400 * d + s))) early 0
        =
      { year := (1900 + y : ℕ)
        month := if isLeap (1900 + y) && !early && d = 58 then 2 else monthOf d
        day := if isLeap (1900 + y) && !early && d = 58 then 29 else dayOf d
        hour := (s / 3600 : ℕ)
        min := (s % 3600 / 60 : ℕ)
        sec := (s % 60 : ℕ) } := by
  have hyear : (365 * DAY).toUInt64 = UInt64.ofNat 31536000 := rfl
  have hday : DAY.toUInt64 = UInt64.ofNat 86400 := rfl
  have hhour : HOUR.toUInt64 = UInt64.ofNat 3600 := rfl
  have hmin : MINUTE.toUInt64 = UInt64.ofNat 60 := rfl
  have hmonth := monthOf_spec ⟨d, hd⟩
  have hmonthdays := monthdays_eq ⟨d, hd⟩
  dsimp only at hmonth hmonthdays
  have h1 := quotient_eq (c := 31536000) (q := y) (r := 86400 * d + s) (by decide)
    (by omega) (by omega)
  have h2 := quotient_eq (c := 86400) (q := d) (r := s) (by decide) (by omega) (by omega)
  have h3 : UInt64.ofNat (86400 * d + s) - UInt64.ofNat (86400 * daysBeforeMonth false (monthOf d))
      = UInt64.ofNat (86400 * (d - daysBeforeMonth false (monthOf d)) + s) := by
    rw [← UInt64.ofNat_sub (by omega)]
    congr 1
    omega
  have h4 := quotient_eq (c := 86400) (q := d - daysBeforeMonth false (monthOf d)) (r := s)
    (by decide) (by omega) (by omega)
  have h5 := quotient_eq (c := 3600) (q := s / 3600) (r := s % 3600) (by decide) (by omega)
    (by omega)
  have h6 := quotient_eq (c := 60) (q := s % 3600 / 60) (r := s % 3600 % 60) (by decide)
    (by omega) (by omega)
  rw [Nat.div_add_mod] at h5 h6
  have hfold : findMonth (UInt64.ofNat d) = monthOf d := rfl
  have hfifty : UInt64.ofNat d = 58 ↔ d = 58 := by
    rw [← UInt64.toNat_inj, toNat_ofNat_of_lt (by omega)]
    rfl
  unfold splitSeconds
  simp only [hyear, hday, hhour, hmin, h1, h2, hfold, hmonthdays, h3, h4, h5, h6, hfifty]
  have hleap : isLeapYear ((y : Int) + 1900) = isLeap (1900 + y) := by
    rw [Bool.eq_iff_iff, Calendar.isLeap_iff]
    simp only [isLeapYear, Bool.and_eq_true, Bool.or_eq_true, decide_eq_true_eq]
    omega
  have hdayOf : ((dayOf d : ℕ) : Int) = ((d - daysBeforeMonth false (monthOf d) : ℕ) : Int) + 1 := by
    unfold dayOf
    omega
  have hsec : s % 3600 % 60 = s % 60 := by omega
  rw [toNat_ofNat_of_lt (n := y) (by omega), toNat_ofNat_of_lt (n := s / 3600) (by omega),
    toNat_ofNat_of_lt (n := s % 3600 / 60) (by omega),
    toNat_ofNat_of_lt (n := s % 3600 % 60) (by omega), toNat_ofNat_of_lt (by omega), hleap, hdayOf,
    hsec]
  simp [Int.add_comm]

end SplitSeconds

section Split

/-
Whether the year of the estimate is a leap year and the leap day has not come yet.
-/
def isEarly (e t : Nat) : Bool :=
  isLeap (1900 + e) && 86400 * (365 * e + leapsBefore e) ≤ t
    && t < 86400 * (365 * e + leapsBefore e + 59)

theorem leapdays_eq {e : Nat} (he : e < 2 ^ 20)
    : UInt64.ofNat e / 4 - UInt64.ofNat e / 100 + (UInt64.ofNat e + 300) / 400
        = UInt64.ofNat (leapsBefore (e + 1)) := by
  have h4 : UInt64.ofNat e / 4 = UInt64.ofNat (e / 4) := by
    rw [UInt64.ofNat_div (by omega) (by omega)]
    rfl
  have h100 : UInt64.ofNat e / 100 = UInt64.ofNat (e / 100) := by
    rw [UInt64.ofNat_div (by omega) (by omega)]
    rfl
  have h400 : (UInt64.ofNat e + 300) / 400 = UInt64.ofNat ((e + 300) / 400) := by
    rw [UInt64.ofNat_div (by omega) (by omega), UInt64.ofNat_add]
    rfl
  rw [h4, h100, h400, ← UInt64.ofNat_sub (by omega), ← UInt64.ofNat_add]
  congr 1
  unfold leapsBefore
  omega

theorem ofNat_mod_eq_zero_iff {a c : Nat} (ha : a < 2 ^ 64) (hpos : 0 < c) (hc : c < 2 ^ 64)
    : UInt64.ofNat a % UInt64.ofNat c = 0 ↔ a % c = 0 := by
  rw [← UInt64.ofNat_mod ha hc, ← UInt64.toNat_inj, toNat_ofNat_of_lt]
  . rfl
  . exact Nat.lt_trans (Nat.mod_lt _ hpos) hc

theorem leap_eq {e : Nat} (he : e < 2 ^ 20)
    : (UInt64.ofNat e % 4 = 0 && (UInt64.ofNat e % 100 ≠ 0 || (UInt64.ofNat e + 300) % 400 = 0))
        = isLeap (1900 + e) := by
  have h4 : UInt64.ofNat e % 4 = 0 ↔ e % 4 = 0 :=
    ofNat_mod_eq_zero_iff (c := 4) (by omega) (by omega) (by omega)
  have h100 : UInt64.ofNat e % 100 = 0 ↔ e % 100 = 0 :=
    ofNat_mod_eq_zero_iff (c := 100) (by omega) (by omega) (by omega)
  have h400 : (UInt64.ofNat e + 300) % 400 = 0 ↔ (e + 300) % 400 = 0 := by
    rw [← ofNat_mod_eq_zero_iff (c := 400) (by omega) (by omega) (by omega), UInt64.ofNat_add]
    rfl
  rw [Bool.eq_iff_iff, isLeap_1900]
  simp only [Bool.and_eq_true, Bool.or_eq_true, decide_eq_true_eq, ne_eq, h4, h100, h400]

-- The seconds up to the beginning of a leap year
theorem yearStart_eq {e : Nat} (hleap : isLeap (1900 + e) = true)
    : (UInt64.ofNat e * 365 + UInt64.ofNat (leapsBefore (e + 1)) - 1) * DAY.toUInt64
        = UInt64.ofNat (86400 * (365 * e + leapsBefore e)) := by
  have hsucc := leapsBefore_succ e
  rw [hleap, if_pos rfl] at hsucc
  have hdays : UInt64.ofNat e * 365 + UInt64.ofNat (leapsBefore (e + 1)) - 1
      = UInt64.ofNat (365 * e + leapsBefore e) := by
    have h365 : UInt64.ofNat e * 365 = UInt64.ofNat (e * 365) := by
      rw [UInt64.ofNat_mul]
      rfl
    have hone : (1 : UInt64) = UInt64.ofNat 1 := rfl
    rw [h365, ← UInt64.ofNat_add, hone, ← UInt64.ofNat_sub (by omega)]
    congr 1
    omega
  have hday : DAY.toUInt64 = UInt64.ofNat 86400 := rfl
  rw [hdays, hday, ← UInt64.ofNat_mul, Nat.mul_comm]

theorem early_eq {e t : Nat} (he : e < 2 ^ 20) (ht : t < 2 ^ 44)
    : (UInt64.ofNat e % 4 = 0 && (UInt64.ofNat e % 100 ≠ 0 || (UInt64.ofNat e + 300) % 400 = 0)
        && UInt64.ofNat t - (UInt64.ofNat e * 365 + UInt64.ofNat (leapsBefore (e + 1)) - 1)
            * DAY.toUInt64 < (DAY * 59).toUInt64)
        = isEarly e t := by
  rw [leap_eq he]
  unfold isEarly
  rw [Bool.and_assoc]
  cases hcase : isLeap (1900 + e) with
  | false => rw [Bool.false_and, Bool.false_and]
  | true =>
    have hbounds := leapsBefore_bounds e
    rw [yearStart_eq hcase, Bool.true_and, Bool.true_and, Bool.eq_iff_iff]
    simp only [Bool.and_eq_true, decide_eq_true_eq, UInt64.lt_iff_toNat_lt, UInt64.toNat_sub]
    rw [toNat_ofNat_of_lt (n := t) (by omega),
      toNat_ofNat_of_lt (n := 86400 * (365 * e + leapsBefore e)) (by omega)]
    have hlimit : (DAY * 59).toUInt64.toNat = 86400 * 59 := rfl
    rw [hlimit]
    omega

theorem toNat_shifted {t : Nat} (ht : t < 2 ^ 44)
    : (UInt64.ofNat t <<< INTERNAL_SHIFT).toNat = t * 2 ^ 20 := by
  have hshift : INTERNAL_SHIFT.toNat % 64 = 20 := rfl
  rw [UInt64.toNat_shiftLeft, hshift, toNat_ofNat_of_lt (by omega), Nat.shiftLeft_eq]
  exact Nat.mod_eq_of_lt (by omega)

theorem split_eq {t : Nat} (ht : t < 2 ^ 44)
    : split (UInt64.ofNat t <<< INTERNAL_SHIFT)
        =
      let e := (t - 20736) / 31556736
      let leaps := if isEarly e t then leapsBefore e else leapsBefore (e + 1)
      splitSeconds (UInt64.ofNat t - UInt64.ofNat leaps * DAY.toUInt64) (isEarly e t) 0 := by
  have hshift : (UInt64.ofNat t <<< INTERNAL_SHIFT) >>> INTERNAL_SHIFT = UInt64.ofNat t := by
    have hshift : INTERNAL_SHIFT.toNat % 64 = 20 := rfl
    rw [← UInt64.toNat_inj, UInt64.toNat_shiftRight, toNat_shifted ht, hshift,
      Nat.shiftRight_eq_div_pow, toNat_ofNat_of_lt (by omega)]
    omega
  have hfraction : (UInt64.ofNat t <<< INTERNAL_SHIFT) &&& (INTERNAL_MULTIPLIER - 1) = 0 := by
    have hmask : (INTERNAL_MULTIPLIER - 1).toNat = 2 ^ 20 - 1 := rfl
    rw [← UInt64.toNat_inj, UInt64.toNat_and, toNat_shifted ht, hmask,
      Nat.and_two_pow_sub_one_eq_mod, UInt64.toNat_zero]
    omega
  have hyears : estimateYears (UInt64.ofNat t) = UInt64.ofNat ((t - 20736) / 31556736) := by
    rw [← UInt64.toNat_inj, toNat_estimateYears, toNat_ofNat_of_lt (by omega), toNat_ofNat_of_lt]
    omega
  have he : (t - 20736) / 31556736 < 2 ^ 20 := by omega
  unfold split
  simp only [hshift, hfraction, hyears, leapdays_eq he, early_eq he ht]
  generalize (t - 20736) / 31556736 = e at *
  split
  . next hearly =>
    have hsucc := leapsBefore_succ e
    have hleap : isLeap (1900 + e) = true := by
      simp only [isEarly, Bool.and_eq_true] at hearly
      exact hearly.1.1
    rw [hleap, if_pos rfl] at hsucc
    have hone : (1 : UInt64) = UInt64.ofNat 1 := rfl
    rw [hsucc, hone, ← UInt64.ofNat_sub (by omega), Nat.add_sub_cancel]
  . rfl

end Split

section Leaps

variable {t y doy s e : Nat}

/-
The estimate is wrong by one year at most, and this only around the turn of the year.
-/
theorem estimate_near (ht : t = 86400 * (365 * y + leapsBefore y + doy) + s) (hdoy : doy < 366)
    (hs : s < 86400) (hy : y < 8100) (he : e = (t - 20736) / 31556736)
    : (y ≤ e + 1 ∧ e ≤ y + 1) ∧ (e = y + 1 → 340 ≤ doy) ∧ (e + 1 = y → doy < 58) := by
  have hbounds := leapsBefore_bounds y
  have h1 : e = 0 ∨ 20736 + 31556736 * e ≤ t := by omega
  have h2 : t < 20736 + 31556736 * (e + 1) := by omega
  clear he
  omega

theorem lt_366 (hdoy : doy < daysInYear (1900 + y)) : doy < 366 := by
  unfold daysInYear at hdoy
  split at hdoy
  . exact hdoy
  . omega

theorem not_isLeap_of_succ (h : isLeap (1900 + (y + 1)) = true) : isLeap (1900 + y) = false := by
  rw [isLeap_1900] at h
  rw [Bool.eq_false_iff]
  intro h'
  rw [isLeap_1900] at h'
  omega

/--
As long as no leap day is counted that is in a year that has not begun, the leap days up to now are
deleted, and it is known whether the leap day of this year is still to come.
-/
theorem leaps_of_begun (ht : t = 86400 * (365 * y + leapsBefore y + doy) + s)
    (hdoy : doy < daysInYear (1900 + y)) (hs : s < 86400) (hy : y < 8100) (he : e = (t - 20736) / 31556736)
    (hbegun : isLeap (1900 + e) = true → 86400 * (365 * e + leapsBefore e) ≤ t)
    : (if isEarly e t then leapsBefore e else leapsBefore (e + 1))
          = leapsBefore y + (if isLeap (1900 + y) && 59 ≤ doy then 1 else 0)
        ∧
      (isLeap (1900 + y) = true → (isEarly e t = true ↔ e = y ∧ doy < 59)) := by
  obtain ⟨⟨h1, h2⟩, hahead, hbehind⟩ := estimate_near ht (lt_366 hdoy) hs hy he
  clear he
  have hcases : e + 1 = y ∨ e = y ∨ e = y + 1 := by omega
  rcases hcases with hbefore | hsame | hafter
  . -- The leap day of the year before is long gone
    subst hbefore
    have hsucc := leapsBefore_succ e
    have hnot : isEarly e t = false := by
      unfold isEarly
      rw [Bool.eq_false_iff]
      simp only [ne_eq, Bool.and_eq_true, decide_eq_true_eq]
      rintro ⟨⟨hleap, -⟩, hlt⟩
      rw [hleap, if_pos rfl] at hsucc
      omega
    have hdoy' := hbehind rfl
    rw [hnot, if_neg (by simp), if_neg (by simp; omega), Nat.add_zero]
    refine ⟨rfl, ?_⟩
    intro _
    simp
  . subst hsame
    have hsucc := leapsBefore_succ e
    have hearly : isEarly e t = (isLeap (1900 + e) && decide (doy < 59)) := by
      unfold isEarly
      rw [Bool.and_assoc]
      congr 1
      rw [Bool.eq_iff_iff]
      simp only [Bool.and_eq_true, decide_eq_true_eq]
      omega
    rw [hearly]
    cases hleap : isLeap (1900 + e) with
    | false =>
      rw [hleap] at hsucc
      simpa using hsucc
    | true =>
      rw [hleap, if_pos rfl] at hsucc
      by_cases hlt : doy < 59
      . simp [hlt]
      . simp [hlt, hsucc]
  . -- It is already over
    subst hafter
    have hdoy' := hahead rfl
    have hsucc := leapsBefore_succ y
    have hsucc' := leapsBefore_succ (y + 1)
    have hnot : isLeap (1900 + (y + 1)) = false := by
      rw [Bool.eq_false_iff]
      intro hleap
      have hbegun := hbegun hleap
      have hthis := not_isLeap_of_succ hleap
      unfold daysInYear at hdoy
      rw [hthis] at hsucc hdoy
      simp only [Bool.false_eq_true, ↓reduceIte] at hsucc hdoy
      omega
    have hnotEarly : isEarly (y + 1) t = false := by
      unfold isEarly
      rw [hnot]
      rfl
    rw [hnot] at hsucc'
    rw [hnotEarly, if_neg (by simp), hsucc', hsucc]
    have hlate : 59 ≤ doy := by omega
    simp [hlate]

/--
Otherwise one leap day too many is deleted.
-/
theorem leaps_of_not_begun (ht : t = 86400 * (365 * y + leapsBefore y + doy) + s)
    (hdoy : doy < daysInYear (1900 + y)) (hs : s < 86400) (hy : y < 8100)
    (he : e = (t - 20736) / 31556736) (hleap : isLeap (1900 + e) = true)
    (hbegun : t < 86400 * (365 * e + leapsBefore e))
    : isLeap (1900 + y) = false ∧ 1 ≤ doy
        ∧ (if isEarly e t then leapsBefore e else leapsBefore (e + 1)) = leapsBefore y + 1 := by
  obtain ⟨⟨h1, h2⟩, hahead, -⟩ := estimate_near ht (lt_366 hdoy) hs hy he
  clear he
  have hafter : e = y + 1 := by
    have hcases : e + 1 = y ∨ e = y ∨ e = y + 1 := by omega
    rcases hcases with hbefore | hsame | hafter
    . subst hbefore
      have hsucc := leapsBefore_succ e
      omega
    . subst hsame
      omega
    . exact hafter
  subst hafter
  have hthis := not_isLeap_of_succ hleap
  have hsucc := leapsBefore_succ y
  have hsucc' := leapsBefore_succ (y + 1)
  rw [hleap, if_pos rfl] at hsucc'
  rw [hthis, if_neg (by simp), Nat.add_zero] at hsucc
  have hnot : isEarly (y + 1) t = false := by
    unfold isEarly
    rw [Bool.eq_false_iff]
    simp only [ne_eq, Bool.and_eq_true, decide_eq_true_eq]
    rintro ⟨⟨-, hle⟩, -⟩
    omega
  have hlate := hahead rfl
  refine ⟨hthis, by omega, ?_⟩
  rw [hnot, if_neg (by simp), hsucc', hsucc]

end Leaps

-- The date and the time of day at some seconds since 1900
def splitOf (t : Nat) : Split :=
  let date := (Date.mk 1900 1 1).plus (t / 86400)
  { year := date.year
    month := date.month
    day := date.day
    hour := (t % 86400 / 3600 : ℕ)
    min := (t % 3600 / 60 : ℕ)
    sec := (t % 60 : ℕ) }

-- The seconds from 1900 to the beginning of a year
def secondsBefore (year : Nat) : Nat := 86400 * (daysBeforeYear year - daysBeforeYear 1900)

theorem secondsBefore_1900 (y : Nat)
    : secondsBefore (1900 + y) = 86400 * (365 * y + leapsBefore y) := by
  unfold secondsBefore
  rw [daysBeforeYear_1900]
  omega

section Dates

theorem first_valid : (Date.mk 1900 1 1).Valid := by
  unfold Date.Valid
  decide

theorem first_number : (Date.mk 1900 1 1).number = daysBeforeYear 1900 := by
  unfold Date.number Date.yearDay
  rw [daysBeforeMonth, Nat.zero_add, Nat.sub_self, Nat.add_zero]

/-
Where a number of seconds is within the calendar.
-/
theorem date_spec (t : Nat) (ht : t < secondsBefore 10000)
    : ∃ y date, (Date.mk 1900 1 1).plus (t / 86400) = date
        ∧ date.Valid ∧ date.year = 1900 + y ∧ y < 8100
        ∧ t = 86400 * (365 * y + leapsBefore y + date.yearDay) + t % 86400 := by
  obtain ⟨hvalid, hnumber, hyear⟩ := Date.plus_spec first_valid (t / 86400)
  generalize (Date.mk 1900 1 1).plus (t / 86400) = date at *
  obtain ⟨y, hy⟩ := Nat.exists_eq_add_of_le hyear
  dsimp only at hy
  rw [first_number, Date.number, hy, daysBeforeYear_1900] at hnumber
  have hday : t / 86400 = 365 * y + leapsBefore y + date.yearDay := by omega
  refine ⟨y, date, rfl, hvalid, hy, ?_, by omega⟩
  apply Nat.lt_of_not_le
  intro hge
  have hmono : daysBeforeYear 10000 ≤ daysBeforeYear (1900 + y) := by
    by_cases heq : 1900 + y = 10000
    . rw [heq]
    . have := Date.daysBeforeYear_mono (show 10000 < 1900 + y by omega)
      omega
  rw [daysBeforeYear_1900] at hmono
  unfold secondsBefore at ht
  omega

/-
The date for a day of a year, which is one less behind a leap day.
-/
theorem date_eq {date : Date} (hvalid : date.Valid) {d : Nat} (hd : d < 365) (early : Bool)
    (hyearDay : date.yearDay = d + if isLeap date.year && (59 ≤ d || (d = 58 && !early)) then 1 else 0)
    : (date.month : Int) = (if isLeap date.year && !early && d = 58 then 2 else (monthOf d : Int))
        ∧
      (date.day : Int) = (if isLeap date.year && !early && d = 58 then 29 else (dayOf d : Int)) := by
  obtain ⟨⟨hm1, hm2⟩, hday, hmonthdays⟩ := monthOf_spec ⟨d, hd⟩
  obtain ⟨hday', hmonthdays'⟩ := monthOf_leap ⟨d, hd⟩
  dsimp only at *
  have hpos : 1 ≤ dayOf d := by
    unfold dayOf
    omega
  have hdayOf : daysBeforeMonth false (monthOf d) + dayOf d = d + 1 := by
    unfold dayOf
    omega
  have hsame : ∀ month day, (Date.mk date.year month day).Valid →
      (Date.mk date.year month day).yearDay = date.yearDay → date.month = month ∧ date.day = day := by
    intro month day hvalid' hyearDay'
    have := Date.eq_of_number_eq hvalid hvalid' (by unfold Date.number; rw [hyearDay'])
    rw [this]
    exact ⟨rfl, rfl⟩
  cases hleap : isLeap date.year with
  | false =>
    obtain ⟨hmonth, hday⟩ := hsame (monthOf d) (dayOf d)
      ⟨⟨hm1, hm2⟩, hpos, by rw [hleap]; exact hday⟩
      (by rw [hyearDay, hleap]; simp [Date.yearDay, hleap]; omega)
    simp [hmonth, hday]
  | true =>
    by_cases hfix : early = false ∧ d = 58
    . obtain ⟨hearly, rfl⟩ := hfix
      obtain ⟨hmonth, hday⟩ := hsame 2 29
        ⟨by simp, by simp, by rw [hleap]; exact Nat.le_refl 29⟩
        (by rw [hyearDay, hleap, hearly]; simp [Date.yearDay, hleap]; decide)
      simp [hmonth, hday, hearly]
    . have hif : (true && !early && decide (d = 58)) = false := by
        cases early with
        | false => simpa using hfix
        | true => simp
      obtain ⟨hmonth, hday⟩ := hsame (monthOf d) (dayOf d)
        ⟨⟨hm1, hm2⟩, hpos, by rw [hleap]; exact hday'⟩
        (by
          rw [hyearDay, hleap, Date.yearDay]
          dsimp only
          rw [hleap, hmonthdays']
          by_cases hlt : d < 59
          . have hle : ¬(59 ≤ d) := by omega
            rw [if_pos hlt, if_neg (by simpa [hle, and_comm] using hfix)]
            omega
          . have hle : 59 ≤ d := by omega
            rw [if_neg hlt, if_pos (by simp [hle])]
            omega)
      rw [hif]
      simp [hmonth, hday]

end Dates

section Combine

theorem ofInt_natCast {n : Nat} (h : n < 2 ^ 64) : UInt64.ofInt n = UInt64.ofNat n := by
  rw [← UInt64.toNat_inj, toNat_ofInt_natCast h, toNat_ofNat_of_lt h]

theorem daysBeforeMonth_leap
    : ∀ month : Fin 12, daysBeforeMonth true (month + 1)
        = daysBeforeMonth false (month + 1) + if (month : Nat) < 2 then 0 else 1 := by
  decide

-- A product of type `unsigned int` that does not wrap
theorem unsigned_product {c : UInt32} {k n : Nat} (hc : c.toNat = k) (h : n * k < 2 ^ 32)
    : (UInt32.ofInt (n : Int) * c).toUInt64 = UInt64.ofNat (k * n) := by
  have hn : (UInt32.ofInt (n : Int)).toNat = n % 2 ^ 32 := by
    unfold UInt32.ofInt
    rw [UInt32.toNat_ofNat']
    omega
  rw [← UInt64.toNat_inj, UInt32.toNat_toUInt64, UInt32.toNat_mul, hn, hc, Nat.mod_mul_mod, Nat.mod_eq_of_lt h,
    Nat.mul_comm k, toNat_ofNat_of_lt (Nat.lt_trans h (by decide))]

theorem truncate_mul (a b : ℕ) : truncate ((a : ℚ) * (b : ℚ)) = ((a * b : ℕ) : Int) := by
  have hcast : (a : ℚ) * (b : ℚ) = ((a * b : ℕ) : ℚ) := by
    rw [Nat.cast_mul]
  unfold truncate
  rw [hcast, if_pos (by positivity), Int.floor_natCast]

theorem combine_sec {n : Nat} (hn : n < 60)
    : UInt64.ofInt (truncate ((n : ℚ) * ((1 <<< INTERNAL_SHIFT : UInt64).toNat : ℚ)))
        = UInt64.ofNat (n * 2 ^ 20) := by
  have hshift : (1 <<< INTERNAL_SHIFT : UInt64).toNat = 2 ^ 20 := rfl
  rw [truncate_mul, hshift, ofInt_natCast (by omega)]

theorem combine_month {month : Nat} (h1 : 1 ≤ month) (h2 : month ≤ 12)
    : (UInt32.ofInt (monthdays[((month : Int) - 1).toNat]?.getD 0) * DAY).toUInt64
        = UInt64.ofNat (86400 * daysBeforeMonth false month) := by
  have hproduct := monthdays_product ⟨month - 1, by omega⟩
  have hindex : ((month : Int) - 1).toNat = month - 1 := by omega
  dsimp only at hproduct
  rw [Nat.sub_add_cancel h1] at hproduct
  rw [hindex, hproduct]

theorem combine_day {day : Nat} (h1 : 1 ≤ day) (h2 : day ≤ 31)
    : (UInt32.ofInt ((day : Int) - 1) * DAY).toUInt64 = UInt64.ofNat (86400 * (day - 1)) := by
  have hday : DAY.toNat = 86400 := rfl
  have hcast : (day : Int) - 1 = ((day - 1 : ℕ) : Int) := by omega
  rw [hcast, unsigned_product hday (by omega)]

-- The days of the years, and the leap days up to the month
theorem combine_years {y month : Nat} (hy : y < 8100) {ld : Int}
    (hld : ld = if (month : Int) < 3 then ((1900 + y : ℕ) : Int) - 1 else ((1900 + y : ℕ) : Int))
    : UInt64.ofInt ((((1900 + y : ℕ) : Int) - 1900) * 365
          + (ld.tdiv 4 - ld.tdiv 100 + ld.tdiv 400 - 460))
        = UInt64.ofNat (365 * y + leapsBefore y
            + if isLeap (1900 + y) && 3 ≤ month then 1 else 0) := by
  have hpos : 0 ≤ ld := by
    rw [hld]
    split <;> omega
  have hsucc := leapsBefore_succ y
  have hbounds := leapsBefore_bounds (y + 1)
  have hdays : (((1900 + y : ℕ) : Int) - 1900) * 365
      + (ld.tdiv 4 - ld.tdiv 100 + ld.tdiv 400 - 460)
      = ((365 * y + leapsBefore y + if isLeap (1900 + y) && 3 ≤ month then 1 else 0 : ℕ) : Int) := by
    rw [Int.tdiv_eq_ediv_of_nonneg hpos, Int.tdiv_eq_ediv_of_nonneg hpos,
      Int.tdiv_eq_ediv_of_nonneg hpos]
    by_cases hmonth : month < 3
    . rw [if_pos (by omega)] at hld
      rw [if_neg (by simp; omega)]
      have h4 : ld / 4 = ((y + 3) / 4 : ℕ) + 474 := by omega
      have h100 : ld / 100 = ((y + 99) / 100 : ℕ) + 18 := by omega
      have h400 : ld / 400 = ((y + 299) / 400 : ℕ) + 4 := by omega
      rw [h4, h100, h400]
      unfold leapsBefore
      omega
    . rw [if_neg (by omega)] at hld
      have hle : 3 ≤ month := by omega
      have hif : (if isLeap (1900 + y) && 3 ≤ month then 1 else 0)
          = if isLeap (1900 + y) then 1 else 0 := by
        simp [hle]
      have h4 : ld / 4 = ((y + 1 + 3) / 4 : ℕ) + 474 := by omega
      have h100 : ld / 100 = ((y + 1 + 99) / 100 : ℕ) + 18 := by omega
      have h400 : ld / 400 = ((y + 1 + 299) / 400 : ℕ) + 4 := by omega
      rw [hif, Nat.add_assoc, ← hsucc, h4, h100, h400]
      unfold leapsBefore
      omega
  rw [hdays, ofInt_natCast]
  have hle : leapsBefore y ≤ leapsBefore (y + 1) := by omega
  split <;> omega

theorem daysBeforeMonth_eq (leap : Bool) {month : Nat} (h1 : 1 ≤ month) (h2 : month ≤ 12)
    : daysBeforeMonth leap month
        = daysBeforeMonth false month + if leap && 3 ≤ month then 1 else 0 := by
  cases leap with
  | false => rfl
  | true =>
    have hleap := daysBeforeMonth_leap ⟨month - 1, by omega⟩
    dsimp only at hleap
    rw [Nat.sub_add_cancel h1] at hleap
    rw [hleap]
    split
    . rw [if_neg (by simp; omega)]
    . rw [if_pos (by simp; omega)]

/--
The parts of a split time are put together again.
-/
theorem combine_splitOf (t : Nat) (ht : t < secondsBefore 10000)
    : combine (splitOf t) = UInt64.ofNat t <<< INTERNAL_SHIFT := by
  obtain ⟨y, date, hdate, ⟨⟨hm1, hm2⟩, hd1, hd2⟩, hyear, hy, hsum⟩ := date_spec t ht
  have hd3 : date.day ≤ 31 := Nat.le_trans hd2 (Calendar.daysInMonth_bounds _ _).2
  have hhour : HOUR.toNat = 3600 := rfl
  have hminute : MINUTE.toNat = 60 := rfl
  have hbefore := daysBeforeMonth_eq (isLeap (1900 + y)) hm1 hm2
  have hbounds := leapsBefore_bounds y
  rw [Date.yearDay, hyear] at hsum
  generalize hcombine : combine (splitOf t) = res
  unfold combine splitOf at hcombine
  rw [hdate] at hcombine
  simp only [hyear] at hcombine
  rw [if_neg (by omega), combine_years hy rfl, combine_month hm1 hm2, combine_day hd1 hd3,
    unsigned_product hhour (by omega), unsigned_product hminute (by omega),
    combine_sec (by omega)] at hcombine
  have hday64 : DAY.toUInt64 = UInt64.ofNat 86400 := rfl
  have hshift64 : INTERNAL_SHIFT = UInt64.ofNat 20 := rfl
  rw [hday64, hshift64, ← UInt64.ofNat_mul, ← UInt64.ofNat_add, ← UInt64.ofNat_add,
    ← UInt64.ofNat_add, ← UInt64.ofNat_add, ← UInt64.ofNat_shiftLeft _ _ (by omega),
    ← UInt64.ofNat_add, Nat.shiftLeft_eq] at hcombine
  rw [← hcombine, hshift64, ← UInt64.ofNat_shiftLeft _ _ (by omega), Nat.shiftLeft_eq]
  apply congrArg UInt64.ofNat
  omega

end Combine

/-
Whether the estimate takes the time for one in a leap year that has not begun.
-/
def IsMisjudged (t : Nat) : Prop :=
  ∃ year, isLeap year = true ∧ 20736 + 31556736 * (year - 1900) ≤ t ∧ t < secondsBefore year

theorem isMisjudged_iff {t e : Nat} (ht : t < secondsBefore 10000)
    (he : e = (t - 20736) / 31556736)
    : IsMisjudged t
        ↔
      isLeap (1900 + e) = true ∧ t < 86400 * (365 * e + leapsBefore e) := by
  have hmax : secondsBefore 10000 = 86400 * (365 * 8100 + leapsBefore 8100) :=
    secondsBefore_1900 8100
  have hmaxLeaps : leapsBefore 8100 = 1964 := rfl
  constructor
  . rintro ⟨year, hleap, hle, hlt⟩
    have hge : 1900 ≤ year := by
      apply Nat.le_of_not_lt
      intro hyear
      have hmono := Date.daysBeforeYear_mono hyear
      unfold secondsBefore at hlt
      omega
    obtain ⟨k, rfl⟩ := Nat.exists_eq_add_of_le hge
    rw [secondsBefore_1900] at hlt
    have hbounds := leapsBefore_bounds k
    have hk : k = e := by omega
    rw [← hk]
    exact ⟨hleap, hlt⟩
  . rintro ⟨hleap, hlt⟩
    refine ⟨1900 + e, hleap, ?_, by rw [secondsBefore_1900]; exact hlt⟩
    have hpos : e ≠ 0 := by
      intro hzero
      rw [hzero] at hleap
      exact absurd hleap (by decide)
    omega

/-
The result if a number of leap days is deleted that leaves a day of the year.
-/
theorem split_of_leaps {t e y d n s : Nat} (ht : t < 2 ^ 44) (he : e = (t - 20736) / 31556736)
    (hleaps : (if isEarly e t then leapsBefore e else leapsBefore (e + 1)) = n) (hd : d < 365)
    (hs : s < 86400) (hsum : t = 86400 * (365 * y + n + d) + s)
    : split (UInt64.ofNat t <<< INTERNAL_SHIFT)
        =
      { year := (1900 + y : ℕ)
        month := if isLeap (1900 + y) && !isEarly e t && d = 58 then 2 else monthOf d
        day := if isLeap (1900 + y) && !isEarly e t && d = 58 then 29 else dayOf d
        hour := (s / 3600 : ℕ)
        min := (s % 3600 / 60 : ℕ)
        sec := (s % 60 : ℕ) } := by
  have hday64 : DAY.toUInt64 = UInt64.ofNat 86400 := rfl
  have hseconds : UInt64.ofNat t - UInt64.ofNat n * DAY.toUInt64
      = UInt64.ofNat (31536000 * y + (86400 * d + s)) := by
    rw [hday64, ← UInt64.ofNat_mul, ← UInt64.ofNat_sub (by omega)]
    apply congrArg UInt64.ofNat
    omega
  rw [split_eq ht]
  dsimp only
  rw [← he, hleaps, hseconds, splitSeconds_eq (by omega) hd hs]

/-
Which day it is without the leap day, and back.
-/
theorem deleted_spec (leap early : Bool) {doy : Nat} (hlt : doy < if leap then 366 else 365)
    (hearly : leap = true → (doy = 58 → early = true) ∧ (doy = 59 → early = false))
    : ∃ d < 365, doy = d + (if leap && 59 ≤ doy then 1 else 0)
        ∧ doy = d + if leap && (59 ≤ d || (d = 58 && !early)) then 1 else 0 := by
  cases leap with
  | false => exact ⟨doy, hlt, rfl, rfl⟩
  | true =>
    obtain ⟨h58, h59⟩ := hearly rfl
    rw [if_pos rfl] at hlt
    by_cases hle : 59 ≤ doy
    . refine ⟨doy - 1, by omega, ?_, ?_⟩
      . rw [if_pos (by simp [hle])]
        omega
      . rw [if_pos]
        . omega
        . by_cases heq : doy = 59
          . simp [heq, h59 heq]
          . have hle : 59 ≤ doy - 1 := by omega
            simp [hle]
    . refine ⟨doy, by omega, ?_, ?_⟩
      . rw [if_neg (by simp [hle]), Nat.add_zero]
      . have hnot : (true && (decide (59 ≤ doy) || (decide (doy = 58) && !early))) = false := by
          by_cases heq : doy = 58
          . simp [hle, h58 heq]
          . simp [hle, heq]
        rw [hnot]
        rfl

theorem splitOf_eq {t y : Nat} {date : Date}
    (hdate : (Date.mk 1900 1 1).plus (t / 86400) = date) (hyear : date.year = 1900 + y)
    : splitOf t
        =
      { year := (1900 + y : ℕ)
        month := date.month
        day := date.day
        hour := (t % 86400 / 3600 : ℕ)
        min := (t % 86400 % 3600 / 60 : ℕ)
        sec := (t % 86400 % 60 : ℕ) } := by
  have hmin : t % 86400 % 3600 = t % 3600 := Nat.mod_mod_of_dvd _ (by decide)
  have hsec : t % 86400 % 60 = t % 60 := Nat.mod_mod_of_dvd _ (by decide)
  unfold splitOf
  rw [hdate, hmin, hsec, ← hyear]

theorem lt_of_lt_secondsBefore {t : Nat} (ht : t < secondsBefore 10000) : t < 2 ^ 44 := by
  have hmax : secondsBefore 10000 = 86400 * (365 * 8100 + leapsBefore 8100) :=
    secondsBefore_1900 8100
  have hmaxLeaps : leapsBefore 8100 = 1964 := rfl
  omega

-- The day before is found
theorem split_eq_of_misjudged {t : Nat} (ht : t < secondsBefore 10000) (h : IsMisjudged t)
    : 86400 ≤ t ∧ split (UInt64.ofNat t <<< INTERNAL_SHIFT) = splitOf (t - 86400) := by
  obtain ⟨y, date, hdate, hvalid, hyear, hy, hsum⟩ := date_spec t ht
  have hlt := hvalid.yearDay_lt
  have hs : t % 86400 < 86400 := Nat.mod_lt _ (by omega)
  have ht44 := lt_of_lt_secondsBefore ht
  rw [hyear] at hlt
  generalize he : (t - 20736) / 31556736 = e at *
  obtain ⟨hleap, hbegun⟩ := (isMisjudged_iff ht he.symm).mp h
  obtain ⟨hthis, hpos, hleaps⟩ := leaps_of_not_begun hsum hlt hs hy he.symm hleap hbegun
  have hle : 86400 ≤ t := by omega
  refine ⟨hle, ?_⟩
  obtain ⟨y', date', hdate', hvalid', hyear', -, hsum'⟩ := date_spec (t - 86400) (by omega)
  have hlt' := hvalid'.yearDay_lt
  have hmod : (t - 86400) % 86400 = t % 86400 := by omega
  rw [hyear'] at hlt'
  rw [hmod] at hsum'
  have hsame : y' = y := by
    have h1 := daysBeforeYear_1900 y
    have h2 := daysBeforeYear_1900 y'
    rcases Nat.lt_trichotomy y' y with hlt | heq | hlt
    . have := Date.daysBeforeYear_mono (show 1900 + y' < 1900 + y by omega)
      omega
    . exact heq
    . have := Date.daysBeforeYear_mono (show 1900 + y < 1900 + y' by omega)
      omega
  subst hsame
  have hyearDay : date'.yearDay = date.yearDay - 1 := by omega
  unfold daysInYear at hlt
  rw [hthis, if_neg (by simp)] at hlt
  have hd : date.yearDay - 1 < 365 := by omega
  obtain ⟨hmonth, hday⟩ := date_eq hvalid' hd (isEarly e t) (by
    rw [hyear', hthis, hyearDay]
    rfl)
  rw [split_of_leaps (y := y') ht44 he.symm hleaps hd hs (by omega), splitOf_eq hdate' hyear', hmod, hmonth, hday,
    hyear']

theorem splitOf_injective {t t' : Nat} (ht : t < secondsBefore 10000) (ht' : t' < secondsBefore 10000)
    (h : splitOf t = splitOf t')
    : t = t' := by
  have hcombine := combine_splitOf t ht
  rw [h, combine_splitOf t' ht', ← UInt64.toNat_inj, toNat_shifted (lt_of_lt_secondsBefore ht'),
    toNat_shifted (lt_of_lt_secondsBefore ht)] at hcombine
  omega

theorem split_ne_of_misjudged {t : Nat} (ht : t < secondsBefore 10000) (h : IsMisjudged t)
    : split (UInt64.ofNat t <<< INTERNAL_SHIFT) ≠ splitOf t := by
  obtain ⟨hle, hsplit⟩ := split_eq_of_misjudged ht h
  rw [hsplit]
  intro heq
  have := splitOf_injective (by omega) ht heq
  omega

theorem split_eq_of_not_misjudged {t : Nat} (ht : t < secondsBefore 10000) (h : ¬IsMisjudged t)
    : split (UInt64.ofNat t <<< INTERNAL_SHIFT) = splitOf t := by
  obtain ⟨y, date, hdate, hvalid, hyear, hy, hsum⟩ := date_spec t ht
  have hlt := hvalid.yearDay_lt
  have hs : t % 86400 < 86400 := Nat.mod_lt _ (by omega)
  have ht44 := lt_of_lt_secondsBefore ht
  rw [hyear] at hlt
  generalize he : (t - 20736) / 31556736 = e at *
  rw [isMisjudged_iff ht he.symm] at h
  have hbegun : isLeap (1900 + e) = true → 86400 * (365 * e + leapsBefore e) ≤ t := by
    intro hleap
    apply Nat.le_of_not_lt
    intro hlt
    exact h ⟨hleap, hlt⟩
  obtain ⟨hleaps, hearly⟩ := leaps_of_begun hsum hlt hs hy he.symm hbegun
  obtain ⟨⟨h1, h2⟩, hahead, hbehind⟩ := estimate_near hsum (lt_366 hlt) hs hy he.symm
  obtain ⟨d, hd, hdeleted, hyearDay⟩ := deleted_spec (isLeap (1900 + y)) (isEarly e t) hlt (by
    intro hleap
    rw [Bool.eq_false_iff, ne_eq, hearly hleap]
    omega)
  rw [← hyear] at hyearDay
  obtain ⟨hmonth, hday⟩ := date_eq hvalid hd (isEarly e t) hyearDay
  rw [split_of_leaps (y := y) ht44 he.symm hleaps hd hs (by omega), splitOf_eq hdate hyear, hmonth,
    hday, hyear]

/--
For all seconds up to the end of the year 9999, the parts are right and can be put together again if
and only if the time is not misjudged.
-/
theorem split_combine_spec (t : Nat) (ht : t < secondsBefore 10000)
    : split (UInt64.ofNat t <<< INTERNAL_SHIFT) = splitOf t
          ∧ combine (split (UInt64.ofNat t <<< INTERNAL_SHIFT)) = UInt64.ofNat t <<< INTERNAL_SHIFT
        ↔
      ¬IsMisjudged t := by
  constructor
  . rintro ⟨hsplit, -⟩ h
    exact split_ne_of_misjudged ht h hsplit
  . intro h
    have hsplit := split_eq_of_not_misjudged ht h
    refine ⟨hsplit, ?_⟩
    rw [hsplit]
    exact combine_splitOf t ht

-- The last second of 29 February 2000
theorem split_combine_spec_leap_day
    : split (UInt64.ofNat 3160857599 <<< INTERNAL_SHIFT)
          = { year := 2000, month := 2, day := 29, hour := 23, min := 59, sec := 59 }
        ∧
      combine { year := 2000, month := 2, day := 29, hour := 23, min := 59, sec := 59 }
        = UInt64.ofNat 3160857599 <<< INTERNAL_SHIFT := by
  have hmax : secondsBefore 10000 = 86400 * (365 * 8100 + leapsBefore 8100) :=
    secondsBefore_1900 8100
  have hmaxLeaps : leapsBefore 8100 = 1964 := rfl
  have hleaps : leapsBefore 100 = 24 := rfl
  have ht : 3160857599 < secondsBefore 10000 := by omega
  have hdate : (Date.mk 1900 1 1).plus (3160857599 / 86400) = ⟨2000, 2, 29⟩ := by
    apply Date.plus_eq first_valid
    . unfold Date.Valid
      decide
    . have hfirst := first_number
      have hmonth : daysBeforeMonth (isLeap 2000) 2 = 31 := rfl
      have hyear : daysBeforeYear 2000 = daysBeforeYear 1900 + 365 * 100 + leapsBefore 100 :=
        daysBeforeYear_1900 100
      rw [hfirst]
      unfold Date.number Date.yearDay
      rw [hmonth, hyear, hleaps, Nat.add_assoc, Nat.add_assoc, Nat.add_left_cancel_iff]
      decide
  have hspec := (split_combine_spec 3160857599 ht).mpr (by
    rw [isMisjudged_iff ht rfl]
    have he : (3160857599 - 20736) / 31556736 = 100 := rfl
    rw [he, hleaps]
    omega)
  have hsplitOf : splitOf 3160857599
      = { year := 2000, month := 2, day := 29, hour := 23, min := 59, sec := 59 } := by
    unfold splitOf
    rw [hdate]
    rfl
  rw [hsplitOf] at hspec
  refine ⟨hspec.1, ?_⟩
  rw [hspec.1] at hspec
  exact hspec.2

/--
The time is 2027-12-31T23:02:24.
-/
theorem split_wrong_year_end
    : ¬(∀ t < secondsBefore 10000,
        split (UInt64.ofNat t <<< INTERNAL_SHIFT) = splitOf t
          ∧ combine (split (UInt64.ofNat t <<< INTERNAL_SHIFT)) = UInt64.ofNat t <<< INTERNAL_SHIFT) := by
  intro h
  have hmax : secondsBefore 10000 = 86400 * (365 * 8100 + leapsBefore 8100) :=
    secondsBefore_1900 8100
  have hmaxLeaps : leapsBefore 8100 = 1964 := rfl
  have hleaps : leapsBefore 128 = 31 := rfl
  have ht : 4039282944 < secondsBefore 10000 := by omega
  apply split_ne_of_misjudged ht _ (h 4039282944 ht).1
  refine ⟨1900 + 128, by decide, by omega, ?_⟩
  rw [secondsBefore_1900, hleaps]
  omega

end Stamp
end Time
end ObTools
