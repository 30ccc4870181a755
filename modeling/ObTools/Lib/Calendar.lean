import Mathlib.Logic.Function.Iterate

/-!
This module contains the proleptic Gregorian calendar. A day is given by its date or by the number of
days from the beginning of the year 0 to it.
-/

namespace Calendar

def isLeap (year : Nat) : Bool := year % 4 = 0 && (year % 100 ≠ 0 || year % 400 = 0)

def daysInYear (year : Nat) : Nat := if isLeap year then 366 else 365

def daysInMonth (leap : Bool) : Nat → Nat
  | 2 => if leap then 29 else 28
  | 4 => 30
  | 6 => 30
  | 9 => 30
  | 11 => 30
  | _ => 31

structure Date where
  year : Nat
  month : Nat
  day : Nat
deriving DecidableEq, Repr

namespace Date

def tomorrow (d : Date) : Date :=
  if d.day < daysInMonth (isLeap d.year) d.month then
    { d with day := d.day + 1 }
  else if d.month < 12 then
    { d with month := d.month + 1, day := 1 }
  else
    { year := d.year + 1, month := 1, day := 1 }

-- The date some days later
def plus (d : Date) (n : Nat) : Date := tomorrow^[n] d

def Valid (d : Date) : Prop :=
  (1 ≤ d.month ∧ d.month ≤ 12) ∧ 1 ≤ d.day ∧ d.day ≤ daysInMonth (isLeap d.year) d.month

instance (d : Date) : Decidable d.Valid := inferInstanceAs (Decidable (_ ∧ _))

end Date

def daysBeforeMonth (leap : Bool) : Nat → Nat
  | 0 => 0
  | 1 => 0
  | month + 2 => daysBeforeMonth leap (month + 1) + daysInMonth leap (month + 1)

def daysBeforeYear : Nat → Nat
  | 0 => 0
  | year + 1 => daysBeforeYear year + daysInYear year

-- The number of the day within its year, from 0
def Date.yearDay (d : Date) : Nat := daysBeforeMonth (isLeap d.year) d.month + d.day - 1

def Date.number (d : Date) : Nat := daysBeforeYear d.year + d.yearDay

theorem isLeap_iff (year : Nat)
    : isLeap year = true ↔ year % 4 = 0 ∧ (year % 100 ≠ 0 ∨ year % 400 = 0) := by
  simp [isLeap]

-- The number of multiples of `k` before a year
theorem multiples_succ (year : Nat) {k : Nat} (hk : 0 < k)
    : (year + 1 + (k - 1)) / k = (year + (k - 1)) / k + if year % k = 0 then 1 else 0 := by
  have hdvd : k ∣ year + (k - 1) + 1 ↔ year % k = 0 := by
    rw [Nat.add_assoc, Nat.sub_add_cancel hk, Nat.dvd_add_left (Nat.dvd_refl k), Nat.dvd_iff_mod_eq_zero]
  rw [Nat.add_right_comm, Nat.succ_div]
  simp only [hdvd]

theorem daysBeforeYear_eq (year : Nat)
    : daysBeforeYear year + (year + 99) / 100 = 365 * year + (year + 3) / 4 + (year + 399) / 400 := by
  induction year with
  | zero => rfl
  | succ year ih =>
    have h4 := multiples_succ year (k := 4) (by decide)
    have h100 := multiples_succ year (k := 100) (by decide)
    have h400 := multiples_succ year (k := 400) (by decide)
    have hleap : daysInYear year + (if year % 100 = 0 then 1 else 0)
        = 365 + (if year % 4 = 0 then 1 else 0) + if year % 400 = 0 then 1 else 0 := by
      unfold daysInYear
      split
      . next h =>
        rw [isLeap_iff] at h
        omega
      . next h =>
        rw [isLeap_iff] at h
        omega
    rw [daysBeforeYear]
    omega

theorem daysInMonth_bounds (leap : Bool) (month : Nat) : 28 ≤ daysInMonth leap month ∧ daysInMonth leap month ≤ 31 := by
  unfold daysInMonth
  split
  . split
    . omega
    . omega
  . omega
  . omega
  . omega
  . omega
  . omega

theorem daysBeforeMonth_bounds (leap : Bool) {month : Nat} (h1 : 1 ≤ month) (h2 : month ≤ 12)
    : daysBeforeMonth leap month + daysInMonth leap month
          = daysBeforeMonth leap (month + 1)
        ∧
      daysBeforeMonth leap (month + 1) ≤ daysBeforeMonth leap 13 := by
  obtain ⟨k, rfl⟩ := Nat.exists_eq_add_of_le' h1
  refine ⟨rfl, ?_⟩
  have : ∀ (leap : Bool) (k : Fin 12), daysBeforeMonth leap (k + 2) ≤ daysBeforeMonth leap 13 := by
    decide
  exact this leap ⟨k, by omega⟩

theorem daysBeforeMonth_thirteen (leap : Bool)
    : daysBeforeMonth leap 13 = if leap then 366 else 365 := by
  revert leap
  decide

namespace Date

variable {d d' : Date}

theorem Valid.yearDay_lt (h : d.Valid) : d.yearDay < daysInYear d.year := by
  obtain ⟨⟨h1, h2⟩, h3, h4⟩ := h
  have hbounds := daysBeforeMonth_bounds (isLeap d.year) h1 h2
  rw [daysBeforeMonth_thirteen] at hbounds
  unfold yearDay daysInYear
  omega

theorem tomorrow_spec (h : d.Valid)
    : d.tomorrow.Valid ∧ d.tomorrow.number = d.number + 1 ∧ d.year ≤ d.tomorrow.year := by
  obtain ⟨⟨h1, h2⟩, h3, h4⟩ := h
  have hbounds := daysBeforeMonth_bounds (isLeap d.year) h1 h2
  unfold tomorrow
  split
  . next hday =>
    refine ⟨⟨⟨h1, h2⟩, by dsimp only; omega, hday⟩, ?_, Nat.le_refl _⟩
    simp only [number, yearDay]
    omega
  . next hday =>
    split
    . next hmonth =>
      have hpos : ∀ (leap : Bool) (month : Fin 13), 1 ≤ daysInMonth leap month := by decide
      refine ⟨⟨⟨by dsimp only; omega, by dsimp only; omega⟩, Nat.le_refl _,
        hpos _ ⟨d.month + 1, by omega⟩⟩, ?_, Nat.le_refl _⟩
      simp only [number, yearDay]
      omega
    . next hmonth =>
      have hlast : d.month = 12 := by omega
      have hjanuary : ∀ leap : Bool, 1 ≤ daysInMonth leap 1 ∧ daysBeforeMonth leap 1 = 0 := by
        decide
      have hdecember : ∀ leap : Bool, daysBeforeMonth leap 12 + daysInMonth leap 12
          = if leap then 366 else 365 := by
        decide
      have hdecember := hdecember (isLeap d.year)
      rw [hlast] at h4 hday
      refine ⟨⟨⟨Nat.le_refl _, by simp⟩, Nat.le_refl _, (hjanuary _).1⟩, ?_, Nat.le_succ _⟩
      simp only [number, yearDay, daysBeforeYear, daysInYear, (hjanuary _).2, hlast]
      omega

theorem plus_spec (h : d.Valid) (n : Nat)
    : (d.plus n).Valid ∧ (d.plus n).number = d.number + n ∧ d.year ≤ (d.plus n).year := by
  induction n with
  | zero => exact ⟨h, rfl, Nat.le_refl _⟩
  | succ n ih =>
    have hnext := tomorrow_spec ih.1
    have hplus : d.plus (n + 1) = (d.plus n).tomorrow := Function.iterate_succ_apply' ..
    rw [hplus]
    refine ⟨hnext.1, ?_, Nat.le_trans ih.2.2 hnext.2.2⟩
    rw [hnext.2.1, ih.2.1]
    omega

theorem daysBeforeYear_mono {y y' : Nat} (h : y < y')
    : daysBeforeYear y + daysInYear y ≤ daysBeforeYear y' := by
  induction y' with
  | zero => omega
  | succ y' ih =>
    rw [daysBeforeYear]
    by_cases heq : y = y'
    . subst heq
      omega
    . have := ih (by omega)
      omega

theorem daysBeforeMonth_mono (leap : Bool) {m m' : Nat} (h1 : 1 ≤ m) (h : m < m')
    : daysBeforeMonth leap m + daysInMonth leap m ≤ daysBeforeMonth leap m' := by
  induction m' with
  | zero => omega
  | succ m' ih =>
    obtain ⟨k, rfl⟩ := Nat.exists_eq_add_of_le' (show 1 ≤ m' by omega)
    rw [daysBeforeMonth]
    by_cases heq : m = k + 1
    . subst heq
      omega
    . have := ih (by omega)
      omega

/--
There is only one date for a number.
-/
theorem eq_of_number_eq (h : d.Valid) (h' : d'.Valid) (hnumber : d.number = d'.number)
    : d = d' := by
  have hlt := h.yearDay_lt
  have hlt' := h'.yearDay_lt
  unfold number at hnumber
  have hyear : d.year = d'.year := by
    apply Nat.le_antisymm
    . apply Nat.le_of_not_lt
      intro hgt
      have := daysBeforeYear_mono hgt
      omega
    . apply Nat.le_of_not_lt
      intro hgt
      have := daysBeforeYear_mono hgt
      omega
  obtain ⟨⟨h1, h2⟩, h3, h4⟩ := h
  obtain ⟨⟨h1', h2'⟩, h3', h4'⟩ := h'
  rw [hyear] at hnumber h4
  unfold yearDay at hnumber
  rw [hyear] at hnumber
  have hmonth : d.month = d'.month := by
    apply Nat.le_antisymm
    . apply Nat.le_of_not_lt
      intro hgt
      have := daysBeforeMonth_mono (isLeap d'.year) h1' hgt
      omega
    . apply Nat.le_of_not_lt
      intro hgt
      have := daysBeforeMonth_mono (isLeap d'.year) h1 hgt
      omega
  rw [hmonth] at hnumber
  have hday : d.day = d'.day := by omega
  cases d
  cases d'
  simp_all

theorem plus_eq (h : d.Valid) (h' : d'.Valid) {n : Nat} (hnumber : d'.number = d.number + n)
    : d.plus n = d' := by
  have hplus := plus_spec h n
  apply eq_of_number_eq hplus.1 h'
  rw [hplus.2.1, hnumber]

end Date

end Calendar
