import Mathlib.Tactic.FieldSimp
import Mathlib.Tactic.Linarith
import Mathlib.Tactic.Ring
import ObTools.Time.Stamp
import ObTools.Time.StampLemmas

/-!
This module contains the proof that `Time::Stamp::combine` counts the days of the calendar. It then contains the
instants that split times are for, and what the day fix of `Time::Split::normalise` makes of them.
-/

namespace ObTools
namespace Time

open Calendar (isLeap daysInYear daysInMonth daysBeforeYear daysBeforeMonth Date)

/-
A whole second of the years that a timestamp is for.
-/
structure Moment where
  date : Date
  hour : Nat
  min : Nat
  sec : Nat
  valid : date.Valid
  first : 1900 ≤ date.year
  last : date.year ≤ 9999
  hour_lt : hour < 24
  min_lt : min < 60
  sec_lt : sec < 60

namespace Moment

def split (m : Moment) : Split :=
  { year := m.date.year
    month := m.date.month
    day := m.date.day
    hour := m.hour
    min := m.min
    sec := m.sec }

-- The days before that from 1900-01-01, and the seconds of the day
def seconds (m : Moment) : Nat :=
  86400 * (m.date.number - (Date.mk 1900 1 1).number) + 3600 * m.hour + 60 * m.min + m.sec

def fields (m : Moment) : List Nat := [m.date.year, m.date.month, m.date.day, m.hour, m.min, m.sec]

variable (m : Moment)

theorem first_le_number : (Date.mk 1900 1 1).number ≤ m.date.number := by
  rw [Stamp.first_number, Date.number]
  by_cases heq : 1900 = m.date.year
  . rw [← heq]
    omega
  . have := Date.daysBeforeYear_mono (Nat.lt_of_le_of_ne m.first heq)
    omega

theorem number_lt : m.date.number < daysBeforeYear 10000 := by
  have hday := m.valid.yearDay_lt
  have hyear := Date.daysBeforeYear_mono (Nat.lt_of_le_of_lt m.last (by decide : 9999 < 10000))
  unfold Date.number
  omega

theorem seconds_lt : m.seconds < Stamp.secondsBefore 10000 := by
  have hnumber := m.number_lt
  have hfirst := m.first_le_number
  have hhour := m.hour_lt
  have hmin := m.min_lt
  have hsec := m.sec_lt
  rw [Stamp.first_number] at hfirst
  unfold seconds Stamp.secondsBefore
  rw [Stamp.first_number]
  omega

theorem seconds_div : m.seconds / 86400 = m.date.number - (Date.mk 1900 1 1).number := by
  have hhour := m.hour_lt
  have hmin := m.min_lt
  have hsec := m.sec_lt
  unfold seconds
  omega

theorem plus_seconds : (Date.mk 1900 1 1).plus (m.seconds / 86400) = m.date := by
  apply Date.plus_eq Stamp.first_valid m.valid
  have := m.first_le_number
  rw [m.seconds_div]
  omega

theorem splitOf_seconds : Stamp.splitOf m.seconds = m.split := by
  have hhour := m.hour_lt
  have hmin := m.min_lt
  have hsec := m.sec_lt
  have h1 : m.seconds % 86400 / 3600 = m.hour := by
    unfold seconds
    omega
  have h2 : m.seconds % 3600 / 60 = m.min := by
    unfold seconds
    omega
  have h3 : m.seconds % 60 = m.sec := by
    unfold seconds
    omega
  unfold Stamp.splitOf split
  rw [m.plus_seconds, h1, h2, h3]

theorem combine_split : Stamp.combine m.split = UInt64.ofNat m.seconds <<< INTERNAL_SHIFT := by
  rw [← m.splitOf_seconds]
  exact Stamp.combine_splitOf m.seconds m.seconds_lt

theorem toNat_combine : (Stamp.combine m.split).toNat = m.seconds * 2 ^ 20 := by
  rw [m.combine_split]
  exact Stamp.toNat_shifted (Stamp.lt_of_lt_secondsBefore m.seconds_lt)

/--
Each of the fields counts for more than all of those behind it together.
-/
theorem seconds_lt_seconds {m n : Moment} (h : m.fields < n.fields) : m.seconds < n.seconds := by
  have hfirst := m.first_le_number
  have hfirst' := n.first_le_number
  have hhour := m.hour_lt
  have hmin := m.min_lt
  have hsec := m.sec_lt
  have hdays : m.date.number < n.date.number
      ∨ m.date = n.date ∧ (m.hour < n.hour ∨ m.hour = n.hour ∧ (m.min < n.min ∨ m.min = n.min ∧ m.sec < n.sec)) := by
    unfold fields at h
    simp only [List.cons_lt_cons_iff, List.not_lt_nil, and_false, or_false] at h
    rcases h with hyear | ⟨hyear, hmonth | ⟨hmonth, hday | ⟨hday, hrest⟩⟩⟩
    . have hbefore := Date.daysBeforeYear_mono hyear
      have hlast := m.valid.yearDay_lt
      left
      unfold Date.number
      omega
    . have hbefore := Date.daysBeforeMonth_mono (isLeap m.date.year) m.valid.1.1 hmonth
      have hlast := m.valid.2
      have hstart := n.valid.2.1
      left
      unfold Date.number Date.yearDay
      rw [← hyear]
      omega
    . have hstart := m.valid.2.1
      left
      unfold Date.number Date.yearDay
      rw [← hyear, ← hmonth]
      omega
    . right
      refine ⟨?_, hrest⟩
      calc
        m.date = Date.mk m.date.year m.date.month m.date.day := rfl
        _ = Date.mk n.date.year n.date.month n.date.day := by rw [hyear, hmonth, hday]
  unfold seconds
  rcases hdays with hnumber | ⟨hdate, hrest⟩
  . omega
  . rw [hdate]
    omega

end Moment

/--
The whole seconds of a stamp are those from 1900-01-01, and it increases with the date and time.
-/
theorem Stamp.combine_spec
    : (∀ m : Moment, (combine m.split >>> INTERNAL_SHIFT).toNat = m.seconds)
        ∧
      ∀ m n : Moment, m.fields < n.fields → combine m.split < combine n.split := by
  constructor
  . intro m
    have hshift : INTERNAL_SHIFT.toNat % 64 = 20 := rfl
    rw [UInt64.toNat_shiftRight, m.toNat_combine, hshift, Nat.shiftRight_eq_div_pow]
    exact Nat.mul_div_cancel _ (Nat.two_pow_pos 20)
  . intro m n h
    rw [UInt64.lt_iff_toNat_lt, m.toNat_combine, n.toNat_combine]
    exact Nat.mul_lt_mul_of_pos_right (Moment.seconds_lt_seconds h) (Nat.two_pow_pos 20)

end Time
end ObTools

namespace ObTools
namespace Time

open Calendar (isLeap daysInYear daysInMonth daysBeforeYear daysBeforeMonth Date)

namespace Split

-- The first day of the month that is meant if the months are carried
def firstOfMonth (sp : Split) : Date :=
  { year := (sp.year + (sp.month - 1) / 12).toNat
    month := (1 + (sp.month - 1) % 12).toNat
    day := 1 }

-- The minutes since 1900-01-01
def minutesBefore (sp : Split) : Int :=
  1440 * (sp.firstOfMonth.number - (Date.mk 1900 1 1).number + (sp.day - 1)) + 60 * sp.hour + sp.min

-- The seconds since 1900-01-01
def instant (sp : Split) : ℚ := 60 * sp.minutesBefore + sp.sec

/-
The fields are in their ranges, except for the day.
-/
structure Carried (sp : Split) : Prop where
  year : 1900 ≤ sp.year ∧ sp.year ≤ 9999
  month : 1 ≤ sp.month ∧ sp.month ≤ 12
  hour : 0 ≤ sp.hour ∧ sp.hour ≤ 23
  min : 0 ≤ sp.min ∧ sp.min ≤ 59
  sec : 0 ≤ sp.sec ∧ sp.sec < 60

structure Normal (sp : Split) : Prop extends Carried sp where
  day : 1 ≤ sp.day ∧ sp.day ≤ daysInMonth (isLeap sp.year.toNat) sp.month.toNat

end Split

section Fraction

variable {t f : Nat}

theorem Stamp.shiftRight_ofNat (ht : t < 2 ^ 44) (hf : f < 2 ^ 20)
    : UInt64.ofNat (t * 2 ^ 20 + f) >>> INTERNAL_SHIFT = UInt64.ofNat t := by
  have hshift : INTERNAL_SHIFT.toNat % 64 = 20 := rfl
  rw [← UInt64.toNat_inj, UInt64.toNat_shiftRight, hshift, toNat_ofNat_of_lt (by omega), toNat_ofNat_of_lt (by omega),
    Nat.shiftRight_eq_div_pow]
  omega

theorem Stamp.fraction_ofNat (ht : t < 2 ^ 44) (hf : f < 2 ^ 20)
    : (UInt64.ofNat (t * 2 ^ 20 + f) &&& (INTERNAL_MULTIPLIER - 1)).toNat = f := by
  have hmask : (INTERNAL_MULTIPLIER - 1).toNat = 2 ^ 20 - 1 := rfl
  rw [UInt64.toNat_and, hmask, toNat_ofNat_of_lt (by omega), Nat.and_two_pow_sub_one_eq_mod]
  omega

theorem Stamp.splitSeconds_fraction (seconds : UInt64) (early : Bool) (fraction : UInt64)
    : splitSeconds seconds early fraction
        =
      { splitSeconds seconds early 0 with
        sec := (splitSeconds seconds early 0).sec + fraction.toNat / 2 ^ 20 } := by
  have hmultiplier : (INTERNAL_MULTIPLIER.toNat : ℚ) = 2 ^ 20 := by
    have : INTERNAL_MULTIPLIER.toNat = 2 ^ 20 := rfl
    rw [this]
    norm_num
  unfold splitSeconds
  simp only [Split.mk.injEq, true_and]
  rw [hmultiplier, UInt64.toNat_zero, Nat.cast_zero, zero_div, add_zero]

-- The fraction only comes to the seconds.
theorem Stamp.split_fraction (ht : t < 2 ^ 44) (hf : f < 2 ^ 20)
    : split (UInt64.ofNat (t * 2 ^ 20 + f))
        =
      { split (UInt64.ofNat t <<< INTERNAL_SHIFT) with
        sec := (split (UInt64.ofNat t <<< INTERNAL_SHIFT)).sec + f / 2 ^ 20 } := by
  have hwhole : UInt64.ofNat t <<< INTERNAL_SHIFT = UInt64.ofNat (t * 2 ^ 20 + 0) := by
    rw [← UInt64.toNat_inj, toNat_shifted ht, toNat_ofNat_of_lt (by omega), Nat.add_zero]
  have hzero : UInt64.ofNat (t * 2 ^ 20 + 0) &&& (INTERNAL_MULTIPLIER - 1) = 0 := by
    rw [← UInt64.toNat_inj, Stamp.fraction_ofNat ht (by decide)]
    rfl
  rw [hwhole]
  unfold split
  rw [Stamp.shiftRight_ofNat ht hf, Stamp.shiftRight_ofNat ht (by decide), hzero]
  dsimp only
  rw [Stamp.splitSeconds_fraction, Stamp.fraction_ofNat ht hf]

end Fraction

-- Months need not be carried that are ones of the year.
theorem Split.firstOfMonth_eq {sp : Split} (h1 : 1 ≤ sp.month) (h2 : sp.month ≤ 12)
    : sp.firstOfMonth = { year := sp.year.toNat, month := sp.month.toNat, day := 1 } := by
  have hdiv : (sp.month - 1) / 12 = 0 := by omega
  have hmod : 1 + (sp.month - 1) % 12 = sp.month := by omega
  unfold Split.firstOfMonth
  rw [hdiv, hmod, Int.add_zero]

-- The date of a normal time
def Split.date (sp : Split) : Date := { year := sp.year.toNat, month := sp.month.toNat, day := sp.day.toNat }

theorem Split.Normal.valid {sp : Split} (h : sp.Normal) : sp.date.Valid := by
  have hmonth := h.month
  have hday := h.day
  unfold Split.date Date.Valid
  dsimp only
  omega

theorem Split.Normal.minutesBefore_eq {sp : Split} (h : sp.Normal)
    : sp.minutesBefore = 1440 * (sp.date.number - (Date.mk 1900 1 1).number) + 60 * sp.hour + sp.min := by
  have hday := h.day
  unfold Split.minutesBefore
  rw [Split.firstOfMonth_eq h.month.1 h.month.2]
  have hfirst : sp.date.number + 1 = (Date.mk sp.year.toNat sp.month.toNat 1).number + sp.day.toNat := by
    unfold Split.date Date.number Date.yearDay
    dsimp only
    omega
  omega

theorem Split.Carried.sec_eq {sp sp' : Split} (h : sp.Carried) (h' : sp'.Carried) (heq : sp.instant = sp'.instant)
    : sp.minutesBefore = sp'.minutesBefore ∧ sp.sec = sp'.sec := by
  have hsec := h.sec
  have hsec' := h'.sec
  unfold Split.instant at heq
  have hminutes : sp.minutesBefore = sp'.minutesBefore := by
    have h1 : (sp.minutesBefore : ℚ) < sp'.minutesBefore + 1 := by linarith
    have h2 : (sp'.minutesBefore : ℚ) < sp.minutesBefore + 1 := by linarith
    have h1 : sp.minutesBefore < sp'.minutesBefore + 1 := by exact_mod_cast h1
    have h2 : sp'.minutesBefore < sp.minutesBefore + 1 := by exact_mod_cast h2
    omega
  refine ⟨hminutes, ?_⟩
  rw [hminutes] at heq
  linarith

/-
There is one way to write an instant.
-/
theorem Split.Normal.eq_of_instant_eq {sp sp' : Split} (h : sp.Normal) (h' : sp'.Normal)
    (heq : sp.instant = sp'.instant)
    : sp = sp' := by
  obtain ⟨hminutes, hsec⟩ := h.toCarried.sec_eq h'.toCarried heq
  rw [h.minutesBefore_eq, h'.minutesBefore_eq] at hminutes
  have hhour := h.hour
  have hhour' := h'.hour
  have hmin := h.min
  have hmin' := h'.min
  have hdate : sp.date = sp'.date := Date.eq_of_number_eq h.valid h'.valid (by omega)
  have hyear := h.year
  have hyear' := h'.year
  have hmonth := h.month
  have hmonth' := h'.month
  have hday := h.day
  have hday' := h'.day
  rw [hdate] at hminutes
  unfold Split.date at hdate
  simp only [Date.mk.injEq] at hdate
  calc
    sp = Split.mk sp.year sp.month sp.day sp.hour sp.min sp.sec := rfl
    _ = Split.mk sp'.year sp'.month sp'.day sp'.hour sp'.min sp'.sec := by
      simp only [Split.mk.injEq]
      refine ⟨by omega, by omega, by omega, by omega, by omega, hsec⟩

theorem Split.normal_splitOf {t : Nat} {x : ℚ} (ht : t < Stamp.secondsBefore 10000) (h1 : 0 ≤ x) (h2 : x < 60)
    : ({ Stamp.splitOf t with sec := x } : Split).Normal
        ∧ ({ Stamp.splitOf t with sec := x } : Split).minutesBefore = (t / 60 : Nat) := by
  obtain ⟨y, date, hdate, hvalid, hyear, hy, -⟩ := Stamp.date_spec t ht
  obtain ⟨-, hnumber, -⟩ := Date.plus_spec Stamp.first_valid (t / 86400)
  obtain ⟨⟨hm1, hm2⟩, hd1, hd2⟩ := hvalid
  rw [hdate] at hnumber
  unfold Stamp.splitOf
  rw [hdate]
  have hnormal : (Split.mk date.year date.month date.day (t % 86400 / 3600 : Nat) (t % 3600 / 60 : Nat) x).Normal := by
    constructor
    . constructor
      . dsimp only
        omega
      . dsimp only
        omega
      . dsimp only
        omega
      . dsimp only
        omega
      . exact ⟨h1, h2⟩
    . dsimp only
      rw [Int.toNat_natCast, Int.toNat_natCast]
      exact ⟨by exact_mod_cast hd1, by exact_mod_cast hd2⟩
  refine ⟨hnormal, ?_⟩
  dsimp only
  rw [hnormal.minutesBefore_eq]
  have hsame : (Split.mk date.year date.month date.day (t % 86400 / 3600 : Nat) (t % 3600 / 60 : Nat) x).date = date := rfl
  rw [hsame]
  dsimp only
  omega

/--
A stamp is split to the parts of its time or, if misjudged, of the time a day before.
-/
theorem Stamp.split_spec {t f : Nat} (ht : t < secondsBefore 10000) (hf : f < 2 ^ 20)
    : ∃ u, (u = t ∧ ¬IsMisjudged t ∨ u + 86400 = t ∧ IsMisjudged t)
        ∧ (split (UInt64.ofNat (t * 2 ^ 20 + f))).Normal
        ∧ (split (UInt64.ofNat (t * 2 ^ 20 + f))).instant = u + f / 2 ^ 20 := by
  have hjudged : ∃ u < secondsBefore 10000, (u = t ∧ ¬IsMisjudged t ∨ u + 86400 = t ∧ IsMisjudged t)
      ∧ split (UInt64.ofNat t <<< INTERNAL_SHIFT) = splitOf u := by
    by_cases h : IsMisjudged t
    . obtain ⟨hle, hsplit⟩ := split_eq_of_misjudged ht h
      exact ⟨t - 86400, by omega, Or.inr ⟨by omega, h⟩, hsplit⟩
    . exact ⟨t, ht, Or.inl ⟨rfl, h⟩, split_eq_of_not_misjudged ht h⟩
  obtain ⟨u, hu, hcases, hsplit⟩ := hjudged
  have hfraction : (0 : ℚ) ≤ f / 2 ^ 20 ∧ (f : ℚ) / 2 ^ 20 < 1 := by
    have : (f : ℚ) < 2 ^ 20 := by exact_mod_cast hf
    constructor
    . exact div_nonneg (Nat.cast_nonneg f) (by norm_num)
    . rw [div_lt_one (by norm_num)]
      exact this
  have hsec : ((u % 60 : Nat) : ℚ) + 1 ≤ 60 := by
    exact_mod_cast Nat.mod_lt u (by decide : 0 < 60)
  have hpos : (0 : ℚ) ≤ ((u % 60 : Nat) : ℚ) := Nat.cast_nonneg _
  have hsplitSec : (splitOf u).sec = ((u % 60 : Nat) : ℚ) := rfl
  rw [split_fraction (lt_of_lt_secondsBefore ht) hf, hsplit, hsplitSec]
  obtain ⟨hnormal, hminutes⟩ := Split.normal_splitOf hu (x := (u % 60 : Nat) + f / 2 ^ 20) (by linarith) (by linarith)
  refine ⟨u, hcases, hnormal, ?_⟩
  unfold Split.instant
  rw [hminutes]
  have hdiv : 60 * ((u / 60 : Nat) : ℚ) + ((u % 60 : Nat) : ℚ) = u := by
    exact_mod_cast Nat.div_add_mod u 60
  rw [Int.cast_natCast]
  dsimp only
  linarith

theorem Stamp.shift_cast : (((1 <<< INTERNAL_SHIFT : UInt64).toNat : Nat) : ℚ) = 2 ^ 20 := by
  have : (1 <<< INTERNAL_SHIFT : UInt64).toNat = 2 ^ 20 := rfl
  rw [this]
  norm_num

theorem Stamp.splitSeconds_sec (seconds : UInt64) (early : Bool) (fraction : UInt64)
    : ∃ a b : Nat, (splitSeconds seconds early fraction).sec = a + b / 2 ^ 20 := by
  rw [splitSeconds_fraction]
  unfold splitSeconds
  dsimp only
  rw [UInt64.toNat_zero, Nat.cast_zero, zero_div, add_zero]
  exact ⟨_, _, rfl⟩

-- The times of stamps are in ticks.
theorem Stamp.exists_ticks (ts : UInt64) : ∃ n : Int, (split ts).instant * 2 ^ 20 = n := by
  have hsec : ∃ a b : Nat, (split ts).sec = a + b / 2 ^ 20 := splitSeconds_sec _ _ _
  obtain ⟨a, b, hsec⟩ := hsec
  refine ⟨60 * (split ts).minutesBefore * 2 ^ 20 + a * 2 ^ 20 + b, ?_⟩
  unfold Split.instant
  rw [hsec]
  push_cast
  ring

theorem Stamp.combine_eq_add_sec {sp : Split} (h1 : 1 ≤ sp.month) (h2 : sp.month ≤ 12)
    : combine sp = combine { sp with sec := 0 } + UInt64.ofInt (truncate (sp.sec * 2 ^ 20)) := by
  have hmonth : ¬(sp.month < 1 ∨ 12 < sp.month) := by omega
  have hzero : UInt64.ofInt (truncate (0 * 2 ^ 20)) = 0 := by
    rw [zero_mul]
    rfl
  unfold combine
  dsimp only
  rw [if_neg hmonth, if_neg hmonth, shift_cast, hzero, UInt64.add_zero]

theorem Stamp.secondsBefore_lt : secondsBefore 10000 < 2 ^ 38 := by
  have hmax : secondsBefore 10000 = 86400 * (365 * 8100 + leapsBefore 8100) := secondsBefore_1900 8100
  have hleaps : leapsBefore 8100 = 1964 := rfl
  rw [hmax, hleaps]
  decide

section First

variable {sp : Split}

-- The whole minute, on the first of the month
def Split.Carried.moment (h : sp.Carried) : Moment :=
  { date := { year := sp.year.toNat, month := sp.month.toNat, day := 1 }
    hour := sp.hour.toNat
    min := sp.min.toNat
    sec := 0
    valid := by
      have hmonth := h.month
      refine ⟨⟨by dsimp only; omega, by dsimp only; omega⟩, Nat.le_refl 1, ?_⟩
      exact Nat.le_trans (show 1 ≤ 28 by decide) (Calendar.daysInMonth_bounds _ _).1
    first := by
      have hyear := h.year
      dsimp only
      omega
    last := by
      have hyear := h.year
      dsimp only
      omega
    hour_lt := by
      have hhour := h.hour
      omega
    min_lt := by
      have hmin := h.min
      omega
    sec_lt := by
      have hmin := h.min
      exact Nat.lt_of_le_of_lt (Nat.zero_le sp.min.toNat) (by omega) }

theorem Split.Carried.moment_split (h : sp.Carried) (hday : sp.day = 1) : h.moment.split = { sp with sec := 0 } := by
  have hyear := h.year
  have hmonth := h.month
  have hhour := h.hour
  have hmin := h.min
  unfold Moment.split Split.Carried.moment
  simp only [Split.mk.injEq]
  refine ⟨?_, ?_, ?_, ?_, ?_, Nat.cast_zero⟩
  . omega
  . omega
  . omega
  . omega
  . omega

theorem Split.Carried.moment_seconds (h : sp.Carried) (hday : sp.day = 1)
    : (h.moment.seconds : Int) = 60 * sp.minutesBefore := by
  have hhour := h.hour
  have hmin := h.min
  have hfirst := h.moment.first_le_number
  have hseconds : h.moment.seconds = 86400 * (h.moment.date.number - (Date.mk 1900 1 1).number)
      + 3600 * sp.hour.toNat + 60 * sp.min.toNat + 0 := rfl
  have hdate : sp.firstOfMonth = h.moment.date := Split.firstOfMonth_eq h.month.1 h.month.2
  unfold Split.minutesBefore
  rw [hseconds, hday, hdate]
  omega

-- The ticks of the first of a month, with the time of day
theorem Stamp.toNat_ofSplit (h : sp.Carried) (hday : sp.day = 1)
    : ∃ m : Nat, (m : Int) = 60 * sp.minutesBefore ∧ m < secondsBefore 10000
        ∧ ∃ ts : UInt64, ofSplit sp = some ts ∧ (ts.toNat : Int) = m * 2 ^ 20 + ⌊sp.sec * 2 ^ 20⌋ := by
  have hlt := h.moment.seconds_lt
  refine ⟨h.moment.seconds, h.moment_seconds hday, hlt, combine sp, ?_⟩
  have hsec : 0 ≤ sp.sec * 2 ^ 20 := mul_nonneg h.sec.1 (by norm_num)
  have htruncate : truncate (sp.sec * 2 ^ 20) = ⌊sp.sec * 2 ^ 20⌋ := if_pos hsec
  have hlo : 0 ≤ ⌊sp.sec * 2 ^ 20⌋ := Int.floor_nonneg.mpr hsec
  have hhi : ⌊sp.sec * 2 ^ 20⌋ < 60 * 2 ^ 20 := by
    rw [Int.floor_lt]
    push_cast
    linarith [h.sec.2]
  have hlt38 := secondsBefore_lt
  constructor
  . unfold ofSplit
    rw [shift_cast, if_neg (by omega)]
  . rw [combine_eq_add_sec h.month.1 h.month.2, ← h.moment_split hday, htruncate]
    obtain ⟨n, hn⟩ := Int.eq_ofNat_of_zero_le hlo
    rw [hn] at hhi ⊢
    have htoNat := toNat_ofInt_natCast (show n < 2 ^ 64 by omega)
    rw [UInt64.toNat_add, h.moment.toNat_combine, htoNat, Nat.mod_eq_of_lt (by omega)]
    push_cast
    rfl

end First

theorem toNat_mul_day (n : Nat) : (UInt32.ofInt n * DAY).toNat = n * 86400 % 2 ^ 32 := by
  have hday : DAY.toNat = 86400 := rfl
  unfold UInt32.ofInt
  rw [UInt32.toNat_mul, hday, UInt32.toNat_ofNat']
  omega

theorem Stamp.ofInt_secondsToInternal {n : Nat} (hn : n < 2 ^ 32)
    : UInt64.ofInt (secondsToInternal n) = UInt64.ofNat (n * 2 ^ 20) := by
  unfold secondsToInternal
  rw [truncate_mul]
  exact ofInt_natCast (show n * 2 ^ 20 < 2 ^ 64 by omega)

namespace Split

variable {sp : Split}

theorem Carried.first (h : sp.Carried) : ({ sp with day := 1 } : Split).Carried :=
  { year := h.year
    month := h.month
    hour := h.hour
    min := h.min
    sec := h.sec }

theorem minutesBefore_first (sp : Split)
    : ({ sp with day := 1 } : Split).minutesBefore = sp.minutesBefore - 1440 * (sp.day - 1) := by
  unfold minutesBefore firstOfMonth
  dsimp only
  omega

theorem floor_instant (sp : Split) : ⌊sp.instant * 2 ^ 20⌋ = 60 * sp.minutesBefore * 2 ^ 20 + ⌊sp.sec * 2 ^ 20⌋ := by
  have hinstant : sp.instant * 2 ^ 20 = ((60 * sp.minutesBefore * 2 ^ 20 : Int) : ℚ) + sp.sec * 2 ^ 20 := by
    unfold instant
    push_cast
    ring
  rw [hinstant, Int.floor_intCast_add]

/--
The day fix goes to the right number of days, except that the seconds of them are counted with 32 bits.
-/
theorem fixDay_split (h : sp.Carried) (hday : ¬(1 ≤ sp.day ∧ sp.day ≤ 28))
    (hmin : 0 ≤ sp.instant ∨ 2 ^ 32 ≤ 60 * ({ sp with day := 1 } : Split).minutesBefore)
    (hmax : sp.instant < Stamp.secondsBefore 10000)
    : ∃ (v : Nat) (k : Int), v < Stamp.secondsBefore 10000 * 2 ^ 20 ∧ v = ⌊sp.instant * 2 ^ 20⌋ + k * 2 ^ 52
        ∧ (k = 0 ↔ 86400 * |sp.day - 1| < 2 ^ 32) ∧ sp.fixDay = some (Stamp.split (UInt64.ofNat v)) := by
  obtain ⟨m, hm, hmlt, ts, hts, hticks⟩ := Stamp.toNat_ofSplit h.first rfl
  have hfloor := floor_instant sp
  have hpos : 0 ≤ ⌊sp.instant * 2 ^ 20⌋ ∨ (2 ^ 32 : Int) ≤ m := by
    rcases hmin with hmin | hmin
    . exact Or.inl (Int.floor_nonneg.mpr (mul_nonneg hmin (by norm_num)))
    . exact Or.inr (hm ▸ hmin)
  have hnonneg : 0 ≤ ⌊sp.sec * 2 ^ 20⌋ := Int.floor_nonneg.mpr (mul_nonneg h.sec.1 (by norm_num))
  have hlt : ⌊sp.instant * 2 ^ 20⌋ < Stamp.secondsBefore 10000 * 2 ^ 20 := by
    rw [Int.floor_lt]
    push_cast
    linarith
  have hbound := Stamp.secondsBefore_lt
  have hminutes : Stamp.secondsBefore 10000 % 60 = 0 := by
    unfold Stamp.secondsBefore
    omega
  have hfraction : ⌊sp.sec * 2 ^ 20⌋ < 60 * 2 ^ 20 := by
    rw [Int.floor_lt]
    push_cast
    linarith [h.sec.2]
  rw [minutesBefore_first] at hm
  dsimp only at hticks
  generalize ⌊sp.instant * 2 ^ 20⌋ = ticks at *
  generalize ⌊sp.sec * 2 ^ 20⌋ = fraction at *
  generalize Stamp.secondsBefore 10000 = last at *
  unfold fixDay
  by_cases hneg : sp.day < 1
  . obtain ⟨n, hn⟩ := Int.eq_ofNat_of_zero_le (show 0 ≤ 1 - sp.day by omega)
    have habs : |sp.day - 1| = n := by
      rw [abs_of_nonpos (by omega)]
      omega
    have hw : n * 86400 % 2 ^ 32 < 2 ^ 32 := Nat.mod_lt _ (by decide)
    have hdiv := Nat.mod_add_div (n * 86400) (2 ^ 32)
    refine ⟨ts.toNat - n * 86400 % 2 ^ 32 * 2 ^ 20, (n * 86400 / 2 ^ 32 : Nat), ?_, ?_, ?_, ?_⟩
    . omega
    . omega
    . rw [habs]
      omega
    . rw [if_pos hneg, hn]
      dsimp only
      rw [toNat_mul_day, hts]
      show some (Stamp.split (ts - UInt64.ofInt _)) = _
      rw [Stamp.ofInt_secondsToInternal hw, ← UInt64.ofNat_toNat (x := ts), ← UInt64.ofNat_sub (by omega), UInt64.ofNat_toNat]
  . obtain ⟨n, hn⟩ := Int.eq_ofNat_of_zero_le (show 0 ≤ sp.day - 1 by omega)
    have habs : |sp.day - 1| = n := by
      rw [abs_of_nonneg (by omega)]
      exact hn
    have hw : n * 86400 % 2 ^ 32 < 2 ^ 32 := Nat.mod_lt _ (by decide)
    have hdiv := Nat.mod_add_div (n * 86400) (2 ^ 32)
    refine ⟨ts.toNat + n * 86400 % 2 ^ 32 * 2 ^ 20, -(n * 86400 / 2 ^ 32 : Nat), ?_, ?_, ?_, ?_⟩
    . omega
    . omega
    . rw [habs]
      omega
    . rw [if_neg hneg, if_pos (by omega), hn]
      dsimp only
      rw [toNat_mul_day, hts]
      show some (Stamp.split (ts + UInt64.ofInt _)) = _
      rw [Stamp.ofInt_secondsToInternal hw, UInt64.ofNat_add, UInt64.ofNat_toNat]

-- Only the seconds can be between ticks.
theorem floor_sec_iff (sp : Split)
    : ⌊sp.sec * 2 ^ 20⌋ = sp.sec * 2 ^ 20 ↔ ⌊sp.instant * 2 ^ 20⌋ = sp.instant * 2 ^ 20 := by
  rw [floor_instant]
  unfold instant
  push_cast
  constructor
  . intro h
    rw [h]
    ring
  . intro h
    linarith

theorem fixDay_spec (h : sp.Carried) (hday : ¬(1 ≤ sp.day ∧ sp.day ≤ 28)) (hmin : 0 ≤ sp.instant)
    (hmax : sp.instant < Stamp.secondsBefore 10000)
    : ∃ r, sp.fixDay = some r ∧ r.Normal
        ∧ (r.instant = sp.instant
            ↔
          86400 * |sp.day - 1| < 2 ^ 32 ∧ ⌊sp.sec * 2 ^ 20⌋ = sp.sec * 2 ^ 20
            ∧ ¬Stamp.IsMisjudged ⌊sp.instant⌋.toNat) := by
  obtain ⟨v, k, hv, hticks, hk, hfix⟩ := fixDay_split h hday (Or.inl hmin) hmax
  have hf : v % 2 ^ 20 < 2 ^ 20 := Nat.mod_lt _ (by decide)
  obtain ⟨u, hu, hnormal, hinstant⟩ := Stamp.split_spec (show v / 2 ^ 20 < Stamp.secondsBefore 10000 by omega) hf
  have hdiv : v / 2 ^ 20 * 2 ^ 20 + v % 2 ^ 20 = v := Nat.div_add_mod' v (2 ^ 20)
  rw [hdiv] at hnormal hinstant
  have hfraction : (0 : ℚ) ≤ (v % 2 ^ 20 : Nat) / 2 ^ 20 ∧ ((v % 2 ^ 20 : Nat) : ℚ) / 2 ^ 20 < 1 := by
    constructor
    . exact div_nonneg (Nat.cast_nonneg _) (by norm_num)
    . rw [div_lt_one (by norm_num)]
      exact_mod_cast hf
  generalize ht : v / 2 ^ 20 = t at *
  generalize v % 2 ^ 20 = f at *
  refine ⟨_, hfix, hnormal, ?_⟩
  rw [floor_sec_iff, hinstant, ← hk]
  constructor
  . intro heq
    have hwhole : sp.instant * 2 ^ 20 = ((u * 2 ^ 20 + f : Int) : ℚ) := by
      rw [← heq]
      push_cast
      ring
    have hfloor : ⌊sp.instant * 2 ^ 20⌋ = u * 2 ^ 20 + f := by
      rw [hwhole]
      exact Int.floor_intCast _
    have hsame : u = t ∧ ¬Stamp.IsMisjudged t := by
      rcases hu with hu | ⟨hu, -⟩
      . exact hu
      . omega
    have hseconds : ⌊sp.instant⌋ = t := by
      rw [Int.floor_eq_iff, ← heq, hsame.1]
      push_cast
      constructor
      . linarith
      . linarith
    refine ⟨by omega, ?_, ?_⟩
    . rw [hfloor, hwhole]
    . rw [hseconds]
      exact hsame.2
  . rintro ⟨hzero, hwhole, hjudged⟩
    rw [hzero, zero_mul, add_zero] at hticks
    have hsum : sp.instant = t + f / 2 ^ 20 := by
      rw [← hticks, Int.cast_natCast, ← hdiv] at hwhole
      push_cast at hwhole
      linarith
    have hseconds : ⌊sp.instant⌋ = t := by
      rw [Int.floor_eq_iff, hsum]
      push_cast
      constructor
      . linarith
      . linarith
    rw [hseconds, Int.toNat_natCast] at hjudged
    rcases hu with ⟨hu, -⟩ | ⟨-, hu⟩
    . rw [hu, hsum]
    . exact absurd hu hjudged

end Split

end Time
end ObTools
