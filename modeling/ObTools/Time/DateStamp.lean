import ObTools.Time.NormaliseLemmas

/-!
This module contains the model of `Time::DateInterval` and of the operators of `Time::DateStamp` with it, and the proof
when days and weeks are added to a `Time::DateStamp` right. A sum or a product of type `int` that overflows has no
result.
-/

namespace ObTools
namespace Time

def checkInt (x : Int) : Option Int := if IsInt x then some x else none

namespace DateInterval

inductive Unit where
  | invalid
  | days
  | weeks
  | months
  | years
deriving Repr, DecidableEq

end DateInterval

structure DateInterval where
  number : Int
  unit : DateInterval.Unit
deriving Repr, DecidableEq

namespace DateInterval

def addTo (di : DateInterval) (sp : Split) : Option Split := do
  let sp ← match di.unit with
    | .days => do
      let day ← checkInt (sp.day + di.number)
      some { sp with day := day }
    | .weeks => do
      let number ← checkInt (7 * di.number)
      let day ← checkInt (sp.day + number)
      some { sp with day := day }
    | .months => do
      let month ← checkInt (sp.month + di.number)
      some { sp with month := month }
    | .years => do
      let year ← checkInt (sp.year + di.number)
      some { sp with year := year }
    | .invalid => some sp
  sp.normalise

def subtractFrom (di : DateInterval) (sp : Split) : Option Split := do
  let sp ← match di.unit with
    | .days => do
      let day ← checkInt (sp.day - di.number)
      some { sp with day := day }
    | .weeks => do
      let number ← checkInt (7 * di.number)
      let day ← checkInt (sp.day - number)
      some { sp with day := day }
    | .months => do
      let month ← checkInt (sp.month - di.number)
      some { sp with month := month }
    | .years => do
      let year ← checkInt (sp.year - di.number)
      some { sp with year := year }
    | .invalid => some sp
  sp.normalise

end DateInterval

-- Just the date part
def Stamp.date (ts : UInt64) : Option UInt64 :=
  Stamp.ofSplit { Stamp.split ts with hour := 0, min := 0, sec := 0 }

namespace DateStamp

-- The constructor rounds back to midnight
def ofSplit (sp : Split) : Option UInt64 := do
  let ts ← Stamp.ofSplit sp
  Stamp.date ts

def add (ts : UInt64) (di : DateInterval) : Option UInt64 := do
  let sp ← di.addTo (Stamp.split ts)
  ofSplit sp

def sub (ts : UInt64) (di : DateInterval) : Option UInt64 := do
  let sp ← di.subtractFrom (Stamp.split ts)
  ofSplit sp

end DateStamp

end Time
end ObTools

namespace ObTools
namespace Time

open Calendar (isLeap daysInMonth daysBeforeYear Date)

/-
A day of the years that a timestamp is for.
-/
structure Day where
  date : Date
  valid : date.Valid
  first : 1900 ≤ date.year
  last : date.year ≤ 9999

namespace Day

def start (d : Day) : Moment where
  date := d.date
  hour := 0
  min := 0
  sec := 0
  valid := d.valid
  first := d.first
  last := d.last
  hour_lt := by decide
  min_lt := by decide
  sec_lt := by decide

def midnight (d : Day) : UInt64 := Stamp.combine d.start.split

-- Whether a day is a number of calendar days after another one, or before it if the number is negative
def IsAfter (d : Day) (n : Int) (d' : Day) : Prop :=
  if 0 ≤ n then d.date.plus n.toNat = d'.date else d'.date.plus (-n).toNat = d.date

-- The days from 1900-01-01
def number (d : Day) : Nat := d.date.number - (Date.mk 1900 1 1).number

variable {d d' : Day} {n : Int}

theorem isAfter_iff : d.IsAfter n d' ↔ (d'.number : Int) = d.number + n := by
  have hfirst := d.start.first_le_number
  have hfirst' := d'.start.first_le_number
  have hstart : d.start.date = d.date := rfl
  have hstart' : d'.start.date = d'.date := rfl
  rw [hstart] at hfirst
  rw [hstart'] at hfirst'
  unfold IsAfter number
  split
  . next hn =>
    constructor
    . intro hplus
      have hnumber := (Date.plus_spec d.valid n.toNat).2.1
      rw [hplus] at hnumber
      omega
    . intro hnumber
      exact Date.plus_eq d.valid d'.valid (by omega)
  . next hn =>
    constructor
    . intro hplus
      have hnumber := (Date.plus_spec d'.valid (-n).toNat).2.1
      rw [hplus] at hnumber
      omega
    . intro hnumber
      exact Date.plus_eq d'.valid d.valid (by omega)

theorem start_seconds (d : Day) : d.start.seconds = 86400 * d.number := by
  unfold Moment.seconds number start
  dsimp only
  omega

theorem midnight_eq (d : Day) : d.midnight = UInt64.ofNat (86400 * d.number) <<< INTERNAL_SHIFT := by
  rw [midnight, d.start.combine_split, d.start_seconds]

theorem seconds_lt (d : Day) : 86400 * d.number < Stamp.secondsBefore 10000 := by
  rw [← d.start_seconds]
  exact d.start.seconds_lt

theorem splitOf_day (d : Day) : (Stamp.splitOf (86400 * d.number)).day = d.date.day := by
  rw [← d.start_seconds, d.start.splitOf_seconds]
  rfl

end Day

namespace Stamp

-- What the parts of a time are put together to again
def JudgedAs (t u : Nat) : Prop := u = t ∧ ¬IsMisjudged t ∨ u + 86400 = t ∧ IsMisjudged t

variable {t u : Nat}

theorem split_judgedAs (ht : t < secondsBefore 10000)
    : ∃ u, JudgedAs t u ∧ split (UInt64.ofNat t <<< INTERNAL_SHIFT) = splitOf u := by
  by_cases h : IsMisjudged t
  . obtain ⟨hle, hsplit⟩ := split_eq_of_misjudged ht h
    exact ⟨t - 86400, Or.inr ⟨by omega, h⟩, hsplit⟩
  . exact ⟨t, Or.inl ⟨rfl, h⟩, split_eq_of_not_misjudged ht h⟩

theorem JudgedAs.le (h : JudgedAs t u) : u ≤ t := by
  rcases h with h | h
  . omega
  . omega

theorem ofNat_shifted (ht : t < 2 ^ 44) : UInt64.ofNat t <<< INTERNAL_SHIFT = UInt64.ofNat (t * 2 ^ 20) := by
  rw [← UInt64.toNat_inj, toNat_shifted ht, toNat_ofNat_of_lt (by omega)]

theorem splitOf_sec (ht : t % 60 = 0) : (splitOf t).sec = 0 := by
  unfold splitOf
  dsimp only
  rw [ht, Nat.cast_zero]

theorem splitOf_whole (ht : t % 60 = 0) : ({ splitOf t with sec := 0 } : Split) = splitOf t := by
  rw [← splitOf_sec ht]

theorem ofSplit_splitOf (hu : u < secondsBefore 10000)
    : ofSplit (splitOf u) = some (UInt64.ofNat u <<< INTERNAL_SHIFT) := by
  have hsec : (splitOf u).sec * (1 <<< INTERNAL_SHIFT : UInt64).toNat
      = ((u % 60 : Nat) : ℚ) * ((2 ^ 20 : Nat) : ℚ) := rfl
  unfold ofSplit
  rw [hsec, truncate_mul, if_neg (by omega), combine_splitOf u hu]

-- The beginning of the day of a time
theorem date_spec_judgedAs (ht : t < secondsBefore 10000)
    : ∃ u, JudgedAs t u
        ∧ date (UInt64.ofNat t <<< INTERNAL_SHIFT) = some (UInt64.ofNat (86400 * (u / 86400)) <<< INTERNAL_SHIFT) := by
  obtain ⟨u, hu, hsplit⟩ := split_judgedAs ht
  have hle := hu.le
  refine ⟨u, hu, ?_⟩
  have hmidnight : { splitOf u with hour := 0, min := 0, sec := 0 } = splitOf (86400 * (u / 86400)) := by
    have h1 : 86400 * (u / 86400) / 86400 = u / 86400 := by omega
    have h2 : 86400 * (u / 86400) % 86400 / 3600 = 0 := by omega
    have h3 : 86400 * (u / 86400) % 3600 / 60 = 0 := by omega
    have h4 : 86400 * (u / 86400) % 60 = 0 := by omega
    unfold splitOf
    rw [h1, h2, h3, h4]
    simp
  rw [date, hsplit, hmidnight]
  exact ofSplit_splitOf (by omega)

end Stamp

namespace Split

-- A day number of any size in the month of a day
theorem carried_day {j : Nat} (hj : 86400 * j < Stamp.secondsBefore 10000) (x : Int)
    : ({ Stamp.splitOf (86400 * j) with day := x } : Split).Carried
        ∧ ({ Stamp.splitOf (86400 * j) with day := x } : Split).minutesBefore
          = 1440 * (j + x - (Stamp.splitOf (86400 * j)).day) := by
  obtain ⟨hnormal, hminutes⟩ := normal_splitOf hj (le_refl (0 : ℚ)) (by norm_num)
  have hmod : 86400 * j / 60 = 1440 * j := by omega
  rw [hmod] at hminutes
  have hsec : (Stamp.splitOf (86400 * j)).sec = 0 := Stamp.splitOf_sec (by omega)
  constructor
  . exact ⟨hnormal.year, hnormal.month, hnormal.hour, hnormal.min, by
      dsimp only
      rw [hsec]
      norm_num⟩
  . unfold minutesBefore firstOfMonth at hminutes ⊢
    dsimp only at hminutes ⊢
    omega

/--
Midnights come out right, except that the seconds of the days are counted with 32 bits and that the
time can be misjudged.
-/
theorem Carried.normalise_midnight {sp : Split} {s : Int} (h : sp.Carried) (hsec : sp.sec = 0)
    (hminutes : sp.minutesBefore = 1440 * s) (hmin : 0 ≤ s ∨ 2 ^ 32 ≤ 86400 * (s - (sp.day - 1)))
    (hmax : 86400 * s < Stamp.secondsBefore 10000)
    : ∃ (t u : Nat) (c : Int), t < Stamp.secondsBefore 10000 ∧ t = 86400 * s + c * 2 ^ 32
        ∧ (c = 0 ↔ 86400 * |sp.day - 1| < 2 ^ 32) ∧ (u = t ∨ Stamp.JudgedAs t u)
        ∧ sp.normalise = some (Stamp.splitOf u) := by
  have hinstant : sp.instant = ((86400 * s : Int) : ℚ) := by
    unfold instant
    rw [hminutes, hsec]
    push_cast
    ring
  rw [h.normalise_eq (by rw [hsec]; norm_num)]
  by_cases hsmall : 1 ≤ sp.day ∧ sp.day ≤ 28
  . obtain ⟨t, ht⟩ := Int.eq_ofNat_of_zero_le (show 0 ≤ 86400 * s by omega)
    have htlt : t < Stamp.secondsBefore 10000 := by omega
    have hnormal : sp.Normal :=
      { h with
        day := ⟨hsmall.1, Int.le_trans hsmall.2 (by exact_mod_cast (Calendar.daysInMonth_bounds _ _).1)⟩ }
    obtain ⟨hnormal', hminutes'⟩ := normal_splitOf htlt (le_refl (0 : ℚ)) (by norm_num)
    rw [Stamp.splitOf_whole (show t % 60 = 0 by omega)] at hnormal' hminutes'
    refine ⟨t, t, 0, htlt, by omega, ?_, Or.inl rfl, ?_⟩
    . rw [abs_of_nonneg (by omega)]
      omega
    . rw [fixDay_done hsmall]
      refine congrArg some (hnormal.eq_of_instant_eq hnormal' ?_)
      unfold instant
      rw [hminutes, hminutes', hsec, Stamp.splitOf_sec (show t % 60 = 0 by omega)]
      rw [show ((t / 60 : Nat) : Int) = 1440 * s by omega]
  . have hfloor : ⌊sp.instant * 2 ^ 20⌋ = 86400 * s * 2 ^ 20 := by
      rw [floor_instant, hminutes, hsec, zero_mul, Int.floor_zero]
      ring
    have hfirst := minutesBefore_first sp
    obtain ⟨v, c, hv, hticks, hc, hfix⟩ := fixDay_split h hsmall (by
      rw [hinstant, hfirst, hminutes]
      rcases hmin with hmin | hmin
      . left
        exact_mod_cast (show 0 ≤ 86400 * s by omega)
      . right
        omega) (by rw [hinstant]; exact_mod_cast hmax)
    rw [hfloor] at hticks
    obtain ⟨t, rfl⟩ : ∃ t, v = t * 2 ^ 20 := ⟨v / 2 ^ 20, by omega⟩
    have htlt : t < Stamp.secondsBefore 10000 := by omega
    obtain ⟨u, hu, hsplit⟩ := Stamp.split_judgedAs htlt
    refine ⟨t, u, c, htlt, by omega, hc, Or.inr hu, ?_⟩
    rw [hfix, ← hsplit, Stamp.ofNat_shifted (Stamp.lt_of_lt_secondsBefore htlt)]

end Split

namespace DateInterval

variable {sp : Split} {n : Int}

theorem checkInt_eq {x : Int} (hx : IsInt x) : checkInt x = some x := if_pos hx

theorem addTo_days (hday : IsInt (sp.day + n))
    : addTo { number := n, unit := .days } sp = ({ sp with day := sp.day + n } : Split).normalise := by
  unfold addTo
  dsimp only
  rw [checkInt_eq hday]
  rfl

theorem addTo_weeks (hnumber : IsInt (7 * n)) (hday : IsInt (sp.day + 7 * n))
    : addTo { number := n, unit := .weeks } sp = ({ sp with day := sp.day + 7 * n } : Split).normalise := by
  unfold addTo
  dsimp only
  simp only [checkInt_eq hnumber, checkInt_eq hday, Option.bind_eq_bind, Option.bind_some]

theorem subtractFrom_days (hday : IsInt (sp.day + -n))
    : subtractFrom { number := n, unit := .days } sp = ({ sp with day := sp.day + -n } : Split).normalise := by
  unfold subtractFrom
  dsimp only
  rw [Int.sub_eq_add_neg, checkInt_eq hday]
  rfl

end DateInterval

namespace Day

variable {d d' : Day} {n : Int}

-- The year estimate of a stamp takes the midnight for one in a leap year that has not begun
def IsMisjudged (d : Day) : Prop := Stamp.IsMisjudged (86400 * d.number)

theorem isMisjudged_of_eq {t : Nat} (ht : t = 86400 * d.number) : Stamp.IsMisjudged t ↔ d.IsMisjudged := by
  rw [ht]
  rfl

-- The seconds from the first day of the month to a day number can be counted with 32 bits
def Fits (d : Day) (n : Int) : Prop := 86400 * |(d.date.day : Int) + n - 1| < 2 ^ 32

theorem midnight_inj {a b : Nat} (ha : a < 2 ^ 44) (hb : b < 2 ^ 44)
    (h : UInt64.ofNat a <<< INTERNAL_SHIFT = UInt64.ofNat b <<< INTERNAL_SHIFT)
    : a = b := by
  rw [← UInt64.toNat_inj, Stamp.toNat_shifted ha, Stamp.toNat_shifted hb] at h
  omega

-- It takes centuries until the estimate is ahead by hours
theorem IsMisjudged.le (h : d.IsMisjudged) : 60000 ≤ d.number := by
  obtain ⟨year, hleap, hle, hlt⟩ := h
  have hyear := (Calendar.isLeap_iff year).mp hleap
  have hge : 1900 ≤ year := by
    apply Nat.le_of_not_lt
    intro hgt
    have hmono := Date.daysBeforeYear_mono hgt
    unfold Stamp.secondsBefore at hlt
    omega
  obtain ⟨y, rfl⟩ := Nat.exists_eq_add_of_le hge
  rw [Stamp.secondsBefore_1900] at hlt
  unfold Stamp.leapsBefore at hlt
  omega

theorem number_eq {y : Nat} (hy : d.date.year = 1900 + y)
    : d.number = 365 * y + Stamp.leapsBefore y + d.date.yearDay := by
  unfold number
  rw [Stamp.first_number, Date.number, hy, Stamp.daysBeforeYear_1900]
  omega

/--
What becomes of a midnight to which days are added.
-/
theorem add_days (hafter : d.IsAfter n d')
    : ∃ (t0 t u v : Nat) (c : Int), Stamp.JudgedAs (86400 * d.number) t0 ∧ t = t0 + 86400 * n + c * 2 ^ 32
        ∧ (t0 = 86400 * d.number → (c = 0 ↔ d.Fits n)) ∧ (u = t ∨ Stamp.JudgedAs t u) ∧ Stamp.JudgedAs u v
        ∧ t < Stamp.secondsBefore 10000
        ∧ ({ Stamp.split d.midnight with day := (Stamp.split d.midnight).day + n } : Split).normalise.bind
          DateStamp.ofSplit = some (UInt64.ofNat (86400 * (v / 86400)) <<< INTERNAL_SHIFT) := by
  rw [isAfter_iff] at hafter
  have hlt := d.seconds_lt
  have hlt' := d'.seconds_lt
  obtain ⟨t0, ht0, hsplit⟩ := Stamp.split_judgedAs hlt
  rw [← midnight_eq] at hsplit
  obtain ⟨j, rfl⟩ : ∃ j, t0 = 86400 * j := ⟨t0 / 86400, by rcases ht0 with h | h <;> omega⟩
  have hle := ht0.le
  have hj : 86400 * j < Stamp.secondsBefore 10000 := by omega
  obtain ⟨hnormal, -⟩ := Split.normal_splitOf hj (le_refl (0 : ℚ)) (by norm_num)
  rw [Stamp.splitOf_whole (by omega)] at hnormal
  have hday := hnormal.day
  have hbounds := (Calendar.daysInMonth_bounds (isLeap (Stamp.splitOf (86400 * j)).year.toNat)
    (Stamp.splitOf (86400 * j)).month.toNat).2
  obtain ⟨hcarried, hminutes⟩ := Split.carried_day hj ((Stamp.splitOf (86400 * j)).day + n)
  rw [hsplit]
  obtain ⟨t, u, c, ht, hsum, hc, hu, hnormalise⟩ := hcarried.normalise_midnight (s := j + n)
    (Stamp.splitOf_sec (by omega)) (by rw [hminutes]; ring) (by
      dsimp only
      rcases ht0 with h | h
      . left
        omega
      . have hlarge := IsMisjudged.le h.2
        by_cases hneg : 0 ≤ (j : Int) + n
        . exact Or.inl hneg
        . right
          omega) (by omega)
  have hult : u < Stamp.secondsBefore 10000 := by
    rcases hu with rfl | hu
    . exact ht
    . exact Nat.lt_of_le_of_lt hu.le ht
  obtain ⟨v, hv, hdate⟩ := Stamp.date_spec_judgedAs hult
  refine ⟨86400 * j, t, u, v, c, ht0, ?_, ?_, hu, hv, ht, ?_⟩
  . rw [hsum]
    push_cast
    ring
  . intro hsame
    have hnumber : j = d.number := by omega
    rw [hc, Fits, hnumber, d.splitOf_day]
  . rw [hnormalise, Option.bind_some, DateStamp.ofSplit, Stamp.ofSplit_splitOf hult, Option.bind_eq_bind,
      Option.bind_some, hdate]

theorem add_days_iff (hafter : d.IsAfter n d')
    : ({ Stamp.split d.midnight with day := (Stamp.split d.midnight).day + n } : Split).normalise.bind
          DateStamp.ofSplit = some d'.midnight
        ↔
      ¬d.IsMisjudged ∧ ¬d'.IsMisjudged ∧ d.Fits n := by
  obtain ⟨t0, t, u, v, c, ht0, hsum, hc, hu, hv, ht, heq⟩ := add_days hafter
  have hlt := Stamp.lt_of_lt_secondsBefore d'.seconds_lt
  have ht44 := Stamp.lt_of_lt_secondsBefore ht
  rw [isAfter_iff] at hafter
  have hule : u ≤ t ∧ t ≤ u + 86400 := by
    rcases hu with rfl | h | h
    . omega
    . omega
    . omega
  have hvle := hv.le
  rw [heq, Option.some_inj, d'.midnight_eq]
  constructor
  . intro hsame
    have hindex := midnight_inj (by omega) hlt hsame
    have hzero : c = 0 := by
      rcases ht0 with h0 | h0 <;> rcases hv with h | h <;> omega
    have h0 : t0 = 86400 * d.number ∧ ¬d.IsMisjudged := by
      rcases ht0 with h0 | h0
      . exact h0
      . omega
    have hv' : v = u ∧ ¬Stamp.IsMisjudged u := by
      rcases hv with h | h
      . exact h
      . omega
    have htarget : u = 86400 * d'.number := by omega
    exact ⟨h0.2, fun h => hv'.2 ((isMisjudged_of_eq htarget).mpr h), (hc h0.1).mp hzero⟩
  . rintro ⟨hjudged, hjudged', hfits⟩
    have h0 : t0 = 86400 * d.number := by
      rcases ht0 with h0 | h0
      . exact h0.1
      . exact absurd h0.2 hjudged
    have hzero := (hc h0).mpr hfits
    have htarget : t = 86400 * d'.number := by omega
    have hsame : u = t := by
      rcases hu with h | h | h
      . exact h
      . exact h.1
      . exact absurd ((isMisjudged_of_eq htarget).mp h.2) hjudged'
    have hv' : v = u := by
      rcases hv with h | h
      . exact h.1
      . exact absurd ((isMisjudged_of_eq (hsame.trans htarget)).mp h.2) hjudged'
    have hindex : 86400 * (v / 86400) = 86400 * d'.number := by omega
    rw [hindex]

/-
The operators.
-/

-- There are not that many days.
theorem isInt_day (hafter : d.IsAfter n d') : IsInt ((Stamp.split d.midnight).day + n) ∧ IsInt n := by
  rw [isAfter_iff] at hafter
  have hlt := d.seconds_lt
  have hlt' := d'.seconds_lt
  have hmax := Stamp.secondsBefore_lt
  obtain ⟨t0, ht0, hsplit⟩ := Stamp.split_judgedAs hlt
  have hle := ht0.le
  obtain ⟨hnormal, -⟩ := Split.normal_splitOf (Nat.lt_of_le_of_lt hle hlt) (le_refl (0 : ℚ)) (by norm_num)
  have hday := hnormal.day
  have hbounds := (Calendar.daysInMonth_bounds (isLeap (Stamp.splitOf t0).year.toNat)
    (Stamp.splitOf t0).month.toNat).2
  rw [← midnight_eq] at hsplit
  rw [hsplit]
  dsimp only at hday
  unfold IsInt
  omega

theorem add_eq (hafter : d.IsAfter n d')
    : DateStamp.add d.midnight { number := n, unit := .days }
        = ({ Stamp.split d.midnight with day := (Stamp.split d.midnight).day + n } : Split).normalise.bind
          DateStamp.ofSplit := by
  rw [DateStamp.add, DateInterval.addTo_days (isInt_day hafter).1, Option.bind_eq_bind]

theorem add_weeks_eq (hafter : d.IsAfter (7 * n) d')
    : DateStamp.add d.midnight { number := n, unit := .weeks }
        = ({ Stamp.split d.midnight with day := (Stamp.split d.midnight).day + 7 * n } : Split).normalise.bind
          DateStamp.ofSplit := by
  obtain ⟨hday, hnumber⟩ := isInt_day hafter
  rw [DateStamp.add, DateInterval.addTo_weeks hnumber hday, Option.bind_eq_bind]

theorem sub_eq (hafter : d.IsAfter (-n) d')
    : DateStamp.sub d.midnight { number := n, unit := .days }
        = ({ Stamp.split d.midnight with day := (Stamp.split d.midnight).day + -n } : Split).normalise.bind
          DateStamp.ofSplit := by
  rw [DateStamp.sub, DateInterval.subtractFrom_days (isInt_day hafter).1, Option.bind_eq_bind]

theorem IsAfter.back (hafter : d.IsAfter n d') : d'.IsAfter (-n) d := by
  rw [isAfter_iff] at hafter ⊢
  omega

end Day

namespace DateStamp

/--
Days and weeks are added right and days are taken away again if and only if no day is misjudged and the
seconds of the days can be counted.
-/
theorem days_spec {d d' : Day} {n : Int} (hafter : d.IsAfter n d')
    : (add d.midnight { number := n, unit := .days } = some d'.midnight
          ∧ (∀ d'', d.IsAfter (7 * n) d''
            → add d.midnight { number := n, unit := .weeks } = some d''.midnight)
          ∧ (add d.midnight { number := n, unit := .days }).bind
              (fun ts => sub ts { number := n, unit := .days }) = some d.midnight)
        ↔
      ¬d.IsMisjudged ∧ ¬d'.IsMisjudged ∧ d.Fits n ∧ d'.Fits (-n)
        ∧ ∀ d'', d.IsAfter (7 * n) d'' → ¬d''.IsMisjudged ∧ d.Fits (7 * n) := by
  have hdays := Day.add_days_iff hafter
  rw [← Day.add_eq hafter] at hdays
  have hback := Day.add_days_iff hafter.back
  rw [← Day.sub_eq hafter.back] at hback
  constructor
  . rintro ⟨hadd, hweeks, hsub⟩
    obtain ⟨hjudged, hjudged', hfits⟩ := hdays.mp hadd
    rw [hadd, Option.bind_some] at hsub
    refine ⟨hjudged, hjudged', hfits, (hback.mp hsub).2.2, ?_⟩
    intro d'' hafter'
    have hweek := hweeks d'' hafter'
    rw [Day.add_weeks_eq hafter'] at hweek
    exact ((Day.add_days_iff hafter').mp hweek).2
  . rintro ⟨hjudged, hjudged', hfits, hfits', hweeks⟩
    have hadd := hdays.mpr ⟨hjudged, hjudged', hfits⟩
    refine ⟨hadd, ?_, ?_⟩
    . intro d'' hafter'
      rw [Day.add_weeks_eq hafter', Day.add_days_iff hafter']
      exact ⟨hjudged, hweeks d'' hafter'⟩
    . rw [hadd, Option.bind_some]
      exact hback.mpr ⟨hjudged', hjudged, hfits'⟩

def february28 : Day where
  date := ⟨2000, 2, 28⟩
  valid := by decide
  first := by decide
  last := by decide

def march1 : Day where
  date := ⟨2000, 3, 1⟩
  valid := by decide
  first := by decide
  last := by decide

theorem days_spec_leap_day
    : add february28.midnight { number := 2, unit := .days } = some march1.midnight
        ∧ (∀ d'', february28.IsAfter (7 * 2) d''
          → add february28.midnight { number := 2, unit := .weeks } = some d''.midnight)
        ∧ (add february28.midnight { number := 2, unit := .days }).bind
            (fun ts => sub ts { number := 2, unit := .days }) = some february28.midnight := by
  have hnumber : february28.number = 36582 := by
    rw [Day.number_eq (show february28.date.year = 1900 + 100 from rfl)]
    decide
  have hnumber' : march1.number = 36584 := by
    rw [Day.number_eq (show march1.date.year = 1900 + 100 from rfl)]
    decide
  have hjudged {d : Day} (hd : d.number < 60000) : ¬d.IsMisjudged := by
    intro h
    have := h.le
    omega
  refine (days_spec (Day.isAfter_iff.mpr (by omega))).mpr ⟨hjudged (by omega), hjudged (by omega), ?_, ?_, ?_⟩
  . unfold Day.Fits
    decide
  . unfold Day.Fits
    decide
  . intro d'' hafter
    rw [Day.isAfter_iff] at hafter
    refine ⟨hjudged (by omega), ?_⟩
    unfold Day.Fits
    decide

def firstDay : Day where
  date := ⟨1900, 1, 1⟩
  valid := by decide
  first := by decide
  last := by decide

def april10 : Day where
  date := ⟨2064, 4, 10⟩
  valid := by decide
  first := by decide
  last := by decide

-- 60000 days, which have more than 2^32 seconds
theorem not_days_spec
    : ¬∀ (d d' : Day) (n : Int), d.IsAfter n d'
      → add d.midnight { number := n, unit := .days } = some d'.midnight
        ∧ (∀ d'', d.IsAfter (7 * n) d''
          → add d.midnight { number := n, unit := .weeks } = some d''.midnight)
        ∧ (add d.midnight { number := n, unit := .days }).bind
            (fun ts => sub ts { number := n, unit := .days }) = some d.midnight := by
  intro h
  have hnumber : firstDay.number = 0 := by
    rw [Day.number_eq (show firstDay.date.year = 1900 + 0 from rfl)]
    decide
  have hnumber' : april10.number = 60000 := by
    rw [Day.number_eq (show april10.date.year = 1900 + 164 from rfl)]
    decide
  have hafter : firstDay.IsAfter 60000 april10 := by
    rw [Day.isAfter_iff]
    omega
  have hadd := (h firstDay april10 60000 hafter).1
  rw [Day.add_eq hafter] at hadd
  have hfits := ((Day.add_days_iff hafter).mp hadd).2.2
  unfold Day.Fits at hfits
  exact absurd hfits (by decide)

end DateStamp

end Time
end ObTools
