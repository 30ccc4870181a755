import ObTools.Time.Instant
import ObTools.Time.IsoGrammar

/-!
This module contains the proof which texts that are not in ISO format give a timestamp.
-/

namespace ObTools
namespace Time
namespace Stamp

open Calendar (isLeap daysBeforeYear daysBeforeMonth Date)

variable {nearest : ℚ → ℚ} {d t z d' t' z' : Bytes} {sep sep' : UInt8} {f f' : Fields}

/-
The ranges of the fields.
-/

structure Fields.Bounded (f : Fields) : Prop where
  year : 1900 ≤ f.date.year ∧ f.date.year < 10000
  day : f.date.day < 100
  hour : f.hour < 100
  min : f.min < 100
  sec : 0 ≤ f.sec
  offset : -2 ^ 20 < f.offset ∧ f.offset < 2 ^ 20

theorem IsDigits.lt {n : Nat} {s : Bytes} (hs : IsDigits n s) : Digits.ofBytes 10 s < 10 ^ n := by
  have hlt := ofBytes_lt s hs.2
  rw [hs.1] at hlt
  exact hlt

theorem IsDate.bounded {date : Date} (hd : IsDate d date) : 1900 ≤ date.year ∧ date.year < 10000 ∧ date.day < 100 := by
  cases hd with
  | mk year first before_month month before_day day => exact ⟨first, year.lt, day.lt⟩

theorem IsTime.bounded {hour min : Nat} {sec : ℚ} (ht : IsTime nearest t hour min sec)
    : hour < 100 ∧ min < 100 ∧ 6 ≤ t.length := by
  cases ht with
  | mk hhour before_min hmin before_sec length sec =>
    refine ⟨hhour.lt, hmin.lt, ?_⟩
    rw [List.length_append, List.length_append, List.length_append, List.length_append, hhour.1, hmin.1]
    omega

theorem IsUnfinished.bounded {hour : Nat} (ht : IsUnfinished t hour) : hour < 100 ∧ t.length ≤ 3 := by
  cases ht with
  | mk hhour before_min =>
    refine ⟨hhour.lt, ?_⟩
    rw [List.length_append, hhour.1]
    rcases before_min with rfl | rfl <;> simp

theorem signed_bounded (sign : UInt8) {n : Nat} (hn : n < 2 ^ 20) : -2 ^ 20 < signed sign n ∧ signed sign n < 2 ^ 20 := by
  unfold signed
  split <;> omega

theorem IsZone.bounded {offset : Int} (hz : IsZone z offset) : -2 ^ 20 < offset ∧ offset < 2 ^ 20 := by
  cases hz with
  | none => decide
  | utc => decide
  | hours hsign hour =>
    have := hour.lt
    exact signed_bounded _ (by omega)
  | minutes hsign hour before_min min =>
    have := hour.lt
    have := min.lt
    exact signed_bounded _ (by omega)

theorem IsRead.bounded (hnearest : ∀ q, 0 ≤ q → 0 ≤ nearest q) (h : IsRead nearest d sep t z f) : f.Bounded := by
  obtain ⟨hfirst, hlast, hday⟩ := h.date.bounded
  have htime : f.hour < 100 ∧ f.min < 100 ∧ 0 ≤ f.sec := by
    rcases h.time with ht | ⟨ht, hmin, hsec⟩
    . exact ⟨ht.bounded.1, ht.bounded.2.1, ht.sec_nonneg hnearest⟩
    . rw [hmin, hsec]
      exact ⟨ht.bounded.1, by decide, le_refl 0⟩
  have hzone : -2 ^ 20 < f.offset ∧ f.offset < 2 ^ 20 := by
    rcases h.zone with hz | ⟨-, hoffset⟩
    . exact hz.bounded
    . rw [hoffset]
      decide
  exact ⟨⟨hfirst, hlast⟩, hday, htime.1, htime.2.1, htime.2.2, hzone⟩

/-
Nothing is read in two ways.
-/

theorem setDate_injective {sp : Split} {date date' : Date} (h : setDate sp date = setDate sp date') : date = date' := by
  unfold setDate at h
  simp only [Split.mk.injEq, Nat.cast_inj] at h
  cases date
  cases date'
  simp_all

theorem IsRead.unique (h : IsRead nearest d sep t z f) (h' : IsRead nearest d' sep' t' z' f')
    (heq : d ++ sep :: (t ++ z) = d' ++ sep' :: (t' ++ z'))
    : f.date = f'.date ∧ t = t' ∧ z = z' := by
  let sp : Split := { year := 1900, month := 1, day := 1, hour := 0, min := 0, sec := 0 }
  have hdate := readDate_date h.date (sep :: (t ++ z)) sp
  rw [heq, readDate_date h'.date] at hdate
  obtain ⟨hdate, hrest⟩ := Prod.mk.inj (Option.some.inj hdate)
  have hrest := (List.cons.inj hrest).2
  have hcut := cut_spec h.cut.1 h.cut.2
  have hcut' := cut_spec h'.cut.1 h'.cut.2
  rw [hrest] at hcut'
  refine ⟨(setDate_injective hdate).symm, ?_, ?_⟩
  . rw [← hcut.1, hcut'.1]
  . rw [← hcut.2, hcut'.2]

theorem IsTime.not_unfinished {hour hour' min : Nat} {sec : ℚ} (ht : IsTime nearest t hour min sec)
    : ¬IsUnfinished t hour' := by
  intro ht'
  have hlong := ht.bounded.2.2
  have hshort := ht'.bounded.2
  omega

theorem IsZone.shape {offset : Int} (hz : IsZone z offset) : z = [] ∨ z = [90] ∨ ∃ sign s, z = sign :: s ∧ sign ≠ 90 := by
  cases hz with
  | none => exact Or.inl rfl
  | utc => exact Or.inr (Or.inl rfl)
  | hours hsign => exact Or.inr (Or.inr ⟨_, _, rfl, (isZoneStart_sign hsign).2⟩)
  | minutes hsign => exact Or.inr (Or.inr ⟨_, _, rfl, (isZoneStart_sign hsign).2⟩)

theorem IsZone.not_trailing {offset : Int} (hz : IsZone z offset) : ¬IsTrailing z := by
  intro hz'
  cases hz' with
  | mk c rest =>
    rcases hz.shape with heq | heq | ⟨sign, s, heq, hne⟩
    . cases heq
    . cases heq
    . cases heq
      exact hne rfl

/-
The timestamp.
-/

theorem ofInt_eq_zero_iff (n : Int) : UInt64.ofInt n = 0 ↔ 2 ^ 64 ∣ n := by
  unfold UInt64.ofInt
  rw [← UInt64.toNat_inj, UInt64.toNat_ofNat', UInt64.toNat_zero]
  omega

theorem toNat_ofInt (i : Int) : (UInt64.ofInt i).toNat = (i % 2 ^ 64).toNat := by
  unfold UInt64.ofInt
  rw [UInt64.toNat_ofNat']
  omega

theorem toUInt64_mul_ofInt (c : UInt32) (i : Int)
    : (UInt32.ofInt i * c).toUInt64 = UInt64.ofInt (c.toNat * i % 2 ^ 32) := by
  have hi : (UInt32.ofInt i).toNat = (i % 2 ^ 32).toNat := by
    unfold UInt32.ofInt
    rw [UInt32.toNat_ofNat']
    omega
  have hproduct : (((i % 2 ^ 32).toNat * c.toNat % 2 ^ 32 : ℕ) : Int) = c.toNat * i % 2 ^ 32 := by
    push_cast
    rw [Int.toNat_of_nonneg (by omega), Int.mul_emod, Int.emod_emod, ← Int.mul_emod, Int.mul_comm]
  rw [← UInt64.toNat_inj, UInt32.toNat_toUInt64, UInt32.toNat_mul, hi, toNat_ofInt, ← hproduct]
  omega

-- The seconds of the day, which wrap on day 0
def Fields.daySeconds (f : Fields) : Int := 86400 * ((f.date.day : Int) - 1) % 2 ^ 32

def Fields.firstOfMonth (f : Fields) : Date := { f.date with day := 1 }

-- The seconds from 1900-01-01 up to the whole minute
def Fields.minuteSeconds (f : Fields) : Int :=
  86400 * (f.firstOfMonth.number - (Date.mk 1900 1 1).number) + f.daySeconds + 3600 * f.hour + 60 * f.min

-- The time of the fields, in units of 2^-20 s from 1900-01-01
def Fields.ticks (f : Fields) : Int := f.minuteSeconds * 2 ^ 20 + ⌊f.sec * 2 ^ 20⌋ - f.offset * 2 ^ 20

theorem ofInt_of_eq {i : Int} {n : Nat} (h : i = n) : UInt64.ofInt i = UInt64.ofNat n := by
  rw [← UInt64.toNat_inj, toNat_ofInt, UInt64.toNat_ofNat', h]
  omega

theorem combine_minutes (h : f.Bounded) (h1 : 1 ≤ f.date.month) (h12 : f.date.month ≤ 12)
    : combine { f.split with sec := 0 } = UInt64.ofInt (f.minuteSeconds * 2 ^ 20) := by
  obtain ⟨y, hy⟩ := Nat.exists_eq_add_of_le h.year.1
  have hyears := h.year.2
  have hhours := h.hour
  have hmins := h.min
  have hday : DAY.toNat = 86400 := rfl
  have hhour : HOUR.toNat = 3600 := rfl
  have hminute : MINUTE.toNat = 60 := rfl
  have hday64 : DAY.toUInt64 = UInt64.ofNat 86400 := rfl
  have hshift64 : INTERNAL_SHIFT = UInt64.ofNat 20 := rfl
  have hsec : UInt64.ofInt (truncate ((0 : ℚ) * (1 <<< INTERNAL_SHIFT : UInt64).toNat)) = 0 := by
    rw [zero_mul]
    rfl
  have hdays : (UInt32.ofInt ((f.date.day : Int) - 1) * DAY).toUInt64 = UInt64.ofNat f.daySeconds.toNat := by
    rw [toUInt64_mul_ofInt, hday]
    apply ofInt_of_eq
    unfold Fields.daySeconds
    omega
  have hbefore := daysBeforeMonth_eq (isLeap (1900 + y)) h1 h12
  have hyear := daysBeforeYear_1900 y
  have hpositive : 0 ≤ f.daySeconds := Int.emod_nonneg _ (by decide)
  have hnumber : (f.firstOfMonth.number : Int) - (Date.mk 1900 1 1).number
      = ((365 * y + leapsBefore y + daysBeforeMonth (isLeap (1900 + y)) f.date.month : ℕ) : Int) := by
    rw [first_number]
    unfold Fields.firstOfMonth Date.number Date.yearDay
    rw [hy]
    dsimp only
    omega
  generalize hcombine : combine { f.split with sec := 0 } = res
  unfold combine Fields.split at hcombine
  simp only [hy] at hcombine
  rw [if_neg (by omega), combine_years (by omega) rfl, combine_month h1 h12, hdays,
    unsigned_product hhour (by omega), unsigned_product hminute (by omega), hsec, UInt64.add_zero] at hcombine
  rw [hday64, hshift64, ← UInt64.ofNat_mul, ← UInt64.ofNat_add, ← UInt64.ofNat_add,
    ← UInt64.ofNat_add, ← UInt64.ofNat_add, ← UInt64.ofNat_shiftLeft _ _ (by omega), Nat.shiftLeft_eq] at hcombine
  rw [← hcombine]
  symm
  apply ofInt_of_eq
  unfold Fields.minuteSeconds
  rw [hnumber]
  omega

theorem combine_fields (h : f.Bounded) (h1 : 1 ≤ f.date.month) (h12 : f.date.month ≤ 12)
    : combine f.split = UInt64.ofInt (f.minuteSeconds * 2 ^ 20 + ⌊f.sec * 2 ^ 20⌋) := by
  have hsec : 0 ≤ f.sec * 2 ^ 20 := mul_nonneg h.sec (by positivity)
  have hmonth : 1 ≤ (f.date.month : Int) ∧ (f.date.month : Int) ≤ 12 := by omega
  have hfloor : truncate (f.split.sec * 2 ^ 20) = ⌊f.sec * 2 ^ 20⌋ := by
    unfold truncate
    exact if_pos hsec
  rw [combine_eq_add_sec hmonth.1 hmonth.2, hfloor, combine_minutes h h1 h12, UInt64.ofInt_add]

theorem truncate_intCast (i : Int) : truncate i = i := by
  unfold truncate
  rw [Int.floor_intCast, Int.ceil_intCast, ite_self]

theorem sub_ofInt (i offset : Int) : sub (UInt64.ofInt i) { t := offset } = UInt64.ofInt (i - offset * 2 ^ 20) := by
  have hoffset : secondsToInternal offset = offset * 2 ^ 20 := by
    have hcast : (offset : ℚ) * (1 <<< INTERNAL_SHIFT : UInt64).toNat = ((offset * 2 ^ 20 : Int) : ℚ) := by
      have hshift : (1 <<< INTERNAL_SHIFT : UInt64).toNat = 2 ^ 20 := rfl
      rw [hshift]
      push_cast
      rfl
    unfold secondsToInternal
    rw [hcast, truncate_intCast]
  unfold sub
  rw [hoffset, UInt64.sub_eq_add_neg, ← UInt64.ofInt_neg, ← UInt64.ofInt_add, ← Int.sub_eq_add_neg]

-- No time is left of these fields.
def Fields.Vanishes (f : Fields) : Prop :=
  if 1 ≤ f.date.month ∧ f.date.month ≤ 12 then f.sec < 2 ^ 44 ∧ 2 ^ 64 ∣ f.ticks else f.offset = 0

def Fields.stamp (f : Fields) : Option UInt64 := (castCombine f.split).map fun t => sub t { t := f.offset }

theorem stamp_eq_zero_iff (h : f.Bounded) : f.stamp = some 0 ↔ f.Vanishes := by
  have hshift : (1 <<< INTERNAL_SHIFT : UInt64).toNat = 2 ^ 20 := rfl
  unfold Fields.stamp castCombine Fields.Vanishes
  by_cases hmonth : 1 ≤ f.date.month ∧ f.date.month ≤ 12
  . have hin : ¬(f.split.month < 1 ∨ 12 < f.split.month) := by
      unfold Fields.split
      dsimp only
      omega
    have hpos : 0 ≤ f.sec * 2 ^ 20 := mul_nonneg h.sec (by positivity)
    have htruncate : truncate (f.split.sec * (1 <<< INTERNAL_SHIFT : UInt64).toNat) = ⌊f.sec * 2 ^ 20⌋ := by
      unfold truncate Fields.split
      rw [hshift]
      push_cast
      exact if_pos hpos
    have hfits : ⌊f.sec * 2 ^ 20⌋ < 2 ^ 64 ↔ f.sec < 2 ^ 44 := by
      rw [Int.floor_lt]
      push_cast
      constructor <;> intro hlt <;> linarith
    have hfloor : 0 ≤ ⌊f.sec * 2 ^ 20⌋ := Int.floor_nonneg.mpr hpos
    rw [if_neg hin, if_pos hmonth, htruncate, ← hfits]
    by_cases hlt : ⌊f.sec * 2 ^ 20⌋ < 2 ^ 64
    . rw [if_pos ⟨hfloor, hlt⟩, Option.map_some, Option.some.injEq, combine_fields h hmonth.1 hmonth.2, sub_ofInt,
        ofInt_eq_zero_iff]
      exact (and_iff_right hlt).symm
    . rw [if_neg fun hcast => hlt hcast.2]
      simp only [Option.map_none, reduceCtorEq, hlt, false_and]
  . have hout : f.split.month < 1 ∨ 12 < f.split.month := by
      unfold Fields.split
      dsimp only
      omega
    have hzero : (0 : UInt64) = UInt64.ofInt 0 := rfl
    have hoffset := h.offset
    rw [if_pos hout, if_neg hmonth, Option.map_some, Option.some.injEq, hzero, sub_ofInt, ← hzero, ofInt_eq_zero_iff]
    omega

-- A text that is read though it is not in ISO format
def IsSlip (nearest : ℚ → ℚ) (text : Bytes) (f : Fields) : Prop :=
  ∃ d sep t z, text = d ++ sep :: (t ++ z) ∧ IsRead nearest d sep t z f
    ∧ (¬(1 ≤ f.date.month ∧ f.date.month ≤ 12) ∨ IsUnfinished t f.hour ∨ IsTrailing z)

variable {text : Bytes}

theorem IsIso.ofIso_eq (hnearest : ∀ q, 0 ≤ q → 0 ≤ nearest q) (h : IsIso nearest text f)
    : ofIso nearest text false = f.stamp := by
  obtain ⟨d, sep, t, z, heq, hd, -, -, hsep, ht, hz⟩ := h
  unfold ofIso
  rw [heq, readIso_read hnearest ⟨hd, hsep, Or.inl ht, Or.inl hz⟩]
  rfl

theorem IsSlip.ofIso_eq (hnearest : ∀ q, 0 ≤ q → 0 ≤ nearest q) (h : IsSlip nearest text f)
    : ofIso nearest text false = f.stamp := by
  obtain ⟨d, sep, t, z, heq, hread, -⟩ := h
  unfold ofIso
  rw [heq, readIso_read hnearest hread]
  rfl

theorem IsSlip.bounded (hnearest : ∀ q, 0 ≤ q → 0 ≤ nearest q) (h : IsSlip nearest text f) : f.Bounded := by
  obtain ⟨d, sep, t, z, -, hread, -⟩ := h
  exact hread.bounded hnearest

theorem IsSlip.not_isIso (h : IsSlip nearest text f) (f' : Fields) : ¬IsIso nearest text f' := by
  rintro ⟨d', sep', t', z', heq', hd, h1, h12, hsep, ht, hz⟩
  obtain ⟨d, sep, t, z, heq, hread, hslip⟩ := h
  have hread' : IsRead nearest d' sep' t' z' f' := ⟨hd, hsep, Or.inl ht, Or.inl hz⟩
  rw [heq] at heq'
  obtain ⟨hdate, htime, hzone⟩ := hread.unique hread' heq'
  rcases hslip with hmonth | hunfinished | htrailing
  . rw [hdate] at hmonth
    exact hmonth ⟨h1, h12⟩
  . rw [htime] at hunfinished
    exact ht.not_unfinished hunfinished
  . rw [hzone] at htrailing
    exact hz.not_trailing htrailing

-- Everything else is refused.
theorem ofIso_cases (hnearest : ∀ q, 0 ≤ q → 0 ≤ nearest q) (text : Bytes)
    : (∃ f, IsIso nearest text f) ∨ (∃ f, IsSlip nearest text f) ∨ ofIso nearest text false = some 0 := by
  unfold ofIso
  cases hread : readIso nearest text false with
  | none => exact Or.inr (Or.inr rfl)
  | some res =>
    obtain ⟨sp, tz⟩ := res
    obtain ⟨d, sep, t, z, f, heq, hread, -, -⟩ := readIso_some hnearest hread
    by_cases hslip : ¬(1 ≤ f.date.month ∧ f.date.month ≤ 12) ∨ IsUnfinished t f.hour ∨ IsTrailing z
    . exact Or.inr (Or.inl ⟨f, d, sep, t, z, heq, hread, hslip⟩)
    . rw [not_or, not_or, not_not] at hslip
      obtain ⟨⟨h1, h12⟩, hunfinished, htrailing⟩ := hslip
      have ht : IsTime nearest t f.hour f.min f.sec :=
        hread.time.resolve_right fun htime => hunfinished htime.1
      have hz : IsZone z f.offset := hread.zone.resolve_right fun hzone => htrailing hzone.1
      exact Or.inl ⟨f, d, sep, t, z, heq, hread.date, h1, h12, hread.separator, ht, hz⟩

/--
The texts in ISO format give their timestamps, and no other ones do unless one of the slips makes them.
-/
theorem ofIso_spec (nearest : ℚ → ℚ) (hnearest : ∀ q, 0 ≤ q → 0 ≤ nearest q) (text : Bytes)
    : ((∀ f, IsIso nearest text f →
          ofIso nearest text false = (castCombine f.split).map fun t => sub t { t := f.offset })
          ∧
        ((∀ f, ¬IsIso nearest text f) → ofIso nearest text false = some 0))
        ↔
      ∀ f, IsSlip nearest text f → f.Vanishes := by
  constructor
  . rintro ⟨-, hother⟩ f hslip
    rw [← stamp_eq_zero_iff (hslip.bounded hnearest), ← hslip.ofIso_eq hnearest]
    exact hother hslip.not_isIso
  . intro hvanishes
    refine ⟨fun f h => h.ofIso_eq hnearest, ?_⟩
    intro hiso
    rcases ofIso_cases hnearest text with ⟨f, h⟩ | ⟨f, hslip⟩ | hzero
    . exact absurd h (hiso f)
    . rw [hslip.ofIso_eq hnearest, stamp_eq_zero_iff (hslip.bounded hnearest)]
      exact hvanishes f hslip
    . exact hzero

-- 2011-11-23T10
theorem ofIso_spec_unfinished
    : ¬((∀ f, IsIso id [50, 48, 49, 49, 45, 49, 49, 45, 50, 51, 84, 49, 48] f →
            ofIso id [50, 48, 49, 49, 45, 49, 49, 45, 50, 51, 84, 49, 48] false
              = (castCombine f.split).map fun t => sub t { t := f.offset })
          ∧
        ((∀ f, ¬IsIso id [50, 48, 49, 49, 45, 49, 49, 45, 50, 51, 84, 49, 48] f) →
          ofIso id [50, 48, 49, 49, 45, 49, 49, 45, 50, 51, 84, 49, 48] false = some 0)) := by
  have hdate : IsDate [50, 48, 49, 49, 45, 49, 49, 45, 50, 51] { year := 2011, month := 11, day := 23 } :=
    @IsDate.mk [50, 48, 49, 49] [45] [49, 49] [45] [50, 51] (by unfold IsDigits; decide +kernel) (by decide) (Or.inr rfl)
      (by unfold IsDigits; decide +kernel) (Or.inr rfl) (by unfold IsDigits; decide +kernel)
  have htime : IsUnfinished [49, 48] 10 := @IsUnfinished.mk [49, 48] [] (by unfold IsDigits; decide +kernel) (Or.inl rfl)
  have hslip : IsSlip id [50, 48, 49, 49, 45, 49, 49, 45, 50, 51, 84, 49, 48]
      { date := { year := 2011, month := 11, day := 23 }, hour := 10, min := 0, sec := 0, offset := 0 } :=
    ⟨_, 84, [49, 48], [], rfl, ⟨hdate, Or.inr rfl, Or.inr ⟨htime, rfl, rfl⟩, Or.inl .none⟩, Or.inr (Or.inl htime)⟩
  rintro ⟨-, hother⟩
  have hzero := hother hslip.not_isIso
  revert hzero
  decide +kernel

-- 2011-13-23T10:11:12
theorem ofIso_spec_month
    : ((∀ f, IsIso id [50, 48, 49, 49, 49, 51, 50, 51, 84, 49, 48, 49, 49, 49, 50] f →
          ofIso id [50, 48, 49, 49, 49, 51, 50, 51, 84, 49, 48, 49, 49, 49, 50] false
            = (castCombine f.split).map fun t => sub t { t := f.offset })
          ∧
        ((∀ f, ¬IsIso id [50, 48, 49, 49, 49, 51, 50, 51, 84, 49, 48, 49, 49, 49, 50] f) →
          ofIso id [50, 48, 49, 49, 49, 51, 50, 51, 84, 49, 48, 49, 49, 49, 50] false = some 0))
        ↔
      ∀ f, IsSlip id [50, 48, 49, 49, 49, 51, 50, 51, 84, 49, 48, 49, 49, 49, 50] f → f.Vanishes :=
  ofIso_spec id (fun _ h => h) _

end Stamp
end Time
end ObTools
