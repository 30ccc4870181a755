import ObTools.Time.Instant

/-!
This module contains what `Time::Split::normalise` makes of a split time: which carries it does, and for
which times the result is the one of the calendar.
-/

namespace ObTools
namespace Time

open Calendar (isLeap daysBeforeYear daysBeforeMonth Date)

section Settle

variable {α : Type} [CommRing α] [LinearOrder α] [IsStrictOrderedRing α] {low high n r : α} {y : Int}

theorem borrow_done (h : low ≤ r) : borrow low n y r = some (y, r) := by
  unfold borrow
  rw [if_neg (not_lt.mpr h)]

theorem carry_done (h : r ≤ high) : carry high n y r = some (y, r) := by
  unfold carry
  rw [if_neg (not_lt.mpr h)]

theorem settle_done (hlow : low ≤ r) (hhigh : r ≤ high) : settle low high n y r = some (y, r) := by
  unfold settle
  rw [borrow_done hlow]
  exact carry_done hhigh

theorem borrow_steps (hlow : low ≤ r) (hhigh : r < low + n) (k : ℕ) (hy : -2 ^ 31 ≤ y)
    : borrow low n y (r - k * n) = if -2 ^ 31 ≤ y - k then some (y - k, r) else none := by
  induction k generalizing y with
  | zero =>
    simp only [Nat.cast_zero, zero_mul, sub_zero]
    rw [borrow_done hlow, if_pos hy]
  | succ k ih =>
    have hn : 0 < n := by linarith
    have hk : (0 : α) ≤ k * n := mul_nonneg (Nat.cast_nonneg k) hn.le
    have hlt : r - (k + 1 : ℕ) * n < low := by
      push_cast
      linarith [add_mul (k : α) 1 n]
    have hnext : r - (k + 1 : ℕ) * n + n = r - k * n := by
      push_cast
      ring
    unfold borrow
    rw [if_pos hlt, hnext]
    split
    . next hmore =>
      rw [ih (by omega)]
      congr 1
      . push_cast
        rw [sub_sub, add_comm (1 : Int)]
      . push_cast
        rw [sub_sub, add_comm (1 : Int)]
    . next hover => rw [if_neg (by push_cast; omega)]

theorem carry_steps (hhigh : r ≤ high) (hn : high < r + n) (hpos : 0 < n) (k : ℕ) (hy : y < 2 ^ 31)
    : carry high n y (r + k * n) = if y + k < 2 ^ 31 then some (y + k, r) else none := by
  induction k generalizing y with
  | zero =>
    simp only [Nat.cast_zero, zero_mul, add_zero]
    rw [carry_done hhigh, if_pos hy]
  | succ k ih =>
    have hk : (0 : α) ≤ k * n := mul_nonneg (Nat.cast_nonneg k) hpos.le
    have hlt : high < r + (k + 1 : ℕ) * n := by
      push_cast
      linarith [add_mul (k : α) 1 n]
    have hnext : r + (k + 1 : ℕ) * n - n = r + k * n := by
      push_cast
      ring
    unfold carry
    rw [if_pos hlt, hnext]
    split
    . next hmore =>
      rw [ih (by omega)]
      congr 1
      . push_cast
        rw [add_assoc, add_comm (1 : Int)]
      . push_cast
        rw [add_assoc, add_comm (1 : Int)]
    . next hover => rw [if_neg (by push_cast; omega)]

/--
A value that is some whole units away from one between the bounds.
-/
theorem settle_eq (hlow : low ≤ r) (hlow' : r < low + n) (hhigh : r ≤ high) (hhigh' : high < r + n) (k : Int)
    (hy : IsInt y)
    : settle low high n y (r + k * n) = if IsInt (y + k) then some (y + k, r) else none := by
  have hn : 0 < n := by linarith
  unfold settle
  rcases Int.le_total 0 k with hk | hk
  . obtain ⟨k, rfl⟩ := Int.eq_ofNat_of_zero_le hk
    have hle : low ≤ r + (k : ℕ) * n := by
      have : (0 : α) ≤ k * n := mul_nonneg (Nat.cast_nonneg k) hn.le
      linarith
    have hcast : ((k : Int) : α) = (k : α) := Int.cast_natCast k
    rw [hcast, borrow_done hle]
    show carry high n y (r + k * n) = _
    rw [carry_steps hhigh hhigh' hn k hy.2]
    unfold IsInt at hy ⊢
    congr 1
    rw [eq_iff_iff]
    omega
  . obtain ⟨m, hm⟩ := Int.eq_ofNat_of_zero_le (show 0 ≤ -k by omega)
    obtain rfl : k = -(m : Int) := by omega
    have hcast : r + ((-(m : Int) : Int) : α) * n = r - m * n := by
      push_cast
      ring
    have hlt := hy.2
    rw [hcast, borrow_steps hlow hlow' m hy.1, Int.add_neg_eq_sub]
    by_cases hin : -2 ^ 31 ≤ y - m
    . have hint : IsInt (y - m) := ⟨hin, by omega⟩
      rw [if_pos hin, if_pos hint]
      exact carry_done hhigh
    . have hint : ¬IsInt (y - m) := fun hint => hin hint.1
      rw [if_neg hin, if_neg hint]
      rfl

end Settle

-- With bounds that are a unit apart, each number is carried.
theorem settle_int {y x low high n : Int} (hn : 0 < n) (hhigh : high = low + n - 1) (hy : IsInt y)
    : settle low high n y x
        =
      if IsInt (y + (x - low) / n) then some (y + (x - low) / n, low + (x - low) % n) else none := by
  have hpos := Int.emod_nonneg (x - low) (ne_of_gt hn)
  have hlt := Int.emod_lt_of_pos (x - low) hn
  have hx : x = low + (x - low) % n + ((x - low) / n : Int) * n := by
    have := Int.emod_add_mul_ediv (x - low) n
    rw [Int.mul_comm n] at this
    omega
  have hsettle := @settle_eq ℤ _ _ _ low high n (low + (x - low) % n) y (by omega) (by omega) (by omega) (by omega)
    ((x - low) / n) hy
  rw [Int.cast_id, ← hx] at hsettle
  exact hsettle

-- The seconds up to 59 in their minute
theorem settle_sec {y : Int} {x : ℚ} (hsec : x - 60 * ⌊x / 60⌋ ≤ 59) (hy : IsInt y)
    : settle 0 59 60 y x = if IsInt (y + ⌊x / 60⌋) then some (y + ⌊x / 60⌋, x - 60 * ⌊x / 60⌋) else none := by
  have hfloor := Int.floor_le (x / 60)
  have hlt := Int.lt_floor_add_one (x / 60)
  have h1 : (0 : ℚ) ≤ x - 60 * ⌊x / 60⌋ := by linarith
  have h2 : x - 60 * ⌊x / 60⌋ < 0 + 60 := by linarith
  have hsettle := settle_eq h1 h2 hsec (by linarith) ⌊x / 60⌋ hy
  rw [show x - 60 * (⌊x / 60⌋ : ℚ) + ⌊x / 60⌋ * 60 = x by ring] at hsettle
  exact hsettle

-- Behind 59 the seconds of the next minute are negative.
theorem settle_sec_neg {y y' : Int} {x x' : ℚ} (hsec : 59 < x - 60 * ⌊x / 60⌋) (hy : IsInt y)
    (h : settle 0 59 60 y x = some (y', x'))
    : x' = x - 60 * (⌊x / 60⌋ + 1) := by
  have hlt := Int.lt_floor_add_one (x / 60)
  have hn : (0 : ℚ) < 60 := by norm_num
  have hr : x - 60 * (⌊x / 60⌋ + 1) ≤ (59 : ℚ) := by linarith
  have hr' : (59 : ℚ) < x - 60 * (⌊x / 60⌋ + 1) + 60 := by linarith
  unfold settle at h
  rcases lt_or_ge ⌊x / 60⌋ 0 with hneg | hpos
  . -- The loop for negative seconds comes to more than 59 of them.
    obtain ⟨k, hk⟩ := Int.eq_ofNat_of_zero_le (show 0 ≤ -⌊x / 60⌋ by omega)
    have hcast : (⌊x / 60⌋ : ℚ) = -(k : ℚ) := by
      have : ⌊x / 60⌋ = -(k : Int) := by omega
      rw [this]
      push_cast
      rfl
    rw [hcast] at hsec hlt hr hr' ⊢
    have hx : x = (x + 60 * k) - k * 60 := by ring
    have hlow : (0 : ℚ) ≤ x + 60 * k := by linarith
    have hborrow := borrow_steps hlow (show x + 60 * k < 0 + 60 by linarith) k hy.1
    rw [← hx] at hborrow
    rw [hborrow] at h
    split at h
    . have hcarry := carry_steps hr hr' hn 1 (y := y - k) (by have := hy.2; omega)
      rw [show x - 60 * (-(k : ℚ) + 1) + (1 : ℕ) * 60 = x + 60 * k by push_cast; ring] at hcarry
      replace h : carry 59 60 (y - k) (x + 60 * k) = some (y', x') := h
      rw [hcarry] at h
      split at h
      . cases h
        rfl
      . contradiction
    . contradiction
  . obtain ⟨k, hk⟩ := Int.eq_ofNat_of_zero_le hpos
    have hcast : (⌊x / 60⌋ : ℚ) = (k : ℚ) := by
      rw [hk]
      exact Int.cast_natCast k
    rw [hcast] at hsec hlt hr hr' ⊢
    have hk0 : (0 : ℚ) ≤ k := Nat.cast_nonneg k
    rw [borrow_done (by linarith)] at h
    have hcarry := carry_steps hr hr' hn (k + 1) hy.2
    rw [show x - 60 * ((k : ℚ) + 1) + (k + 1 : ℕ) * 60 = x by push_cast; ring] at hcarry
    replace h : carry 59 60 y x = some (y', x') := h
    rw [hcarry] at h
    split at h
    . cases h
      rfl
    . contradiction

namespace Split

def minutes (sp : Split) : Int := sp.min + ⌊sp.sec / 60⌋
def hours (sp : Split) : Int := sp.hour + sp.minutes / 60
def days (sp : Split) : Int := sp.day + sp.hours / 24

def carried (sp : Split) : Split :=
  { year := sp.year + (sp.month - 1) / 12
    month := 1 + (sp.month - 1) % 12
    day := sp.days
    hour := sp.hours % 24
    min := sp.minutes % 60
    sec := sp.sec - 60 * ⌊sp.sec / 60⌋ }

/-
The fields are of type `int`, and the year stays between 1900 and 9999.
-/
structure Ranged (sp : Split) : Prop where
  year : IsInt sp.year
  month : IsInt sp.month
  day : IsInt sp.day
  hour : IsInt sp.hour
  min : IsInt sp.min
  first : 1900 ≤ sp.year + (sp.month - 1) / 12 ∧ sp.year + (sp.month - 1) / 12 ≤ 9999
  nonneg : 0 ≤ sp.instant
  last : sp.instant < Stamp.secondsBefore 10000

/-
No carry overflows, no second is behind 59 and, if the days go beyond the 28th, the 32 bit count of their
seconds does not wrap, the seconds have no more than 20 bits of fraction and the time is not misjudged.
-/
structure Settles (sp : Split) : Prop where
  sec : sp.sec - 60 * ⌊sp.sec / 60⌋ ≤ 59
  minutes : IsInt sp.minutes
  hours : IsInt sp.hours
  days : 1 ≤ sp.days ∧ sp.days ≤ 28
    ∨ 86400 * |sp.days - 1| < 2 ^ 32 ∧ ⌊sp.sec * 2 ^ 20⌋ = sp.sec * 2 ^ 20 ∧ ¬Stamp.IsMisjudged ⌊sp.instant⌋.toNat

variable {sp r : Split}

theorem firstOfMonth_carried (sp : Split) : sp.carried.firstOfMonth = sp.firstOfMonth := by
  unfold firstOfMonth carried
  dsimp only
  have hdiv : (1 + (sp.month - 1) % 12 - 1) / 12 = 0 := by omega
  have hmod : (1 + (sp.month - 1) % 12 - 1) % 12 = (sp.month - 1) % 12 := by omega
  rw [hdiv, hmod, Int.add_zero]

theorem minutesBefore_carried (sp : Split) : sp.carried.minutesBefore = sp.minutesBefore + ⌊sp.sec / 60⌋ := by
  unfold minutesBefore
  rw [firstOfMonth_carried]
  unfold carried days hours minutes
  dsimp only
  omega

theorem instant_carried (sp : Split) : sp.carried.instant = sp.instant := by
  unfold instant
  rw [minutesBefore_carried]
  unfold carried
  push_cast
  ring

theorem carried_spec (h : sp.Ranged) : sp.carried.Carried := by
  have hfloor := Int.floor_le (sp.sec / 60)
  have hlt := Int.lt_floor_add_one (sp.sec / 60)
  constructor
  . exact h.first
  . unfold carried
    dsimp only
    omega
  . unfold carried
    dsimp only
    omega
  . unfold carried
    dsimp only
    omega
  . unfold carried
    dsimp only
    constructor
    . linarith
    . linarith

-- There are not that many days.
theorem isInt_days (h : sp.Ranged) : IsInt sp.days := by
  have hcarried := carried_spec h
  obtain ⟨m, hm, hmlt, -⟩ := Stamp.toNat_ofSplit hcarried.first rfl
  rw [minutesBefore_first] at hm
  have hbound := Stamp.secondsBefore_lt
  have hinstant : sp.carried.instant = 60 * sp.carried.minutesBefore + sp.carried.sec := rfl
  rw [instant_carried] at hinstant
  have hnonneg := h.nonneg
  have hlast : sp.instant < (2 ^ 38 : Nat) := lt_trans h.last (by exact_mod_cast hbound)
  have hsec := hcarried.sec
  have h1 : (-1 : Int) < sp.carried.minutesBefore := by
    have : (-1 : ℚ) < sp.carried.minutesBefore := by linarith
    exact_mod_cast this
  have h2 : 60 * sp.carried.minutesBefore < 2 ^ 38 := by
    have : 60 * (sp.carried.minutesBefore : ℚ) < (2 ^ 38 : Nat) := by linarith
    exact_mod_cast this
  have hdays : sp.carried.day = sp.days := rfl
  rw [hdays] at hm
  unfold IsInt
  omega

/--
If no second is behind 59, the carries are those of the clock and the calendar.
-/
theorem normalise_eq (h : sp.Ranged) (hsec : sp.sec - 60 * ⌊sp.sec / 60⌋ ≤ 59)
    : sp.normalise = if IsInt sp.minutes ∧ IsInt sp.hours then sp.carried.fixDay else none := by
  have hyear : IsInt (sp.year + (sp.month - 1) / 12) := by
    have := h.first
    unfold IsInt
    omega
  unfold normalise
  rw [settle_sec hsec h.min]
  by_cases hmin : IsInt (sp.min + ⌊sp.sec / 60⌋)
  . rw [if_pos hmin]
    dsimp only [Option.bind_eq_bind, Option.bind_some]
    rw [settle_int (by decide) (by decide) h.hour, Int.sub_zero, Int.zero_add]
    by_cases hhour : IsInt (sp.hour + (sp.min + ⌊sp.sec / 60⌋) / 60)
    . have hday : IsInt (sp.day + (sp.hour + (sp.min + ⌊sp.sec / 60⌋) / 60) / 24) := isInt_days h
      rw [if_pos hhour]
      dsimp only [Option.bind_some]
      rw [settle_int (by decide) (by decide) h.day, Int.sub_zero, Int.zero_add, if_pos hday]
      dsimp only [Option.bind_some]
      rw [settle_int (by decide) (by decide) h.year, if_pos hyear]
      exact (if_pos ⟨hmin, hhour⟩).symm
    . rw [if_neg hhour]
      exact (if_neg (fun hint => hhour hint.2)).symm
  . rw [if_neg hmin]
    exact (if_neg (fun hint => hmin hint.1)).symm

theorem Carried.normalise_eq (h : r.Carried) (hsec : r.sec ≤ 59) : r.normalise = r.fixDay := by
  unfold normalise
  rw [settle_done h.sec.1 hsec]
  dsimp only [Option.bind_eq_bind, Option.bind_some]
  rw [settle_done h.min.1 h.min.2]
  dsimp only [Option.bind_some]
  rw [settle_done h.hour.1 h.hour.2]
  dsimp only [Option.bind_some]
  rw [settle_done h.month.1 h.month.2]
  rfl

-- A negative second stays or is rounded away.
theorem fixDay_neg (hsec : sp.sec < 0) (h : sp.fixDay = some r)
    : r.sec < 0 ∨ (∃ ts, r = Stamp.split ts) ∧ -1 < sp.sec * 2 ^ 20 := by
  have hstamp (ts : UInt64) (hts : Stamp.ofSplit { sp with day := 1 } = some ts) : -1 < sp.sec * 2 ^ 20 := by
    unfold Stamp.ofSplit at hts
    rw [Stamp.shift_cast] at hts
    dsimp only at hts
    split at hts
    . contradiction
    . next hle =>
      have hneg : ¬(0 ≤ sp.sec * 2 ^ 20) := not_le.mpr (mul_neg_of_neg_of_pos hsec (by norm_num))
      unfold truncate at hle
      rw [if_neg hneg, not_lt, Int.le_ceil_iff] at hle
      push_cast at hle
      linarith
  unfold fixDay at h
  split at h
  . obtain ⟨ts, hts, h⟩ := Option.bind_eq_some_iff.mp h
    cases h
    exact Or.inr ⟨⟨_, rfl⟩, hstamp ts hts⟩
  . split at h
    . obtain ⟨ts, hts, h⟩ := Option.bind_eq_some_iff.mp h
      cases h
      exact Or.inr ⟨⟨_, rfl⟩, hstamp ts hts⟩
    . cases h
      exact Or.inl hsec

/--
A second behind 59 is lost, or comes out negative.
-/
theorem normalise_late (hmin : IsInt sp.min) (hsec : 59 < sp.sec - 60 * ⌊sp.sec / 60⌋)
    (h : sp.normalise = some r) (hnormal : r.Normal)
    : r.instant ≠ sp.instant := by
  intro hinstant
  unfold normalise at h
  obtain ⟨⟨min, sec⟩, hsettle, h⟩ := Option.bind_eq_some_iff.mp h
  obtain ⟨⟨hour, min⟩, -, h⟩ := Option.bind_eq_some_iff.mp h
  obtain ⟨⟨day, hour⟩, -, h⟩ := Option.bind_eq_some_iff.mp h
  obtain ⟨⟨year, month⟩, -, h⟩ := Option.bind_eq_some_iff.mp h
  have hx := settle_sec_neg hsec hmin hsettle
  have hneg : sec < 0 := by
    have := Int.lt_floor_add_one (sp.sec / 60)
    linarith
  rcases fixDay_neg hneg h with hr | ⟨⟨ts, rfl⟩, hrange⟩
  . exact absurd hnormal.sec.1 (not_le.mpr hr)
  . -- Both times are in ticks, and so is the second.
    obtain ⟨n, hn⟩ := Stamp.exists_ticks ts
    rw [hinstant] at hn
    dsimp only at hrange
    have hticks : sec * 2 ^ 20
        = ((n - 60 * sp.minutesBefore * 2 ^ 20 - 60 * (⌊sp.sec / 60⌋ + 1) * 2 ^ 20 : Int) : ℚ) := by
      unfold instant at hn
      push_cast
      rw [hx, ← hn]
      ring
    have hlt : sec * 2 ^ 20 < 0 := mul_neg_of_neg_of_pos hneg (by norm_num)
    rw [hticks] at hrange hlt
    have h1 : -1 < n - 60 * sp.minutesBefore * 2 ^ 20 - 60 * (⌊sp.sec / 60⌋ + 1) * 2 ^ 20 := by exact_mod_cast hrange
    have h2 : n - 60 * sp.minutesBefore * 2 ^ 20 - 60 * (⌊sp.sec / 60⌋ + 1) * 2 ^ 20 < 0 := by exact_mod_cast hlt
    omega

theorem fixDay_done (h : 1 ≤ sp.day ∧ sp.day ≤ 28) : sp.fixDay = some sp := by
  unfold fixDay
  rw [if_neg (not_lt.mpr h.1), if_neg (not_lt.mpr h.2)]

/-
The day fix is done once more for the last days of a month, with the same stamp.
-/
theorem Normal.fixDay_eq (hr : r.Normal) (hmin : 0 ≤ r.instant) (hmax : r.instant < Stamp.secondsBefore 10000)
    (hticks : ⌊r.instant * 2 ^ 20⌋ = r.instant * 2 ^ 20) (hjudged : ¬Stamp.IsMisjudged ⌊r.instant⌋.toNat)
    : r.fixDay = some r := by
  by_cases hday : 1 ≤ r.day ∧ r.day ≤ 28
  . exact fixDay_done hday
  . obtain ⟨r', hfix, hnormal, hiff⟩ := fixDay_spec hr.toCarried hday hmin hmax
    have hdays := (Calendar.daysInMonth_bounds (isLeap r.year.toNat) r.month.toNat).2
    have hlast := hr.day
    have hsmall : 86400 * |r.day - 1| < 2 ^ 32 := by
      rw [abs_of_nonneg (by omega)]
      omega
    rw [hfix, hnormal.eq_of_instant_eq hr (hiff.mpr ⟨hsmall, (floor_sec_iff r).mpr hticks, hjudged⟩)]

/--
The time comes out in its ranges, for the same instant and for good, if and only if it settles.
-/
theorem normalise_spec (sp : Split) (h : sp.Ranged)
    : (∃ r, sp.normalise = some r ∧ r.Normal ∧ r.instant = sp.instant ∧ r.normalise = some r) ↔ sp.Settles := by
  have hcarried := carried_spec h
  have hinstant := instant_carried sp
  have hmin : 0 ≤ sp.carried.instant := by
    rw [hinstant]
    exact h.nonneg
  have hmax : sp.carried.instant < Stamp.secondsBefore 10000 := by
    rw [hinstant]
    exact h.last
  have hticks : ⌊sp.carried.sec * 2 ^ 20⌋ = sp.carried.sec * 2 ^ 20 ↔ ⌊sp.sec * 2 ^ 20⌋ = sp.sec * 2 ^ 20 := by
    rw [floor_sec_iff, floor_sec_iff, hinstant]
  constructor
  . rintro ⟨r, hr, hnormal, heq, -⟩
    have hsec : sp.sec - 60 * ⌊sp.sec / 60⌋ ≤ 59 := by
      rw [← not_lt]
      intro hsec
      exact normalise_late h.min hsec hr hnormal heq
    rw [normalise_eq h hsec] at hr
    split at hr
    . next hint =>
      refine ⟨hsec, hint.1, hint.2, ?_⟩
      by_cases hday : 1 ≤ sp.days ∧ sp.days ≤ 28
      . exact Or.inl hday
      . obtain ⟨r', hr', -, hiff⟩ := fixDay_spec hcarried hday hmin hmax
        obtain rfl : r' = r := Option.some.inj (hr'.symm.trans hr)
        rw [hinstant, hticks] at hiff
        exact Or.inr (hiff.mp heq)
    . contradiction
  . rintro ⟨hsec, hminutes, hhours, hdays⟩
    have hnormalise := normalise_eq h hsec
    rw [if_pos ⟨hminutes, hhours⟩] at hnormalise
    by_cases hday : 1 ≤ sp.days ∧ sp.days ≤ 28
    . have hfix : sp.carried.fixDay = some sp.carried := fixDay_done hday
      have hnormal : sp.carried.Normal :=
        { hcarried with
          day := ⟨hday.1, Int.le_trans hday.2 (by exact_mod_cast (Calendar.daysInMonth_bounds _ _).1)⟩ }
      refine ⟨sp.carried, by rw [hnormalise, hfix], hnormal, hinstant, ?_⟩
      rw [hcarried.normalise_eq hsec, hfix]
    . obtain ⟨r, hr, hnormal, hiff⟩ := fixDay_spec hcarried hday hmin hmax
      have hgood := hdays.resolve_left hday
      have heq : r.instant = sp.carried.instant := by
        rw [hiff, hinstant, hticks]
        exact hgood
      have hsecond : r.sec ≤ 59 := by
        rw [(hnormal.toCarried.sec_eq hcarried heq).2]
        exact hsec
      refine ⟨r, by rw [hnormalise, hr], hnormal, heq.trans hinstant, ?_⟩
      rw [hnormal.toCarried.normalise_eq hsecond]
      rw [hinstant] at heq
      apply hnormal.fixDay_eq
      . rw [heq]
        exact h.nonneg
      . rw [heq]
        exact h.last
      . rw [heq, ← floor_sec_iff]
        exact hgood.2.1
      . rw [heq]
        exact hgood.2.2

theorem le_secondsBefore : 2 ^ 37 ≤ Stamp.secondsBefore 10000 := by
  have hmax : Stamp.secondsBefore 10000 = 86400 * (365 * 8100 + Stamp.leapsBefore 8100) := Stamp.secondsBefore_1900 8100
  omega

theorem lt_secondsBefore {x : ℚ} (h : x < 2 ^ 37) : x < Stamp.secondsBefore 10000 := by
  have hle : (2 : ℚ) ^ 37 ≤ Stamp.secondsBefore 10000 := by exact_mod_cast le_secondsBefore
  linarith

-- The 31st of a month, and more, in the year that follows
theorem normalise_spec_carries
    : ∃ r, normalise { year := 2000, month := 14, day := 31, hour := -1, min := 61, sec := 30.5 } = some r ∧ r.Normal
        ∧ r.instant = instant { year := 2000, month := 14, day := 31, hour := -1, min := 61, sec := 30.5 }
        ∧ r.normalise = some r := by
  have hnumber : (Date.mk 2001 2 1).number = (Date.mk 1900 1 1).number + 36921 := by
    have hyear : daysBeforeYear 2001 = daysBeforeYear 1900 + 365 * 101 + Stamp.leapsBefore 101 := Stamp.daysBeforeYear_1900 101
    have hleaps : Stamp.leapsBefore 101 = 25 := by decide
    have hmonth : daysBeforeMonth (isLeap 2001) 2 = 31 := by decide
    rw [Stamp.first_number]
    unfold Date.number Date.yearDay
    dsimp only
    omega
  have hminutes : minutesBefore { year := 2000, month := 14, day := 31, hour := -1, min := 61, sec := 30.5 }
      = 53209441 := by
    show 1440 * (((Date.mk 2001 2 1).number : Int) - (Date.mk 1900 1 1).number + 30) + 60 * -1 + 61 = 53209441
    omega
  have hinstant : instant { year := 2000, month := 14, day := 31, hour := -1, min := 61, sec := 30.5 }
      = 3192566490.5 := by
    unfold instant
    rw [hminutes]
    norm_num
  have hlast : (3192566490 : Int).toNat < Stamp.secondsBefore 10000 := Nat.lt_of_lt_of_le (by decide) le_secondsBefore
  have hfloor : ⌊(30.5 : ℚ) / 60⌋ = 0 := by norm_num [Int.floor_eq_iff]
  have hseconds : ⌊(3192566490.5 : ℚ)⌋ = 3192566490 := by norm_num [Int.floor_eq_iff]
  apply (normalise_spec _ _).mpr
  . constructor
    . rw [hfloor]
      norm_num
    . show IsInt (61 + ⌊(30.5 : ℚ) / 60⌋)
      rw [hfloor]
      decide
    . show IsInt (-1 + (61 + ⌊(30.5 : ℚ) / 60⌋) / 60)
      rw [hfloor]
      decide
    . right
      refine ⟨?_, ?_, ?_⟩
      . show 86400 * |31 + (-1 + (61 + ⌊(30.5 : ℚ) / 60⌋) / 60) / 24 - 1| < 2 ^ 32
        rw [hfloor]
        decide
      . norm_num
      . rw [hinstant, hseconds, Stamp.isMisjudged_iff hlast rfl]
        decide
  . constructor
    . decide
    . decide
    . decide
    . decide
    . decide
    . decide
    . rw [hinstant]
      norm_num
    . rw [hinstant]
      apply lt_secondsBefore
      norm_num

-- 6:42 and 59.5 seconds
theorem normalise_late_second
    : ¬(∀ sp : Split, sp.Ranged → 86400 * |sp.day| < 2 ^ 31
        → ∃ r, sp.normalise = some r ∧ r.Normal ∧ r.instant = sp.instant ∧ r.normalise = some r) := by
  intro h
  have hnumber : (Date.mk 1967 1 1).number = (Date.mk 1900 1 1).number + 24471 := by
    have hyear : daysBeforeYear 1967 = daysBeforeYear 1900 + 365 * 67 + Stamp.leapsBefore 67 := Stamp.daysBeforeYear_1900 67
    have hleaps : Stamp.leapsBefore 67 = 16 := by decide
    have hmonth : daysBeforeMonth (isLeap 1967) 1 = 0 := rfl
    rw [Stamp.first_number]
    unfold Date.number Date.yearDay
    dsimp only
    omega
  have hminutes : minutesBefore { year := 1967, month := 1, day := 15, hour := 6, min := 42, sec := 59.5 }
      = 35258802 := by
    show 1440 * (((Date.mk 1967 1 1).number : Int) - (Date.mk 1900 1 1).number + 14) + 60 * 6 + 42 = 35258802
    omega
  have hinstant : instant { year := 1967, month := 1, day := 15, hour := 6, min := 42, sec := 59.5 }
      = 2115528179.5 := by
    unfold instant
    rw [hminutes]
    norm_num
  have hfloor : ⌊(59.5 : ℚ) / 60⌋ = 0 := by norm_num [Int.floor_eq_iff]
  obtain ⟨r, hr, hnormal, heq, -⟩ := h { year := 1967, month := 1, day := 15, hour := 6, min := 42, sec := 59.5 } (by
    constructor
    . decide
    . decide
    . decide
    . decide
    . decide
    . decide
    . rw [hinstant]
      norm_num
    . rw [hinstant]
      apply lt_secondsBefore
      norm_num) (by decide)
  apply normalise_late _ _ hr hnormal heq
  . decide
  . rw [hfloor]
    norm_num

end Split

end Time
end ObTools
