import Mathlib.Data.List.Induction
import ObTools.Lib.Calendar
import ObTools.Lib.Delimiter
import ObTools.Text.Convert
import ObTools.Time.ReadIso

/-!
This module contains the grammar of timestamps in ISO format, and the proof which texts are read.
-/

namespace ObTools
namespace Time
namespace Stamp

open Calendar (Date)

def IsDigits (n : Nat) (s : Bytes) : Prop := s.length = n ∧ ∀ c ∈ s, Digits.isDigit 10 c = true

def IsOptional (c : UInt8) (s : Bytes) : Prop := s = [] ∨ s = [c]

-- YYYY[-]MM[-]DD from the year 1900 on
inductive IsDate : Bytes → Date → Prop
  | mk {y dash m dash' d : Bytes} (year : IsDigits 4 y) (first : 1900 ≤ Digits.ofBytes 10 y)
      (before_month : IsOptional 45 dash) (month : IsDigits 2 m) (before_day : IsOptional 45 dash')
      (day : IsDigits 2 d)
    : IsDate (y ++ (dash ++ (m ++ (dash' ++ d))))
        { year := Digits.ofBytes 10 y, month := Digits.ofBytes 10 m, day := Digits.ofBytes 10 d }

-- HH[:]MM[:]SS with two or more characters in the seconds
inductive IsTime (nearest : ℚ → ℚ) : Bytes → Nat → Nat → ℚ → Prop
  | mk {h colon m colon' s : Bytes} (hour : IsDigits 2 h) (before_min : IsOptional 58 colon)
      (min : IsDigits 2 m) (before_sec : IsOptional 58 colon') (length : 2 ≤ s.length)
      (sec : isDecimal s = true)
    : IsTime nearest (h ++ (colon ++ (m ++ (colon' ++ s)))) (Digits.ofBytes 10 h) (Digits.ofBytes 10 m)
        (atof nearest s)

def signed (sign : UInt8) (n : Nat) : Int := if sign = 45 then -n else n

-- Nothing, Z or {+|-}hh[[:]mm], with the offset in seconds
inductive IsZone : Bytes → Int → Prop
  | none : IsZone [] 0
  | utc : IsZone [90] 0
  | hours {sign : UInt8} {h : Bytes} (hsign : sign = 43 ∨ sign = 45) (hour : IsDigits 2 h)
    : IsZone (sign :: h) (signed sign (3600 * Digits.ofBytes 10 h))
  | minutes {sign : UInt8} {h colon m : Bytes} (hsign : sign = 43 ∨ sign = 45) (hour : IsDigits 2 h)
      (before_min : IsOptional 58 colon) (min : IsDigits 2 m)
    : IsZone (sign :: (h ++ (colon ++ m)))
        (signed sign (3600 * Digits.ofBytes 10 h + 60 * Digits.ofBytes 10 m))

structure Fields where
  date : Date
  hour : Nat
  min : Nat
  sec : ℚ
  offset : Int

def Fields.split (f : Fields) : Split where
  year := f.date.year
  month := f.date.month
  day := f.date.day
  hour := f.hour
  min := f.min
  sec := f.sec

def IsSeparator (c : UInt8) : Prop := c = 32 ∨ c = 84

-- A timestamp in ISO format
def IsIso (nearest : ℚ → ℚ) (text : Bytes) (f : Fields) : Prop :=
  ∃ d sep t z, text = d ++ sep :: (t ++ z) ∧ IsDate d f.date ∧ 1 ≤ f.date.month ∧ f.date.month ≤ 12
    ∧ IsSeparator sep ∧ IsTime nearest t f.hour f.min f.sec ∧ IsZone z f.offset

-- A time that stops after the hour
inductive IsUnfinished : Bytes → Nat → Prop
  | mk {h colon : Bytes} (hour : IsDigits 2 h) (before_min : IsOptional 58 colon)
    : IsUnfinished (h ++ colon) (Digits.ofBytes 10 h)

-- Something that follows the Z
inductive IsTrailing : Bytes → Prop
  | mk (c : UInt8) (rest : Bytes) : IsTrailing (90 :: c :: rest)

/-
The reading of one field.
-/

variable {n : Nat} {c : UInt8} {s rest text : Bytes}

theorem ofBytes_lt (s : Bytes) (hs : ∀ c ∈ s, Digits.isDigit 10 c = true)
    : Digits.ofBytes 10 s < 10 ^ s.length := by
  induction s using List.reverseRecOn with
  | nil => decide
  | append_singleton s c ih =>
    have hvalue : Digits.value c < 10 := of_decide_eq_true (hs c (by simp))
    have hinit := ih fun c hc => hs c (by simp [hc])
    rw [Digits.ofBytes_snoc, List.length_append, List.length_singleton, Nat.pow_succ]
    omega

theorem atoi_digits (hs : IsDigits n s) (hn : n ≤ 4) : (Text.atoi s).toInt = (Digits.ofBytes 10 s : Nat) := by
  have hall : s.takeWhile (Digits.isDigit 10) = s := List.takeWhile_eq_self_iff.mpr hs.2
  have hlt : Digits.ofBytes 10 s < 10 ^ 4 := by
    apply Nat.lt_of_lt_of_le (ofBytes_lt s hs.2)
    rw [hs.1]
    exact Nat.pow_le_pow_right (by decide) hn
  unfold Text.atoi
  rw [Text.dropWhile_isSpace_digits (by decide) hs.2, Text.scanSign_digits (by decide) hs.2]
  dsimp only
  rw [hall, if_neg Bool.false_ne_true, Int32.toInt_ofInt]
  generalize Digits.ofBytes 10 s = k at hlt ⊢
  have hsize : Int32.size = 2 ^ 32 := rfl
  rw [hsize, Int.bmod_eq_of_le] <;> omega

theorem readPart_digits (hs : IsDigits n s) (hpos : 0 < n) (hn : n ≤ 4) (rest : Bytes)
    : readPart (s ++ rest) n = (((Digits.ofBytes 10 s : Nat) : Int), rest) := by
  have hne : s ++ rest ≠ [] := by
    intro heq
    have := congrArg List.length heq
    rw [List.length_append, hs.1, List.length_nil] at this
    omega
  have htake : (s ++ rest).take n = s := List.take_left' hs.1
  have hdrop : (s ++ rest).drop n = rest := List.drop_left' hs.1
  have hlength : ¬(s ++ rest).length < n := by
    rw [List.length_append, hs.1]
    omega
  unfold readPart
  rw [if_neg hne, if_neg hlength, htake, if_pos (List.all_eq_true.mpr hs.2), hdrop, atoi_digits hs hn]

inductive PartRead (n : Nat) (text : Bytes) : Int × Bytes → Prop
  | noData (heq : text = []) : PartRead n text (OT_NO_DATA, text)
  | badData (hne : text ≠ []) : PartRead n text (OT_BAD_DATA, text)
  | digits {s rest : Bytes} (hs : IsDigits n s) (heq : text = s ++ rest)
    : PartRead n text (((Digits.ofBytes 10 s : Nat) : Int), rest)

theorem readPart_cases (text : Bytes) (hn : n ≤ 4) : PartRead n text (readPart text n) := by
  unfold readPart
  split
  . next heq => exact .noData heq
  . next hne =>
    split
    . exact .badData hne
    . next hle =>
      split
      . next hall =>
        have hs : IsDigits n (text.take n) := ⟨by rw [List.length_take]; omega, List.all_eq_true.mp hall⟩
        rw [atoi_digits hs hn]
        exact .digits hs (List.take_append_drop n text).symm
      . exact .badData hne

theorem readFiller_optional (hs : IsOptional c s) (hrest : rest.head? ≠ some c)
    : readFiller (s ++ rest) c = (decide (s ≠ []), rest) := by
  unfold readFiller
  rcases hs with rfl | rfl
  . rw [List.nil_append, if_neg hrest]
    rfl
  . rw [List.singleton_append, List.head?_cons, if_pos rfl]
    rfl

theorem readFiller_cases (text : Bytes) (c : UInt8)
    : ∃ s, IsOptional c s ∧ text = s ++ (readFiller text c).2 ∧ (readFiller text c).1 = decide (s ≠ []) := by
  unfold readFiller
  split
  . next hhead =>
    cases text with
    | nil => cases hhead
    | cons d text =>
      cases hhead
      exact ⟨[c], Or.inr rfl, rfl, rfl⟩
  . exact ⟨[], Or.inl rfl, rfl, rfl⟩

-- A digit is no filler
theorem head?_digits (hs : IsDigits n s) (hpos : 0 < n) (hc : Digits.isDigit 10 c = false) (rest : Bytes)
    : (s ++ rest).head? ≠ some c := by
  cases s with
  | nil =>
    have := hs.1
    rw [List.length_nil] at this
    omega
  | cons d s =>
    intro heq
    rw [List.cons_append, List.head?_cons, Option.some.injEq] at heq
    have := hs.2 d (List.mem_cons_self ..)
    rw [heq, hc] at this
    exact Bool.false_ne_true this

/-
The date.
-/

variable {nearest : ℚ → ℚ} {sp sp' : Split} {date : Date} {d t z : Bytes}

def setDate (sp : Split) (date : Date) : Split :=
  { sp with year := date.year, month := date.month, day := date.day }

theorem readDate_date (hd : IsDate d date) (rest : Bytes) (sp : Split)
    : readDate (d ++ rest) sp = some (setDate sp date, rest) := by
  obtain ⟨year, first, before_month, month, before_day, day⟩ := hd
  have hminus : Digits.isDigit 10 45 = false := by decide
  unfold readDate
  rw [List.append_assoc, List.append_assoc, List.append_assoc, List.append_assoc]
  dsimp only
  rw [readPart_digits year (by decide) (by decide)]
  dsimp only
  rw [if_neg (by omega), readFiller_optional before_month (head?_digits month (by decide) hminus _)]
  dsimp only
  rw [readPart_digits month (by decide) (by decide)]
  dsimp only
  rw [if_neg (by omega), readFiller_optional before_day (head?_digits day (by decide) hminus _)]
  dsimp only
  rw [readPart_digits day (by decide) (by decide)]
  dsimp only
  rw [if_neg (by omega)]
  rfl

theorem readDate_some (h : readDate text sp = some (sp', rest))
    : ∃ d date, IsDate d date ∧ text = d ++ rest ∧ sp' = setDate sp date := by
  unfold readDate at h
  have hyear := readPart_cases text (show 4 ≤ 4 by decide)
  generalize readPart text 4 = res at h hyear
  cases hyear with
  | noData => cases h
  | badData => cases h
  | @digits y text1 year heq1 =>
    dsimp only at h
    split at h
    . cases h
    . next first =>
      obtain ⟨dash, before_month, heq2, -⟩ := readFiller_cases text1 45
      have hmonth := readPart_cases (readFiller text1 45).2 (show 2 ≤ 4 by decide)
      generalize readPart (readFiller text1 45).2 2 = res at h hmonth
      cases hmonth with
      | noData => cases h
      | badData => cases h
      | @digits m text2 month heq3 =>
        dsimp only at h
        rw [if_neg (by omega)] at h
        obtain ⟨dash', before_day, heq4, -⟩ := readFiller_cases text2 45
        have hday := readPart_cases (readFiller text2 45).2 (show 2 ≤ 4 by decide)
        generalize readPart (readFiller text2 45).2 2 = res at h hday
        cases hday with
        | noData => cases h
        | badData => cases h
        | @digits d text3 day heq5 =>
          dsimp only at h
          rw [if_neg (by omega)] at h
          cases h
          refine ⟨_, _, .mk year (by omega) before_month month before_day day, ?_, rfl⟩
          rw [heq1, heq2, heq3, heq4, heq5]
          simp only [List.append_assoc]

/-
The time.
-/

variable {hour min : Nat} {sec : ℚ}

theorem isDecimal_head (hs : isDecimal s = true) : s.head? ≠ some 58 := by
  cases s with
  | nil => exact nofun
  | cons c s =>
    intro heq
    rw [List.head?_cons, Option.some.injEq] at heq
    rw [heq] at hs
    simp [isDecimal] at hs
    have := hs.1.1
    contradiction

theorem atof_nonneg (hnearest : ∀ q, 0 ≤ q → 0 ≤ nearest q) (s : Bytes) : 0 ≤ atof nearest s := by
  unfold atof
  apply hnearest
  positivity

theorem IsTime.sec_nonneg (hnearest : ∀ q, 0 ≤ q → 0 ≤ nearest q) (ht : IsTime nearest t hour min sec) : 0 ≤ sec := by
  cases ht
  exact atof_nonneg hnearest _

-- The seconds go up to the end.
theorem readPartF_length (nearest : ℚ → ℚ) (s : Bytes)
    : readPartF nearest s s.length
        =
      if s = [] then
        ((OT_NO_DATA : ℚ), s)
      else if 2 ≤ s.length ∧ isDecimal s = true then
        (atof nearest s, [])
      else
        ((OT_BAD_DATA : ℚ), s) := by
  unfold readPartF
  rw [List.take_length, List.drop_length, if_neg (Nat.lt_irrefl _)]
  split
  . rfl
  . by_cases hshort : s.length < 2
    . rw [if_pos hshort, if_neg (by omega)]
    . rw [if_neg hshort]
      congr 1
      simp only [eq_iff_iff, iff_and_self]
      omega

theorem not_error {q : ℚ} {lenient : Bool} (hpos : 0 ≤ q)
    : ¬(q = (OT_BAD_DATA : Int) ∨ (q = (OT_NO_DATA : Int) ∧ ¬lenient = true)) := by
  rintro (hbad | ⟨hno, -⟩)
  . rw [hbad] at hpos
    exact absurd hpos (by decide)
  . rw [hno] at hpos
    exact absurd hpos (by decide)

theorem readTime_time (ht : IsTime nearest t hour min sec) (hpos : 0 ≤ sec) (sp : Split)
    : readTime nearest t false true sp = some ({ sp with hour := hour, min := min, sec := sec }, []) := by
  obtain ⟨hhour, before_min, hmin, before_sec, length, hsec⟩ := ht
  rename_i h colon m colon' s
  have hcolon : Digits.isDigit 10 58 = false := by decide
  have hne : s ≠ [] := by
    intro heq
    rw [heq] at length
    contradiction
  have hread : readPartF nearest s s.length = (atof nearest s, []) := by
    rw [readPartF_length, if_neg hne, if_pos ⟨length, hsec⟩]
  unfold readTime
  rw [readPart_digits hhour (by decide) (by decide)]
  dsimp only
  rw [if_neg (by unfold OT_BAD_DATA OT_NO_DATA; omega), if_pos (by omega),
    readFiller_optional before_min (head?_digits hmin (by decide) hcolon _)]
  dsimp only
  rw [readPart_digits hmin (by decide) (by decide)]
  dsimp only
  rw [if_neg (by unfold OT_BAD_DATA OT_NO_DATA; omega), if_pos (by omega),
    readFiller_optional before_sec (isDecimal_head hsec), if_pos rfl]
  dsimp only
  rw [hread]
  rw [if_neg (not_error hpos), if_pos hpos]

theorem readTime_unfinished (ht : IsUnfinished t hour) (sp : Split)
    : readTime nearest t false true sp = some ({ sp with hour := hour }, []) := by
  obtain ⟨hhour, before_min⟩ := ht
  rename_i h colon
  have hrest : readFiller (colon ++ []) 58 = (decide (colon ≠ []), []) := readFiller_optional before_min nofun
  rw [List.append_nil] at hrest
  unfold readTime
  rw [readPart_digits hhour (by decide) (by decide)]
  dsimp only
  rw [if_neg (by unfold OT_BAD_DATA OT_NO_DATA; omega), if_pos (by omega), hrest]
  rfl

theorem readTime_some (hnearest : ∀ q, 0 ≤ q → 0 ≤ nearest q)
    (h : readTime nearest t false true sp = some (sp', []))
    : (∃ hour min sec, IsTime nearest t hour min sec ∧ sp' = { sp with hour := hour, min := min, sec := sec })
        ∨
      ∃ hour, IsUnfinished t hour ∧ sp' = { sp with hour := hour } := by
  unfold readTime at h
  have hhour := readPart_cases t (show 2 ≤ 4 by decide)
  generalize readPart t 2 = res at h hhour
  cases hhour with
  | noData => cases h
  | badData => cases h
  | @digits hh text1 hhour heq1 =>
    dsimp only at h
    rw [if_neg (by unfold OT_BAD_DATA OT_NO_DATA; omega), if_pos (by omega)] at h
    obtain ⟨colon, before_min, heq2, -⟩ := readFiller_cases text1 58
    generalize (readFiller text1 58).2 = text2 at h heq2
    have hmin := readPart_cases text2 (show 2 ≤ 4 by decide)
    generalize readPart text2 2 = res at h hmin
    cases hmin with
    | noData hnil =>
      right
      rw [heq1, heq2, hnil, List.append_nil]
      refine ⟨_, .mk hhour before_min, ?_⟩
      dsimp only at h
      rw [if_neg (by unfold OT_BAD_DATA OT_NO_DATA; omega), if_neg (by decide), hnil] at h
      cases h
      rfl
    | badData =>
      dsimp only at h
      rw [if_pos (Or.inl rfl)] at h
      cases h
    | @digits m text3 hmin heq3 =>
      left
      dsimp only at h
      rw [if_neg (by unfold OT_BAD_DATA OT_NO_DATA; omega), if_pos (by omega), if_pos rfl] at h
      obtain ⟨colon', before_sec, heq4, -⟩ := readFiller_cases text3 58
      generalize (readFiller text3 58).2 = s at h heq4
      rw [readPartF_length] at h
      split at h
      . dsimp only at h
        rw [if_pos (Or.inr ⟨rfl, Bool.false_ne_true⟩)] at h
        cases h
      . split at h
        . next hsec =>
          have htime := @IsTime.mk nearest _ _ _ _ _ hhour before_min hmin before_sec hsec.1 hsec.2
          rw [← heq4, ← heq3, ← heq2, ← heq1] at htime
          refine ⟨_, _, _, htime, ?_⟩
          have hpos := atof_nonneg hnearest s
          rw [if_neg (not_error hpos), if_pos hpos] at h
          cases h
          rfl
        . dsimp only at h
          rw [if_pos (Or.inl rfl)] at h
          cases h

/-
The timezone.
-/

variable {offset : Int}

theorem readPart_nil (n : Nat) : readPart [] n = (OT_NO_DATA, []) := rfl

theorem signed_eq (sign : UInt8) (h m : Nat)
    : (if sign = 45 then (-1 : ℚ) else 1) * ((h : Int) * 3600 + (m : Int) * 60)
        = (signed sign (3600 * h + 60 * m) : Int) := by
  unfold signed
  split <;> push_cast <;> ring

theorem readTimezoneOffset_hours {h : Bytes} (sign : UInt8) (hour : IsDigits 2 h)
    : readTimezoneOffset (sign :: h) = some { t := (signed sign (3600 * Digits.ofBytes 10 h) : Int) } := by
  have hread := readPart_digits hour (by decide) (by decide) []
  have hfiller : readFiller [] 58 = (false, []) := rfl
  have hsigned := signed_eq sign (Digits.ofBytes 10 h) 0
  rw [List.append_nil] at hread
  rw [Nat.mul_zero, Nat.add_zero] at hsigned
  rw [← hsigned]
  unfold readTimezoneOffset
  dsimp only
  generalize (if sign = 45 then (-1 : ℚ) else 1) = factor
  rw [hread]
  dsimp only
  rw [if_neg (by omega), hfiller]
  dsimp only
  rw [readPart_nil, if_neg (fun h => Bool.false_ne_true h.2), if_pos rfl]
  rfl

theorem readTimezoneOffset_minutes {h colon m : Bytes} (sign : UInt8) (hour : IsDigits 2 h)
    (before_min : IsOptional 58 colon) (min : IsDigits 2 m)
    : readTimezoneOffset (sign :: (h ++ (colon ++ m)))
        = some { t := (signed sign (3600 * Digits.ofBytes 10 h + 60 * Digits.ofBytes 10 m) : Int) } := by
  have hread := readPart_digits min (by decide) (by decide) []
  have hhead := head?_digits min (by decide) (show Digits.isDigit 10 58 = false by decide) []
  rw [List.append_nil] at hread hhead
  rw [← signed_eq]
  unfold readTimezoneOffset
  dsimp only
  generalize (if sign = 45 then (-1 : ℚ) else 1) = factor
  rw [readPart_digits hour (by decide) (by decide)]
  dsimp only
  rw [if_neg (by omega), readFiller_optional before_min hhead]
  dsimp only
  rw [hread]
  dsimp only
  rw [if_neg (fun h => by omega), if_pos rfl, if_neg (by omega)]

theorem isZoneStart_sign {sign : UInt8} (hsign : sign = 43 ∨ sign = 45) : isZoneStart sign = true ∧ sign ≠ 90 := by
  rcases hsign with rfl | rfl <;> decide

theorem readZone_sign {sign : UInt8} (hsign : sign = 43 ∨ sign = 45) (s : Bytes)
    : readZone (sign :: s) = readTimezoneOffset (sign :: s) := by
  unfold readZone
  dsimp only
  rw [if_neg (isZoneStart_sign hsign).2]

theorem readZone_zone (hz : IsZone z offset) : readZone z = some { t := offset } := by
  cases hz with
  | none => rfl
  | utc => rfl
  | hours hsign hour => rw [readZone_sign hsign, readTimezoneOffset_hours _ hour]
  | minutes hsign hour before_min min =>
    rw [readZone_sign hsign, readTimezoneOffset_minutes _ hour before_min min]

theorem readZone_trailing (hz : IsTrailing z) : readZone z = some { t := (0 : Int) } := by
  cases hz
  rfl

theorem readTimezoneOffset_some {sign : UInt8} {tz : Duration} (hsign : sign = 43 ∨ sign = 45)
    (h : readTimezoneOffset (sign :: s) = some tz)
    : ∃ offset : Int, IsZone (sign :: s) offset ∧ tz = { t := offset } := by
  have hback : ∀ offset : Int, IsZone (sign :: s) offset → tz = { t := offset } := by
    intro offset hz
    have hread := readZone_zone hz
    rw [readZone_sign hsign, h] at hread
    exact Option.some.inj hread
  have hshape : ∃ offset : Int, IsZone (sign :: s) offset := by
    unfold readTimezoneOffset at h
    dsimp only at h
    have hhour := readPart_cases s (show 2 ≤ 4 by decide)
    generalize readPart s 2 = res at h hhour
    cases hhour with
    | noData => cases h
    | badData => cases h
    | @digits hh text1 hour heq1 =>
      dsimp only at h
      rw [if_neg (by omega)] at h
      obtain ⟨colon, before_min, heq2, hcolon⟩ := readFiller_cases text1 58
      generalize readFiller text1 58 = filled at h heq2 hcolon
      obtain ⟨found, text2⟩ := filled
      dsimp only at h heq2 hcolon
      have hmin := readPart_cases text2 (show 2 ≤ 4 by decide)
      generalize readPart text2 2 = res at h hmin
      cases hmin with
      | noData hnil =>
        cases found with
        | true => cases h
        | false =>
          have : colon = [] := by simpa using hcolon.symm
          rw [hnil, this, List.append_nil] at heq2
          rw [heq1, heq2, List.append_nil]
          exact ⟨_, .hours hsign hour⟩
      | badData hne =>
        cases found with
        | true => cases h
        | false =>
          dsimp only at h
          rw [if_neg (fun h => Bool.false_ne_true h.2), if_neg hne] at h
          cases h
      | @digits m text3 min heq3 =>
        dsimp only at h
        rw [if_neg (fun h => by omega)] at h
        split at h
        . next hnil =>
          rw [heq1, heq2, heq3, hnil, List.append_nil]
          exact ⟨_, .minutes hsign hour before_min min⟩
        . cases h
  obtain ⟨offset, hz⟩ := hshape
  exact ⟨offset, hz, hback offset hz⟩

theorem readZone_some {tz : Duration} (h : readZone z = some tz) (hz : ∀ c ∈ z.head?, isZoneStart c = true)
    : ∃ offset : Int, (IsZone z offset ∨ IsTrailing z ∧ offset = 0) ∧ tz = { t := offset } := by
  cases z with
  | nil =>
    cases h
    exact ⟨0, Or.inl .none, rfl⟩
  | cons c rest =>
    by_cases hutc : c = 90
    . rw [hutc] at h ⊢
      cases h
      cases rest with
      | nil => exact ⟨0, Or.inl .utc, rfl⟩
      | cons c rest => exact ⟨0, Or.inr ⟨.mk c rest, rfl⟩, rfl⟩
    . have hstart := hz c rfl
      have hsign : c = 43 ∨ c = 45 := by
        simpa [isZoneStart, hutc, or_comm] using hstart
      rw [readZone_sign hsign] at h
      obtain ⟨offset, hzone, heq⟩ := readTimezoneOffset_some hsign h
      exact ⟨offset, Or.inl hzone, heq⟩

/-
The whole text.
-/

-- What is read, the two slips included
structure IsRead (nearest : ℚ → ℚ) (d : Bytes) (sep : UInt8) (t z : Bytes) (f : Fields) : Prop where
  date : IsDate d f.date
  separator : IsSeparator sep
  time : IsTime nearest t f.hour f.min f.sec ∨ IsUnfinished t f.hour ∧ f.min = 0 ∧ f.sec = 0
  zone : IsZone z f.offset ∨ IsTrailing z ∧ f.offset = 0

variable {sep : UInt8} {f : Fields}

theorem isZoneStart_digits (hs : IsDigits n s) : ∀ c ∈ s, isZoneStart c = false := by
  have hdigit : ∀ c : UInt8, Digits.isDigit 10 c = true → isZoneStart c = false := by
    apply Digits.forall_byte
    decide
  intro c hc
  exact hdigit c (hs.2 c hc)

theorem isZoneStart_optional (hs : IsOptional 58 s) : ∀ c ∈ s, isZoneStart c = false := by
  rcases hs with rfl | rfl
  . exact nofun
  . exact List.forall_mem_singleton.mpr (by decide)

theorem isZoneStart_decimal (hs : isDecimal s = true) : ∀ c ∈ s, isZoneStart c = false := by
  have hdecimal : ∀ c : UInt8, (c = 46 || Digits.isDigit 10 c) = true → isZoneStart c = false := by
    apply Digits.forall_byte
    decide
  intro c hc
  unfold isDecimal at hs
  rw [Bool.and_eq_true] at hs
  exact hdecimal c (List.all_eq_true.mp hs.1 c hc)

theorem forall_mem_append {p : UInt8 → Prop} {s s' : Bytes} (h : ∀ c ∈ s, p c) (h' : ∀ c ∈ s', p c)
    : ∀ c ∈ s ++ s', p c := List.forall_mem_append.mpr ⟨h, h'⟩

theorem IsTime.isZoneStart (ht : IsTime nearest t hour min sec) : ∀ c ∈ t, isZoneStart c = false := by
  cases ht with
  | mk hour before_min min before_sec length sec =>
    exact forall_mem_append (isZoneStart_digits hour) (forall_mem_append (isZoneStart_optional before_min)
      (forall_mem_append (isZoneStart_digits min) (forall_mem_append (isZoneStart_optional before_sec)
        (isZoneStart_decimal sec))))

theorem IsUnfinished.isZoneStart (ht : IsUnfinished t hour) : ∀ c ∈ t, isZoneStart c = false := by
  cases ht with
  | mk hour before_min => exact forall_mem_append (isZoneStart_digits hour) (isZoneStart_optional before_min)

theorem IsZone.isZoneStart (hz : IsZone z offset) : ∀ c ∈ z.head?, isZoneStart c = true := by
  cases hz with
  | none => exact nofun
  | utc => simp [Stamp.isZoneStart]
  | hours hsign => simp [isZoneStart_sign hsign]
  | minutes hsign => simp [isZoneStart_sign hsign]

theorem IsTrailing.isZoneStart (hz : IsTrailing z) : ∀ c ∈ z.head?, isZoneStart c = true := by
  cases hz
  simp [Stamp.isZoneStart]

theorem IsRead.cut (h : IsRead nearest d sep t z f)
    : (∀ c ∈ t, isZoneStart c = false) ∧ ∀ c ∈ z.head?, isZoneStart c = true := by
  constructor
  . rcases h.time with ht | ⟨ht, -, -⟩
    . exact ht.isZoneStart
    . exact ht.isZoneStart
  . rcases h.zone with hz | ⟨hz, -⟩
    . exact hz.isZoneStart
    . exact hz.isZoneStart

-- The time ends where the timezone starts.
theorem cut_spec (ht : ∀ c ∈ t, isZoneStart c = false) (hz : ∀ c ∈ z.head?, isZoneStart c = true)
    : (t ++ z).takeWhile (fun c => !isZoneStart c) = t ∧ (t ++ z).dropWhile (fun c => !isZoneStart c) = z := by
  apply Delimiter.takeWhile_stop
  . intro c hc
    rw [ht c hc]
    rfl
  . intro c hc
    rw [hz c hc]
    rfl

theorem readIso_eq (hd : IsDate d date) (hsep : IsSeparator sep) (ht : ∀ c ∈ t, isZoneStart c = false)
    (hz : ∀ c ∈ z.head?, isZoneStart c = true)
    : readIso nearest (d ++ sep :: (t ++ z)) false
        =
      (readZone z).bind fun tz =>
        (readTime nearest t false true
          (setDate { year := 1900, month := 1, day := 1, hour := 0, min := 0, sec := 0 } date)).bind fun res =>
            if res.2 = [] then some (res.1, tz) else none := by
  obtain ⟨htake, hdrop⟩ := cut_spec ht hz
  have hfiller : (if (readFiller (sep :: (t ++ z)) 32).1 = true then (true, (readFiller (sep :: (t ++ z)) 32).2)
        else readFiller (readFiller (sep :: (t ++ z)) 32).2 84) = (true, t ++ z) := by
    rcases hsep with rfl | rfl <;> rfl
  unfold readIso
  dsimp only
  rw [readDate_date hd]
  dsimp only [Option.bind_eq_bind, Option.bind_some]
  rw [hfiller]
  dsimp only
  rw [if_neg (by decide), htake, hdrop]

theorem readIso_read (hnearest : ∀ q, 0 ≤ q → 0 ≤ nearest q) (h : IsRead nearest d sep t z f)
    : readIso nearest (d ++ sep :: (t ++ z)) false = some (f.split, { t := f.offset }) := by
  have hzone : readZone z = some { t := f.offset } := by
    rcases h.zone with hz | ⟨hz, hoffset⟩
    . exact readZone_zone hz
    . rw [readZone_trailing hz, hoffset]
  rw [readIso_eq h.date h.separator h.cut.1 h.cut.2, hzone, Option.bind_some]
  rcases h.time with ht | ⟨ht, hmin, hsec⟩
  . rw [readTime_time ht (ht.sec_nonneg hnearest)]
    rfl
  . rw [readTime_unfinished ht, Option.bind_some, if_pos rfl]
    unfold Fields.split
    rw [hmin, hsec]
    rfl

theorem readFiller_cons (c' c : UInt8) (text : Bytes)
    : readFiller (c' :: text) c = if c' = c then (true, text) else (false, c' :: text) := by
  unfold readFiller
  simp

theorem readSeparator_some (h : (if (readFiller text 32).1 = true then (true, (readFiller text 32).2)
        else readFiller (readFiller text 32).2 84) = (true, rest))
    : ∃ sep, IsSeparator sep ∧ text = sep :: rest := by
  cases text with
  | nil => cases h
  | cons c text =>
    rw [readFiller_cons] at h
    by_cases hspace : c = 32
    . rw [if_pos hspace] at h
      cases h
      exact ⟨c, Or.inl hspace, rfl⟩
    . rw [if_neg hspace, if_neg Bool.false_ne_true, readFiller_cons] at h
      split at h
      . next hletter =>
        cases h
        exact ⟨c, Or.inr hletter, rfl⟩
      . cases h

theorem readIso_some (hnearest : ∀ q, 0 ≤ q → 0 ≤ nearest q) {tz : Duration}
    (h : readIso nearest text false = some (sp, tz))
    : ∃ d sep t z f, text = d ++ sep :: (t ++ z) ∧ IsRead nearest d sep t z f ∧ sp = f.split
        ∧ tz = { t := f.offset } := by
  have hshape : ∃ d date sep x, IsDate d date ∧ IsSeparator sep ∧ text = d ++ sep :: x := by
    unfold readIso at h
    dsimp only at h
    cases hdate : readDate text { year := 1900, month := 1, day := 1, hour := 0, min := 0, sec := 0 } with
    | none =>
      rw [hdate] at h
      cases h
    | some res =>
      obtain ⟨sp', rest⟩ := res
      obtain ⟨d, date, hd, heq, -⟩ := readDate_some hdate
      rw [hdate] at h
      dsimp only [Option.bind_eq_bind, Option.bind_some] at h
      generalize hsep : (if (readFiller rest 32).1 = true then (true, (readFiller rest 32).2)
        else readFiller (readFiller rest 32).2 84) = sepd at h
      obtain ⟨separated, x⟩ := sepd
      cases separated with
      | false => cases h
      | true =>
        obtain ⟨sep, hsep, hrest⟩ := readSeparator_some hsep
        rw [hrest] at heq
        exact ⟨d, date, sep, x, hd, hsep, heq⟩
  obtain ⟨d, date, sep, x, hd, hsep, heq⟩ := hshape
  have hcut := List.takeWhile_append_dropWhile (p := fun c => !isZoneStart c) (l := x)
  have ht : ∀ c ∈ x.takeWhile (fun c => !isZoneStart c), isZoneStart c = false := by
    intro c hc
    simpa using List.mem_takeWhile_imp hc
  have hz : ∀ c ∈ (x.dropWhile (fun c => !isZoneStart c)).head?, isZoneStart c = true := by
    intro c hc
    have := List.head?_dropWhile_not (fun c => !isZoneStart c) x
    rw [Option.mem_def.mp hc] at this
    simpa using this
  generalize x.takeWhile (fun c => !isZoneStart c) = t at hcut ht
  generalize x.dropWhile (fun c => !isZoneStart c) = z at hcut hz
  rw [heq, ← hcut, readIso_eq hd hsep ht hz, Option.bind_eq_some_iff] at h
  obtain ⟨tz', hzone, h⟩ := h
  rw [Option.bind_eq_some_iff] at h
  obtain ⟨⟨sp', rest⟩, htime, h⟩ := h
  dsimp only at h
  split at h
  . next hrest =>
    cases h
    rw [hrest] at htime
    rw [heq, ← hcut]
    obtain ⟨offset, hzone, htz⟩ := readZone_some hzone hz
    rcases readTime_some hnearest htime with ⟨hour, min, sec, htime, hsp⟩ | ⟨hour, htime, hsp⟩
    . exact ⟨d, sep, t, z, ⟨date, hour, min, sec, offset⟩, rfl, ⟨hd, hsep, Or.inl htime, hzone⟩, hsp, htz⟩
    . exact ⟨d, sep, t, z, ⟨date, hour, 0, 0, offset⟩, rfl, ⟨hd, hsep, Or.inr ⟨htime, rfl, rfl⟩, hzone⟩, hsp, htz⟩
  . cases h

end Stamp
end Time
end ObTools
