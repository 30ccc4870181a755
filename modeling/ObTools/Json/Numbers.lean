import Mathlib.Data.Rat.Cast.Order
import Mathlib.RingTheory.Int.Basic
import Mathlib.Tactic.Ring
import ObTools.Json.ParserLemmas

/-!
This module contains the proof about number literals without a fraction. The lexical analyser takes
an exponent as part of them, the parser only looks for a decimal point and converts what stands in
front of the exponent.
-/

namespace ObTools
namespace Json

open ObTools.Lex (Token Analyser)

structure Exponent where
  letter : UInt8
  sign : Bytes
  digits : Bytes
  letter_eq : letter = 101 ∨ letter = 69
  sign_eq : sign = [] ∨ sign = [43] ∨ sign = [45]
  digits_ne : digits ≠ []
  isDigit : ∀ c ∈ digits, Lex.isDigit c = true

namespace Exponent

def text (e : Exponent) : Bytes := e.letter :: (e.sign ++ e.digits)

def value (e : Exponent) : Int :=
  if e.sign = [45] then -(Digits.ofBytes 10 e.digits) else Digits.ofBytes 10 e.digits

end Exponent

/-
A number literal of the grammar that has no fraction part
-/
structure Literal where
  negative : Bool
  digits : Bytes
  exponent : Option Exponent
  digits_ne : digits ≠ []
  isDigit : ∀ c ∈ digits, Lex.isDigit c = true

namespace Literal

variable (l : Literal)

def exponentText : Bytes := (l.exponent.map Exponent.text).getD []

def text : Bytes := (if l.negative then [45] else []) ++ l.digits ++ l.exponentText

def mantissa : Int :=
  if l.negative then -(Digits.ofBytes 10 l.digits) else Digits.ofBytes 10 l.digits

def power : Int := (l.exponent.map Exponent.value).getD 0

-- The mathematical value
def Denotes (v : Int) : Prop := (v : ℚ) = l.mantissa * (10 : ℚ) ^ l.power

end Literal

-- What cannot be part of a number any more
def EndsNumber (rest : Bytes) : Prop :=
  ∀ c ∈ rest.head?, Lex.isDigit c = false ∧ c ≠ 46 ∧ c ≠ 101 ∧ c ≠ 69

section Lexing

variable {rest : Bytes}

theorem EndsNumber.spec (h : EndsNumber rest)
    : (rest.takeWhile Lex.isDigit = [] ∧ rest.dropWhile Lex.isDigit = rest)
        ∧
      Lex.peek rest ≠ 46 ∧ Lex.peek rest ≠ 101 ∧ Lex.peek rest ≠ 69 := by
  cases rest with
  | nil => simp [Lex.peek, Lex.get]
  | cons c rest =>
    have hc := h c (by simp)
    refine ⟨?_, hc.2⟩
    rw [List.takeWhile_cons_of_neg (by simp [hc.1]), List.dropWhile_cons_of_neg (by simp [hc.1])]
    exact ⟨rfl, rfl⟩

theorem readExponent_text (value : Bytes) (e : Exponent) (hrest : EndsNumber rest)
    : Analyser.readExponent value (e.text ++ rest) = .ok (value ++ e.text, rest) := by
  obtain ⟨letter, sign, digits, hletter, hsign, hne, hdigits⟩ := e
  cases digits with
  | nil => contradiction
  | cons d digits =>
    have hd := isDigit_spec d (hdigits d (by simp))
    have hdigit := hdigits d (by simp)
    have hsigns : d ≠ 43 ∧ d ≠ 45 := by
      constructor
      . rintro rfl
        exact absurd hdigit (by decide)
      . rintro rfl
        exact absurd hdigit (by decide)
    obtain ⟨htake, hdrop⟩ := takeWhile_append_stop
      (fun c hc => hdigits c (List.mem_cons_of_mem _ hc)) hrest.spec.1
    unfold Exponent.text Analyser.readExponent
    dsimp only
    rw [List.cons_append, if_pos (by simpa [Lex.peek, Lex.get] using hletter)]
    rcases hsign with rfl | rfl | rfl
    . simp [Lex.get, hd, hsigns, hdigit, htake, hdrop, pure, Except.pure, bind, Except.bind]
    . simp [Lex.get, hd, hdigit, htake, hdrop, pure, Except.pure, bind, Except.bind]
    . simp [Lex.get, hd, hdigit, htake, hdrop, pure, Except.pure, bind, Except.bind]

-- The first character has been taken already
theorem readNumberToken_literal {c : UInt8} {s : Bytes} (exponent : Option Exponent)
    (hs : ∀ c ∈ s, Lex.isDigit c = true) (hrest : EndsNumber rest)
    : Analyser.readNumberToken c (s ++ ((exponent.map Exponent.text).getD [] ++ rest))
        =
      .ok ({ type := .number, value := c :: s ++ (exponent.map Exponent.text).getD [] }, rest) := by
  cases exponent with
  | none =>
    rw [Option.map_none, Option.getD_none, List.nil_append, List.append_nil]
    exact readNumberToken_ends hs hrest.spec.1 hrest.spec.2
  | some e =>
    have hletter : Lex.isDigit e.letter = false ∧ e.letter ≠ 46 := by
      cases e.letter_eq with
      | inl heq => rw [heq]; decide
      | inr heq => rw [heq]; decide
    have hstop : (e.text ++ rest).takeWhile Lex.isDigit = []
        ∧ (e.text ++ rest).dropWhile Lex.isDigit = e.text ++ rest := by
      unfold Exponent.text
      rw [List.cons_append, List.takeWhile_cons_of_neg (by simp [hletter.1]),
        List.dropWhile_cons_of_neg (by simp [hletter.1])]
      exact ⟨rfl, rfl⟩
    obtain ⟨htake, hdrop⟩ := takeWhile_append_stop hs hstop
    unfold Analyser.readNumberToken
    have hdot : Lex.peek (e.text ++ rest) ≠ 46 := hletter.2
    rw [Option.map_some, Option.getD_some, htake, hdrop, readDecimals_of_ne hdot]
    dsimp only
    rw [readExponent_text _ e hrest]
    rfl

theorem readsToken_literal (l : Literal) (hrest : EndsNumber rest)
    : ReadsToken (l.text ++ rest) { type := .number, value := l.text } rest := by
  obtain ⟨negative, digits, exponent, hne, hdigits⟩ := l
  unfold Literal.text Literal.exponentText
  dsimp only
  cases negative with
  | true =>
    rw [if_pos rfl, List.append_assoc, List.append_assoc, List.append_assoc, List.singleton_append]
    apply readsToken_of_loop (by decide)
    intro fuel ws hws hdrop
    have hdigit : Lex.isDigit (Lex.peek (digits ++ ((exponent.map Exponent.text).getD [] ++ rest)))
        = true := by
      cases digits with
      | nil => contradiction
      | cons d digits => exact hdigits d (by simp)
    rw [Analyser.readTokenLoop, hdrop]
    simp only [Lex.get, hdigit, readNumberToken_literal exponent hdigits hrest]
    rfl
  | false =>
    cases digits with
    | nil => contradiction
    | cons d digits =>
      have hd := hdigits d (by simp)
      have hclass := isDigit_spec d hd
      rw [if_neg Bool.false_ne_true, List.nil_append, List.append_assoc, List.cons_append]
      apply readsToken_of_loop hclass.1
      intro fuel ws hws hdrop
      rw [Analyser.readTokenLoop, hdrop]
      have hrestDigits : ∀ c ∈ digits, Lex.isDigit c = true :=
        fun c hc => hdigits c (List.mem_cons_of_mem _ hc)
      simp only [Lex.get, hclass, hd, ↓reduceIte, Bool.false_eq_true, false_or,
        readNumberToken_literal exponent hrestDigits hrest]

end Lexing

section Converting

theorem isDigit_eq : ∀ c : UInt8, Lex.isDigit c = true → Digits.isDigit 10 c = true ∧ c ≠ 46 := by
  apply Digits.forall_byte
  decide

variable (l : Literal)

-- There is nothing to choose the conversion by.
theorem Literal.text_contains : l.text.contains 46 = false := by
  have hdigits : 46 ∉ l.digits := fun h => (isDigit_eq 46 (l.isDigit 46 h)).2 rfl
  have hexponent : 46 ∉ l.exponentText := by
    unfold Literal.exponentText
    cases l.exponent with
    | none => simp
    | some e =>
      have he : 46 ∉ e.digits := fun h => (isDigit_eq 46 (e.isDigit 46 h)).2 rfl
      unfold Exponent.text
      rw [Option.map_some, Option.getD_some, List.mem_cons, List.mem_append, not_or, not_or]
      refine ⟨?_, ?_, he⟩
      . cases e.letter_eq with
        | inl heq => rw [heq]; decide
        | inr heq => rw [heq]; decide
      . rcases e.sign_eq with heq | heq | heq <;> rw [heq] <;> decide
  rw [← Bool.not_eq_true, List.contains_iff_mem]
  unfold Literal.text
  rw [List.mem_append, List.mem_append, not_or, not_or]
  refine ⟨⟨?_, hdigits⟩, hexponent⟩
  split <;> decide

/-
The conversion stops at the exponent.
-/
theorem Literal.stoi64_text
    : Text.stoi64 l.text
        =
      if 2 ^ 64 ≤ Digits.ofBytes 10 l.digits then
        0xFFFFFFFFFFFFFFFF
      else if l.negative then
        -UInt64.ofNat (Digits.ofBytes 10 l.digits)
      else
        UInt64.ofNat (Digits.ofBytes 10 l.digits) := by
  have hdigits : ∀ c ∈ l.digits, Digits.isDigit 10 c = true :=
    fun c hc => (isDigit_eq c (l.isDigit c hc)).1
  have hstop : l.exponentText.takeWhile (Digits.isDigit 10) = [] := by
    unfold Literal.exponentText
    cases l.exponent with
    | none => rfl
    | some e =>
      have hletter : Digits.isDigit 10 e.letter = false := by
        cases e.letter_eq with
        | inl heq => rw [heq]; decide
        | inr heq => rw [heq]; decide
      unfold Exponent.text
      rw [Option.map_some, Option.getD_some, List.takeWhile_cons_of_neg (by simp [hletter])]
  have htake : (l.digits ++ l.exponentText).takeWhile (Digits.isDigit 10) = l.digits := by
    rw [List.takeWhile_append_of_pos hdigits, hstop, List.append_nil]
  have hscan : Text.scanSign (l.text.dropWhile Text.isSpace) = (l.negative, l.digits ++ l.exponentText) := by
    unfold Literal.text
    cases hneg : l.negative with
    | true =>
      rw [if_pos rfl, List.append_assoc, List.singleton_append, List.dropWhile_cons_of_neg (by decide)]
      rfl
    | false =>
      rw [if_neg Bool.false_ne_true, List.nil_append]
      cases hd : l.digits with
      | nil => exact absurd hd l.digits_ne
      | cons d digits =>
        have := Text.isDigit_spec d (Text.value_lt (by decide) hdigits d (by simp [hd]))
        rw [List.cons_append, List.dropWhile_cons_of_neg (by simp [this])]
        simp [Text.scanSign, this]
  have hskip : ∀ s, Text.skip0x 10 s = s := fun _ => if_neg fun h => absurd h.1 (by decide)
  unfold Text.stoi64 Text.scan
  rw [hscan]
  dsimp only
  rw [hskip, htake]

theorem readValue_literal (stof : Bytes → Float) (fuel : Nat) {rest : Bytes} (hrest : EndsNumber rest)
    : Parser.readValue stof (fuel + 1) (Parser.new (l.text ++ rest))
        =
      some (.ok (.integer (Text.stoi64 l.text).toInt64, Parser.new rest)) := by
  have hread := readsToken_literal l hrest [] (by simp)
  rw [List.nil_append] at hread
  have hread : Parser.readToken (Parser.new (l.text ++ rest))
      = some (.ok ({ type := .number, value := l.text }, Parser.new rest)) := congrArg some hread
  rw [Parser.readValue, Decoder.bind_eq _ hread]
  dsimp only
  rw [l.text_contains]
  rfl

theorem Literal.toInt64_text
    : (Text.stoi64 l.text).toInt64
        =
      if 2 ^ 64 ≤ Digits.ofBytes 10 l.digits then -1 else Int64.ofInt l.mantissa := by
  rw [l.stoi64_text]
  split
  . rfl
  . unfold Literal.mantissa
    split
    . rw [Int64.ofInt_neg, Int64.ofInt_eq_ofNat]
      rfl
    . rw [Int64.ofInt_eq_ofNat, UInt64.toInt64_ofNat']

theorem Literal.natAbs_mantissa : l.mantissa.natAbs = Digits.ofBytes 10 l.digits := by
  unfold Literal.mantissa
  split <;> omega

theorem Literal.denotes_of_nonneg {v : Int} {k : Nat} (h : l.Denotes v) (hk : l.power = k)
    : v = l.mantissa * 10 ^ k := by
  unfold Literal.Denotes at h
  rw [hk, zpow_natCast] at h
  exact_mod_cast h

theorem Literal.denotes_of_neg {v : Int} {k : Nat} (h : l.Denotes v) (hk : l.power = -k)
    : v * 10 ^ k = l.mantissa := by
  unfold Literal.Denotes at h
  have hpos : (10 : ℚ) ^ k ≠ 0 := by positivity
  rw [hk, zpow_neg, zpow_natCast, eq_mul_inv_iff_mul_eq₀ hpos] at h
  exact_mod_cast h

end Converting

section Arithmetic

variable {m v : Int} {k : Nat}

-- Without its last digits a number is another one modulo `2 ^ 64`.
theorem not_dvd_of_shift (hk : 0 < k) (hv : v ≠ 0) (hlt : v.natAbs < 2 ^ 64)
    : ¬(2 ^ 64 : Int) ∣ v * 10 ^ k - v := by
  intro hdvd
  have hodd : Odd ((10 : Int) ^ k - 1) := by
    have heven : Even ((10 : Int) ^ k) := by
      rw [Int.even_pow]
      exact ⟨by decide, by omega⟩
    exact heven.sub_odd odd_one
  have hcoprime : IsCoprime ((2 : Int) ^ 64) (10 ^ k - 1) :=
    (Int.isCoprime_two_left.mpr hodd).pow_left
  have hfactor : v * 10 ^ k - v = v * (10 ^ k - 1) := by ring
  rw [hfactor] at hdvd
  have hzero := Int.eq_zero_of_dvd_of_natAbs_lt_natAbs (hcoprime.dvd_of_dvd_mul_right hdvd) (by
    have : ((2 : Int) ^ 64).natAbs = 2 ^ 64 := by decide
    omega)
  exact hv hzero

theorem dvd_of_ofInt_eq {n : Int64} (h : Int64.ofInt m = n) : (2 ^ 64 : Int) ∣ m - n.toInt := by
  rw [← h, Int64.toInt_ofInt, Int.bmod_eq_self_sub_mul_bdiv, sub_sub_cancel]
  exact dvd_mul_right _ _

end Arithmetic

/-
An exponent that matters is lost. That the result is right for some numbers that are too long to be
converted has another reason: they are converted to the largest unsigned number.
-/
theorem Literal.toInt64_text_iff {l : Literal} {v : Int64} (hv : l.Denotes v.toInt)
    : (Text.stoi64 l.text).toInt64 = v
        ↔
      l.power = 0 ∨ l.mantissa = 0 ∨ (v = -1 ∧ 2 ^ 64 ≤ Digits.ofBytes 10 l.digits) := by
  have habs := l.natAbs_mantissa
  have hle := v.le_toInt
  have hlt := v.toInt_lt
  have hzero : l.power = 0 → v.toInt = l.mantissa := by
    intro hpower
    have := l.denotes_of_nonneg (k := 0) hv (by omega)
    rw [pow_zero, mul_one] at this
    exact this
  rw [l.toInt64_text]
  split
  . next hlarge =>
    constructor
    . intro heq
      exact .inr (.inr ⟨heq.symm, hlarge⟩)
    . intro hcond
      rcases hcond with hpower | hm | hone
      . have := hzero hpower
        omega
      . omega
      . exact hone.1.symm
  . next hsmall =>
    constructor
    . intro heq
      have hdvd := dvd_of_ofInt_eq heq
      by_contra hcond
      rw [not_or, not_or] at hcond
      rcases lt_trichotomy l.power 0 with hneg | hpower | hpos
      . obtain ⟨k, hk⟩ := Int.eq_ofNat_of_zero_le (show 0 ≤ -l.power by omega)
        have hm := l.denotes_of_neg hv (k := k) (by omega)
        have hne : v.toInt ≠ 0 := by
          intro hv0
          rw [hv0, zero_mul] at hm
          exact hcond.2.1 hm.symm
        rw [← hm] at hdvd
        exact not_dvd_of_shift (by omega) hne (by omega) hdvd
      . exact hcond.1 hpower
      . obtain ⟨k, hk⟩ := Int.eq_ofNat_of_zero_le hpos.le
        have hm := l.denotes_of_nonneg hv hk
        rw [hm, ← dvd_neg, neg_sub] at hdvd
        exact not_dvd_of_shift (by omega) hcond.2.1 (by omega) hdvd
    . intro hcond
      have hm : v.toInt = l.mantissa := by
        rcases hcond with hpower | hm | hone
        . exact hzero hpower
        . have hdenotes := hv
          unfold Literal.Denotes at hdenotes
          rw [hm, Int.cast_zero, zero_mul, Int.cast_eq_zero] at hdenotes
          rw [hm, hdenotes]
        . exact absurd hone.2 hsmall
      rw [← hm, Int64.ofInt_toInt]

/--
An integer literal is read as the integer that it denotes if there is no exponent, or one that makes
no difference.
-/
theorem readValue_literal_iff (stof : Bytes → Float) (l : Literal) (v : Int64)
    (hv : l.Denotes v.toInt) (rest : Bytes) (hrest : EndsNumber rest) (fuel : Nat)
    : (∃ lex, Parser.readValue stof (fuel + 1) (Parser.new (l.text ++ rest))
        = some (.ok (.integer v, lex)))
        ↔
      l.power = 0 ∨ l.mantissa = 0 ∨ (v = -1 ∧ 2 ^ 64 ≤ Digits.ofBytes 10 l.digits) := by
  rw [← Literal.toInt64_text_iff hv, readValue_literal l stof fuel hrest]
  constructor
  . intro h
    obtain ⟨lex, heq⟩ := h
    injection heq with heq
    injection heq with heq
    injection heq with heq
    injection heq
  . intro heq
    rw [heq]
    exact ⟨_, rfl⟩

-- `-12`
def minusTwelve : Literal where
  negative := true
  digits := [49, 50]
  exponent := none
  digits_ne := by decide
  isDigit := List.all_eq_true.mp rfl

theorem readValue_literal_iff_minusTwelve
    : ∃ lex, Parser.readValue (fun _ => 0) 1 (Parser.new (minusTwelve.text ++ [44]))
        = some (.ok (.integer (-12), lex)) := by
  have hm : minusTwelve.mantissa = -12 := by decide
  have hp : minusTwelve.power = 0 := rfl
  have hv : minusTwelve.Denotes (Int64.toInt (-12)) := by
    unfold Literal.Denotes
    rw [hm, hp, zpow_zero, mul_one]
    rfl
  have hrest : EndsNumber [44] := by
    intro c hc
    rw [← Option.some.inj hc]
    decide
  exact (readValue_literal_iff (fun _ => 0) minusTwelve (-12) hv [44] hrest 0).mpr (.inl hp)

-- `1e2`
def hundred : Literal where
  negative := false
  digits := [49]
  exponent := some
    { letter := 101
      sign := []
      digits := [50]
      letter_eq := .inl rfl
      sign_eq := .inl rfl
      digits_ne := by decide
      isDigit := List.all_eq_true.mp rfl }
  digits_ne := by decide
  isDigit := List.all_eq_true.mp rfl

-- It is read as 1.
theorem readValue_hundred
    : ¬∀ (stof : Bytes → Float) (l : Literal) (v : Int64), l.Denotes v.toInt →
        ∀ rest, EndsNumber rest → ∀ fuel,
          ∃ lex, Parser.readValue stof (fuel + 1) (Parser.new (l.text ++ rest))
            = some (.ok (.integer v, lex)) := by
  intro h
  have hm : hundred.mantissa = 1 := by decide
  have hp : hundred.power = 2 := by decide
  have hv : hundred.Denotes (Int64.toInt 100) := by
    have h100 : Int64.toInt 100 = 100 := by decide
    unfold Literal.Denotes
    rw [hm, hp, h100]
    norm_num
  have hrest : EndsNumber [] := fun _ hc => nomatch hc
  obtain ⟨lex, hread⟩ := h (fun _ => 0) hundred 100 hv [] hrest 0
  rw [readValue_literal hundred _ 0 hrest] at hread
  injection hread with hread
  injection hread with hread
  injection hread with hread
  injection hread with hread
  exact absurd hread (by decide)

end Json
end ObTools
