import Mathlib.Data.List.Induction
import Mathlib.Data.List.TakeWhile
import Mathlib.Tactic.FieldSimp
import Mathlib.Tactic.Ring
import ObTools.Expression.Grammar
import ObTools.Lib.Delimiter

/-!
This module contains the proof that the tokeniser reads a token from a text if and only if it is spelled there,
behind any whitespace.
-/

namespace ObTools
namespace Expression

open ObTools.Lex (Bytes chars get peek isAlpha isDigit)
open Text (isSpace)

set_option maxRecDepth 4000 in
theorem classes_disjoint (c : UInt8)
    : (isSpace c = true → isAlpha c = false ∧ isDigit c = false ∧ Tokeniser.isNameChar c = false
          ∧ c ≠ 46 ∧ c ≠ 61 ∧ c ≠ 0)
        ∧
      (isDigit c = true → isAlpha c = false ∧ c ≠ 46) := by
  revert c
  apply Digits.forall_byte
  decide

theorem isSpace_of_isAlpha {c : UInt8} (h : isAlpha c = true) : isSpace c = false := by
  by_contra hspace
  rw [Bool.not_eq_false] at hspace
  have := ((classes_disjoint c).1 hspace).1
  rw [h] at this
  cases this

theorem isSpace_of_isDigit {c : UInt8} (h : isDigit c = true) : isSpace c = false := by
  by_contra hspace
  rw [Bool.not_eq_false] at hspace
  have := ((classes_disjoint c).1 hspace).2.1
  rw [h] at this
  cases this

theorem ofBytes_append (ds fs : Bytes)
    : Digits.ofBytes 10 (ds ++ fs) = 10 ^ fs.length * Digits.ofBytes 10 ds + Digits.ofBytes 10 fs := by
  induction fs using List.reverseRecOn with
  | nil => simp [Digits.ofBytes]
  | append_singleton fs c ih =>
    rw [← List.append_assoc, Digits.ofBytes_snoc, Digits.ofBytes_snoc, ih, List.length_append,
      List.length_singleton]
    ring

theorem stof_whole {ds : Bytes} (h : ∀ d ∈ ds, isDigit d = true)
    : stof ds = Digits.ofBytes 10 ds := by
  have hread := Delimiter.takeWhile_stop [] h (by simp)
  rw [List.append_nil] at hread
  unfold stof
  dsimp only
  rw [hread.1, hread.2, if_neg (by decide)]
  simp

theorem stof_decimal {ds fs : Bytes} (hds : ∀ d ∈ ds, isDigit d = true)
    (hfs : ∀ d ∈ fs, isDigit d = true)
    : stof (ds ++ 46 :: fs)
        = Digits.ofBytes 10 ds + Digits.ofBytes 10 fs / 10 ^ fs.length := by
  have hread := Delimiter.takeWhile_stop (46 :: fs) hds (by simp; decide)
  have hdecimals := Delimiter.takeWhile_stop [] hfs (by simp)
  rw [List.append_nil] at hdecimals
  unfold stof
  have hpeek : peek (46 :: fs) = 46 := rfl
  dsimp only
  rw [hread.1, hread.2, if_pos hpeek, List.tail_cons, hdecimals.1, ofBytes_append]
  push_cast
  field_simp

theorem Spells.ne_nil {t : Token} {word : Bytes} (h : Spells t word) : word ≠ [] := by
  cases h with
  | name hc hcs => exact List.cons_ne_nil _ _
  | whole hne hds => exact hne
  | decimal hne hds hfs => simp
  | @symbol type symbol hsymbol =>
    cases type with
    | unknown => cases hsymbol
    | eot => cases hsymbol
    | number => cases hsymbol
    | name => cases hsymbol
    | _ =>
      cases hsymbol
      decide

namespace Tokeniser

-- The token is not continued
def Ends (t : Token) (rest : Bytes) : Prop :=
  ∀ c ∈ rest.head?,
    (t.type = .name → isNameChar c = false)
      ∧ (t.type = .number → isDigit c = false ∧ c ≠ 46)
      ∧ (t.type = .lt ∨ t.type = .gt ∨ t.type = .not → c ≠ 61)

-- What reads as the end of the text
def AtEnd (rest : Bytes) : Prop := ∀ c ∈ rest.head?, c = 0

variable {text rest ws word : Bytes} {t : Token}

theorem doubled_ok {c : UInt8} {type type' : Token.Type} {error : String} {input : Bytes}
    (hc : c ≠ 0) (h : doubled c type error input = .ok (type', rest))
    : type' = type ∧ input = c :: rest := by
  unfold doubled at h
  split at h
  . cases h
  . next hpeek =>
    rw [not_not] at hpeek
    cases h
    refine ⟨rfl, ?_⟩
    cases input with
    | nil => exact absurd hpeek.symm hc
    | cons d input =>
      have : d = c := hpeek
      rw [this]
      rfl

theorem comparator_eq {withEquals without type : Token.Type} {input : Bytes}
    (h : comparator withEquals without input = (type, rest))
    : type = withEquals ∧ input = 61 :: rest ∨ type = without ∧ input = rest := by
  unfold comparator at h
  split at h
  . next hpeek =>
    cases h
    left
    refine ⟨rfl, ?_⟩
    cases input with
    | nil => cases hpeek
    | cons d input =>
      have : d = 61 := hpeek
      rw [this]
      rfl
  . cases h
    right
    exact ⟨rfl, rfl⟩

set_option maxRecDepth 4000 in
theorem single_sound {c : UInt8} {type : Token.Type} (h : single c = some type)
    : ∃ symbol, type.symbol = some symbol ∧ chars symbol = [c] := by
  have hall : ∀ c : UInt8, (single c).all fun type => type.symbol.map chars = some [c] := by
    apply Digits.forall_byte
    decide
  have hchars := hall c
  rw [h, Option.all_some, decide_eq_true_iff, Option.map_eq_some_iff] at hchars
  exact hchars

theorem readOperator_sound {c : UInt8} {type : Token.Type} {input : Bytes}
    (h : readOperator c input = .ok (type, rest))
    : (∃ symbol, type.symbol = some symbol ∧ c :: input = chars symbol ++ rest)
        ∨ type = .eot ∧ c = 0 ∧ input = rest := by
  unfold readOperator at h
  by_cases h0 : c = 0
  . rw [if_pos h0] at h
    cases h
    right
    exact ⟨rfl, h0, rfl⟩
  rw [if_neg h0] at h
  cases hsingle : single c with
  | some type' =>
    rw [hsingle] at h
    cases h
    obtain ⟨symbol, hsymbol, hchars⟩ := single_sound hsingle
    exact .inl ⟨symbol, hsymbol, by rw [hchars]; rfl⟩
  | none =>
  rw [hsingle] at h
  dsimp only at h
  by_cases hand : c = 38
  . rw [if_pos hand] at h
    obtain ⟨rfl, rfl⟩ := doubled_ok h0 h
    subst hand
    exact .inl ⟨_, rfl, rfl⟩
  rw [if_neg hand] at h
  by_cases hor : c = 124
  . rw [if_pos hor] at h
    obtain ⟨rfl, rfl⟩ := doubled_ok h0 h
    subst hor
    exact .inl ⟨_, rfl, rfl⟩
  rw [if_neg hor] at h
  by_cases heq : c = 61
  . rw [if_pos heq] at h
    obtain ⟨rfl, rfl⟩ := doubled_ok h0 h
    subst heq
    exact .inl ⟨_, rfl, rfl⟩
  rw [if_neg heq] at h
  by_cases hlt : c = 60
  . rw [if_pos hlt] at h
    subst hlt
    obtain ⟨rfl, rfl⟩ | ⟨rfl, rfl⟩ := comparator_eq (Except.ok.inj h) <;> exact .inl ⟨_, rfl, rfl⟩
  rw [if_neg hlt] at h
  by_cases hgt : c = 62
  . rw [if_pos hgt] at h
    subst hgt
    obtain ⟨rfl, rfl⟩ | ⟨rfl, rfl⟩ := comparator_eq (Except.ok.inj h) <;> exact .inl ⟨_, rfl, rfl⟩
  rw [if_neg hgt] at h
  by_cases hnot : c = 33
  . rw [if_pos hnot] at h
    subst hnot
    obtain ⟨rfl, rfl⟩ | ⟨rfl, rfl⟩ := comparator_eq (Except.ok.inj h) <;> exact .inl ⟨_, rfl, rfl⟩
  rw [if_neg hnot] at h
  cases h

theorem comparator_without {withEquals without : Token.Type}
    (h : ∀ c ∈ rest.head?, c ≠ 61)
    : comparator withEquals without rest = (without, rest) := by
  unfold comparator
  rw [if_neg]
  cases rest with
  | nil => decide
  | cons c rest => exact h c rfl

theorem readOperator_symbol {type : Token.Type} {symbol : String} (h : type.symbol = some symbol)
    (hends : Ends { type } rest)
    : ∃ c input, chars symbol ++ rest = c :: input
        ∧ (isSpace c = false ∧ isAlpha c = false ∧ isDigit c = false)
        ∧ readOperator c input = .ok (type, rest) := by
  cases type with
  | unknown => cases h
  | eot => cases h
  | number => cases h
  | name => cases h
  | lt =>
    cases h
    refine ⟨60, rest, rfl, by decide, ?_⟩
    have := @comparator_without rest .lteq .lt fun c hc => (hends c hc).2.2 (.inl rfl)
    exact congrArg Except.ok this
  | gt =>
    cases h
    refine ⟨62, rest, rfl, by decide, ?_⟩
    have := @comparator_without rest .gteq .gt fun c hc => (hends c hc).2.2 (.inr (.inl rfl))
    exact congrArg Except.ok this
  | not =>
    cases h
    refine ⟨33, rest, rfl, by decide, ?_⟩
    have := @comparator_without rest .ne .not fun c hc => (hends c hc).2.2 (.inr (.inr rfl))
    exact congrArg Except.ok this
  | _ =>
    cases h
    exact ⟨_, _, rfl, by decide, rfl⟩

theorem readNumber_sound {c : UInt8} {input : Bytes} (hc : isDigit c = true)
    : ∃ word, c :: input = word ++ (readNumber c input).2 ∧ Spells (readNumber c input).1 word := by
  have hds : ∀ d ∈ c :: input.takeWhile isDigit, isDigit d = true := by
    intro d hd
    cases hd with
    | head => exact hc
    | tail _ hd => exact List.mem_takeWhile_imp hd
  have hsplit := List.takeWhile_append_dropWhile (p := isDigit) (l := input)
  unfold readNumber
  dsimp only
  split
  . next hpeek =>
    obtain ⟨fs, hfs⟩ : ∃ fs, input.dropWhile isDigit = 46 :: fs := by
      cases hdrop : input.dropWhile isDigit with
      | nil =>
        rw [hdrop] at hpeek
        cases hpeek
      | cons d fs =>
        rw [hdrop] at hpeek
        have : d = 46 := hpeek
        rw [this]
        exact ⟨fs, rfl⟩
    rw [hfs, List.tail_cons]
    have hdecimals : ∀ d ∈ fs.takeWhile isDigit, isDigit d = true := by
      intro d hd
      exact List.mem_takeWhile_imp hd
    refine ⟨c :: input.takeWhile isDigit ++ 46 :: fs.takeWhile isDigit, ?_, ?_⟩
    . have htail := List.takeWhile_append_dropWhile (p := isDigit) (l := fs)
      rw [hfs] at hsplit
      simp [htail, hsplit]
    . rw [stof_decimal hds hdecimals]
      apply Spells.decimal (by simp) hds hdecimals
  . refine ⟨c :: input.takeWhile isDigit, ?_, ?_⟩
    . rw [List.cons_append, hsplit]
    . rw [stof_whole hds]
      apply Spells.whole (by simp) hds

theorem readNumber_digits {c : UInt8} {ds : Bytes} (hds : ∀ d ∈ c :: ds, isDigit d = true)
    (hrest : ∀ d ∈ rest.head?, isDigit d = false ∧ d ≠ 46)
    : readNumber c (ds ++ rest)
        = ({ type := .number, value := Digits.ofBytes 10 (c :: ds) }, rest) := by
  have hread := Delimiter.takeWhile_stop rest (fun d hd => hds d (List.mem_cons_of_mem c hd))
    fun d hd => (hrest d hd).1
  have hpeek : peek rest ≠ 46 := by
    cases rest with
    | nil => decide
    | cons d rest => exact (hrest d rfl).2
  unfold readNumber
  dsimp only
  rw [hread.1, hread.2, if_neg hpeek, stof_whole hds]

theorem readNumber_decimal {c : UInt8} {ds fs : Bytes} (hds : ∀ d ∈ c :: ds, isDigit d = true)
    (hfs : ∀ d ∈ fs, isDigit d = true) (hrest : ∀ d ∈ rest.head?, isDigit d = false)
    : readNumber c (ds ++ 46 :: (fs ++ rest))
        =
      ({ type := .number, value := Digits.ofBytes 10 (c :: ds) + Digits.ofBytes 10 fs / 10 ^ fs.length },
        rest) := by
  have hread := Delimiter.takeWhile_stop (46 :: (fs ++ rest))
    (fun d hd => hds d (List.mem_cons_of_mem c hd)) (by simp; decide)
  have hdecimals := Delimiter.takeWhile_stop rest hfs hrest
  have hpeek : peek (46 :: (fs ++ rest)) = 46 := rfl
  unfold readNumber
  dsimp only
  rw [hread.1, hread.2, if_pos hpeek, List.tail_cons, hdecimals.1, hdecimals.2,
    stof_decimal hds hfs]

section readToken

variable {c : UInt8} {input : Bytes}

theorem dropWhile_spaces (hws : ∀ c ∈ ws, isSpace c = true) (hc : isSpace c = false)
    : (ws ++ c :: input).dropWhile isSpace = c :: input := by
  rw [List.dropWhile_append_of_pos hws, List.dropWhile_cons_of_neg (by simp [hc])]

theorem readToken_name (hget : get (text.dropWhile isSpace) = (c, input)) (hc : isAlpha c = true)
    : readToken { rest := text } = .ok ((readName c input).1, { rest := (readName c input).2 }) := by
  unfold readToken
  dsimp only
  rw [hget]
  exact if_pos hc

theorem readToken_number (hget : get (text.dropWhile isSpace) = (c, input)) (hc : isAlpha c = false)
    (hdigit : isDigit c = true)
    : readToken { rest := text }
        = .ok ((readNumber c input).1, { rest := (readNumber c input).2 }) := by
  unfold readToken
  dsimp only
  rw [hget]
  simp only [hc, hdigit, Bool.false_eq_true, if_false, if_true]
  rfl

theorem readToken_operator (hget : get (text.dropWhile isSpace) = (c, input))
    (hc : isAlpha c = false) (hdigit : isDigit c = false)
    : readToken { rest := text }
        = (readOperator c input).map fun (type, rest) => ({ type }, { rest }) := by
  unfold readToken
  dsimp only
  rw [hget]
  simp only [hc, hdigit, Bool.false_eq_true, if_false]
  cases readOperator c input <;> rfl

/-
What is read is spelled behind some whitespace, or the end of the text is there.
-/
theorem readToken_sound {tokeniser : Tokeniser} (h : readToken { rest := text } = .ok (t, tokeniser))
    : ∃ ws word, (∀ c ∈ ws, isSpace c = true) ∧ text = ws ++ (word ++ tokeniser.rest)
        ∧ (Spells t word
            ∨ t.type = .eot ∧ (word = [0] ∨ word = [] ∧ tokeniser.rest = [])) := by
  refine ⟨text.takeWhile isSpace, ?_⟩
  have hws : ∀ c ∈ text.takeWhile isSpace, isSpace c = true := by
    intro c hc
    exact List.mem_takeWhile_imp hc
  have hsplit := List.takeWhile_append_dropWhile (p := isSpace) (l := text)
  cases hdrop : text.dropWhile isSpace with
  | nil =>
    have hget : get (text.dropWhile isSpace) = (0, []) := by
      rw [hdrop]
      rfl
    rw [readToken_operator hget (by decide) (by decide)] at h
    cases h
    refine ⟨[], hws, ?_, .inr ⟨rfl, .inr ⟨rfl, rfl⟩⟩⟩
    rw [hdrop] at hsplit
    exact hsplit.symm
  | cons c input =>
    have hget : get (text.dropWhile isSpace) = (c, input) := by
      rw [hdrop]
      rfl
    rw [hdrop] at hsplit
    cases halpha : isAlpha c with
    | true =>
      rw [readToken_name hget halpha] at h
      cases h
      refine ⟨c :: input.takeWhile isNameChar, hws, ?_, .inl ?_⟩
      . have htail := List.takeWhile_append_dropWhile (p := isNameChar) (l := input)
        simp [readName, htail, hsplit]
      . apply Spells.name halpha
        intro d hd
        exact List.mem_takeWhile_imp hd
    | false =>
      cases hdigit : isDigit c with
      | true =>
        rw [readToken_number hget halpha hdigit] at h
        cases h
        obtain ⟨word, hword, hspells⟩ := @readNumber_sound c input hdigit
        refine ⟨word, hws, ?_, .inl hspells⟩
        rw [← hword, hsplit]
      | false =>
        rw [readToken_operator hget halpha hdigit] at h
        cases hread : readOperator c input with
        | error e =>
          rw [hread] at h
          cases h
        | ok r =>
          obtain ⟨type, rest⟩ := r
          rw [hread] at h
          cases h
          obtain ⟨symbol, hsymbol, hchars⟩ | ⟨rfl, rfl, rfl⟩ := readOperator_sound hread
          . refine ⟨chars symbol, hws, ?_, .inl (.symbol hsymbol)⟩
            rw [← hchars, hsplit]
          . refine ⟨[0], hws, ?_, .inr ⟨rfl, .inl rfl⟩⟩
            exact hsplit.symm

theorem readToken_spells (hws : ∀ c ∈ ws, isSpace c = true) (hspells : Spells t word)
    (hends : Ends t rest)
    : readToken { rest := ws ++ (word ++ rest) } = .ok (t, { rest }) := by
  have hget : ∀ {c : UInt8} {input : Bytes}, isSpace c = false →
      get ((ws ++ c :: input).dropWhile isSpace) = (c, input) := by
    intro c input hc
    rw [dropWhile_spaces hws hc]
    rfl
  cases hspells with
  | @name c cs hc hcs =>
    have hread := Delimiter.takeWhile_stop rest hcs fun d hd => (hends d hd).1 rfl
    rw [List.cons_append, readToken_name (hget (isSpace_of_isAlpha hc)) hc]
    simp only [readName, hread]
  | @whole ds hne hds =>
    obtain ⟨c, cs, rfl⟩ := List.exists_cons_of_ne_nil hne
    have hc : isDigit c = true := hds c List.mem_cons_self
    have hread := readNumber_digits hds fun d hd => (hends d hd).2.1 rfl
    rw [List.cons_append,
      readToken_number (hget (isSpace_of_isDigit hc)) ((classes_disjoint c).2 hc).1 hc, hread]
  | @decimal ds fs hne hds hfs =>
    obtain ⟨c, cs, rfl⟩ := List.exists_cons_of_ne_nil hne
    have hc : isDigit c = true := hds c List.mem_cons_self
    have hread := readNumber_decimal hds hfs fun d hd => ((hends d hd).2.1 rfl).1
    rw [List.append_assoc, List.cons_append, List.cons_append,
      readToken_number (hget (isSpace_of_isDigit hc)) ((classes_disjoint c).2 hc).1 hc, hread]
  | @symbol type symbol hsymbol =>
    obtain ⟨c, input, hchars, hc, hread⟩ := readOperator_symbol hsymbol hends
    rw [hchars, readToken_operator (hget hc.1) hc.2.1 hc.2.2, hread]
    rfl

theorem readToken_end (hws : ∀ c ∈ ws, isSpace c = true) (hend : AtEnd rest)
    : readToken { rest := ws ++ rest } = .ok ({ type := .eot }, { rest := rest.tail }) := by
  have hget : get ((ws ++ rest).dropWhile isSpace) = (0, rest.tail) := by
    cases rest with
    | nil =>
      rw [List.append_nil, List.dropWhile_eq_nil_iff.mpr hws]
      rfl
    | cons c rest =>
      have hc : c = 0 := hend c rfl
      subst hc
      rw [dropWhile_spaces hws (by decide)]
      rfl
  rw [readToken_operator hget (by decide) (by decide)]
  rfl

end readToken

end Tokeniser
end Expression
end ObTools
