import ObTools.Json.PrintLemmas

/-!
This module contains the proof that the parser makes a value out of its tokens, and so that a value
is read back from its text if the names of all properties can be written as they are.
-/

namespace ObTools
namespace Json
namespace Parser

open ObTools.Lex (Token Analyser chars)

variable (stof : Bytes → Float)

/--
The tokens that come next. The first one can have been put back.
-/
def Finds : Analyser → List Token → Bytes → Prop
  | lex, [], rest => lex = new rest
  | lex, token :: tokens, rest =>
    ∃ text, readToken lex = some (.ok (token, new text)) ∧ Lexes text tokens rest

section Finds

variable {lex : Analyser} {text rest : Bytes} {token : Token} {tokens tokens' : List Token}

theorem finds_of_lexes (h : Lexes text tokens rest) : Finds (new text) tokens rest := by
  cases tokens with
  | nil => exact congrArg new h
  | cons token tokens =>
    obtain ⟨text', hread, hlexes⟩ := h
    refine ⟨text', ?_, hlexes⟩
    have := hread [] (by simp)
    exact congrArg some this

theorem finds_putBack (h : Lexes text tokens rest)
    : ∃ lex, putBack token (new text) = some (.ok ((), lex)) ∧ Finds lex (token :: tokens) rest := by
  have hread (lex : Analyser) : readToken (lex.putBack token) = some (.ok (token, lex)) := rfl
  exact ⟨(new text).putBack token, rfl, text, hread (new text), h⟩

theorem Finds.split (h : Finds lex (token :: tokens ++ tokens') rest)
    : ∃ mid, Finds lex (token :: tokens) mid ∧ Lexes mid tokens' rest := by
  obtain ⟨text, hread, hlexes⟩ := h
  obtain ⟨mid, h1, h2⟩ := hlexes.split
  exact ⟨mid, ⟨text, hread, h1⟩, h2⟩

end Finds

theorem stoi64_showInteger (n : Int64) : (Text.stoi64 (Value.showInteger n)).toInt64 = n := by
  have hle := n.le_toInt
  have hlt := n.toInt_lt
  have habs : n.toInt.natAbs < 2 ^ 64 := by omega
  have hdecimal := Text.stoi64_decimal habs
  unfold Value.showInteger
  split
  . next hneg =>
    have hneg : n.toInt < 0 := by simpa using Int64.lt_iff_toInt_lt.mp hneg
    have hcast : (-UInt64.ofNat n.toInt.natAbs).toInt64 = -Int64.ofNat n.toInt.natAbs := by
      rw [UInt64.toInt64_neg, UInt64.toInt64_ofNat']
    rw [hdecimal.2, hcast, ← Int64.ofInt_eq_ofNat, Int.ofNat_natAbs_of_nonpos (by omega),
      ← Int64.ofInt_neg, Int.neg_neg, Int64.ofInt_toInt]
  . next hpos =>
    have hpos : ¬(n.toInt < 0) := by
      intro hneg
      exact hpos (Int64.lt_iff_toInt_lt.mpr (by simpa using hneg))
    rw [hdecimal.1, UInt64.toInt64_ofNat', ← Int64.ofInt_eq_ofNat,
      Int.natAbs_of_nonneg (by omega), Int64.ofInt_toInt]

theorem isDigit_ne_dot : ∀ c : UInt8, Digits.isDigit 10 c = true → c ≠ 46 := by
  apply Digits.forall_byte
  decide

theorem showInteger_contains (n : Int64) : (Value.showInteger n).contains 46 = false := by
  have hdigits : 46 ∉ Digits.toBytes 10 n.toInt.natAbs := by
    intro hc
    exact isDigit_ne_dot 46 (Digits.isDigit_of_mem_toBytes (by decide) (by decide) hc) rfl
  unfold Value.showInteger
  split <;> simp [hdigits]

theorem symbol_type (c : UInt8) : (symbol c).type = .symbol := rfl

-- The first token of a value is not the end of an array
theorem tokens_cons {v : Value} (h : v.Textual)
    : ∃ token tokens, v.tokens = token :: tokens ∧ isSymbol token "]" = false := by
  cases v with
  | undefined => exact absurd h (by simp [Value.Textual])
  | number f => exact absurd h (by simp [Value.Textual])
  | binary s => exact absurd h (by simp [Value.Textual])
  | break_ => exact absurd h (by simp [Value.Textual])
  | object o => exact ⟨_, _, by rw [Value.tokens], by decide⟩
  | array a => exact ⟨_, _, by rw [Value.tokens], by decide⟩
  | _ => exact ⟨_, _, by rw [Value.tokens], rfl⟩

/-
By induction on the value together with the rest of the container it is in. There is at least one
token for each call, so that their number bounds the fuel.
-/
mutual

theorem readValue_tokens
    : (v : Value) → v.Textual → (fuel : Nat) → v.tokens.length ≤ fuel → {lex : Analyser} →
        {rest : Bytes} → Finds lex v.tokens rest →
        readValue stof fuel lex = some (.ok (v, new rest))
  | v, ht, 0, hf, lex, rest, h => by
    have := List.length_pos_of_ne_nil (Value.tokens_ne_nil ht)
    omega
  | .null, _, fuel + 1, _, lex, rest, ⟨text, hread, hlexes⟩ => by
    rw [Lexes] at hlexes
    rw [readValue, Decoder.bind_eq _ hread, hlexes]
    rfl
  | .true_, _, fuel + 1, _, lex, rest, ⟨text, hread, hlexes⟩ => by
    rw [Lexes] at hlexes
    rw [readValue, Decoder.bind_eq _ hread, hlexes]
    rfl
  | .false_, _, fuel + 1, _, lex, rest, ⟨text, hread, hlexes⟩ => by
    rw [Lexes] at hlexes
    rw [readValue, Decoder.bind_eq _ hread, hlexes]
    rfl
  | .integer n, _, fuel + 1, _, lex, rest, ⟨text, hread, hlexes⟩ => by
    rw [Lexes] at hlexes
    rw [readValue, Decoder.bind_eq _ hread, hlexes]
    dsimp only
    rw [showInteger_contains, stoi64_showInteger]
    rfl
  | .string s, _, fuel + 1, _, lex, rest, ⟨text, hread, hlexes⟩ => by
    rw [Lexes] at hlexes
    rw [readValue, Decoder.bind_eq _ hread, hlexes]
    rfl
  | .object o, ht, fuel + 1, hf, lex, rest, h => by
    rw [Value.Textual] at ht
    rw [Value.tokens] at hf h
    obtain ⟨text, hread, hlexes⟩ := h
    have hrest := readRestOfObject_tokens o [] ht.1 ht.2 fuel (by simpa using hf) hlexes
    rw [readValue, Decoder.bind_eq _ hread, symbol_type]
    dsimp only
    rw [if_pos (by decide), Decoder.bind_eq _ hrest]
    rfl
  | .array a, ht, fuel + 1, hf, lex, rest, h => by
    rw [Value.Textual] at ht
    rw [Value.tokens] at hf h
    obtain ⟨text, hread, hlexes⟩ := h
    have hrest := readRestOfArray_tokens a [] ht fuel (by simpa using hf) hlexes
    rw [readValue, Decoder.bind_eq _ hread, symbol_type]
    dsimp only
    rw [if_neg (by decide), if_pos (by decide), Decoder.bind_eq _ hrest]
    rfl
  | .undefined, ht, _ + 1, _, _, _, _ => by
    rw [Value.Textual] at ht
    contradiction
  | .number f, ht, _ + 1, _, _, _, _ => by
    rw [Value.Textual] at ht
    contradiction
  | .binary s, ht, _ + 1, _, _, _, _ => by
    rw [Value.Textual] at ht
    contradiction
  | .break_, ht, _ + 1, _, _, _, _ => by
    rw [Value.Textual] at ht
    contradiction

theorem readRestOfObject_tokens
    : (o done : List (Bytes × Value)) → ((done ++ o).map Prod.fst).Pairwise (· < ·) →
        Value.TextualProperties o → (fuel : Nat) →
        (Value.propertyTokens o).length + 1 ≤ fuel → {text rest : Bytes} →
        Lexes text (Value.propertyTokens o ++ [symbol 125]) rest →
        readRestOfObject stof fuel done (new text) = some (.ok (done ++ o, new rest))
  | _, _, _, _, 0, hf, _, _, _ => by omega
  | [], done, _, _, fuel + 1, _, text, rest, h => by
    obtain ⟨text', hread, hlexes⟩ := finds_of_lexes h
    rw [Lexes] at hlexes
    rw [readRestOfObject, Decoder.bind_eq _ hread, if_pos (by decide), hlexes, List.append_nil]
    rfl
  | (name, v) :: o, done, hs, ht, fuel + 1, hf, text, rest, h => by
    rw [Value.TextualProperties] at ht
    rw [Value.propertyTokens] at h hf
    simp only [List.length_cons, List.length_append] at hf
    rw [List.cons_append, List.cons_append, List.append_assoc] at h
    obtain ⟨text1, hname, h⟩ := finds_of_lexes h
    obtain ⟨text2, hcolon, h⟩ := finds_of_lexes h
    obtain ⟨mid, hv, h⟩ := h.split
    have hvalue := readValue_tokens v ht.2.1 fuel (by omega) (finds_of_lexes hv)
    have hlast : mapSet (quoted name).value v done = done ++ [(name, v)] := by
      apply mapSet_last
      intro l hl
      rw [List.map_append, List.pairwise_append] at hs
      exact hs.2.2 l hl name (by simp)
    rw [readRestOfObject, Decoder.bind_eq _ hname, if_neg (by simp [isSymbol, quoted]),
      if_pos (.inr rfl)]
    dsimp only
    rw [Decoder.bind_eq _ hcolon, if_pos (by decide), Decoder.bind_eq _ hvalue, hlast]
    cases o with
    | nil =>
      obtain ⟨text3, hclose, h⟩ := finds_of_lexes h
      rw [Lexes] at h
      rw [Decoder.bind_eq _ hclose, if_pos (by decide), h]
      rfl
    | cons e o =>
      obtain ⟨text3, hcomma, h⟩ := finds_of_lexes h
      have hrest := readRestOfObject_tokens (e :: o) (done ++ [(name, v)]) (by simpa using hs) ht.2.2
        fuel (by omega) h
      rw [List.append_assoc, List.singleton_append] at hrest
      rw [Decoder.bind_eq _ hcomma, if_neg (by decide), if_pos (by decide), hrest]

theorem readRestOfArray_tokens
    : (a done : List Value) → Value.TextualElements a → (fuel : Nat) →
        (Value.elementTokens a).length + 1 ≤ fuel → {text rest : Bytes} →
        Lexes text (Value.elementTokens a ++ [symbol 93]) rest →
        readRestOfArray stof fuel done (new text) = some (.ok (done ++ a, new rest))
  | _, _, _, 0, hf, _, _, _ => by omega
  | [], done, _, fuel + 1, _, text, rest, h => by
    obtain ⟨text', hread, hlexes⟩ := finds_of_lexes h
    rw [Lexes] at hlexes
    rw [readRestOfArray, Decoder.bind_eq _ hread, if_pos (by decide), hlexes, List.append_nil]
    rfl
  | v :: a, done, ht, fuel + 1, hf, text, rest, h => by
    rw [Value.TextualElements] at ht
    rw [Value.elementTokens] at h hf
    simp only [List.length_append] at hf
    rw [List.append_assoc] at h
    obtain ⟨mid, hv, h⟩ := h.split
    obtain ⟨token, tokens, htokens, hnot⟩ := tokens_cons ht.1
    rw [htokens] at hv
    obtain ⟨text1, hfirst, hv⟩ := finds_of_lexes hv
    obtain ⟨lex, hback, hv⟩ := finds_putBack hv
    rw [← htokens] at hv
    have hvalue := readValue_tokens v ht.1 fuel (by omega) hv
    rw [readRestOfArray, Decoder.bind_eq _ hfirst, if_neg (by simp [hnot]),
      Decoder.bind_eq _ hback, Decoder.bind_eq _ hvalue]
    cases a with
    | nil =>
      obtain ⟨text3, hclose, h⟩ := finds_of_lexes h
      rw [Lexes] at h
      rw [Decoder.bind_eq _ hclose, if_pos (by decide), h]
      rfl
    | cons w a =>
      have hpos := List.length_pos_of_ne_nil (Value.tokens_ne_nil ht.1)
      obtain ⟨text3, hcomma, h⟩ := finds_of_lexes h
      have hrest := readRestOfArray_tokens (w :: a) (done ++ [v]) ht.2 fuel (by omega) h
      rw [List.append_assoc, List.singleton_append] at hrest
      rw [Decoder.bind_eq _ hcomma, if_neg (by decide), if_pos (by decide), hrest]

end

variable (showDouble : Float → Bytes)

/--
The text of a value is read as an equal one if there are no names of properties with quotes or
backslashes in it, because these are not escaped.
-/
theorem text_round_trip (v : Value) (htext : v.Textual) (hplain : v.PlainNames) (pretty : Bool)
    : ∃ fuel, ∀ fuel' ≥ fuel, ∃ res lex,
        readValue stof fuel' (new (v.str showDouble pretty)) = some (.ok (res, lex))
          ∧
        res.equals v = true := by
  obtain ⟨ws, -, hlexes⟩ := Value.writeTo_lexes showDouble pretty v htext hplain 0 [] (by simp [Stops])
  rw [List.append_nil] at hlexes
  refine ⟨v.tokens.length, ?_⟩
  intro fuel' hfuel
  have hread := readValue_tokens stof v htext fuel' hfuel (finds_of_lexes hlexes)
  exact ⟨v, _, hread, Value.equals_self v htext.plain⟩

theorem text_round_trip_nested
    : ∃ fuel, ∀ fuel' ≥ fuel, ∃ res lex,
        readValue (fun _ => 0) fuel'
            (new (chars ("\x7b\n  \"a\":\n  [ -9223372036854775808, null ],\n"
              ++ "  \"b\": \"\\u20ac\\\"\"\n\x7d\n")))
            = some (.ok (res, lex))
          ∧
        res.equals
            (.object [([97], .array [.integer Int64.minValue, .null]),
              ([98], .string [0xe2, 0x82, 0xac, 34])])
            = true := by
  have hstring : IsText [0xe2, 0x82, 0xac, 34] :=
    ⟨[0x20ac, 34], by simp [IsCodePoint], by decide⟩
  obtain ⟨fuel, hfuel⟩ := text_round_trip (fun _ => 0) (fun _ => [])
    (.object [([97], .array [.integer Int64.minValue, .null]),
      ([98], .string [0xe2, 0x82, 0xac, 34])])
    ⟨by decide, ⟨[97], by simp [IsCodePoint], by decide⟩, ⟨trivial, trivial, trivial⟩,
      ⟨[98], by simp [IsCodePoint], by decide⟩, hstring, trivial⟩
    ⟨by simp [IsPlainName], ⟨trivial, trivial, trivial⟩, by simp [IsPlainName], trivial, trivial⟩
    true
  refine ⟨fuel, ?_⟩
  intro fuel' hle
  obtain ⟨res, lex, hread, hequals⟩ := hfuel fuel' hle
  refine ⟨res, lex, ?_, hequals⟩
  rw [← hread]
  apply congrArg (readValue _ fuel')
  decide +kernel

/--
The text of the object is `{"a"b":1}`.
-/
theorem text_quote_in_name
    : ¬(∀ v : Value, v.Textual → ∀ pretty, ∃ fuel, ∀ fuel' ≥ fuel, ∃ res lex,
        readValue (fun _ => 0) fuel' (new (v.str (fun _ => []) pretty)) = some (.ok (res, lex))
          ∧
        res.equals v = true) := by
  intro h
  have htext : (Value.object [([97, 34, 98], .integer 1)]).Textual :=
    ⟨by simp, ⟨[97, 34, 98], by simp [IsCodePoint], by decide⟩, trivial, trivial⟩
  obtain ⟨fuel, hfuel⟩ := h _ htext false
  obtain ⟨res, lex, hread, -⟩ := hfuel (fuel + 2) (by omega)
  have hopen : readToken (new ((Value.object [([97, 34, 98], .integer 1)]).str (fun _ => []) false))
      = some (.ok (symbol 123, new (chars "\"a\"b\":1\x7d"))) := by
    rfl
  have hname : readToken (new (chars "\"a\"b\":1\x7d"))
      = some (.ok (quoted [97], new (chars "b\":1\x7d"))) := by
    have hread := readsToken_propertyName ⟨[97], by simp [IsCodePoint], by decide⟩
      (s := [97]) (by simp [IsPlainName]) (chars "b\":1\x7d")
    exact congrArg some (hread [] (by simp))
  have hcolon : readToken (new (chars "b\":1\x7d"))
      = some (.ok (bare "b", new (chars "\":1\x7d"))) := by
    rfl
  have herror : readRestOfObject (fun _ => 0) (fuel + 1) [] (new (chars "\"a\"b\":1\x7d"))
      = some (.error ⟨chars "Expected :"⟩) := by
    rw [readRestOfObject, Decoder.bind_eq _ hname, if_neg (by decide), if_pos (.inr rfl)]
    dsimp only
    rw [Decoder.bind_eq _ hcolon, if_neg (by decide)]
    rfl
  rw [readValue, Decoder.bind_eq _ hopen, symbol_type] at hread
  dsimp only at hread
  rw [if_pos (by decide)] at hread
  simp only [bind, StateT.bind, ExceptT.bind, ExceptT.mk, herror] at hread
  cases hread

end Parser
end Json
end ObTools
