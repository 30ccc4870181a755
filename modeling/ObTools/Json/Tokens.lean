import ObTools.Json.Parser
import ObTools.Json.Print
import ObTools.Lex.Analyser

/-!
This module contains the tokens that a value consists of, and the proof that they are what the
lexical analyser finds in its text, whether or not that is pretty.
-/

namespace ObTools
namespace Json

open ObTools.Lex (Token Analyser chars)

def symbol (c : UInt8) : Token := { type := .symbol, value := [c] }

def quoted (s : Bytes) : Token := { type := .string, value := s }

def bare (s : String) : Token := { type := .name, value := chars s }

def isSymbolChar (c : UInt8) : Bool :=
  c = 123 || c = 125 || c = 58 || c = 44 || c = 91 || c = 93

-- A token, with any spaces in front of it
def ReadsToken (text : Bytes) (token : Token) (rest : Bytes) : Prop :=
  ∀ ws : Bytes, (∀ c ∈ ws, Text.isSpace c = true) →
    (Parser.new (ws ++ text)).readToken = .ok (token, Parser.new rest)

-- What can follow a name or a number
def Stops (rest : Bytes) : Prop :=
  ∀ c ∈ rest.head?, c = 44 ∨ c = 93 ∨ c = 125 ∨ c = 32 ∨ c = 10

section ReadsToken

variable {text rest : Bytes} {token : Token}

/-
The loop is run once, because there are no comments.
-/
theorem readsToken_of_loop {c : UInt8} (hc : Text.isSpace c = false)
    (h : ∀ fuel ws, (∀ c ∈ ws, Text.isSpace c = true) →
      (ws ++ c :: text).dropWhile Text.isSpace = c :: text →
      (Parser.new (ws ++ c :: text)).readTokenLoop (fuel + 1) (ws ++ c :: text)
        = .ok (token, rest))
    : ReadsToken (c :: text) token rest := by
  intro ws hws
  have hdrop : (ws ++ c :: text).dropWhile Text.isSpace = c :: text := by
    rw [List.dropWhile_append_of_pos hws, List.dropWhile_cons_of_neg (by simp [hc])]
  have hloop := h (ws ++ c :: text).length ws hws hdrop
  have hread : (Parser.new (ws ++ c :: text)).readToken
      = (do
          let read ← (Parser.new (ws ++ c :: text)).readTokenLoop
            ((ws ++ c :: text).length + 1) (ws ++ c :: text)
          return (read.1, Parser.new read.2)) := rfl
  rw [hread, hloop]
  rfl

theorem isSymbolChar_cases {c : UInt8} (h : isSymbolChar c = true)
    : c = 123 ∨ c = 125 ∨ c = 58 ∨ c = 44 ∨ c = 91 ∨ c = 93 := by
  simpa [isSymbolChar, or_assoc] using h

theorem new_symbols (text : Bytes)
    : (Parser.new text).symbols = [[123], [125], [58], [44], [91], [93]] := rfl

theorem readSymbolToken_single (text input : Bytes) {c : UInt8} (hc : isSymbolChar c = true)
    : (Parser.new text).readSymbolToken c input = .ok (symbol c, input) := by
  have hfound : (Parser.new text).symbols.any (fun candidate => candidate.take 1 == [c]) = true := by
    rw [new_symbols]
    rcases isSymbolChar_cases hc with rfl | rfl | rfl | rfl | rfl | rfl <;> decide
  have hnot : (Parser.new text).symbols.any (fun candidate => candidate.take 2 == [c, Lex.peek input])
      = false := by
    rw [new_symbols]
    simp
  have hfuel : ((Parser.new text).symbols.map List.length).foldr max 0 + 1 = 2 := by
    rw [new_symbols]
    rfl
  unfold Analyser.readSymbolToken
  rw [hfuel, Analyser.readSymbolLoop, if_pos hfound]
  dsimp only
  rw [if_neg (by decide), Analyser.readSymbolLoop, List.singleton_append, if_neg (by simp [hnot]),
    if_neg (by decide)]
  rfl

theorem readsToken_symbol {c : UInt8} (hc : isSymbolChar c = true) (rest : Bytes)
    : ReadsToken (c :: rest) (symbol c) rest := by
  have hclass : Text.isSpace c = false ∧ c ≠ 0 ∧ Lex.isAlpha c = false ∧ c ≠ 95
      ∧ Lex.isDigit c = false ∧ c ≠ 34 ∧ c ≠ 45 ∧ c ≠ 46 := by
    rcases isSymbolChar_cases hc with rfl | rfl | rfl | rfl | rfl | rfl <;> decide
  apply readsToken_of_loop hclass.1
  intro fuel ws hws hdrop
  rw [Analyser.readTokenLoop, hdrop]
  simp only [Lex.get, hclass, ↓reduceIte, Bool.false_eq_true, false_or,
    readSymbolToken_single _ _ hc]
  rfl

theorem readsToken_string {s : Bytes} (h : Analyser.readStringLoop [] text = .ok (s, rest))
    : ReadsToken (34 :: text) (quoted s) rest := by
  apply readsToken_of_loop (by decide)
  intro fuel ws hws hdrop
  rw [Analyser.readTokenLoop, hdrop]
  have hstring : Analyser.readStringToken text = .ok (quoted s, rest) := by
    unfold Analyser.readStringToken
    rw [h]
    rfl
  simp only [Lex.get, hstring]
  rfl

-- Neither of the two is continued
theorem Stops.spec (h : Stops rest)
    : (∀ p : UInt8 → Bool, p 44 = false → p 93 = false → p 125 = false → p 32 = false →
        p 10 = false → rest.takeWhile p = [] ∧ rest.dropWhile p = rest)
        ∧
      Lex.peek rest ≠ 46 ∧ Lex.peek rest ≠ 101 ∧ Lex.peek rest ≠ 69 := by
  cases rest with
  | nil => simp [Lex.peek, Lex.get]
  | cons c rest =>
    have hc : c = 44 ∨ c = 93 ∨ c = 125 ∨ c = 32 ∨ c = 10 := h c (by simp)
    refine ⟨?_, ?_⟩
    . intro p h1 h2 h3 h4 h5
      rcases hc with rfl | rfl | rfl | rfl | rfl <;> simp [h1, h2, h3, h4, h5]
    . simp only [Lex.peek, Lex.get]
      rcases hc with rfl | rfl | rfl | rfl | rfl <;> decide

theorem takeWhile_append_stop {p : UInt8 → Bool} {s : Bytes} (hs : ∀ c ∈ s, p c = true)
    (hrest : rest.takeWhile p = [] ∧ rest.dropWhile p = rest)
    : (s ++ rest).takeWhile p = s ∧ (s ++ rest).dropWhile p = rest := by
  rw [List.takeWhile_append_of_pos hs, List.dropWhile_append_of_pos hs, hrest.1, hrest.2,
    List.append_nil]
  exact ⟨rfl, rfl⟩

theorem isAlpha_spec
    : ∀ c : UInt8, Lex.isAlpha c = true → Text.isSpace c = false ∧ c ≠ 0 := by
  apply Digits.forall_byte
  decide

theorem isDigit_spec
    : ∀ c : UInt8, Lex.isDigit c = true →
        Text.isSpace c = false ∧ c ≠ 0 ∧ Lex.isAlpha c = false ∧ c ≠ 95 := by
  apply Digits.forall_byte
  decide

theorem readsToken_name {c : UInt8} {s : Bytes} (hc : Lex.isAlpha c = true)
    (hs : s.all Lex.isAlpha = true) (hrest : Stops rest)
    : ReadsToken (c :: (s ++ rest)) { type := .name, value := c :: s } rest := by
  rw [List.all_eq_true] at hs
  have hclass := isAlpha_spec c hc
  apply readsToken_of_loop hclass.1
  intro fuel ws hws hdrop
  generalize hlex : Parser.new (ws ++ c :: (s ++ rest)) = lex
  have hstop := hrest.spec.1 lex.isNameChar (by subst hlex; rfl) (by subst hlex; rfl)
    (by subst hlex; rfl) (by subst hlex; rfl) (by subst hlex; rfl)
  have hname : ∀ c ∈ s, lex.isNameChar c = true := by
    intro d hd
    simp [Analyser.isNameChar, hs d hd]
  obtain ⟨htake, hrest⟩ := takeWhile_append_stop hname hstop
  rw [Analyser.readTokenLoop, hdrop]
  simp only [Lex.get, hclass.2, hc, ↓reduceIte, true_or, Analyser.readNameToken, htake, hrest]
  rfl

theorem readDecimals_of_ne {value input : Bytes} (h : Lex.peek input ≠ 46)
    : Analyser.readDecimals value input = (value, input) := by
  unfold Analyser.readDecimals
  split
  . exact absurd rfl h
  . rfl

theorem readExponent_of_ne {value input : Bytes} (h1 : Lex.peek input ≠ 101)
    (h2 : Lex.peek input ≠ 69)
    : Analyser.readExponent value input = .ok (value, input) := by
  unfold Analyser.readExponent
  rw [if_neg (by simp [h1, h2])]
  rfl

theorem readNumberToken_ends {c : UInt8} {s : Bytes} (hs : ∀ c ∈ s, Lex.isDigit c = true)
    (hstop : rest.takeWhile Lex.isDigit = [] ∧ rest.dropWhile Lex.isDigit = rest)
    (hpeek : Lex.peek rest ≠ 46 ∧ Lex.peek rest ≠ 101 ∧ Lex.peek rest ≠ 69)
    : Analyser.readNumberToken c (s ++ rest) = .ok ({ type := .number, value := c :: s }, rest) := by
  obtain ⟨htake, hdrop⟩ := takeWhile_append_stop hs hstop
  unfold Analyser.readNumberToken
  rw [htake, hdrop, readDecimals_of_ne hpeek.1]
  dsimp only
  rw [readExponent_of_ne hpeek.2.1 hpeek.2.2]
  rfl

theorem readNumberToken_digits {c : UInt8} {s : Bytes} (hs : ∀ c ∈ s, Lex.isDigit c = true)
    (hrest : Stops rest)
    : Analyser.readNumberToken c (s ++ rest) = .ok ({ type := .number, value := c :: s }, rest) := by
  have hstop := hrest.spec.1 Lex.isDigit (by decide) (by decide) (by decide) (by decide) (by decide)
  exact readNumberToken_ends hs hstop hrest.spec.2

theorem readsToken_number {c : UInt8} {s : Bytes} (hc : Lex.isDigit c = true)
    (hs : ∀ c ∈ s, Lex.isDigit c = true) (hrest : Stops rest)
    : ReadsToken (c :: (s ++ rest)) { type := .number, value := c :: s } rest := by
  have hclass := isDigit_spec c hc
  apply readsToken_of_loop hclass.1
  intro fuel ws hws hdrop
  rw [Analyser.readTokenLoop, hdrop]
  simp only [Lex.get, hclass, hc, ↓reduceIte, Bool.false_eq_true, false_or,
    readNumberToken_digits hs hrest]

theorem readsToken_negative {s : Bytes} (hne : s ≠ []) (hs : ∀ c ∈ s, Lex.isDigit c = true)
    (hrest : Stops rest)
    : ReadsToken (45 :: (s ++ rest)) { type := .number, value := 45 :: s } rest := by
  apply readsToken_of_loop (by decide)
  intro fuel ws hws hdrop
  have hdigit : Lex.isDigit (Lex.peek (s ++ rest)) = true := by
    cases s with
    | nil => contradiction
    | cons d s => exact hs d (by simp)
  rw [Analyser.readTokenLoop, hdrop]
  simp only [Lex.get, hdigit, readNumberToken_digits hs hrest]
  rfl

end ReadsToken

/--
The text is read as the tokens, one after the other.
-/
def Lexes : Bytes → List Token → Bytes → Prop
  | text, [], rest => text = rest
  | text, token :: tokens, rest => ∃ text', ReadsToken text token text' ∧ Lexes text' tokens rest

namespace Lexes

variable {text mid rest : Bytes} {tokens tokens' : List Token}

theorem append (h : Lexes text tokens mid) (h' : Lexes mid tokens' rest)
    : Lexes text (tokens ++ tokens') rest := by
  induction tokens generalizing text with
  | nil =>
    rw [Lexes] at h
    rw [h]
    exact h'
  | cons token tokens ih =>
    obtain ⟨text', hread, hlexes⟩ := h
    exact ⟨text', hread, ih hlexes⟩

theorem split (h : Lexes text (tokens ++ tokens') rest)
    : ∃ mid, Lexes text tokens mid ∧ Lexes mid tokens' rest := by
  induction tokens generalizing text with
  | nil => exact ⟨text, rfl, h⟩
  | cons token tokens ih =>
    obtain ⟨text', hread, hlexes⟩ := h
    obtain ⟨mid, h1, h2⟩ := ih hlexes
    exact ⟨mid, ⟨text', hread, h1⟩, h2⟩

-- Spaces are ignored
theorem spaces {ws : Bytes} (hws : ∀ c ∈ ws, Text.isSpace c = true) (hne : tokens ≠ [])
    (h : Lexes text tokens rest)
    : Lexes (ws ++ text) tokens rest := by
  cases tokens with
  | nil => contradiction
  | cons token tokens =>
    obtain ⟨text', hread, hlexes⟩ := h
    refine ⟨text', ?_, hlexes⟩
    intro ws' hws'
    rw [← List.append_assoc]
    apply hread
    intro c hc
    rw [List.mem_append] at hc
    cases hc with
    | inl hc => exact hws' c hc
    | inr hc => exact hws c hc

theorem token {token : Token} (h : ReadsToken text token rest) : Lexes text [token] rest :=
  ⟨rest, h, rfl⟩

end Lexes

end Json
end ObTools
