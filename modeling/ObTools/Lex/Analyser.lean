import ObTools.Text.Convert
import ObTools.Text.Utf8

/-!
This module contains the model of `Lex::Analyser`, and what it makes of strings: of the characters that stand for
themselves, and of the escapes. The input stream is given by the characters that have not been read yet; `get` and
`peek` give 0 at the end of it.
-/

namespace ObTools
namespace Lex

abbrev Bytes := List UInt8

-- The characters of a literal
def chars (s : String) : Bytes := s.toList.map Char.toUInt8

def isAlpha (c : UInt8) : Bool := (65 ≤ c && c ≤ 90) || (97 ≤ c && c ≤ 122)

def isDigit (c : UInt8) : Bool := 48 ≤ c && c ≤ 57

inductive Token.Type where
  | unknown
  | end_
  | name
  | number
  | string
  | symbol
deriving Repr, DecidableEq

structure Token where
  type : Token.Type
  value : Bytes
deriving Repr, DecidableEq

structure Exception where
  error : Bytes
deriving Repr, DecidableEq

def get : Bytes → UInt8 × Bytes
  | [] => (0, [])
  | c :: input => (c, input)

def peek (input : Bytes) : UInt8 := (get input).1

structure Analyser where
  input : Bytes
  allowAlphanumNames : Bool
  allowDashInNames : Bool
  symbols : List Bytes
  pendingTokens : List Token
  lineCommentSymbol : Bytes
deriving Repr, DecidableEq

namespace Analyser

def new (input : Bytes) : Analyser where
  input := input
  allowAlphanumNames := true
  allowDashInNames := false
  symbols := []
  pendingTokens := []
  lineCommentSymbol := []

def addSymbol (lex : Analyser) (symbol : Bytes) : Analyser :=
  { lex with symbols := lex.symbols ++ [symbol] }

def addLineCommentSymbol (lex : Analyser) (symbol : Bytes) : Analyser :=
  { lex.addSymbol symbol with lineCommentSymbol := symbol }

def putBack (lex : Analyser) (token : Token) : Analyser :=
  { lex with pendingTokens := token :: lex.pendingTokens }

variable (lex : Analyser)

def isNameChar (c : UInt8) : Bool :=
  isAlpha c || (isDigit c && lex.allowAlphanumNames) || c = 95 || (lex.allowDashInNames && c = 45)

def readNameToken (c : UInt8) (input : Bytes) : Token × Bytes :=
  ({ type := .name, value := c :: input.takeWhile lex.isNameChar }, input.dropWhile lex.isNameChar)

-- Optional decimal part
def readDecimals (value input : Bytes) : Bytes × Bytes :=
  match input with
  | 46 :: input => (value ++ 46 :: input.takeWhile isDigit, input.dropWhile isDigit)
  | input => (value, input)

def endInExponent : Exception := { error := chars "End of input in number exponent" }

-- Optional exponential
def readExponent (value input : Bytes) : Except Exception (Bytes × Bytes) := do
  if peek input = 101 ∨ peek input = 69 then
    let (c, input) := get input
    let value := value ++ [c]
    let (c, input) := get input
    if c = 0 then
      throw endInExponent
    let (value, c, input) ←
      if c = 43 ∨ c = 45 then
        let value := value ++ [c]
        let (c, input) := get input
        if c = 0 then throw endInExponent else pure (value, c, input)
      else
        pure (value, c, input)
    if isDigit c then
      return (value ++ c :: input.takeWhile isDigit, input.dropWhile isDigit)
    else
      throw { error := chars "Bad character in number exponent" }
  else
    return (value, input)

-- `c` is digit, - or .
def readNumberToken (c : UInt8) (input : Bytes) : Except Exception (Token × Bytes) := do
  let (value, input) := readDecimals (c :: input.takeWhile isDigit) (input.dropWhile isDigit)
  let (value, input) ← readExponent value input
  return ({ type := .number, value }, input)

-- What a single letter escape stands for
def escape (c : UInt8) : Option UInt8 :=
  if c = 47 ∨ c = 92 ∨ c = 34 then
    some c
  else if c = 98 then
    some 8
  else if c = 102 then
    some 12
  else if c = 110 then
    some 10
  else if c = 114 then
    some 13
  else if c = 116 then
    some 9
  else
    none

def readStringLoop (value : Bytes) : Bytes → Except Exception (Bytes × Bytes)
  | [] => throw { error := chars "End of input in string" }
  | c :: input =>
    if c = 0 then
      throw { error := chars "End of input in string" }
    else if c = 34 then
      return (value, input)
    else if c = 92 then
      match input with
      | [] => throw { error := chars "End of input in escape" }
      | e :: input =>
        if e = 0 then
          throw { error := chars "End of input in escape" }
        else if e = 117 then
          match input with
          | h1 :: h2 :: h3 :: h4 :: input =>
            if h1 = 0 ∨ h2 = 0 ∨ h3 = 0 ∨ h4 = 0 then
              throw { error := chars "End of input in \\u escape" }
            else
              readStringLoop (value ++ Text.Utf8.append (Text.xtoi [h1, h2, h3, h4])) input
          | _ => throw { error := chars "End of input in \\u escape" }
        else
          match escape e with
          | some c => readStringLoop (value ++ [c]) input
          | none =>
            throw { error := chars "Unrecognised string escape '" ++ [e] ++ chars "'" }
    else
      readStringLoop (value ++ [c]) input

def readStringToken (input : Bytes) : Except Exception (Token × Bytes) := do
  let (value, input) ← readStringLoop [] input
  return ({ type := .string, value }, input)

/-
The symbol has `len` characters, the last one has only been peeked if it is not the first. There are
no more iterations than the longest symbol has characters.
-/
def readSymbolLoop (symbol : Bytes) (input : Bytes) : Nat → Nat → Except Exception (Token × Bytes)
  | 0, len => return ({ type := .symbol, value := symbol.take (len - 1) }, input)
  | fuel + 1, len =>
    if lex.symbols.any fun candidate => candidate.take len == symbol then
      let input := if len > 1 then (get input).2 else input
      readSymbolLoop (symbol ++ [peek input]) input fuel (len + 1)
    else if len = 1 then
      throw { error := chars "Unrecognised token near '" ++ symbol ++ chars "'" }
    else
      return ({ type := .symbol, value := symbol.take (len - 1) }, input)

def readSymbolToken (c : UInt8) (input : Bytes) : Except Exception (Token × Bytes) :=
  lex.readSymbolLoop [c] input ((lex.symbols.map List.length).foldr max 0 + 1) 1

def readTokenLoop : Nat → Bytes → Except Exception (Token × Bytes)
  | 0, input => return ({ type := .end_, value := [] }, input)
  | fuel + 1, input => do
    -- Ignore whitespace
    let (c, input) := get (input.dropWhile Text.isSpace)
    if c = 0 then
      return ({ type := .end_, value := [] }, input)
    else if isAlpha c ∨ c = 95 then
      return lex.readNameToken c input
    else if isDigit c then
      readNumberToken c input
    else if c = 34 then
      readStringToken input
    else if c = 45 then
      -- Treated as symbol unless followed by digit or .
      if isDigit (peek input) ∨ peek input = 46 then
        readNumberToken c input
      else
        lex.readSymbolToken c input
    else if c = 46 then
      if isDigit (peek input) then
        readNumberToken c input
      else
        lex.readSymbolToken c input
    else
      let (token, input) ← lex.readSymbolToken c input
      if token.type = .symbol ∧ token.value = lex.lineCommentSymbol then
        -- Read to end of line
        readTokenLoop fuel (input.dropWhile fun c => c ≠ 0 ∧ c ≠ 10).tail
      else
        return (token, input)

def readToken : Except Exception (Token × Analyser) :=
  match lex.pendingTokens with
  | token :: pendingTokens => return (token, { lex with pendingTokens })
  | [] => do
    -- Every comment takes some characters
    let (token, input) ← lex.readTokenLoop (lex.input.length + 1) lex.input
    return (token, { lex with input })

-- What stands for itself in a string
def isPlain (c : UInt8) : Bool := c ≠ 0 && c ≠ 34 && c ≠ 92

theorem readStringLoop_plain (value input : Bytes) {c : UInt8} (h : isPlain c = true)
    : readStringLoop value (c :: input) = readStringLoop (value ++ [c]) input := by
  unfold isPlain at h
  simp only [ne_eq, Bool.and_eq_true, decide_eq_true_eq] at h
  rw [readStringLoop.eq_def]
  dsimp only
  rw [if_neg h.1.1, if_neg h.1.2, if_neg h.2]

theorem readStringLoop_quote (value input : Bytes)
    : readStringLoop value (34 :: input) = .ok (value, input) := by
  rw [readStringLoop.eq_def]
  rfl

theorem readStringLoop_escape (value input : Bytes) {e c : UInt8} (h : escape e = some c)
    : readStringLoop value (92 :: e :: input) = readStringLoop (value ++ [c]) input := by
  have h0 : e ≠ 0 := by
    rintro rfl
    contradiction
  have hu : e ≠ 117 := by
    rintro rfl
    contradiction
  rw [readStringLoop.eq_def]
  dsimp only
  rw [if_neg (by decide), if_neg (by decide), if_pos rfl, if_neg h0, if_neg hu, h]

theorem readStringLoop_unicode (value input : Bytes) {h1 h2 h3 h4 : UInt8}
    (hne : h1 ≠ 0 ∧ h2 ≠ 0 ∧ h3 ≠ 0 ∧ h4 ≠ 0)
    : readStringLoop value (92 :: 117 :: h1 :: h2 :: h3 :: h4 :: input)
        =
      readStringLoop (value ++ Text.Utf8.append (Text.xtoi [h1, h2, h3, h4])) input := by
  rw [readStringLoop.eq_def]
  simp [hne]

theorem readStringLoop_plains (value input : Bytes) {s : Bytes} (h : ∀ c ∈ s, isPlain c = true)
    : readStringLoop value (s ++ input) = readStringLoop (value ++ s) input := by
  induction s generalizing value with
  | nil => rw [List.nil_append, List.append_nil]
  | cons c s ih =>
    rw [List.cons_append, readStringLoop_plain _ _ (h c (by simp)), ih _ (fun d hd => h d (by simp [hd])),
      List.append_assoc]
    rfl

end Analyser
end Lex
end ObTools
