import Mathlib.Data.Rat.Defs
import ObTools.Lex.Analyser
import ObTools.Lib.Digits
import ObTools.Text.Convert

/-!
This module contains the model of `Expression::Tokeniser`. The iterator is given by the characters that have
not been read yet. A `double` is a rational number.
-/

namespace ObTools
namespace Expression

open ObTools.Lex (Bytes chars get peek isAlpha isDigit)

inductive Token.Type where
  -- Not set
  | unknown
  -- End of text
  | eot
  -- Any float
  | number
  -- Any variable name
  | name
  | mul
  | div
  | plus
  | minus
  | and
  | or
  | not
  | eq
  | lt
  | gt
  | lteq
  | gteq
  | ne
  | lpar
  | rpar
  deriving DecidableEq, Repr

structure Token where
  type : Token.Type
  name : Bytes := []
  value : ℚ := 0
  deriving DecidableEq, Repr

structure Exception where
  error : Bytes
  deriving DecidableEq, Repr

-- `Text::stof` of a number that has no sign and no exponent
def stof (value : Bytes) : ℚ :=
  let rest := value.dropWhile isDigit
  let decimals := if peek rest = 46 then rest.tail.takeWhile isDigit else []
  (Digits.ofBytes 10 (value.takeWhile isDigit ++ decimals) : ℚ) / 10 ^ decimals.length

structure Tokeniser where
  rest : Bytes
  deriving DecidableEq, Repr

namespace Tokeniser

def isNameChar (c : UInt8) : Bool := isAlpha c || isDigit c || c = 95

def readName (c : UInt8) (input : Bytes) : Token × Bytes :=
  ({ type := .name, name := c :: input.takeWhile isNameChar }, input.dropWhile isNameChar)

def readNumber (c : UInt8) (input : Bytes) : Token × Bytes :=
  -- Integer part
  let value := c :: input.takeWhile isDigit
  let input := input.dropWhile isDigit
  -- Optional decimal part
  if peek input = 46 then
    let value := value ++ 46 :: input.tail.takeWhile isDigit
    ({ type := .number, value := stof value }, input.tail.dropWhile isDigit)
  else
    ({ type := .number, value := stof value }, input)

-- Doubled character cases
def doubled (c : UInt8) (type : Token.Type) (error : String) (input : Bytes)
    : Except Exception (Token.Type × Bytes) :=
  if peek input ≠ c then throw { error := chars error } else return (type, input.tail)

-- Comparators
def comparator (withEquals without : Token.Type) (input : Bytes) : Token.Type × Bytes :=
  if peek input = 61 then (withEquals, input.tail) else (without, input)

def unrecognised (c : UInt8) : Exception where
  error := chars "Unrecognised token near '" ++ c :: chars "'"

-- Simple one-character cases
def single (c : UInt8) : Option Token.Type :=
  if c = 43 then some .plus
  else if c = 45 then some .minus
  else if c = 42 then some .mul
  else if c = 47 then some .div
  else if c = 40 then some .lpar
  else if c = 41 then some .rpar
  else none

def readOperator (c : UInt8) (input : Bytes) : Except Exception (Token.Type × Bytes) :=
  if c = 0 then
    return (.eot, input)
  else if let some type := single c then
    return (type, input)
  else if c = 38 then
    doubled c .and "Single (bitwise) & not implemented" input
  else if c = 124 then
    doubled c .or "Single (bitwise) | not implemented" input
  else if c = 61 then
    doubled c .eq "Assignment not implemented - use ==" input
  else if c = 60 then
    return comparator .lteq .lt input
  else if c = 62 then
    return comparator .gteq .gt input
  else if c = 33 then
    return comparator .ne .not input
  else
    throw (unrecognised c)

def readToken (tokeniser : Tokeniser) : Except Exception (Token × Tokeniser) :=
  -- Ignore whitespace
  let (c, input) := get (tokeniser.rest.dropWhile Text.isSpace)
  if isAlpha c then
    let (token, rest) := readName c input
    return (token, { rest })
  else if isDigit c then
    let (token, rest) := readNumber c input
    return (token, { rest })
  else do
    let (type, rest) ← readOperator c input
    return ({ type }, { rest })

end Tokeniser
end Expression
end ObTools
