import ObTools.Json.Value
import ObTools.Lex.Analyser
import ObTools.Lib.Decoder

/-!
This module contains the model of `JSON::Parser`. It runs with fuel, which stands for the depth of
the call stack and the number of iterations of its loops. How a `double` is read is left open.
-/

namespace ObTools
namespace Json
namespace Parser

open ObTools.Lex (Token Analyser chars)

-- Also of the exceptions of the lexical analyser, which are passed on
abbrev Parse (α : Type) := Decoder Analyser Lex.Exception α

def new (input : Bytes) : Analyser :=
  ["\x7b", "\x7d", ":", ",", "[", "]"].foldl (fun lex symbol => lex.addSymbol (chars symbol))
    (Analyser.new input)

def raise {α : Type} (error : Bytes) : Parse α := Decoder.raise { error }

def readToken : Parse Token := Decoder.lift Analyser.readToken

def putBack (token : Token) : Parse Unit := Decoder.lift fun lex => .ok ((), lex.putBack token)

def isSymbol (token : Token) (symbol : String) : Bool :=
  token.type = .symbol && token.value = chars symbol

variable (stof : Bytes → Float)

mutual

def readRestOfObject : Nat → List (Bytes × Value) → Parse (List (Bytes × Value))
  | 0, _ => Decoder.outOfFuel
  | fuel + 1, object => do
    let token ← readToken
    if isSymbol token "\x7d" then
      return object
    else if token.type = .name ∨ token.type = .string then
      let name := token.value
      let token ← readToken
      if isSymbol token ":" then
        let value ← readValue fuel
        let object := mapSet name value object
        -- The next symbol must be , or \x7d
        let token ← readToken
        if isSymbol token "\x7d" then
          return object
        else if isSymbol token "," then
          readRestOfObject fuel object
        else
          raise (chars "Expected , or \x7d")
      else
        raise (chars "Expected :")
    else
      raise (chars "Bad property name " ++ token.value)

def readRestOfArray : Nat → List Value → Parse (List Value)
  | 0, _ => Decoder.outOfFuel
  | fuel + 1, array => do
    let token ← readToken
    if isSymbol token "]" then
      return array
    else
      -- Put the token back for value
      putBack token
      let value ← readValue fuel
      let array := array ++ [value]
      -- The next symbol must be , or ]
      let token ← readToken
      if isSymbol token "]" then
        return array
      else if isSymbol token "," then
        readRestOfArray fuel array
      else
        raise (chars "Expected , or ]")

def readValue : Nat → Parse Value
  | 0 => Decoder.outOfFuel
  | fuel + 1 => do
    let token ← readToken
    match token.type with
    | .end_ => return .null
    | .number =>
      if token.value.contains 46 then
        return .number (stof token.value)
      else
        return .integer (Text.stoi64 token.value).toInt64
    | .string => return .string token.value
    | .name =>
      if token.value = chars "null" then
        return .null
      else if token.value = chars "true" then
        return .true_
      else if token.value = chars "false" then
        return .false_
      else
        raise (chars "Unrecognised bare name " ++ token.value)
    | .symbol =>
      if token.value = chars "\x7b" then
        return .object (← readRestOfObject fuel [])
      else if token.value = chars "[" then
        return .array (← readRestOfArray fuel [])
      else
        raise (chars "Misplaced symbol " ++ token.value)
    | .unknown => raise (chars "Unrecognised token ")

end

end Parser
end Json
end ObTools
