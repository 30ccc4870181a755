import ObTools.Json.Value
import ObTools.Lex.Analyser
import ObTools.Text.Base64

/-!
This module contains the model of the output of a `JSON::Value` as text. How a `double` is put into a
stream is left open.
-/

namespace ObTools
namespace Json
namespace Value

open ObTools.Lex (chars)

variable (showDouble : Float → Bytes)

def spaces (n : Nat) : Bytes := List.replicate n 32

-- `out << n`
def showInteger (n : Int64) : Bytes :=
  if n < 0 then 45 :: Digits.toBytes 10 n.toInt.natAbs else Digits.toBytes 10 n.toInt.natAbs

-- `setw(4) << setfill('0') << hex`
def showHex (c : UInt32) : Bytes :=
  let digits := Digits.toBytes 16 c.toNat
  List.replicate (4 - digits.length) 48 ++ digits

-- The characters with an escape of their own
def escapes : List (UInt32 × UInt8) :=
  [(92, 92), (34, 34), (8, 98), (12, 102), (10, 110), (13, 114), (9, 116)]

def writeChar (c : UInt32) : Bytes :=
  match escapes.find? fun e => e.1 = c with
  | some e => [92, e.2]
  | none =>
    if c.toInt32 > 0x7f then
      if c.toInt32 < 0x10000 then [92, 117] ++ showHex c else chars "\\u++++"
    else
      [c.toUInt8]

def writeStringTo (s : Bytes) : Bytes := 34 :: (Text.Utf8.decode s).flatMap writeChar ++ [34]

-- Whether it requires multiple lines
def isMultiline : Value → Bool
  | object o => !o.isEmpty
  | array a => !a.isEmpty
  | _ => false

mutual

def writeTo (pretty : Bool) (indent : Nat) : Value → Bytes
  | undefined => chars "undefined"
  | null => chars "null"
  | number f => showDouble f
  | integer n => showInteger n
  | string s => writeStringTo s
  | object o =>
    let multiline := pretty && !o.isEmpty
    123 :: (if multiline then [10] else []) ++ writeProperties pretty indent o
      ++ (if multiline then spaces indent else []) ++ 125
      :: (if multiline && indent == 0 then [10] else [])
  | array a =>
    let multiline := pretty && a.any isMultiline
    91 :: (if multiline then [10] else []) ++ writeElements pretty multiline indent a
      ++ (if multiline then spaces indent else []) ++ 93
      :: (if multiline && indent == 0 then [10] else [])
  | true_ => chars "true"
  | false_ => chars "false"
  | binary s => 34 :: Text.Base64.standard.encode 76 [13, 10] s ++ [34]
  | break_ => chars "BREAK"

-- The loop of `write_object_to`
def writeProperties (pretty : Bool) (indent : Nat) : List (Bytes × Value) → Bytes
  | [] => []
  | (name, v) :: o =>
    (if pretty then spaces (indent + 2) else []) ++ 34 :: name ++ [34, 58]
      ++ (if pretty then if v.isMultiline then 10 :: spaces (indent + 2) else [32] else [])
      ++ writeTo pretty (indent + 2) v
      ++ (if o.isEmpty then [] else [44]) ++ (if pretty then [10] else [])
      ++ writeProperties pretty indent o

-- The loop of `write_array_to`
def writeElements (pretty multiline : Bool) (indent : Nat) : List Value → Bytes
  | [] => []
  | v :: a =>
    (if multiline then spaces (indent + 2) else if pretty then [32] else [])
      ++ writeTo pretty (indent + 2) v
      ++ (if a.isEmpty then [] else [44])
      ++ (if multiline then [10] else if pretty && a.isEmpty then [32] else [])
      ++ writeElements pretty multiline indent a

end

def str (pretty : Bool) (v : Value) : Bytes := writeTo showDouble pretty 0 v

end Value
end Json
end ObTools
