import ObTools.Channel.Reader
import ObTools.Json.Value
import ObTools.Lib.Decoder
import ObTools.Text.Convert

/-!
This module contains the model of `JSON::CBORWriter` and `JSON::CBORReader`. The writer is given by
the bytes that it sends to its channel. The reader reads from any channel; it runs with fuel, which
stands for the depth of the call stack and the number of iterations of its loops.
-/

namespace ObTools
namespace Json

open Channel (BasicRead Error Reader.readByte Reader.tryRead Reader.tryReadString)

namespace CborWriter

def writeInt (v : UInt64) (majorType : UInt8) : Bytes :=
  let firstByte := majorType <<< 5
  if v < 24 then
    [firstByte ||| v.toUInt8]
  else if v < 256 then
    [firstByte ||| 0x18, v.toUInt8]
  else if v < 65536 then
    (firstByte ||| 0x19) :: BigEndian.toBytes 2 v.toUInt16.toNat
  else if v < 0x100000000 then
    (firstByte ||| 0x1a) :: BigEndian.toBytes 4 v.toUInt32.toNat
  else
    (firstByte ||| 0x1b) :: (BigEndian.toBytes 4 (v >>> 32).toUInt32.toNat
      ++ BigEndian.toBytes 4 (v &&& 0xFFFFFFFF).toUInt32.toNat)

def encodeString (s : Bytes) : Bytes := writeInt (UInt64.ofNat s.length) 3 ++ s

mutual

def encode : Value → Bytes
  | .integer n => if n ≥ 0 then writeInt n.toUInt64 0 else writeInt (-1 - n).toUInt64 1
  | .false_ => [0xf4]
  | .true_ => [0xf5]
  | .null => [0xf6]
  | .undefined => [0xf7]
  | .binary s => writeInt (UInt64.ofNat s.length) 2 ++ s
  | .string s => encodeString s
  | .array a => writeInt (UInt64.ofNat a.length) 4 ++ encodeArray a
  | .object o => writeInt (UInt64.ofNat o.length) 5 ++ encodeObject o
  | .number _ => []
  | .break_ => []

def encodeArray : List Value → Bytes
  | [] => []
  | v :: a => encode v ++ encodeArray a

def encodeObject : List (Bytes × Value) → Bytes
  | [] => []
  | (k, v) :: o => encodeString k ++ (encode v ++ encodeObject o)

end

def openIndefiniteArray : Bytes := [0x9f]

def closeIndefiniteArray : Bytes := [0xff]

end CborWriter

namespace CborReader

abbrev Decode (σ α : Type) := Decoder σ Error α

variable {σ α : Type}

def raise (error : Int) (text : String) : Decode σ α := Decoder.raise { error, text }

variable (basicRead : BasicRead σ)

def readByte : Decode σ UInt8 := Decoder.lift (Reader.readByte (Reader.tryRead basicRead))

def readString (len : UInt64) : Decode σ Bytes :=
  Decoder.lift fun reader =>
    let res := Channel.Reader.readString (Reader.tryReadString basicRead) len.toNat reader
    match res.outcome with
    | .error e => .error e
    | .ok _ => .ok (res.data, res.reader)

def readInt (initialByte : UInt8) : Decode σ UInt64 :=
  let ai := initialByte &&& 0x1f
  if ai < 24 then
    return ai.toUInt64
  else if ai = 24 then
    return (← readByte basicRead).toUInt64
  else if ai = 25 then
    return (← Decoder.lift (Channel.Reader.readNbo16 (Reader.tryRead basicRead))).toUInt64
  else if ai = 26 then
    return (← Decoder.lift (Channel.Reader.readNbo32 (Reader.tryRead basicRead))).toUInt64
  else if ai = 27 then
    Decoder.lift (Channel.Reader.readNbo64 (Reader.tryRead basicRead))
  else
    raise 11 s!"Unknown additional information {ai.toNat}"

-- The name of the property for a key, where a 64 bit integer is passed as an `int`
def keyName : Value → Decode σ Bytes
  | .string s => return s
  | .integer n => return Text.itos n.toInt32
  | _ => raise 13 "Can't handle non-string or integer CBOR object keys"

mutual

def decode : Nat → Decode σ Value
  | 0 => Decoder.outOfFuel
  | fuel + 1 => do
    let initialByte ← readByte basicRead
    let majorType := initialByte >>> 5
    if majorType = 0 then
      return .integer (← readInt basicRead initialByte).toInt64
    else if majorType = 1 then
      return .integer (-1 - (← readInt basicRead initialByte)).toInt64
    else if majorType = 2 then
      return .binary (← readString basicRead (← readInt basicRead initialByte))
    else if majorType = 3 then
      return .string (← readString basicRead (← readInt basicRead initialByte))
    else if majorType = 4 then
      if initialByte = 0x9f then
        return .array (← decodeIndefiniteArray fuel [])
      else
        return .array (← decodeArray (← readInt basicRead initialByte) fuel 0 [])
    else if majorType = 5 then
      if initialByte = 0xbf then
        return .object (← decodeIndefiniteObject fuel [])
      else
        return .object (← decodeObject (← readInt basicRead initialByte) fuel 0 [])
    else if majorType = 6 then
      let type := initialByte &&& 0x1f
      let type ← if type > 23 then readByte basicRead else pure type
      -- Embedded CBOR, for deferred decoding
      if type = 24 then
        return .binary (CborWriter.encode (← decode fuel))
      else
        raise 14 s!"Unhandled tag type {type.toNat}"
    else
      match (initialByte &&& 0x1f).toNat with
      | 20 => return .false_
      | 21 => return .true_
      | 22 => return .null
      | 23 => return .undefined
      | 31 => return .break_
      | type => raise 12 s!"Unhandled float/simple type {type}"

def decodeIndefiniteArray : Nat → List Value → Decode σ (List Value)
  | 0, _ => Decoder.outOfFuel
  | fuel + 1, a => do
    match ← decode fuel with
    | .break_ => return a
    | v => decodeIndefiniteArray fuel (a ++ [v])

-- The loop counter is an `unsigned int`
def decodeArray (len : UInt64) : Nat → UInt32 → List Value → Decode σ (List Value)
  | 0, _, _ => Decoder.outOfFuel
  | fuel + 1, i, a => do
    if i.toUInt64 < len then
      let v ← decode fuel
      decodeArray len fuel (i + 1) (a ++ [v])
    else
      return a

def decodeIndefiniteObject
    : Nat → List (Bytes × Value) → Decode σ (List (Bytes × Value))
  | 0, _ => Decoder.outOfFuel
  | fuel + 1, o => do
    match ← decode fuel with
    | .break_ => return o
    | key =>
      let name ← keyName key
      let v ← decode fuel
      decodeIndefiniteObject fuel (mapSet name v o)

def decodeObject (len : UInt64)
    : Nat → UInt32 → List (Bytes × Value) → Decode σ (List (Bytes × Value))
  | 0, _, _ => Decoder.outOfFuel
  | fuel + 1, i, o => do
    if i.toUInt64 < len then
      let key ← decode fuel
      let name ← keyName key
      let v ← decode fuel
      decodeObject len fuel (i + 1) (mapSet name v o)
    else
      return o

end

def openIndefiniteArray : Decode σ Bool := do
  return (← readByte basicRead) == 0x9f

end CborReader

end Json
end ObTools
