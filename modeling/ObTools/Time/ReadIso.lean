import ObTools.Text.Convert
import ObTools.Time.Stamp

/-!
This module contains the model of how `Time::Stamp` is read from text in ISO format. A function that goes
on in the text takes what is left of it, and gives what is left then. `nearest` is the rounding of a
decimal number to one of type `double`.
-/

namespace ObTools
namespace Time
namespace Stamp

abbrev Bytes := List UInt8

def OT_NO_DATA : Int := -1
def OT_BAD_DATA : Int := -2

-- Digits with a decimal point among them
def atof (nearest : ℚ → ℚ) (s : Bytes) : ℚ :=
  let fraction := (s.dropWhile (· ≠ 46)).tail
  nearest (Digits.ofBytes 10 (s.takeWhile (· ≠ 46) ++ fraction) / 10 ^ fraction.length)

-- Read an integer field in length characters
def readPart (text : Bytes) (length : Nat) : Int × Bytes :=
  if text = [] then
    (OT_NO_DATA, text)
  else if text.length < length then
    (OT_BAD_DATA, text)
  else if (text.take length).all (Digits.isDigit 10) then
    ((Text.atoi (text.take length)).toInt, text.drop length)
  else
    (OT_BAD_DATA, text)

def isDecimal (s : Bytes) : Bool := s.all (fun c => c = 46 || Digits.isDigit 10 c) && s.count 46 ≤ 1

-- Read a floating field in length characters
def readPartF (nearest : ℚ → ℚ) (text : Bytes) (length : Nat) : ℚ × Bytes :=
  if text = [] then
    (OT_NO_DATA, text)
  else if length < 2 then
    (OT_BAD_DATA, text)
  else if text.length < length then
    (OT_BAD_DATA, text)
  else if isDecimal (text.take length) then
    (atof nearest (text.take length), text.drop length)
  else
    (OT_BAD_DATA, text)

-- Read an optional filler character
def readFiller (text : Bytes) (c : UInt8) : Bool × Bytes :=
  if text.head? = some c then (true, text.tail) else (false, text)

-- Read HH[:]MM[:]SS into time portion of a split, `none` if not successful
def readTime (nearest : ℚ → ℚ) (text : Bytes) (lenient floatSecs : Bool) (split : Split)
    : Option (Split × Bytes) :=
  let (h, text) := readPart text 2
  if h = OT_BAD_DATA ∨ (h = OT_NO_DATA ∧ ¬lenient) then
    none
  else if 0 ≤ h then
    let split := { split with hour := h }
    let (_, text) := readFiller text 58
    let (mi, text) := readPart text 2
    -- It is the hour that is tested again
    if mi = OT_BAD_DATA ∨ (h = OT_NO_DATA ∧ ¬lenient) then
      none
    else if 0 ≤ mi then
      let split := { split with min := mi }
      let (_, text) := readFiller text 58
      let (s, text) :=
        if floatSecs then
          readPartF nearest text text.length
        else
          ((readPart text 2).1, (readPart text 2).2)
      if s = OT_BAD_DATA ∨ (s = OT_NO_DATA ∧ ¬lenient) then
        none
      else if 0 ≤ s then
        some ({ split with sec := s }, text)
      else
        some (split, text)
    else
      some (split, text)
  else
    some (split, text)

-- Read a timezone offset {+|-}[hh[[:]mm]], which must be all used up
def readTimezoneOffset (text : Bytes) : Option Duration :=
  match text with
  | [] => none
  | c :: text =>
    let sign : ℚ := if c = 45 then -1 else 1
    let (h, text) := readPart text 2
    if h < 0 then
      none
    else
      let (colon, text) := readFiller text 58
      let (m, text) := readPart text 2
      -- Must be there if colon present
      if m < 0 ∧ colon then
        none
      else
        let m := if m < 0 then 0 else m
        if text = [] then some { t := sign * (h * 3600 + m * 60) } else none

-- The date of an ISO timestamp
def readDate (text : Bytes) (split : Split) : Option (Split × Bytes) :=
  let (y, text) := readPart text 4
  if y < 1900 then
    none
  else
    let (_, text) := readFiller text 45
    let (m, text) := readPart text 2
    if m < 0 then
      none
    else
      let (_, text) := readFiller text 45
      let (d, text) := readPart text 2
      if d < 0 then none else some ({ split with year := y, month := m, day := d }, text)

def isZoneStart (c : UInt8) : Bool := c = 45 || c = 43 || c = 90

-- Z or [hh[[:]mm]
def readZone (zone : Bytes) : Option Duration :=
  match zone with
  | [] => some { t := 0 }
  | c :: _ => if c = 90 then some { t := 0 } else readTimezoneOffset zone

-- Read an ISO timestamp, with its timezone offset
def readIso (nearest : ℚ → ℚ) (text : Bytes) (lenient : Bool) : Option (Split × Duration) := do
  let split := { year := 1900, month := 1, day := 1, hour := 0, min := 0, sec := 0 }
  let (split, text) ← readDate text split
  let (space, text) := readFiller text 32
  let (separated, text) := if space then (true, text) else readFiller text 84
  if !separated && !lenient then
    none
  else
    -- The time is cut off at the timezone
    let tzOffset ← readZone (text.dropWhile fun c => !isZoneStart c)
    let (split, rest) ← readTime nearest (text.takeWhile fun c => !isZoneStart c) lenient true split
    if rest = [] then some (split, tzOffset) else none

-- The month is checked before the seconds are cast, which has no result if they do not fit
def castCombine (sp : Split) : Option UInt64 :=
  if sp.month < 1 ∨ 12 < sp.month then
    some 0
  else if 0 ≤ truncate (sp.sec * (1 <<< INTERNAL_SHIFT : UInt64).toNat)
      ∧ truncate (sp.sec * (1 <<< INTERNAL_SHIFT : UInt64).toNat) < 2 ^ 64 then
    some (combine sp)
  else
    none

-- The stamp of a text that starts with a digit
def ofIso (nearest : ℚ → ℚ) (text : Bytes) (lenient : Bool) : Option UInt64 :=
  match readIso nearest text lenient with
  | none => some 0
  | some (split, tzOffset) => (castCombine split).map fun t => sub t tzOffset

end Stamp

end Time
end ObTools
