import ObTools.Lex.Analyser
import ObTools.Text.Convert
import ObTools.Web.MIMEHeaders

/-!
This module contains the model of `Web::HTTPMessage`. The URL is given by its text.

What is left in a message and in its stream by a read that fails is not looked at by anyone.
-/

namespace ObTools
namespace Web

open ObTools.Lex (chars)

structure HTTPMessage where
  method : List UInt8
  url : List UInt8
  code : Int32
  reason : List UInt8
  version : List UInt8
  headers : MIMEHeaders
  body : List UInt8
deriving DecidableEq, Repr

-- How a number of type `int` is written
def showInt (i : Int32) : List UInt8 :=
  if i < 0 then 45 :: Digits.toBytes 10 i.toInt.natAbs else Digits.toBytes 10 i.toInt.natAbs

namespace HTTPMessage

def READ_SIZE : Nat := 4096
def MAX_FIRST_LINE : Nat := 8000

def getFirstLine (input : List UInt8) : Line := getlineLoop MAX_FIRST_LINE true 0 [] input

theorem getFirstLine_length (input : List UInt8)
    : (getFirstLine input).ok = true → (getFirstLine input).rest.length < input.length :=
  (getlineLoop_length ..).2

-- Lenient about blank lines
def readFirstLine (input : List UInt8) : Line :=
  let line := getFirstLine input
  if line.ok = true ∧ line.s = [] then readFirstLine line.rest else line
termination_by input.length
decreasing_by
  next h => exact getFirstLine_length input h.1

def wanted (length count : Int) : Nat :=
  if length ≠ 0 ∧ length - count < READ_SIZE then (length - count).toNat else READ_SIZE

theorem wanted_pos {length count : Int} (h : length = 0 ∨ count < length) : 0 < wanted length count := by
  unfold wanted
  split
  . omega
  . decide

-- The loop that reads this much or, for 0, up to end of stream
def readBody (length count : Int) (body input : List UInt8) : List UInt8 × List UInt8 :=
  if length = 0 ∨ count < length then
    if input.length < wanted length count then
      (body ++ input, [])
    else
      readBody length (count + wanted length count) (body ++ input.take (wanted length count))
        (input.drop (wanted length count))
  else
    (body, input)
termination_by input.length
decreasing_by
  next h hle =>
    have hpos := wanted_pos h
    rw [List.length_drop]
    omega

theorem readBody_length (length count : Int) (body input : List UInt8)
    : (readBody length count body input).2.length ≤ input.length := by
  induction count, body, input using readBody.induct length with
  | case1 count body input h hlt =>
    rw [readBody, if_pos h, if_pos hlt]
    exact Nat.zero_le _
  | case2 count body input h hle ih =>
    rw [List.length_drop] at ih
    rw [readBody, if_pos h, if_neg hle]
    exact Nat.le_trans ih (Nat.sub_le _ _)
  | case3 count body input h => exact Nat.le_of_eq (by rw [readBody, if_neg h])

-- The text before a space, and what comes behind it
def splitWord (line : List UInt8) : Option (List UInt8 × List UInt8) :=
  if 32 ∈ line then some (line.takeWhile (· ≠ 32), (line.dropWhile (· ≠ 32)).tail) else none

def readInterleaved (m : HTTPMessage) : List UInt8 → Option (HTTPMessage × List UInt8)
  | channel :: c1 :: c2 :: input =>
    let length : Int := (c1.toUInt16 <<< 8 + c2.toUInt16).toNat
    let (body, input) := if length ≠ 0 then readBody length 0 [] input else ([], input)
    some ({ m with
      method := chars "$"
      code := channel.toUInt32.toInt32
      body := body
      url := []
      version := []
      reason := [] }, input)
  | _ => none

def readHeaders (m : HTTPMessage) (input : List UInt8) : Option (HTTPMessage × List UInt8) :=
  let line := readFirstLine input
  if !line.ok then
    none
  else if line.s = chars "$" then
    readInterleaved m line.rest
  else do
    let (first, rest) ← splitWord line.s
    let (second, rest) ← splitWord rest
    let m :=
      -- Check for '/' in first word, indicating response
      if 47 ∈ first then
        { m with version := first, code := Text.atoi second, reason := rest, method := [], url := [] }
      else
        { m with method := first, url := second, version := rest, code := 0, reason := [] }
    let result := m.headers.read line.rest false
    if result.ok then some ({ m with headers := result.headers }, result.rest) else none

-- The line might effectively be blank because it's actually the end of the previous chunk
def getChunkLine (input : List UInt8) : Line :=
  let line := MIMEHeaders.getline input
  if line.ok = true ∧ line.s = [] then MIMEHeaders.getline line.rest else line

theorem getChunkLine_length (input : List UInt8)
    : (getChunkLine input).ok = true → (getChunkLine input).rest.length < input.length := by
  intro hok
  unfold getChunkLine at hok ⊢
  dsimp only at hok ⊢
  split
  . next h =>
    have h1 := (MIMEHeaders.getline_length input).2 h.1
    have h2 := (MIMEHeaders.getline_length (MIMEHeaders.getline input).rest).1
    omega
  . next h =>
    rw [if_neg h] at hok
    exact (MIMEHeaders.getline_length input).2 hok

def readChunks (body input : List UInt8) : Option (List UInt8 × List UInt8) :=
  let line := getChunkLine input
  if !line.ok then
    none
  else
    let length := (Text.xtoi ((Text.splitFields line.s 59).headD [])).toInt32.toInt
    if length = 0 then
      some (body, line.rest)
    else
      let result := readBody length 0 body line.rest
      readChunks result.1 result.2
termination_by input.length
decreasing_by
  next hok _ =>
    exact Nat.lt_of_le_of_lt (readBody_length ..) (getChunkLine_length input (by simpa using hok))

def read (m : HTTPMessage) (input : List UInt8) (readToEof : Bool) : Option (HTTPMessage × List UInt8) := do
  let (m, input) ← readHeaders m input
  if m.method = chars "$" then
    some (m, input)
  else
    -- Only allow read to eof for POST or responses
    let readToEof := if m.method ≠ chars "POST" ∧ m.method ≠ [] then false else readToEof
    let length := (Text.stoi (m.headers.get (chars "content-length"))).toInt
    let chunked := (m.headers.get (chars "transfer-encoding")).map Text.Pattern.tolower = chars "chunked"
    if chunked then
      let (body, input) ← readChunks [] input
      -- We allow this to fail
      let result := m.headers.read input true
      some ({ m with headers := result.headers, body }, result.rest)
    else
      let (body, input) := if length ≠ 0 ∨ readToEof = true then readBody length 0 [] input else ([], input)
      some ({ m with body }, input)

def writeStartLine (m : HTTPMessage) : List UInt8 :=
  if m.method ≠ [] then
    m.method ++ 32 :: m.url ++ 32 :: m.version ++ [13, 10]
  else
    m.version ++ 32 :: showInt m.code ++ 32 :: m.reason ++ [13, 10]

def writeHeaders (m : HTTPMessage) : List UInt8 :=
  m.writeStartLine
    ++ (if !m.headers.has (chars "Content-Length") ∧ !m.headers.has (chars "content-length")
          ∧ m.headers.get (chars "Transfer-Encoding") ≠ chars "chunked" then
        chars "Content-Length: " ++ Digits.toBytes 10 m.body.length ++ [13, 10]
      else
        [])
    ++ m.headers.write

def write (m : HTTPMessage) (headersOnly : Bool) : List UInt8 :=
  m.writeHeaders
    ++ (if headersOnly then
        []
      else if m.method = chars "$" then
        chars "[Binary data, " ++ Digits.toBytes 10 m.body.length ++ chars " bytes]\n"
      else
        m.body)

end HTTPMessage

end Web
end ObTools
