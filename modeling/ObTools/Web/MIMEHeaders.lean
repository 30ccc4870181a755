import ObTools.Text.Pattern
import ObTools.Text.Split

/-!
This module contains the model of `Web::MIMEHeaders`.

A stream is what is left of it. Whoever reads from a stream that has failed, or is at its end, finds
nothing more, so that there is no difference between the two.
-/

namespace ObTools
namespace Web

structure Line where
  ok : Bool
  s : List UInt8
  rest : List UInt8
deriving DecidableEq, Repr

/-
The two functions that get a line. One of them takes a `$` at the start for a line of its own.
-/
def getlineLoop (max : Nat) (interleaved : Bool) : Nat → List UInt8 → List UInt8 → Line
  -- Should end cleanly with blank line
  | _, s, [] => { ok := false, s, rest := [] }
  | count, s, c :: input =>
    if c = 13 then
      -- Skip remaining LF if present
      { ok := true, s, rest := if input.head? = some 10 then input.tail else input }
    else if c = 10 then
      { ok := true, s, rest := input }
    else if interleaved ∧ c = 36 ∧ count = 0 then
      { ok := true, s := s ++ [c], rest := input }
    else if count + 1 < max then
      getlineLoop max interleaved (count + 1) (s ++ [c]) input
    else
      { ok := false, s, rest := input }

theorem getlineLoop_length (max : Nat) (interleaved : Bool) (count : Nat) (s input : List UInt8)
    : (getlineLoop max interleaved count s input).rest.length ≤ input.length
        ∧ ((getlineLoop max interleaved count s input).ok = true
            → (getlineLoop max interleaved count s input).rest.length < input.length) := by
  induction input generalizing count s with
  | nil => simp [getlineLoop]
  | cons c input ih =>
    have htail : input.tail.length ≤ input.length := by
      rw [List.length_tail]
      exact Nat.sub_le _ _
    unfold getlineLoop
    split
    . split
      . simp only [List.length_cons]
        omega
      . simp only [List.length_cons]
        omega
    . split
      . simp
      . split
        . simp
        . split
          . have := ih (count + 1) (s ++ [c])
            simp only [List.length_cons]
            omega
          . simp

structure MIMEHeaders where
  maxLine : Nat
  xml : List (List UInt8 × List UInt8)
deriving DecidableEq, Repr

namespace MIMEHeaders

def MAX_HEADER : Nat := 8000

def new : MIMEHeaders := { maxLine := 0, xml := [] }

def has (headers : MIMEHeaders) (name : List UInt8) : Bool := headers.xml.any fun e => e.1 = name

-- The first of that name
def get (headers : MIMEHeaders) (name : List UInt8) : List UInt8 :=
  ((headers.xml.find? fun e => e.1 = name).map (·.2)).getD []

def put (headers : MIMEHeaders) (name value : List UInt8) : MIMEHeaders :=
  { headers with xml := headers.xml ++ [(name, value)] }

def getline (input : List UInt8) : Line := getlineLoop MAX_HEADER false 0 [] input

theorem getline_length (input : List UInt8)
    : (getline input).rest.length ≤ input.length
        ∧ ((getline input).ok = true → (getline input).rest.length < input.length) :=
  getlineLoop_length ..

-- Check for following LWS, which indicates a continuation header
def readContinued (value input : List UInt8) : Line :=
  if input.head? = some 32 ∨ input.head? = some 9 then
    let extra := getline input.tail
    if !extra.ok then
      { ok := false, s := value, rest := extra.rest }
    -- The total length is limited too
    else if MAX_HEADER < value.length + extra.s.length then
      { ok := false, s := value, rest := extra.rest }
    else
      readContinued (value ++ 32 :: extra.s) extra.rest
  else
    { ok := true, s := value, rest := input }
termination_by input.length
decreasing_by
  next h _ _ =>
    have hrest := (getline_length input.tail).1
    have htail : input.tail.length < input.length := by
      cases input with
      | nil => simp at h
      | cons c input => simp
    omega

theorem readContinued_length (value input : List UInt8)
    : (readContinued value input).rest.length ≤ input.length := by
  induction value, input using readContinued.induct with
  | case1 value input h extra hok =>
    have hrest := (getline_length input.tail).1
    rw [List.length_tail] at hrest
    rw [readContinued, if_pos h]
    dsimp only
    rw [if_pos hok]
    exact Nat.le_trans hrest (Nat.sub_le _ _)
  | case2 value input h extra hok hlong =>
    have hrest := (getline_length input.tail).1
    rw [List.length_tail] at hrest
    rw [readContinued, if_pos h]
    dsimp only
    rw [if_neg hok, if_pos hlong]
    exact Nat.le_trans hrest (Nat.sub_le _ _)
  | case3 value input h extra hok hlong ih =>
    have hrest := (getline_length input.tail).1
    rw [List.length_tail] at hrest
    rw [readContinued, if_pos h]
    dsimp only
    rw [if_neg hok, if_neg hlong]
    exact Nat.le_trans ih (Nat.le_trans hrest (Nat.sub_le _ _))
  | case4 value input h => exact Nat.le_of_eq (by rw [readContinued, if_neg h])

-- What is read of the headers, also if it fails
structure Result where
  ok : Bool
  headers : MIMEHeaders
  rest : List UInt8
deriving DecidableEq, Repr

def readLoop (headers : MIMEHeaders) (input : List UInt8) : Result :=
  let line := getline input
  if !line.ok then
    { ok := false, headers, rest := line.rest }
  else if line.s = [] then
    { ok := true, headers, rest := line.rest }
  else if 58 ∈ line.s then
    let name := line.s.takeWhile (· ≠ 58)
    let value := (line.s.dropWhile (· ≠ 58)).tail
    let continued := readContinued value line.rest
    if !continued.ok then
      { ok := false, headers, rest := continued.rest }
    else
      let name := name.map Text.Pattern.tolower
      let value := Text.canonicaliseSpace continued.s
      -- If anything sensible left
      readLoop (if name ≠ [] ∧ value ≠ [] then headers.put name value else headers) continued.rest
  else
    readLoop headers line.rest
termination_by input.length
decreasing_by
  . next hok _ _ _ _ _ =>
    have hline := (getline_length input).2 (by simpa using hok)
    exact Nat.lt_of_le_of_lt (readContinued_length _ _) hline
  . next hok _ _ => exact (getline_length input).2 (by simpa using hok)

def read (headers : MIMEHeaders) (input : List UInt8) (append : Bool) : Result :=
  readLoop (if append then headers else { headers with xml := [] }) input

def toupper (c : UInt8) : UInt8 := if 97 ≤ c ∧ c ≤ 122 then c - 32 else c

-- Uppercase first letter and any letters after `-`
def capitalise (first : Bool) : List UInt8 → List UInt8
  | [] => []
  | c :: name =>
    let c := if first then toupper c else c
    c :: capitalise (c = 45) name

-- The last one up to a position
def rfind (s : List UInt8) (c : UInt8) (pos : Nat) : Option Nat :=
  (List.range (pos + 1)).reverse.find? fun i => s[i]? = some c

-- A likely breakpoint, commas first, and failing that, space
def findSplit (maxLine : Nat) (value : List UInt8) : Option Nat :=
  let split := match rfind value 44 maxLine with
    | some split =>
      -- The comma is left on first line
      if value[split + 1]? = some 32 ∨ value[split + 1]? = some 9 then some (split + 1) else none
    | none => none
  match split with
  | some split => some split
  | none => rfind value 32 maxLine

def writeValue (maxLine : Nat) (value : List UInt8) : List UInt8 :=
  if maxLine ≠ 0 ∧ maxLine < value.length then
    match findSplit maxLine value with
    -- First fragment, with continuation
    | some split => value.take split ++ [13, 10, 32] ++ writeValue maxLine (value.drop (split + 1))
    | none => value ++ [13, 10]
  else
    value ++ [13, 10]
termination_by value.length
decreasing_by
  next h =>
    rw [List.length_drop]
    omega

def writeHeader (maxLine : Nat) (e : List UInt8 × List UInt8) : List UInt8 :=
  capitalise true e.1 ++ [58, 32] ++ writeValue maxLine e.2

def write (headers : MIMEHeaders) : List UInt8 :=
  headers.xml.flatMap (writeHeader headers.maxLine) ++ [13, 10]

end MIMEHeaders

end Web
end ObTools
