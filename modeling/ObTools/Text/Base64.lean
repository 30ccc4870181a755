import Mathlib.Data.List.Basic

/-!
This module contains the model of `Text::Base64`.
-/

namespace ObTools
namespace Text

structure Base64 where
  -- 0 for no padding
  pad : UInt8
  extra62 : UInt8
  extra63 : UInt8

namespace Base64

-- `Base64()`
def standard : Base64 := { pad := 61, extra62 := 43, extra63 := 47 }

def base64Chars : List UInt8 :=
  "ABCDEFGHIJKLMNOPQRSTUVWXYZabcdefghijklmnopqrstuvwxyz0123456789".toList.map Char.toUInt8

variable (b : Base64)

def char (index : UInt32) : UInt8 :=
  if index < 62 then
    base64Chars.getD index.toNat 0
  else if index = 62 then
    b.extra62
  else
    b.extra63

-- Extract from bit 18 to 23, then shift up for next time
def indexes : Nat → UInt32 → List UInt8
  | 0, _ => []
  | count + 1, n => b.char ((n >>> 18) &&& 0x3f) :: indexes count (n <<< 6)

-- Up to three bytes, with zeros to padding
def group (block : List UInt8) : List UInt8 :=
  let n := (block ++ List.replicate (3 - block.length) 0).foldl
    (fun n (p : UInt8) => (n <<< 8) ||| p.toUInt32) 0
  b.indexes (block.length + 1) n

def encodeLoop (split : Nat) (lineEnd : List UInt8) : List UInt8 → Nat → List UInt8
  | [], _ => []
  | p :: q :: r :: block, chars =>
    let chars := chars + 4
    b.group [p, q, r] ++ (if split ≠ 0 ∧ chars % split = 0 then lineEnd else [])
      ++ encodeLoop split lineEnd block chars
  | block, chars =>
    let chars := chars + (block.length + 1)
    b.group block ++ (if split ≠ 0 ∧ chars % split = 0 then lineEnd else [])

def encode (split : Nat) (lineEnd block : List UInt8) : List UInt8 :=
  let rlength := 3 * ((block.length + 2) / 3)
  b.encodeLoop split lineEnd block 0
    ++ (if b.pad ≠ 0 then List.replicate (rlength - block.length) b.pad else [])

-- Get length of binary block required for decode
def binaryLength (base64 : List UInt8) : Nat := (base64.length * 3 + 3) / 4

-- What the decoder takes a character for
inductive Seen where
  | index (cn : UInt32)
  | stop
  | ignore
deriving DecidableEq

def look (c : UInt8) : Seen :=
  if 65 ≤ c ∧ c ≤ 90 then
    .index (c.toUInt32 - 65)
  else if 97 ≤ c ∧ c ≤ 122 then
    .index (26 + c.toUInt32 - 97)
  else if 48 ≤ c ∧ c ≤ 57 then
    .index (52 + c.toUInt32 - 48)
  else if c = b.extra62 then
    .index 62
  else if c = b.extra63 then
    .index 63
  else if c = b.pad then
    .stop
  else
    .ignore

/-
Write some bytes, top byte first. There is an error with what has been written if there is no space for
more.
-/
def write (maxLength : Nat) : Nat → UInt32 → List UInt8 → Except (List UInt8) (List UInt8)
  | 0, _, block => .ok block
  | count + 1, n, block =>
    if block.length < maxLength then
      write maxLength count (n <<< 8) (block ++ [(n >>> 16).toUInt8])
    else
      .error block

-- The state of the loop of the decoder, in which `i` characters have been found
structure Progress where
  n : UInt32
  i : Nat
  block : List UInt8

-- Accumulate into n so first byte ends up at top
def accumulate (maxLength : Nat) (state : Progress) (cn : UInt32) : Except (List UInt8) Progress :=
  let n := (state.n <<< 6) ||| cn
  let i := state.i + 1
  if i % 4 = 0 then do
    -- Output every 4 characters
    let block ← write maxLength 3 n state.block
    .ok { n := 0, i := i, block := block }
  else
    .ok { state with n := n, i := i }

def decodeLoop (maxLength : Nat) : List UInt8 → Progress → Except (List UInt8) Progress
  | [], state => .ok state
  | c :: base64, state =>
    match b.look c with
    | .index cn => do
      let state ← accumulate maxLength state cn
      decodeLoop maxLength base64 state
    -- Stop here - we'll fix up the remainder later
    | .stop => .ok state
    | .ignore => decodeLoop maxLength base64 state

-- The bytes that are decoded, or those that fitted
def decodeBlock (base64 : List UInt8) (maxLength : Nat) : Except (List UInt8) (List UInt8) := do
  let state ← b.decodeLoop maxLength base64 { n := 0, i := 0, block := [] }
  -- Now write out any we have left over - whether or not we saw padding
  if state.i % 4 ≠ 0 then
    write maxLength (state.i % 4 - 1) (state.n <<< (6 * (4 - UInt32.ofNat (state.i % 4)))) state.block
  else
    .ok state.block

-- Decode into the given binary string, `none` if not successful
def decode (base64 binary : List UInt8) : Option (List UInt8) :=
  match b.decodeBlock base64 (binaryLength base64) with
  | .ok block => some (binary ++ block)
  | .error _ => none

end Base64

end Text
end ObTools
