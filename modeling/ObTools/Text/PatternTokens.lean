import ObTools.Lib.Wildcard
import ObTools.Text.PatternMatches

/-!
This module contains what the patterns of `pattern_match` are made of, and the proof that the matcher is a search
for a way in which the text is matched by that.
-/

namespace ObTools
namespace Text
namespace Pattern

open Wildcard

-- The bytes from a pointer into a C string on
def IsCString (p : Bytes) : Prop := ∃ s, 0 ∉ s ∧ p = s ++ [0]

-- A string with nothing behind its first zero
structure CString where
  chars : Bytes
  noNul : 0 ∉ chars

inductive Token where
  -- Is 0 for a backslash at the end of the pattern
  | char (c : UInt8)
  | any
  | star
  -- The first and the last character for each member
  | set (invert : Bool) (members : List (UInt8 × UInt8))
  -- A set of which the search for an end goes beyond that of the pattern
  | broken

/-
The members of a set.
-/

def range (c : UInt8) : Bytes → Option ((UInt8 × UInt8) × Bytes)
  | [] => none
  | 45 :: [] => none
  | 45 :: 93 :: p => some ((c, c), 45 :: 93 :: p)
  | 45 :: 92 :: [] => none
  | 45 :: 92 :: e :: p => some ((c, e), p)
  | 45 :: e :: p => some ((c, e), p)
  | x :: p => some ((c, c), x :: p)

def member : Bytes → Option ((UInt8 × UInt8) × Bytes)
  | [] => none
  | 92 :: [] => none
  | 92 :: c :: p => range c p
  | c :: p => range c p

theorem range_length {c : UInt8} {p rest : Bytes} {m : UInt8 × UInt8} (h : range c p = some (m, rest))
    : rest.length ≤ p.length := by
  unfold range at h
  split at h <;> cases h <;> simp only [List.length_cons] <;> omega

theorem member_length {p rest : Bytes} {m : UInt8 × UInt8} (h : member p = some (m, rest))
    : rest.length < p.length := by
  unfold member at h
  split at h
  . cases h
  . cases h
  . have := range_length h
    simp only [List.length_cons]
    omega
  . exact Nat.lt_succ_of_le (range_length h)

-- With what is behind the set
def members (p : Bytes) : Option (List (UInt8 × UInt8) × Bytes) :=
  match h : member p with
  | none => none
  | some (_, []) => none
  | some (m, c :: p) =>
    if c = 93 then
      some ([m], p)
    else
      (members (c :: p)).map fun (ms, rest) => (m :: ms, rest)
termination_by p.length
decreasing_by apply member_length h

theorem members_length {p rest : Bytes} {ms : List (UInt8 × UInt8)} (h : members p = some (ms, rest))
    : rest.length < p.length := by
  unfold members at h
  split at h
  . cases h
  . cases h
  . next m c p' hmember =>
    have hlength := member_length hmember
    rw [List.length_cons] at hlength
    split at h
    . cases h
      omega
    . rw [Option.map_eq_some_iff] at h
      obtain ⟨⟨ms', rest'⟩, hms, heq⟩ := h
      cases heq
      have hrest := members_length hms
      rw [List.length_cons] at hrest
      omega
termination_by p.length
decreasing_by apply member_length ‹_›

def parse (p : Bytes) : List Token :=
  match p with
  | [] => []
  | c :: p =>
    if c = 0 then
      []
    else if c = 92 then
      match p with
      | [] => []
      | c :: p => .char c :: parse p
    else if c = 63 then
      .any :: parse p
    else if c = 42 then
      .star :: parse p
    else if c = 91 then
      let invert : Bool := p.head? = some 33
      let body := if invert then p.drop 1 else p
      match isClosed body with
      | none => [.broken]
      | some false => .char c :: parse p
      | some true =>
        match h : members body with
        | none => []
        | some (ms, rest) => .set invert ms :: parse rest
    else
      .char c :: parse p
termination_by p.length
decreasing_by
  . simp only [List.length_cons]
    omega
  . simp
  . simp
  . simp
  . have hrest := members_length h
    have hbody : body.length ≤ p.length := by
      unfold body
      split
      . rw [List.length_drop]
        omega
      . exact Nat.le_refl _
    simp only [List.length_cons]
    omega
  . simp

-- Whether the character is a member
def contains (cased : Bool) (d : UInt8) (m : UInt8 × UInt8) : Bool :=
  inRange (fold cased m.1) (fold cased d) (fold cased m.2)

-- Whether a character is matched by a token that is for a single one, with 0 as the end of the text
def Token.accepts (cased : Bool) (d : UInt8) : Token → Bool
  | char c => fold cased d = fold cased c
  | any => fold cased d ≠ 0
  | set invert ms => ms.any (contains cased d) != invert
  | _ => false

def Token.item (cased : Bool) : Token → Item UInt8
  | star => .star
  | broken => .broken
  | t => .one fun d => t.accepts cased (d.getD 0)

def items (cased : Bool) (p : Bytes) : List (Item UInt8) := (parse p).map (Token.item cased)

end Pattern
end Text
end ObTools
