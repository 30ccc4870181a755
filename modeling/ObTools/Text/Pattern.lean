import Mathlib.Data.List.Basic

/-!
This module contains the model of `Text::pattern_match`, without the strings that it collects for each `*`.

The pattern and the text are C strings. A pointer into one of them is given by what is in memory from there
on, which ends with the zero at the end of the string, and the outcome is `none` when something behind that
is read.
-/

namespace ObTools
namespace Text
namespace Pattern

abbrev Bytes := List UInt8

def tolower (c : UInt8) : UInt8 := if 65 ≤ c ∧ c ≤ 90 then c + 32 else c

-- What a character is compared as
def fold (cased : Bool) (c : UInt8) : UInt8 := if cased then c else tolower c

-- `char` has a sign.
def inRange (c d e : UInt8) : Bool := c.toInt8 ≤ d.toInt8 ∧ d.toInt8 ≤ e.toInt8

/-
Whether there is an end to a set, from `endp` on
-/
def isClosed : Bytes → Option Bool
  | [] => none
  | c :: endp =>
    if c = 0 then
      -- no matching ]
      some false
    else if c = 92 then
      match endp with
      | [] => none
      | _ :: endp => if endp.head? = some 93 then some true else isClosed endp
    else
      if endp.head? = some 93 then some true else isClosed endp

-- Behind a character of a set that may be the start of a range
def setRange (cased : Bool) (d c : UInt8) (p : Bytes) : Option (Bool × Bytes) :=
  match p with
  | [] => none
  | 45 :: [] => none
  | 45 :: 93 :: p => some (d = c, 45 :: 93 :: p)
  | 45 :: 92 :: [] => none
  | 45 :: 92 :: e :: p => some (inRange c d (fold cased e), p)
  | 45 :: e :: p => some (inRange c d (fold cased e), p)
  | x :: p => some (d = c, x :: p)

-- Whether the character is matched by the first item of a set, and what is behind that
def setItem (cased : Bool) (d : UInt8) : Bytes → Option (Bool × Bytes)
  | [] => none
  | 92 :: [] => none
  | 92 :: c :: p => setRange cased d (fold cased c) p
  | c :: p => setRange cased d (fold cased c) p

theorem setRange_length {cased : Bool} {d c : UInt8} {p rest : Bytes} {found : Bool}
    (h : setRange cased d c p = some (found, rest))
    : rest.length ≤ p.length := by
  unfold setRange at h
  split at h <;> cases h <;> simp only [List.length_cons] <;> omega

theorem setItem_length {cased : Bool} {d : UInt8} {p rest : Bytes} {found : Bool}
    (h : setItem cased d p = some (found, rest))
    : rest.length < p.length := by
  unfold setItem at h
  split at h
  . cases h
  . cases h
  . have := setRange_length h
    simp
    omega
  . have := setRange_length h
    simp
    omega

/-
Goes through a set, with whether the character has been found in it before.
-/
def setLoop (cased : Bool) (d : UInt8) (found : Bool) (p : Bytes) : Option (Bool × Bytes) :=
  match h : setItem cased d p with
  | none => none
  | some (_, []) => none
  | some (here, c :: p) =>
    if c = 93 then
      some (found || here, p)
    else
      setLoop cased d (found || here) (c :: p)
termination_by p.length
decreasing_by apply setItem_length h

theorem setLoop_length {cased : Bool} {d : UInt8} {found found' : Bool} {p rest : Bytes}
    (h : setLoop cased d found p = some (found', rest))
    : rest.length < p.length := by
  unfold setLoop at h
  split at h
  . cases h
  . cases h
  . next here c p' hitem =>
    have hlength := setItem_length hitem
    rw [List.length_cons] at hlength
    split at h
    . cases h
      omega
    . have hrest := setLoop_length h
      rw [List.length_cons] at hrest
      omega
termination_by p.length
decreasing_by apply setItem_length ‹_›

-- Where the text can go on behind a `*`, for the next character of the pattern
def span (cased : Bool) (c : UInt8) : Bytes → Option (Option Bytes)
  | [] => none
  | d :: q =>
    if fold cased d = c then
      some (some (d :: q))
    else if fold cased d = 0 then
      -- Ran out of text
      some none
    else
      span cased c q

def seek (cased : Bool) (p q : Bytes) : Option (Option Bytes) :=
  match p with
  | [] => none
  | c :: _ =>
    if c ≠ 92 ∧ c ≠ 63 ∧ c ≠ 42 ∧ c ≠ 91 then
      span cased (fold cased c) q
    else
      some (some q)

-- Whether the rest of the pattern can be matched somewhere along here
def tryFrom (match_ : Bytes → Option Bool) : Bytes → Option Bool
  | [] => none
  | d :: q => do
    if ← match_ (d :: q) then
      some true
    else if d ≠ 0 then
      tryFrom match_ q
    else
      some false

def patternMatch (cased : Bool) (p q : Bytes) : Option Bool :=
  match p, q with
  | c :: p, d :: q =>
    if fold cased c = 0 then
      -- Finished - text must have finished too
      some (fold cased d = 0)
    else if fold cased c = 92 then
      -- Literal - must match next character
      match p with
      | [] => none
      | c :: p => if fold cased c ≠ fold cased d then some false else patternMatch cased p q
    else if fold cased c = 63 then
      -- Single char - mustn't have finished text
      if fold cased d = 0 then some false else patternMatch cased p q
    else if fold cased c = 42 then
      -- Span - match up to next pattern character, or recurse if another special
      match seek cased p (d :: q) with
      | none => none
      | some none => some false
      | some (some q) => tryFrom (fun q => patternMatch cased p q) q
    else if fold cased c = 91 then
      let invert : Bool := p.head? = some 33
      match isClosed (if invert then p.drop 1 else p) with
      | none => none
      | some false => if fold cased d ≠ fold cased c then some false else patternMatch cased p q
      | some true =>
        match h : setLoop cased (fold cased d) false (if invert then p.drop 1 else p) with
        | none => none
        | some (found, p') => if found = invert then some false else patternMatch cased p' q
    else
      if fold cased d ≠ fold cased c then some false else patternMatch cased p q
  | _, _ => none
termination_by p.length
decreasing_by
  . simp only [List.length_cons]
    omega
  . simp
  . simp
  . simp
  . have hrest := setLoop_length h
    split at hrest
    . rw [List.length_drop] at hrest
      simp only [List.length_cons]
      omega
    . simp only [List.length_cons]
      omega
  . simp

/--
A set is matched by a character, then the rest of the pattern by the rest of the text.
-/
theorem patternMatch_set {p q rest : Bytes} {d : UInt8} {found : Bool} (hfirst : p.head? ≠ some 33)
    (hclosed : isClosed p = some true) (hset : setLoop true d false p = some (found, rest))
    : patternMatch true (91 :: p) (d :: q) = if found then patternMatch true rest q else some false := by
  have hinvert : decide (p.head? = some 33) = false := decide_eq_false hfirst
  conv_lhs =>
    unfold patternMatch
  dsimp only
  rw [if_neg (by decide), if_neg (by decide), if_neg (by decide), if_neg (by decide),
    if_pos (by decide)]
  simp only [hinvert, Bool.false_eq_true, if_false, hclosed]
  split
  . next heq =>
    rw [hinvert, if_neg Bool.false_ne_true, show fold true d = d from rfl, hset] at heq
    cases heq
  . next heq =>
    rw [hinvert, if_neg Bool.false_ne_true, show fold true d = d from rfl, hset] at heq
    cases heq
    cases found with
    | true => rfl
    | false => rfl

end Pattern

-- More C++ friendly version, without matches
def patternMatch (pattern text : List UInt8) (cased : Bool) : Option Bool :=
  Pattern.patternMatch cased (pattern ++ [0]) (text ++ [0])

end Text
end ObTools
