import ObTools.Text.Pattern

/-!
This module contains the model of `Text::pattern_match` with the strings that it collects for each `*`, and the
proof that these make no difference to its outcome.
-/

namespace ObTools
namespace Text
namespace Pattern

-- Moves on to `c`, with what has been found before in the string for the `*`
def spanMatch (cased : Bool) (c : UInt8) (match_ : Bytes) : Bytes → Option (Option (Bytes × Bytes))
  | [] => none
  | d :: q =>
    if fold cased d = c then
      some (some (match_, d :: q))
    else if fold cased d = 0 then
      -- Ran out of text
      some none
    else
      spanMatch cased c (match_ ++ [fold cased d]) q

def seekMatch (cased : Bool) (p q : Bytes) : Option (Option (Bytes × Bytes)) :=
  match p with
  | [] => none
  | c :: _ =>
    if c ≠ 92 ∧ c ≠ 63 ∧ c ≠ 42 ∧ c ≠ 91 then
      spanMatch cased (fold cased c) [] q
    else
      some (some ([], q))

def tryMatch (rest : Bytes → List Bytes → Option (Bool × List Bytes)) (match_ : Bytes)
    : Bytes → List Bytes → Option (Bool × List Bytes)
  | [], _ => none
  | d :: q, captured => do
    let (found, captured) ← rest (d :: q) captured
    if found then
      -- Note tail recursive
      some (true, match_ :: captured)
    else if d ≠ 0 then
      tryMatch rest (match_ ++ [d]) q captured
    else
      some (false, captured)

/-
The strings that have been captured before come behind those of this pattern.
-/
def patternMatches (cased : Bool) (p q : Bytes) (captured : List Bytes) : Option (Bool × List Bytes) :=
  match p, q with
  | c :: p, d :: q =>
    if fold cased c = 0 then
      -- Finished - text must have finished too
      some (fold cased d = 0, captured)
    else if fold cased c = 92 then
      -- Literal - must match next character
      match p with
      | [] => none
      | c :: p => if fold cased c ≠ fold cased d then some (false, captured) else patternMatches cased p q captured
    else if fold cased c = 63 then
      -- Single char - mustn't have finished text
      if fold cased d = 0 then some (false, captured) else patternMatches cased p q captured
    else if fold cased c = 42 then
      -- Span - match up to next pattern character, or recurse if another special
      match seekMatch cased p (d :: q) with
      | none => none
      | some none => some (false, captured)
      | some (some (match_, q)) => tryMatch (fun q captured => patternMatches cased p q captured) match_ q captured
    else if fold cased c = 91 then
      let invert : Bool := p.head? = some 33
      match isClosed (if invert then p.drop 1 else p) with
      | none => none
      | some false =>
        if fold cased d ≠ fold cased c then some (false, captured) else patternMatches cased p q captured
      | some true =>
        match h : setLoop cased (fold cased d) false (if invert then p.drop 1 else p) with
        | none => none
        | some (found, p') => if found = invert then some (false, captured) else patternMatches cased p' q captured
    else
      if fold cased d ≠ fold cased c then some (false, captured) else patternMatches cased p q captured
  | _, _ => none
termination_by p.length
decreasing_by
  . simp only [List.length_cons]
    omega
  . simp
  . simp
  . simp
  . have hrest := setLoop_length h
    split at hrest
    . rw [List.length_drop] at hrest
      simp only [List.length_cons]
      omega
    . simp only [List.length_cons]
      omega
  . simp

/-
Without the strings.
-/

theorem spanMatch_snd (cased : Bool) (c : UInt8) (match_ q : Bytes)
    : (spanMatch cased c match_ q).map (Option.map Prod.snd) = span cased c q := by
  induction q generalizing match_ with
  | nil => rfl
  | cons d q ih =>
    rw [spanMatch, span]
    split
    . rfl
    . split
      . rfl
      . exact ih _

theorem seekMatch_snd (cased : Bool) (p q : Bytes)
    : (seekMatch cased p q).map (Option.map Prod.snd) = seek cased p q := by
  unfold seekMatch seek
  cases p with
  | nil => rfl
  | cons c p =>
    dsimp only
    split
    . exact spanMatch_snd cased _ [] q
    . rfl

theorem tryMatch_fst {rest : Bytes → List Bytes → Option (Bool × List Bytes)} {rest' : Bytes → Option Bool}
    (h : ∀ q captured, (rest q captured).map Prod.fst = rest' q) (match_ q : Bytes) (captured : List Bytes)
    : (tryMatch rest match_ q captured).map Prod.fst = tryFrom rest' q := by
  induction q generalizing match_ captured with
  | nil => rfl
  | cons d q ih =>
    rw [tryMatch, tryFrom, ← h (d :: q) captured]
    cases rest (d :: q) captured with
    | none => rfl
    | some result =>
      obtain ⟨found, captured'⟩ := result
      cases found with
      | true => rfl
      | false =>
        by_cases hd : d = 0
        . simp [hd]
        . simp [hd, ih]

/-
What is done with the first character of a pattern
-/
inductive Head where
  | outOfBounds
  | finished (found : Bool)
  -- The character has been matched by what is before the rest of the pattern
  | matched (p : Bytes)
  | span

def head (cased : Bool) (c : UInt8) (p : Bytes) (d : UInt8) : Head :=
  if fold cased c = 0 then
    .finished (fold cased d = 0)
  else if fold cased c = 92 then
    match p with
    | [] => .outOfBounds
    | c :: p => if fold cased c ≠ fold cased d then .finished false else .matched p
  else if fold cased c = 63 then
    if fold cased d = 0 then .finished false else .matched p
  else if fold cased c = 42 then
    .span
  else if fold cased c = 91 then
    let invert : Bool := p.head? = some 33
    let body := if invert then p.drop 1 else p
    match isClosed body with
    | none => .outOfBounds
    | some false => if fold cased d ≠ fold cased c then .finished false else .matched p
    | some true =>
      match setLoop cased (fold cased d) false body with
      | none => .outOfBounds
      | some (found, p') => if found = invert then .finished false else .matched p'
  else
    if fold cased d ≠ fold cased c then .finished false else .matched p

theorem patternMatches_cons (cased : Bool) (c : UInt8) (p : Bytes) (d : UInt8) (q : Bytes) (captured : List Bytes)
    : patternMatches cased (c :: p) (d :: q) captured
        = match head cased c p d with
          | .outOfBounds => none
          | .finished found => some (found, captured)
          | .matched p' => patternMatches cased p' q captured
          | .span =>
            match seekMatch cased p (d :: q) with
            | none => none
            | some none => some (false, captured)
            | some (some (match_, q)) =>
              tryMatch (fun q captured => patternMatches cased p q captured) match_ q captured := by
  conv_lhs => unfold patternMatches
  unfold head
  dsimp only
  split
  . rfl
  . split
    . cases p with
      | nil => rfl
      | cons c p =>
        dsimp only
        split <;> rfl
    . split
      . split <;> rfl
      . split
        . rfl
        . split
          . cases isClosed (if (decide (p.head? = some 33)) = true then List.drop 1 p else p) with
            | none => rfl
            | some closed =>
              cases closed with
              | false =>
                dsimp only
                split <;> rfl
              | true =>
                dsimp only
                split
                . next hset =>
                  rw [hset]
                . next found p' hset =>
                  rw [hset]
                  dsimp only
                  split <;> rfl
          . split <;> rfl

theorem patternMatch_cons (cased : Bool) (c : UInt8) (p : Bytes) (d : UInt8) (q : Bytes)
    : patternMatch cased (c :: p) (d :: q)
        = match head cased c p d with
          | .outOfBounds => none
          | .finished found => some found
          | .matched p' => patternMatch cased p' q
          | .span =>
            match seek cased p (d :: q) with
            | none => none
            | some none => some false
            | some (some q) => tryFrom (fun q => patternMatch cased p q) q := by
  conv_lhs => unfold patternMatch
  unfold head
  dsimp only
  split
  . rfl
  . split
    . cases p with
      | nil => rfl
      | cons c p =>
        dsimp only
        split <;> rfl
    . split
      . split <;> rfl
      . split
        . rfl
        . split
          . cases isClosed (if (decide (p.head? = some 33)) = true then List.drop 1 p else p) with
            | none => rfl
            | some closed =>
              cases closed with
              | false =>
                dsimp only
                split <;> rfl
              | true =>
                dsimp only
                split
                . next hset =>
                  rw [hset]
                . next found p' hset =>
                  rw [hset]
                  dsimp only
                  split <;> rfl
          . split <;> rfl

-- The pattern gets shorter.
theorem head_length {cased : Bool} {c : UInt8} {p : Bytes} {d : UInt8} {p' : Bytes}
    (h : head cased c p d = .matched p')
    : p'.length ≤ p.length := by
  unfold head at h
  dsimp only at h
  split at h
  . cases h
  . split at h
    . cases p with
      | nil => cases h
      | cons c p =>
        dsimp only at h
        split at h
        . cases h
        . cases h
          exact Nat.le_succ _
    . split at h
      . split at h <;> cases h
        exact Nat.le_refl _
      . split at h
        . cases h
        . split at h
          . split at h
            . cases h
            . split at h <;> cases h
              exact Nat.le_refl _
            . split at h
              . cases h
              . next hset =>
                have hlength := setLoop_length hset
                split at h <;> cases h
                split at hlength
                . rw [List.length_drop] at hlength
                  omega
                . omega
          . split at h <;> cases h
            exact Nat.le_refl _

theorem patternMatches_fst (cased : Bool) (p q : Bytes) (captured : List Bytes)
    : (patternMatches cased p q captured).map Prod.fst = patternMatch cased p q := by
  match p, q with
  | [], _ =>
    rw [patternMatches, patternMatch]
    . rfl
    . intros; contradiction
    . intros; contradiction
  | c :: p, [] =>
    rw [patternMatches, patternMatch]
    . rfl
    . intros; contradiction
    . intros; contradiction
  | c :: p, d :: q =>
    rw [patternMatches_cons, patternMatch_cons]
    cases hhead : head cased c p d with
    | outOfBounds => rfl
    | finished found => rfl
    | matched p' =>
      have hlength := head_length hhead
      exact patternMatches_fst cased p' q captured
    | span =>
      dsimp only
      rw [← seekMatch_snd]
      cases seekMatch cased p (d :: q) with
      | none => rfl
      | some found =>
        cases found with
        | none => rfl
        | some found =>
          exact tryMatch_fst (fun q captured => patternMatches_fst cased p q captured) _ _ captured
termination_by p.length

end Pattern

-- More C++ friendly version, with matches
def patternMatches (pattern text : List UInt8) (captured : List (List UInt8)) (cased : Bool)
    : Option (Bool × List (List UInt8)) :=
  Pattern.patternMatches cased (pattern ++ [0]) (text ++ [0]) captured

theorem patternMatches_fst (pattern text : List UInt8) (captured : List (List UInt8)) (cased : Bool)
    : (patternMatches pattern text captured cased).map Prod.fst = patternMatch pattern text cased :=
  Pattern.patternMatches_fst cased (pattern ++ [0]) (text ++ [0]) captured

end Text
end ObTools
