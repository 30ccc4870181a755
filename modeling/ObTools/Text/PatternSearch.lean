import ObTools.Text.PatternTokens

/-!
This module contains the proof that `pattern_match` is a search for a way in which the text is matched by the
tokens of the pattern.
-/

namespace ObTools
namespace Text
namespace Pattern

open Wildcard

section Strings

variable {p : Bytes} {c : UInt8}

theorem isCString_nil : ¬IsCString [] := by
  rintro ⟨s, -, h⟩
  exact List.append_ne_nil_of_right_ne_nil s (List.cons_ne_nil 0 []) h.symm

theorem isCString_zero (h : IsCString (0 :: p)) : p = [] := by
  obtain ⟨s, hs, heq⟩ := h
  cases s with
  | nil => exact (List.cons.inj heq).2
  | cons c s =>
    obtain ⟨rfl, -⟩ := List.cons.inj heq
    exact absurd List.mem_cons_self hs

theorem IsCString.tail (h : IsCString (c :: p)) (hc : c ≠ 0) : IsCString p := by
  obtain ⟨s, hs, heq⟩ := h
  cases s with
  | nil => exact absurd (List.cons.inj heq).1 hc
  | cons c s =>
    obtain ⟨-, rfl⟩ := List.cons.inj heq
    exact ⟨s, fun h => hs (List.mem_cons_of_mem _ h), rfl⟩

-- There is more behind anything that is not the end
theorem IsCString.behind {before : Bytes} (h : IsCString (before ++ c :: p)) (hc : c ≠ 0) : IsCString p := by
  induction before with
  | nil => exact h.tail hc
  | cons b before ih =>
    by_cases hb : b = 0
    . subst hb
      exact absurd (isCString_zero h) (List.append_ne_nil_of_right_ne_nil before (List.cons_ne_nil c p))
    . exact ih (h.tail hb)

end Strings

/-
The case of characters.
-/

section Fold

variable {cased : Bool} {c : UInt8}

theorem tolower_of_not (h : ¬(65 ≤ c ∧ c ≤ 90)) : tolower c = c := if_neg h

theorem tolower_range (h : 65 ≤ c ∧ c ≤ 90) : 97 ≤ tolower c ∧ tolower c ≤ 122 := by
  unfold tolower
  rw [if_pos h]
  obtain ⟨hlow, hhigh⟩ := h
  rw [UInt8.le_iff_toNat_le] at hlow hhigh
  constructor
  all_goals
    rw [UInt8.le_iff_toNat_le, UInt8.toNat_add]
    simp only [UInt8.reduceToNat] at *
    omega

-- The characters that are not letters
theorem tolower_eq_iff {k : UInt8} (hk : ¬(65 ≤ k ∧ k ≤ 90) ∧ ¬(97 ≤ k ∧ k ≤ 122)) : tolower c = k ↔ c = k := by
  by_cases h : 65 ≤ c ∧ c ≤ 90
  . constructor
    . intro heq
      exact absurd (heq ▸ tolower_range h) hk.2
    . rintro rfl
      exact absurd h hk.1
  . rw [tolower_of_not h]

theorem tolower_tolower (c : UInt8) : tolower (tolower c) = tolower c := by
  by_cases h : 65 ≤ c ∧ c ≤ 90
  . refine tolower_of_not fun h' => ?_
    have hlow := Nat.le_trans (UInt8.le_iff_toNat_le.mp (tolower_range h).1) (UInt8.le_iff_toNat_le.mp h'.2)
    exact absurd hlow (by decide)
  . rw [tolower_of_not h, tolower_of_not h]

theorem fold_eq_iff {k : UInt8} (hk : ¬(65 ≤ k ∧ k ≤ 90) ∧ ¬(97 ≤ k ∧ k ≤ 122)) : fold cased c = k ↔ c = k := by
  cases cased with
  | true => exact Iff.rfl
  | false => exact tolower_eq_iff hk

theorem fold_fold (cased : Bool) (c : UInt8) : fold cased (fold cased c) = fold cased c := by
  cases cased with
  | true => rfl
  | false => exact tolower_tolower c

theorem fold_zero (cased : Bool) : fold cased 0 = 0 := (fold_eq_iff (by decide)).mpr rfl

theorem fold_eq_zero_iff : fold cased c = 0 ↔ c = 0 := fold_eq_iff (by decide)

end Fold

/-
Sets.
-/

section Sets

variable {cased : Bool} {c d : UInt8} {p rest : Bytes}

theorem inRange_self : inRange c d c = decide (d = c) := by
  unfold inRange
  rw [decide_eq_decide]
  constructor
  . intro h
    have heq := congrArg Int8.toUInt8 (Int8.le_antisymm h.2 h.1)
    rwa [UInt8.toUInt8_toInt8, UInt8.toUInt8_toInt8] at heq
  . rintro rfl
    exact ⟨Int8.le_refl _, Int8.le_refl _⟩

theorem setRange_eq (cased : Bool) (d c : UInt8) (p : Bytes)
    : setRange cased (fold cased d) (fold cased c) p = (range c p).map fun r => (contains cased d r.1, r.2) := by
  unfold setRange range
  split
  all_goals simp [contains, inRange_self]

theorem setItem_eq (cased : Bool) (d : UInt8) (p : Bytes)
    : setItem cased (fold cased d) p = (member p).map fun r => (contains cased d r.1, r.2) := by
  unfold setItem
  split
  . rfl
  . rfl
  . exact setRange_eq cased d _ _
  . next c p hsingle hpair =>
    rw [member]
    . exact setRange_eq cased d _ _
    . exact hsingle
    . exact hpair

theorem setLoop_none {found : Bool} (h : ∀ here c rest, setItem cased d p ≠ some (here, c :: rest))
    : setLoop cased d found p = none := by
  rw [setLoop]
  split
  . rfl
  . rfl
  . next here c rest heq => exact absurd heq (h here c rest)

theorem setLoop_cons {found here : Bool} (h : setItem cased d p = some (here, c :: rest))
    : setLoop cased d found p
        = if c = 93 then some (found || here, rest) else setLoop cased d (found || here) (c :: rest) := by
  conv_lhs => rw [setLoop]
  split
  . next heq =>
    rw [h] at heq
    cases heq
  . next heq =>
    rw [h] at heq
    cases heq
  . next heq =>
    rw [h] at heq
    cases heq
    rfl

theorem members_none (h : ∀ m c rest, member p ≠ some (m, c :: rest)) : members p = none := by
  rw [members]
  split
  . rfl
  . rfl
  . next m c rest heq => exact absurd heq (h m c rest)

theorem members_cons {m : UInt8 × UInt8} (h : member p = some (m, c :: rest))
    : members p
        = if c = 93 then some ([m], rest) else (members (c :: rest)).map fun (ms, rest) => (m :: ms, rest) := by
  conv_lhs => rw [members]
  split
  . next heq =>
    rw [h] at heq
    cases heq
  . next heq =>
    rw [h] at heq
    cases heq
  . next heq =>
    rw [h] at heq
    cases heq
    rfl

theorem setLoop_eq (cased : Bool) (d : UInt8) (found : Bool) (p : Bytes)
    : setLoop cased (fold cased d) found p
        = (members p).map fun r => (found || r.1.any (contains cased d), r.2) := by
  have hitem := setItem_eq cased d p
  by_cases hmember : ∃ m c rest, member p = some (m, c :: rest)
  . obtain ⟨m, c, rest, hmember⟩ := hmember
    rw [hmember, Option.map_some] at hitem
    have hlength := member_length hmember
    rw [setLoop_cons hitem, members_cons hmember]
    by_cases hc : c = 93
    . rw [if_pos hc, if_pos hc, Option.map_some, List.any_cons, List.any_nil, Bool.or_false]
    . rw [if_neg hc, if_neg hc, setLoop_eq cased d _ (c :: rest), Option.map_map]
      refine congrArg (Option.map · _) ?_
      funext r
      simp only [Function.comp, List.any_cons, Bool.or_assoc]
  . rw [members_none fun m c rest h => hmember ⟨m, c, rest, h⟩]
    refine setLoop_none fun here c rest h => hmember ?_
    rw [hitem, Option.map_eq_some_iff] at h
    obtain ⟨⟨m, rest'⟩, hmember, heq⟩ := h
    cases heq
    exact ⟨m, c, rest, hmember⟩
termination_by p.length

-- The end of a set can be found from here on
def Ends (p : Bytes) : Prop := p.head? = some 93 ∨ isClosed p = some true

theorem isClosed_cons (hc : c ≠ 92) (h : isClosed (c :: p) = some true) : Ends p := by
  rw [isClosed.eq_def] at h
  dsimp only at h
  by_cases hzero : c = 0
  . rw [if_pos hzero] at h
    cases h
  . rw [if_neg hzero, if_neg hc] at h
    by_cases hend : p.head? = some 93
    . exact Or.inl hend
    . rw [if_neg hend] at h
      exact Or.inr h

theorem isClosed_escape (h : isClosed (92 :: p) = some true) : ∃ c rest, p = c :: rest ∧ Ends rest := by
  rw [isClosed.eq_def] at h
  dsimp only at h
  rw [if_neg (by decide), if_pos rfl] at h
  cases p with
  | nil => cases h
  | cons c rest =>
    dsimp only at h
    by_cases hend : rest.head? = some 93
    . exact ⟨c, rest, rfl, Or.inl hend⟩
    . rw [if_neg hend] at h
      exact ⟨c, rest, rfl, Or.inr h⟩

theorem Ends.cons (h : Ends p) : ∃ c rest, p = c :: rest ∧ (c = 93 ∨ isClosed p = some true) := by
  cases p with
  | nil => rcases h with h | h <;> cases h
  | cons c rest =>
    rcases h with h | h
    . exact ⟨c, rest, rfl, Or.inl (Option.some.inj h)⟩
    . exact ⟨c, rest, rfl, Or.inr h⟩

theorem range_single (c : UInt8) {x : UInt8} (hx : x ≠ 45) (p : Bytes)
    : range c (x :: p) = some ((c, c), x :: p) := by
  rw [range]
  all_goals
    intros
    contradiction

theorem range_plain (c : UInt8) {e : UInt8} (hend : e ≠ 93) (hescape : e ≠ 92) (p : Bytes)
    : range c (45 :: e :: p) = some ((c, e), p) := by
  rw [range]
  all_goals
    intros
    contradiction

theorem member_plain (hc : c ≠ 92) (p : Bytes) : member (c :: p) = range c p := by
  rw [member]
  all_goals
    intros
    contradiction

theorem range_ends (c : UInt8) (h : Ends p)
    : ∃ m before rest, range c p = some (m, rest) ∧ p = before ++ rest ∧ Ends rest := by
  obtain ⟨x, p, rfl, hx⟩ := h.cons
  by_cases hdash : x = 45
  . subst hdash
    obtain ⟨y, p, rfl, hy⟩ := (isClosed_cons (by decide) (hx.resolve_left (by decide))).cons
    by_cases hend : y = 93
    . subst hend
      exact ⟨(c, c), [], 45 :: 93 :: p, rfl, rfl, h⟩
    . have hclosed := hy.resolve_left hend
      by_cases hescape : y = 92
      . subst hescape
        obtain ⟨e, rest, rfl, hends⟩ := isClosed_escape hclosed
        exact ⟨(c, e), [45, 92, e], rest, rfl, rfl, hends⟩
      . exact ⟨(c, y), [45, y], p, range_plain c hend hescape p, rfl, isClosed_cons hescape hclosed⟩
  . exact ⟨(c, c), [], x :: p, range_single c hdash p, rfl, h⟩

theorem member_ends (h : isClosed p = some true)
    : ∃ m before rest, member p = some (m, rest) ∧ p = before ++ rest ∧ Ends rest := by
  cases p with
  | nil => cases h
  | cons c p =>
    by_cases hc : c = 92
    . subst hc
      obtain ⟨c, rest, rfl, hends⟩ := isClosed_escape h
      obtain ⟨m, before, rest', hrange, rfl, hrest⟩ := range_ends c hends
      exact ⟨m, 92 :: c :: before, rest', hrange, rfl, hrest⟩
    . obtain ⟨m, before, rest', hrange, rfl, hends⟩ := range_ends c (isClosed_cons hc h)
      exact ⟨m, c :: before, rest', (member_plain hc _).trans hrange, rfl, hends⟩

theorem members_closed {p : Bytes} (h : isClosed p = some true)
    : ∃ ms before rest, members p = some (ms, rest) ∧ p = before ++ 93 :: rest := by
  obtain ⟨m, before, rest, hmember, rfl, hends⟩ := member_ends h
  obtain ⟨c, rest, rfl, hc⟩ := hends.cons
  rw [members_cons hmember]
  by_cases hend : c = 93
  . subst hend
    exact ⟨[m], before, rest, if_pos rfl, rfl⟩
  . have hlength := member_length hmember
    obtain ⟨ms, before', rest', hmembers, heq⟩ := members_closed (hc.resolve_left hend)
    refine ⟨m :: ms, before ++ before', rest', ?_, ?_⟩
    . rw [if_neg hend, hmembers]
      rfl
    . rw [heq, List.append_assoc]
termination_by p.length

end Sets

/-
One token.
-/

-- What the head of a pattern says about its tokens
inductive Reads (cased : Bool) (d : UInt8) : Bytes → Head → Prop where
  | finished {p : Bytes} (hparse : parse p = []) : Reads cased d p (.finished (fold cased d = 0))
  | span {p : Bytes} (hp : IsCString p) : Reads cased d (42 :: p) .span
  | broken {p : Bytes} (hparse : parse p = [.broken]) : Reads cased d p .outOfBounds
  -- A backslash at the end of the pattern is not followed by anything, but takes no character.
  | one {p p' : Bytes} (t : Token) (hparse : parse p = t :: parse p')
      (hitem : t.item cased = .one fun d => t.accepts cased (d.getD 0))
      (hp : t.accepts cased d = true → d ≠ 0 → IsCString p')
      : Reads cased d p (if t.accepts cased d then .matched p' else .finished false)

section Reads

variable {cased : Bool} {c d : UInt8} {p : Bytes}

theorem parse_cons (c : UInt8) (p : Bytes)
    : parse (c :: p)
        = if c = 0 then
            []
          else if c = 92 then
            match p with
            | [] => []
            | c :: p => .char c :: parse p
          else if c = 63 then
            .any :: parse p
          else if c = 42 then
            .star :: parse p
          else if c = 91 then
            match isClosed (if p.head? = some 33 then p.drop 1 else p) with
            | none => [.broken]
            | some false => .char c :: parse p
            | some true =>
              match members (if p.head? = some 33 then p.drop 1 else p) with
              | none => []
              | some (ms, rest) => .set (p.head? = some 33) ms :: parse rest
          else
            .char c :: parse p := by
  conv_lhs => unfold parse
  dsimp only
  simp only [decide_eq_true_eq]
  refine if_congr Iff.rfl rfl (if_congr Iff.rfl rfl (if_congr Iff.rfl rfl (if_congr Iff.rfl rfl
    (if_congr Iff.rfl ?_ rfl))))
  cases isClosed (if p.head? = some 33 then p.drop 1 else p) with
  | none => rfl
  | some closed =>
    cases closed with
    | false => rfl
    | true =>
      dsimp only
      split
      . next hmembers =>
        simp only [decide_eq_true_eq] at hmembers
        rw [hmembers]
      . next ms rest hmembers =>
        simp only [decide_eq_true_eq] at hmembers
        rw [hmembers]

-- A character that is to be found in the text as it is
theorem reads_char {p' : Bytes} (cased : Bool) (d c : UInt8) (hparse : parse p = .char c :: parse p')
    (hp : c ≠ 0 → IsCString p')
    : Reads cased d p (if fold cased d ≠ fold cased c then .finished false else .matched p') := by
  have hp' : (Token.char c).accepts cased d = true → d ≠ 0 → IsCString p' := by
    intro haccepts hd
    refine hp fun hc => ?_
    subst hc
    rw [Token.accepts, decide_eq_true_eq, fold_zero, fold_eq_zero_iff] at haccepts
    exact hd haccepts
  have hreads := @Reads.one cased d _ _ (Token.char c) hparse rfl hp'
  simp only [Token.accepts, decide_eq_true_eq] at hreads
  rwa [ite_not]

theorem reads (cased : Bool) (d : UInt8) (hp : IsCString (c :: p)) : Reads cased d (c :: p) (head cased c p d) := by
  have hparse := parse_cons c p
  unfold head
  by_cases hzero : fold cased c = 0
  . rw [if_pos (fold_eq_zero_iff.mp hzero)] at hparse
    rw [if_pos hzero]
    exact .finished hparse
  have hc : c ≠ 0 := fun h => hzero (fold_eq_zero_iff.mpr h)
  have htail := hp.tail hc
  rw [if_neg hc] at hparse
  rw [if_neg hzero]
  by_cases hescape : fold cased c = 92
  . rw [if_pos ((fold_eq_iff (by decide)).mp hescape)] at hparse
    rw [if_pos hescape]
    cases p with
    | nil => exact absurd htail isCString_nil
    | cons e p =>
      have hreads := reads_char cased d e hparse htail.tail
      rwa [if_congr ne_comm rfl rfl] at hreads
  rw [if_neg fun h => hescape ((fold_eq_iff (by decide)).mpr h)] at hparse
  rw [if_neg hescape]
  by_cases hany : fold cased c = 63
  . rw [if_pos ((fold_eq_iff (by decide)).mp hany)] at hparse
    rw [if_pos hany]
    have hreads := @Reads.one cased d _ _ Token.any hparse rfl fun _ _ => htail
    simp only [Token.accepts, decide_eq_true_eq] at hreads
    rwa [ite_not] at hreads
  rw [if_neg fun h => hany ((fold_eq_iff (by decide)).mpr h)] at hparse
  rw [if_neg hany]
  by_cases hstar : fold cased c = 42
  . obtain rfl : c = 42 := (fold_eq_iff (by decide)).mp hstar
    rw [if_pos hstar]
    exact .span htail
  rw [if_neg fun h => hstar ((fold_eq_iff (by decide)).mpr h)] at hparse
  rw [if_neg hstar]
  by_cases hset : fold cased c = 91
  . rw [if_pos ((fold_eq_iff (by decide)).mp hset)] at hparse
    rw [if_pos hset]
    dsimp only
    simp only [decide_eq_true_eq]
    generalize hbody : (if p.head? = some 33 then p.drop 1 else p) = body at hparse ⊢
    cases hclosed : isClosed body with
    | none =>
      rw [hclosed] at hparse
      exact .broken hparse
    | some closed =>
      rw [hclosed] at hparse
      cases closed with
      | false => exact reads_char cased d c hparse fun _ => htail
      | true =>
        obtain ⟨ms, before, rest, hmembers, heq⟩ := members_closed hclosed
        rw [hmembers] at hparse
        have hrest : IsCString rest := by
          have hsplit : ∃ first, p = first ++ body := by
            rw [← hbody]
            split
            . exact ⟨p.take 1, (List.take_append_drop 1 p).symm⟩
            . exact ⟨[], rfl⟩
          obtain ⟨first, rfl⟩ := hsplit
          rw [heq, ← List.append_assoc] at htail
          exact htail.behind (by decide)
        have hreads := @Reads.one cased d _ _ (.set (p.head? = some 33) ms) hparse rfl fun _ _ => hrest
        dsimp only
        rw [setLoop_eq, hmembers, Option.map_some]
        dsimp only
        simp only [Token.accepts, bne_iff_ne, ne_eq, ite_not] at hreads
        rw [Bool.false_or]
        exact hreads
  . rw [if_neg fun h => hset ((fold_eq_iff (by decide)).mpr h)] at hparse
    rw [if_neg hset]
    exact reads_char cased d c hparse fun _ => htail

end Reads

/-
The search.
-/

-- What has been captured is the same apart from the case.
abbrev SameCase (cased : Bool) (cap cap' : Bytes) : Prop := cap.map (fold cased) = cap'.map (fold cased)

-- The matcher has done what a search has found
inductive Simulates (cased : Bool) (captured : List Bytes) : Option (Bool × List Bytes) → Outcome UInt8 → Prop where
  | overrun : Simulates cased captured none .overrun
  | fail : Simulates cased captured (some (false, captured)) .fail
  | fits {caps caps' : List Bytes} (h : List.Forall₂ (SameCase cased) caps caps')
      : Simulates cased captured (some (true, caps ++ captured)) (.fits caps')

section Search

variable {cased : Bool} {captured : List Bytes}

theorem SameCase.concat {cap cap' : Bytes} {d d' : UInt8} (h : SameCase cased cap cap')
    (hd : fold cased d = fold cased d')
    : SameCase cased (cap ++ [d]) (cap' ++ [d']) := by
  unfold SameCase
  rw [List.map_append, List.map_append, h, List.map_singleton, List.map_singleton, hd]

theorem along_skip {f : Bytes → Outcome UInt8} {cap q : Bytes} {d : UInt8} (h : f (d :: q) = .fail)
    : along f cap (d :: q) = along f (cap ++ [d]) q := by
  rw [along, h]

-- Nothing is lost by the characters that are passed on the way to the next one of the pattern
theorem spanMatch_along {k : UInt8} {f : Bytes → Outcome UInt8} {q cap cap' : Bytes} (hq : 0 ∉ q)
    (hskip : ∀ d q, fold cased d ≠ k → f (d :: q) = .fail) (hend : k ≠ 0 → f [] = .fail)
    (hcap : SameCase cased cap cap')
    : (spanMatch cased k cap (q ++ [0]) = some none ∧ along f cap' q = .fail)
        ∨
      ∃ match_ match_' q', spanMatch cased k cap (q ++ [0]) = some (some (match_, q' ++ [0])) ∧ 0 ∉ q'
        ∧ SameCase cased match_ match_' ∧ along f cap' q = along f match_' q' := by
  induction q generalizing cap cap' with
  | nil =>
    rw [List.nil_append, spanMatch, fold_zero]
    by_cases hk : 0 = k
    . rw [if_pos hk]
      exact Or.inr ⟨cap, cap', [], rfl, hq, hcap, rfl⟩
    . rw [if_neg hk, if_pos rfl, along, hend (Ne.symm hk)]
      exact Or.inl ⟨rfl, rfl⟩
  | cons d q ih =>
    rw [List.mem_cons, not_or] at hq
    rw [List.cons_append, spanMatch]
    by_cases hk : fold cased d = k
    . rw [if_pos hk]
      exact Or.inr ⟨cap, cap', d :: q, rfl, by rw [List.mem_cons, not_or]; exact hq, hcap, rfl⟩
    . rw [if_neg hk, if_neg fun h => hq.1 (fold_eq_zero_iff.mp h).symm, along_skip (hskip d q hk)]
      exact ih hq.2 (hcap.concat (fold_fold cased d))

theorem tryMatch_along {rest : Bytes → List Bytes → Option (Bool × List Bytes)} {f : Bytes → Outcome UInt8}
    {q cap cap' : Bytes} (captured : List Bytes)
    (h : ∀ q captured, 0 ∉ q → Simulates cased captured (rest (q ++ [0]) captured) (f q))
    (hq : 0 ∉ q) (hcap : SameCase cased cap cap')
    : Simulates cased captured (tryMatch rest cap (q ++ [0]) captured) (along f cap' q) := by
  induction q generalizing cap cap' with
  | nil =>
    have hrest := h [] captured hq
    rw [List.nil_append] at hrest ⊢
    rw [tryMatch, along]
    generalize rest [0] captured = result at hrest
    generalize f [] = outcome at hrest
    cases hrest with
    | overrun => exact .overrun
    | fail => exact .fail
    | fits hcaps => exact .fits (.cons hcap hcaps)
  | cons d q ih =>
    have hrest := h (d :: q) captured hq
    rw [List.mem_cons, not_or] at hq
    rw [List.cons_append] at hrest ⊢
    rw [tryMatch, along]
    generalize rest (d :: (q ++ [0])) captured = result at hrest
    generalize f (d :: q) = outcome at hrest
    cases hrest with
    | overrun => exact .overrun
    | fits hcaps => exact .fits (.cons hcap hcaps)
    | fail =>
      have hstep := ih hq.2 (hcap.concat (d := d) rfl)
      simpa [Ne.symm hq.1] using hstep

-- The next character of a pattern that is looked for first
theorem search_next (cased : Bool) {c : UInt8} (p : Bytes) (hc : c ≠ 92 ∧ c ≠ 63 ∧ c ≠ 42 ∧ c ≠ 91)
    : (∀ d q, fold cased d ≠ fold cased c → search (items cased (c :: p)) (d :: q) = .fail)
        ∧ (fold cased c ≠ 0 → search (items cased (c :: p)) [] = .fail) := by
  have hparse := parse_cons c p
  by_cases hzero : c = 0
  . rw [if_pos hzero] at hparse
    unfold items
    rw [hparse]
    exact ⟨fun d q _ => rfl, fun h => absurd (fold_eq_zero_iff.mpr hzero) h⟩
  . rw [if_neg hzero, if_neg hc.1, if_neg hc.2.1, if_neg hc.2.2.1, if_neg hc.2.2.2] at hparse
    unfold items
    rw [hparse, List.map_cons]
    constructor
    . intro d q hd
      exact if_neg fun h => hd (of_decide_eq_true h)
    . intro hk
      refine if_neg fun h => hk ?_
      have haccepts := of_decide_eq_true h
      rw [Option.getD_none, fold_zero] at haccepts
      exact haccepts.symm

theorem patternMatches_nil (cased : Bool) (p : Bytes) (captured : List Bytes)
    : patternMatches cased p [] captured = none := by
  rw [patternMatches]
  intros
  contradiction

-- The rest of a pattern behind a `*`
theorem seekMatch_along {p q : Bytes} (hp : IsCString p) (hq : 0 ∉ q)
    : (seekMatch cased p (q ++ [0]) = some none ∧ along (search (items cased p)) [] q = .fail)
        ∨
      ∃ match_ match_' q', seekMatch cased p (q ++ [0]) = some (some (match_, q' ++ [0])) ∧ 0 ∉ q'
        ∧ SameCase cased match_ match_'
        ∧ along (search (items cased p)) [] q = along (search (items cased p)) match_' q' := by
  cases p with
  | nil => exact absurd hp isCString_nil
  | cons c p =>
    unfold seekMatch
    dsimp only
    by_cases hc : c ≠ 92 ∧ c ≠ 63 ∧ c ≠ 42 ∧ c ≠ 91
    . obtain ⟨hskip, hend⟩ := search_next cased p hc
      rw [if_pos hc]
      exact spanMatch_along hq hskip hend rfl
    . rw [if_neg hc]
      exact Or.inr ⟨[], [], q, rfl, hq, rfl, rfl⟩

theorem patternMatches_simulates (cased : Bool) {p : Bytes} (hp : IsCString p) (captured : List Bytes) {q : Bytes}
    (hq : 0 ∉ q)
    : Simulates cased captured (patternMatches cased p (q ++ [0]) captured) (search (items cased p) q) := by
  match p with
  | [] => exact absurd hp isCString_nil
  | c :: p =>
    obtain ⟨d, rest, hrest⟩ : ∃ d rest, q ++ [0] = d :: rest :=
      List.exists_cons_of_ne_nil (List.append_ne_nil_of_right_ne_nil q (List.cons_ne_nil 0 []))
    have hreads := reads cased d hp
    unfold items
    rw [hrest, patternMatches_cons]
    generalize hhead : head cased c p d = next at hreads ⊢
    cases hreads with
    | broken hparse =>
      rw [hparse]
      exact .overrun
    | finished hparse =>
      rw [hparse]
      cases q with
      | nil =>
        cases hrest
        rw [decide_eq_true (fold_zero cased)]
        exact .fits .nil
      | cons d q =>
        cases hrest
        rw [List.mem_cons, not_or] at hq
        rw [decide_eq_false fun h => hq.1 (fold_eq_zero_iff.mp h).symm]
        exact .fail
    | span hp' =>
      have hparse : parse (42 :: p) = .star :: parse p := parse_cons 42 p
      rw [← hrest, hparse]
      rcases seekMatch_along hp' hq with ⟨hseek, halong⟩ | ⟨match_, match_', q', hseek, hq', hmatch, halong⟩
      . rw [hseek]
        have hfail : search (.star :: items cased p) q = .fail := halong
        exact hfail ▸ Simulates.fail
      . rw [hseek]
        have htry := tryMatch_along captured (fun q captured hq =>
          patternMatches_simulates cased hp' captured hq) hq' hmatch
        rw [← halong] at htry
        exact htry
    | @one _ p' t hparse hitem hp' =>
      rw [hparse, List.map_cons, hitem]
      cases q with
      | nil =>
        cases hrest
        by_cases haccepts : t.accepts cased 0 = true
        . rw [if_pos haccepts]
          dsimp only
          have hoverrun : search (.one (fun d => t.accepts cased (d.getD 0)) :: items cased p') [] = .overrun :=
            if_pos haccepts
          rw [patternMatches_nil]
          exact hoverrun ▸ Simulates.overrun
        . rw [if_neg haccepts]
          have hfail : search (.one (fun d => t.accepts cased (d.getD 0)) :: items cased p') [] = .fail :=
            if_neg haccepts
          exact hfail ▸ Simulates.fail
      | cons d q =>
        cases hrest
        have hsearch : search (.one (fun d => t.accepts cased (d.getD 0)) :: items cased p') (d :: q)
            = if t.accepts cased d then search (items cased p') q else .fail := rfl
        rw [List.mem_cons, not_or] at hq
        by_cases haccepts : t.accepts cased d = true
        . rw [if_pos haccepts] at hhead hsearch ⊢
          have hlength := head_length hhead
          exact hsearch ▸ patternMatches_simulates cased (hp' haccepts (Ne.symm hq.1)) captured hq.2
        . rw [if_neg haccepts] at hsearch ⊢
          exact hsearch ▸ Simulates.fail
termination_by p.length

end Search

end Pattern

/-
Strings.
-/

section Bounds

open Wildcard Pattern

variable {cased : Bool} {pattern text : CString}

theorem simulates (cased : Bool) (pattern text : CString) (captured : List (List UInt8))
    : Simulates cased captured (patternMatches pattern.chars text.chars captured cased)
        (search (items cased (pattern.chars ++ [0])) text.chars) :=
  patternMatches_simulates cased ⟨pattern.chars, pattern.noNul, rfl⟩ captured text.noNul

theorem patternMatch_eq (cased : Bool) (pattern text : CString)
    : patternMatch pattern.chars text.chars cased
        = match search (items cased (pattern.chars ++ [0])) text.chars with
          | .overrun => none
          | .fail => some false
          | .fits _ => some true := by
  have hsimulates := simulates cased pattern text []
  rw [← patternMatches_fst pattern.chars text.chars [] cased]
  generalize patternMatches pattern.chars text.chars [] cased = result at hsimulates ⊢
  generalize search (items cased (pattern.chars ++ [0])) text.chars = outcome at hsimulates ⊢
  cases hsimulates <;> rfl

/-
A negated set fits a text that begins with one character that is not in it.
-/
theorem fits_negated {body rest : List UInt8} {ms : List (UInt8 × UInt8)} {q : List UInt8}
    {caps : List (List UInt8)} (hclosed : isClosed body = some true) (hmembers : members body = some (ms, rest))
    : Fits (items cased (91 :: 33 :: body)) caps q
        ↔ ∃ d q', q = d :: q' ∧ ms.any (contains cased d) = false ∧ Fits (items cased rest) caps q' := by
  have hparse : parse (91 :: 33 :: body) = .set true ms :: parse rest := by
    simp [parse_cons, hclosed, hmembers]
  unfold items
  rw [hparse, List.map_cons]
  constructor
  . intro h
    cases h with
    | @one _ _ _ d q' hd h => exact ⟨d, q', rfl, by simpa [Token.accepts] using hd, h⟩
  . rintro ⟨d, q', rfl, hd, h⟩
    exact .one (by simp [Token.accepts, hd]) h

/-
A match in which every item of the pattern is for the number of characters that it should be, a negated set for
one. Otherwise the first way that is found to match the pattern or to go beyond the end of one of the strings is
one of the latter.
-/
theorem patternMatch_inBounds_iff (cased : Bool) (pattern text : CString)
    : (∃ found, patternMatch pattern.chars text.chars cased = some found
          ∧ (found = true ↔ ∃ caps, Fits (items cased (pattern.chars ++ [0])) caps text.chars))
        ↔
      ∀ caps, Overruns (items cased (pattern.chars ++ [0])) caps text.chars →
        ∃ caps', Fits (items cased (pattern.chars ++ [0])) caps' text.chars ∧ Before caps' caps := by
  rw [← search_ne_overrun_iff, patternMatch_eq]
  cases hsearch : search (items cased (pattern.chars ++ [0])) text.chars with
  | overrun =>
    constructor
    . rintro ⟨found, h, -⟩
      cases h
    . exact fun h => absurd rfl h
  | fail =>
    refine ⟨fun _ => by rintro ⟨⟩, fun _ => ⟨false, rfl, ?_⟩⟩
    exact ⟨fun h => absurd h Bool.false_ne_true, fun h => absurd h (search_fail hsearch)⟩
  | fits caps =>
    refine ⟨fun _ => by rintro ⟨⟩, fun _ => ⟨true, rfl, ?_⟩⟩
    exact ⟨fun _ => ⟨caps, search_fits hsearch⟩, fun _ => rfl⟩

-- [!a] at the end of a text
theorem not_patternMatch_inBounds
    : ¬∀ (cased : Bool) (pattern text : CString), ∃ found, patternMatch pattern.chars text.chars cased = some found
        ∧ (found = true ↔ ∃ caps, Fits (items cased (pattern.chars ++ [0])) caps text.chars) := by
  have hmembers : members [97, 93, 0] = some ([(97, 97)], [0]) := (members_cons rfl).trans (if_pos rfl)
  have hparse : parse [91, 33, 97, 93, 0] = [.set true [(97, 97)]] := by
    simp [parse_cons, isClosed, hmembers]
  have hsearch : search ((parse [91, 33, 97, 93, 0]).map (Token.item true)) [] = .overrun := by
    rw [hparse]
    exact if_pos (by decide)
  intro h
  obtain ⟨found, hfound, -⟩ := h true ⟨[91, 33, 97, 93], by decide⟩ ⟨[], by decide⟩
  rw [patternMatch_eq] at hfound
  unfold items at hfound
  dsimp only [List.cons_append, List.nil_append] at hfound
  rw [hsearch] at hfound
  cases hfound

end Bounds

end Text
end ObTools
