import ObTools.Text.PatternSearch

/-!
This module contains the proof that `pattern_match` without regard to case is the one with regard to it for a
pattern and a text in lower case.
-/

namespace ObTools
namespace Text
namespace Pattern

open Wildcard

abbrev lower (s : Bytes) : Bytes := s.map tolower

def lowerMember (m : UInt8 × UInt8) : UInt8 × UInt8 := (tolower m.1, tolower m.2)

def Token.lower : Token → Token
  | char c => .char (tolower c)
  | set invert ms => .set invert (ms.map lowerMember)
  | t => t

theorem lower_cons (c : UInt8) (p : Bytes) : lower (c :: p) = tolower c :: lower p := rfl

section Lower

variable {c : UInt8} {p : Bytes}

theorem head?_lower {k : UInt8} (hk : ¬(65 ≤ k ∧ k ≤ 90) ∧ ¬(97 ≤ k ∧ k ≤ 122)) (p : Bytes)
    : (lower p).head? = some k ↔ p.head? = some k := by
  cases p with
  | nil => exact Iff.rfl
  | cons c p =>
    rw [lower_cons, List.head?_cons, List.head?_cons, Option.some_inj, Option.some_inj]
    exact tolower_eq_iff hk

theorem isClosed_lower (p : Bytes) : isClosed (lower p) = isClosed p := by
  match p with
  | [] => rfl
  | c :: p =>
    rw [lower_cons, isClosed.eq_def, isClosed.eq_def (c :: p)]
    dsimp only
    have hstep (p : Bytes) (ih : isClosed (lower p) = isClosed p)
        : (if (lower p).head? = some 93 then some true else isClosed (lower p))
            = if p.head? = some 93 then some true else isClosed p :=
      if_congr (head?_lower (by decide) p) rfl ih
    refine if_congr (tolower_eq_iff (by decide)) rfl (if_congr (tolower_eq_iff (by decide)) ?_ ?_)
    . cases p with
      | nil => rfl
      | cons e p => exact hstep p (isClosed_lower p)
    . exact hstep p (isClosed_lower p)

theorem range_lower (c : UInt8) (p : Bytes)
    : range (tolower c) (lower p) = (range c p).map fun r => (lowerMember r.1, lower r.2) := by
  match p with
  | [] => rfl
  | x :: p =>
    by_cases hx : x = 45
    . subst hx
      match p with
      | [] => rfl
      | e :: p =>
        by_cases hend : e = 93
        . subst hend
          rfl
        . by_cases hescape : e = 92
          . subst hescape
            cases p with
            | nil => rfl
            | cons e p => rfl
          . have hend' : tolower e ≠ 93 := fun h => hend ((tolower_eq_iff (by decide)).mp h)
            have hescape' : tolower e ≠ 92 := fun h => hescape ((tolower_eq_iff (by decide)).mp h)
            rw [range_plain c hend hescape p]
            exact range_plain (tolower c) hend' hescape' (lower p)
    . have hx' : tolower x ≠ 45 := fun h => hx ((tolower_eq_iff (by decide)).mp h)
      rw [range_single c hx p]
      exact range_single (tolower c) hx' (lower p)

theorem member_lower (p : Bytes)
    : member (lower p) = (member p).map fun r => (lowerMember r.1, lower r.2) := by
  match p with
  | [] => rfl
  | c :: p =>
    by_cases hc : c = 92
    . subst hc
      cases p with
      | nil => rfl
      | cons c p => exact range_lower c p
    . have hc' : tolower c ≠ 92 := fun h => hc ((tolower_eq_iff (by decide)).mp h)
      rw [member_plain hc p, lower_cons, member_plain hc' (lower p)]
      exact range_lower c p

theorem members_lower (p : Bytes)
    : members (lower p) = (members p).map fun r => (r.1.map lowerMember, lower r.2) := by
  have hlower := member_lower p
  by_cases hmember : ∃ m c rest, member p = some (m, c :: rest)
  . obtain ⟨m, c, rest, hmember⟩ := hmember
    have hlength := member_length hmember
    rw [hmember] at hlower
    rw [members_cons hmember, members_cons hlower]
    by_cases hc : c = 93
    . rw [if_pos hc, if_pos ((tolower_eq_iff (by decide)).mpr hc)]
      rfl
    . rw [if_neg hc, if_neg fun h => hc ((tolower_eq_iff (by decide)).mp h), ← List.map_cons,
        members_lower (c :: rest), Option.map_map, Option.map_map]
      rfl
  . rw [members_none fun m c rest h => hmember ⟨m, c, rest, h⟩]
    refine members_none fun m c rest h => ?_
    rw [hlower, Option.map_eq_some_iff] at h
    obtain ⟨⟨m, rest'⟩, hsome, heq⟩ := h
    cases rest' with
    | nil => cases heq
    | cons c rest' => exact hmember ⟨m, c, rest', hsome⟩
termination_by p.length

theorem parse_lower (p : Bytes) : parse (lower p) = (parse p).map Token.lower := by
  match p with
  | [] =>
    have hparse : parse [] = [] := by rw [parse]
    rw [hparse]
    exact hparse
  | c :: p =>
    have hlower {k : UInt8} (hk : ¬(65 ≤ k ∧ k ≤ 90) ∧ ¬(97 ≤ k ∧ k ≤ 122)) (h : c ≠ k) : tolower c ≠ k :=
      fun h' => h ((tolower_eq_iff hk).mp h')
    rw [lower_cons, parse_cons, parse_cons c p]
    by_cases hzero : c = 0
    . subst hzero
      rfl
    rw [if_neg hzero, if_neg (hlower (by decide) hzero)]
    by_cases hescape : c = 92
    . subst hescape
      rw [if_pos (by decide), if_pos rfl]
      cases p with
      | nil => rfl
      | cons e p => exact congrArg (Token.char (tolower e) :: ·) (parse_lower p)
    rw [if_neg hescape, if_neg (hlower (by decide) hescape)]
    by_cases hany : c = 63
    . subst hany
      exact congrArg (Token.any :: ·) (parse_lower p)
    rw [if_neg hany, if_neg (hlower (by decide) hany)]
    by_cases hstar : c = 42
    . subst hstar
      exact congrArg (Token.star :: ·) (parse_lower p)
    rw [if_neg hstar, if_neg (hlower (by decide) hstar)]
    by_cases hset : c = 91
    . subst hset
      rw [if_pos (by decide), if_pos rfl]
      have hbody : (if (lower p).head? = some 33 then (lower p).drop 1 else lower p)
          = lower (if p.head? = some 33 then p.drop 1 else p) := by
        rw [apply_ite lower]
        exact if_congr (head?_lower (by decide) p) List.map_drop.symm rfl
      rw [hbody, isClosed_lower, members_lower, decide_eq_decide.mpr (head?_lower (by decide) p)]
      have hlength : (if p.head? = some 33 then p.drop 1 else p).length ≤ p.length := by
        split
        . rw [List.length_drop]
          exact Nat.sub_le ..
        . exact Nat.le_refl _
      generalize (if p.head? = some 33 then p.drop 1 else p) = body at hlength ⊢
      cases isClosed body with
      | none => rfl
      | some closed =>
        cases closed with
        | false => exact congrArg (Token.char 91 :: ·) (parse_lower p)
        | true =>
          cases hmembers : members body with
          | none => rfl
          | some r =>
            obtain ⟨ms, rest⟩ := r
            have hrest := members_length hmembers
            exact congrArg (Token.set (p.head? = some 33) (ms.map lowerMember) :: ·) (parse_lower rest)
    . rw [if_neg hset, if_neg (hlower (by decide) hset)]
      exact congrArg (Token.char (tolower c) :: ·) (parse_lower p)
termination_by p.length

theorem item_lower (t : Token) : Item.Maps tolower (t.item false) (t.lower.item true) := by
  have hgetD (d : Option UInt8) : (d.map tolower).getD 0 = tolower (d.getD 0) := by
    cases d <;> rfl
  cases t with
  | star => exact .star
  | broken => exact .broken
  | char c =>
    refine .one fun d => ?_
    rw [hgetD]
    rfl
  | any =>
    refine .one fun d => ?_
    rw [hgetD]
    rfl
  | set invert ms =>
    refine .one fun d => ?_
    rw [hgetD]
    refine congrArg (· != invert) ?_
    rw [List.any_map]
    rfl

theorem items_lower (p : Bytes) : List.Forall₂ (Item.Maps tolower) (items false p) (items true (lower p)) := by
  unfold items
  rw [parse_lower, List.map_map, List.forall₂_map_left_iff, List.forall₂_map_right_iff, List.forall₂_same]
  exact fun t _ => item_lower t

theorem lower_append_zero (p : Bytes) : lower (p ++ [0]) = lower p ++ [0] := List.map_append

end Lower

def CString.lower (s : CString) : CString where
  chars := Pattern.lower s.chars
  noNul := by
    intro h
    obtain ⟨c, hc, hzero⟩ := List.mem_map.mp h
    rw [(tolower_eq_iff (by decide)).mp hzero] at hc
    exact s.noNul hc

end Pattern

open Wildcard Pattern

theorem sameCase_true {caps caps' : List Bytes} (h : List.Forall₂ (SameCase true) caps caps') : caps = caps' := by
  induction h with
  | nil => rfl
  | @cons cap cap' caps caps' hcap _ ih =>
    have hfold (s : Bytes) : s.map (fold true) = s := List.map_id s
    rw [SameCase, hfold, hfold] at hcap
    rw [hcap, ih]

theorem sameCase_false {caps caps' : List Bytes} (h : List.Forall₂ (SameCase false) caps caps')
    : caps.map lower = caps'.map lower := by
  induction h with
  | nil => rfl
  | cons hcap _ ih =>
    rw [List.map_cons, List.map_cons, ih]
    exact congrArg (· :: _) hcap

theorem patternMatches_lower (pattern text : CString)
    : (patternMatches pattern.chars text.chars [] false).map (fun r => (r.1, r.2.map lower))
        = patternMatches (lower pattern.chars) (lower text.chars) [] true := by
  have hleft := simulates false pattern text []
  have hright := simulates true pattern.lower text.lower []
  have hsearch := search_map tolower (items_lower (pattern.chars ++ [0])) text.chars
  rw [lower_append_zero] at hsearch
  unfold CString.lower at hright
  dsimp only at hright
  rw [hsearch] at hright
  generalize search (items false (pattern.chars ++ [0])) text.chars = outcome at hleft hright
  generalize patternMatches pattern.chars text.chars [] false = result at hleft ⊢
  generalize patternMatches (lower pattern.chars) (lower text.chars) [] true = result' at hright ⊢
  cases hleft with
  | overrun =>
    rw [Outcome.map] at hright
    cases hright
    rfl
  | fail =>
    rw [Outcome.map] at hright
    cases hright
    rfl
  | @fits caps caps' hcaps =>
    rw [Outcome.map] at hright
    cases hright with
    | fits hcaps' =>
      rw [sameCase_true hcaps', List.append_nil, List.append_nil, Option.map_some, sameCase_false hcaps]

end Text
end ObTools
