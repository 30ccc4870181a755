import Mathlib.Data.List.DropRight

/-!
This module contains what is found in front of the first character of some kind, where a character is last, and a
search for a delimiter that is a number of equal characters and then another one. The search does not go back: a
character on which it fails does not begin another delimiter.
-/

namespace Delimiter

section Stop

variable {α : Type} {p : α → Bool} {s : List α}

theorem takeWhile_stop (rest : List α) (hs : ∀ x ∈ s, p x = true) (hrest : ∀ x ∈ rest.head?, p x = false)
    : (s ++ rest).takeWhile p = s ∧ (s ++ rest).dropWhile p = rest := by
  rw [List.takeWhile_append_of_pos hs, List.dropWhile_append_of_pos hs]
  cases rest with
  | nil => simp
  | cons x rest =>
    have hx : p x = false := hrest x rfl
    simp [hx]

variable [DecidableEq α] {c : α}

theorem forall_ne (h : c ∉ s) : ∀ x ∈ s, decide (x ≠ c) = true := by
  intro x hx
  apply decide_eq_true
  rintro rfl
  exact h hx

-- A single character
theorem takeWhile_ne (h : c ∉ s) (rest : List α)
    : (s ++ c :: rest).takeWhile (· ≠ c) = s ∧ (s ++ c :: rest).dropWhile (· ≠ c) = c :: rest := by
  refine takeWhile_stop (c :: rest) (forall_ne h) ?_
  intro x hx
  rw [← Option.some.inj hx]
  exact decide_eq_false (not_not_intro rfl)

end Stop

section Last

variable {α : Type} [DecidableEq α] {c : α}

-- Where an element is last
def rfind (c : α) : List α → Option Nat
  | [] => none
  | d :: s =>
    match rfind c s with
    | some i => some (i + 1)
    | none => if d = c then some 0 else none

theorem rfind_eq_none {s : List α} (h : c ∉ s) : rfind c s = none := by
  induction s with
  | nil => rfl
  | cons d s ih =>
    rw [List.mem_cons, not_or] at h
    rw [rfind, ih h.2]
    exact if_neg (Ne.symm h.1)

theorem rfind_append {s : List α} (h : c ∉ s) (before : List α)
    : rfind c (before ++ c :: s) = some before.length := by
  induction before with
  | nil =>
    rw [List.nil_append, rfind, rfind_eq_none h]
    exact if_pos rfl
  | cons d before ih =>
    rw [List.cons_append, rfind, ih]
    rfl

end Last

variable {α : Type} [DecidableEq α] (d e : α) (k : Nat)

-- `k` times `d`, then `e`
def delimiter : List α := List.replicate k d ++ [e]

-- How much of the delimiter is found with one more character, unless it is complete
def advance (found : Nat) (c : α) : Option Nat :=
  if found < k then
    some (if c = d then found + 1 else 0)
  else if c = e then
    none
  else
    some 0

-- What is left after the delimiter
def skip (found : Nat) : List α → Option (List α)
  | [] => none
  | c :: rest =>
    match advance d e k found c with
    | some found => skip found rest
    | none => some rest

/-
The first of what may be several occurrences of a marker.
-/
structure First (marker before after text : List α) : Prop where
  eq : text = before ++ (marker ++ after)
  first : ¬marker <:+: before ++ marker.dropLast

-- How often the last character is repeated, if it is the one
def trailing (l : List α) : Nat := (l.rtakeWhile (· = d)).length

variable {d e k}

theorem advance_of_lt {found : Nat} (hfound : found < k) (c : α)
    : advance d e k found c = some (if c = d then found + 1 else 0) :=
  if_pos hfound

theorem advance_full (c : α) : advance d e k k c = if c = e then none else some 0 :=
  if_neg (Nat.lt_irrefl k)

theorem skip_of_advance {found found' : Nat} {c : α} (h : advance d e k found c = some found')
    (rest : List α)
    : skip d e k found (c :: rest) = skip d e k found' rest := by
  rw [skip, h]

theorem skip_match {found : Nat} (hfound : found < k) (rest : List α)
    : skip d e k found (d :: rest) = skip d e k (found + 1) rest := by
  apply skip_of_advance
  rw [advance_of_lt hfound, if_pos rfl]

theorem skip_restart {found : Nat} (hfound : found < k) {c : α} (hc : c ≠ d) (rest : List α)
    : skip d e k found (c :: rest) = skip d e k 0 rest := by
  apply skip_of_advance
  rw [advance_of_lt hfound, if_neg hc]

theorem skip_complete (rest : List α) : skip d e k k (e :: rest) = some rest := by
  rw [skip, advance_full, if_pos rfl]

theorem skip_fail {c : α} (hc : c ≠ e) (rest : List α)
    : skip d e k k (c :: rest) = skip d e k 0 rest := by
  apply skip_of_advance
  rw [advance_full, if_neg hc]

theorem trailing_concat (l : List α) (c : α)
    : trailing d (l ++ [c]) = if c = d then trailing d l + 1 else 0 := by
  unfold trailing
  rw [List.rtakeWhile_concat]
  by_cases hc : c = d
  . rw [if_pos (decide_eq_true hc), if_pos hc, List.length_append, List.length_singleton]
  . rw [if_neg (by simp [hc]), if_neg hc, List.length_nil]

theorem trailing_append_replicate (l : List α) (n : Nat)
    : trailing d (l ++ List.replicate n d) = trailing d l + n := by
  induction n with
  | zero => rw [List.replicate_zero, List.append_nil, Nat.add_zero]
  | succ n ih => rw [List.replicate_succ', ← List.append_assoc, trailing_concat, if_pos rfl, ih, Nat.add_assoc]

theorem replicate_suffix (l : List α) : List.replicate (trailing d l) d <:+ l := by
  have heq : l.rtakeWhile (· = d) = List.replicate (trailing d l) d := by
    apply List.eq_replicate_of_mem
    intro c hc
    simpa using List.mem_rtakeWhile_imp hc
  rw [← heq]
  exact List.rtakeWhile_suffix ..

theorem delimiter_suffix {l : List α} (hk : k ≤ trailing d l) : delimiter d e k <:+ l ++ [e] := by
  obtain ⟨before, hbefore⟩ := replicate_suffix (d := d) l
  refine ⟨before ++ List.replicate (trailing d l - k) d, ?_⟩
  unfold delimiter
  have hreplicate : List.replicate (trailing d l - k) d ++ List.replicate k d
      = List.replicate (trailing d l) d := by
    rw [List.replicate_append_replicate, Nat.sub_add_cancel hk]
  rw [← List.append_assoc, List.append_assoc before, hreplicate, hbefore]

/--
Before the first delimiter, the search has found as much as is left of the trailing characters when
they are counted in groups of the length of a delimiter.
-/
theorem skip_append {before : List α} (hbefore : ¬delimiter d e k <:+: before) (rest : List α)
    : skip d e k 0 (before ++ rest) = skip d e k (trailing d before % (k + 1)) rest := by
  induction before using List.reverseRecOn generalizing rest with
  | nil => rw [List.nil_append, trailing, List.rtakeWhile_nil, List.length_nil, Nat.zero_mod]
  | append_singleton l c ih =>
    have hl : ¬delimiter d e k <:+: l := by
      intro hin
      exact hbefore (hin.trans (List.prefix_append l [c]).isInfix)
    have hmod : trailing d l % (k + 1) < k ∨ trailing d l % (k + 1) = k :=
      Nat.lt_or_eq_of_le (Nat.le_of_lt_succ (Nat.mod_lt _ (Nat.succ_pos k)))
    rw [List.append_assoc, List.singleton_append, ih hl, trailing_concat]
    rcases hmod with hlt | heq
    . by_cases hc : c = d
      . rw [hc, skip_match hlt, if_pos rfl, ← Nat.mod_eq_of_lt (Nat.add_lt_add_right hlt 1), Nat.mod_add_mod]
      . rw [skip_restart hlt hc, if_neg hc, Nat.zero_mod]
    . have hc : c ≠ e := by
        rintro rfl
        exact hbefore (delimiter_suffix (heq ▸ Nat.mod_le _ _)).isInfix
      have hgroup : (trailing d l + 1) % (k + 1) = 0 := by
        rw [← Nat.mod_add_mod, heq, Nat.mod_self]
      rw [heq, skip_fail hc]
      split
      . rw [hgroup]
      . rw [Nat.zero_mod]

theorem skip_eq_none {text : List α} (htext : ¬delimiter d e k <:+: text) : skip d e k 0 text = none := by
  have hskip := skip_append htext []
  rw [List.append_nil] at hskip
  rw [hskip, skip]

theorem length_skip {found : Nat} {text rest : List α} (hskip : skip d e k found text = some rest)
    : rest.length < text.length := by
  induction text generalizing found with
  | nil => cases hskip
  | cons c text ih =>
    rw [skip] at hskip
    rw [List.length_cons]
    split at hskip
    . exact Nat.lt_succ_of_lt (ih hskip)
    . cases hskip
      exact Nat.lt_succ_self _

/--
The first delimiter is found if no part of a group is left over in front of it.
-/
theorem skip_first {before after text : List α} (hfirst : First (delimiter d e k) before after text)
    : skip d e k 0 text = some after ↔ trailing d before % (k + 1) = 0 := by
  have hbefore := hfirst.first
  rw [delimiter, List.dropLast_concat] at hbefore
  have htext : text = before ++ List.replicate k d ++ e :: after := by
    rw [hfirst.eq, delimiter]
    simp only [List.append_assoc, List.cons_append, List.nil_append]
  have hlt : trailing d before % (k + 1) < k + 1 := Nat.mod_lt _ (Nat.succ_pos k)
  rw [htext, skip_append hbefore, trailing_append_replicate, ← Nat.mod_add_mod]
  constructor
  . intro hskip
    by_contra hne
    have hmod : (trailing d before % (k + 1) + k) % (k + 1) < k := by
      rw [show trailing d before % (k + 1) + k = trailing d before % (k + 1) - 1 + (k + 1) by omega,
        Nat.add_mod_right, Nat.mod_eq_of_lt (by omega)]
      omega
    rw [skip_of_advance (advance_of_lt hmod e)] at hskip
    exact absurd (length_skip hskip) (Nat.lt_irrefl _)
  . intro hzero
    rw [hzero, Nat.zero_add, Nat.mod_eq_of_lt (Nat.lt_succ_self k)]
    exact skip_complete after

end Delimiter
