import Mathlib.Data.List.Basic

/-!
This module contains the model of `Text::split`, and the proofs that it finds the fields that have
been put together with the delimiter between them, and that the fields it finds are the text when they
are put together.
-/

namespace ObTools
namespace Text

-- The state of `canonicalise_space`
inductive SpaceState where
  | start
  | word
  | ws
deriving DecidableEq, Repr

def canonicaliseStep (state : SpaceState × List UInt8) (c : UInt8) : SpaceState × List UInt8 :=
  let (state, fixed) := state
  if c = 32 ∨ c = 9 ∨ c = 13 ∨ c = 10 then
    match state with
    | .start => (.start, fixed)
    | .word => (.ws, fixed)
    | .ws => (.ws, fixed)
  else
    match state with
    | .start => (.word, fixed ++ [c])
    | .word => (.word, fixed ++ [c])
    -- First after white space, for which there is a single space
    | .ws => (.word, fixed ++ [32, c])

def canonicaliseSpace (text : List UInt8) : List UInt8 :=
  (text.foldl canonicaliseStep (.start, [])).2

/-
Goes through the text with the field that has been found so far, of which it is the `i`th.
-/
def splitLoop (delim : UInt8) (canonicalise : Bool) (max : Int)
    : Int → List UInt8 → List UInt8 → List (List UInt8)
  | _, field, [] => [if canonicalise then canonicaliseSpace field else field]
  | i, field, c :: text =>
    if (max = 0 ∨ i < max - 1) ∧ c = delim then
      (if canonicalise then canonicaliseSpace field else field)
        :: splitLoop delim canonicalise max (i + 1) [] text
    else
      splitLoop delim canonicalise max i (field ++ [c]) text

def split (text : List UInt8) (delim : UInt8) (canonicalise : Bool) (max : Int) : List (List UInt8) :=
  splitLoop delim canonicalise max 0 [] text

-- With the defaults of the source
def splitFields (text : List UInt8) (delim : UInt8) : List (List UInt8) := split text delim true 0

variable {delim : UInt8} {i : Int} {field text : List UInt8}

theorem canonicaliseSpace_eq_self (h : ∀ c ∈ text, ¬(c = 32 ∨ c = 9 ∨ c = 13 ∨ c = 10))
    : canonicaliseSpace text = text := by
  have hword (fixed : List UInt8)
      : text.foldl canonicaliseStep (.word, fixed) = (.word, fixed ++ text) := by
    induction text generalizing fixed with
    | nil => simp
    | cons c text ih =>
      have hc := h c List.mem_cons_self
      have hrest := ih fun c hc => h c (List.mem_cons_of_mem _ hc)
      have hstep : canonicaliseStep (.word, fixed) c = (.word, fixed ++ [c]) := if_neg hc
      rw [List.foldl_cons, hstep, hrest, List.append_assoc]
      rfl
  unfold canonicaliseSpace
  cases text with
  | nil => rfl
  | cons c text =>
    have hc := h c List.mem_cons_self
    have hstep : canonicaliseStep (.start, []) c = canonicaliseStep (.word, []) c := by
      unfold canonicaliseStep
      dsimp only
      rw [if_neg hc, if_neg hc]
    have hsame : (c :: text).foldl canonicaliseStep (.start, [])
        = (c :: text).foldl canonicaliseStep (.word, []) := by
      rw [List.foldl_cons, List.foldl_cons, hstep]
    rw [hsame, hword]
    rfl

section Loop

variable {canonicalise : Bool} {max : Int} {c : UInt8}

theorem splitLoop_next (h : ¬((max = 0 ∨ i < max - 1) ∧ c = delim))
    : splitLoop delim canonicalise max i field (c :: text)
        = splitLoop delim canonicalise max i (field ++ [c]) text :=
  if_neg h

theorem splitLoop_delim (h : max = 0 ∨ i < max - 1)
    : splitLoop delim canonicalise max i field (delim :: text)
        = (if canonicalise then canonicaliseSpace field else field)
            :: splitLoop delim canonicalise max (i + 1) [] text :=
  if_pos ⟨h, rfl⟩

theorem splitLoop_nil : splitLoop delim false max i field [] = [field] := rfl

theorem splitLoop_of_not_mem (h : delim ∉ text)
    : splitLoop delim canonicalise max i field text
        = [if canonicalise then canonicaliseSpace (field ++ text) else field ++ text] := by
  induction text generalizing field with
  | nil =>
    rw [List.append_nil]
    rfl
  | cons c text ih =>
    rw [List.mem_cons, not_or] at h
    rw [splitLoop_next fun hc => h.1 hc.2.symm, ih h.2, List.append_assoc]
    rfl

theorem splitLoop_append {rest : List UInt8} (hmax : max = 0 ∨ i < max - 1) (h : delim ∉ text)
    : splitLoop delim canonicalise max i field (text ++ delim :: rest)
        = (if canonicalise then canonicaliseSpace (field ++ text) else field ++ text)
            :: splitLoop delim canonicalise max (i + 1) [] rest := by
  induction text generalizing field with
  | nil =>
    rw [List.append_nil]
    exact splitLoop_delim hmax
  | cons c text ih =>
    rw [List.mem_cons, not_or] at h
    rw [List.cons_append, splitLoop_next fun hc => h.1 hc.2.symm, ih h.2, List.append_assoc]
    rfl

end Loop

-- A field that is found as it is
def IsField (delim : UInt8) (field : List UInt8) : Prop :=
  delim ∉ field ∧ ∀ c ∈ field, ¬(c = 32 ∨ c = 9 ∨ c = 13 ∨ c = 10)

theorem splitLoop_intercalate {fields : List (List UInt8)} (canonicalise : Bool) (h : ∀ f ∈ field :: fields, delim ∉ f)
    : splitLoop delim canonicalise 0 i [] ([delim].intercalate (field :: fields))
        = (field :: fields).map fun f => if canonicalise then canonicaliseSpace f else f := by
  induction fields generalizing field i with
  | nil =>
    rw [List.intercalate_singleton, splitLoop_of_not_mem (h field List.mem_cons_self)]
    rfl
  | cons next fields ih =>
    have hjoin : [delim].intercalate (field :: next :: fields)
        = field ++ delim :: [delim].intercalate (next :: fields) := by
      rw [List.intercalate_cons_cons, List.append_assoc]
      rfl
    have hnext : ∀ f ∈ next :: fields, delim ∉ f := fun f hf => h f (List.mem_cons_of_mem _ hf)
    rw [hjoin, splitLoop_append (.inl rfl) (h field List.mem_cons_self), ih hnext]
    rfl

theorem split_intercalate {fields : List (List UInt8)} (h : ∀ f ∈ field :: fields, delim ∉ f)
    : split ([delim].intercalate (field :: fields)) delim false 0 = field :: fields := by
  unfold split
  rw [splitLoop_intercalate false h]
  exact List.map_id' _

theorem splitFields_intercalate {fields : List (List UInt8)}
    (h : ∀ f ∈ field :: fields, IsField delim f)
    : splitFields ([delim].intercalate (field :: fields)) delim = field :: fields := by
  unfold splitFields split
  rw [splitLoop_intercalate true fun f hf => (h f hf).1]
  have hall : ∀ f ∈ field :: fields, canonicaliseSpace f = f := fun f hf => canonicaliseSpace_eq_self (h f hf).2
  exact (List.map_congr_left hall).trans (List.map_id' _)

/-
Fields that are joined one after the other.
-/

section Loop

variable {β : Type} (sep : List UInt8) (g : β → List UInt8) {es : List β}

theorem foldl_join_cons {r : List UInt8} (hr : r ≠ [])
    : es.foldl (fun r e => (if r ≠ [] then r ++ sep else r) ++ g e) r = sep.intercalate (r :: es.map g) := by
  induction es generalizing r with
  | nil => exact (List.intercalate_singleton ..).symm
  | cons e es ih =>
    have hne : r ++ sep ++ g e ≠ [] := List.append_ne_nil_of_left_ne_nil (List.append_ne_nil_of_left_ne_nil hr _) _
    rw [List.foldl_cons, if_pos hr, ih hne, List.map_cons, List.intercalate_cons_cons]
    cases es with
    | nil => rw [List.map_nil, List.intercalate_singleton, List.intercalate_singleton]
    | cons e' es =>
      rw [List.map_cons, List.intercalate_cons_cons, List.intercalate_cons_cons]
      simp only [List.append_assoc]

theorem foldl_join (hg : ∀ e ∈ es, g e ≠ [])
    : es.foldl (fun r e => (if r ≠ [] then r ++ sep else r) ++ g e) [] = sep.intercalate (es.map g) := by
  cases es with
  | nil => rfl
  | cons e es => exact foldl_join_cons sep g (hg e List.mem_cons_self)

end Loop

theorem infix_intercalate (sep : List UInt8) {t : List UInt8} {ts : List (List UInt8)} (h : t ∈ ts)
    : t <:+: sep.intercalate ts := by
  induction ts with
  | nil => exact absurd h List.not_mem_nil
  | cons s ts ih =>
    cases ts with
    | nil =>
      rw [List.mem_singleton] at h
      simpa only [h, List.intercalate_singleton] using List.infix_refl s
    | cons s' ts =>
      rw [List.intercalate_cons_cons]
      rcases List.mem_cons.mp h with rfl | h
      . exact ((List.prefix_append _ _).trans (List.prefix_append _ _)).isInfix
      . exact (ih h).trans (List.suffix_append _ _).isInfix

theorem intercalate_eq_nil_iff (sep : List UInt8) {ts : List (List UInt8)} (h : ∀ t ∈ ts, t ≠ [])
    : sep.intercalate ts = [] ↔ ts = [] := by
  constructor
  . intro hnil
    apply List.eq_nil_iff_forall_not_mem.mpr
    intro t ht
    have hpart := infix_intercalate sep ht
    rw [hnil, List.infix_nil] at hpart
    exact h t ht hpart
  . rintro rfl
    rfl

theorem intercalate_concat (sep : List UInt8) {ts : List (List UInt8)} (h : ts ≠ []) (t : List UInt8)
    : sep.intercalate (ts ++ [t]) = sep.intercalate ts ++ sep ++ t := by
  induction ts with
  | nil => exact absurd rfl h
  | cons s ts ih =>
    cases ts with
    | nil => rw [List.singleton_append, List.intercalate_cons_cons, List.intercalate_singleton, List.intercalate_singleton]
    | cons s' ts =>
      rw [List.cons_append, List.intercalate_cons_of_ne_nil (by simp), ih (List.cons_ne_nil _ _),
        List.intercalate_cons_cons]
      simp only [List.append_assoc]

-- What is on either side of a delimiter
theorem split_append (before rest : List UInt8)
    : split (before ++ delim :: rest) delim false 0 = split before delim false 0 ++ split rest delim false 0 := by
  have hindex (i j : Int) (field text : List UInt8)
      : splitLoop delim false 0 i field text = splitLoop delim false 0 j field text := by
    induction text generalizing i j field with
    | nil => rfl
    | cons c text ih =>
      unfold splitLoop
      rw [ih (i + 1) (j + 1), ih i j]
      simp only [true_or]
  have hloop (i : Int) (field : List UInt8)
      : splitLoop delim false 0 i field (before ++ delim :: rest)
          = splitLoop delim false 0 i field before ++ splitLoop delim false 0 0 [] rest := by
    induction before generalizing i field with
    | nil =>
      rw [List.nil_append, splitLoop_delim (.inl rfl), hindex (i + 1) 0]
      rfl
    | cons c before ih =>
      rw [List.cons_append]
      by_cases hc : c = delim
      . rw [hc, splitLoop_delim (.inl rfl), splitLoop_delim (.inl rfl), ih]
        rfl
      . rw [splitLoop_next fun h => hc h.2, splitLoop_next fun h => hc h.2, ih]
  exact hloop 0 []

theorem splitLoop_canonicalise (max i : Int) (field text : List UInt8)
    : splitLoop delim true max i field text = (splitLoop delim false max i field text).map canonicaliseSpace := by
  induction text generalizing i field with
  | nil => rfl
  | cons c text ih =>
    by_cases h : (max = 0 ∨ i < max - 1) ∧ c = delim
    . obtain ⟨hmore, rfl⟩ := h
      rw [splitLoop_delim hmore, splitLoop_delim hmore, ih]
      rfl
    . rw [splitLoop_next h, splitLoop_next h, ih]

theorem splitFields_append (before rest : List UInt8)
    : splitFields (before ++ delim :: rest) delim = splitFields before delim ++ splitFields rest delim := by
  have happend := @split_append delim before rest
  unfold split at happend
  unfold splitFields split
  rw [splitLoop_canonicalise, happend, List.map_append, ← splitLoop_canonicalise, ← splitLoop_canonicalise]

/-
The fields as they stand in the text.
-/

section Join

variable {max : Int}

theorem splitLoop_ne_nil (canonicalise : Bool) (max i : Int) (field text : List UInt8)
    : splitLoop delim canonicalise max i field text ≠ [] := by
  induction text generalizing i field with
  | nil => apply List.cons_ne_nil
  | cons c text ih =>
    by_cases h : (max = 0 ∨ i < max - 1) ∧ c = delim
    . obtain ⟨hmore, rfl⟩ := h
      rw [splitLoop_delim hmore]
      apply List.cons_ne_nil
    . rw [splitLoop_next h]
      apply ih

theorem intercalate_splitLoop (max i : Int) (field text : List UInt8)
    : [delim].intercalate (splitLoop delim false max i field text) = field ++ text := by
  induction text generalizing i field with
  | nil => rw [splitLoop_nil, List.intercalate_singleton, List.append_nil]
  | cons c text ih =>
    by_cases h : (max = 0 ∨ i < max - 1) ∧ c = delim
    . obtain ⟨hmore, rfl⟩ := h
      rw [splitLoop_delim hmore, if_neg Bool.false_ne_true,
        List.intercalate_cons_of_ne_nil (splitLoop_ne_nil _ _ _ _ _), ih]
      simp
    . rw [splitLoop_next h, ih, List.append_assoc]
      rfl

theorem length_splitLoop (max i : Int) (field text : List UInt8)
    : (splitLoop delim false max i field text).length
        = 1 + if max = 0 then text.count delim else min (max - 1 - i).toNat (text.count delim) := by
  induction text generalizing i field with
  | nil => simp [splitLoop_nil]
  | cons c text ih =>
    by_cases h : (max = 0 ∨ i < max - 1) ∧ c = delim
    . obtain ⟨hmore, rfl⟩ := h
      rw [splitLoop_delim hmore, List.length_cons, ih, List.count_cons_self]
      split <;> omega
    . rw [splitLoop_next h, ih, List.count_cons]
      split
      . next hmax =>
        have hc : ¬c = delim := fun hc => h ⟨.inl hmax, hc⟩
        simp [hc]
      . next hmax =>
        by_cases hc : c = delim
        . have hfull : ¬i < max - 1 := fun hi => h ⟨.inr hi, hc⟩
          omega
        . simp [hc]

-- The rest of the string
theorem splitLoop_of_full (h : ¬(max = 0 ∨ i < max - 1))
    : splitLoop delim false max i field text = [field ++ text] := by
  induction text generalizing field with
  | nil => rw [splitLoop_nil, List.append_nil]
  | cons c text ih =>
    rw [splitLoop_next fun hc => h hc.1, ih, List.append_assoc]
    rfl

theorem not_mem_dropLast_splitLoop {f : List UInt8} (hfield : delim ∉ field)
    (hf : f ∈ (splitLoop delim false max i field text).dropLast)
    : delim ∉ f := by
  induction text generalizing i field with
  | nil => contradiction
  | cons c text ih =>
    by_cases hfull : max = 0 ∨ i < max - 1
    . by_cases hc : c = delim
      . subst hc
        rw [splitLoop_delim hfull, if_neg Bool.false_ne_true,
          List.dropLast_cons_of_ne_nil (splitLoop_ne_nil _ _ _ _ _), List.mem_cons] at hf
        cases hf with
        | inl hf => rwa [hf]
        | inr hf => exact ih List.not_mem_nil hf
      . rw [splitLoop_next fun h => hc h.2] at hf
        apply ih _ hf
        simp [hfield, Ne.symm hc]
    . rw [splitLoop_of_full hfull] at hf
      contradiction

theorem not_mem_splitLoop {f : List UInt8} (hfield : delim ∉ field)
    (hmax : max = 0 ∨ (splitLoop delim false max i field text).length < max - i)
    (hf : f ∈ splitLoop delim false max i field text)
    : delim ∉ f := by
  induction text generalizing i field with
  | nil =>
    rw [splitLoop_nil, List.mem_singleton] at hf
    rwa [hf]
  | cons c text ih =>
    have hmore : max = 0 ∨ i < max - 1 := by
      have := List.length_pos_of_ne_nil (@splitLoop_ne_nil delim false max i field (c :: text))
      omega
    by_cases hc : c = delim
    . subst hc
      rw [splitLoop_delim hmore, List.length_cons] at hmax
      rw [splitLoop_delim hmore, if_neg Bool.false_ne_true, List.mem_cons] at hf
      cases hf with
      | inl hf => rwa [hf]
      | inr hf =>
        apply ih List.not_mem_nil _ hf
        omega
    . rw [splitLoop_next fun h => hc h.2] at hmax hf
      apply ih _ hmax hf
      simp [hfield, Ne.symm hc]

end Join

end Text
end ObTools
