import Mathlib.Data.List.Forall2

/-!
This module contains patterns with items for single characters and for any number of them, and a search for a
way in which a text is matched, which may read beyond the end of the text.
-/

namespace Wildcard

variable {α β : Type}

inductive Item (α : Type) where
  -- A single character, with the end of the text as none
  | one (accepts : Option α → Bool)
  -- Any number of characters
  | star
  -- An item that is not complete, so that the pattern is read beyond its end
  | broken

-- A text, with what each `star` stands for
inductive Fits : List (Item α) → List (List α) → List α → Prop where
  | nil : Fits [] [] []
  | one {accepts : Option α → Bool} {items : List (Item α)} {caps : List (List α)} {d : α} {text : List α}
      (hd : accepts (some d) = true) (h : Fits items caps text)
      : Fits (.one accepts :: items) caps (d :: text)
  | star (cap : List α) {items : List (Item α)} {caps : List (List α)} {text : List α}
      (h : Fits items caps text)
      : Fits (.star :: items) (cap :: caps) (cap ++ text)

-- What each `star` stands for up to an item that is not complete, or that takes the end of the text
inductive Overruns : List (Item α) → List (List α) → List α → Prop where
  | broken (items : List (Item α)) (text : List α) : Overruns (.broken :: items) [] text
  | atEnd {accepts : Option α → Bool} (items : List (Item α)) (h : accepts none = true)
      : Overruns (.one accepts :: items) [] []
  | one {accepts : Option α → Bool} {items : List (Item α)} {caps : List (List α)} {d : α} {text : List α}
      (hd : accepts (some d) = true) (h : Overruns items caps text)
      : Overruns (.one accepts :: items) caps (d :: text)
  | star (cap : List α) {items : List (Item α)} {caps : List (List α)} {text : List α}
      (h : Overruns items caps text)
      : Overruns (.star :: items) (cap :: caps) (cap ++ text)

-- The first `star` that does not stand for as many characters stands for less of them
def Before (caps caps' : List (List α)) : Prop := caps.map List.length < caps'.map List.length

inductive Outcome (α : Type) where
  | overrun
  | fail
  | fits (caps : List (List α))

namespace Outcome

def capture (cap : List α) : Outcome α → Outcome α
  | overrun => overrun
  | fail => fail
  | fits caps => fits (cap :: caps)

def map (g : α → β) : Outcome α → Outcome β
  | overrun => overrun
  | fail => fail
  | fits caps => fits (caps.map (List.map g))

theorem map_capture (g : α → β) (cap : List α) (outcome : Outcome α)
    : (outcome.capture cap).map g = (outcome.map g).capture (cap.map g) := by
  cases outcome <;> rfl

end Outcome

-- Tries the positions of a text one after the other, with what is in front of them
def along (f : List α → Outcome α) (cap : List α) : List α → Outcome α
  | [] => (f []).capture cap
  | d :: text =>
    match f (d :: text) with
    | .fail => along f (cap ++ [d]) text
    | outcome => outcome.capture cap

def search : List (Item α) → List α → Outcome α
  | [], [] => .fits []
  | [], _ :: _ => .fail
  | .one accepts :: _, [] => if accepts none then .overrun else .fail
  | .one accepts :: items, d :: text => if accepts (some d) then search items text else .fail
  | .star :: items, text => along (search items) [] text
  | .broken :: _, _ => .overrun

-- The outcome is right: what has been found comes before anything else
inductive Decides (items : List (Item α)) (text : List α) : Outcome α → Prop where
  | overrun {caps : List (List α)} (h : Overruns items caps text)
      (hfirst : ∀ caps', Fits items caps' text → Before caps caps')
      : Decides items text .overrun
  | fail (hfits : ∀ caps, ¬Fits items caps text) (hoverruns : ∀ caps, ¬Overruns items caps text)
      : Decides items text .fail
  | fits {caps : List (List α)} (h : Fits items caps text)
      (hfirst : ∀ caps', Overruns items caps' text → Before caps caps')
      : Decides items text (.fits caps)

variable {items : List (Item α)} {caps caps' : List (List α)} {text : List α}

theorem Before.asymm (h : Before caps caps') : ¬Before caps' caps := List.lt_asymm h

theorem before_cons_of_lt {cap cap' : List α} (h : cap.length < cap'.length)
    : Before (cap :: caps) (cap' :: caps') :=
  List.cons_lt_cons_iff.mpr (Or.inl h)

theorem Before.cons (cap : List α) (h : Before caps caps') : Before (cap :: caps) (cap :: caps') :=
  List.cons_lt_cons_iff.mpr (Or.inr ⟨rfl, h⟩)

theorem fits_star : Fits (.star :: items) caps text
    ↔ ∃ cap caps' rest, caps = cap :: caps' ∧ text = cap ++ rest ∧ Fits items caps' rest := by
  constructor
  . intro h
    cases h with
    | star cap h => exact ⟨cap, _, _, rfl, rfl, h⟩
  . rintro ⟨cap, caps', rest, rfl, rfl, h⟩
    exact .star cap h

theorem overruns_star : Overruns (.star :: items) caps text
    ↔ ∃ cap caps' rest, caps = cap :: caps' ∧ text = cap ++ rest ∧ Overruns items caps' rest := by
  constructor
  . intro h
    cases h with
    | star cap h => exact ⟨cap, _, _, rfl, rfl, h⟩
  . rintro ⟨cap, caps', rest, rfl, rfl, h⟩
    exact .star cap h

theorem fits_one {accepts : Option α → Bool} {d : α} : Fits (.one accepts :: items) caps (d :: text)
    ↔ accepts (some d) = true ∧ Fits items caps text := by
  constructor
  . rintro (_ | ⟨hd, h⟩)
    exact ⟨hd, h⟩
  . exact fun h => .one h.1 h.2

theorem overruns_one {accepts : Option α → Bool} {d : α} : Overruns (.one accepts :: items) caps (d :: text)
    ↔ accepts (some d) = true ∧ Overruns items caps text := by
  constructor
  . rintro (_ | _ | ⟨hd, h⟩)
    exact ⟨hd, h⟩
  . exact fun h => .one h.1 h.2

/-
The positions that have been passed.
-/

-- Whether the items fit a rest of the text or overrun it
abbrev Way (items : List (Item α)) (caps : List (List α)) (rest : List α) : Prop :=
  Fits items caps rest ∨ Overruns items caps rest

-- There is no way of matching the items anywhere in front of this position
def Passed (items : List (Item α)) (cap text : List α) : Prop :=
  ∀ cap' rest, cap ++ text = cap' ++ rest → cap'.length < cap.length → ∀ caps, ¬Way items caps rest

theorem passed_nil (items : List (Item α)) (text : List α) : Passed items [] text :=
  fun _ _ _ hlength => absurd hlength (Nat.not_lt_zero _)

theorem Passed.step {cap : List α} {d : α} (h : Passed items cap (d :: text))
    (hnone : ∀ caps, ¬Way items caps (d :: text))
    : Passed items (cap ++ [d]) text := by
  intro cap' rest heq hlength
  rw [List.append_assoc] at heq
  rw [List.length_append, List.length_singleton] at hlength
  rcases Nat.lt_or_eq_of_le (Nat.le_of_lt_succ hlength) with hlt | hlength
  . exact h cap' rest heq hlt
  . obtain ⟨-, rfl⟩ := List.append_inj heq hlength.symm
    exact hnone

theorem Passed.of_append {cap cap' rest : List α} (h : Passed items cap text) (heq : cap ++ text = cap' ++ rest)
    (hway : Way items caps rest)
    : cap.length ≤ cap'.length :=
  Nat.le_of_not_lt fun hlt => h cap' rest heq hlt caps hway

-- A way of matching that is the first one from this position on is the first one
theorem Passed.before {R : List (List α) → List α → Prop} {cap cap' rest : List α} (h : Passed items cap text)
    (hfirst : ∀ caps', R caps' text → Before caps caps') (heq : cap ++ text = cap' ++ rest)
    (hway : Way items caps' rest) (hR : R caps' rest)
    : Before (cap :: caps) (cap' :: caps') := by
  rcases Nat.lt_or_eq_of_le (h.of_append heq hway) with hlt | hlength
  . exact before_cons_of_lt hlt
  . obtain ⟨rfl, rfl⟩ := List.append_inj heq hlength
    exact (hfirst caps' hR).cons cap

-- The search for the items behind a `star` has come to an end
theorem Passed.decides {cap : List α} {outcome : Outcome α} (h : Passed items cap text)
    (hne : outcome ≠ .fail) (hdecides : Decides items text outcome)
    : Decides (.star :: items) (cap ++ text) (outcome.capture cap) := by
  cases hdecides with
  | fail => exact absurd rfl hne
  | overrun hover hfirst =>
    refine .overrun (.star cap hover) ?_
    intro caps' hfits
    obtain ⟨cap', caps', rest, rfl, heq, hfits⟩ := fits_star.mp hfits
    exact h.before hfirst heq (Or.inl hfits) hfits
  | fits hfits hfirst =>
    refine .fits (.star cap hfits) ?_
    intro caps' hover
    obtain ⟨cap', caps', rest, rfl, heq, hover⟩ := overruns_star.mp hover
    exact h.before hfirst heq (Or.inr hover) hover

theorem Decides.not_way (h : Decides items text .fail) : ∀ caps, ¬Way items caps text := by
  cases h with
  | fail hfits hover => exact fun caps => not_or_intro (hfits caps) (hover caps)

theorem along_decides {f : List α → Outcome α} (hf : ∀ text, Decides items text (f text)) {cap : List α}
    (h : Passed items cap text)
    : Decides (.star :: items) (cap ++ text) (along f cap text) := by
  induction text generalizing cap with
  | nil =>
    rw [along]
    by_cases hfail : f [] = .fail
    . have hnone (caps : List (List α)) {cap' rest : List α} (heq : cap ++ [] = cap' ++ rest)
          : ¬Way items caps rest := by
        intro hway
        have hlength := congrArg List.length heq
        have hle := h.of_append heq hway
        rw [List.length_append, List.length_append, List.length_nil] at hlength
        have hrest : rest = [] := List.length_eq_zero_iff.mp (by omega)
        subst hrest
        have hdecides := hf []
        rw [hfail] at hdecides
        exact hdecides.not_way caps hway
      rw [hfail]
      refine .fail ?_ ?_
      . intro caps hfits
        obtain ⟨cap', caps', rest, rfl, heq, hfits⟩ := fits_star.mp hfits
        exact hnone caps' heq (Or.inl hfits)
      . intro caps hover
        obtain ⟨cap', caps', rest, rfl, heq, hover⟩ := overruns_star.mp hover
        exact hnone caps' heq (Or.inr hover)
    . exact h.decides hfail (hf [])
  | cons d text ih =>
    rw [along]
    have hdecides := hf (d :: text)
    cases houtcome : f (d :: text) with
    | fail =>
      rw [houtcome] at hdecides
      have hstep := ih (h.step hdecides.not_way)
      rw [List.append_assoc] at hstep
      exact hstep
    | overrun =>
      rw [houtcome] at hdecides
      exact h.decides (by rintro ⟨⟩) hdecides
    | fits caps =>
      rw [houtcome] at hdecides
      exact h.decides (by rintro ⟨⟩) hdecides

theorem search_decides (items : List (Item α)) (text : List α) : Decides items text (search items text) := by
  induction items generalizing text with
  | nil =>
    cases text with
    | nil => exact .fits .nil fun caps hover => by cases hover
    | cons d text => exact .fail (fun caps hfits => by cases hfits) fun caps hover => by cases hover
  | cons item items ih =>
    cases item with
    | star => exact along_decides ih (passed_nil items text)
    | broken => exact .overrun (.broken items text) fun caps hfits => by cases hfits
    | one accepts =>
      cases text with
      | nil =>
        rw [search]
        by_cases hend : accepts none = true
        . rw [if_pos hend]
          exact .overrun (.atEnd items hend) fun caps hfits => by cases hfits
        . rw [if_neg hend]
          refine .fail (fun caps hfits => by cases hfits) fun caps hover => ?_
          cases hover with
          | atEnd _ h => exact hend h
      | cons d text =>
        rw [search]
        by_cases hd : accepts (some d) = true
        . have hdecides := ih text
          rw [if_pos hd]
          generalize search items text = outcome at hdecides ⊢
          cases hdecides with
          | overrun hover hfirst =>
            exact .overrun (.one hd hover) fun caps' hfits => hfirst caps' (fits_one.mp hfits).2
          | fail hfits hover =>
            exact .fail (fun caps h => hfits caps (fits_one.mp h).2) fun caps h => hover caps (overruns_one.mp h).2
          | fits hfits hfirst =>
            exact .fits (.one hd hfits) fun caps' hover => hfirst caps' (overruns_one.mp hover).2
        . rw [if_neg hd]
          exact .fail (fun caps h => hd (fits_one.mp h).1) fun caps h => hd (overruns_one.mp h).1

theorem decides_of_eq {outcome : Outcome α} (h : search items text = outcome) : Decides items text outcome :=
  h ▸ search_decides items text

/--
The search stays inside of the text if every way to go beyond it comes after one that matches all of it.
-/
theorem search_ne_overrun_iff : search items text ≠ .overrun
    ↔ ∀ caps, Overruns items caps text → ∃ caps', Fits items caps' text ∧ Before caps' caps := by
  constructor
  . intro hne caps hover
    cases h : search items text with
    | overrun => exact absurd h hne
    | fail => exact absurd (Or.inr hover) ((decides_of_eq h).not_way caps)
    | fits caps' =>
      cases decides_of_eq h with
      | fits hfits hfirst => exact ⟨caps', hfits, hfirst caps hover⟩
  . intro hall h
    cases decides_of_eq h with
    | overrun hover hfirst =>
      obtain ⟨caps', hfits, hbefore⟩ := hall _ hover
      exact (hfirst caps' hfits).asymm hbefore

theorem search_fits (h : search items text = .fits caps) : Fits items caps text := by
  cases decides_of_eq h with
  | fits hfits => exact hfits

theorem search_fail (h : search items text = .fail) : ¬∃ caps, Fits items caps text := by
  rintro ⟨caps, hfits⟩
  exact (decides_of_eq h).not_way caps (Or.inl hfits)

-- The item is never for the end of a text
def Item.IsBounded : Item α → Prop
  | one accepts => accepts none = false
  | star => True
  | broken => False

theorem not_overruns (h : ∀ item ∈ items, item.IsBounded) : ¬Overruns items caps text := by
  intro hover
  induction hover with
  | broken => exact h _ List.mem_cons_self
  | atEnd _ hend =>
    have hbounded := h _ List.mem_cons_self
    rw [Item.IsBounded, hend] at hbounded
    cases hbounded
  | one _ _ ih => exact ih fun item hitem => h item (List.mem_cons_of_mem _ hitem)
  | star _ _ ih => exact ih fun item hitem => h item (List.mem_cons_of_mem _ hitem)

theorem search_ne_overrun (h : ∀ item ∈ items, item.IsBounded) : search items text ≠ .overrun :=
  search_ne_overrun_iff.mpr fun _ hover => absurd hover (not_overruns h)

/-
Texts of other characters.
-/

-- The items accept the characters that are put in place of others if they accept these
inductive Item.Maps (g : α → β) : Item α → Item β → Prop where
  | one {accepts : Option α → Bool} {accepts' : Option β → Bool} (h : ∀ d, accepts' (d.map g) = accepts d)
      : Maps g (.one accepts) (.one accepts')
  | star : Maps g .star .star
  | broken : Maps g .broken .broken

theorem along_map (g : α → β) {f : List α → Outcome α} {f' : List β → Outcome β}
    (hf : ∀ text, f' (text.map g) = (f text).map g) (cap text : List α)
    : along f' (cap.map g) (text.map g) = (along f cap text).map g := by
  induction text generalizing cap with
  | nil => rw [List.map_nil, along, along, Outcome.map_capture, ← hf, List.map_nil]
  | cons d text ih =>
    have hcons := hf (d :: text)
    rw [List.map_cons] at hcons ⊢
    rw [along, along, hcons]
    cases f (d :: text) with
    | fail =>
      have hstep := ih (cap ++ [d])
      rw [List.map_append] at hstep
      exact hstep
    | overrun => rfl
    | fits caps => rfl

theorem search_map (g : α → β) {items : List (Item α)} {items' : List (Item β)}
    (h : List.Forall₂ (Item.Maps g) items items') (text : List α)
    : search items' (text.map g) = (search items text).map g := by
  induction h generalizing text with
  | nil => cases text <;> rfl
  | cons hitem _ ih =>
    cases hitem with
    | star => exact along_map g ih [] text
    | broken => rfl
    | one hone =>
      cases text with
      | nil =>
        have hend := hone none
        rw [Option.map_none] at hend
        rw [List.map_nil, search, search, hend]
        split <;> rfl
      | cons d text =>
        have hd := hone (some d)
        rw [Option.map_some] at hd
        rw [List.map_cons, search, search, hd]
        split
        . exact ih text
        . rfl

end Wildcard
