import ObTools.Lib.Replace

/-!
This module contains the model of `Text::subst`, and the proof that it replaces every occurrence unless it is
asked to replace the empty string.
-/

namespace ObTools
namespace Text

open Replace

/-
Runs the loop for at most as many times as there is fuel. There is no result if that is not enough.
-/
def substLoop (old rep : List UInt8) : Nat → List UInt8 → Nat → Option (List UInt8)
  | 0, _, _ => none
  | fuel + 1, text, p =>
    if p < text.length then
      match find text old p with
      | some p => substLoop old rep fuel (text.take p ++ rep ++ text.drop (p + old.length)) (p + rep.length)
      | none => some text
    else
      some text

-- There are no more occurrences than there are characters
def subst (text old rep : List UInt8) : Option (List UInt8) := substLoop old rep (text.length + 1) text 0

-- `subst` returns the string
def Substs (text old rep result : List UInt8) : Prop := ∃ fuel, substLoop old rep fuel text 0 = some result

variable {text old rep : List UInt8}

theorem substLoop_rest (hold : old ≠ []) {fuel : Nat} {rest : List UInt8} (before : List UInt8)
    (hfuel : rest.length < fuel)
    : substLoop old rep fuel (before ++ rest) before.length = some (before ++ replaceAll old rep rest) := by
  induction fuel generalizing before rest with
  | zero => exact absurd hfuel (Nat.not_lt_zero _)
  | succ fuel ih =>
    rw [substLoop]
    by_cases hrest : rest = []
    . rw [hrest, List.append_nil, if_neg (Nat.lt_irrefl _), replaceAll_nil hold, List.append_nil]
    . have hlength : 0 < rest.length := List.length_pos_of_ne_nil hrest
      have hfind : find (before ++ rest) old before.length = findFrom old rest before.length := by
        unfold find
        rw [if_pos (by rw [List.length_append]; omega), List.drop_left]
      rw [if_pos (by rw [List.length_append]; omega), hfind]
      rcases findFrom_eq old rest before.length with ⟨skipped, after, rfl, hskipped, hsome⟩ | ⟨-, hskipped, hnone⟩
      . have hafter : after.length < fuel := by
          have hpos := List.length_pos_of_ne_nil hold
          rw [List.length_append, List.length_append] at hfuel
          omega
        -- The position behind what has been put in place of the occurrence
        have htext : (before ++ (skipped ++ (old ++ after))).take (before.length + skipped.length) ++ rep
              ++ (before ++ (skipped ++ (old ++ after))).drop (before.length + skipped.length + old.length)
            = before ++ skipped ++ rep ++ after := by
          rw [← List.append_assoc before, ← List.length_append, List.take_left, ← List.drop_drop, List.drop_left,
            List.drop_left]
        have hp : before.length + skipped.length + rep.length = (before ++ skipped ++ rep).length := by
          rw [List.length_append, List.length_append]
        rw [hsome]
        dsimp only
        rw [htext, hp, ih (before ++ skipped ++ rep) hafter, replaceAll_append rep hskipped, replaceAll_match hold]
        simp only [List.append_assoc]
      . have hnothing : replaceAll old rep rest = rest := by
          have := replaceAll_append rep hskipped
          rwa [List.append_nil, replaceAll_nil hold, List.append_nil] at this
        rw [hnone, hnothing]

theorem subst_eq (text rep : List UInt8) (hold : old ≠ []) : subst text old rep = some (replaceAll old rep text) :=
  substLoop_rest hold [] (Nat.lt_succ_self _)

theorem substs_replaceAll (text rep : List UInt8) (hold : old ≠ [])
    : Substs text old rep (replaceAll old rep text) :=
  ⟨text.length + 1, subst_eq text rep hold⟩

-- The empty string is found where the search begins, and the end of the text keeps its distance
theorem substLoop_empty {p : Nat} (fuel : Nat) (hp : p < text.length) : substLoop [] rep fuel text p = none := by
  induction fuel generalizing text p with
  | zero => rfl
  | succ fuel ih =>
    rw [substLoop, if_pos hp, find_nil (Nat.le_of_lt hp)]
    refine ih ?_
    rw [List.length_append, List.length_append, List.length_take, List.length_drop, List.length_nil]
    omega

theorem not_substs_empty (htext : text ≠ []) {result : List UInt8} : ¬Substs text [] rep result := by
  rintro ⟨fuel, h⟩
  rw [substLoop_empty fuel (List.length_pos_of_ne_nil htext)] at h
  cases h

theorem substs_nil (old rep : List UInt8) : Substs [] old rep [] := ⟨1, rfl⟩

theorem subst_iff (text old rep : List UInt8)
    : (∃ result, Substs text old rep result ∧ (old ≠ [] → result = replaceAll old rep text)
          ∧ (old = [] → result = text))
        ↔ old ≠ [] ∨ text = [] := by
  constructor
  . rintro ⟨result, hresult, -, -⟩
    by_cases hold : old = []
    . subst hold
      refine Or.inr (Classical.not_not.mp fun htext => ?_)
      exact not_substs_empty htext hresult
    . exact Or.inl hold
  . by_cases hold : old = []
    . rintro (h | rfl)
      . exact absurd hold h
      . exact ⟨[], substs_nil old rep, fun h => absurd hold h, fun _ => rfl⟩
    . intro _
      exact ⟨_, substs_replaceAll text rep hold, fun _ => rfl, fun h => absurd h hold⟩

-- Replacing nothing in "a"
theorem not_subst_empty
    : ¬∀ text old rep : List UInt8, ∃ result, Substs text old rep result
        ∧ (old ≠ [] → result = replaceAll old rep text) ∧ (old = [] → result = text) := by
  intro h
  obtain ⟨result, hresult, -, -⟩ := h [97] [] []
  exact not_substs_empty (List.cons_ne_nil _ _) hresult

end Text
end ObTools
