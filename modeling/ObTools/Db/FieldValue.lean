import ObTools.Text.Subst

/-!
This module contains the model of how `DB::FieldValue` puts strings into SQL, and the proof that they are read back from
it.
-/

namespace ObTools
namespace DB

abbrev Bytes := List UInt8

namespace FieldValue

open Replace

-- Escape a string, doubling single quotes and backslashes
def escape (s : Bytes) : Option Bytes := do
  let s2 ← Text.subst s [92] [92, 92]
  Text.subst s2 [39] [39, 39]

-- Unescape a string, singling double quotes and backslashes
def unescape (s : Bytes) : Option Bytes := do
  let s2 ← Text.subst s [92, 92] [92]
  Text.subst s2 [39, 39] [39]

-- Escape and quote a string
def quote (s : Bytes) : Option Bytes := do
  let s ← escape s
  return 39 :: s ++ [39]

/-
What is behind the opening quote of a literal, up to the closing one, and the rest. What a backslash in front of another
character means is up to the database.
-/
def readString (other : Bytes → Option (Bytes × Bytes)) : Bytes → Option (Bytes × Bytes)
  | [] => none
  | 39 :: rest =>
    match rest with
    | 39 :: rest => (readString other rest).map fun (s, rest) => (39 :: s, rest)
    | _ => some ([], rest)
  | 92 :: rest =>
    match rest with
    | 92 :: rest => (readString other rest).map fun (s, rest) => (92 :: s, rest)
    | _ => other rest
  | c :: rest => (readString other rest).map fun (s, rest) => (c :: s, rest)

def readLiteral (other : Bytes → Option (Bytes × Bytes)) : Bytes → Option (Bytes × Bytes)
  | 39 :: rest => readString other rest
  | _ => none

-- What a character is escaped to
def doubled (c : UInt8) : Bytes := if c = 92 ∨ c = 39 then [c, c] else [c]

theorem doubled_cases (c : UInt8)
    : (c = 92 ∧ doubled c = [92, 92]) ∨ (c = 39 ∧ doubled c = [39, 39]) ∨ (c ≠ 92 ∧ c ≠ 39 ∧ doubled c = [c]) := by
  by_cases h92 : c = 92
  . rw [h92]
    exact Or.inl ⟨rfl, rfl⟩
  . by_cases h39 : c = 39
    . rw [h39]
      exact Or.inr (Or.inl ⟨rfl, rfl⟩)
    . exact Or.inr (Or.inr ⟨h92, h39, if_neg (not_or.mpr ⟨h92, h39⟩)⟩)

theorem escape_eq (s : Bytes) : escape s = some (s.flatMap doubled) := by
  have hbs : ([92] : Bytes) ≠ [] := List.cons_ne_nil _ _
  have hqs : ([39] : Bytes) ≠ [] := List.cons_ne_nil _ _
  have hbackslash := replaceAll_flatMap [92, 92] hbs (f := fun c => [c]) s
  have hquote := replaceAll_flatMap [39, 39] hqs (f := fun c => if [c] = [92] then [92, 92] else [c]) s
  rw [List.flatMap_singleton'] at hbackslash
  unfold escape
  rw [Text.subst_eq _ _ hbs, hbackslash, Option.bind_eq_bind, Option.bind_some, Text.subst_eq _ _ hqs, hquote]
  . congr 2
    funext c
    rcases doubled_cases c with ⟨rfl, hc⟩ | ⟨rfl, hc⟩ | ⟨h92, h39, hc⟩
    . simp [hc]
    . simp [hc]
    . simp [hc, h92, h39]
  . intro c _
    rcases doubled_cases c with ⟨rfl, -⟩ | ⟨rfl, -⟩ | ⟨h92, h39, -⟩
    . simp
    . simp
    . simp [h92, Ne.symm h39]
  . intro c _
    by_cases h92 : c = 92
    . simp [h92]
    . simp [Ne.symm h92]

theorem unescape_doubled (s : Bytes) : unescape (s.flatMap doubled) = some s := by
  have hbs : ([92, 92] : Bytes) ≠ [] := List.cons_ne_nil _ _
  have hqs : ([39, 39] : Bytes) ≠ [] := List.cons_ne_nil _ _
  have hbackslash := replaceAll_flatMap [92] hbs (f := doubled) s
  have hquote := replaceAll_flatMap [39] hqs (f := fun c => if doubled c = [92, 92] then [92] else doubled c) s
  unfold unescape
  rw [Text.subst_eq _ _ hbs, hbackslash, Option.bind_eq_bind, Option.bind_some, Text.subst_eq _ _ hqs, hquote]
  . congr 1
    conv_rhs => rw [← List.flatMap_singleton' s]
    congr 1
    funext c
    rcases doubled_cases c with ⟨rfl, hc⟩ | ⟨rfl, hc⟩ | ⟨-, -, hc⟩
    . simp [hc]
    . simp [hc]
    . simp [hc]
  . intro c _
    rcases doubled_cases c with ⟨rfl, hc⟩ | ⟨rfl, hc⟩ | ⟨-, h39, hc⟩
    . simp [hc]
    . simp [hc]
    . simp [hc, Ne.symm h39]
  . intro c _
    rcases doubled_cases c with ⟨rfl, hc⟩ | ⟨rfl, hc⟩ | ⟨h92, -, hc⟩
    . simp [hc]
    . simp [hc]
    . simp [hc, Ne.symm h92]

theorem readString_doubled (other : Bytes → Option (Bytes × Bytes)) (s : Bytes) {rest : Bytes}
    (hrest : rest.head? ≠ some 39)
    : readString other (s.flatMap doubled ++ 39 :: rest) = some (s, rest) := by
  induction s with
  | nil =>
    cases rest with
    | nil => rfl
    | cons c rest =>
      rw [List.head?_cons, ne_eq, Option.some.injEq] at hrest
      rw [List.flatMap_nil, List.nil_append, readString]
      exact fun _ h => hrest (List.cons.inj h).1
  | cons c s ih =>
    rw [List.flatMap_cons, List.append_assoc]
    rcases doubled_cases c with ⟨rfl, hc⟩ | ⟨rfl, hc⟩ | ⟨h92, h39, hc⟩
    . rw [hc, List.cons_append, List.cons_append, List.nil_append, readString, ih]
      rfl
    . rw [hc, List.cons_append, List.cons_append, List.nil_append, readString, ih]
      rfl
    . rw [hc, List.singleton_append, readString, ih]
      . rfl
      . exact h39
      . exact h92

/--
A string comes back from its escaped form, and the literal that is made of it is the whole of what a database reads.
-/
theorem unescape_escape (other : Bytes → Option (Bytes × Bytes)) (s : Bytes)
    : (∃ escaped, escape s = some escaped ∧ unescape escaped = some s)
        ∧ ∃ literal, quote s = some literal ∧ readLiteral other literal = some (s, []) := by
  refine ⟨⟨_, escape_eq s, unescape_doubled s⟩, 39 :: s.flatMap doubled ++ [39], ?_, ?_⟩
  . unfold quote
    rw [escape_eq]
    rfl
  . exact readString_doubled other s (by simp)

end FieldValue

end DB
end ObTools
