import Mathlib.Algebra.Group.Int.Defs
import Mathlib.Algebra.Group.Nat.Defs
import Mathlib.Data.List.Basic

/-!
This module contains the model of `JSON::Value`. A `string` of the source is a list of bytes, and a
`map` from strings is the list of its entries in the order of their keys.
-/

namespace ObTools
namespace Json

abbrev Bytes := List UInt8

inductive Value where
  | undefined
  | null
  | number (f : Float)
  | integer (n : Int64)
  | string (s : Bytes)
  | object (o : List (Bytes × Value))
  | array (a : List Value)
  | true_
  | false_
  | binary (s : Bytes)
  -- End of indefinite array
  | break_

-- `o[key] = v`
def mapSet (key : Bytes) (v : Value) : List (Bytes × Value) → List (Bytes × Value)
  | [] => [(key, v)]
  | (k, w) :: o =>
    if key < k then
      (key, v) :: (k, w) :: o
    else if key = k then
      (key, v) :: o
    else
      (k, w) :: mapSet key v o

-- A key behind all others is added at the end
theorem mapSet_last {o : List (Bytes × Value)} {k : Bytes} {v : Value}
    (h : ∀ l ∈ o.map Prod.fst, l < k)
    : mapSet k v o = o ++ [(k, v)] := by
  induction o with
  | nil => rfl
  | cons e o ih =>
    obtain ⟨l, w⟩ := e
    have hl : l < k := h l (by simp)
    have h1 : ¬(k < l) := List.lt_asymm hl
    have h2 : ¬(k = l) := by
      intro heq
      rw [heq] at hl
      exact List.lt_irrefl l hl
    simp only [mapSet, h1, h2, ↓reduceIte, List.cons_append]
    rw [ih]
    intro l' hl'
    exact h l' (by simp_all)

namespace Value

-- `operator==`
mutual

def equals : Value → Value → Bool
  | undefined, undefined => true
  | null, null => true
  | number f, number g => f == g
  | integer n, integer m => n == m
  | string s, string t => s == t
  | object o, object p => equalsObject o p
  | array a, array b => equalsArray a b
  | true_, true_ => true
  | false_, false_ => true
  | binary s, binary t => s == t
  | break_, break_ => true
  | _, _ => false

def equalsArray : List Value → List Value → Bool
  | [], [] => true
  | v :: a, w :: b => v.equals w && equalsArray a b
  | _, _ => false

def equalsObject : List (Bytes × Value) → List (Bytes × Value) → Bool
  | [], [] => true
  | (k, v) :: o, (l, w) :: p => k == l && v.equals w && equalsObject o p
  | _, _ => false

end

/-
Values as the program can hold them: the length of a string is a `size_t`, the keys of a map are in
order, and here containers have less than `2 ^ 32` elements.
-/
mutual

def Valid : Value → Prop
  | string s => s.length < 2 ^ 64
  | binary s => s.length < 2 ^ 64
  | array a => a.length < 2 ^ 32 ∧ ValidArray a
  | object o => o.length < 2 ^ 32 ∧ (o.map Prod.fst).Pairwise (· < ·) ∧ ValidObject o
  | _ => True

def ValidArray : List Value → Prop
  | [] => True
  | v :: a => v.Valid ∧ ValidArray a

def ValidObject : List (Bytes × Value) → Prop
  | [] => True
  | (k, v) :: o => k.length < 2 ^ 64 ∧ v.Valid ∧ ValidObject o

end

-- Whether there are no floating point numbers and no breaks in it
mutual

def plain : Value → Bool
  | number _ => false
  | break_ => false
  | array a => plainArray a
  | object o => plainObject o
  | _ => true

def plainArray : List Value → Bool
  | [] => true
  | v :: a => v.plain && plainArray a

def plainObject : List (Bytes × Value) → Bool
  | [] => true
  | (_, v) :: o => v.plain && plainObject o

end

mutual

theorem equals_self : (v : Value) → v.plain = true → v.equals v = true
  | undefined, _ => rfl
  | null, _ => rfl
  | number f, h => by simp [plain] at h
  | integer n, _ => by simp [equals]
  | string s, _ => by simp [equals]
  | object o, h => by
    rw [equals]
    exact equalsObject_self o (by simpa [plain] using h)
  | array a, h => by
    rw [equals]
    exact equalsArray_self a (by simpa [plain] using h)
  | true_, _ => rfl
  | false_, _ => rfl
  | binary s, _ => by simp [equals]
  | break_, h => by simp [plain] at h

theorem equalsArray_self : (a : List Value) → plainArray a = true → equalsArray a a = true
  | [], _ => rfl
  | v :: a, h => by
    rw [plainArray, Bool.and_eq_true] at h
    rw [equalsArray, equals_self v h.1, equalsArray_self a h.2]
    rfl

theorem equalsObject_self
    : (o : List (Bytes × Value)) → plainObject o = true → equalsObject o o = true
  | [], _ => rfl
  | (k, v) :: o, h => by
    rw [plainObject, Bool.and_eq_true] at h
    rw [equalsObject, equals_self v h.1, equalsObject_self o h.2]
    simp

end

end Value

end Json
end ObTools
