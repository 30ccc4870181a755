import Mathlib.Data.List.Basic

/-!
This module contains what a gather buffer is for, whatever pieces it is made of: a string of bytes
with operations on it.
-/

namespace ObTools
namespace Gather

-- Overwrite in place, clipped at the end
def overwrite {α : Type} (offset : Nat) (data l : List α) : List α :=
  l.take offset ++ (data.take (l.length - offset) ++ l.drop (offset + data.length))

inductive ByteOp where
  | append (data : List UInt8)
  | insert (pos : Nat) (data : List UInt8)
  | drop (n : Nat)
  | take (n : Nat)
  | keep
  | overwrite (offset : Nat) (data : List UInt8)

def ByteOp.apply (bytes : List UInt8) : ByteOp → List UInt8
  | append data => bytes ++ data
  | insert pos data => bytes.take pos ++ data ++ bytes.drop pos
  | drop n => bytes.drop n
  | take n => bytes.take n
  | keep => bytes
  | overwrite offset data => Gather.overwrite offset data bytes

section Overwrite

variable {α : Type} {data l l' : List α} {offset : Nat}

theorem overwrite_nil (offset : Nat) (l : List α) : overwrite offset [] l = l := by
  simp [overwrite]

theorem overwrite_of_le (h : l.length ≤ offset) : overwrite offset data l = l := by
  unfold overwrite
  rw [List.take_of_length_le h, Nat.sub_eq_zero_of_le h, List.take_zero,
    List.drop_of_length_le (by omega)]
  simp

-- As much data as there is room for
theorem overwrite_take {n : Nat} (h : data.length ≤ n ∨ l.length - offset ≤ n)
    : overwrite offset (data.take n) l = overwrite offset data l := by
  cases h with
  | inl hle => rw [List.take_of_length_le hle]
  | inr hle =>
    unfold overwrite
    rw [List.take_take, Nat.min_eq_left hle, List.length_take]
    congr 2
    by_cases hn : n ≤ data.length
    . rw [List.drop_of_length_le (by omega), List.drop_of_length_le (by omega)]
    . rw [Nat.min_eq_right (by omega)]

/--
What is overwritten in the first part and what is left for the second one.
-/
theorem overwrite_append
    : overwrite offset data (l ++ l')
        =
      overwrite offset data l
        ++ overwrite (offset - l.length) (data.drop (l.length - offset)) l' := by
  by_cases hle : l.length ≤ offset
  . rw [overwrite_of_le hle, Nat.sub_eq_zero_of_le hle, List.drop_zero]
    unfold overwrite
    rw [List.take_append, List.take_of_length_le hle, List.drop_append,
      List.drop_of_length_le (by omega), List.length_append, List.nil_append, List.append_assoc]
    congr 3
    . congr 1
      omega
    . congr 1
      omega
  . have hdata : data.take (l.length - offset) ++ (data.drop (l.length - offset)).take l'.length
        = data.take (l.length + l'.length - offset) := by
      have hsum : l.length + l'.length - offset = l.length - offset + l'.length := by omega
      rw [hsum, List.take_add]
    unfold overwrite
    have hzero : offset - l.length = 0 := by omega
    rw [hzero, List.take_append, hzero, List.drop_append, List.length_append, ← hdata]
    simp only [List.take_zero, List.append_nil, List.nil_append, Nat.zero_add, Nat.sub_zero,
      List.length_drop, List.append_assoc]
    by_cases hshort : data.length ≤ l.length - offset
    . rw [List.drop_of_length_le hshort, List.take_nil, List.nil_append, List.nil_append]
      congr 4
      omega
    . have hend : l.drop (offset + data.length) = [] := by
        apply List.drop_of_length_le
        omega
      rw [hend, List.nil_append, List.nil_append]
      congr 4
      omega

end Overwrite

end Gather
end ObTools
