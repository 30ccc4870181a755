/-!
This module contains the folding of a sequence block by block, as a hash function or a cipher takes its message:
what has been taken in, and the rest which is less than a block.

Both of them can be computed piece by piece, when the rest is kept for the next piece.
-/

namespace Blocks

variable {α σ : Type} {n : Nat}

def foldCount (n : Nat) (f : σ → List α → σ) : Nat → σ → List α → σ
  | 0, s, _ => s
  | count + 1, s, data => foldCount n f count (f s (data.take n)) (data.drop n)

def fold (n : Nat) (f : σ → List α → σ) (s : σ) (data : List α) : σ := foldCount n f (data.length / n) s data

def rest (n : Nat) (data : List α) : List α := data.drop (n * (data.length / n))

theorem length_rest (data : List α) : (rest n data).length = data.length % n := by
  unfold rest
  rw [List.length_drop, Nat.mod_def]

theorem fold_of_lt {data : List α} (h : data.length < n) (f : σ → List α → σ) (s : σ) : fold n f s data = s := by
  unfold fold
  rw [Nat.div_eq_of_lt h]
  rfl

theorem rest_of_lt {data : List α} (h : data.length < n) : rest n data = data := by
  unfold rest
  rw [Nat.div_eq_of_lt h]
  rfl

theorem length_append_div {block : List α} (hn : 0 < n) (h : block.length = n) (data : List α)
    : (block ++ data).length / n = data.length / n + 1 := by
  rw [List.length_append, h, Nat.add_comm]
  exact Nat.add_div_right _ hn

theorem fold_append_of_length {block : List α} (hn : 0 < n) (h : block.length = n) (f : σ → List α → σ) (s : σ)
    (data : List α)
    : fold n f s (block ++ data) = fold n f (f s block) data := by
  unfold fold
  rw [length_append_div hn h, foldCount, List.take_left' h, List.drop_left' h]

theorem fold_of_length {block : List α} (hn : 0 < n) (h : block.length = n) (f : σ → List α → σ) (s : σ)
    : fold n f s block = f s block := by
  calc
    fold n f s block = fold n f s (block ++ []) := by rw [List.append_nil]
    _ = fold n f (f s block) [] := fold_append_of_length hn h f s []
    _ = f s block := fold_of_lt hn f _

theorem rest_append_of_length {block : List α} (hn : 0 < n) (h : block.length = n) (data : List α)
    : rest n (block ++ data) = rest n data := by
  unfold rest
  rw [length_append_div hn h, Nat.mul_succ, Nat.add_comm, ← List.drop_drop, List.drop_left' h]

theorem induction {motive : List α → Prop} (hn : 0 < n) (short : ∀ data, data.length < n → motive data)
    (block : ∀ block data, block.length = n → motive data → motive (block ++ data)) (data : List α)
    : motive data := by
  by_cases h : data.length < n
  . exact short data h
  . have htake : (data.take n).length = n := List.length_take_of_le (by omega)
    rw [← List.take_append_drop n data]
    apply block _ _ htake
    apply induction hn short block
termination_by data.length
decreasing_by
  rw [List.length_drop]
  omega

theorem fold_append (hn : 0 < n) (f : σ → List α → σ) (s : σ) (data data' : List α)
    : fold n f s (data ++ data') = fold n f (fold n f s data) (rest n data ++ data') := by
  induction data using induction hn generalizing s with
  | short data h => rw [fold_of_lt h, rest_of_lt h]
  | block block data h ih =>
    rw [List.append_assoc, fold_append_of_length hn h, fold_append_of_length hn h, rest_append_of_length hn h, ih]

theorem rest_append (hn : 0 < n) (data data' : List α) : rest n (data ++ data') = rest n (rest n data ++ data') := by
  induction data using induction hn with
  | short data h => rw [rest_of_lt h]
  | block block data h ih => rw [List.append_assoc, rest_append_of_length hn h, rest_append_of_length hn h, ih]

end Blocks
