import Mathlib.Algebra.Order.Ring.Int
import Mathlib.Data.List.Basic

/-!
This module contains memory as it is seen from a pointer into it, with a record of what has been accessed, and
functions that go through it block by block with a state that is passed on from each block to the next. Such a function
is undone by another one that undoes each of its steps.
-/

/-
Addresses are relative to the pointer, and an access is an address and a number of elements.
-/
structure Window (α : Type) where
  bytes : Int → α
  accesses : List (Int × Nat)

namespace Window

variable {α σ : Type} {w : Nat}

def load (m : Window α) (a : Int) : Fin w → α := fun i => m.bytes (a + i)

def touch (m : Window α) (a : Int) (n : Nat) : Window α := { m with accesses := m.accesses ++ [(a, n)] }

def store (m : Window α) (a : Int) (v : Fin w → α) : Window α where
  bytes x := if h : a ≤ x ∧ x < a + w then v ⟨(x - a).toNat, by omega⟩ else m.bytes x
  accesses := m.accesses ++ [(a, w)]

def set (m : Window α) (a : Int) (v : α) : Window α where
  bytes := Function.update m.bytes a v
  accesses := m.accesses ++ [(a, 1)]

-- Where a block begins
def blockStart (w j : Nat) : Int := ((w * j : Nat) : Int)

-- The first blocks, in place
def eachBlock (f : σ → (Fin w → α) → (Fin w → α) × σ) : Nat → Window α → σ → Window α × σ
  | 0, m, s => (m, s)
  | n + 1, m, s =>
    let (m, s) := eachBlock f n m s
    let (block, s) := f s (m.load (blockStart w n))
    ((m.touch (blockStart w n) w).store (blockStart w n) block, s)

-- The first elements from an address on, in place
def eachFrom (g : Nat → α → α) (a : Int) : Nat → Window α → Window α
  | 0, m => m
  | n + 1, m =>
    let m := eachFrom g a n m
    (m.touch (a + n) 1).set (a + n) (g n (m.bytes (a + n)))

-- Everything that is accessed is among the first so many elements
def Within (length : Nat) (m : Window α) : Prop := ∀ access ∈ m.accesses, 0 ≤ access.1 ∧ access.1 + access.2 ≤ length

variable {m m' : Window α} {a x : Int}

theorem within_touch {length n : Nat} (hm : m.Within length) (ha : 0 ≤ a) (hn : a + n ≤ length)
    : (m.touch a n).Within length := by
  intro access haccess
  rcases List.mem_append.mp haccess with haccess | haccess
  . exact hm access haccess
  . rw [List.mem_singleton.mp haccess]
    exact ⟨ha, hn⟩

@[simp]
theorem bytes_touch (m : Window α) (a : Int) (n : Nat) : (m.touch a n).bytes = m.bytes := rfl

theorem bytes_ite_touch (c : Prop) [Decidable c] (m : Window α) (a : Int) (n : Nat)
    : (if c then m.touch a n else m).bytes = m.bytes := by
  split <;> rfl

theorem store_inside (m : Window α) (v : Fin w → α) (i : Fin w) : (m.store a v).bytes (a + i) = v i := by
  have hi := i.isLt
  have hin : a ≤ a + i ∧ a + i < a + w := by omega
  unfold store
  dsimp only
  rw [dif_pos hin]
  congr 1
  apply Fin.ext
  show (a + i - a).toNat = i
  omega

theorem store_outside (m : Window α) (v : Fin w → α) (h : x < a ∨ a + w ≤ x) : (m.store a v).bytes x = m.bytes x := by
  unfold store
  dsimp only
  rw [dif_neg (by omega)]

theorem load_store_self (m : Window α) (a : Int) (v : Fin w → α) : (m.store a v).load a = v := by
  funext i
  exact store_inside m v i

theorem load_congr (h : ∀ x, a ≤ x → x < a + w → m.bytes x = m'.bytes x) : m.load (w := w) a = m'.load a := by
  funext i
  have hi := i.isLt
  exact h _ (by omega) (by omega)

theorem blockStart_succ (w n : Nat) : blockStart w (n + 1) = blockStart w n + w := by
  unfold blockStart
  rw [Nat.mul_succ]
  omega

theorem blockStart_nonneg (w n : Nat) : 0 ≤ blockStart w n := Int.natCast_nonneg _

theorem blockStart_add_le {j n : Nat} (h : j < n) : blockStart w j + w ≤ blockStart w n := by
  have hle : w * (j + 1) ≤ w * n := Nat.mul_le_mul_left w h
  rw [← blockStart_succ]
  exact Int.ofNat_le.mpr hle

section Each

variable (f : σ → (Fin w → α) → (Fin w → α) × σ) (s : σ)

-- The state that is passed on to a block
def stateAt (m : Window α) : Nat → σ
  | 0 => s
  | j + 1 => (f (stateAt m j) (m.load (blockStart w j))).2

theorem eachBlock_succ (n : Nat) (m : Window α)
    : eachBlock f (n + 1) m s
        = ((((eachBlock f n m s).1.touch (blockStart w n) w).store (blockStart w n)
            (f (eachBlock f n m s).2 ((eachBlock f n m s).1.load (blockStart w n))).1),
          (f (eachBlock f n m s).2 ((eachBlock f n m s).1.load (blockStart w n))).2) :=
  rfl

theorem eachBlock_outside (n : Nat) (m : Window α) (h : x < 0 ∨ blockStart w n ≤ x)
    : (eachBlock f n m s).1.bytes x = m.bytes x := by
  induction n with
  | zero => rfl
  | succ n ih =>
    have hpos := blockStart_nonneg w n
    rw [blockStart_succ] at h
    rw [eachBlock_succ, store_outside _ _ (by omega)]
    exact ih (by omega)

theorem eachBlock_load (n : Nat) (m : Window α)
    : (eachBlock f n m s).1.load (w := w) (blockStart w n) = m.load (blockStart w n) :=
  load_congr fun _ hle _ => eachBlock_outside f s n m (Or.inr hle)

theorem eachBlock_state (n : Nat) (m : Window α) : (eachBlock f n m s).2 = stateAt f s m n := by
  induction n with
  | zero => rfl
  | succ n ih =>
    rw [eachBlock_succ, eachBlock_load, ih]
    rfl

-- What becomes of each of the blocks
theorem load_eachBlock {j n : Nat} (hj : j < n) (m : Window α)
    : (eachBlock f n m s).1.load (blockStart w j) = (f (stateAt f s m j) (m.load (blockStart w j))).1 := by
  induction n with
  | zero => contradiction
  | succ n ih =>
    rw [eachBlock_succ]
    rcases Nat.lt_succ_iff_lt_or_eq.mp hj with hlt | rfl
    . rw [← ih hlt]
      have hend := blockStart_add_le (w := w) hlt
      apply load_congr
      intro x _ hx
      rw [store_outside _ _ (by omega), bytes_touch]
    . rw [load_store_self, eachBlock_load, eachBlock_state]

theorem within_eachBlock {n length : Nat} (hn : blockStart w n ≤ length) {m : Window α} (hm : m.Within length)
    : (eachBlock f n m s).1.Within length := by
  induction n with
  | zero => exact hm
  | succ n ih =>
    rw [blockStart_succ] at hn
    have hpos := blockStart_nonneg w n
    have hrec := ih (by omega)
    rw [eachBlock_succ]
    intro access haccess
    simp only [store, touch, List.append_assoc, List.mem_append, List.mem_singleton] at haccess
    rcases haccess with haccess | rfl | rfl
    . exact hrec access haccess
    . exact ⟨hpos, hn⟩
    . exact ⟨hpos, hn⟩

end Each

section Inverse

variable {f g : σ → (Fin w → α) → (Fin w → α) × σ}

-- A step is undone and passes on the same state
def Inverse (f g : σ → (Fin w → α) → (Fin w → α) × σ) : Prop := ∀ s v, g s (f s v).1 = (v, (f s v).2)

variable {n : Nat} {s : σ}

theorem stateAt_inverse (hfg : Inverse f g)
    (hsame : ∀ x, 0 ≤ x → x < blockStart w n → m'.bytes x = (eachBlock f n m s).1.bytes x) {j : Nat} (hj : j ≤ n)
    : stateAt g s m' j = stateAt f s m j := by
  induction j with
  | zero => rfl
  | succ j ih =>
    have hend := blockStart_add_le (w := w) hj
    have hpos := blockStart_nonneg w j
    have hload : m'.load (w := w) (blockStart w j) = (eachBlock f n m s).1.load (blockStart w j) :=
      load_congr fun x hle hlt => hsame x (by omega) (by omega)
    unfold stateAt
    rw [ih (by omega), hload, load_eachBlock f s hj, hfg]

theorem eachBlock_inverse (hfg : Inverse f g)
    (hsame : ∀ x, 0 ≤ x → x < blockStart w n → m'.bytes x = (eachBlock f n m s).1.bytes x) (hpos : 0 ≤ x)
    (hlt : x < blockStart w n)
    : (eachBlock g n m' s).1.bytes x = m.bytes x := by
  have hw : 0 < w := by
    apply Nat.pos_of_ne_zero
    rintro rfl
    unfold blockStart at hlt
    omega
  obtain ⟨y, rfl⟩ := Int.eq_ofNat_of_zero_le hpos
  have hy : y < w * n := Int.ofNat_lt.mp hlt
  have hj : y / w < n := Nat.div_lt_of_lt_mul hy
  have hend := blockStart_add_le (w := w) hj
  have hstart := blockStart_nonneg w (y / w)
  have hload : m'.load (w := w) (blockStart w (y / w)) = (eachBlock f n m s).1.load (blockStart w (y / w)) :=
    load_congr fun x hle hlt => hsame x (by omega) (by omega)
  have hblock : (eachBlock g n m' s).1.load (w := w) (blockStart w (y / w)) = m.load (blockStart w (y / w)) := by
    rw [load_eachBlock g s hj, stateAt_inverse hfg hsame (Nat.le_of_lt hj), hload, load_eachBlock f s hj, hfg]
  have hx : (y : Int) = blockStart w (y / w) + ((⟨y % w, Nat.mod_lt y hw⟩ : Fin w) : Nat) := by
    unfold blockStart
    rw [← Int.natCast_add, Nat.div_add_mod]
  have hbyte := congrFun hblock ⟨y % w, Nat.mod_lt y hw⟩
  unfold load at hbyte
  rwa [← hx] at hbyte

-- Also where there is more behind the blocks
theorem eachBlock_inverse_rest (hfg : Inverse f g) {length : Int}
    (hle : blockStart w n ≤ length)
    (hsame : ∀ x, 0 ≤ x → x < length → m'.bytes x = (eachBlock f n m s).1.bytes x) (hpos : 0 ≤ x) (hlt : x < length)
    : (eachBlock g n m' s).1.bytes x = m.bytes x := by
  by_cases hx : x < blockStart w n
  . exact eachBlock_inverse hfg (fun y hy hylt => hsame y hy (by omega)) hpos hx
  . have houtside : x < 0 ∨ blockStart w n ≤ x := Or.inr (Int.not_lt.mp hx)
    rw [eachBlock_outside _ _ _ _ houtside, hsame x hpos hlt, eachBlock_outside _ _ _ _ houtside]

end Inverse

section From

variable (g : Nat → α → α) (a : Int)

theorem bytes_eachFrom (n : Nat) (m : Window α) (x : Int)
    : (eachFrom g a n m).bytes x = if a ≤ x ∧ x < a + n then g (x - a).toNat (m.bytes x) else m.bytes x := by
  induction n with
  | zero => exact (if_neg (by omega)).symm
  | succ n ih =>
    show Function.update (eachFrom g a n m).bytes (a + n) (g n ((eachFrom g a n m).bytes (a + n))) x = _
    by_cases hx : x = a + n
    . have hold : (eachFrom g a n m).bytes x = m.bytes x := by
        rw [ih, if_neg (by omega)]
      have hindex : (x - a).toNat = n := by omega
      rw [← hx, Function.update_self, if_pos (by omega), hold, hindex]
    . rw [Function.update_of_ne hx, ih]
      by_cases hin : a ≤ x ∧ x < a + n
      . rw [if_pos hin, if_pos (by omega)]
      . rw [if_neg hin, if_neg (by omega)]

theorem within_eachFrom {n length : Nat} (ha : 0 ≤ a) (hn : a + n ≤ length) {m : Window α} (hm : m.Within length)
    : (eachFrom g a n m).Within length := by
  induction n with
  | zero => exact hm
  | succ n ih =>
    have hrec := ih (by omega)
    intro access haccess
    simp only [eachFrom, set, touch, List.append_assoc, List.mem_append, List.mem_singleton] at haccess
    rcases haccess with haccess | rfl | rfl
    . exact hrec access haccess
    . dsimp only
      omega
    . dsimp only
      omega

theorem mem_accesses_eachFrom (n : Nat) {m : Window α} {access : Int × Nat} (h : access ∈ m.accesses)
    : access ∈ (eachFrom g a n m).accesses := by
  induction n with
  | zero => exact h
  | succ n ih => exact List.mem_append_left _ (List.mem_append_left _ ih)

end From

end Window
