import Mathlib.Data.List.Basic
import Mathlib.Tactic.SplitIfs
import ObTools.Cppt.Processor

/-!
This module contains the characters of a text that are held back because they may begin a tag: what becomes of them
from one character to the next, and when none of them is lost.
-/

namespace ObTools
namespace CPPT

open TokenRecogniser

/-
`valid` says that what is held back has been taken for a tag, it is dropped unless it goes on to be a longer one.
-/
structure Held where
  written : Bytes
  pending : Bytes
  valid : Bool

namespace Held

def empty : Held := { written := [], pending := [], valid := false }

-- Characters are only compared with those at their index in the tags, there is none for those that match nowhere
def hold (tokens : List Bytes) (h : Held) (c : UInt8) : Option Held :=
  if possibles tokens h.pending.length c = [] then
    none
  else if isComplete (possibles tokens h.pending.length c) h.pending.length then
    if (possibles tokens h.pending.length c).length = 1 then
      some { h with pending := [], valid := false }
    else
      some { h with pending := h.pending ++ [c], valid := true }
  else
    some { h with pending := h.pending ++ [c] }

def flush (h : Held) : Held :=
  { written := h.written ++ (if h.valid then [] else h.pending), pending := [], valid := false }

def pass (tokens : List Bytes) (h : Held) (c : UInt8) : Held :=
  (h.hold tokens c).getD { h with written := h.written ++ [c] }

def step (tokens : List Bytes) (h : Held) (c : UInt8) : Held := (h.hold tokens c).getD (h.flush.pass tokens c)

def run (tokens : List Bytes) (h : Held) (text : Bytes) : Held := text.foldl (step tokens) h

/-
The number of characters that are written, and those that may still be.
-/
def size (h : Held) : Nat := h.written.length + (if h.valid then 0 else h.pending.length)

end Held

/--
Characters held back up to an index do not reach the last character of a tag, nor the end of the text, and so do those
that are held back after them.
-/
def spared (tokens : List Bytes) : Nat → Bytes → Bool
  | index, [] => index = 0
  | index, c :: text =>
    if possibles tokens index c ≠ [] then
      !isComplete (possibles tokens index c) index && spared tokens (index + 1) text
    else if possibles tokens 0 c ≠ [] then
      !isComplete (possibles tokens 0 c) 0 && spared tokens 1 text
    else
      spared tokens 0 text

namespace Held

variable {tokens : List Bytes} {h h' : Held} {c : UInt8}

theorem hold_eq_none_iff : h.hold tokens c = none ↔ possibles tokens h.pending.length c = [] := by
  unfold hold
  split_ifs with hps <;> simp [hps]

theorem hold_of_not_complete (hps : possibles tokens h.pending.length c ≠ [])
    (hcomplete : isComplete (possibles tokens h.pending.length c) h.pending.length = false)
    : h.hold tokens c = some { h with pending := h.pending ++ [c] } := by
  unfold hold
  rw [if_neg hps, hcomplete, if_neg Bool.false_ne_true]

-- What is taken for a tag is not written
theorem hold_of_complete (hps : possibles tokens h.pending.length c ≠ [])
    (hcomplete : isComplete (possibles tokens h.pending.length c) h.pending.length = true)
    : ∃ h', h.hold tokens c = some h' ∧ h'.size = h.written.length := by
  unfold hold
  rw [if_neg hps, if_pos hcomplete]
  by_cases hone : (possibles tokens h.pending.length c).length = 1
  . rw [if_pos hone]
    exact ⟨_, rfl, rfl⟩
  . rw [if_neg hone]
    exact ⟨_, rfl, rfl⟩

theorem written_hold (hhold : h.hold tokens c = some h') : h'.written = h.written := by
  unfold hold at hhold
  split_ifs at hhold <;> (cases hhold; rfl)

theorem pending_hold (hhold : h.hold tokens c = some h') : h'.pending <:+ h.pending ++ [c] := by
  unfold hold at hhold
  split_ifs at hhold
  . cases hhold
    exact List.nil_suffix
  . cases hhold
    exact List.suffix_rfl
  . cases hhold
    exact List.suffix_rfl

theorem length_written_le_size (h : Held) : h.written.length ≤ h.size := Nat.le_add_right _ _

theorem size_flush (h : Held) : h.flush.size = h.size := by
  cases hvalid : h.valid <;> simp [size, flush, hvalid]

theorem size_hold_le (hhold : h.hold tokens c = some h') : h'.size ≤ h.size + 1 := by
  by_cases hps : possibles tokens h.pending.length c = []
  . rw [hold_eq_none_iff.mpr hps] at hhold
    contradiction
  . cases hcomplete : isComplete (possibles tokens h.pending.length c) h.pending.length with
    | false =>
      rw [hold_of_not_complete hps hcomplete, Option.some.injEq] at hhold
      subst hhold
      cases hvalid : h.valid <;> simp [size, hvalid]
      omega
    | true =>
      obtain ⟨h'', heq, hsize⟩ := hold_of_complete hps hcomplete
      rw [heq, Option.some.injEq] at hhold
      rw [← hhold, hsize]
      exact Nat.le_succ_of_le (length_written_le_size h)

theorem size_pass_le (h : Held) : (h.pass tokens c).size ≤ h.size + 1 := by
  unfold pass
  cases hhold : h.hold tokens c with
  | none =>
    cases hvalid : h.valid <;> simp [size, hvalid]
    omega
  | some h' => exact size_hold_le hhold

theorem size_step_le (h : Held) : (h.step tokens c).size ≤ h.size + 1 := by
  unfold step
  cases hhold : h.hold tokens c with
  | none =>
    rw [Option.getD_none, ← size_flush h]
    exact size_pass_le h.flush
  | some h' => exact size_hold_le hhold

-- Nothing is written twice
theorem size_run_le (h : Held) (text : Bytes) : (h.run tokens text).size ≤ h.size + text.length := by
  induction text generalizing h with
  | nil => exact Nat.le_refl _
  | cons c text ih =>
    have hstep : (h.step tokens c).size ≤ h.size + 1 := size_step_le h
    have hrest := ih (h.step tokens c)
    rw [List.length_cons]
    exact Nat.le_trans hrest (by omega)

/-
The steps a text takes when it is spared or not.
-/

theorem step_of_hold (hhold : h.hold tokens c = some h') : h.step tokens c = h' := by
  unfold step
  rw [hhold]
  rfl

theorem step_of_flush (hhold : h.hold tokens c = none) : h.step tokens c = h.flush.pass tokens c := by
  unfold step
  rw [hhold]
  rfl

theorem flush_of_not_valid (hvalid : h.valid = false)
    : h.flush = { written := h.written ++ h.pending, pending := [], valid := false } := by
  unfold flush
  rw [hvalid, if_neg Bool.false_ne_true]

theorem pending_pass (hpending : h.pending = []) : (h.pass tokens c).pending <:+ [c] := by
  unfold pass
  cases hhold : h.hold tokens c with
  | none =>
    rw [Option.getD_none, hpending]
    exact List.nil_suffix
  | some h' =>
    have hsuffix := pending_hold hhold
    rw [hpending] at hsuffix
    exact hsuffix

-- What is held back is the end of what has been read
theorem pending_step (h : Held) : (h.step tokens c).pending <:+ h.pending ++ [c] := by
  cases hhold : h.hold tokens c with
  | none =>
    rw [step_of_flush hhold]
    exact (pending_pass rfl).trans (List.suffix_append _ _)
  | some h' =>
    rw [step_of_hold hhold]
    exact pending_hold hhold

-- Either nothing is lost and the rest of the text decides, or something is taken for a tag.
theorem step_cases (hvalid : h.valid = false) (c : UInt8) (text : Bytes)
    : ((h.step tokens c).valid = false
          ∧ (h.step tokens c).written ++ (h.step tokens c).pending = h.written ++ h.pending ++ [c]
          ∧ spared tokens h.pending.length (c :: text) = spared tokens (h.step tokens c).pending.length text)
        ∨ ((h.step tokens c).size ≤ h.written.length + h.pending.length
          ∧ spared tokens h.pending.length (c :: text) = false) := by
  rw [spared]
  by_cases hps : possibles tokens h.pending.length c = []
  . rw [if_neg (not_not_intro hps), step_of_flush (hold_eq_none_iff.mpr hps), flush_of_not_valid hvalid]
    unfold pass
    by_cases hstart : possibles tokens 0 c = []
    . rw [if_neg (not_not_intro hstart), hold_eq_none_iff.mpr hstart]
      exact .inl ⟨rfl, List.append_nil _, rfl⟩
    . rw [if_pos hstart]
      cases hcomplete : isComplete (possibles tokens 0 c) 0 with
      | false =>
        rw [hold_of_not_complete hstart hcomplete]
        exact .inl ⟨rfl, rfl, rfl⟩
      | true =>
        obtain ⟨h', hhold, hsize⟩ :=
          hold_of_complete (h := { written := h.written ++ h.pending, pending := [], valid := false }) hstart hcomplete
        rw [hhold, Option.getD_some, hsize, List.length_append]
        exact .inr ⟨Nat.le_refl _, rfl⟩
  . rw [if_pos hps]
    cases hcomplete : isComplete (possibles tokens h.pending.length c) h.pending.length with
    | false =>
      rw [step_of_hold (hold_of_not_complete hps hcomplete), List.length_append]
      exact .inl ⟨hvalid, (List.append_assoc _ _ _).symm, rfl⟩
    | true =>
      obtain ⟨h', hhold, hsize⟩ := hold_of_complete hps hcomplete
      rw [step_of_hold hhold, hsize]
      exact .inr ⟨Nat.le_add_right _ _, rfl⟩

theorem written_run_of_spared (hvalid : h.valid = false) {text : Bytes}
    (hspared : spared tokens h.pending.length text = true)
    : (h.run tokens text).written = h.written ++ h.pending ++ text := by
  induction text generalizing h with
  | nil =>
    have hpending : h.pending = [] := List.eq_nil_of_length_eq_zero (of_decide_eq_true hspared)
    rw [hpending, List.append_nil, List.append_nil]
    rfl
  | cons c text ih =>
    have hrun : h.run tokens (c :: text) = (h.step tokens c).run tokens text := rfl
    rcases step_cases hvalid c text with ⟨hstep, hkept, hrest⟩ | ⟨-, hlost⟩
    . rw [hrest] at hspared
      rw [hrun, ih hstep hspared, hkept, List.append_assoc, List.singleton_append]
    . rw [hlost] at hspared
      contradiction

-- What has been taken for a tag, or is held back at the end, is missing for good
theorem length_written_run_lt (hvalid : h.valid = false) {text : Bytes}
    (hspared : spared tokens h.pending.length text = false)
    : (h.run tokens text).written.length < h.written.length + h.pending.length + text.length := by
  induction text generalizing h with
  | nil =>
    have hpending : h.pending.length ≠ 0 := of_decide_eq_false hspared
    show h.written.length < h.written.length + h.pending.length + 0
    omega
  | cons c text ih =>
    have hrun : h.run tokens (c :: text) = (h.step tokens c).run tokens text := rfl
    rw [hrun, List.length_cons]
    rcases step_cases hvalid c text with ⟨hstep, hkept, hrest⟩ | ⟨hlost, -⟩
    . rw [hrest] at hspared
      have hlt := ih hstep hspared
      have hlength := congrArg List.length hkept
      simp only [List.length_append, List.length_singleton] at hlength
      omega
    . have hle := length_written_le_size ((h.step tokens c).run tokens text)
      have hsize : ((h.step tokens c).run tokens text).size ≤ (h.step tokens c).size + text.length := size_run_le _ text
      omega

theorem written_run_iff (tokens : List Bytes) (text : Bytes)
    : (empty.run tokens text).written = text ↔ spared tokens 0 text = true := by
  constructor
  . intro hwritten
    by_contra hspared
    have hlt := length_written_run_lt (h := empty) rfl (eq_false_of_ne_true hspared)
    rw [hwritten] at hlt
    exact Nat.lt_irrefl _ (Nat.lt_of_lt_of_eq hlt (Nat.zero_add _))
  . intro hspared
    exact written_run_of_spared (h := empty) rfl hspared

end Held

end CPPT
end ObTools
