import Mathlib.Algebra.Group.Int.Defs
import Mathlib.Algebra.Group.Nat.Defs
import Mathlib.Data.List.Basic
import ObTools.Lib.Lines

/-!
This module contains the model of `split_lines`, and the proof that it finds the lines of a text unless the
text begins with a newline or ends with a carriage return.
-/

namespace ObTools
namespace Text

/-
Reads the lines from `pos`. There is no result for a text that begins with a newline: the position before
it is `npos`, at which the text is read.
-/
def splitLinesLoop (text : List UInt8) (removeBlanks : Bool) (pos : Nat) : Option (List (List UInt8)) :=
  if pos < text.length then
    -- The end of the text if there is no newline
    let nl := pos + (text.drop pos).idxOf 10
    if nl = 0 then
      none
    else
      let last := nl - 1
      let stop := if last ≥ pos ∧ text[last]? = some 13 then nl - 1 else nl
      (splitLinesLoop text removeBlanks (nl + 1)).map fun lines =>
        if stop > pos ∨ removeBlanks = false then
          (text.drop pos).take (stop - pos) :: lines
        else
          lines
  else
    some []
termination_by text.length - pos

def splitLines (text : List UInt8) (removeBlanks : Bool) : Option (List (List UInt8)) :=
  splitLinesLoop text removeBlanks 0

/-
The positions at which the text is read for carriage returns, with `nl-1` as `size_type` has it.
-/
def crPositions (text : List UInt8) (pos : Nat) : List Nat :=
  if pos < text.length then
    let nl := pos + (text.drop pos).idxOf 10
    let last := (nl + (2 ^ 64 - 1)) % 2 ^ 64
    (if last ≥ pos then [last] else []) ++ crPositions text (nl + 1)
  else
    []
termination_by text.length - pos

-- `CR` of a line
def stripCr (line : List UInt8) : List UInt8 :=
  if line.getLast? = some 13 then line.dropLast else line

/-
What `split_lines` is for: there is only a `CR` to remove where there is a newline behind it.
-/
def linesOf (text : List UInt8) : List (List UInt8) :=
  let last := Lines.unterminated text
  (Lines.terminated text).map stripCr ++ if last = [] then [] else [last]

-- Those that are wanted
def shown (removeBlanks : Bool) (lines : List (List UInt8)) : List (List UInt8) :=
  lines.filter fun line => !removeBlanks || line ≠ []

variable {text line rest tail : List UInt8} {lines : List (List UInt8)} {removeBlanks : Bool} {pos : Nat}

@[simp]
theorem shown_false (lines : List (List UInt8)) : shown false lines = lines :=
  List.filter_eq_self.mpr fun _ _ => rfl

theorem stripCr_of_not_mem (h : 13 ∉ line) : stripCr line = line := by
  unfold stripCr
  refine if_neg fun hlast => h ?_
  exact List.mem_of_getLast? hlast

theorem stripCr_concat (line : List UInt8) : stripCr (line ++ [13]) = line := by
  unfold stripCr
  rw [if_pos List.getLast?_concat, List.dropLast_concat]

theorem length_stripCr (line : List UInt8)
    : (stripCr line).length = if line.getLast? = some 13 then line.length - 1 else line.length := by
  unfold stripCr
  split
  . apply List.length_dropLast
  . rfl

theorem take_stripCr (line : List UInt8) : line.take (stripCr line).length = stripCr line := by
  rw [length_stripCr]
  unfold stripCr
  split
  . rw [List.dropLast_eq_take]
  . apply List.take_length

theorem idxOf_newline (htext : text.drop pos = line ++ rest) (hlf : 10 ∉ line)
    (hrest : rest = [] ∨ ∃ rest', rest = 10 :: rest')
    : (text.drop pos).idxOf 10 = line.length := by
  rw [htext, List.idxOf_append_of_notMem hlf]
  rcases hrest with rfl | ⟨rest', rfl⟩
  . rw [List.idxOf_nil, Nat.add_zero]
  . rw [List.idxOf_cons_self, Nat.add_zero]

theorem getElem?_last (hline : line ≠ []) (htext : text.drop pos = line ++ rest)
    : text[pos + line.length - 1]? = line.getLast? := by
  have hlength : 0 < line.length := List.length_pos_of_ne_nil hline
  have hindex : pos + line.length - 1 = pos + (line.length - 1) := by omega
  rw [hindex, ← List.getElem?_drop, htext, List.getElem?_append_left (by omega), List.getLast?_eq_getElem?]

-- There is a carriage return before the newline in the line itself
theorem last_iff (htext : text.drop pos = line ++ rest) (hpos : 0 < pos + line.length)
    : pos + line.length - 1 ≥ pos ∧ text[pos + line.length - 1]? = some 13 ↔ line.getLast? = some 13 := by
  cases hline : line with
  | nil =>
    subst hline
    rw [List.length_nil] at hpos ⊢
    have hlast : ¬pos + 0 - 1 ≥ pos := by omega
    rw [List.getLast?_nil]
    simp only [hlast, false_and, reduceCtorEq]
  | cons c line' =>
    subst hline
    rw [getElem?_last (List.cons_ne_nil c line') htext, List.length_cons]
    have hlast : pos + (line'.length + 1) - 1 ≥ pos := by omega
    simp only [hlast, true_and]

theorem splitLinesLoop_eq (hin : pos < text.length) (hpos : 0 < pos + line.length)
    (htext : text.drop pos = line ++ rest) (hlf : 10 ∉ line)
    (hrest : rest = [] ∨ ∃ rest', rest = 10 :: rest')
    : splitLinesLoop text removeBlanks pos
        = (splitLinesLoop text removeBlanks (pos + line.length + 1)).map
            fun lines => shown removeBlanks [stripCr line] ++ lines := by
  rw [splitLinesLoop, if_pos hin]
  simp only [idxOf_newline htext hlf hrest, last_iff htext hpos]
  rw [if_neg (by omega)]
  have hstop : (if line.getLast? = some 13 then pos + line.length - 1 else pos + line.length)
      = pos + (stripCr line).length := by
    rw [length_stripCr]
    split
    . next hlast =>
      have hne : line ≠ [] := by
        rintro rfl
        contradiction
      have := List.length_pos_of_ne_nil hne
      omega
    . rfl
  have htake : (text.drop pos).take (stripCr line).length = stripCr line := by
    have hlength : (stripCr line).length ≤ line.length := by
      rw [length_stripCr]
      split <;> omega
    rw [htext, List.take_append_of_le_length hlength, take_stripCr]
  apply congrArg (Option.map · _)
  funext lines
  rw [hstop, Nat.add_sub_cancel_left, htake]
  cases hblank : removeBlanks with
  | false => simp [shown]
  | true =>
    cases hline : stripCr line with
    | nil => simp [shown]
    | cons c line' => simp [shown]

theorem splitLinesLoop_end (htext : text.drop pos = []) : splitLinesLoop text removeBlanks pos = some [] := by
  rw [splitLinesLoop, if_neg (Nat.not_lt.mpr (List.drop_eq_nil_iff.mp htext))]

theorem drop_line (htext : text.drop pos = line ++ 10 :: rest) : text.drop (pos + line.length + 1) = rest := by
  rw [Nat.add_assoc, ← List.drop_drop, htext, List.drop_append, List.drop_of_length_le (Nat.le_succ _),
    Nat.add_sub_cancel_left]
  rfl

theorem lt_length_of_drop (htext : text.drop pos = rest) (hrest : rest ≠ []) : pos < text.length := by
  rw [← Nat.not_le, ← List.drop_eq_nil_iff, htext]
  exact hrest

/-
A text is read from after a newline, or does not begin with one.
-/
theorem splitLinesLoop_textOf {ls : List (List UInt8)} (hls : ∀ l ∈ ls, 10 ∉ l) (htail : 10 ∉ tail)
    (htext : text.drop pos = Lines.textOf ls ++ tail) (hpos : 0 < pos ∨ ls.head? ≠ some [])
    : splitLinesLoop text removeBlanks pos
        = some (shown removeBlanks (ls.map stripCr ++ if tail = [] then [] else [stripCr tail])) := by
  induction ls generalizing pos with
  | nil =>
    rw [Lines.textOf_nil, List.nil_append] at htext
    split
    . next hnil =>
      rw [hnil] at htext
      rw [splitLinesLoop_end htext]
      rfl
    . next hne =>
      have hin : pos < text.length := lt_length_of_drop htext hne
      have hlength : 0 < pos + tail.length := Nat.add_pos_right pos (List.length_pos_of_ne_nil hne)
      have hline : text.drop pos = tail ++ [] := by rw [htext, List.append_nil]
      have hend : text.drop (pos + tail.length + 1) = [] := by
        have hdrop := congrArg List.length htext
        rw [List.length_drop] at hdrop
        apply List.drop_eq_nil_of_le
        omega
      rw [splitLinesLoop_eq hin hlength hline htail (.inl rfl), splitLinesLoop_end hend]
      simp
  | cons l ls ih =>
    rw [List.forall_mem_cons] at hls
    rw [Lines.textOf_cons, List.append_assoc, List.cons_append] at htext
    have hin : pos < text.length := lt_length_of_drop htext (by simp)
    have hlength : 0 < pos + l.length := by
      cases hpos with
      | inl hpos => omega
      | inr hhead =>
        have hl : l ≠ [] := fun hl => hhead (congrArg some hl)
        exact Nat.add_pos_right pos (List.length_pos_of_ne_nil hl)
    rw [splitLinesLoop_eq hin hlength htext hls.1 (.inr ⟨_, rfl⟩),
      ih hls.2 (drop_line htext) (.inl (Nat.succ_pos _)), Option.map_some]
    apply congrArg some
    apply Eq.symm
    apply List.filter_append [stripCr l]

theorem head?_textOf_append {ls : List (List UInt8)} (h : (Lines.textOf ls ++ tail).head? ≠ some 10)
    : ls.head? ≠ some [] := by
  intro hhead
  cases ls with
  | nil => contradiction
  | cons l ls =>
    rw [List.head?_cons, Option.some.injEq] at hhead
    rw [hhead, Lines.textOf_cons] at h
    contradiction

theorem splitLines_eq_none (h : text.head? = some 10) : splitLines text removeBlanks = none := by
  obtain ⟨rest, rfl⟩ := List.head?_eq_some_iff.mp h
  unfold splitLines
  rw [splitLinesLoop, if_pos (by simp)]
  simp

/-
Accesses.
-/

theorem crPositions_lt (hsize : text.length < 2 ^ 64) (hpos : 0 < pos ∨ text.head? ≠ some 10)
    : ∀ p ∈ crPositions text pos, p < text.length := by
  induction pos using crPositions.induct text with
  | case1 pos hin nl ih =>
    have hle : (text.drop pos).idxOf 10 ≤ (text.drop pos).length := List.idxOf_le_length
    rw [List.length_drop] at hle
    have hnl : 0 < pos + (text.drop pos).idxOf 10 := by
      cases hpos with
      | inl hpos => omega
      | inr hhead =>
        rw [Nat.pos_iff_ne_zero]
        intro hzero
        obtain ⟨rfl, hfind⟩ := Nat.add_eq_zero_iff.mp hzero
        rw [List.drop_zero] at hfind
        cases htext : text with
        | nil => simp [htext] at hin
        | cons c rest =>
          rw [htext, List.idxOf_cons] at hfind
          rw [htext, List.head?_cons, ne_eq, Option.some.injEq] at hhead
          rw [beq_false_of_ne hhead] at hfind
          contradiction
    intro p hp
    rw [crPositions, if_pos hin, List.mem_append] at hp
    cases hp with
    | inl hp =>
      split at hp
      . rw [List.mem_singleton] at hp
        omega
      . contradiction
    | inr hp => exact ih (.inl (Nat.succ_pos _)) p hp
  | case2 pos hout =>
    intro p hp
    rw [crPositions, if_neg hout] at hp
    contradiction

theorem crPositions_lt_iff (hsize : text.length < 2 ^ 64)
    : (∀ p ∈ crPositions text 0, p < text.length) ↔ text.head? ≠ some 10 := by
  refine ⟨?_, ?_⟩
  . intro h hhead
    obtain ⟨rest, rfl⟩ := List.head?_eq_some_iff.mp hhead
    have hfirst : 2 ^ 64 - 1 ∈ crPositions (10 :: rest) 0 := by
      rw [crPositions, if_pos (by simp)]
      simp
    have hlt := h _ hfirst
    omega
  . intro hhead
    exact crPositions_lt hsize (.inr hhead)

-- What is modelled as no result is the access outside the text.
theorem splitLines_isSome_iff (hsize : text.length < 2 ^ 64)
    : (splitLines text removeBlanks).isSome ↔ ∀ p ∈ crPositions text 0, p < text.length := by
  rw [crPositions_lt_iff hsize]
  refine ⟨?_, ?_⟩
  . intro h hhead
    rw [splitLines_eq_none hhead] at h
    contradiction
  . intro hhead
    obtain ⟨ls, tail, hls, htail, htext⟩ := Lines.exists_textOf text
    rw [htext] at hhead
    unfold splitLines
    rw [splitLinesLoop_textOf hls htail (by rw [List.drop_zero, htext]) (.inr (head?_textOf_append hhead))]
    rfl

theorem shown_concat_iff (tail : List UInt8) (lines : List (List UInt8)) (htail : tail ≠ [])
    : shown removeBlanks (lines ++ [stripCr tail]) = shown removeBlanks (lines ++ [tail])
        ↔ tail.getLast? ≠ some 13 := by
  unfold shown
  rw [List.filter_append, List.filter_append, List.append_cancel_left_eq]
  have hshown : [tail].filter (fun line => !removeBlanks || decide (line ≠ [])) = [tail] := by simp [htail]
  rw [hshown]
  by_cases hlast : tail.getLast? = some 13
  . have hlength : (stripCr tail).length < tail.length := by
      have := List.length_pos_of_ne_nil htail
      rw [length_stripCr, if_pos hlast]
      omega
    have hne : stripCr tail ≠ tail := fun heq => Nat.lt_irrefl _ (heq ▸ hlength)
    refine ⟨?_, fun h => absurd hlast h⟩
    intro hfilter
    have hmem : tail ∈ [stripCr tail].filter fun line => !removeBlanks || decide (line ≠ []) := by
      rw [hfilter]
      apply List.mem_singleton_self
    have heq := List.mem_singleton.mp (List.mem_filter.mp hmem).1
    exact absurd heq.symm hne
  . have heq : stripCr tail = tail := if_neg hlast
    rw [heq, hshown]
    exact iff_of_true rfl hlast

theorem splitLines_lines_iff (text : List UInt8) (removeBlanks : Bool) (hsize : text.length < 2 ^ 64)
    : (∀ p ∈ crPositions text 0, p < text.length)
        ∧ splitLines text removeBlanks = some (shown removeBlanks (linesOf text))
      ↔ text.head? ≠ some 10 ∧ text.getLast? ≠ some 13 := by
  rw [crPositions_lt_iff hsize]
  apply and_congr_right
  intro hhead
  obtain ⟨ls, tail, hls, htail, htext⟩ := Lines.exists_textOf text
  have hloop : splitLines text removeBlanks
      = some (shown removeBlanks (ls.map stripCr ++ if tail = [] then [] else [stripCr tail])) := by
    rw [htext] at hhead
    apply splitLinesLoop_textOf hls htail (by rw [List.drop_zero, htext]) (.inr (head?_textOf_append hhead))
  have hlines : linesOf text = ls.map stripCr ++ if tail = [] then [] else [tail] := by
    unfold linesOf
    rw [htext, Lines.terminated_textOf_append hls htail, Lines.unterminated_textOf_append hls htail]
  rw [hloop, hlines, Option.some.injEq]
  by_cases hnil : tail = []
  . rw [if_pos hnil, if_pos hnil]
    refine iff_of_true rfl ?_
    rw [htext, hnil, List.append_nil]
    intro hlast
    cases hsplit : ls.reverse with
    | nil =>
      rw [List.reverse_eq_nil_iff] at hsplit
      rw [hsplit] at hlast
      contradiction
    | cons l ls' =>
      rw [List.reverse_eq_cons_iff] at hsplit
      rw [hsplit, Lines.textOf_concat, List.getLast?_concat] at hlast
      contradiction
  . rw [if_neg hnil, if_neg hnil, shown_concat_iff tail _ hnil, htext, List.getLast?_append_of_ne_nil _ hnil]

theorem splitLines_lines_unterminated
    : (∀ p ∈ crPositions [97, 13, 10, 98] 0, p < 4)
        ∧ splitLines [97, 13, 10, 98] false = some (shown false (linesOf [97, 13, 10, 98])) :=
  (splitLines_lines_iff [97, 13, 10, 98] false (by decide)).mpr (by decide)

theorem not_splitLines_lines
    : ¬((∀ p ∈ crPositions [10] 0, p < 1) ∧ splitLines [10] false = some (shown false (linesOf [10]))) := by
  intro h
  have hhead := (crPositions_lt_iff (by decide)).mp h.1
  contradiction

end Text
end ObTools
