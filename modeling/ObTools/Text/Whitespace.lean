import Mathlib.Algebra.Group.Int.Defs
import Mathlib.Algebra.Group.Nat.Defs
import Mathlib.Algebra.GroupWithZero.Nat
import Mathlib.Data.List.Forall2
import ObTools.Lib.Lines

/-!
This module contains the models of `condense_blank_lines`, `get_common_indent` and `remove_indent`, and
the proofs on which texts no more is lost than is meant to.

There is no result where an `int` would overflow.
-/

namespace ObTools
namespace Text

namespace Condense

structure State where
  isBlank : Bool
  blankLines : Int
  newtext : List UInt8
  line : List UInt8

def step (s : State) (c : UInt8) : Option State :=
  let line := s.line ++ [c]
  if c = 32 ∨ c = 9 then
    -- Just keep it in case line turns out not to be blank
    some { s with line }
  else if c = 10 then
    if s.isBlank then
      if s.blankLines + 1 < 2 ^ 31 then
        some { s with blankLines := s.blankLines + 1, line := [] }
      else
        none
    else
      -- Check if there are any suppressed
      let newtext := if s.blankLines > 0 then s.newtext ++ [10] else s.newtext
      some { isBlank := true, blankLines := 0, newtext := newtext ++ line, line := [] }
  else
    some { s with isBlank := false, line }

-- `INT_MIN`, so that there are no blank lines at the start
def start : State where
  isBlank := true
  blankLines := -2 ^ 31
  newtext := []
  line := []

end Condense

def condenseBlankLines (text : List UInt8) : Option (List UInt8) :=
  (text.foldlM Condense.step Condense.start).map (·.newtext)

/-
What the condensing of blank lines is for.
-/

def isBlank (line : List UInt8) : Bool := line.all fun c => c = 32 || c = 9

structure Condensed (text result : List UInt8) : Prop where
  keeps : (Lines.ofText result).filter (!isBlank ·) = (Lines.ofText text).filter (!isBlank ·)
  separate : (Lines.ofText result).IsChain fun line next => ¬(isBlank line = true ∧ isBlank next = true)

/-
The runs of blank lines are before the first line that is not blank and behind each of them. The counter
goes from `INT_MIN` to `INT_MAX` in the first one, of which there must not be a blank line left if there is
anything behind it, and from 0 in the others.
-/
def CountsBlankLines (text : List UInt8) : Prop :=
  match (Lines.terminated text).splitOnP (!isBlank ·) with
  | [] => True
  | first :: runs =>
    first.length < 2 ^ 32 ∧ (runs = [] ∨ first.length ≤ 2 ^ 31) ∧ ∀ run ∈ runs, run.length < 2 ^ 31

namespace Condense

-- The lines that are left, with `k` blank lines counted before the first one
def condenseLines : Int → List (List UInt8) → Option (List (List UInt8))
  | _, [] => some []
  | k, line :: lines =>
    if isBlank line then
      if k + 1 < 2 ^ 31 then condenseLines (k + 1) lines else none
    else
      (condenseLines 0 lines).map fun result => (if k > 0 then [[]] else []) ++ line :: result

variable {k : Int} {line newtext : List UInt8} {lines result : List (List UInt8)}

theorem step_char {s : State} {c : UInt8} (hc : c ≠ 10)
    : step s c = some { s with isBlank := s.isBlank && isBlank [c], line := s.line ++ [c] } := by
  unfold step
  dsimp only
  split
  . next hws =>
    have hblank : isBlank [c] = true := by simpa [isBlank] using hws
    rw [hblank, Bool.and_true]
  . next hws =>
    have hblank : isBlank [c] = false := by simpa [isBlank] using hws
    rw [hblank, Bool.and_false]

theorem foldlM_line (h : 10 ∉ line) (s : State)
    : line.foldlM step s = some { s with isBlank := s.isBlank && isBlank line, line := s.line ++ line } := by
  induction line generalizing s with
  | nil => simp [isBlank]
  | cons c line ih =>
    rw [List.mem_cons, not_or] at h
    rw [List.foldlM_cons, step_char (Ne.symm h.1), Option.bind_eq_bind, Option.bind_some, ih h.2]
    simp [isBlank, Bool.and_assoc]

-- The state after an end of line
def between (k : Int) (newtext : List UInt8) : State where
  isBlank := true
  blankLines := k
  newtext := newtext
  line := []

theorem foldlM_newline (h : 10 ∉ line) (k : Int) (newtext : List UInt8)
    : (line ++ [10]).foldlM step (between k newtext)
        = step { between k newtext with isBlank := isBlank line, line } 10 := by
  rw [List.foldlM_append, foldlM_line h, Option.bind_eq_bind, Option.bind_some, List.foldlM_cons]
  apply bind_pure

theorem foldlM_blank (h : 10 ∉ line) (hblank : isBlank line = true) (k : Int) (newtext : List UInt8)
    : (line ++ [10]).foldlM step (between k newtext)
        = if k + 1 < 2 ^ 31 then some (between (k + 1) newtext) else none := by
  rw [foldlM_newline h, hblank]
  rfl

theorem foldlM_nonblank (h : 10 ∉ line) (hblank : isBlank line = false) (k : Int) (newtext : List UInt8)
    : (line ++ [10]).foldlM step (between k newtext)
        = some (between 0 (newtext ++ Lines.textOf ((if k > 0 then [[]] else []) ++ [line]))) := by
  rw [foldlM_newline h, hblank, Lines.textOf_concat]
  unfold step between
  by_cases hk : k > 0
  . simp [hk, Lines.textOf]
  . simp [hk, Lines.textOf]

theorem foldlM_textOf (h : ∀ l ∈ lines, 10 ∉ l) (k : Int) (newtext : List UInt8)
    : ((Lines.textOf lines).foldlM step (between k newtext)).map (·.newtext)
        = (condenseLines k lines).map (newtext ++ Lines.textOf ·) := by
  induction lines generalizing k newtext with
  | nil => simp [condenseLines, Lines.textOf_nil, between]
  | cons line lines ih =>
    rw [List.forall_mem_cons] at h
    have hsplit : Lines.textOf (line :: lines) = (line ++ [10]) ++ Lines.textOf lines := by
      rw [Lines.textOf_cons, List.append_assoc]
      rfl
    rw [hsplit, List.foldlM_append, condenseLines]
    split
    . next hblank =>
      rw [foldlM_blank h.1 hblank]
      split
      . apply ih h.2
      . rfl
    . next hblank =>
      rw [foldlM_nonblank h.1 (Bool.eq_false_iff.mpr hblank), Option.bind_eq_bind, Option.bind_some, ih h.2,
        Option.map_map]
      apply congrArg (Option.map · _)
      funext result
      simp [Lines.textOf_append, Lines.textOf_cons, Lines.textOf_nil]

-- The tail is never written
theorem condenseBlankLines_eq {tail : List UInt8} (hlines : ∀ l ∈ lines, 10 ∉ l) (htail : 10 ∉ tail)
    : condenseBlankLines (Lines.textOf lines ++ tail) = (condenseLines (-2 ^ 31) lines).map Lines.textOf := by
  unfold condenseBlankLines
  rw [List.foldlM_append, Option.bind_eq_bind, Option.map_bind]
  have hdrop : (fun s => Option.map (·.newtext) (tail.foldlM step s)) = fun s => some s.newtext := by
    funext s
    rw [foldlM_line htail]
    rfl
  have hloop := foldlM_textOf hlines (-2 ^ 31) []
  rw [Option.map_eq_bind] at hloop
  exact (congrArg _ hdrop).trans hloop

/-
Text without blank lines at the start or at the end, and with single ones between its lines.
-/
inductive Tidy : List (List UInt8) → Prop where
  | nil : Tidy []
  | line {line : List UInt8} {lines : List (List UInt8)} (h : isBlank line = false) (hlines : Tidy lines)
      : Tidy (line :: lines)
  | gap {line : List UInt8} {lines : List (List UInt8)} (h : isBlank line = false) (hlines : Tidy lines)
      : Tidy ([] :: line :: lines)

theorem condenseLines_tidy (h : condenseLines k lines = some result) : Tidy result := by
  induction lines generalizing k result with
  | nil =>
    cases h
    exact .nil
  | cons line lines ih =>
    rw [condenseLines] at h
    split at h
    . split at h
      . exact ih h
      . contradiction
    . next hblank =>
      obtain ⟨rest, hrest, rfl⟩ := Option.map_eq_some_iff.mp h
      have hline := Bool.eq_false_iff.mpr hblank
      split
      . exact .gap hline (ih hrest)
      . exact .line hline (ih hrest)

theorem condenseLines_filter (h : condenseLines k lines = some result)
    : result.filter (!isBlank ·) = lines.filter (!isBlank ·) := by
  induction lines generalizing k result with
  | nil =>
    cases h
    rfl
  | cons line lines ih =>
    rw [condenseLines] at h
    split at h
    . next hblank =>
      rw [List.filter_cons_of_neg (by simp [hblank])]
      split at h
      . exact ih h
      . contradiction
    . next hblank =>
      obtain ⟨rest, hrest, rfl⟩ := Option.map_eq_some_iff.mp h
      rw [List.filter_append, List.filter_cons_of_pos (by simp [hblank]), ih hrest,
        List.filter_cons_of_pos (by simp [hblank])]
      split <;> rfl

theorem Tidy.isChain (h : Tidy lines)
    : lines.IsChain fun line next => ¬(isBlank line = true ∧ isBlank next = true) := by
  have hcons {line : List UInt8} {lines : List (List UInt8)} (hline : isBlank line = false)
      (h : lines.IsChain fun line next => ¬(isBlank line = true ∧ isBlank next = true))
      : (line :: lines).IsChain fun line next => ¬(isBlank line = true ∧ isBlank next = true) := by
    cases lines with
    | nil => exact .singleton line
    | cons next lines => exact .cons_cons (by simp [hline]) h
  induction h with
  | nil => exact .nil
  | line h hlines ih => exact hcons h ih
  | gap h hlines ih => exact .cons_cons (by simp [h]) (hcons h ih)

theorem Tidy.condenseLines (h : Tidy lines) : condenseLines 0 lines = some lines := by
  induction h with
  | nil => rfl
  | line h hlines ih => simp [Condense.condenseLines, h, ih]
  | gap h hlines ih =>
    have hnil : isBlank [] = true := rfl
    simp [Condense.condenseLines, h, hnil, ih]

theorem mem_condenseLines (h : condenseLines k lines = some result)
    : ∀ line ∈ result, line = [] ∨ line ∈ lines := by
  induction lines generalizing k result with
  | nil =>
    cases h
    simp
  | cons line lines ih =>
    rw [condenseLines] at h
    split at h
    . split at h
      . intro line' hline'
        exact (ih h line' hline').imp_right (List.mem_cons_of_mem _)
      . contradiction
    . obtain ⟨rest, hrest, rfl⟩ := Option.map_eq_some_iff.mp h
      have hgap : ∀ line' ∈ (if k > 0 then [[]] else [] : List (List UInt8)), line' = [] := by
        split <;> simp
      intro line' hline'
      rw [List.mem_append, List.mem_cons] at hline'
      rcases hline' with hline' | rfl | hline'
      . exact .inl (hgap line' hline')
      . exact .inr List.mem_cons_self
      . exact (ih hrest line' hline').imp_right (List.mem_cons_of_mem _)

-- No blank line is left at the start
theorem Tidy.condenseLines_iff (h : Tidy lines) (hk : k < 0)
    : Condense.condenseLines k lines = some lines ↔ lines.head? ≠ some [] := by
  have hnil : isBlank [] = true := rfl
  cases h with
  | nil => simp [Condense.condenseLines]
  | @line line lines hline hlines =>
    have hne : line ≠ [] := by
      rintro rfl
      contradiction
    have hgap : ¬k > 0 := by omega
    simp [Condense.condenseLines, hline, hlines.condenseLines, hgap, hne]
  | @gap line lines hline hlines =>
    have hroom : k + 1 < 2 ^ 31 := by omega
    have hgap : ¬k + 1 > 0 := by omega
    rw [Condense.condenseLines, if_pos hnil, if_pos hroom, Condense.condenseLines, hline, if_neg Bool.false_ne_true,
      hlines.condenseLines, Option.map_some, if_neg hgap, List.nil_append, Option.some.injEq]
    refine iff_of_false ?_ ?_
    . intro heq
      have := congrArg List.length heq
      simp at this
    . intro hhead
      exact hhead rfl

section Runs

variable {first : List (List UInt8)} {runs : List (List (List UInt8))}

theorem condenseLines_isSome_iff (hk : k < 2 ^ 31) (h : lines.splitOnP (!isBlank ·) = first :: runs)
    : (condenseLines k lines).isSome ↔ k + first.length < 2 ^ 31 ∧ ∀ run ∈ runs, run.length < 2 ^ 31 := by
  induction lines generalizing k first runs with
  | nil =>
    cases h
    simpa [condenseLines] using hk
  | cons line lines ih =>
    obtain ⟨first', runs', h'⟩ := List.exists_cons_of_ne_nil (List.splitOnP_ne_nil (!isBlank ·) lines)
    rw [List.splitOnP_cons_eq_if_modifyHead, h'] at h
    rw [condenseLines]
    by_cases hblank : isBlank line = true
    . rw [hblank, Bool.not_true, if_neg Bool.false_ne_true, List.modifyHead_cons] at h
      cases h
      rw [if_pos hblank, List.length_cons, Int.natCast_succ, Int.add_comm (first'.length : Int), ← Int.add_assoc]
      split
      . next hroom => exact ih hroom h'
      . next hfull =>
        refine iff_of_false Bool.false_ne_true ?_
        omega
    . rw [Bool.not_eq_true] at hblank
      rw [hblank, Bool.not_false, if_pos rfl] at h
      cases h
      have hcast : (first'.length : Int) < 2 ^ 31 ↔ first'.length < 2 ^ 31 := by omega
      rw [hblank, if_neg Bool.false_ne_true, Option.isSome_map, ih (by decide) h', List.forall_mem_cons,
        List.length_nil, Int.natCast_zero, Int.add_zero, Int.zero_add, and_iff_right hk, hcast]

theorem head?_condenseLines_iff (h : lines.splitOnP (!isBlank ·) = first :: runs)
    (hresult : condenseLines k lines = some result)
    : result.head? = some [] ↔ runs ≠ [] ∧ 0 < k + first.length := by
  induction lines generalizing k first runs with
  | nil =>
    cases h
    cases hresult
    simp
  | cons line lines ih =>
    obtain ⟨first', runs', h'⟩ := List.exists_cons_of_ne_nil (List.splitOnP_ne_nil (!isBlank ·) lines)
    rw [List.splitOnP_cons_eq_if_modifyHead, h'] at h
    rw [condenseLines] at hresult
    by_cases hblank : isBlank line = true
    . rw [hblank, Bool.not_true, if_neg Bool.false_ne_true, List.modifyHead_cons] at h
      cases h
      rw [if_pos hblank] at hresult
      split at hresult
      . rw [ih h' hresult, List.length_cons, Int.natCast_succ, Int.add_comm (first'.length : Int), ← Int.add_assoc]
      . contradiction
    . rw [Bool.not_eq_true] at hblank
      rw [hblank, Bool.not_false, if_pos rfl] at h
      cases h
      rw [hblank, if_neg Bool.false_ne_true] at hresult
      obtain ⟨rest, hrest, rfl⟩ := Option.map_eq_some_iff.mp hresult
      have hne : line ≠ [] := by
        rintro rfl
        contradiction
      by_cases hgap : k > 0
      . simp [hgap]
      . simp [hgap, hne]

end Runs

theorem countsBlankLines_iff (hlines : ∀ l ∈ lines, 10 ∉ l) {tail : List UInt8} (htail : 10 ∉ tail)
    : CountsBlankLines (Lines.textOf lines ++ tail)
        ↔ ∃ result, condenseLines (-2 ^ 31) lines = some result ∧ result.head? ≠ some [] := by
  obtain ⟨first, runs, h⟩ := List.exists_cons_of_ne_nil (List.splitOnP_ne_nil (!isBlank ·) lines)
  have hsome := condenseLines_isSome_iff (k := -2 ^ 31) (by decide) h
  unfold CountsBlankLines
  rw [Lines.terminated_textOf_append hlines htail, h]
  cases hresult : condenseLines (-2 ^ 31) lines with
  | none =>
    rw [hresult] at hsome
    refine iff_of_false ?_ (by simp)
    rintro ⟨hfirst, -, hruns⟩
    have := hsome.mpr ⟨by omega, hruns⟩
    contradiction
  | some result =>
    rw [hresult] at hsome
    obtain ⟨hfirst, hruns⟩ := hsome.mp rfl
    have hhead := head?_condenseLines_iff h hresult
    refine ⟨?_, ?_⟩
    . rintro ⟨-, hstart, -⟩
      refine ⟨result, rfl, ?_⟩
      rw [ne_eq, hhead]
      rintro ⟨hne, hpos⟩
      have := hstart.resolve_left hne
      omega
    . rintro ⟨_, heq, hne⟩
      cases heq
      rw [ne_eq, hhead] at hne
      refine ⟨by omega, ?_, hruns⟩
      by_cases hnil : runs = []
      . exact .inl hnil
      . refine .inr ?_
        have hle : ¬0 < -2 ^ 31 + (first.length : Int) := fun hpos => hne ⟨hnil, hpos⟩
        omega

theorem condenseBlankLines_condensed_iff (text : List UInt8)
    : (∃ result, condenseBlankLines text = some result ∧ Condensed text result
          ∧ condenseBlankLines result = some result)
        ↔ isBlank (Lines.unterminated text) = true ∧ CountsBlankLines text := by
  obtain ⟨lines, tail, hlines, htail, rfl⟩ := Lines.exists_textOf text
  rw [countsBlankLines_iff hlines htail, Lines.unterminated_textOf_append hlines htail,
    condenseBlankLines_eq hlines htail]
  cases hresult : condenseLines (-2 ^ 31) lines with
  | none => simp
  | some result =>
    have hnewline : ∀ line ∈ result, 10 ∉ line := by
      intro line hline
      cases mem_condenseLines hresult line hline with
      | inl hnil => simp [hnil]
      | inr hmem => exact hlines line hmem
    have hagain : condenseBlankLines (Lines.textOf result) = some (Lines.textOf result)
        ↔ result.head? ≠ some [] := by
      have htidy := condenseLines_tidy hresult
      have heq := condenseBlankLines_eq hnewline List.not_mem_nil
      rw [List.append_nil] at heq
      rw [← htidy.condenseLines_iff (k := -2 ^ 31) (by decide), heq, Option.map_eq_some_iff]
      refine ⟨?_, fun h => ⟨result, h, rfl⟩⟩
      rintro ⟨again, hagain, htext⟩
      have hnewline' : ∀ line ∈ again, 10 ∉ line := by
        intro line hline
        cases mem_condenseLines hagain line hline with
        | inl hnil => simp [hnil]
        | inr hmem => exact hnewline line hmem
      rw [hagain, Lines.textOf_inj hnewline' hnewline htext]
    have hcondensed : Condensed (Lines.textOf lines ++ tail) (Lines.textOf result) ↔ isBlank tail = true := by
      have htext : Lines.ofText (Lines.textOf lines ++ tail) = lines ++ if tail = [] then [] else [tail] := by
        unfold Lines.ofText
        rw [Lines.terminated_textOf_append hlines htail, Lines.unterminated_textOf_append hlines htail]
      have hresult' : Lines.ofText (Lines.textOf result) = result := Lines.ofText_textOf hnewline
      have hkeeps : result.filter (!isBlank ·) = (lines ++ if tail = [] then [] else [tail]).filter (!isBlank ·)
          ↔ isBlank tail = true := by
        rw [condenseLines_filter hresult, List.filter_append, List.self_eq_append_right, List.filter_eq_nil_iff]
        split
        . next hnil => simp [hnil, isBlank]
        . simp
      refine ⟨?_, ?_⟩
      . rintro ⟨h, -⟩
        rw [htext, hresult', hkeeps] at h
        exact h
      . intro h
        refine ⟨?_, ?_⟩
        . rw [htext, hresult', hkeeps]
          exact h
        . rw [hresult']
          exact (condenseLines_tidy hresult).isChain
    rw [Option.map_some]
    refine ⟨?_, ?_⟩
    . rintro ⟨_, heq, hkept, hidem⟩
      cases heq
      exact ⟨hcondensed.mp hkept, result, rfl, hagain.mp hidem⟩
    . rintro ⟨htail, _, heq, hhead⟩
      cases heq
      exact ⟨_, rfl, hcondensed.mpr htail, hagain.mpr hhead⟩

theorem not_condenseBlankLines_condensed
    : ¬∃ result, condenseBlankLines [97] = some result ∧ Condensed [97] result
        ∧ condenseBlankLines result = some result := by
  rintro ⟨result, hresult, hcondensed, -⟩
  cases hresult
  have hkeeps := hcondensed.keeps
  contradiction

end Condense

namespace Indent

structure State where
  pos : Int
  result : List UInt8

def step (indent : Int) (s : State) (c : UInt8) : Option State :=
  if c = 32 then
    -- Only add spaces if used up indent
    let result := if s.pos ≥ indent then s.result ++ [c] else s.result
    if s.pos + 1 < 2 ^ 31 then some { pos := s.pos + 1, result } else none
  else if c = 9 then
    -- Only add tab if used up indent
    let result := if s.pos ≥ indent then s.result ++ [c] else s.result
    if s.pos + 8 < 2 ^ 31 then some { pos := s.pos + 8, result } else none
  else if c = 10 then
    some { pos := 0, result := s.result ++ [c] }
  else
    if s.pos + 1 < 2 ^ 31 then some { pos := s.pos + 1, result := s.result ++ [c] } else none

structure CommonState where
  min : Int
  indent : Int
  seenText : Bool

def commonStep (s : CommonState) (c : UInt8) : Option CommonState :=
  if c = 32 ∨ c = 9 then
    if s.seenText then
      some s
    else
      let indent := s.indent + if c = 32 then 1 else 8
      if indent < 2 ^ 31 then some { s with indent } else none
  else if c = 10 then
    some { s with indent := 0, seenText := false }
  else if s.seenText then
    some s
  else
    some { s with min := if s.indent < s.min then s.indent else s.min, seenText := true }

end Indent

def removeIndent (text : List UInt8) (indent : Int) : Option (List UInt8) :=
  (text.foldlM (Indent.step indent) { pos := 0, result := [] }).map (·.result)

def getCommonIndent (text : List UInt8) : Option Int :=
  (text.foldlM Indent.commonStep { min := 80, indent := 0, seenText := false }).map (·.min)

-- How many columns the characters take
def width (line : List UInt8) : Nat := (line.map fun c => if c = 9 then 8 else 1).sum

def leading (line : List UInt8) : List UInt8 := line.takeWhile fun c => isBlank [c]

def body (line : List UInt8) : List UInt8 := line.dropWhile fun c => isBlank [c]

/-
What the removal of an indent is for.
-/
structure Outdented (indent : Nat) (line line' : List UInt8) : Prop where
  keeps : ∃ kept, kept.Sublist (leading line) ∧ line' = kept ++ body line
  loses : 9 ∉ line → line'.length + min indent (line.takeWhile (· = 32)).length = line.length

-- Where the text of a line has begun it has no spaces and tabs in the columns of the indent.
def ClearOf (indent : Nat) (line : List UInt8) : Prop :=
  ∀ before c after, line = before ++ c :: after → isBlank [c] = true → isBlank before = false
    → indent ≤ width before

namespace Indent

-- What is left of a line from the column `pos` on
def keep (indent : Int) : Int → List UInt8 → List UInt8
  | _, [] => []
  | pos, c :: line =>
    (if isBlank [c] = true ∧ pos < indent then [] else [c]) ++ keep indent (pos + width [c]) line

variable {indent : Nat} {pos : Int} {c : UInt8} {line line' : List UInt8} {lines : List (List UInt8)}

theorem isBlank_singleton (c : UInt8) : isBlank [c] = true ↔ c = 32 ∨ c = 9 := by simp [isBlank]

theorem isBlank_append (line line' : List UInt8) : isBlank (line ++ line') = (isBlank line && isBlank line') :=
  List.all_append

theorem width_nil : width [] = 0 := rfl

theorem width_append (line line' : List UInt8) : width (line ++ line') = width line + width line' := by
  simp [width]

theorem width_cons (c : UInt8) (line : List UInt8) : width (c :: line) = width [c] + width line :=
  width_append [c] line

theorem append_keep (result : List UInt8) (indent pos : Int) (hblank : isBlank [c] = true)
    : result ++ keep indent pos [c] = if pos ≥ indent then result ++ [c] else result := by
  unfold keep
  by_cases hpos : pos < indent
  . rw [if_pos ⟨hblank, hpos⟩, if_neg (Int.not_le.mpr hpos)]
    apply List.append_nil
  . rw [if_neg fun h => hpos h.2, if_pos (Int.not_lt.mp hpos)]
    rfl

theorem step_char (s : State) (indent : Int) (hc : c ≠ 10)
    : step indent s c
        = if s.pos + width [c] < 2 ^ 31 then
            some { pos := s.pos + width [c], result := s.result ++ keep indent s.pos [c] }
          else none := by
  unfold step
  by_cases hspace : c = 32
  . subst hspace
    rw [if_pos rfl, append_keep _ _ _ rfl]
    rfl
  . by_cases htab : c = 9
    . subst htab
      rw [if_neg hspace, if_pos rfl, append_keep _ _ _ rfl]
      rfl
    . have hblank : isBlank [c] = false := by simp [isBlank, hspace, htab]
      have hkeep : keep indent s.pos [c] = [c] := by simp [keep, hblank]
      have hwidth : width [c] = 1 := by simp [width, htab]
      rw [if_neg hspace, if_neg htab, if_neg hc, hkeep, hwidth]
      rfl

theorem foldlM_line (s : State) (indent : Int) (hs : s.pos < 2 ^ 31) (h : 10 ∉ line)
    : line.foldlM (step indent) s
        = if s.pos + width line < 2 ^ 31 then
            some { pos := s.pos + width line, result := s.result ++ keep indent s.pos line }
          else none := by
  induction line generalizing s with
  | nil =>
    rw [width_nil, Int.natCast_zero, Int.add_zero, if_pos hs, keep, List.append_nil]
    rfl
  | cons c line ih =>
    rw [List.mem_cons, not_or] at h
    rw [List.foldlM_cons, step_char s indent (Ne.symm h.1), width_cons c line]
    split
    . next hroom =>
      rw [Option.bind_eq_bind, Option.bind_some, ih _ hroom h.2]
      simp [keep, Int.add_assoc]
    . next hfull =>
      have hsum : ¬s.pos + ((width [c] + width line : Nat) : Int) < 2 ^ 31 := by omega
      rw [if_neg hsum]
      rfl

theorem foldlM_textOf (indent : Int) (result tail : List UInt8) (hlines : ∀ l ∈ lines, 10 ∉ l) (htail : 10 ∉ tail)
    : ((Lines.textOf lines ++ tail).foldlM (step indent) { pos := 0, result }).map (·.result)
        = if ∀ l ∈ lines ++ [tail], width l < 2 ^ 31 then
            some (result ++ (Lines.textOf (lines.map (keep indent 0)) ++ keep indent 0 tail))
          else none := by
  have hstart (result : List UInt8) (line : List UInt8) (h : 10 ∉ line)
      : line.foldlM (step indent) { pos := 0, result }
          = if width line < 2 ^ 31 then some { pos := width line, result := result ++ keep indent 0 line }
            else none := by
    have hcast : (0 : Int) + width line < 2 ^ 31 ↔ width line < 2 ^ 31 := by omega
    rw [foldlM_line { pos := 0, result } indent (by simp) h, Int.zero_add]
    simp only [← hcast, Int.zero_add]
  induction lines generalizing result with
  | nil =>
    rw [Lines.textOf_nil, List.nil_append, hstart _ _ htail, List.nil_append]
    simp only [List.mem_singleton, forall_eq]
    split <;> rfl
  | cons line lines ih =>
    rw [List.forall_mem_cons] at hlines
    rw [Lines.textOf_cons, List.append_assoc, List.foldlM_append, hstart _ _ hlines.1, List.cons_append]
    simp only [List.cons_append, List.forall_mem_cons]
    by_cases hroom : width line < 2 ^ 31
    . have hnewline : step indent { pos := width line, result := result ++ keep indent 0 line } 10
          = some { pos := 0, result := result ++ keep indent 0 line ++ [10] } := rfl
      rw [if_pos hroom, Option.bind_eq_bind, Option.bind_some, List.foldlM_cons, hnewline, Option.bind_eq_bind,
        Option.bind_some, ih _ hlines.2]
      simp only [hroom, true_and, List.map_cons, Lines.textOf_cons, List.append_assoc, List.cons_append,
        List.nil_append]
    . rw [if_neg hroom, if_neg fun h => hroom h.1]
      rfl

theorem not_mem_keep (indent pos : Int) (h : 10 ∉ line) : 10 ∉ keep indent pos line := by
  induction line generalizing pos with
  | nil => exact h
  | cons c line ih =>
    rw [List.mem_cons, not_or] at h
    rw [keep, List.mem_append, not_or]
    refine ⟨?_, ih _ h.2⟩
    split
    . apply List.not_mem_nil
    . simp [h.1]

theorem keep_append (indent pos : Int) (line line' : List UInt8)
    : keep indent pos (line ++ line') = keep indent pos line ++ keep indent (pos + width line) line' := by
  induction line generalizing pos with
  | nil => simp [keep, width]
  | cons c line ih =>
    rw [List.cons_append, keep, keep, ih, width_cons c line, List.append_assoc, Int.natCast_add, Int.add_assoc]

theorem keep_sublist (indent pos : Int) (line : List UInt8) : (keep indent pos line).Sublist line := by
  induction line generalizing pos with
  | nil => apply List.Sublist.refl
  | cons c line ih =>
    rw [keep]
    split
    . exact (ih _).cons c
    . exact (ih _).cons_cons c

theorem keep_eq_self_iff (indent pos : Int) (line : List UInt8)
    : keep indent pos line = line
        ↔ ∀ before c after, line = before ++ c :: after → isBlank [c] = true → indent ≤ pos + width before := by
  induction line generalizing pos with
  | nil => simp [keep]
  | cons c line ih =>
    rw [keep]
    by_cases hgone : isBlank [c] = true ∧ pos < indent
    . rw [if_pos hgone]
      refine iff_of_false ?_ ?_
      . intro heq
        have hlength := congrArg List.length heq
        have hle := (keep_sublist indent (pos + width [c]) line).length_le
        rw [List.nil_append, List.length_cons] at hlength
        omega
      . intro h
        have := h [] c line rfl hgone.1
        rw [width_nil] at this
        omega
    . rw [if_neg hgone, List.singleton_append, List.cons.injEq, and_iff_right rfl, ih]
      refine ⟨?_, ?_⟩
      . intro h before d after heq hblank
        cases before with
        | nil =>
          cases heq
          rw [width_nil]
          have hle := Int.not_lt.mp fun hlt => hgone ⟨hblank, hlt⟩
          omega
        | cons b before =>
          cases heq
          have := h before d after rfl hblank
          rw [width_cons]
          omega
      . intro h before d after heq hblank
        have := h (c :: before) d after (by rw [heq]; rfl) hblank
        rw [width_cons] at this
        omega

/-
A line is what it begins with and what the first character that is not blank begins.
-/

theorem leading_append_body (line : List UInt8) : leading line ++ body line = line := List.takeWhile_append_dropWhile

theorem isBlank_iff (line : List UInt8) : isBlank line = true ↔ ∀ c ∈ line, isBlank [c] = true := by
  simp [isBlank]

theorem isBlank_of_mem_leading (h : c ∈ leading line) : isBlank [c] = true := by
  unfold leading at h
  simpa using List.mem_takeWhile_imp h

theorem isBlank_leading (line : List UInt8) : isBlank (leading line) = true := by
  rw [isBlank_iff]
  intro c hc
  exact isBlank_of_mem_leading hc

theorem body_eq_nil_iff (line : List UInt8) : body line = [] ↔ isBlank line = true := by
  unfold body
  rw [List.dropWhile_eq_nil_iff, isBlank_iff]

theorem leading_of_nonblank (hblank : isBlank line = true) (hc : isBlank [c] = false) (rest : List UInt8)
    : leading (line ++ c :: rest) = line := by
  unfold leading
  rw [List.takeWhile_append_of_pos ((isBlank_iff line).mp hblank), List.takeWhile_cons_of_neg (by simp [hc]),
    List.append_nil]

theorem body_of_nonblank (hblank : isBlank line = true) (hc : isBlank [c] = false) (rest : List UInt8)
    : body (line ++ c :: rest) = c :: rest := by
  unfold body
  rw [List.dropWhile_append_of_pos ((isBlank_iff line).mp hblank), List.dropWhile_cons_of_neg (by simp [hc])]

theorem body_cases (line : List UInt8)
    : body line = [] ∨ ∃ c rest, body line = c :: rest ∧ isBlank [c] = false := by
  induction line with
  | nil => exact .inl rfl
  | cons c line ih =>
    cases hblank : isBlank [c] with
    | true =>
      have hbody : body (c :: line) = body line := List.dropWhile_cons_of_pos hblank
      rw [hbody]
      exact ih
    | false => exact .inr ⟨c, line, List.dropWhile_cons_of_neg (by simp [hblank]), hblank⟩

theorem clearOf_iff (indent : Nat) (line : List UInt8)
    : ClearOf indent line ↔ keep indent (width (leading line)) (body line) = body line := by
  rw [keep_eq_self_iff]
  refine ⟨?_, ?_⟩
  . intro h before c after heq hblank
    have hline : line = (leading line ++ before) ++ c :: after := by
      rw [List.append_assoc, ← heq, leading_append_body]
    have hbefore : isBlank before = false := by
      obtain ⟨c', rest, hbody, hblank'⟩ := (body_cases line).resolve_left (by simp [heq])
      rw [hbody] at heq
      cases before with
      | nil =>
        cases heq
        rw [hblank] at hblank'
        contradiction
      | cons b before =>
        cases heq
        rw [← List.singleton_append, isBlank_append, hblank', Bool.false_and]
    have hle := h _ c after hline hblank (by rw [isBlank_append, hbefore, Bool.and_false])
    rw [width_append] at hle
    omega
  . rintro h before c after rfl hblank hbefore
    have hne : body before ≠ [] := by
      rw [ne_eq, body_eq_nil_iff, hbefore]
      exact Bool.false_ne_true
    obtain ⟨c', rest, hbody, hblank'⟩ := (body_cases before).resolve_left hne
    have hsplit : before ++ c :: after = leading before ++ c' :: (rest ++ c :: after) := by
      rw [← List.cons_append, ← hbody, ← List.append_assoc, leading_append_body]
    have hle := h (c' :: rest) c after
      (by rw [hsplit, body_of_nonblank (isBlank_leading before) hblank']; rfl) hblank
    rw [hsplit, leading_of_nonblank (isBlank_leading before) hblank', ← hbody] at hle
    have hwidth := width_append (leading before) (body before)
    rw [leading_append_body] at hwidth
    omega

theorem keep_line (indent : Int) (line : List UInt8)
    : keep indent 0 line = keep indent 0 (leading line) ++ keep indent (width (leading line)) (body line) := by
  have h := keep_append indent 0 (leading line) (body line)
  rwa [leading_append_body, Int.zero_add] at h

theorem length_keep_spaces (indent pos : Int) (h : ∀ c ∈ line, c = 32)
    : (keep indent pos line).length + min (indent - pos).toNat line.length = line.length := by
  induction line generalizing pos with
  | nil => rw [keep, List.length_nil, Nat.min_zero]
  | cons c line ih =>
    rw [List.forall_mem_cons] at h
    obtain ⟨rfl, h⟩ := h
    have hrest := ih (pos + 1) h
    have hblank : isBlank [32] = true := rfl
    have hwidth : ((width [32] : Nat) : Int) = 1 := rfl
    rw [keep, hwidth, List.length_append, List.length_cons]
    by_cases hpos : pos < indent
    . rw [if_pos ⟨hblank, hpos⟩, List.length_nil]
      omega
    . rw [if_neg fun h => hpos h.2, List.length_singleton]
      omega

theorem leading_of_noTab (h : 9 ∉ line) : line.takeWhile (· = 32) = leading line := by
  induction line with
  | nil => rfl
  | cons c line ih =>
    rw [List.mem_cons, not_or] at h
    have hblank : isBlank [c] = decide (c = 32) := by simp [isBlank, Ne.symm h.1]
    have hrest := ih h.2
    unfold leading at hrest ⊢
    rw [List.takeWhile_cons, List.takeWhile_cons, hblank, hrest]

/-
The text of the line begins where it has begun.
-/
theorem outdented_keep_iff (indent : Nat) (line : List UInt8)
    : Outdented indent line (keep indent 0 line) ↔ ClearOf indent line := by
  rw [clearOf_iff, keep_line]
  have hblank : isBlank (keep indent 0 (leading line)) = true := by
    rw [isBlank_iff]
    intro c hc
    exact (isBlank_iff _).mp (isBlank_leading line) c ((keep_sublist _ _ _).subset hc)
  refine ⟨?_, ?_⟩
  . rintro ⟨⟨kept, hsub, heq⟩, -⟩
    rcases body_cases line with hbody | ⟨c, rest, hbody, hc⟩
    . rw [hbody]
      rfl
    . have hkept : isBlank kept = true := by
        rw [isBlank_iff]
        intro c hc
        exact (isBlank_iff _).mp (isBlank_leading line) c (hsub.subset hc)
      have hfirst : keep indent (width (leading line)) (c :: rest)
          = c :: keep indent (width (leading line) + width [c]) rest := by
        rw [keep, if_neg fun h => by simp [hc] at h]
        rfl
      rw [hbody, hfirst] at heq ⊢
      have hbodies := congrArg body heq
      rwa [body_of_nonblank hblank hc, body_of_nonblank hkept hc] at hbodies
  . intro hkeep
    rw [hkeep]
    refine ⟨⟨_, keep_sublist _ _ _, rfl⟩, ?_⟩
    intro htab
    have hspaces : ∀ c ∈ leading line, c = 32 := by
      intro c hc
      have hblank := (isBlank_singleton c).mp (isBlank_of_mem_leading hc)
      refine hblank.resolve_right ?_
      rintro rfl
      exact htab (List.takeWhile_subset _ hc)
    have hlength := length_keep_spaces indent 0 hspaces
    have htotal := congrArg List.length (leading_append_body line)
    rw [List.length_append] at htotal
    rw [leading_of_noTab htab, List.length_append]
    omega

theorem removeIndent_isSome_iff (text : List UInt8) (indent : Int)
    : (removeIndent text indent).isSome ↔ ∀ line ∈ text.splitOn 10, width line < 2 ^ 31 := by
  obtain ⟨lines, tail, hlines, htail, rfl⟩ := Lines.exists_textOf text
  unfold removeIndent
  rw [foldlM_textOf indent [] tail hlines htail, Lines.splitOn_textOf_append hlines htail]
  simp

theorem forall₂_removeIndent_iff {text result : List UInt8} (h : removeIndent text indent = some result)
    : List.Forall₂ (Outdented indent) (text.splitOn 10) (result.splitOn 10)
        ↔ ∀ line ∈ text.splitOn 10, ClearOf indent line := by
  obtain ⟨lines, tail, hlines, htail, rfl⟩ := Lines.exists_textOf text
  have hkept : ∀ l ∈ lines.map (keep indent 0), 10 ∉ l := by
    intro l hl
    obtain ⟨line, hline, rfl⟩ := List.mem_map.mp hl
    exact not_mem_keep _ _ (hlines line hline)
  have hresult : (Lines.textOf (lines.map (keep indent 0)) ++ keep indent 0 tail).splitOn 10
      = (lines ++ [tail]).map (keep indent 0) := by
    rw [Lines.splitOn_textOf_append hkept (not_mem_keep _ _ htail), List.map_append]
    rfl
  unfold removeIndent at h
  rw [foldlM_textOf indent [] tail hlines htail] at h
  split at h
  . cases h
    rw [List.nil_append, hresult, Lines.splitOn_textOf_append hlines htail, List.forall₂_map_right_iff,
      List.forall₂_same]
    simp only [outdented_keep_iff]
  . contradiction

theorem removeIndent_outdented_iff (text : List UInt8) (indent : Nat)
    : (∃ result, removeIndent text indent = some result
          ∧ List.Forall₂ (Outdented indent) (text.splitOn 10) (result.splitOn 10))
        ↔ ∀ line ∈ text.splitOn 10, width line < 2 ^ 31 ∧ ClearOf indent line := by
  simp only [forall_and]
  rw [← removeIndent_isSome_iff text indent, Option.isSome_iff_exists]
  refine ⟨?_, ?_⟩
  . rintro ⟨result, hresult, hlines⟩
    exact ⟨⟨result, hresult⟩, (forall₂_removeIndent_iff hresult).mp hlines⟩
  . rintro ⟨⟨result, hresult⟩, hclear⟩
    exact ⟨result, hresult, (forall₂_removeIndent_iff hresult).mpr hclear⟩

-- `a b` with an indent of 4
theorem not_removeIndent_outdented
    : ¬∃ result, removeIndent [97, 32, 98] 4 = some result
        ∧ List.Forall₂ (Outdented 4) ([97, 32, 98].splitOn 10) (result.splitOn 10) := by
  rintro ⟨result, hresult, hlines⟩
  cases hresult
  cases hlines with
  | cons hline _ =>
    have hlength := hline.loses (by decide)
    contradiction

/-
The common indent.
-/

theorem clearOf_of_le (h : isBlank line = false → indent ≤ width (leading line)) : ClearOf indent line := by
  rw [clearOf_iff]
  cases hblank : isBlank line with
  | true =>
    rw [(body_eq_nil_iff line).mpr hblank]
    rfl
  | false =>
    rw [keep_eq_self_iff]
    intro before c after _ _
    have hle := h hblank
    omega

theorem commonStep_cases {s s' : CommonState} (hc : c ≠ 10) (h : commonStep s c = some s')
    : s' = s ∧ s.seenText = true
      ∨ s.seenText = false ∧ isBlank [c] = true ∧ s' = { s with indent := s.indent + width [c] }
      ∨ s.seenText = false ∧ isBlank [c] = false ∧ s' = { s with min := Min.min s.indent s.min, seenText := true } := by
  unfold commonStep at h
  cases hseen : s.seenText with
  | true =>
    rw [if_neg hc, hseen] at h
    simp only [if_true, ite_self] at h
    cases h
    exact .inl ⟨rfl, rfl⟩
  | false =>
    refine .inr ?_
    rw [hseen, if_neg hc] at h
    by_cases hblank : isBlank [c] = true
    . have hws := (isBlank_singleton c).mp hblank
      have hwidth : (if c = 32 then (1 : Int) else 8) = width [c] := by
        rcases hws with rfl | rfl <;> rfl
      rw [if_pos hws, if_neg Bool.false_ne_true, hwidth] at h
      simp only at h
      split at h
      . cases h
        exact .inl ⟨rfl, hblank, rfl⟩
      . contradiction
    . rw [if_neg fun hws => hblank ((isBlank_singleton c).mpr hws), if_neg Bool.false_ne_true] at h
      cases h
      refine .inr ⟨rfl, Bool.eq_false_iff.mpr hblank, ?_⟩
      have hmin : (if s.indent < s.min then s.indent else s.min) = Min.min s.indent s.min := by
        split <;> omega
      rw [hmin]

theorem common_line {s s' : CommonState} (h : 10 ∉ line) (hrun : line.foldlM commonStep s = some s')
    (hindent : 0 ≤ s.indent) (hmin : 0 ≤ s.min)
    : 0 ≤ s'.min ∧ s'.min ≤ s.min
      ∧ (s.seenText = false → isBlank line = false → s'.min ≤ s.indent + width (leading line)) := by
  induction line generalizing s with
  | nil =>
    cases hrun
    refine ⟨hmin, Int.le_refl _, ?_⟩
    intro _ hblank
    contradiction
  | cons c line ih =>
    rw [List.mem_cons, not_or] at h
    rw [List.foldlM_cons] at hrun
    obtain ⟨next, hnext, hrest⟩ := Option.bind_eq_some_iff.mp hrun
    rcases commonStep_cases (Ne.symm h.1) hnext with ⟨rfl, hseen⟩ | ⟨hseen, hc, rfl⟩ | ⟨hseen, hc, rfl⟩
    . obtain ⟨hpos, hle, -⟩ := ih h.2 hrest hindent hmin
      refine ⟨hpos, hle, ?_⟩
      intro hunseen
      rw [hseen] at hunseen
      contradiction
    . obtain ⟨hpos, hle, hcommon⟩ := ih h.2 hrest (by dsimp only; omega) hmin
      refine ⟨hpos, hle, ?_⟩
      intro _ hblank
      rw [← List.singleton_append, isBlank_append, hc, Bool.true_and] at hblank
      have hleading : leading (c :: line) = c :: leading line := List.takeWhile_cons_of_pos hc
      have := hcommon hseen hblank
      rw [hleading, width_cons]
      dsimp only at this
      omega
    . obtain ⟨hpos, hle, -⟩ := ih h.2 hrest hindent (by dsimp only; omega)
      dsimp only at hle
      refine ⟨hpos, by omega, ?_⟩
      intro _ _
      omega

theorem common_textOf {tail : List UInt8} {min : Int} {s : CommonState} (hlines : ∀ l ∈ lines, 10 ∉ l)
    (htail : 10 ∉ tail) (hmin : 0 ≤ min)
    (hrun : (Lines.textOf lines ++ tail).foldlM commonStep { min, indent := 0, seenText := false } = some s)
    : 0 ≤ s.min ∧ s.min ≤ min
      ∧ ∀ line ∈ lines ++ [tail], isBlank line = false → s.min ≤ width (leading line) := by
  induction lines generalizing min with
  | nil =>
    rw [Lines.textOf_nil, List.nil_append] at hrun
    obtain ⟨hpos, hle, hcommon⟩ := common_line htail hrun (Int.le_refl 0) hmin
    refine ⟨hpos, hle, ?_⟩
    intro line hline hblank
    cases List.mem_singleton.mp hline
    have := hcommon rfl hblank
    dsimp only at this
    omega
  | cons line lines ih =>
    rw [List.forall_mem_cons] at hlines
    rw [Lines.textOf_cons, List.append_assoc, List.foldlM_append] at hrun
    obtain ⟨next, hnext, hrun⟩ := Option.bind_eq_some_iff.mp hrun
    obtain ⟨hpos, hle, hcommon⟩ := common_line hlines.1 hnext (Int.le_refl 0) hmin
    have hnewline : commonStep next 10 = some { min := next.min, indent := 0, seenText := false } := rfl
    rw [List.cons_append, List.foldlM_cons, hnewline, Option.bind_eq_bind, Option.bind_some] at hrun
    obtain ⟨hpos', hle', hrest⟩ := ih hlines.2 hpos hrun
    refine ⟨hpos', Int.le_trans hle' hle, ?_⟩
    rw [List.cons_append, List.forall_mem_cons]
    refine ⟨?_, hrest⟩
    intro hblank
    have := hcommon rfl hblank
    dsimp only at this
    omega

/-
What is removed everywhere in the source is the common indent, with which nothing else is lost.
-/
theorem removeIndent_getCommonIndent {text : List UInt8} {n : Int} (hcommon : getCommonIndent text = some n)
    (hwidth : ∀ line ∈ text.splitOn 10, width line < 2 ^ 31)
    : ∃ result, removeIndent text n = some result
        ∧ List.Forall₂ (Outdented n.toNat) (text.splitOn 10) (result.splitOn 10) := by
  obtain ⟨s, hrun, rfl⟩ := Option.map_eq_some_iff.mp hcommon
  obtain ⟨result, hresult⟩ := Option.isSome_iff_exists.mp ((removeIndent_isSome_iff text s.min).mpr hwidth)
  obtain ⟨lines, tail, hlines, htail, htext⟩ := Lines.exists_textOf text
  rw [htext] at hrun
  obtain ⟨hpos, -, hleading⟩ := common_textOf hlines htail (by decide) hrun
  have hnat : ((s.min.toNat : Nat) : Int) = s.min := Int.toNat_of_nonneg hpos
  refine ⟨result, hresult, ?_⟩
  rw [← hnat] at hresult
  rw [forall₂_removeIndent_iff hresult, htext, Lines.splitOn_textOf_append hlines htail]
  intro line hline
  apply clearOf_of_le
  intro hblank
  have := hleading line hline hblank
  omega

-- Of a tab and a space, and of five spaces
theorem removeIndent_getCommonIndent_mixed
    : ∃ result, removeIndent [9, 32, 97, 10, 32, 32, 32, 32, 32, 98] 5 = some result
        ∧ List.Forall₂ (Outdented (5 : Int).toNat) ([9, 32, 97, 10, 32, 32, 32, 32, 32, 98].splitOn 10)
          (result.splitOn 10) :=
  removeIndent_getCommonIndent (by decide) (by decide)

end Indent

end Text
end ObTools
