import Mathlib.Data.List.TakeWhile
import ObTools.Lib.Delimiter

/-!
This module contains texts and the lines that they are made of, with what is behind the last end of line,
and as `getline` of the standard library finds them on a stream.
-/

namespace Lines

abbrev Bytes := List UInt8

-- What is written for some lines, each with an end of line behind it
def textOf (ls : List Bytes) : Bytes := ls.flatMap fun l => l ++ [10]

-- The last line of a text need not have an end
structure IsText (ls : List Bytes) (text : Bytes) : Prop where
  noNewline : ∀ l ∈ ls, 10 ∉ l
  spells : text = textOf ls ∨ ∃ l, ls.getLast? = some l ∧ l ≠ [] ∧ textOf ls = text ++ [10]

theorem textOf_nil : textOf [] = [] := rfl

theorem textOf_cons (l : Bytes) (ls : List Bytes) : textOf (l :: ls) = l ++ 10 :: textOf ls := by
  simp [textOf]

theorem textOf_append (ls ls' : List Bytes) : textOf (ls ++ ls') = textOf ls ++ textOf ls' :=
  List.flatMap_append

theorem append_newline_inj {l l' rest rest' : Bytes} (hl : 10 ∉ l) (hl' : 10 ∉ l')
    (heq : l ++ 10 :: rest = l' ++ 10 :: rest')
    : l = l' ∧ rest = rest' := by
  induction l generalizing l' with
  | nil =>
    cases l' with
    | nil => exact ⟨rfl, (List.cons.inj heq).2⟩
    | cons b l' =>
      have hb : (10 : UInt8) = b := (List.cons.inj heq).1
      rw [hb] at hl'
      exact absurd List.mem_cons_self hl'
  | cons b l ih =>
    cases l' with
    | nil =>
      have hb : b = 10 := (List.cons.inj heq).1
      rw [hb] at hl
      exact absurd List.mem_cons_self hl
    | cons b' l' =>
      rw [List.cons_append, List.cons_append, List.cons.injEq] at heq
      rw [List.mem_cons, not_or] at hl hl'
      obtain ⟨rfl, hrest⟩ := ih hl.2 hl'.2 heq.2
      exact ⟨by rw [heq.1], hrest⟩

theorem textOf_inj {ls ls' : List Bytes} (hls : ∀ l ∈ ls, 10 ∉ l) (hls' : ∀ l ∈ ls', 10 ∉ l)
    (heq : textOf ls = textOf ls')
    : ls = ls' := by
  induction ls generalizing ls' with
  | nil =>
    cases ls' with
    | nil => rfl
    | cons l' ls' => simp [textOf] at heq
  | cons l ls ih =>
    cases ls' with
    | nil => simp [textOf] at heq
    | cons l' ls' =>
      rw [textOf_cons, textOf_cons] at heq
      rw [List.forall_mem_cons] at hls hls'
      obtain ⟨rfl, hrest⟩ := append_newline_inj hls.1 hls'.1 heq
      rw [ih hls.2 hls'.2 hrest]

theorem textOf_concat (ls : List Bytes) (l : Bytes) : textOf (ls ++ [l]) = textOf ls ++ l ++ [10] := by
  rw [textOf_append, textOf_cons, textOf_nil, List.append_assoc]

/--
All lines have an end if the text has one.
-/
theorem IsText.eq_textOf_iff {ls : List Bytes} {text : Bytes} (h : IsText ls text)
    : text = textOf ls ↔ text = [] ∨ text.getLast? = some 10 := by
  refine ⟨?_, ?_⟩
  . rintro rfl
    rcases List.eq_nil_or_concat ls with rfl | ⟨ls', l, rfl⟩
    . exact Or.inl rfl
    . refine Or.inr ?_
      rw [List.concat_eq_append, textOf_concat, List.getLast?_append]
      rfl
  . intro hend
    refine h.spells.resolve_right ?_
    rintro ⟨l, hlast, hne, htext⟩
    obtain ⟨ls', rfl⟩ := List.getLast?_eq_some_iff.mp hlast
    rw [textOf_concat, List.append_left_inj] at htext
    rcases hend with rfl | hend
    . exact hne (List.append_eq_nil_iff.mp htext).2
    . obtain ⟨l', b, rfl⟩ := (List.eq_nil_or_concat l).resolve_left hne
      rw [← htext, List.concat_eq_append, ← List.append_assoc, List.getLast?_append] at hend
      cases hend
      rw [List.concat_eq_append] at h
      exact h.noNewline _ (List.mem_append_right _ List.mem_cons_self)
        (List.mem_append_right _ List.mem_cons_self)

/-
What of a text is in lines that have an end, and what is behind the last end.
-/

def terminated (text : Bytes) : List Bytes := (text.splitOn 10).dropLast

def unterminated (text : Bytes) : Bytes := (text.splitOn 10).getLastD []

theorem splitOn_textOf_append {ls : List Bytes} {tail : Bytes} (hls : ∀ l ∈ ls, 10 ∉ l) (htail : 10 ∉ tail)
    : (textOf ls ++ tail).splitOn 10 = ls ++ [tail] := by
  induction ls with
  | nil =>
    rw [textOf_nil, List.nil_append]
    apply List.splitOn_eq_singleton htail
  | cons l ls ih =>
    rw [List.forall_mem_cons] at hls
    rw [textOf_cons, List.append_assoc, List.cons_append, List.splitOn_append_cons_self_of_not_mem hls.1,
      ih hls.2]
    rfl

theorem terminated_textOf_append {ls : List Bytes} {tail : Bytes} (hls : ∀ l ∈ ls, 10 ∉ l) (htail : 10 ∉ tail)
    : terminated (textOf ls ++ tail) = ls := by
  unfold terminated
  rw [splitOn_textOf_append hls htail, List.dropLast_concat]

theorem unterminated_textOf_append {ls : List Bytes} {tail : Bytes} (hls : ∀ l ∈ ls, 10 ∉ l)
    (htail : 10 ∉ tail)
    : unterminated (textOf ls ++ tail) = tail := by
  unfold unterminated
  rw [splitOn_textOf_append hls htail, List.getLastD_concat]

-- With the last one if it has no end
def ofText (text : Bytes) : List Bytes :=
  terminated text ++ if unterminated text = [] then [] else [unterminated text]

theorem ofText_textOf {ls : List Bytes} (hls : ∀ l ∈ ls, 10 ∉ l) : ofText (textOf ls) = ls := by
  have hterminated := terminated_textOf_append hls List.not_mem_nil
  have hunterminated := unterminated_textOf_append hls List.not_mem_nil
  rw [List.append_nil] at hterminated hunterminated
  unfold ofText
  rw [hterminated, hunterminated, if_pos rfl, List.append_nil]

theorem exists_textOf (text : Bytes)
    : ∃ ls tail, (∀ l ∈ ls, 10 ∉ l) ∧ 10 ∉ tail ∧ text = textOf ls ++ tail := by
  induction text with
  | nil => exact ⟨[], [], by simp, by simp, rfl⟩
  | cons c text ih =>
    obtain ⟨ls, tail, hls, htail, rfl⟩ := ih
    by_cases hc : c = 10
    . refine ⟨[] :: ls, tail, ?_, htail, ?_⟩
      . rw [List.forall_mem_cons]
        exact ⟨List.not_mem_nil, hls⟩
      . rw [textOf_cons, hc]
        rfl
    . cases ls with
      | nil => exact ⟨[], c :: tail, hls, by simp [Ne.symm hc, htail], rfl⟩
      | cons l ls =>
        rw [List.forall_mem_cons] at hls
        refine ⟨(c :: l) :: ls, tail, ?_, htail, ?_⟩
        . rw [List.forall_mem_cons]
          exact ⟨by simp [Ne.symm hc, hls.1], hls.2⟩
        . rw [textOf_cons, textOf_cons]
          rfl

/-
Streams.
-/

structure Stream where
  rest : Bytes
  eof : Bool
  fail : Bool
  deriving DecidableEq, Repr

namespace Stream

def new (text : Bytes) : Stream := { rest := text, eof := false, fail := false }

-- `getline(sin, line)`, which leaves the line alone if there was an end of file before
def getline (s : Stream) (line : Bytes) : Bytes × Stream :=
  if s.eof || s.fail then
    (line, { s with fail := true })
  else
    match s.rest.dropWhile (· ≠ 10) with
    | [] => (s.rest, { rest := [], eof := true, fail := s.rest.isEmpty })
    | _ :: rest => (s.rest.takeWhile (· ≠ 10), { s with rest })

theorem getline_line {l : Bytes} (hl : 10 ∉ l) (rest line : Bytes)
    : (new (l ++ 10 :: rest)).getline line = (l, new rest) := by
  obtain ⟨htake, hdrop⟩ := Delimiter.takeWhile_ne hl rest
  unfold getline new
  rw [if_neg (by simp), hdrop, htake]

theorem getline_last {l : Bytes} (hl : 10 ∉ l) (line : Bytes)
    : (new l).getline line = (l, { rest := [], eof := true, fail := l.isEmpty }) := by
  have hdrop : l.dropWhile (· ≠ 10) = [] := List.dropWhile_eq_nil_iff.mpr (Delimiter.forall_ne hl)
  unfold getline new
  rw [if_neg (by simp), hdrop]

theorem getline_noNewline (s : Stream) {line : Bytes} (hline : 10 ∉ line) : 10 ∉ (s.getline line).1 := by
  unfold getline
  split
  . exact hline
  . split
    . next hdrop =>
      rw [List.dropWhile_eq_nil_iff] at hdrop
      intro hmem
      simpa using hdrop 10 hmem
    . intro hmem
      simpa using List.mem_takeWhile_imp hmem

end Stream

end Lines
