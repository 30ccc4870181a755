import Mathlib.Data.List.Forall2
import ObTools.Text.Lines

/-!
This module contains the model of `Text::CSV`, what it means for a text to be a rendering of a table, and
the proof that the reader finds the table of every rendering.
-/

namespace ObTools
namespace Text

structure CSV where
  sep : UInt8

namespace CSV

variable (csv : CSV)

structure LineState where
  vars : List (List UInt8)
  var : List UInt8
  inQuote : Bool
  -- A quote was the last character of quoting
  escaped : Bool

-- The character is not the second one of a doubled quote
def LineState.use (s : LineState) (c : UInt8) : LineState :=
  if c = csv.sep ∧ s.inQuote = false then
    { s with vars := s.vars ++ [s.var], var := [] }
  else if c = 34 then
    if s.inQuote then { s with escaped := true } else { s with inQuote := true }
  else
    { s with var := s.var ++ [c] }

def LineState.step (s : LineState) (c : UInt8) : LineState :=
  if s.escaped then
    if c = 34 then
      { s with escaped := false, var := s.var ++ [c] }
    else
      LineState.use csv { s with escaped := false, inQuote := false } c
  else
    s.use csv c

def readLine (line : List UInt8) (vars : List (List UInt8)) : List (List UInt8) :=
  if line = [] then
    vars
  else
    let s := line.foldl (LineState.step csv) { vars, var := [], inQuote := false, escaped := false }
    s.vars ++ [s.var]

def readRows : List (List UInt8) → List (List (List UInt8)) → Bool → List (List (List UInt8))
  | [], data, _ => data
  | line :: lines, data, skipHeader =>
    if skipHeader then
      readRows lines data false
    else
      readRows lines (data ++ [csv.readLine line []]) skipHeader

def read (text : List UInt8) (data : List (List (List UInt8))) (skipHeader : Bool)
    : Option (List (List (List UInt8))) :=
  (splitLines text false).map fun lines => csv.readRows lines data skipHeader

end CSV

namespace CSV

def quoted (field : List UInt8) : List UInt8 :=
  34 :: (field.flatMap fun c => if c = 34 then [34, 34] else [c]) ++ [34]

/-
The renderings of a field, of a row and of a table.
-/

inductive IsField (sep : UInt8) : List UInt8 → List UInt8 → Prop where
  | plain {field : List UInt8} (h : ∀ c ∈ field, c ≠ 34 ∧ c ≠ sep) : IsField sep field field
  | quoted (field : List UInt8) : IsField sep (CSV.quoted field) field

-- A row of a single empty field has to be quoted
structure IsRow (sep : UInt8) (line : List UInt8) (row : List (List UInt8)) : Prop where
  fields : ∃ parts, List.Forall₂ (IsField sep) parts row ∧ line = [sep].intercalate parts
  ne_nil : line ≠ []

inductive IsTable (sep : UInt8) : List UInt8 → List (List (List UInt8)) → Prop where
  | nil : IsTable sep [] []
  | last {line : List UInt8} {row : List (List UInt8)} (h : IsRow sep line row) : IsTable sep line [row]
  | cons {line ending rest : List UInt8} {row : List (List UInt8)} {rows : List (List (List UInt8))}
      (h : IsRow sep line row) (hending : ending = [10] ∨ ending = [13, 10]) (hrest : IsTable sep rest rows)
      : IsTable sep (line ++ ending ++ rest) (row :: rows)

-- Fields do not go over several lines
def NoLineEnds (field : List UInt8) : Prop := 13 ∉ field ∧ 10 ∉ field

/-
A row.
-/

-- A field has been read, with the closing quote or without quotes
inductive LineState.HasField (vars : List (List UInt8)) (field : List UInt8) : LineState → Prop where
  | plain : HasField vars field { vars, var := field, inQuote := false, escaped := false }
  | quoted : HasField vars field { vars, var := field, inQuote := true, escaped := true }

section Row

variable {csv : CSV} {vars row : List (List UInt8)} {var field part line : List UInt8}

theorem use_sep
    : LineState.use csv { vars, var, inQuote := false, escaped := false } csv.sep
        = { vars := vars ++ [var], var := [], inQuote := false, escaped := false } :=
  if_pos ⟨rfl, rfl⟩

theorem step_sep (hsep : csv.sep ≠ 34) {s : LineState} (h : s.HasField vars field)
    : s.step csv csv.sep = { vars := vars ++ [field], var := [], inQuote := false, escaped := false } := by
  cases h with
  | plain => exact use_sep
  | quoted =>
    unfold LineState.step
    rw [if_pos rfl, if_neg hsep]
    exact use_sep

theorem foldl_plain (h : ∀ c ∈ field, c ≠ 34 ∧ c ≠ csv.sep)
    : field.foldl (LineState.step csv) { vars, var, inQuote := false, escaped := false }
        = { vars, var := var ++ field, inQuote := false, escaped := false } := by
  induction field generalizing var with
  | nil => rw [List.append_nil]; rfl
  | cons c field ih =>
    rw [List.forall_mem_cons] at h
    obtain ⟨⟨hquote, hsep⟩, hfield⟩ := h
    have hstep : LineState.step csv { vars, var, inQuote := false, escaped := false } c
        = { vars, var := var ++ [c], inQuote := false, escaped := false } := by
      unfold LineState.step LineState.use
      rw [if_neg Bool.false_ne_true, if_neg fun h => hsep h.1, if_neg hquote]
    rw [List.foldl_cons, hstep, ih hfield, List.append_assoc]
    rfl

-- Between the quotes the separator is a character like any other
theorem foldl_doubled (field : List UInt8)
    : (field.flatMap fun c => if c = 34 then [34, 34] else [c]).foldl (LineState.step csv)
          { vars, var, inQuote := true, escaped := false }
        = { vars, var := var ++ field, inQuote := true, escaped := false } := by
  induction field generalizing var with
  | nil => rw [List.append_nil]; rfl
  | cons c field ih =>
    have hnext : (if c = 34 then [34, 34] else [c]).foldl (LineState.step csv)
          { vars, var, inQuote := true, escaped := false }
        = { vars, var := var ++ [c], inQuote := true, escaped := false } := by
      by_cases hc : c = 34
      . subst hc
        rw [if_pos rfl]
        simp [LineState.step, LineState.use]
      . rw [if_neg hc]
        simp [LineState.step, LineState.use, hc]
    rw [List.flatMap_cons, List.foldl_append, hnext, ih, List.append_assoc]
    rfl

theorem foldl_quoted (hsep : csv.sep ≠ 34)
    : (quoted field).foldl (LineState.step csv) { vars, var := [], inQuote := false, escaped := false }
        = { vars, var := field, inQuote := true, escaped := true } := by
  have hopen : LineState.step csv { vars, var := [], inQuote := false, escaped := false } 34
      = { vars, var := [], inQuote := true, escaped := false } := by
    unfold LineState.step LineState.use
    rw [if_neg Bool.false_ne_true, if_neg fun h => hsep h.1.symm, if_pos rfl, if_neg Bool.false_ne_true]
  unfold quoted
  rw [List.cons_append, List.foldl_cons, hopen, List.foldl_append, foldl_doubled, List.nil_append]
  simp [LineState.step, LineState.use]

theorem foldl_field (hsep : csv.sep ≠ 34) (h : IsField csv.sep part field)
    : (part.foldl (LineState.step csv) { vars, var := [], inQuote := false, escaped := false }).HasField
        vars field := by
  cases h with
  | plain h =>
    rw [foldl_plain h]
    exact .plain
  | quoted =>
    rw [foldl_quoted hsep]
    exact .quoted

theorem LineState.HasField.result {s : LineState} (h : s.HasField vars field)
    : s.vars ++ [s.var] = vars ++ [field] := by
  cases h with
  | plain => rfl
  | quoted => rfl

theorem foldl_row (vars : List (List UInt8)) (hsep : csv.sep ≠ 34) {parts : List (List UInt8)} (hrow : row ≠ [])
    (h : List.Forall₂ (IsField csv.sep) parts row)
    : ∃ vars' field, vars' ++ [field] = vars ++ row
        ∧ (([csv.sep].intercalate parts).foldl (LineState.step csv)
            { vars, var := [], inQuote := false, escaped := false }).HasField vars' field := by
  induction h generalizing vars with
  | nil => exact absurd rfl hrow
  | @cons part field parts row hfield hparts ih =>
    cases hparts with
    | nil =>
      rw [List.intercalate_singleton]
      exact ⟨vars, field, rfl, foldl_field hsep hfield⟩
    | @cons next nextField parts row hnext hparts =>
      obtain ⟨vars', field', heq, hfields⟩ := ih (vars ++ [field]) (List.cons_ne_nil _ _)
      refine ⟨vars', field', by rw [heq, List.append_assoc]; rfl, ?_⟩
      rw [List.intercalate_cons_cons, List.foldl_append, List.foldl_append, List.foldl_cons, List.foldl_nil,
        step_sep hsep (foldl_field hsep hfield)]
      exact hfields

theorem readLine_eq (hsep : csv.sep ≠ 34) (hrow : row ≠ []) (h : IsRow csv.sep line row)
    : csv.readLine line vars = vars ++ row := by
  obtain ⟨⟨parts, hparts, rfl⟩, hne⟩ := h
  obtain ⟨vars', field, heq, hfield⟩ := foldl_row vars hsep hrow hparts
  unfold readLine
  rw [if_neg hne, ← heq]
  exact hfield.result

end Row

/-
The table.
-/

section Table

variable {csv : CSV} {line : List UInt8} {row : List (List UInt8)} {rows : List (List (List UInt8))}

theorem IsField.not_mem {sep c : UInt8} {part field : List UInt8} (h : IsField sep part field) (hc : c ≠ 34)
    (hfield : c ∉ field)
    : c ∉ part := by
  cases h with
  | plain => exact hfield
  | quoted =>
    intro hmem
    simp only [CSV.quoted, List.cons_append, List.mem_cons, List.mem_append, List.mem_flatMap, List.not_mem_nil,
      or_false] at hmem
    rcases hmem with rfl | ⟨d, hd, hmem⟩ | rfl
    . exact hc rfl
    . by_cases hquote : d = 34
      . rw [if_pos hquote] at hmem
        simp [hc] at hmem
      . rw [if_neg hquote, List.mem_singleton] at hmem
        rw [hmem] at hfield
        exact hfield hd
    . exact hc rfl

theorem IsRow.not_mem {sep c : UInt8} (h : IsRow sep line row) (hc : c ≠ 34) (hsep : c ≠ sep)
    (hfields : ∀ field ∈ row, c ∉ field)
    : c ∉ line := by
  obtain ⟨⟨parts, hparts, rfl⟩, -⟩ := h
  induction hparts with
  | nil => exact List.not_mem_nil
  | @cons part field parts row hfield hparts ih =>
    rw [List.forall_mem_cons] at hfields
    have hpart : c ∉ part := hfield.not_mem hc hfields.1
    cases hparts with
    | nil =>
      rw [List.intercalate_singleton]
      exact hpart
    | cons hnext hparts =>
      rw [List.intercalate_cons_cons, List.mem_append, List.mem_append, List.mem_singleton]
      rintro ((hmem | rfl) | hmem)
      . exact hpart hmem
      . exact hsep rfl
      . exact ih hfields.2 hmem

-- No row is an empty line, not even the first one.
theorem IsTable.exists_textOf {table : List UInt8} (hsep : csv.sep ≠ 34 ∧ csv.sep ≠ 13 ∧ csv.sep ≠ 10)
    (hrows : ∀ row ∈ rows, ∀ field ∈ row, NoLineEnds field) (h : IsTable csv.sep table rows)
    : ∃ ls tail, (∀ l ∈ ls, 10 ∉ l) ∧ 10 ∉ tail ∧ table = Lines.textOf ls ++ tail ∧ ls.head? ≠ some []
        ∧ List.Forall₂ (IsRow csv.sep) (ls.map stripCr ++ if tail = [] then [] else [stripCr tail]) rows := by
  have hline {line : List UInt8} {row : List (List UInt8)} (hrow : ∀ field ∈ row, NoLineEnds field)
      (h : IsRow csv.sep line row)
      : 13 ∉ line ∧ 10 ∉ line :=
    ⟨h.not_mem (by decide) hsep.2.1.symm fun field hfield => (hrow field hfield).1,
      h.not_mem (by decide) hsep.2.2.symm fun field hfield => (hrow field hfield).2⟩
  induction h with
  | nil => exact ⟨[], [], by simp, by simp, rfl, by simp, .nil⟩
  | @last line row hrow =>
    obtain ⟨hcr, hlf⟩ := hline (hrows row (List.mem_singleton_self row)) hrow
    refine ⟨[], line, by simp, hlf, rfl, by simp, ?_⟩
    rw [if_neg hrow.ne_nil, stripCr_of_not_mem hcr]
    exact .cons hrow .nil
  | @cons line ending rest row rows hrow hending hrest ih =>
    rw [List.forall_mem_cons] at hrows
    obtain ⟨hcr, hlf⟩ := hline hrows.1 hrow
    obtain ⟨ls, tail, hls, htail, rfl, -, hlines⟩ := ih hrows.2
    rcases hending with rfl | rfl
    . refine ⟨line :: ls, tail, List.forall_mem_cons.mpr ⟨hlf, hls⟩, htail, ?_, by simp [hrow.ne_nil], ?_⟩
      . rw [Lines.textOf_cons, List.append_assoc, List.append_assoc]
        rfl
      . rw [List.map_cons, stripCr_of_not_mem hcr]
        exact .cons hrow hlines
    . have hlf' : 10 ∉ line ++ [13] := by simp [hlf]
      refine ⟨(line ++ [13]) :: ls, tail, List.forall_mem_cons.mpr ⟨hlf', hls⟩, htail, ?_, by simp, ?_⟩
      . rw [Lines.textOf_cons, List.append_assoc, List.append_assoc, List.append_assoc]
        rfl
      . rw [List.map_cons, stripCr_concat]
        exact .cons hrow hlines

theorem readRows_eq {data : List (List (List UInt8))} {lines : List (List UInt8)} (hsep : csv.sep ≠ 34)
    (hrows : ∀ row ∈ rows, row ≠ []) (h : List.Forall₂ (IsRow csv.sep) lines rows)
    : csv.readRows lines data false = data ++ rows := by
  induction h generalizing data with
  | nil => rw [List.append_nil]; rfl
  | cons hrow _ ih =>
    rw [List.forall_mem_cons] at hrows
    rw [readRows, if_neg Bool.false_ne_true, ih hrows.2, readLine_eq hsep hrows.1 hrow, List.nil_append,
      List.append_assoc]
    rfl

theorem read_rendering (csv : CSV) (hsep : csv.sep ≠ 34 ∧ csv.sep ≠ 13 ∧ csv.sep ≠ 10)
    (rows : List (List (List UInt8))) (hrows : ∀ row ∈ rows, row ≠ [] ∧ ∀ field ∈ row, NoLineEnds field)
    (text : List UInt8) (htext : IsTable csv.sep text rows)
    : csv.read text [] false = some rows := by
  obtain ⟨ls, tail, hls, htail, hsplit, hhead, hforall⟩ :=
    htext.exists_textOf hsep fun row hrow => (hrows row hrow).2
  unfold read splitLines
  rw [splitLinesLoop_textOf hls htail (text.drop_zero.trans hsplit) (.inr hhead), Option.map_some,
    shown_false, readRows_eq hsep.1 (fun row hrow => (hrows row hrow).1) hforall, List.nil_append]

-- a,"b,""c" and a row of an empty field
theorem read_rendering_quoted
    : read { sep := 44 } [97, 44, 34, 98, 44, 34, 34, 99, 34, 13, 10, 34, 34] [] false
        = some [[[97], [98, 44, 34, 99]], [[]]] := by
  have hfirst : IsRow 44 [97, 44, 34, 98, 44, 34, 34, 99, 34] [[97], [98, 44, 34, 99]] :=
    ⟨⟨[[97], quoted [98, 44, 34, 99]], .cons (.plain (by simp)) (.cons (.quoted _) .nil), rfl⟩, by simp⟩
  have hlast : IsRow 44 [34, 34] [[]] := ⟨⟨[quoted []], .cons (.quoted []) .nil, rfl⟩, by simp⟩
  exact read_rendering { sep := 44 } (by decide) [[[97], [98, 44, 34, 99]], [[]]] (by simp [NoLineEnds])
    [97, 44, 34, 98, 44, 34, 34, 99, 34, 13, 10, 34, 34] (.cons hfirst (Or.inr rfl) (.last hlast))

end Table

end CSV
end Text
end ObTools
