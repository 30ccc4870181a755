import ObTools.ReGen.MergeLemmas

/-!
This module contains the model of `ReGen::regenbuf`, which merges what has been written to a stream with the file that
is there when the stream is closed, and the proof that it does so for the default marker only.
-/

namespace ObTools
namespace ReGen

open Lines (Bytes textOf)

-- `//~`
def defaultMarker : Bytes := [47, 47, 126]

-- The text of the file is passed to `close`
structure Regenbuf where
  closed : Bool
  marker : Bytes
  flags : Nat
  buffer : Bytes
deriving DecidableEq, Repr

namespace Regenbuf

def new (marker : Bytes) (flags : Nat) : Regenbuf := { closed := false, marker, flags, buffer := [] }

-- Handles characters one at a time
def overflow (b : Regenbuf) (c : UInt8) : Regenbuf := { b with buffer := b.buffer ++ [c] }

-- Returns what the new file is made of, if there is one
def close (userfile : Option Bytes) (b : Regenbuf) : Option Bytes × Regenbuf :=
  -- Avoid doing this more than once
  if b.closed then
    (none, b)
  else
    let outfile :=
      match userfile with
      -- If userfile not readable, just spool buffer straight out
      | none => b.buffer
      -- Merge with existing
      | some user => ((MasterFile.new b.buffer b.marker).merge (MarkedFile.new user defaultMarker) b.flags).1
    (some outfile, { b with closed := true })

-- A stream that is opened, written to and closed
def regenerates (marker : Bytes) (flags : Nat) (userfile : Option Bytes) (text : Bytes) : Option Bytes :=
  ((text.foldl overflow (new marker flags)).close userfile).1

theorem foldl_overflow (b : Regenbuf) (text : Bytes) : text.foldl overflow b = { b with buffer := b.buffer ++ text } := by
  induction text generalizing b with
  | nil => simp
  | cons c text ih =>
    rw [List.foldl_cons, ih]
    simp [overflow]

theorem regenerates_some (marker : Bytes) (flags : Nat) (user text : Bytes)
    : regenerates marker flags (some user) text
        = some ((MasterFile.new text marker).merge (MarkedFile.new user defaultMarker) flags).1 := by
  unfold regenerates
  rw [foldl_overflow]
  rfl

end Regenbuf

/-
The marker and what is behind it.
-/

-- What the character behind a marker makes of a line
def markedAs : Option UInt8 → LineType
  | none => .normal
  | some c =>
    if c = 91 then .open_
    else if c = 93 then .close
    else if c = 94 then .userStart
    else if c = 118 then .userEnd
    else .normal

def markedType (marker text : Bytes) : LineType :=
  match find marker text with
  | none => .normal
  | some pos => markedAs text[pos + marker.length]?

section Find

variable {marker line : Bytes}

theorem lineType_none (h : find marker line = none) : lineType marker line = .normal := by
  unfold lineType
  rw [h]

theorem lineType_some {text : Bytes} {pos : Nat} (h : find marker text = some pos)
    : lineType marker text = markedAs text[pos + 3]? := by
  unfold lineType
  rw [h, ← List.head?_drop]
  dsimp only
  cases text.drop (pos + 3) with
  | nil => rfl
  | cons c rest => rfl

theorem find_append (marker rest : Bytes) : find marker (marker ++ rest) = some 0 := by
  cases hline : marker ++ rest with
  | nil =>
    unfold find
    rw [if_pos (List.append_eq_nil_iff.mp hline).1]
  | cons c line =>
    unfold find
    rw [if_pos]
    rw [← hline]
    simp

theorem find_eq_none_iff : find marker line = none ↔ ¬marker <:+: line := by
  induction line with
  | nil => simp [find]
  | cons c line ih =>
    unfold find
    rw [List.infix_cons_iff, not_or, ← ih]
    by_cases hmarker : marker <+: c :: line
    . simp [hmarker]
    . simp [hmarker]

end Find

namespace MasterFile

section Single

variable {marker marker' line : Bytes} {flags : Nat} (hline : 10 ∉ line)

include hline

/-
A file of one line that is merged with nothing.
-/

theorem merge_single {s : Merge} (horphan : s.orphan = false) (hblocks : s.blocks = [])
    (hmerge : (new [] marker).mergeLine marker' (flags &&& deleteOrphansFlag ≠ 0)
      { out := [], useLines := true, b := none, bp := [], blocks := [], orphan := false } line = s)
    : ((new [] marker).merge (MarkedFile.new (textOf [line]) marker') flags).1 = textOf s.out := by
  have hlines := MarkedFile.allLines_textOf (List.forall_mem_singleton.mpr hline) marker'
  have hblocks' : (new [] marker).blocks = [] := rfl
  unfold merge
  dsimp only
  rw [hlines, List.foldl_cons, List.foldl_nil, hblocks', MarkedFile.new, hmerge, horphan, if_neg Bool.false_ne_true,
    hblocks]
  split
  . rw [unusedLines, List.flatMap_nil, List.append_nil]
  . rfl

theorem merge_normal (h : lineType marker' line = .normal)
    : ((new [] marker).merge (MarkedFile.new (textOf [line]) marker') flags).1 = textOf [line] :=
  merge_single hline rfl rfl (mergeLine_normal rfl h)

theorem merge_close (h : lineType marker' line = .close)
    : ((new [] marker).merge (MarkedFile.new (textOf [line]) marker') flags).1 = [] :=
  merge_single hline rfl rfl (mergeLine_close rfl h)

theorem merge_userStart (h : lineType marker' line = .userStart)
    : ((new [] marker).merge (MarkedFile.new (textOf [line]) marker') flags).1 = [] :=
  merge_single hline rfl rfl (mergeLine_userStart rfl h)

end Single

end MasterFile

/-
What a stream makes of its marker.
-/

-- A stream that is opened with the marker writes what the merge with the marker gives
def Writes (marker : Bytes) : Prop :=
  ∀ flags user text, Regenbuf.regenerates marker flags (some user) text
    = some ((MasterFile.new text marker).merge (MarkedFile.new user marker) flags).1

structure Honours (marker : Bytes) : Prop where
  writes : Writes marker
  classifies : ∀ line, lineType marker line = markedType marker line

theorem lineType_eq_markedType {marker : Bytes} (hmarker : marker.length = 3) (line : Bytes)
    : lineType marker line = markedType marker line := by
  unfold markedType
  cases h : find marker line with
  | none => exact lineType_none h
  | some pos =>
    rw [lineType_some h]
    dsimp only
    rw [hmarker]

section Writes

variable {marker : Bytes}

-- The two merges of a file of one line, which the stream has to make the same of
theorem Writes.merge_eq (h : Writes marker) (line : Bytes)
    : ((MasterFile.new [] marker).merge (MarkedFile.new (textOf [line]) defaultMarker) 0).1
        = ((MasterFile.new [] marker).merge (MarkedFile.new (textOf [line]) marker) 0).1 := by
  have hwrites := h 0 (textOf [line]) []
  rw [Regenbuf.regenerates_some] at hwrites
  exact Option.some.inj hwrites

theorem textOf_single_ne_nil (line : Bytes) : textOf [line] ≠ [] := by
  rw [Lines.textOf_cons]
  simp

-- A line that is marked at its start, with the character where `line_type` looks for it
def shortLine (marker : Bytes) : Bytes := marker ++ List.replicate (3 - marker.length) 120 ++ [93]

theorem shortLine_close (hlength : marker.length ≤ 3) : lineType marker (shortLine marker) = .close := by
  have hpos : (marker ++ List.replicate (3 - marker.length) 120).length = 0 + 3 := by
    rw [List.length_append, List.length_replicate]
    omega
  have hfind : find marker (shortLine marker) = some 0 := by
    unfold shortLine
    rw [List.append_assoc]
    exact find_append marker _
  rw [lineType_some hfind, shortLine, ← hpos, List.getElem?_concat_length]
  rfl

theorem shortLine_normal (hlength : marker.length ≤ 3) (hne : marker ≠ defaultMarker)
    : lineType defaultMarker (shortLine marker) = .normal := by
  refine lineType_none (find_eq_none_iff.mpr ?_)
  rintro ⟨before, after, hline⟩
  unfold shortLine at hline
  rcases List.eq_nil_or_concat after with rfl | ⟨after', c, rfl⟩
  . -- The default marker does not end in the last character
    have hlast := congrArg List.getLast? hline
    rw [List.append_nil, List.getLast?_append, List.getLast?_concat] at hlast
    have hlast : some (126 : UInt8) = some 93 := hlast
    exact absurd hlast (by decide)
  . rw [List.concat_eq_append, ← List.append_assoc] at hline
    have hinit := (List.append_inj' hline rfl).1
    have hlengths := congrArg List.length hinit
    simp only [List.length_append, List.length_replicate] at hlengths
    have hthree : defaultMarker.length = 3 := rfl
    have hbefore : before = [] := List.eq_nil_of_length_eq_zero (by omega)
    have hafter : after' = [] := List.eq_nil_of_length_eq_zero (by omega)
    rw [hbefore, hafter, List.nil_append, List.append_nil] at hinit
    cases hpad : 3 - marker.length with
    | zero =>
      rw [hpad, List.replicate_zero, List.append_nil] at hinit
      exact hne hinit.symm
    | succ pad =>
      -- nor does it end in the padding
      have hlast := congrArg List.getLast? hinit
      rw [hpad, List.replicate_succ', ← List.append_assoc, List.getLast?_concat] at hlast
      exact absurd hlast (by decide)

theorem Writes.not_short (h : Writes marker) (hne : marker ≠ defaultMarker) (hmarker : 10 ∉ marker)
    : ¬marker.length ≤ 3 := by
  intro hlength
  have hline : 10 ∉ shortLine marker := by
    unfold shortLine
    simp [hmarker]
  have heq := h.merge_eq (shortLine marker)
  rw [MasterFile.merge_normal hline (shortLine_normal hlength hne),
    MasterFile.merge_close hline (shortLine_close hlength)] at heq
  exact textOf_single_ne_nil _ heq

-- A marker that is found in one line of four characters is not found in another one
theorem find_long (hmarker : 3 < marker.length ∨ 10 ∈ marker) {line : Bytes} (hline : 10 ∉ line)
    (hlength : line.length = 4) (hne : marker ≠ line)
    : find marker line = none := by
  refine find_eq_none_iff.mpr ?_
  intro hpart
  rcases hmarker with hlong | hmem
  . have hle := hpart.length_le
    exact hne (hpart.eq_of_length (by omega))
  . exact hline (hpart.subset hmem)

theorem Writes.not_long (h : Writes marker) : ¬(3 < marker.length ∨ 10 ∈ marker) := by
  intro hmarker
  have hclose : lineType defaultMarker (defaultMarker ++ [93]) = .close := by decide
  have hstart : lineType defaultMarker (defaultMarker ++ [94]) = .userStart := by decide
  by_cases hne : marker = defaultMarker ++ [93]
  . have hother : marker ≠ defaultMarker ++ [94] := by
      rw [hne]
      decide
    have hline : (10 : UInt8) ∉ defaultMarker ++ [94] := by decide
    have heq := h.merge_eq (defaultMarker ++ [94])
    rw [MasterFile.merge_userStart hline hstart,
      MasterFile.merge_normal hline (lineType_none (find_long hmarker hline rfl hother))] at heq
    exact textOf_single_ne_nil _ heq.symm
  . have hline : (10 : UInt8) ∉ defaultMarker ++ [93] := by decide
    have heq := h.merge_eq (defaultMarker ++ [93])
    rw [MasterFile.merge_close hline hclose,
      MasterFile.merge_normal hline (lineType_none (find_long hmarker hline rfl hne))] at heq
    exact textOf_single_ne_nil _ heq.symm

end Writes

/--
The default marker is the only one that a stream honours.
-/
theorem honours_iff (marker : Bytes) : Honours marker ↔ marker = defaultMarker := by
  constructor
  . intro h
    by_contra hne
    have hlong := h.writes.not_long
    rw [not_or] at hlong
    exact h.writes.not_short hne hlong.2 (Nat.le_of_not_lt hlong.1)
  . rintro rfl
    exact ⟨fun flags user text => Regenbuf.regenerates_some _ flags user text, lineType_eq_markedType rfl⟩

-- The block `m` with a cut-out, for the marker `##~`
def hashFile (text : UInt8) : Bytes :=
  textOf [[35, 35, 126, 91, 32, 109, 109], [35, 35, 126, 94], [text], [35, 35, 126, 118], [35, 35, 126, 93]]

-- The user's text is kept, but the whole block is put out once more with the default one.
theorem not_honours
    : Regenbuf.regenerates [35, 35, 126] 0 (some (hashFile 85)) (hashFile 77) = some (hashFile 85 ++ 10 :: hashFile 77)
        ∧ ((MasterFile.new (hashFile 77) [35, 35, 126]).merge (MarkedFile.new (hashFile 85) [35, 35, 126]) 0).1 = hashFile 85
        ∧ ¬∀ marker : Bytes, marker ≠ [] → Honours marker := by
  have hcode : Regenbuf.regenerates [35, 35, 126] 0 (some (hashFile 85)) (hashFile 77)
      = some (hashFile 85 ++ 10 :: hashFile 77) := by decide
  have hwanted : ((MasterFile.new (hashFile 77) [35, 35, 126]).merge (MarkedFile.new (hashFile 85) [35, 35, 126]) 0).1
      = hashFile 85 := by decide
  refine ⟨hcode, hwanted, ?_⟩
  intro h
  have hwrites := (h [35, 35, 126] (List.cons_ne_nil _ _)).writes 0 (hashFile 85) (hashFile 77)
  rw [hcode, hwanted] at hwrites
  exact absurd hwrites (by decide)

end ReGen
end ObTools
