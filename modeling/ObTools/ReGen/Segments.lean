import ObTools.ReGen.Master

/-!
This module contains what a file is made of whose blocks are closed and not nested, and that its lines are
the ones that are read from it.
-/

namespace ObTools
namespace ReGen

open Lines (Bytes IsText Stream textOf)

namespace MarkedFile

variable {marker : Bytes} {file : MarkedFile}

theorem lines_noNewline (fuel : Nat) (hline : 10 ∉ file.line)
    : (∀ l ∈ (file.lines fuel).1, 10 ∉ l) ∧ 10 ∉ (file.lines fuel).2 := by
  induction fuel generalizing file with
  | zero => exact ⟨fun _ hl => absurd hl List.not_mem_nil, hline⟩
  | succ fuel ih =>
    have hgetline := Stream.getline_noNewline file.sin hline
    unfold lines readLine
    by_cases hfail : file.sin.fail = true
    . simp [hfail, hline]
    . rw [if_neg hfail]
      dsimp only
      split
      . next heq =>
        split at heq
        . cases heq
          exact ⟨fun _ hl => absurd hl List.not_mem_nil, hgetline⟩
        . cases heq
      . next heq =>
        split at heq
        . cases heq
        . cases heq
          obtain ⟨hls, hlast⟩ := @ih { file with
            sin := (file.sin.getline file.line).2
            line := (file.sin.getline file.line).1 } hgetline
          exact ⟨List.forall_mem_cons.mpr ⟨hgetline, hls⟩, hlast⟩

theorem allLines_noNewline (text marker : Bytes)
    : (∀ l ∈ (new text marker).allLines.1, 10 ∉ l) ∧ 10 ∉ (new text marker).allLines.2 :=
  lines_noNewline _ List.not_mem_nil

theorem readLine_line {l : Bytes} (hl : 10 ∉ l) (rest line : Bytes)
    : readLine { sin := Stream.new (l ++ 10 :: rest), marker, line }
        = (true, { sin := Stream.new rest, marker, line := l }) := by
  unfold readLine
  rw [if_neg (by simp [Stream.new]), Stream.getline_line hl]
  simp [Stream.new]

theorem lines_textOf {ls : List Bytes} (hls : ∀ l ∈ ls, 10 ∉ l) (fuel : Nat) (rest line : Bytes)
    : lines (fuel + ls.length) { sin := Stream.new (textOf ls ++ rest), marker, line }
        = (ls ++ (lines fuel { sin := Stream.new rest, marker, line := ls.getLastD line }).1,
          (lines fuel { sin := Stream.new rest, marker, line := ls.getLastD line }).2) := by
  induction ls generalizing line with
  | nil => rfl
  | cons l ls ih =>
    rw [List.forall_mem_cons] at hls
    rw [Lines.textOf_cons, List.append_assoc, List.cons_append, List.length_cons, ← Nat.add_assoc, lines,
      readLine_line hls.1]
    dsimp only
    rw [ih hls.2, List.getLastD_cons]
    rfl

theorem lines_nil (fuel : Nat) (line : Bytes)
    : lines (fuel + 1) { sin := Stream.new [], marker, line } = ([], []) := rfl

-- The line at the end of a text is returned a second time, since `getline` leaves it alone then
theorem lines_last {l : Bytes} (hl : 10 ∉ l) (hne : l ≠ []) (fuel : Nat) (line : Bytes)
    : lines (fuel + 3) { sin := Stream.new l, marker, line } = ([l, l], l) := by
  obtain ⟨b, l', rfl⟩ := List.exists_cons_of_ne_nil hne
  have hfirst : readLine { sin := Stream.new (b :: l'), marker, line }
      = (true, { sin := { rest := [], eof := true, fail := false }, marker, line := b :: l' }) := by
    unfold readLine
    rw [if_neg (by simp [Stream.new]), Stream.getline_last hl]
    simp
  rw [lines, hfirst]
  rfl

theorem le_length_textOf (ls : List Bytes) : ls.length ≤ (textOf ls).length := by
  induction ls with
  | nil => exact Nat.le_refl 0
  | cons l ls ih =>
    rw [Lines.textOf_cons, List.length_append, List.length_cons, List.length_cons]
    omega

theorem allLines_textOf {ls : List Bytes} (hls : ∀ l ∈ ls, 10 ∉ l) (marker : Bytes)
    : (new (textOf ls) marker).allLines.1 = ls := by
  obtain ⟨fuel, hfuel⟩ : ∃ fuel, (textOf ls).length + 2 = fuel + 1 + ls.length :=
    ⟨(textOf ls).length + 1 - ls.length, by have := le_length_textOf ls; omega⟩
  have hlines := @lines_textOf marker ls hls (fuel + 1) [] []
  rw [List.append_nil, lines_nil, List.append_nil, ← hfuel] at hlines
  exact congrArg Prod.fst hlines

/--
The lines of a text are the ones that are read from it, where the last one is read twice if it has no end.
-/
theorem allLines_isText {ls : List Bytes} {text : Bytes} (h : IsText ls text) (marker : Bytes)
    : (text = textOf ls ∧ (new text marker).allLines.1 = ls)
        ∨ ∃ l, ls.getLast? = some l ∧ (new text marker).allLines.1 = ls ++ [l] := by
  rcases h.spells with rfl | ⟨l, hlast, hne, htext⟩
  . exact Or.inl ⟨rfl, allLines_textOf h.noNewline marker⟩
  . refine Or.inr ⟨l, hlast, ?_⟩
    obtain ⟨ls', rfl⟩ := List.getLast?_eq_some_iff.mp hlast
    rw [Lines.textOf_append, Lines.textOf_cons, Lines.textOf_nil, ← List.append_assoc,
      List.append_left_inj] at htext
    have hls := List.forall_mem_append.mp h.noNewline
    have hl := hls.2 l List.mem_cons_self
    have hpos := List.length_pos_of_ne_nil hne
    obtain ⟨fuel, hfuel⟩ : ∃ fuel, text.length + 2 = fuel + 3 + ls'.length := by
      refine ⟨text.length - 1 - ls'.length, ?_⟩
      have := le_length_textOf ls'
      rw [← htext, List.length_append]
      omega
    have hlines := @lines_textOf marker ls' hls.1 (fuel + 3) l []
    rw [lines_last hl hne, htext, ← hfuel] at hlines
    rw [allLines, new]
    dsimp only [Stream.new] at hlines ⊢
    rw [hlines, List.append_assoc]
    rfl

end MarkedFile

/-
A cut-out, a block and what else there is in a file.
-/

structure Cutout (marker : Bytes) where
  start : Bytes
  body : List Bytes
  stop : Bytes
  isStart : lineType marker start = .userStart
  isBody : ∀ l ∈ body, lineType marker l = .normal
  isStop : lineType marker stop = .userEnd

structure UserBlock (marker : Bytes) where
  opening : Bytes
  head : List Bytes
  -- Each cut-out with the lines behind it
  cutouts : List (Cutout marker × List Bytes)
  closing : Bytes
  isOpening : lineType marker opening = .open_
  isTag : lineTag marker opening ≠ []
  isHead : ∀ l ∈ head, lineType marker l = .normal
  isBehind : ∀ c ∈ cutouts, ∀ l ∈ c.2, lineType marker l = .normal
  isClosing : lineType marker closing = .close

inductive Segment (marker : Bytes) where
  | line (l : Bytes) (isNormal : lineType marker l = .normal)
  | block (b : UserBlock marker)

variable {marker : Bytes}

namespace Cutout

def lines (c : Cutout marker) : List Bytes := c.start :: (c.body ++ [c.stop])

theorem exists_second (c : Cutout marker)
    : ∃ l ls, c.lines = c.start :: l :: ls ∧ lineType marker l ≠ .userStart := by
  cases hbody : c.body with
  | nil =>
    refine ⟨c.stop, [], ?_, ?_⟩
    . rw [lines, hbody, List.nil_append]
    . rw [c.isStop]
      decide
  | cons l ls =>
    refine ⟨l, ls ++ [c.stop], ?_, ?_⟩
    . rw [lines, hbody, List.cons_append]
    . rw [c.isBody l (hbody ▸ List.mem_cons_self)]
      decide

end Cutout

namespace UserBlock

def tag (b : UserBlock marker) : Bytes := lineTag marker b.opening

def pieces (cutouts : List (Cutout marker × List Bytes)) : List Bytes :=
  cutouts.flatMap fun c => c.1.lines ++ c.2

def lines (b : UserBlock marker) : List Bytes := b.opening :: (b.head ++ pieces b.cutouts ++ [b.closing])

theorem types_of_mem_body {b : UserBlock marker} {l : Bytes}
    (hl : l ∈ b.head ++ pieces b.cutouts)
    : lineType marker l ≠ .open_ ∧ lineType marker l ≠ .close := by
  have hne {t : LineType} (htype : lineType marker l = t) (hopen : t ≠ .open_) (hclose : t ≠ .close)
      : lineType marker l ≠ .open_ ∧ lineType marker l ≠ .close :=
    htype ▸ ⟨hopen, hclose⟩
  rcases List.mem_append.mp hl with hl | hl
  . exact hne (b.isHead l hl) (by decide) (by decide)
  . obtain ⟨c, hc, hl⟩ := List.mem_flatMap.mp hl
    rcases List.mem_append.mp hl with hl | hl
    . rw [Cutout.lines, List.mem_cons, List.mem_append, List.mem_singleton] at hl
      rcases hl with rfl | hl | rfl
      . exact hne c.1.isStart (by decide) (by decide)
      . exact hne (c.1.isBody l hl) (by decide) (by decide)
      . exact hne c.1.isStop (by decide) (by decide)
    . exact hne (b.isBehind c hc l hl) (by decide) (by decide)

end UserBlock

namespace Segment

def lines : Segment marker → List Bytes
  | line l _ => [l]
  | block b => b.lines

-- The lines that are the user's: in a block that is known these are the ones in cut-outs
def preserved (known : Bytes → Bool) : Segment marker → List Bytes
  | line l _ => [l]
  | block b => if known b.tag then b.cutouts.flatMap fun c => c.1.lines else b.lines

theorem last_type {segs : List (Segment marker)} {l : Bytes}
    (hlast : (segs.flatMap lines).getLast? = some l)
    : lineType marker l = .normal ∨ lineType marker l = .close := by
  induction segs with
  | nil => cases hlast
  | cons seg segs ih =>
    rw [List.flatMap_cons, List.getLast?_append, Option.or_eq_some_iff] at hlast
    rcases hlast with hlast | ⟨-, hlast⟩
    . exact ih hlast
    . cases seg with
      | line l' hl =>
        cases hlast
        exact Or.inl hl
      | block b =>
        rw [lines, UserBlock.lines, List.getLast?_cons, List.getLast?_append] at hlast
        cases hlast
        exact Or.inr b.isClosing

end Segment

-- A file with these segments
def IsFile (segs : List (Segment marker)) (text : Bytes) : Prop := IsText (segs.flatMap Segment.lines) text

end ReGen
end ObTools
