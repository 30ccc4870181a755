import ObTools.ReGen.Segments

/-!
This module contains what `merge` does with the parts of a file.
-/

namespace ObTools
namespace ReGen

open Lines (Bytes)

namespace MasterFile

open Merge (notUserStart notUserEnd)

variable {master : MasterFile} {marker : Bytes} {deleteOrphans : Bool} {s : Merge} {l : Bytes}

namespace Merge

-- No block is being merged, and the lines of the user are put out
structure Outside (s : Merge) : Prop where
  b : s.b = none
  useLines : s.useLines = true
  orphan : s.orphan = false

structure Inside (b : Nat) (s : Merge) : Prop where
  b : s.b = some b
  orphan : s.orphan = false

end Merge

/-
One line.
-/

theorem mergeLine_normal (ho : s.orphan = false) (hl : lineType marker l = .normal)
    : master.mergeLine marker deleteOrphans s l = if s.useLines then s.print l else s := by
  simp [mergeLine, ho, hl]

theorem mergeLine_known {b : Nat} (ho : s.orphan = false) (hl : lineType marker l = .open_)
    (htag : lineTag marker l ≠ []) (hfind : master.findBlock (lineTag marker l) = some b)
    : master.mergeLine marker deleteOrphans s l = s.openBlock b := by
  simp [mergeLine, ho, hl, htag, hfind]

theorem mergeLine_unknown (ho : s.orphan = false) (hl : lineType marker l = .open_)
    (htag : lineTag marker l ≠ []) (hfind : master.findBlock (lineTag marker l) = none)
    : master.mergeLine marker false s l = { s.print l with b := none, orphan := true } := by
  simp [mergeLine, ho, hl, htag, hfind]

theorem mergeLine_close (ho : s.orphan = false) (hl : lineType marker l = .close)
    : master.mergeLine marker deleteOrphans s l = s.closeBlock := by
  simp [mergeLine, ho, hl]

theorem mergeLine_userStart (ho : s.orphan = false) (hl : lineType marker l = .userStart)
    : master.mergeLine marker deleteOrphans s l = s.userStart l := by
  simp [mergeLine, ho, hl]

theorem mergeLine_userEnd (ho : s.orphan = false) (hl : lineType marker l = .userEnd)
    : master.mergeLine marker deleteOrphans s l = s.userEnd l := by
  simp [mergeLine, ho, hl]

theorem mergeLine_orphan (ho : s.orphan = true)
    : master.mergeLine marker deleteOrphans s l
        = { s.print l with orphan := lineType marker l ≠ .close } := by
  simp [mergeLine, ho]

theorem closeBlock_outside (hs : s.Outside) : s.closeBlock = s := by
  obtain ⟨out, useLines, b, bp, blocks, orphan⟩ := s
  obtain ⟨hb, huse, -⟩ := hs
  cases hb
  cases huse
  rfl

/-
Lines without a marker, and the lines of an orphan block.
-/

theorem foldl_used {ls : List Bytes} (hls : ∀ l ∈ ls, lineType marker l = .normal)
    (ho : s.orphan = false) (huse : s.useLines = true)
    : ls.foldl (master.mergeLine marker deleteOrphans) s = { s with out := s.out ++ ls } := by
  induction ls generalizing s with
  | nil => rw [List.foldl_nil, List.append_nil]
  | cons l ls ih =>
    rw [List.forall_mem_cons] at hls
    rw [List.foldl_cons, mergeLine_normal ho hls.1, if_pos huse, @ih (s.print l) hls.2 ho huse]
    simp [Merge.print]

theorem foldl_suppressed {ls : List Bytes} (hls : ∀ l ∈ ls, lineType marker l = .normal)
    (ho : s.orphan = false) (huse : s.useLines = false)
    : ls.foldl (master.mergeLine marker deleteOrphans) s = s := by
  induction ls with
  | nil => rfl
  | cons l ls ih =>
    rw [List.forall_mem_cons] at hls
    rw [List.foldl_cons, mergeLine_normal ho hls.1, huse]
    exact ih hls.2

theorem foldl_orphan {ls : List Bytes} (hls : ∀ l ∈ ls, lineType marker l ≠ .close)
    (ho : s.orphan = true)
    : ls.foldl (master.mergeLine marker deleteOrphans) s = { s with out := s.out ++ ls } := by
  induction ls generalizing s with
  | nil => rw [List.foldl_nil, List.append_nil]
  | cons l ls ih =>
    rw [List.forall_mem_cons] at hls
    rw [List.foldl_cons, mergeLine_orphan ho, decide_eq_true hls.1, ih hls.2 rfl]
    simp [Merge.print, ho]

theorem foldl_orphanBlock {b : UserBlock marker} (ho : s.orphan = false)
    (hfind : master.findBlock b.tag = none)
    : b.lines.foldl (master.mergeLine marker false) s = { s with out := s.out ++ b.lines, b := none } := by
  have hbody : ∀ l ∈ b.head ++ UserBlock.pieces b.cutouts, lineType marker l ≠ .close :=
    fun l hl => (UserBlock.types_of_mem_body hl).2
  rw [UserBlock.lines, List.foldl_cons, mergeLine_unknown ho b.isOpening b.isTag hfind, List.foldl_append,
    foldl_orphan hbody rfl, List.foldl_cons, List.foldl_nil, mergeLine_orphan rfl, b.isClosing]
  simp [Merge.print, ho]

/-
Cut-outs in a block of the master.
-/

namespace Merge

-- What is put out of the master behind a cut-out, up to the start of the next one
def behindCutout (bp : List BlockLine) : List BlockLine :=
  let bp := (bp.dropWhile notUserEnd).tail
  bp.takeWhile notUserStart ++ (bp.dropWhile notUserStart).take 1

def nextCutout (bp : List BlockLine) : List BlockLine :=
  (bp.dropWhile notUserEnd).tail.dropWhile notUserStart

end Merge

theorem foldl_cutout {b : Nat} (hs : s.Inside b) (c : Cutout marker)
    : c.lines.foldl (master.mergeLine marker deleteOrphans) s
        = { s with
            out := s.out ++ (c.lines ++ (Merge.behindCutout s.bp).map BlockLine.text)
            bp := Merge.nextCutout s.bp
            useLines := false } := by
  rw [Cutout.lines, List.foldl_cons, mergeLine_userStart hs.orphan c.isStart, Merge.userStart, hs.b]
  dsimp only
  rw [List.foldl_append, foldl_used c.isBody (by simpa [Merge.print] using hs.orphan) rfl,
    List.foldl_cons, List.foldl_nil, mergeLine_userEnd (by simpa [Merge.print] using hs.orphan) c.isStop]
  simp [Merge.userEnd, Merge.print, Merge.printLines, Merge.behindCutout, Merge.nextCutout]

namespace Merge

def texts (ls : List BlockLine) : List Bytes := ls.map BlockLine.text

-- What is put out for the cut-outs of the user, and the lines of the master that are left behind them
def mergedPieces : List (Cutout marker × List Bytes) → List BlockLine → List Bytes × List BlockLine
  | [], bp => ([], bp)
  | c :: cutouts, bp =>
    let (out, bp') := mergedPieces cutouts (nextCutout bp)
    (c.1.lines ++ texts (behindCutout bp) ++ out, bp')

def mergedBlock (ls : List BlockLine) (cutouts : List (Cutout marker × List Bytes)) : List Bytes :=
  let merged := mergedPieces cutouts (ls.dropWhile notUserStart)
  texts (ls.takeWhile notUserStart) ++ merged.1 ++ texts merged.2

def blockLines (blocks : List Block) (b : Nat) : List BlockLine := ((blocks[b]?).map Block.lines).getD []

def markUsed (b : Nat) (blocks : List Block) : List Block :=
  blocks.modify b fun block => { block with used := true }

end Merge

theorem foldl_pieces {b : Nat} {cutouts : List (Cutout marker × List Bytes)} (hs : s.Inside b)
    (huse : s.useLines = false) (hbehind : ∀ c ∈ cutouts, ∀ l ∈ c.2, lineType marker l = .normal)
    : (UserBlock.pieces cutouts).foldl (master.mergeLine marker deleteOrphans) s
        = { s with
            out := s.out ++ (Merge.mergedPieces cutouts s.bp).1
            bp := (Merge.mergedPieces cutouts s.bp).2 } := by
  induction cutouts generalizing s with
  | nil => simp [UserBlock.pieces, Merge.mergedPieces]
  | cons c cutouts ih =>
    rw [List.forall_mem_cons] at hbehind
    have hpieces : UserBlock.pieces (c :: cutouts) = c.1.lines ++ c.2 ++ UserBlock.pieces cutouts :=
      List.flatMap_cons
    rw [hpieces, List.foldl_append, List.foldl_append, foldl_cutout hs, foldl_suppressed hbehind.1,
      ih ⟨?_, ?_⟩ ?_ hbehind.2, Merge.mergedPieces]
    . simp [Merge.texts, huse]
    . exact hs.b
    . exact hs.orphan
    . rfl
    . exact hs.orphan
    . rfl

theorem foldl_knownBlock {b : UserBlock marker} {i : Nat} (hs : s.Outside)
    (hfind : master.findBlock b.tag = some i)
    : b.lines.foldl (master.mergeLine marker deleteOrphans) s
        = { s with
            out := s.out ++ Merge.mergedBlock (Merge.blockLines s.blocks i) b.cutouts
            bp := []
            blocks := Merge.markUsed i s.blocks } := by
  have hinside : (s.openBlock i).Inside i := ⟨rfl, hs.orphan⟩
  rw [UserBlock.lines, List.foldl_cons, mergeLine_known hs.orphan b.isOpening b.isTag hfind,
    List.foldl_append, List.foldl_append, foldl_suppressed b.isHead hinside.orphan rfl,
    foldl_pieces hinside rfl b.isBehind, List.foldl_cons, List.foldl_nil, mergeLine_close ?_ b.isClosing]
  . simp [Merge.closeBlock, Merge.openBlock, Merge.printLines, Merge.mergedBlock, Merge.texts,
      Merge.blockLines, Merge.markUsed, hs.b, hs.useLines]
  . exact hinside.orphan

/-
A whole file.
-/

namespace Merge

-- What is put out for a segment
def mergedSegment (master : MasterFile) (blocks : List Block) : Segment marker → List Bytes
  | .line l _ => [l]
  | .block b =>
    match master.findBlock b.tag with
    | some i => mergedBlock (blockLines blocks i) b.cutouts
    | none => b.lines

def markSegment (master : MasterFile) (blocks : List Block) : Segment marker → List Block
  | .line _ _ => blocks
  | .block b =>
    match master.findBlock b.tag with
    | some i => markUsed i blocks
    | none => blocks

theorem blockLines_markUsed (i j : Nat) (blocks : List Block)
    : blockLines (markUsed i blocks) j = blockLines blocks j := by
  unfold blockLines markUsed
  rw [List.getElem?_modify]
  split
  . cases blocks[j]? <;> rfl
  . cases blocks[j]? <;> rfl

theorem blockLines_markSegment (master : MasterFile) (seg : Segment marker) (blocks : List Block) (j : Nat)
    : blockLines (markSegment master blocks seg) j = blockLines blocks j := by
  unfold markSegment
  split
  . rfl
  . split
    . exact blockLines_markUsed ..
    . rfl

theorem mergedSegment_congr {blocks blocks' : List Block}
    (hblocks : ∀ j, blockLines blocks j = blockLines blocks' j) (seg : Segment marker)
    : mergedSegment master blocks seg = mergedSegment master blocks' seg := by
  unfold mergedSegment
  split
  . rfl
  . split
    . rw [hblocks]
    . rfl

end Merge

theorem foldl_segment (hs : s.Outside) (seg : Segment marker)
    : ∃ bp, seg.lines.foldl (master.mergeLine marker false) s
        = { s with
            out := s.out ++ Merge.mergedSegment master s.blocks seg
            bp
            blocks := Merge.markSegment master s.blocks seg } := by
  cases seg with
  | line l hl =>
    refine ⟨s.bp, ?_⟩
    have hls : ∀ l' ∈ [l], lineType marker l' = .normal := List.forall_mem_singleton.mpr hl
    exact foldl_used hls hs.orphan hs.useLines
  | block b =>
    rw [Segment.lines, Merge.mergedSegment, Merge.markSegment]
    cases hfind : master.findBlock b.tag with
    | none => exact ⟨s.bp, by rw [foldl_orphanBlock hs.orphan hfind, hs.b]⟩
    | some i => exact ⟨[], foldl_knownBlock hs hfind⟩

/--
What is merged from a file is put out segment by segment.
-/
theorem foldl_segments (hs : s.Outside) (segs : List (Segment marker))
    : ∃ bp, (segs.flatMap Segment.lines).foldl (master.mergeLine marker false) s
        = { s with
            out := s.out ++ segs.flatMap (Merge.mergedSegment master s.blocks)
            bp
            blocks := segs.foldl (Merge.markSegment master) s.blocks } := by
  induction segs generalizing s with
  | nil => exact ⟨s.bp, by simp⟩
  | cons seg segs ih =>
    obtain ⟨bp, hseg⟩ := @foldl_segment master marker s hs seg
    rw [List.flatMap_cons, List.foldl_append, hseg]
    have hs' : Merge.Outside { s with
        out := s.out ++ Merge.mergedSegment master s.blocks seg
        bp
        blocks := Merge.markSegment master s.blocks seg } := ⟨hs.b, hs.useLines, hs.orphan⟩
    obtain ⟨bp', hsegs⟩ := ih hs'
    refine ⟨bp', ?_⟩
    have hsame : segs.flatMap (Merge.mergedSegment master (Merge.markSegment master s.blocks seg))
        = segs.flatMap (Merge.mergedSegment master s.blocks) := by
      refine List.flatMap_congr ?_
      intro seg' _
      exact Merge.mergedSegment_congr (Merge.blockLines_markSegment master seg s.blocks) seg'
    rw [hsegs, hsame, List.flatMap_cons, List.foldl_cons, List.append_assoc]

end MasterFile

end ReGen
end ObTools
