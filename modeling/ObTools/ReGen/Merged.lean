import Mathlib.Data.List.Nodup
import ObTools.ReGen.MergeLemmas
import ObTools.ReGen.Preserve

/-!
This module contains what the blocks are of a master file that is well formed, and what is put out for a block that the
master has, cut-out by cut-out.
-/

namespace ObTools
namespace ReGen

open Lines (Bytes IsText textOf)

variable {marker : Bytes}

def typed (marker l : Bytes) : BlockLine := { type := lineType marker l, text := l }

namespace UserBlock

def blockLines (b : UserBlock marker) : List BlockLine := b.lines.map (typed marker)

def toBlock (b : UserBlock marker) : Block := { used := false, lines := b.blockLines }

end UserBlock

namespace Segment

def blocks (segs : List (Segment marker)) : List (UserBlock marker) :=
  segs.filterMap fun
    | line _ _ => none
    | block b => some b

theorem mem_blocks {segs : List (Segment marker)} {b : UserBlock marker} : b ∈ blocks segs ↔ block b ∈ segs := by
  rw [blocks, List.mem_filterMap]
  refine ⟨?_, fun hb => ⟨block b, hb, rfl⟩⟩
  rintro ⟨seg, hseg, heq⟩
  cases seg with
  | line l hl => cases heq
  | block b' =>
    cases heq
    exact hseg

end Segment

namespace MasterFile

/-
The constructor.
-/

theorem scanLine_outside {sc : Scan} {l : Bytes} (hcurrent : sc.currentBlock = none)
    (hl : lineType marker l ≠ .open_)
    : scanLine marker sc l = sc := by
  obtain ⟨blocks, blockmap, currentBlock⟩ := sc
  cases hcurrent
  simp [scanLine, hl]

theorem modify_length {α : Type} (as : List α) (a : α) (f : α → α)
    : (as ++ [a]).modify as.length f = as ++ [f a] := by
  induction as with
  | nil => rfl
  | cons a' as ih => rw [List.cons_append, List.length_cons, List.modify_succ_cons, ih, List.cons_append]

-- The lines of a block are added to the last one
theorem scan_inside {bs : List Block} {b : Block} {blockmap : List (Bytes × Nat)} {ls : List Bytes}
    (hopen : ∀ l ∈ ls, lineType marker l ≠ .open_) (hclose : ∀ l ∈ ls, lineType marker l ≠ .close)
    : ls.foldl (scanLine marker) { blocks := bs ++ [b], blockmap, currentBlock := some bs.length }
        = { blocks := bs ++ [{ b with lines := b.lines ++ ls.map (typed marker) }]
            blockmap
            currentBlock := some bs.length } := by
  induction ls generalizing b with
  | nil => rw [List.foldl_nil, List.map_nil, List.append_nil]
  | cons l ls ih =>
    rw [List.forall_mem_cons] at hopen hclose
    have hline : scanLine marker { blocks := bs ++ [b], blockmap, currentBlock := some bs.length } l
        = { blocks := bs ++ [{ b with lines := b.lines ++ [typed marker l] }]
            blockmap
            currentBlock := some bs.length } := by
      simp [scanLine, hopen.1, hclose.1, modify_length, Block.addLine, typed]
    rw [List.foldl_cons, hline, ih hopen.2 hclose.2, List.append_assoc]
    rfl

theorem scan_block (sc : Scan) (b : UserBlock marker)
    : b.lines.foldl (scanLine marker) sc
        = { blocks := sc.blocks ++ [b.toBlock]
            blockmap := (b.tag, sc.blocks.length) :: sc.blockmap
            currentBlock := none } := by
  have hopening : scanLine marker sc b.opening
      = { blocks := sc.blocks ++ [{ used := false, lines := [typed marker b.opening] }]
          blockmap := (b.tag, sc.blocks.length) :: sc.blockmap
          currentBlock := some sc.blocks.length } := by
    simp [scanLine, b.isOpening, b.isTag, modify_length, Block.addLine, typed, UserBlock.tag]
  rw [UserBlock.lines, List.foldl_cons, hopening, List.foldl_append,
    scan_inside (fun l hl => (UserBlock.types_of_mem_body hl).1) fun l hl => (UserBlock.types_of_mem_body hl).2,
    List.foldl_cons, List.foldl_nil]
  simp [scanLine, b.isClosing, modify_length, Block.addLine, UserBlock.toBlock, UserBlock.blockLines,
    UserBlock.lines, typed]

-- The entries for some blocks, the last one first
def tagsOf (n : Nat) : List (UserBlock marker) → List (Bytes × Nat)
  | [] => []
  | b :: bs => tagsOf (n + 1) bs ++ [(b.tag, n)]

theorem scan_segments {sc : Scan} (hcurrent : sc.currentBlock = none) (segs : List (Segment marker))
    : (segs.flatMap Segment.lines).foldl (scanLine marker) sc
        = { blocks := sc.blocks ++ (Segment.blocks segs).map UserBlock.toBlock
            blockmap := tagsOf sc.blocks.length (Segment.blocks segs) ++ sc.blockmap
            currentBlock := none } := by
  induction segs generalizing sc with
  | nil =>
    rw [← hcurrent]
    simp [Segment.blocks, tagsOf]
  | cons seg segs ih =>
    rw [List.flatMap_cons, List.foldl_append]
    cases seg with
    | line l hl =>
      have hline : scanLine marker sc l = sc := scanLine_outside hcurrent (by rw [hl]; decide)
      rw [Segment.lines, List.foldl_cons, List.foldl_nil, hline, ih hcurrent]
      rfl
    | block b =>
      rw [Segment.lines, scan_block, ih rfl]
      simp [Segment.blocks, tagsOf]

theorem new_isFile {segs : List (Segment marker)} {text : Bytes} (hfile : IsFile segs text)
    : new text marker
        = { blocks := (Segment.blocks segs).map UserBlock.toBlock
            blockmap := tagsOf 0 (Segment.blocks segs) } := by
  have hscan := @scan_segments marker { blocks := [], blockmap := [], currentBlock := none } rfl segs
  simp only [List.nil_append, List.append_nil, List.length_nil] at hscan
  unfold new
  rcases MarkedFile.allLines_isText hfile marker with ⟨-, hlines⟩ | ⟨l, hlast, hlines⟩
  . rw [hlines, hscan]
  . have hl : lineType marker l ≠ .open_ := by
      rcases Segment.last_type hlast with htype | htype <;> rw [htype] <;> decide
    rw [hlines, List.foldl_append, hscan, List.foldl_cons, List.foldl_nil, scanLine_outside rfl hl]

theorem mem_tagsOf {bs : List (UserBlock marker)} {n i : Nat} {tag : Bytes}
    : (tag, i) ∈ tagsOf n bs ↔ ∃ j b, i = n + j ∧ bs[j]? = some b ∧ b.tag = tag := by
  induction bs generalizing n with
  | nil => simp [tagsOf]
  | cons b bs ih =>
    rw [tagsOf, List.mem_append, ih, List.mem_singleton, Prod.mk.injEq]
    refine ⟨?_, ?_⟩
    . rintro (⟨j, b', rfl, hb, htag⟩ | ⟨rfl, rfl⟩)
      . exact ⟨j + 1, b', by omega, by rw [List.getElem?_cons_succ, hb], htag⟩
      . exact ⟨0, b, rfl, rfl, rfl⟩
    . rintro ⟨j, b', rfl, hb, htag⟩
      cases j with
      | zero =>
        cases hb
        exact Or.inr ⟨htag.symm, rfl⟩
      | succ j =>
        rw [List.getElem?_cons_succ] at hb
        exact Or.inl ⟨j, b', by omega, hb, htag⟩

-- The blocks of a master file, all of which have different tags
structure IsMaster (segs : List (Segment marker)) (text : Bytes) : Prop where
  isFile : IsFile segs text
  distinct : ((Segment.blocks segs).map UserBlock.tag).Nodup

section Known

variable {segs : List (Segment marker)} {text : Bytes} (hmaster : IsMaster segs text)
include hmaster

/--
A block is found by its tag, if there is one.
-/
theorem findBlock_cases (tag : Bytes)
    : (∃ i b, (new text marker).findBlock tag = some i ∧ (Segment.blocks segs)[i]? = some b
          ∧ b.tag = tag)
        ∨ ((new text marker).findBlock tag = none ∧ ∀ b ∈ Segment.blocks segs, b.tag ≠ tag) := by
  rw [new_isFile hmaster.isFile, findBlock]
  dsimp only
  cases hlookup : (tagsOf 0 (Segment.blocks segs)).lookup tag with
  | none =>
    refine Or.inr ⟨rfl, ?_⟩
    intro b hb htag
    obtain ⟨i, hi⟩ := List.getElem?_of_mem hb
    have hmem : (tag, i) ∈ tagsOf 0 (Segment.blocks segs) :=
      mem_tagsOf.mpr ⟨i, b, (Nat.zero_add i).symm, hi, htag⟩
    have hne := List.lookup_eq_none_iff.mp hlookup _ hmem
    simp at hne
  | some i =>
    obtain ⟨before, behind, heq, -⟩ := List.lookup_eq_some_iff.mp hlookup
    have hmem : (tag, i) ∈ tagsOf 0 (Segment.blocks segs) := by
      rw [heq]
      exact List.mem_append_right _ List.mem_cons_self
    obtain ⟨j, b, hj, hb, htag⟩ := mem_tagsOf.mp hmem
    rw [Nat.zero_add] at hj
    exact Or.inl ⟨i, b, rfl, hj ▸ hb, htag⟩

theorem findBlock_tag {i : Nat} {b : UserBlock marker} (hb : (Segment.blocks segs)[i]? = some b)
    : (new text marker).findBlock b.tag = some i := by
  rcases findBlock_cases hmaster b.tag with ⟨j, b', hfind, hb', htag⟩ | ⟨-, hne⟩
  . rw [hfind]
    -- There is only one block of this tag
    have hi : ((Segment.blocks segs).map UserBlock.tag)[i]? = some b.tag := by
      rw [List.getElem?_map, hb]
      rfl
    have hj : ((Segment.blocks segs).map UserBlock.tag)[j]? = some b.tag := by
      rw [List.getElem?_map, hb']
      exact congrArg some htag
    rw [(List.getElem?_inj (List.getElem?_eq_some_iff.mp hj).1 hmaster.distinct).mp (hj.trans hi.symm)]
  . exact absurd rfl (hne b (List.mem_of_getElem? hb))

theorem blockLines_new {i : Nat} {b : UserBlock marker} (hb : (Segment.blocks segs)[i]? = some b)
    : Merge.blockLines (new text marker).blocks i = b.blockLines := by
  rw [new_isFile hmaster.isFile, Merge.blockLines, List.getElem?_map, hb]
  rfl

end Known

end MasterFile

end ReGen
end ObTools

namespace ObTools
namespace ReGen

open Lines (Bytes IsText textOf)

namespace MasterFile

open Merge (notUserStart notUserEnd behindCutout nextCutout mergedPieces mergedBlock texts)

variable {marker : Bytes}

theorem texts_typed (ls : List Bytes) : texts (ls.map (typed marker)) = ls := by
  rw [texts, List.map_map]
  exact List.map_id ls

theorem texts_append (ls ls' : List BlockLine) : texts (ls ++ ls') = texts ls ++ texts ls' :=
  List.map_append

/-
Where lines of the master are skipped and where they are put out.
-/

theorem notUserStart_of_normal {ls : List Bytes} (hls : ∀ l ∈ ls, lineType marker l = .normal)
    : ∀ bl ∈ ls.map (typed marker), notUserStart bl = true := by
  rw [List.forall_mem_map]
  intro l hl
  simp [notUserStart, typed, hls l hl]

theorem notUserEnd_of_normal {ls : List Bytes} (hls : ∀ l ∈ ls, lineType marker l = .normal)
    : ∀ bl ∈ ls.map (typed marker), notUserEnd bl = true := by
  rw [List.forall_mem_map]
  intro l hl
  simp [notUserEnd, typed, hls l hl]

-- The lines of the master from its next cut-out on, if there is one
def bpOf (closing : Bytes) : List (Cutout marker × List Bytes) → List BlockLine
  | [] => []
  | m :: ms => (UserBlock.pieces (m :: ms) ++ [closing]).map (typed marker)

theorem bpOf_cons (closing : Bytes) (m : Cutout marker × List Bytes) (ms : List (Cutout marker × List Bytes))
    : bpOf closing (m :: ms) = typed marker m.1.start :: (m.1.body.map (typed marker)
        ++ typed marker m.1.stop :: ((m.2 ++ (UserBlock.pieces ms ++ [closing])).map (typed marker))) := by
  simp [bpOf, UserBlock.pieces, Cutout.lines]

theorem skip_cutout (closing : Bytes) (m : Cutout marker × List Bytes)
    (ms : List (Cutout marker × List Bytes))
    : ((bpOf closing (m :: ms)).dropWhile notUserEnd).tail
        = (m.2 ++ (UserBlock.pieces ms ++ [closing])).map (typed marker) := by
  have hstart : notUserEnd (typed marker m.1.start) = true := by
    simp [notUserEnd, typed, m.1.isStart]
  have hstop : ¬notUserEnd (typed marker m.1.stop) = true := by
    simp [notUserEnd, typed, m.1.isStop]
  rw [bpOf_cons, List.dropWhile_cons_of_pos hstart,
    List.dropWhile_append_of_pos (notUserEnd_of_normal m.1.isBody), List.dropWhile_cons_of_neg hstop,
    List.tail_cons]

-- What is put out behind a cut-out of the user, when the master is at the given cut-outs
def behind (closing : Bytes) : List (Cutout marker × List Bytes) → List Bytes
  | [] => []
  | [m] => m.2 ++ [closing]
  | m :: m' :: _ => m.2 ++ [m'.1.start]

section Parts

variable {closing : Bytes} (hclosing : lineType marker closing = .close)
include hclosing

theorem notUserStart_closing : notUserStart (typed marker closing) = true := by
  simp [notUserStart, typed, hclosing]

theorem parts_of_pieces {ls : List Bytes} (hls : ∀ l ∈ ls, lineType marker l = .normal)
    (ms : List (Cutout marker × List Bytes))
    : ((ls ++ (UserBlock.pieces ms ++ [closing])).map (typed marker)).dropWhile notUserStart
          = bpOf closing ms
        ∧ ((ls ++ (UserBlock.pieces ms ++ [closing])).map (typed marker)).takeWhile notUserStart
          = (ls ++ if ms = [] then [closing] else []).map (typed marker) := by
  have hnormal := notUserStart_of_normal hls
  rw [List.map_append, List.dropWhile_append_of_pos hnormal, List.takeWhile_append_of_pos hnormal]
  cases ms with
  | nil =>
    have hstart := notUserStart_closing hclosing
    simp [UserBlock.pieces, bpOf, hstart]
  | cons m ms =>
    have hstart : ¬notUserStart (typed marker m.1.start) = true := by
      simp [notUserStart, typed, m.1.isStart]
    have hpieces := bpOf_cons closing m ms
    rw [bpOf] at hpieces
    rw [hpieces, List.dropWhile_cons_of_neg hstart, List.takeWhile_cons_of_neg hstart, bpOf, hpieces]
    simp

theorem behindCutout_bpOf {ms : List (Cutout marker × List Bytes)}
    (hms : ∀ m ∈ ms, ∀ l ∈ m.2, lineType marker l = .normal)
    : texts (behindCutout (bpOf closing ms)) = behind closing ms
        ∧ nextCutout (bpOf closing ms) = bpOf closing ms.tail := by
  cases ms with
  | nil => exact ⟨rfl, rfl⟩
  | cons m ms =>
    rw [List.forall_mem_cons] at hms
    obtain ⟨hdrop, htake⟩ := parts_of_pieces hclosing hms.1 ms
    unfold behindCutout nextCutout
    dsimp only
    rw [skip_cutout, hdrop, htake, texts_append, texts_typed]
    refine ⟨?_, rfl⟩
    cases ms with
    | nil => simp [bpOf, behind, texts]
    | cons m' ms =>
      rw [bpOf_cons]
      simp [behind, texts, typed]

end Parts

-- What is put out for the cut-outs of the user and then at the end of the block
def outPieces (closing : Bytes)
    : List (Cutout marker × List Bytes) → List (Cutout marker × List Bytes) → List Bytes
  | [], [] => []
  | [], m :: ms => UserBlock.pieces (m :: ms) ++ [closing]
  | u :: us, ms => u.1.lines ++ behind closing ms ++ outPieces closing us ms.tail

theorem mergedPieces_bpOf {closing : Bytes} (hclosing : lineType marker closing = .close)
    (us : List (Cutout marker × List Bytes)) {ms : List (Cutout marker × List Bytes)}
    (hms : ∀ m ∈ ms, ∀ l ∈ m.2, lineType marker l = .normal)
    : (mergedPieces us (bpOf closing ms)).1 ++ texts (mergedPieces us (bpOf closing ms)).2
        = outPieces closing us ms := by
  induction us generalizing ms with
  | nil =>
    rw [mergedPieces]
    cases ms with
    | nil => rfl
    | cons m ms =>
      rw [bpOf, texts_typed, outPieces]
      rfl
  | cons u us ih =>
    obtain ⟨hbehind, hnext⟩ := behindCutout_bpOf hclosing hms
    have htail : ∀ m ∈ ms.tail, ∀ l ∈ m.2, lineType marker l = .normal :=
      fun m hm => hms m (List.mem_of_mem_tail hm)
    rw [mergedPieces, outPieces, hnext, hbehind]
    dsimp only
    rw [List.append_assoc, ih htail]

/--
A block of the master is put out with the cut-outs of the user.
-/
theorem mergedBlock_blockLines (b : UserBlock marker) (us : List (Cutout marker × List Bytes))
    : mergedBlock b.blockLines us
        = b.opening :: b.head ++ (if b.cutouts = [] then [b.closing] else [])
          ++ outPieces b.closing us b.cutouts := by
  have hopening : notUserStart (typed marker b.opening) = true := by
    simp [notUserStart, typed, b.isOpening]
  have hlines : b.blockLines = typed marker b.opening
      :: (b.head ++ (UserBlock.pieces b.cutouts ++ [b.closing])).map (typed marker) := by
    rw [UserBlock.blockLines, UserBlock.lines, List.map_cons, List.append_assoc]
  obtain ⟨hdrop, htake⟩ := parts_of_pieces b.isClosing b.isHead b.cutouts
  unfold mergedBlock
  dsimp only
  rw [hlines, List.dropWhile_cons_of_pos hopening, List.takeWhile_cons_of_pos hopening, hdrop, htake,
    List.append_assoc, mergedPieces_bpOf b.isClosing us b.isBehind, texts, List.map_cons]
  have htexts := @texts_typed marker (b.head ++ if b.cutouts = [] then [b.closing] else [])
  rw [texts] at htexts
  rw [htexts]
  simp [typed]

end MasterFile

end ReGen
end ObTools
