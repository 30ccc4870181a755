import ObTools.ReGen.MergeLemmas

/-!
This module contains the proof that no line that is the user's is lost in a merge.
-/

namespace ObTools
namespace ReGen

open Lines (Bytes IsText textOf)

namespace MasterFile

open Merge (notUserStart notUserEnd mergedPieces mergedBlock mergedSegment blockLines texts)

variable {master : MasterFile} {marker : Bytes} {deleteOrphans : Bool} {s : Merge} {l : Bytes}

/-
There are no ends of lines in what is put out.
-/

namespace Block

def NoNewline (b : Block) : Prop := ∀ bl ∈ b.lines, 10 ∉ bl.text

end Block

structure Merge.NoNewline (s : Merge) : Prop where
  out : ∀ l ∈ s.out, 10 ∉ l
  bp : ∀ bl ∈ s.bp, 10 ∉ bl.text
  blocks : ∀ b ∈ s.blocks, Block.NoNewline b

theorem forall_mem_modify {α : Type} {P : α → Prop} {f : α → α} {as : List α} (has : ∀ a ∈ as, P a)
    (hf : ∀ a, P a → P (f a)) (i : Nat)
    : ∀ a ∈ as.modify i f, P a := by
  intro a ha
  obtain ⟨j, hj, rfl⟩ := List.getElem_of_mem ha
  rw [List.length_modify] at hj
  rw [List.getElem_modify]
  split
  . exact hf _ (has _ (List.getElem_mem hj))
  . exact has _ (List.getElem_mem hj)

theorem scanLine_noNewline {sc : Scan} (hl : 10 ∉ l) (hblocks : ∀ b ∈ sc.blocks, Block.NoNewline b)
    : ∀ b ∈ (scanLine marker sc l).blocks, Block.NoNewline b := by
  have hadd (b : Block) (hb : Block.NoNewline b) : Block.NoNewline (b.addLine (lineType marker l) l) := by
    unfold Block.NoNewline Block.addLine
    rw [List.forall_mem_append, List.forall_mem_singleton]
    exact ⟨hb, hl⟩
  have hopened : ∀ b ∈ sc.blocks ++ [{ used := false, lines := [] }], Block.NoNewline b := by
    rw [List.forall_mem_append, List.forall_mem_singleton]
    exact ⟨hblocks, fun _ hbl => absurd hbl List.not_mem_nil⟩
  have hscan : (scanLine marker sc l).blocks = sc.blocks
      ∨ ∃ (blocks : List Block) (i : Nat), (∀ b ∈ blocks, Block.NoNewline b)
        ∧ (scanLine marker sc l).blocks = blocks.modify i (Block.addLine (lineType marker l) l) := by
    unfold scanLine
    dsimp only
    split_ifs
    . exact Or.inr ⟨_, _, hopened, rfl⟩
    . cases hcurrent : sc.currentBlock with
      | none => exact Or.inl rfl
      | some i => exact Or.inr ⟨_, i, hblocks, rfl⟩
    . exact Or.inr ⟨_, _, hopened, rfl⟩
    . cases hcurrent : sc.currentBlock with
      | none => exact Or.inl rfl
      | some i => exact Or.inr ⟨_, i, hblocks, rfl⟩
  rcases hscan with heq | ⟨blocks, i, hall, heq⟩
  . rw [heq]
    exact hblocks
  . rw [heq]
    exact forall_mem_modify hall hadd i

theorem foldl_scanLine_noNewline {ls : List Bytes} (hls : ∀ l ∈ ls, 10 ∉ l) {sc : Scan}
    (hblocks : ∀ b ∈ sc.blocks, Block.NoNewline b)
    : ∀ b ∈ (ls.foldl (scanLine marker) sc).blocks, Block.NoNewline b := by
  induction ls generalizing sc with
  | nil => exact hblocks
  | cons l ls ih =>
    rw [List.forall_mem_cons] at hls
    exact ih hls.2 (scanLine_noNewline hls.1 hblocks)

theorem new_noNewline (text marker : Bytes) : ∀ b ∈ (new text marker).blocks, Block.NoNewline b :=
  foldl_scanLine_noNewline (MarkedFile.allLines_noNewline text marker).1 fun _ hb => absurd hb List.not_mem_nil

namespace Merge

theorem NoNewline.print (hs : s.NoNewline) (hl : 10 ∉ l) : (s.print l).NoNewline where
  out := by
    unfold Merge.print
    rw [List.forall_mem_append, List.forall_mem_singleton]
    exact ⟨hs.out, hl⟩
  bp := hs.bp
  blocks := hs.blocks

theorem NoNewline.printLines (hs : s.NoNewline) {ls : List BlockLine} (hls : ∀ bl ∈ ls, 10 ∉ bl.text)
    : (s.printLines ls).NoNewline where
  out := by
    unfold Merge.printLines
    rw [List.forall_mem_append, List.forall_mem_map]
    exact ⟨hs.out, hls⟩
  bp := hs.bp
  blocks := hs.blocks

theorem NoNewline.blockLines (hs : s.NoNewline) (b : Nat) : ∀ bl ∈ blockLines s.blocks b, 10 ∉ bl.text := by
  intro bl hbl
  unfold Merge.blockLines at hbl
  cases hb : s.blocks[b]? with
  | none =>
    rw [hb] at hbl
    exact absurd hbl List.not_mem_nil
  | some block =>
    rw [hb] at hbl
    exact hs.blocks block (List.mem_of_getElem? hb) bl hbl

theorem NoNewline.openBlock (hs : s.NoNewline) (b : Nat) : (s.openBlock b).NoNewline where
  out := (hs.printLines fun bl hbl => hs.blockLines b bl ((List.takeWhile_sublist _).subset hbl)).out
  bp bl hbl := hs.blockLines b bl ((List.dropWhile_sublist _).subset hbl)
  blocks := @forall_mem_modify _ Block.NoNewline (fun b => { b with used := true }) _ hs.blocks
    (fun _ hb => hb) b

theorem NoNewline.closeBlock (hs : s.NoNewline) : s.closeBlock.NoNewline := by
  unfold Merge.closeBlock
  split
  . exact {
      out := (hs.printLines hs.bp).out
      bp := fun _ hbl => absurd hbl List.not_mem_nil
      blocks := hs.blocks
    }
  . exact { out := hs.out, bp := hs.bp, blocks := hs.blocks }

theorem NoNewline.userStart (hs : s.NoNewline) (hl : 10 ∉ l) : (s.userStart l).NoNewline := by
  unfold Merge.userStart
  split
  . refine NoNewline.print { out := hs.out, bp := ?_, blocks := hs.blocks } hl
    exact fun bl hbl => hs.bp bl ((List.dropWhile_sublist _).subset (List.mem_of_mem_tail hbl))
  . exact hs

theorem NoNewline.userEnd (hs : s.NoNewline) (hl : 10 ∉ l) : (s.userEnd l).NoNewline := by
  unfold Merge.userEnd
  split
  . have hprinted : ∀ bl ∈ s.bp.takeWhile notUserStart ++ (s.bp.dropWhile notUserStart).take 1,
        10 ∉ bl.text := by
      rw [List.forall_mem_append]
      exact ⟨fun bl hbl => hs.bp bl ((List.takeWhile_sublist _).subset hbl),
        fun bl hbl => hs.bp bl ((List.dropWhile_sublist _).subset (List.mem_of_mem_take hbl))⟩
    exact {
      out := ((hs.print hl).printLines hprinted).out
      bp := fun bl hbl => hs.bp bl ((List.dropWhile_sublist _).subset hbl)
      blocks := hs.blocks
    }
  . exact hs

end Merge

theorem mergeLine_noNewline (hs : s.NoNewline) (hl : 10 ∉ l)
    : (master.mergeLine marker deleteOrphans s l).NoNewline := by
  have hprint := hs.print hl
  unfold mergeLine
  dsimp only
  split
  . exact { out := hprint.out, bp := hs.bp, blocks := hs.blocks }
  . split
    . split
      . exact hprint
      . exact hs
    . split
      . exact hs
      . split
        . exact hs.openBlock _
        . split
          . exact { out := hs.out, bp := hs.bp, blocks := hs.blocks }
          . exact { out := hprint.out, bp := hs.bp, blocks := hs.blocks }
    . exact hs.closeBlock
    . exact hs.userStart hl
    . exact hs.userEnd hl

/-
Nothing that has been put out is taken back.
-/

theorem mergeLine_grows : s.out <+: (master.mergeLine marker deleteOrphans s l).out := by
  unfold mergeLine
  dsimp only
  split
  . exact List.prefix_append ..
  . split
    . split
      . exact List.prefix_append ..
      . exact List.prefix_refl _
    . split
      . exact List.prefix_refl _
      . split
        . exact List.prefix_append ..
        . split
          . exact List.prefix_refl _
          . exact List.prefix_append ..
    . unfold Merge.closeBlock
      split
      . exact List.prefix_append ..
      . exact List.prefix_refl _
    . unfold Merge.userStart
      split
      . exact List.prefix_append ..
      . exact List.prefix_refl _
    . unfold Merge.userEnd
      split
      . refine List.IsPrefix.trans (List.prefix_append s.out [l]) ?_
        exact List.prefix_append ..
      . exact List.prefix_refl _

/-
What is kept of a segment.
-/

theorem cutouts_sublist (cutouts : List (Cutout marker × List Bytes)) (bp : List BlockLine)
    : (cutouts.flatMap fun c => c.1.lines).Sublist (mergedPieces cutouts bp).1 := by
  induction cutouts generalizing bp with
  | nil => exact List.Sublist.refl _
  | cons c cutouts ih =>
    rw [List.flatMap_cons, mergedPieces]
    exact (List.sublist_append_left _ _).append (ih _)

def knows (master : MasterFile) (tag : Bytes) : Bool := (master.findBlock tag).isSome

theorem preserved_sublist (blocks : List Block) (seg : Segment marker)
    : (seg.preserved master.knows).Sublist (mergedSegment master blocks seg) := by
  unfold Segment.preserved mergedSegment knows
  cases seg with
  | line l hl => exact List.Sublist.refl _
  | block b =>
    dsimp only
    cases master.findBlock b.tag with
    | none => exact List.Sublist.refl _
    | some i =>
      have hcutouts := cutouts_sublist b.cutouts ((blockLines blocks i).dropWhile notUserStart)
      exact hcutouts.trans ((List.sublist_append_right _ _).trans (List.sublist_append_left _ _))

/-
The whole of a merge.
-/

def Merge.start (master : MasterFile) : Merge :=
  { out := [], useLines := true, b := none, bp := [], blocks := master.blocks, orphan := false }

-- The state behind the last line of the user file
def merged (master : MasterFile) (ufile : MarkedFile) (flags : Nat) : Merge :=
  ufile.allLines.1.foldl (master.mergeLine ufile.marker (flags &&& deleteOrphansFlag ≠ 0))
    (Merge.start master)

-- The lines that are put out
def mergedLines (master : MasterFile) (ufile : MarkedFile) (flags : Nat) : List Bytes :=
  let s := master.merged ufile flags
  s.out ++ (if s.orphan then [ufile.allLines.2] else [])
    ++ (if flags &&& suppressNewFlag = 0 then unusedLines s.blocks else [])

theorem merge_eq (master : MasterFile) (ufile : MarkedFile) (flags : Nat)
    : (master.merge ufile flags).1 = textOf (master.mergedLines ufile flags) := by
  have hmerge : (master.merge ufile flags).1
      = (let s := master.merged ufile flags
        let s := if s.orphan then s.print ufile.allLines.2 else s
        if flags &&& suppressNewFlag = 0 then textOf (s.out ++ unusedLines s.blocks) else textOf s.out) :=
    apply_ite Prod.fst _ _ _
  rw [hmerge, mergedLines]
  generalize master.merged ufile flags = s
  dsimp only
  by_cases horphan : s.orphan = true
  . simp only [if_pos horphan, Merge.print]
    split
    . rfl
    . rw [List.append_nil]
  . simp only [if_neg horphan, List.append_nil]
    split
    . rfl
    . rw [List.append_nil]

theorem foldl_mergeLine_noNewline {ls : List Bytes} (hls : ∀ l ∈ ls, 10 ∉ l) (hs : s.NoNewline)
    : (ls.foldl (master.mergeLine marker deleteOrphans) s).NoNewline := by
  induction ls generalizing s with
  | nil => exact hs
  | cons l ls ih =>
    rw [List.forall_mem_cons] at hls
    exact ih hls.2 (mergeLine_noNewline hs hls.1)

theorem unusedLines_noNewline {blocks : List Block} (hblocks : ∀ b ∈ blocks, Block.NoNewline b)
    : ∀ l ∈ unusedLines blocks, 10 ∉ l := by
  intro l hl
  obtain ⟨b, hb, hl⟩ := List.mem_flatMap.mp hl
  split at hl
  . exact absurd hl List.not_mem_nil
  . rcases List.mem_cons.mp hl with rfl | hl
    . exact List.not_mem_nil
    . obtain ⟨bl, hbl, rfl⟩ := List.mem_map.mp hl
      exact hblocks b hb bl hbl

theorem mergedLines_noNewline (masterText masterMarker text marker : Bytes) (flags : Nat)
    : ∀ l ∈ (new masterText masterMarker).mergedLines (MarkedFile.new text marker) flags, 10 ∉ l := by
  have hstart : (Merge.start (new masterText masterMarker)).NoNewline :=
    { out := fun _ hl => absurd hl List.not_mem_nil
      bp := fun _ hbl => absurd hbl List.not_mem_nil
      blocks := new_noNewline masterText masterMarker }
  have hmerged : ((new masterText masterMarker).merged (MarkedFile.new text marker) flags).NoNewline :=
    foldl_mergeLine_noNewline (MarkedFile.allLines_noNewline text marker).1 hstart
  unfold mergedLines
  dsimp only
  rw [List.forall_mem_append, List.forall_mem_append]
  refine ⟨⟨hmerged.out, ?_⟩, ?_⟩
  . split
    . rw [List.forall_mem_singleton]
      exact (MarkedFile.allLines_noNewline text marker).2
    . exact fun _ hl => absurd hl List.not_mem_nil
  . split
    . exact unusedLines_noNewline hmerged.blocks
    . exact fun _ hl => absurd hl List.not_mem_nil

theorem mergedLines_segments {segs : List (Segment marker)} {text : Bytes} (hfile : IsFile segs text)
    {flags : Nat} (hflags : flags &&& deleteOrphansFlag = 0)
    : segs.flatMap (mergedSegment master master.blocks)
        <+: master.mergedLines (MarkedFile.new text marker) flags := by
  have hstart : (Merge.start master).Outside := ⟨rfl, rfl, rfl⟩
  obtain ⟨bp, hsegs⟩ := @foldl_segments master marker _ hstart segs
  have hmerged : segs.flatMap (mergedSegment master master.blocks)
      <+: (master.merged (MarkedFile.new text marker) flags).out := by
    unfold merged
    rw [hflags, show decide ((0 : Nat) ≠ 0) = false from rfl]
    rcases MarkedFile.allLines_isText hfile marker with ⟨-, hlines⟩ | ⟨l, -, hlines⟩
    . rw [hlines]
      exact (congrArg Merge.out hsegs) ▸ List.prefix_refl _
    . rw [hlines, List.foldl_append, List.foldl_cons, List.foldl_nil]
      refine List.IsPrefix.trans ?_ mergeLine_grows
      exact (congrArg Merge.out hsegs) ▸ List.prefix_refl _
  unfold mergedLines
  dsimp only
  rw [List.append_assoc]
  exact hmerged.trans (List.prefix_append _ _)

/--
All lines of the user are lines of the text that is written, in their order: those outside of blocks, those
of the cut-outs in blocks that the master has, and those of the other blocks.
-/
theorem merge_preserves (masterText masterMarker marker text : Bytes) (segs : List (Segment marker))
    (hfile : IsFile segs text) (flags : Nat) (hflags : flags &&& deleteOrphansFlag = 0)
    : ∃ outLines,
        ((new masterText masterMarker).merge (MarkedFile.new text marker) flags).1 = textOf outLines
          ∧ (∀ l ∈ outLines, 10 ∉ l)
          ∧ (segs.flatMap (Segment.preserved (new masterText masterMarker).knows)).Sublist outLines := by
  refine ⟨_, merge_eq _ _ flags, mergedLines_noNewline _ _ _ _ flags, ?_⟩
  have hgrows := @mergedLines_segments (new masterText masterMarker) marker segs text hfile flags hflags
  refine List.Sublist.trans ?_ hgrows.sublist
  clear hfile hgrows
  induction segs with
  | nil => exact List.Sublist.refl _
  | cons seg segs ih =>
    rw [List.flatMap_cons, List.flatMap_cons]
    exact (preserved_sublist _ seg).append ih

-- The block `bl` with the cut-out that has `M` in it
def sampleBlock : UserBlock [47, 47, 126] where
  opening := [47, 47, 126, 91, 98, 108]
  head := [[103]]
  cutouts := [({
    start := [47, 47, 126, 94]
    body := [[77]]
    stop := [47, 47, 126, 118]
    isStart := by decide
    isBody := by decide
    isStop := by decide }, [])]
  closing := [47, 47, 126, 93]
  isOpening := by decide
  isTag := by decide
  isHead := by decide
  isBehind := by decide
  isClosing := by decide

theorem merge_preserves_sample
    : ∃ outLines,
        ((new (textOf [[47, 47, 126, 91, 98, 108], [110], [47, 47, 126, 93]]) [47, 47, 126]).merge
            (MarkedFile.new (textOf ([120] :: sampleBlock.lines)) [47, 47, 126]) 0).1 = textOf outLines
          ∧ [[120], [47, 47, 126, 94], [77], [47, 47, 126, 118]].Sublist outLines := by
  have hfile : IsFile [.line [120] (by decide), .block sampleBlock] (textOf ([120] :: sampleBlock.lines)) :=
    ⟨by decide, Or.inl (by decide)⟩
  obtain ⟨outLines, htext, -, hsublist⟩ := merge_preserves
    (textOf [[47, 47, 126, 91, 98, 108], [110], [47, 47, 126, 93]]) [47, 47, 126] [47, 47, 126] _ _ hfile 0
    (by decide)
  exact ⟨outLines, htext, hsublist⟩

end MasterFile

end ReGen
end ObTools
