import ObTools.ReGen.Stable

/-!
This module contains the proof that merging is stable if and only if no block has several cut-outs, and no
cut-out of the user is one more than the master has.
-/

namespace ObTools
namespace ReGen

open Lines (Bytes IsText textOf)

namespace MasterFile

open Merge (mergedBlock mergedSegment markSegment markUsed blockLines)

variable {marker : Bytes}

/-
The blocks that have been used.
-/

theorem map_modify {α β : Type} {f : α → α} {g : α → β} (h : ∀ a, g (f a) = g a) (as : List α) (i : Nat)
    : (as.modify i f).map g = as.map g := by
  induction as generalizing i with
  | nil => rw [List.modify_nil]
  | cons a as ih =>
    cases i with
    | zero => rw [List.modify_zero_cons, List.map_cons, h, List.map_cons]
    | succ i => rw [List.modify_succ_cons, List.map_cons, ih, List.map_cons]

theorem lines_markSegment (master : MasterFile) (seg : Segment marker) (blocks : List Block)
    : (markSegment master blocks seg).map Block.lines = blocks.map Block.lines := by
  unfold markSegment
  split
  . rfl
  . split
    . exact @map_modify _ _ (fun b => { b with used := true }) Block.lines (fun _ => rfl) _ _
    . rfl

theorem lines_markSegments (master : MasterFile) (segs : List (Segment marker)) (blocks : List Block)
    : (segs.foldl (markSegment master) blocks).map Block.lines = blocks.map Block.lines := by
  induction segs generalizing blocks with
  | nil => rfl
  | cons seg segs ih =>
    rw [List.foldl_cons, ih, lines_markSegment]

def isUsed (blocks : List Block) (i : Nat) : Prop := ∃ b, blocks[i]? = some b ∧ b.used = true

theorem isUsed_markUsed {blocks : List Block} {i j : Nat} (hj : j < blocks.length)
    : isUsed (markUsed i blocks) j ↔ isUsed blocks j ∨ i = j := by
  unfold isUsed markUsed
  rw [List.getElem?_modify, List.getElem?_eq_getElem hj]
  by_cases hij : i = j
  . simp [hij]
  . simp [hij]

theorem isUsed_markSegment (master : MasterFile) (seg : Segment marker) {blocks : List Block} {i : Nat}
    (hi : i < blocks.length)
    : isUsed (markSegment master blocks seg) i
        ↔ isUsed blocks i ∨ ∃ b, seg = .block b ∧ master.findBlock b.tag = some i := by
  unfold markSegment
  cases seg with
  | line l hl => simp
  | block b =>
    dsimp only
    cases hfind : master.findBlock b.tag with
    | none => simp [hfind]
    | some j => simp [isUsed_markUsed hi, hfind]

theorem isUsed_markSegments (master : MasterFile) (segs : List (Segment marker)) {blocks : List Block}
    {i : Nat} (hi : i < blocks.length)
    : isUsed (segs.foldl (markSegment master) blocks) i
        ↔ isUsed blocks i ∨ ∃ b, Segment.block b ∈ segs ∧ master.findBlock b.tag = some i := by
  induction segs generalizing blocks with
  | nil => simp
  | cons seg segs ih =>
    have hlength : (markSegment master blocks seg).length = blocks.length := by
      rw [← List.length_map Block.lines, lines_markSegment, List.length_map]
    rw [List.foldl_cons, ih (hlength ▸ hi), isUsed_markSegment master seg hi, or_assoc]
    refine or_congr_right ?_
    simp only [List.mem_cons, or_and_right, exists_or, @eq_comm _ seg]

theorem unusedLines_eq {bs : List Block} {ms : List (UserBlock marker)}
    (h : bs.map Block.lines = ms.map UserBlock.blockLines)
    : ∃ unused : List (UserBlock marker),
        unusedLines bs = (unused.map fun m => [] :: m.lines).flatten
          ∧ ∀ m, m ∈ unused ↔ ∃ i : Nat, ms[i]? = some m ∧ ¬isUsed bs i := by
  induction bs generalizing ms with
  | nil =>
    cases ms with
    | nil => exact ⟨[], rfl, fun m => by simp⟩
    | cons m ms => simp at h
  | cons b bs ih =>
    cases ms with
    | nil => simp at h
    | cons m ms =>
      rw [List.map_cons, List.map_cons, List.cons.injEq] at h
      obtain ⟨unused, hlines, hmem⟩ := ih h.2
      have hfirst : isUsed (b :: bs) 0 ↔ b.used = true := by simp [isUsed]
      have hshift (m' : UserBlock marker) : (∃ i : Nat, (m :: ms)[i]? = some m' ∧ ¬isUsed (b :: bs) i)
          ↔ (m = m' ∧ ¬b.used = true) ∨ ∃ i : Nat, ms[i]? = some m' ∧ ¬isUsed bs i := by
        refine ⟨?_, ?_⟩
        . rintro ⟨i, hi, hnot⟩
          cases i with
          | zero => exact Or.inl ⟨Option.some.inj hi, fun hused => hnot (hfirst.mpr hused)⟩
          | succ i => exact Or.inr ⟨i, hi, hnot⟩
        . rintro (⟨rfl, hnot⟩ | ⟨i, hi, hnot⟩)
          . exact ⟨0, rfl, fun hused => hnot (hfirst.mp hused)⟩
          . exact ⟨i + 1, hi, hnot⟩
      by_cases hused : b.used = true
      . refine ⟨unused, ?_, ?_⟩
        . rw [← hlines, unusedLines, List.flatMap_cons, if_pos hused]
          rfl
        . intro m'
          rw [hmem, hshift]
          simp [hused]
      . refine ⟨m :: unused, ?_, ?_⟩
        . rw [List.map_cons, List.flatten_cons, ← hlines, unusedLines, List.flatMap_cons, if_neg hused,
            h.1, UserBlock.blockLines, List.map_map]
          exact congrArg (fun ls => [] :: ls ++ unusedLines bs) (List.map_id m.lines)
        . intro m'
          rw [List.mem_cons, hmem, hshift]
          simp [hused, eq_comm]

/-
What is put out for a whole file.
-/

def putOut (master : MasterFile) (segs : List (Segment marker)) : List Bytes :=
  segs.flatMap (mergedSegment master master.blocks)
    ++ unusedLines (segs.foldl (markSegment master) master.blocks)

theorem mergedLines_eq (master : MasterFile) (ufile : MarkedFile)
    : master.mergedLines ufile 0 = finish ufile.allLines.2 (master.merged ufile 0) := by
  unfold mergedLines finish
  dsimp only
  have hflag : 0 &&& suppressNewFlag = 0 := rfl
  rw [if_pos hflag]

theorem finish_segments (master : MasterFile) (segs : List (Segment marker)) (last : Bytes)
    : finish last ((segs.flatMap Segment.lines).foldl (master.mergeLine marker false) (Merge.start master))
        = putOut master segs := by
  obtain ⟨bp, hfold⟩ := @foldl_segments master marker (Merge.start master) ⟨rfl, rfl, rfl⟩ segs
  rw [hfold]
  simp [finish, putOut, Merge.start]

theorem merged_zero (master : MasterFile) (text : Bytes)
    : master.merged (MarkedFile.new text marker) 0
        = (MarkedFile.new text marker).allLines.1.foldl (master.mergeLine marker false)
            (Merge.start master) := rfl

-- A line without a mark at the end of a text may be put out twice
theorem mergedLines_isFile {segs : List (Segment marker)} {text : Bytes} (hfile : IsFile segs text)
    (master : MasterFile)
    : ∃ segs', Segment.blocks segs' = Segment.blocks segs
        ∧ master.mergedLines (MarkedFile.new text marker) 0 = putOut master segs' := by
  rw [mergedLines_eq, merged_zero]
  rcases MarkedFile.allLines_isText hfile marker with ⟨-, hlines⟩ | ⟨l, hlast, hlines⟩
  . exact ⟨segs, rfl, by rw [hlines, finish_segments]⟩
  . rcases Segment.last_type hlast with hl | hl
    . refine ⟨segs ++ [.line l hl], ?_, ?_⟩
      . rw [Segment.blocks, List.filterMap_append]
        exact List.append_nil _
      . rw [hlines, ← finish_segments, List.flatMap_append]
        rfl
    . refine ⟨segs, rfl, ?_⟩
      obtain ⟨bp, hfold⟩ := @foldl_segments master marker (Merge.start master) ⟨rfl, rfl, rfl⟩ segs
      rw [hlines, List.foldl_append, List.foldl_cons, List.foldl_nil, ← finish_segments, hfold]
      rw [mergeLine_close rfl hl, closeBlock_outside ⟨rfl, rfl, rfl⟩]

theorem mergedLines_textOf {segs : List (Segment marker)}
    (hsegs : ∀ l ∈ segs.flatMap Segment.lines, 10 ∉ l) (master : MasterFile)
    : master.mergedLines (MarkedFile.new (textOf (segs.flatMap Segment.lines)) marker) 0
        = putOut master segs := by
  rw [mergedLines_eq, merged_zero, MarkedFile.allLines_textOf hsegs, finish_segments]

/-
The parts that are put out, each of which is put out as it is the next time or makes a difference.
-/

-- Some segments that are put out as they are
def Stays (master : MasterFile) (marker : Bytes) (ls : List Bytes) : Prop :=
  ∃ segs : List (Segment marker), (∀ seg ∈ segs, Fixed master seg) ∧ ls = segs.flatMap Segment.lines

theorem Diverges.behind_stays {master : MasterFile} {ls ls' : List Bytes}
    (hstays : Stays master marker ls) (h : Diverges master marker ls')
    : Diverges master marker (ls ++ ls') := by
  obtain ⟨segs, hfixed, rfl⟩ := hstays
  induction segs with
  | nil => exact h
  | cons seg segs ih =>
    rw [List.forall_mem_cons] at hfixed
    rw [List.flatMap_cons, List.append_assoc]
    exact (ih hfixed.2).behind hfixed.1

theorem diverges_flatten {master : MasterFile} {parts : List (List Bytes)}
    (hparts : ∀ ls ∈ parts, Stays master marker ls ∨ Diverges master marker ls)
    (hdiverges : ∃ ls ∈ parts, Diverges master marker ls)
    : Diverges master marker parts.flatten := by
  induction parts with
  | nil => simp at hdiverges
  | cons ls parts ih =>
    rw [List.forall_mem_cons] at hparts
    rw [List.flatten_cons]
    rcases hparts.1 with hstays | hfirst
    . by_cases hrest : ∃ ls ∈ parts, Diverges master marker ls
      . exact Diverges.behind_stays hstays (ih hparts.2 hrest)
      . obtain ⟨ls', hmem, hls'⟩ := hdiverges
        rcases List.mem_cons.mp hmem with rfl | hmem
        . exact hls'.append _
        . exact absurd ⟨ls', hmem, hls'⟩ hrest
    . exact hfirst.append _

-- No block has several cut-outs
def Single (segs : List (Segment marker)) : Prop := ∀ m ∈ Segment.blocks segs, m.cutouts.length ≤ 1

-- The user has no more cut-outs in a block than the master
def Fits (segs usegs : List (Segment marker)) : Prop :=
  ∀ b ∈ Segment.blocks usegs, ∀ m ∈ Segment.blocks segs, m.tag = b.tag →
    b.cutouts.length ≤ m.cutouts.length

theorem mergedBlock_nil (m : UserBlock marker)
    : mergedBlock m.blockLines ([] : List (Cutout marker × List Bytes)) = m.lines := by
  rw [mergedBlock_blockLines, UserBlock.lines]
  cases m.cutouts with
  | nil => simp [outPieces, UserBlock.pieces]
  | cons c cs => simp [outPieces]

theorem mergedUser_nil (m : UserBlock marker) : mergedUser m [] = m := rfl

-- Whether a segment fits the block of the master with its tag
def Fine (segs : List (Segment marker)) : Segment marker → Prop
  | .line _ _ => True
  | .block b => ∀ m ∈ Segment.blocks segs, m.tag = b.tag →
    m.cutouts.length ≤ 1 ∧ b.cutouts.length ≤ m.cutouts.length

theorem fine_of_fits {segs usegs : List (Segment marker)} (hsingle : Single segs) (hfits : Fits segs usegs)
    {seg : Segment marker} (hseg : seg ∈ usegs)
    : Fine segs seg := by
  cases seg with
  | line l hl => trivial
  | block b => exact fun m hm htag => ⟨hsingle m hm, hfits b (Segment.mem_blocks.mpr hseg) m hm htag⟩

theorem fine_iff_fits {segs usegs usegs' : List (Segment marker)}
    (hblocks : Segment.blocks usegs' = Segment.blocks usegs)
    : (Single segs ∧ ∀ seg ∈ usegs', Fine segs seg) ↔ Single segs ∧ Fits segs usegs := by
  refine and_congr_right ?_
  intro hsingle
  rw [Fits, ← hblocks]
  refine ⟨?_, fun hfits seg => fine_of_fits hsingle hfits⟩
  intro hfine b hb m hm htag
  exact (hfine (.block b) (Segment.mem_blocks.mp hb) m hm htag).2

-- The text that comes out of a merge without any flags
def regenerate (marker text utext : Bytes) : Bytes :=
  ((new text marker).merge (MarkedFile.new utext marker) 0).1

theorem regenerate_eq (marker text utext : Bytes)
    : regenerate marker text utext
        = textOf ((new text marker).mergedLines (MarkedFile.new utext marker) 0) :=
  merge_eq _ _ 0

section Known

variable {segs : List (Segment marker)} {text : Bytes} (hmaster : IsMaster segs text)
include hmaster

theorem fixed_block {m : UserBlock marker} (hm : m ∈ Segment.blocks segs) (hsingle : m.cutouts.length ≤ 1)
    : Fixed (new text marker) (.block m) := by
  obtain ⟨i, hi⟩ := List.getElem?_of_mem hm
  have hfixed := fixed_mergedUser hmaster hi hsingle []
  rw [mergedUser_nil] at hfixed
  exact hfixed

/--
A segment that fits is put out as one that stays, and that is one for the same block of the master.
-/
theorem exists_fixed {seg : Segment marker} (hfine : Fine segs seg)
    : ∃ seg' : Segment marker,
        mergedSegment (new text marker) (new text marker).blocks seg = seg'.lines
          ∧ Fixed (new text marker) seg'
          ∧ ∀ blocks, markSegment (new text marker) blocks seg' = markSegment (new text marker) blocks seg := by
  cases seg with
  | line l hl => exact ⟨.line l hl, rfl, rfl, fun _ => rfl⟩
  | block b =>
    rcases findBlock_cases hmaster b.tag with ⟨i, m, hfind, hm, htag⟩ | ⟨hfind, -⟩
    . obtain ⟨hsingle, hfits⟩ := hfine m (List.mem_of_getElem? hm) htag
      refine ⟨.block (mergedUser m b.cutouts), ?_, fixed_mergedUser hmaster hm hsingle _, ?_⟩
      . rw [mergedSegment_known hmaster hm htag, mergedBlock_single hsingle,
          List.drop_of_length_le hfits]
        exact List.append_nil _
      . intro blocks
        have htag' : (mergedUser m b.cutouts).tag = b.tag := htag
        simp only [markSegment, htag']
    . have hlines : mergedSegment (new text marker) (new text marker).blocks (.block b) = b.lines := by
        simp only [mergedSegment, hfind]
      exact ⟨.block b, hlines, hlines, fun _ => rfl⟩

theorem diverges_of_not_fine {seg : Segment marker} (hfine : ¬Fine segs seg)
    : Diverges (new text marker) marker
        (mergedSegment (new text marker) (new text marker).blocks seg) := by
  cases seg with
  | line l hl => exact absurd trivial hfine
  | block b =>
    obtain ⟨m, hmem, htag, hnot⟩ : ∃ m ∈ Segment.blocks segs, m.tag = b.tag
        ∧ ¬(m.cutouts.length ≤ 1 ∧ b.cutouts.length ≤ m.cutouts.length) := by
      simp only [Fine, not_forall] at hfine
      obtain ⟨m, hm, htag, hnot⟩ := hfine
      exact ⟨m, hm, htag, hnot⟩
    obtain ⟨i, hm⟩ := List.getElem?_of_mem hmem
    rw [mergedSegment_known hmaster hm htag]
    by_cases hsingle : m.cutouts.length ≤ 1
    . -- The cut-outs that are too many come behind the end of the block
      have hmore : m.cutouts.length < b.cutouts.length := by
        rw [not_and, not_le] at hnot
        exact hnot hsingle
      obtain ⟨u, us, hdrop⟩ := List.exists_cons_of_ne_nil
        (List.ne_nil_of_length_pos (l := b.cutouts.drop m.cutouts.length)
          (by rw [List.length_drop]; omega))
      rw [mergedBlock_single hsingle, hdrop]
      have hblock := fixed_mergedUser hmaster hm hsingle b.cutouts
      refine Diverges.behind hblock ?_
      rw [List.flatMap_cons, Cutout.lines, List.cons_append]
      exact diverges_userStart hmaster u.1.isStart _
    . exact diverges_several hmaster hm (by omega) b.cutouts

theorem stays_or_diverges (seg : Segment marker)
    : Stays (new text marker) marker (mergedSegment (new text marker) (new text marker).blocks seg)
        ∨ Diverges (new text marker) marker
            (mergedSegment (new text marker) (new text marker).blocks seg) := by
  by_cases hfine : Fine segs seg
  . obtain ⟨seg', hlines, hfixed, -⟩ := exists_fixed hmaster hfine
    refine Or.inl ⟨[seg'], List.forall_mem_singleton.mpr hfixed, ?_⟩
    rw [hlines, List.flatMap_singleton]
  . exact Or.inr (diverges_of_not_fine hmaster hfine)

theorem block_diverges {m : UserBlock marker} (hm : m ∈ Segment.blocks segs)
    (hseveral : ¬m.cutouts.length ≤ 1)
    : Diverges (new text marker) marker m.lines := by
  obtain ⟨i, hi⟩ := List.getElem?_of_mem hm
  have hdiverges := diverges_several hmaster hi (by omega) []
  rw [mergedBlock_nil] at hdiverges
  exact hdiverges

-- The blank line and the block that are put out behind the file
theorem unused_cases {m : UserBlock marker} (hm : m ∈ Segment.blocks segs)
    : (m.cutouts.length ≤ 1 → Stays (new text marker) marker ([] :: m.lines))
        ∧ (¬m.cutouts.length ≤ 1 → Diverges (new text marker) marker ([] :: m.lines)) := by
  refine ⟨?_, ?_⟩
  . intro hsingle
    refine ⟨[.line [] (lineType_nil marker), .block m], ?_, ?_⟩
    . rw [List.forall_mem_cons, List.forall_mem_singleton]
      exact ⟨rfl, fixed_block hmaster hm hsingle⟩
    . simp [Segment.lines]
  . intro hseveral
    have hblank : Fixed (new text marker) (.line [] (lineType_nil marker)) := rfl
    exact (block_diverges hmaster hm hseveral).behind hblank

theorem lines_blocks_new
    : (new text marker).blocks.map Block.lines = (Segment.blocks segs).map UserBlock.blockLines := by
  rw [new_isFile hmaster.isFile, List.map_map]
  rfl

theorem lt_length_new {i : Nat} {m : UserBlock marker} (hm : (Segment.blocks segs)[i]? = some m)
    : i < (new text marker).blocks.length := by
  rw [← List.length_map Block.lines, lines_blocks_new hmaster, List.length_map]
  exact (List.getElem?_eq_some_iff.mp hm).1

-- A file from which only this comes out, without anything left of the master
theorem putOut_of_fixed {segs' : List (Segment marker)}
    (hfixed : ∀ seg ∈ segs', Fixed (new text marker) seg)
    (hused : ∀ m ∈ Segment.blocks segs, ∃ b, Segment.block b ∈ segs' ∧ b.tag = m.tag)
    : putOut (new text marker) segs' = segs'.flatMap Segment.lines := by
  have hunused : unusedLines (segs'.foldl (markSegment (new text marker)) (new text marker).blocks) = [] := by
    obtain ⟨unused, hlines, hmem⟩ := unusedLines_eq
      ((lines_markSegments (new text marker) segs' _).trans (lines_blocks_new hmaster))
    have hnil : unused = [] := by
      rw [List.eq_nil_iff_forall_not_mem]
      intro m hm
      obtain ⟨i, hi, hnot⟩ := (hmem m).mp hm
      obtain ⟨b, hb, htag⟩ := hused m (List.mem_of_getElem? hi)
      refine hnot ((isUsed_markSegments _ segs' (lt_length_new hmaster hi)).mpr (Or.inr ⟨b, hb, ?_⟩))
      rw [htag]
      exact findBlock_tag hmaster hi
    rw [hlines, hnil]
    rfl
  rw [putOut, hunused, List.append_nil]
  refine List.flatMap_congr ?_
  exact hfixed

theorem not_isUsed_new (i : Nat) : ¬isUsed (new text marker).blocks i := by
  rintro ⟨b, hb, hused⟩
  rw [new_isFile hmaster.isFile, List.getElem?_map, Option.map_eq_some_iff] at hb
  obtain ⟨m, -, rfl⟩ := hb
  cases hused

theorem tag_of_findBlock {tag : Bytes} {i : Nat} {m : UserBlock marker}
    (hfind : (new text marker).findBlock tag = some i) (hm : (Segment.blocks segs)[i]? = some m)
    : m.tag = tag := by
  rcases findBlock_cases hmaster tag with ⟨j, m', hfind', hm', htag⟩ | ⟨hfind', -⟩
  . rw [hfind, Option.some.injEq] at hfind'
    rw [hfind', hm', Option.some.injEq] at hm
    rw [← hm]
    exact htag
  . rw [hfind] at hfind'
    cases hfind'

/-
A file that fits is merged to one that stays.
-/

theorem exists_fixed_segments {usegs : List (Segment marker)} (hfine : ∀ seg ∈ usegs, Fine segs seg)
    : ∃ segs' : List (Segment marker),
        usegs.flatMap (mergedSegment (new text marker) (new text marker).blocks)
            = segs'.flatMap Segment.lines
          ∧ (∀ seg ∈ segs', Fixed (new text marker) seg)
          ∧ ∀ blocks, segs'.foldl (markSegment (new text marker)) blocks
            = usegs.foldl (markSegment (new text marker)) blocks := by
  induction usegs with
  | nil => exact ⟨[], rfl, fun _ hseg => absurd hseg List.not_mem_nil, fun _ => rfl⟩
  | cons seg usegs ih =>
    rw [List.forall_mem_cons] at hfine
    obtain ⟨seg', hlines, hfixed, hmark⟩ := exists_fixed hmaster hfine.1
    obtain ⟨segs', hlines', hfixed', hmark'⟩ := ih hfine.2
    refine ⟨seg' :: segs', ?_, ?_, ?_⟩
    . rw [List.flatMap_cons, List.flatMap_cons, hlines, hlines']
    . rw [List.forall_mem_cons]
      exact ⟨hfixed, hfixed'⟩
    . intro blocks
      rw [List.foldl_cons, List.foldl_cons, hmark, hmark']

theorem putOut_again {usegs : List (Segment marker)} (hfine : ∀ seg ∈ usegs, Fine segs seg)
    (hsingle : Single segs)
    : ∃ segs' : List (Segment marker),
        putOut (new text marker) usegs = segs'.flatMap Segment.lines
          ∧ putOut (new text marker) segs' = segs'.flatMap Segment.lines := by
  obtain ⟨segs', hlines, hfixed, hmark⟩ := exists_fixed_segments hmaster hfine
  obtain ⟨unused, hunused, hmem⟩ := unusedLines_eq
    ((lines_markSegments (new text marker) usegs _).trans (lines_blocks_new hmaster))
  have hblocks {m : UserBlock marker} (hm : m ∈ unused) : m ∈ Segment.blocks segs := by
    obtain ⟨i, hi, -⟩ := (hmem m).mp hm
    exact List.mem_of_getElem? hi
  refine ⟨segs' ++ unused.flatMap fun m => [.line [] (lineType_nil marker), .block m], ?_, ?_⟩
  . rw [putOut, hlines, hunused, List.flatMap_append, List.flatMap_assoc, List.flatMap_def, List.flatMap_def]
    simp [Segment.lines]
  . apply putOut_of_fixed hmaster
    . rw [List.forall_mem_append]
      refine ⟨hfixed, ?_⟩
      intro seg hseg
      obtain ⟨m, hm, hseg⟩ := List.mem_flatMap.mp hseg
      rcases List.mem_pair.mp hseg with rfl | rfl
      . rfl
      . exact fixed_block hmaster (hblocks hm) (hsingle m (hblocks hm))
    . intro m hm
      obtain ⟨i, hi⟩ := List.getElem?_of_mem hm
      by_cases hused : isUsed (usegs.foldl (markSegment (new text marker)) (new text marker).blocks) i
      . rw [← hmark, isUsed_markSegments _ _ (lt_length_new hmaster hi)] at hused
        obtain ⟨b, hb, hfind⟩ := hused.resolve_left (not_isUsed_new hmaster i)
        exact ⟨b, List.mem_append_left _ hb, (tag_of_findBlock hmaster hfind hi).symm⟩
      . have hm' := (hmem m).mpr ⟨i, hi, hused⟩
        refine ⟨m, List.mem_append_right _ ?_, rfl⟩
        exact List.mem_flatMap.mpr ⟨m, hm', by simp⟩

/-
A file that does not fit is merged to one that makes a difference.
-/

theorem putOut_diverges {usegs : List (Segment marker)}
    (hnot : ¬(Single segs ∧ ∀ seg ∈ usegs, Fine segs seg))
    : Diverges (new text marker) marker (putOut (new text marker) usegs) := by
  obtain ⟨unused, hunused, hmem⟩ := unusedLines_eq
    ((lines_markSegments (new text marker) usegs _).trans (lines_blocks_new hmaster))
  have hparts : putOut (new text marker) usegs
      = (usegs.map (mergedSegment (new text marker) (new text marker).blocks)
        ++ unused.map fun m => [] :: m.lines).flatten := by
    rw [putOut, hunused, List.flatten_append, List.flatMap_def]
  have hblocks {m : UserBlock marker} (hm : m ∈ unused) : m ∈ Segment.blocks segs := by
    obtain ⟨i, hi, -⟩ := (hmem m).mp hm
    exact List.mem_of_getElem? hi
  rw [hparts]
  apply diverges_flatten
  . rw [List.forall_mem_append, List.forall_mem_map, List.forall_mem_map]
    refine ⟨fun seg _ => stays_or_diverges hmaster seg, ?_⟩
    intro m hm
    by_cases hsingle : m.cutouts.length ≤ 1
    . exact Or.inl ((unused_cases hmaster (hblocks hm)).1 hsingle)
    . exact Or.inr ((unused_cases hmaster (hblocks hm)).2 hsingle)
  . by_cases hfine : ∀ seg ∈ usegs, Fine segs seg
    . -- A block with several cut-outs has not been used
      have hsingle : ¬Single segs := fun hsingle => hnot ⟨hsingle, hfine⟩
      simp only [Single, not_forall] at hsingle
      obtain ⟨m, hm, hseveral⟩ := hsingle
      obtain ⟨i, hi⟩ := List.getElem?_of_mem hm
      have hunusedBlock : m ∈ unused := by
        refine (hmem m).mpr ⟨i, hi, ?_⟩
        rw [isUsed_markSegments _ _ (lt_length_new hmaster hi)]
        rintro (hused | ⟨b, hb, hfind⟩)
        . exact not_isUsed_new hmaster i hused
        . exact hseveral (hfine _ hb m hm (tag_of_findBlock hmaster hfind hi)).1
      refine ⟨[] :: m.lines, List.mem_append_right _ ?_, (unused_cases hmaster hm).2 hseveral⟩
      exact List.mem_map_of_mem hunusedBlock
    . simp only [not_forall] at hfine
      obtain ⟨seg, hseg, hfine⟩ := hfine
      refine ⟨_, List.mem_append_left _ ?_, diverges_of_not_fine hmaster hfine⟩
      exact List.mem_map_of_mem hseg

-- A master file with several cut-outs in a block makes a difference itself
theorem lines_diverges (hsingle : ¬Single segs)
    : Diverges (new text marker) marker (segs.flatMap Segment.lines) := by
  rw [List.flatMap_def]
  apply diverges_flatten
  . rw [List.forall_mem_map]
    intro seg hseg
    cases seg with
    | line l hl => exact Or.inl ⟨[.line l hl], List.forall_mem_singleton.mpr rfl, rfl⟩
    | block m =>
      have hm := Segment.mem_blocks.mpr hseg
      by_cases hone : m.cutouts.length ≤ 1
      . refine Or.inl ⟨[.block m], List.forall_mem_singleton.mpr (fixed_block hmaster hm hone), ?_⟩
        rw [List.flatMap_singleton]
      . exact Or.inr (block_diverges hmaster hm hone)
  . simp only [Single, not_forall] at hsingle
    obtain ⟨m, hm, hseveral⟩ := hsingle
    refine ⟨m.lines, ?_, block_diverges hmaster hm hseveral⟩
    exact List.mem_map.mpr ⟨.block m, Segment.mem_blocks.mp hm, rfl⟩

theorem merge_again_iff {usegs : List (Segment marker)} {utext : Bytes} (hfile : IsFile usegs utext)
    : regenerate marker text (regenerate marker text utext) = regenerate marker text utext
        ↔ Single segs ∧ Fits segs usegs := by
  obtain ⟨usegs', hblocks, hout⟩ := mergedLines_isFile hfile (new text marker)
  have hnoNewline := mergedLines_noNewline text marker utext marker 0
  rw [regenerate_eq, regenerate_eq, ← fine_iff_fits hblocks]
  rw [hout] at hnoNewline ⊢
  refine ⟨?_, ?_⟩
  . intro hsame
    by_contra hnot
    have hlines := Lines.textOf_inj (mergedLines_noNewline text marker _ marker 0) hnoNewline hsame
    rw [mergedLines_eq, merged_zero, MarkedFile.allLines_textOf hnoNewline] at hlines
    have hdiverges := putOut_diverges hmaster hnot (Merge.start (new text marker)) ⟨rfl, rfl, rfl⟩
      (fun _ => rfl) []
    rw [List.append_nil] at hdiverges
    exact hdiverges _ hlines
  . rintro ⟨hsingle, hfine⟩
    obtain ⟨segs', hlines, hagain⟩ := putOut_again hmaster hfine hsingle
    rw [hlines] at hnoNewline ⊢
    rw [mergedLines_textOf hnoNewline, hagain]

theorem merge_self_iff
    : regenerate marker text text = text ↔ Single segs ∧ (text = [] ∨ text.getLast? = some 10) := by
  rw [← hmaster.isFile.eq_textOf_iff, regenerate_eq]
  refine ⟨?_, ?_⟩
  . intro hsame
    have htext : text = textOf (segs.flatMap Segment.lines) := by
      rw [hmaster.isFile.eq_textOf_iff, ← hsame]
      rcases List.eq_nil_or_concat ((new text marker).mergedLines (MarkedFile.new text marker) 0)
        with hnil | ⟨ls, l, hls⟩
      . rw [hnil]
        exact Or.inl rfl
      . rw [hls, List.concat_eq_append, Lines.textOf_concat]
        exact Or.inr List.getLast?_concat
    refine ⟨?_, htext⟩
    by_contra hsingle
    have hlines := Lines.textOf_inj (mergedLines_noNewline text marker text marker 0)
      hmaster.isFile.noNewline (hsame.trans htext)
    have hall : (MarkedFile.new text marker).allLines.1 = segs.flatMap Segment.lines := by
      rw [congrArg (fun text => (MarkedFile.new text marker).allLines.1) htext]
      exact MarkedFile.allLines_textOf hmaster.isFile.noNewline marker
    rw [mergedLines_eq, merged_zero, hall] at hlines
    have hdiverges := lines_diverges hmaster hsingle (Merge.start (new text marker)) ⟨rfl, rfl, rfl⟩
      (fun _ => rfl) []
    rw [List.append_nil] at hdiverges
    exact hdiverges _ hlines
  . rintro ⟨hsingle, htext⟩
    have hfixed : ∀ seg ∈ segs, Fixed (new text marker) seg := by
      intro seg hseg
      cases seg with
      | line l hl => rfl
      | block m => exact fixed_block hmaster (Segment.mem_blocks.mpr hseg) (hsingle m (Segment.mem_blocks.mpr hseg))
    have hused : ∀ m ∈ Segment.blocks segs, ∃ b, Segment.block b ∈ segs ∧ b.tag = m.tag :=
      fun m hm => ⟨m, Segment.mem_blocks.mp hm, rfl⟩
    have hout := mergedLines_textOf hmaster.isFile.noNewline (new text marker)
    rw [← htext, putOut_of_fixed hmaster hfixed hused] at hout
    rw [hout]
    exact htext.symm

end Known

/--
A master file is merged with itself to itself if and only if no block has several cut-outs and its last line
has an end. To merge a second time changes nothing if and only if no block has several cut-outs, and the
user has no cut-out in it that the master has not.
-/
theorem merge_stable (marker text : Bytes) (segs : List (Segment marker)) (hmaster : IsMaster segs text)
    : (regenerate marker text text = text ↔ Single segs ∧ (text = [] ∨ text.getLast? = some 10)) ∧
      ∀ usegs utext, IsFile usegs utext →
        (regenerate marker text (regenerate marker text utext) = regenerate marker text utext
          ↔ Single segs ∧ Fits segs usegs) :=
  ⟨merge_self_iff hmaster, fun _ _ hfile => merge_again_iff hmaster hfile⟩

theorem merge_stable_sample
    : regenerate [47, 47, 126] (textOf sampleBlock.lines) (textOf sampleBlock.lines)
        = textOf sampleBlock.lines := by
  have hmaster : IsMaster [.block sampleBlock] (textOf sampleBlock.lines) :=
    ⟨⟨by decide, Or.inl (by decide)⟩, by decide⟩
  refine ((merge_stable [47, 47, 126] _ _ hmaster).1).mpr ⟨?_, Or.inr (by decide)⟩
  intro m hm
  rw [Segment.mem_blocks, List.mem_singleton, Segment.block.injEq] at hm
  rw [hm]
  decide

-- The block `bl` with the same cut-out twice
def doubleBlock : UserBlock [47, 47, 126] :=
  { sampleBlock with
    cutouts := sampleBlock.cutouts ++ sampleBlock.cutouts
    isBehind := by decide }

-- The start of the second cut-out comes out twice
theorem not_merge_stable
    : IsMaster [.block doubleBlock] (textOf doubleBlock.lines)
        ∧ regenerate [47, 47, 126] (textOf doubleBlock.lines) (textOf doubleBlock.lines)
          = textOf [[47, 47, 126, 91, 98, 108], [103], [47, 47, 126, 94], [77], [47, 47, 126, 118],
            [47, 47, 126, 94], [47, 47, 126, 94], [77], [47, 47, 126, 118], [47, 47, 126, 93]]
        ∧ regenerate [47, 47, 126] (textOf doubleBlock.lines) (textOf doubleBlock.lines)
          ≠ textOf doubleBlock.lines :=
  ⟨⟨⟨by decide, Or.inl (by decide)⟩, by decide⟩, by decide, by decide⟩

end MasterFile

end ReGen
end ObTools
