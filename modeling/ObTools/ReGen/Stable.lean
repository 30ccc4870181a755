import ObTools.ReGen.Merged

/-!
This module contains when a merge that is done once more changes nothing.
-/

namespace ObTools
namespace ReGen

open Lines (Bytes IsText textOf)

namespace MasterFile

open Merge (notUserStart notUserEnd behindCutout nextCutout mergedPieces mergedBlock mergedSegment
  markSegment markUsed blockLines texts)

variable {marker : Bytes}

/-
Blocks with at most one cut-out in the master.
-/

-- The block of the master with the first cut-out of the user in place of its own
def mergedUser (b : UserBlock marker) (us : List (Cutout marker × List Bytes)) : UserBlock marker where
  opening := b.opening
  head := b.head
  cutouts :=
    match us, b.cutouts with
    | u :: _, m :: _ => [(u.1, m.2)]
    | _, ms => ms
  closing := b.closing
  isOpening := b.isOpening
  isTag := b.isTag
  isHead := b.isHead
  isBehind := by
    have hbehind := b.isBehind
    intro c hc
    split at hc
    . next u us m ms heq =>
      rw [heq] at hbehind
      rw [List.mem_singleton.mp hc]
      exact hbehind m List.mem_cons_self
    . exact hbehind c hc
  isClosing := b.isClosing

theorem eq_nil_of_length_cons {α : Type} {m : α} {ms : List α} (h : (m :: ms).length ≤ 1) : ms = [] :=
  List.eq_nil_of_length_eq_zero (Nat.le_zero.mp (Nat.le_of_succ_le_succ h))

theorem outPieces_nil (closing : Bytes) (us : List (Cutout marker × List Bytes))
    : outPieces closing us [] = us.flatMap fun u => u.1.lines := by
  induction us with
  | nil => rfl
  | cons u us ih =>
    rw [outPieces, behind, List.append_nil, List.tail_nil, ih]
    rfl

theorem mergedBlock_single {b : UserBlock marker} (hb : b.cutouts.length ≤ 1)
    (us : List (Cutout marker × List Bytes))
    : mergedBlock b.blockLines us
        = (mergedUser b us).lines ++ (us.drop b.cutouts.length).flatMap fun u => u.1.lines := by
  rw [mergedBlock_blockLines, UserBlock.lines, mergedUser]
  dsimp only
  obtain ⟨opening, head, cutouts, closing, isOpening, isTag, isHead, isBehind, isClosing⟩ := b
  dsimp only at hb ⊢
  cases cutouts with
  | nil =>
    rw [outPieces_nil]
    cases us <;> simp [UserBlock.pieces]
  | cons m ms =>
    obtain rfl := eq_nil_of_length_cons hb
    cases us with
    | nil => simp [outPieces]
    | cons u us => simp [outPieces, outPieces_nil, behind, UserBlock.pieces]

theorem mergedUser_again {b : UserBlock marker} (hb : b.cutouts.length ≤ 1)
    (us : List (Cutout marker × List Bytes))
    : mergedUser b (mergedUser b us).cutouts = mergedUser b us
        ∧ (mergedUser b us).cutouts.length = b.cutouts.length := by
  obtain ⟨opening, head, cutouts, closing, isOpening, isTag, isHead, isBehind, isClosing⟩ := b
  dsimp only at hb ⊢
  cases cutouts with
  | nil => cases us <;> exact ⟨rfl, rfl⟩
  | cons m ms =>
    obtain rfl := eq_nil_of_length_cons hb
    cases us <;> exact ⟨rfl, rfl⟩

/-
Segments that are put out as they are.
-/

def Fixed (master : MasterFile) (seg : Segment marker) : Prop :=
  mergedSegment master master.blocks seg = seg.lines

section Known

variable {segs : List (Segment marker)} {text : Bytes} (hmaster : IsMaster segs text)
include hmaster

theorem mergedSegment_known {i : Nat} {m b : UserBlock marker} (hm : (Segment.blocks segs)[i]? = some m)
    (htag : m.tag = b.tag)
    : mergedSegment (new text marker) (new text marker).blocks (.block b)
        = mergedBlock m.blockLines b.cutouts := by
  unfold mergedSegment
  dsimp only
  rw [← htag, findBlock_tag hmaster hm]
  dsimp only
  rw [blockLines_new hmaster hm]

theorem fixed_mergedUser {i : Nat} {m : UserBlock marker} (hm : (Segment.blocks segs)[i]? = some m)
    (hsingle : m.cutouts.length ≤ 1) (us : List (Cutout marker × List Bytes))
    : Fixed (new text marker) (.block (mergedUser m us)) := by
  obtain ⟨hagain, hlength⟩ := mergedUser_again hsingle us
  have htag : m.tag = (mergedUser m us).tag := rfl
  rw [Fixed, mergedSegment_known hmaster hm htag, mergedBlock_single hsingle, hagain,
    List.drop_of_length_le (Nat.le_of_eq hlength)]
  exact List.append_nil _

end Known

/-
Lines that are not put out as they are, whatever comes behind them.
-/

-- What has been put out in the end
def finish (last : Bytes) (s : Merge) : List Bytes :=
  s.out ++ (if s.orphan then [last] else []) ++ unusedLines s.blocks

def SameBlocks (master : MasterFile) (s : Merge) : Prop :=
  ∀ j, blockLines s.blocks j = blockLines master.blocks j

def Diverges (master : MasterFile) (marker : Bytes) (ls : List Bytes) : Prop :=
  ∀ s : Merge, s.Outside → SameBlocks master s → ∀ rest last,
    finish last ((ls ++ rest).foldl (master.mergeLine marker false) s) ≠ s.out ++ (ls ++ rest)

theorem foldl_grows {master : MasterFile} {deleteOrphans : Bool} (ls : List Bytes) (s : Merge)
    : s.out <+: (ls.foldl (master.mergeLine marker deleteOrphans) s).out := by
  induction ls generalizing s with
  | nil => exact List.prefix_refl _
  | cons l ls ih => exact mergeLine_grows.trans (ih _)

theorem finish_grows (last : Bytes) (s : Merge) : s.out <+: finish last s := by
  rw [finish, List.append_assoc]
  exact List.prefix_append _ _

namespace Diverges

variable {master : MasterFile} {ls : List Bytes}

theorem of_out {ls' : List Bytes} (outs : List Bytes)
    (hout : ∀ s : Merge, s.Outside → SameBlocks master s →
      (ls.foldl (master.mergeLine marker false) s).out = s.out ++ outs)
    (hne : ∀ rest, ¬outs <+: ls ++ (ls' ++ rest))
    : Diverges master marker (ls ++ ls') := by
  intro s hs hsame rest last heq
  have hgrows : (ls.foldl (master.mergeLine marker false) s).out
      <+: finish last ((ls ++ ls' ++ rest).foldl (master.mergeLine marker false) s) := by
    rw [List.append_assoc, List.foldl_append]
    exact (foldl_grows _ _).trans (finish_grows last _)
  rw [heq, hout s hs hsame, List.prefix_append_right_inj, List.append_assoc] at hgrows
  exact hne rest hgrows

theorem append (h : Diverges master marker ls) (ls' : List Bytes) : Diverges master marker (ls ++ ls') := by
  intro s hs hsame rest last
  rw [List.append_assoc]
  exact h s hs hsame (ls' ++ rest) last

theorem behind {seg : Segment marker} (hseg : Fixed master seg) (h : Diverges master marker ls)
    : Diverges master marker (seg.lines ++ ls) := by
  intro s hs hsame rest last
  obtain ⟨bp, hfold⟩ := @foldl_segment master marker s hs seg
  rw [Merge.mergedSegment_congr hsame, hseg] at hfold
  have hdiverges := h { s with
      out := s.out ++ seg.lines
      bp
      blocks := markSegment master s.blocks seg } ⟨hs.b, hs.useLines, hs.orphan⟩
    (fun j => (Merge.blockLines_markSegment master seg s.blocks j).trans (hsame j)) rest last
  rw [List.append_assoc, List.foldl_append, hfold]
  rw [List.append_assoc] at hdiverges
  exact hdiverges

end Diverges

theorem lineType_nil (marker : Bytes) : lineType marker [] = .normal := by
  unfold lineType find
  split <;> rfl

theorem unusedLines_head {blocks : List Block} {l : Bytes} {ls : List Bytes}
    (h : unusedLines blocks = l :: ls)
    : l = [] := by
  induction blocks with
  | nil => cases h
  | cons b blocks ih =>
    rw [unusedLines, List.flatMap_cons] at h
    split at h
    . exact ih h
    . exact (List.cons.inj h).1.symm

-- What has been put out between two states does not start with the start of a cut-out
def Starts (marker : Bytes) (s s' : Merge) : Prop :=
  (s'.out = s.out ∧ s'.orphan = false) ∨ ∃ l, lineType marker l ≠ .userStart ∧ s.out ++ [l] <+: s'.out

section Known

variable {segs : List (Segment marker)} {text : Bytes} (hmaster : IsMaster segs text)
include hmaster

-- Outside of the blocks, nothing is put out for a marked line but the opening of a block
theorem firstLine {s : Merge} (hs : s.Outside) (hsame : SameBlocks (new text marker) s) (ls : List Bytes)
    : Starts marker s (ls.foldl ((new text marker).mergeLine marker false) s) := by
  induction ls with
  | nil => exact Or.inl ⟨rfl, hs.orphan⟩
  | cons l ls ih =>
    rw [List.foldl_cons]
    have hstays (heq : (new text marker).mergeLine marker false s l = s)
        : Starts marker s (ls.foldl ((new text marker).mergeLine marker false)
            ((new text marker).mergeLine marker false s l)) := by
      rw [heq]
      exact ih
    have hprints {l' : Bytes} (hl' : lineType marker l' ≠ .userStart)
        (hout : s.out ++ [l'] <+: ((new text marker).mergeLine marker false s l).out)
        : Starts marker s (ls.foldl ((new text marker).mergeLine marker false)
            ((new text marker).mergeLine marker false s l)) :=
      Or.inr ⟨l', hl', hout.trans (foldl_grows ls _)⟩
    cases htype : lineType marker l with
    | normal =>
      refine hprints (by rw [htype]; decide) ?_
      rw [mergeLine_normal hs.orphan htype, if_pos hs.useLines]
      exact List.prefix_refl _
    | open_ =>
      by_cases htag : lineTag marker l = []
      . refine hstays ?_
        simp [mergeLine, hs.orphan, htype, htag]
      . rcases findBlock_cases hmaster (lineTag marker l) with ⟨i, b, hfind, hb, -⟩ | ⟨hfind, -⟩
        . refine @hprints b.opening (by rw [b.isOpening]; decide) ?_
          rw [mergeLine_known hs.orphan htype htag hfind]
          have hlines : blockLines s.blocks i = b.blockLines :=
            (hsame i).trans (blockLines_new hmaster hb)
          have hopening : notUserStart (typed marker b.opening) = true := by
            simp [notUserStart, typed, b.isOpening]
          refine (List.prefix_append_right_inj s.out).mpr ?_
          change [b.opening] <+: texts ((blockLines s.blocks i).takeWhile notUserStart)
          rw [hlines, UserBlock.blockLines, UserBlock.lines, List.map_cons,
            List.takeWhile_cons_of_pos hopening]
          exact ⟨_, rfl⟩
        . refine hprints (by rw [htype]; decide) ?_
          rw [mergeLine_unknown hs.orphan htype htag hfind]
          exact List.prefix_refl _
    | close =>
      refine hstays ?_
      rw [mergeLine_close hs.orphan htype, closeBlock_outside hs]
    | userStart =>
      refine hstays ?_
      rw [mergeLine_userStart hs.orphan htype, Merge.userStart, hs.b]
    | userEnd =>
      refine hstays ?_
      rw [mergeLine_userEnd hs.orphan htype, Merge.userEnd, hs.b]

theorem diverges_userStart {l : Bytes} (hl : lineType marker l = .userStart) (ls : List Bytes)
    : Diverges (new text marker) marker (l :: ls) := by
  intro s hs hsame rest last heq
  rcases firstLine hmaster hs hsame (l :: ls ++ rest) with ⟨hout, horphan⟩ | ⟨l', hl', hgrows⟩
  . rw [finish, hout, horphan, List.append_assoc, List.append_right_inj] at heq
    have hnil := unusedLines_head ((List.nil_append _).symm.trans heq)
    rw [hnil, lineType_nil] at hl
    cases hl
  . have hfirst := hgrows.trans (finish_grows last _)
    rw [heq, List.prefix_append_right_inj, List.cons_append] at hfirst
    rw [(List.cons_prefix_cons.mp hfirst).1] at hl'
    exact hl' hl

/-
Blocks with several cut-outs in the master.
-/

theorem foldl_first {s : Merge} (hs : s.Outside) (hsame : SameBlocks (new text marker) s) {i : Nat}
    {m : UserBlock marker} (hm : (Segment.blocks segs)[i]? = some m)
    {c c' : Cutout marker × List Bytes} {cs : List (Cutout marker × List Bytes)}
    (hcutouts : m.cutouts = c :: c' :: cs) (u : Cutout marker)
    : ∃ s', (m.opening :: m.head ++ u.lines ++ c.2).foldl ((new text marker).mergeLine marker false) s = s'
        ∧ s'.out = s.out ++ (m.opening :: m.head ++ u.lines ++ c.2 ++ [c'.1.start])
        ∧ s'.Inside i := by
  have hlines : blockLines s.blocks i = m.blockLines := (hsame i).trans (blockLines_new hmaster hm)
  obtain ⟨hdrop, htake⟩ := parts_of_pieces m.isClosing m.isHead m.cutouts
  have hopening : notUserStart (typed marker m.opening) = true := by
    simp [notUserStart, typed, m.isOpening]
  have hblock : m.blockLines = typed marker m.opening
      :: (m.head ++ (UserBlock.pieces m.cutouts ++ [m.closing])).map (typed marker) := by
    rw [UserBlock.blockLines, UserBlock.lines, List.map_cons, List.append_assoc]
  have hinside : (s.openBlock i).Inside i := ⟨rfl, hs.orphan⟩
  have hbp : (s.openBlock i).bp = bpOf m.closing m.cutouts := by
    change (blockLines s.blocks i).dropWhile notUserStart = _
    rw [hlines, hblock, List.dropWhile_cons_of_pos hopening, hdrop]
  have hout : (s.openBlock i).out = s.out ++ (m.opening :: m.head) := by
    change s.out ++ texts ((blockLines s.blocks i).takeWhile notUserStart) = _
    rw [hlines, hblock, List.takeWhile_cons_of_pos hopening, htake, hcutouts]
    simp [texts, typed, Function.comp_def]
  obtain ⟨hbehind, hnext⟩ := behindCutout_bpOf m.isClosing m.isBehind
  have hnormal : ∀ l ∈ c.2, lineType marker l = .normal :=
    m.isBehind c (hcutouts ▸ List.mem_cons_self)
  refine ⟨_, rfl, ?_⟩
  rw [List.foldl_append, List.foldl_append, List.foldl_cons,
    mergeLine_known hs.orphan m.isOpening m.isTag (findBlock_tag hmaster hm),
    foldl_suppressed m.isHead hinside.orphan rfl, foldl_cutout hinside, foldl_suppressed hnormal]
  . refine ⟨?_, rfl, hs.orphan⟩
    change (s.openBlock i).out ++ (u.lines ++ texts (behindCutout (s.openBlock i).bp)) = _
    rw [hbp, hbehind, hout, hcutouts, behind]
    simp
  . exact hs.orphan
  . rfl

-- The start of the next cut-out is put out once with the master and once for the user
theorem foldl_twice {s : Merge} (hs : s.Outside) (hsame : SameBlocks (new text marker) s) {i : Nat}
    {m : UserBlock marker} (hm : (Segment.blocks segs)[i]? = some m)
    {c c' : Cutout marker × List Bytes} {cs : List (Cutout marker × List Bytes)}
    (hcutouts : m.cutouts = c :: c' :: cs) (u : Cutout marker)
    : ∃ s', (m.opening :: m.head ++ u.lines ++ c.2 ++ [c'.1.start]).foldl
          ((new text marker).mergeLine marker false) s = s'
        ∧ s'.out = s.out ++ (m.opening :: m.head ++ u.lines ++ c.2 ++ [c'.1.start] ++ [c'.1.start])
        ∧ s'.Inside i := by
  obtain ⟨s', hfold, hout, hinside⟩ := foldl_first hmaster hs hsame hm hcutouts u
  refine ⟨_, rfl, ?_⟩
  rw [List.foldl_append, hfold, List.foldl_cons, List.foldl_nil,
    mergeLine_userStart hinside.orphan c'.1.isStart, Merge.userStart, hinside.b]
  refine ⟨?_, rfl, hinside.orphan⟩
  simp [Merge.print, hout]

theorem diverges_several {i : Nat} {m : UserBlock marker} (hm : (Segment.blocks segs)[i]? = some m)
    (hseveral : 2 ≤ m.cutouts.length) (us : List (Cutout marker × List Bytes))
    : Diverges (new text marker) marker (mergedBlock m.blockLines us) := by
  obtain ⟨c, c', cs, hcutouts⟩ : ∃ c c' cs, m.cutouts = c :: c' :: cs := by
    match h : m.cutouts with
    | [] => simp [h] at hseveral
    | [_] => simp [h] at hseveral
    | c :: c' :: cs => exact ⟨c, c', cs, rfl⟩
  rw [mergedBlock_blockLines, hcutouts, if_neg (List.cons_ne_nil _ _), List.append_nil]
  cases us with
  | nil =>
    obtain ⟨l, ls, hlines, hl⟩ := c'.1.exists_second
    have hsplit : m.opening :: m.head ++ outPieces m.closing [] (c :: c' :: cs)
        = (m.opening :: m.head ++ c.1.lines ++ c.2 ++ [c'.1.start])
          ++ (l :: (ls ++ (c'.2 ++ UserBlock.pieces cs ++ [m.closing]))) := by
      simp [outPieces, UserBlock.pieces, hlines]
    rw [hsplit]
    refine Diverges.of_out (m.opening :: m.head ++ c.1.lines ++ c.2 ++ [c'.1.start] ++ [c'.1.start])
      (fun s hs hsame => ?_) ?_
    . obtain ⟨s', hfold, hout, -⟩ := foldl_twice hmaster hs hsame hm hcutouts c.1
      rw [hfold, hout]
    . intro rest hgrows
      rw [List.prefix_append_right_inj, List.cons_append] at hgrows
      rw [← (List.cons_prefix_cons.mp hgrows).1] at hl
      exact hl c'.1.isStart
  | cons u us =>
    -- Behind the start that comes from the master there is the one of the next cut-out
    obtain ⟨w, behind, hw⟩ : ∃ (w : Cutout marker) (behind : List Bytes),
        outPieces m.closing us (c' :: cs) = w.lines ++ behind := by
      cases us with
      | nil => exact ⟨c'.1, c'.2 ++ (UserBlock.pieces cs ++ [m.closing]), by simp [outPieces, UserBlock.pieces]⟩
      | cons u' us => exact ⟨u'.1, _, List.append_assoc _ _ _⟩
    obtain ⟨l, ls, hlines, hl⟩ := w.exists_second
    have hsplit : m.opening :: m.head ++ outPieces m.closing (u :: us) (c :: c' :: cs)
        = (m.opening :: m.head ++ u.1.lines ++ c.2 ++ [c'.1.start] ++ [w.start])
          ++ (l :: (ls ++ behind)) := by
      rw [outPieces, List.tail_cons, hw, hlines]
      simp [MasterFile.behind]
    rw [hsplit]
    refine Diverges.of_out
      (m.opening :: m.head ++ u.1.lines ++ c.2 ++ [c'.1.start] ++ [c'.1.start] ++ [w.start])
      (fun s hs hsame => ?_) ?_
    . obtain ⟨s', hfold, hout, hinside⟩ := foldl_twice hmaster hs hsame hm hcutouts u.1
      rw [List.foldl_append, hfold, List.foldl_cons, List.foldl_nil,
        mergeLine_userStart hinside.orphan w.isStart, Merge.userStart, hinside.b]
      simp [Merge.print, hout]
    . intro rest hgrows
      simp only [List.append_assoc, List.prefix_append_right_inj, List.cons_append, List.nil_append,
        List.cons_prefix_cons] at hgrows
      rw [← hgrows.2.2.2.1] at hl
      exact hl w.isStart

end Known

end MasterFile

end ReGen
end ObTools
