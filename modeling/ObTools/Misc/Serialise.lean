import ObTools.Channel.Reader
import ObTools.Misc.Inverse
import ObTools.Text.Convert
import ObTools.Text.Split

/-!
This module contains the model of how a `Misc::UInt64RangeSet` is read and written, as text and in
binary, and the proof of what comes back.
-/

namespace ObTools
namespace Misc
namespace RangeSet

open Channel (Error Writer.writeNbo32 Writer.writeNbo64)
open Intervals (separated_nil separated_cons)

-- One more range of `str`, e.g. `1-100,110,120`
def strStep (s : List UInt8) (r : Range) : List UInt8 :=
  let s := if s.isEmpty then s else s ++ [44]
  let s := s ++ Text.i64tos r.start
  if r.length > 1 then
    s ++ [45] ++ Text.i64tos (r.start + r.length - 1)
  else
    s

def str (rs : RangeSet) : List UInt8 := rs.ranges.foldl strStep []

def readField (rs : RangeSet) (range : List UInt8) : RangeSet :=
  if range.isEmpty then
    rs
  else
    match Text.splitFields range 45 with
    | [] => rs
    | [first] => rs.insert (Text.stoi first).toInt64.toUInt64 1
    -- Two ends
    | first :: second :: _ =>
      let start := (Text.stoi first).toInt64.toUInt64
      rs.insert start (Text.stoi64 second - start + 1)

-- `read` of a string
def readText (rs : RangeSet) (text : List UInt8) : RangeSet :=
  (Text.splitFields text 44).foldl readField rs

section Channel

variable {σ : Type} (tryRead : Nat → σ → Channel.ReadResult σ)

def readLoop : Nat → RangeSet → σ → Except Error (RangeSet × σ)
  | 0, rs, chan => .ok (rs, chan)
  | n + 1, rs, chan => do
    let (start, chan) ← Channel.Reader.readNbo64 tryRead chan
    let (length, chan) ← Channel.Reader.readNbo64 tryRead chan
    readLoop n (rs.insert start length) chan

-- `read` of a channel
def read (rs : RangeSet) (chan : σ) : Except Error (RangeSet × σ) := do
  let (endOffset, chan) ← Channel.Reader.readNbo64 tryRead chan
  let (n, chan) ← Channel.Reader.readNbo32 tryRead chan
  readLoop tryRead n.toNat { rs with endOffset } chan

end Channel

def write (rs : RangeSet) : List UInt8 :=
  Writer.writeNbo64 rs.endOffset ++ Writer.writeNbo32 (UInt32.ofNat rs.ranges.length)
    ++ rs.ranges.flatMap fun r => Writer.writeNbo64 r.start ++ Writer.writeNbo64 r.length

section Text

variable {r : Range} {l : List Range} {s : List UInt8}

-- The fields of `str`
def rangeText (r : Range) : List UInt8 :=
  [45].intercalate (Text.i64tos r.start
    :: if r.length > 1 then [Text.i64tos (r.start + r.length - 1)] else [])

theorem isDigit_class
    : ∀ c : UInt8, Digits.isDigit 10 c = true →
        c ≠ 44 ∧ c ≠ 45 ∧ ¬(c = 32 ∨ c = 9 ∨ c = 13 ∨ c = 10) := by
  apply Digits.forall_byte
  decide

theorem i64tos_isDigit (i : UInt64) : ∀ c ∈ Text.i64tos i, Digits.isDigit 10 c = true := by
  intro c hc
  exact Digits.isDigit_of_mem_toBytes (by decide) (by decide) hc

theorem i64tos_isField (i : UInt64) : Text.IsField 45 (Text.i64tos i) := by
  constructor
  . intro hmem
    exact (isDigit_class 45 (i64tos_isDigit i 45 hmem)).2.1 rfl
  . intro c hc
    exact (isDigit_class c (i64tos_isDigit i c hc)).2.2

theorem rangeText_eq (r : Range)
    : rangeText r = Text.i64tos r.start
        ++ if r.length > 1 then 45 :: Text.i64tos (r.start + r.length - 1) else [] := by
  unfold rangeText
  split
  . rw [List.intercalate_cons_cons, List.intercalate_singleton, List.append_assoc]
    rfl
  . rw [List.intercalate_singleton, List.append_nil]

theorem rangeText_ne_nil (r : Range) : rangeText r ≠ [] := by
  have hne : Text.i64tos r.start ≠ [] := Digits.toBytes_ne_nil
  rw [rangeText_eq]
  simp [hne]

theorem rangeText_isField (r : Range) : Text.IsField 44 (rangeText r) := by
  have hclass : ∀ c ∈ rangeText r, Digits.isDigit 10 c = true ∨ c = 45 := by
    intro c hc
    rw [rangeText_eq, List.mem_append] at hc
    cases hc with
    | inl hc => exact .inl (i64tos_isDigit _ c hc)
    | inr hc =>
      split at hc
      . rw [List.mem_cons] at hc
        cases hc with
        | inl heq => exact .inr heq
        | inr hc => exact .inl (i64tos_isDigit _ c hc)
      . cases hc
  constructor
  . intro hmem
    cases hclass 44 hmem with
    | inl hdigit => exact (isDigit_class 44 hdigit).1 rfl
    | inr heq => cases heq
  . intro c hc
    cases hclass c hc with
    | inl hdigit => exact (isDigit_class c hdigit).2.2
    | inr heq =>
      rw [heq]
      decide

theorem intercalate_snoc (d : UInt8) (a b : List UInt8) (fields : List (List UInt8))
    : [d].intercalate ((a ++ d :: b) :: fields) = [d].intercalate (a :: b :: fields) := by
  cases fields with
  | nil =>
    rw [List.intercalate_singleton, List.intercalate_cons_cons, List.intercalate_singleton,
      List.append_assoc]
    rfl
  | cons c fields =>
    rw [List.intercalate_cons_cons, List.intercalate_cons_cons, List.intercalate_cons_cons]
    simp only [List.append_assoc, List.cons_append, List.nil_append]

theorem strStep_eq (s : List UInt8) (r : Range)
    : strStep s r = (if s.isEmpty then s else s ++ [44]) ++ rangeText r := by
  rw [rangeText_eq]
  unfold strStep
  dsimp only
  by_cases hlong : r.length > 1
  . rw [if_pos hlong, if_pos hlong, List.append_assoc, List.append_assoc]
    rfl
  . rw [if_neg hlong, if_neg hlong, List.append_nil]

theorem strStep_of_ne_nil (hs : s ≠ []) (r : Range) : strStep s r = s ++ 44 :: rangeText r := by
  have hne : ¬s.isEmpty = true := by simpa using hs
  rw [strStep_eq, if_neg hne, List.append_assoc]
  rfl

theorem foldl_strStep (hs : s ≠ [])
    : l.foldl strStep s = [44].intercalate (s :: l.map rangeText) := by
  induction l generalizing s with
  | nil => rw [List.map_nil, List.intercalate_singleton, List.foldl_nil]
  | cons r l ih =>
    rw [List.foldl_cons, strStep_of_ne_nil hs, ih (by simp), List.map_cons, intercalate_snoc]

theorem splitFields_str (rs : RangeSet)
    : Text.splitFields rs.str 44 = if rs.ranges = [] then [[]] else rs.ranges.map rangeText := by
  unfold str
  cases rs.ranges with
  | nil => rfl
  | cons r l =>
    have hfirst : strStep [] r = rangeText r := strStep_eq [] r
    rw [List.foldl_cons, hfirst, foldl_strStep (rangeText_ne_nil r), if_neg (List.cons_ne_nil _ _),
      List.map_cons]
    apply Text.splitFields_intercalate
    intro field hfield
    rw [← List.map_cons, List.mem_map] at hfield
    obtain ⟨r', _, rfl⟩ := hfield
    exact rangeText_isField r'

-- The start of a range as it is read
def readStart (start : UInt64) : UInt64 := (Text.stoi (Text.i64tos start)).toInt64.toUInt64

-- What is read for a range
def readBack (r : Range) : Range where
  start := readStart r.start
  length := if r.length > 1 then r.start + r.length - 1 - readStart r.start + 1 else 1

theorem stoi64_i64tos (i : UInt64) : Text.stoi64 (Text.i64tos i) = i := by
  unfold Text.i64tos
  rw [(Text.stoi64_decimal i.toNat_lt).1, UInt64.ofNat_toNat]

theorem splitFields_rangeText (r : Range)
    : Text.splitFields (rangeText r) 45
        = Text.i64tos r.start
            :: if r.length > 1 then [Text.i64tos (r.start + r.length - 1)] else [] := by
  apply Text.splitFields_intercalate
  intro field hfield
  rw [List.mem_cons] at hfield
  cases hfield with
  | inl heq =>
    rw [heq]
    exact i64tos_isField _
  | inr hsecond =>
    split at hsecond
    . rw [List.mem_singleton.mp hsecond]
      exact i64tos_isField _
    . cases hsecond

theorem readField_rangeText (rs : RangeSet) (r : Range)
    : readField rs (rangeText r) = rs.insert (readBack r).start (readBack r).length := by
  have hne : ¬(rangeText r).isEmpty = true := by simpa using rangeText_ne_nil r
  unfold readField readBack
  rw [if_neg hne, splitFields_rangeText]
  by_cases hlong : r.length > 1
  . rw [if_pos hlong, if_pos hlong]
    dsimp only
    rw [stoi64_i64tos]
    rfl
  . rw [if_neg hlong, if_neg hlong]
    rfl

theorem readText_str (rs rs' : RangeSet)
    : rs'.readText rs.str
        = (rs.ranges.map readBack).foldl (fun rs r => rs.insert r.start r.length) rs' := by
  unfold readText
  rw [splitFields_str]
  cases rs.ranges with
  | nil => rfl
  | cons r l =>
    rw [if_neg (List.cons_ne_nil _ _), List.foldl_map, List.foldl_map]
    simp only [readField_rangeText]

theorem toNat_toUInt64 (i : Int64) : (i.toUInt64.toNat : Int) = i.toInt % 2 ^ 64 := by
  have hbmod : i.toInt = Int.bmod i.toUInt64.toNat (2 ^ 64) := BitVec.toInt_eq_toNat_bmod i.toBitVec
  have hlt := i.toUInt64.toNat_lt
  rw [hbmod, Int.bmod_def]
  omega

theorem readStart_toNat (start : UInt64)
    : ((readStart start).toNat : Int)
        = Int.bmod (min start.toNat (2 ^ 63 - 1) : Int) (2 ^ 32) % 2 ^ 64 := by
  have hsize : Int32.size = 2 ^ 32 := rfl
  unfold readStart Text.i64tos
  rw [Text.stoi_decimal, toNat_toUInt64, Int32.toInt_toInt64, Int32.toInt_ofInt, hsize]

theorem readStart_of_lt {start : UInt64} (h : start.toNat < 2 ^ 31) : readStart start = start := by
  have hlt := readStart_toNat start
  rw [← UInt64.toNat_inj]
  rw [Int.bmod_def] at hlt
  omega

theorem readStart_far (start : UInt64)
    : (readStart start).toNat < 2 ^ 31 ∨ 2 ^ 64 - 2 ^ 31 ≤ (readStart start).toNat := by
  have hlt := readStart_toNat start
  rw [Int.bmod_def] at hlt
  omega

theorem readStart_of_ge {start : UInt64} (h : 2 ^ 63 ≤ start.toNat)
    : (readStart start).toNat = 2 ^ 64 - 1 := by
  have hlt := readStart_toNat start
  have hmin : (min start.toNat (2 ^ 63 - 1) : Int) = 2 ^ 63 - 1 := by omega
  rw [hmin] at hlt
  have hmod : Int.bmod (2 ^ 63 - 1) (2 ^ 32) = -1 := by decide
  rw [hmod] at hlt
  omega

theorem readBack_of_lt (hstart : r.start.toNat < 2 ^ 31) (hlen : 0 < r.length.toNat) : readBack r = r := by
  unfold readBack
  rw [readStart_of_lt hstart]
  split
  . next hlong =>
    have hback : r.start + r.length - 1 - r.start + 1 = r.length := by
      grind
    rw [hback]
  . next hshort =>
    have hone : r.length = 1 := by
      rw [gt_iff_lt, UInt64.lt_iff_toNat_lt] at hshort
      rw [← UInt64.toNat_inj]
      have : (1 : UInt64).toNat = 1 := rfl
      omega
    rw [← hone]

theorem merge_start (a b : Range) : (a.merge b).start = a.start ∨ (a.merge b).start = b.start := by
  have hmin : (a.merge b).start = if a.start ≤ b.start then a.start else b.start := rfl
  rw [hmin]
  split
  . exact .inl rfl
  . exact .inr rfl

theorem eat_start (range : Range) (l : List Range)
    : ((eat range l).1.start = range.start ∨ ∃ a ∈ l, (eat range l).1.start = a.start)
        ∧ (eat range l).2 <:+ l := by
  induction l generalizing range with
  | nil => exact ⟨.inl rfl, List.suffix_refl _⟩
  | cons it l ih =>
    unfold eat
    split
    . obtain ⟨hstart, hsuffix⟩ := ih (range.merge it)
      refine ⟨?_, hsuffix.trans (List.suffix_cons it l)⟩
      cases hstart with
      | inl heq =>
        rw [heq]
        exact (merge_start range it).imp_right fun heq => ⟨it, List.mem_cons_self, heq⟩
      | inr hex =>
        obtain ⟨a, ha, heq⟩ := hex
        exact .inr ⟨a, List.mem_cons_of_mem it ha, heq⟩
    . exact ⟨.inl rfl, List.suffix_refl _⟩

theorem insertCursor_ranges (ranges : List Range) (range : Range)
    : (insertCursor ranges range).before ++ (insertCursor ranges range).rest = ranges := by
  have hranges : _ = ranges := Cursor.lowerBound_ranges (r := range)
  unfold insertCursor
  dsimp only
  split
  . next hpast =>
    obtain ⟨before, p, hp, hprev⟩ := Cursor.stepBack_of_pastStart hpast
    rw [hprev]
    dsimp only
    split
    . exact hranges
    . rw [hp, List.append_assoc] at hranges
      exact hranges
  . exact hranges

/-
Whatever is inserted, a range starts where one of them or one of those before does.
-/
theorem insert_start {rs : RangeSet} {start length : UInt64} {a : Range}
    (ha : a ∈ (rs.insert start length).ranges)
    : a.start = start ∨ ∃ b ∈ rs.ranges, a.start = b.start := by
  unfold insert at ha
  split at ha
  . exact .inr ⟨a, ha, rfl⟩
  . dsimp only at ha
    have hranges := insertCursor_ranges rs.ranges { start, length }
    have heat := eat_start { start, length } (insertCursor rs.ranges { start, length }).rest
    generalize insertCursor rs.ranges { start, length } = it at ha hranges heat
    generalize eat { start, length } it.rest = eaten at ha heat
    obtain ⟨hstart, hsuffix⟩ := heat
    have hrest : ∀ b ∈ it.rest, b ∈ rs.ranges := by
      intro b hb
      rw [← hranges]
      exact List.mem_append_right it.before hb
    cases mem_setInsert ha with
    | inl heq =>
      rw [heq]
      apply hstart.imp_right
      rintro ⟨b, hb, heq⟩
      exact ⟨b, hrest b hb, heq⟩
    | inr hmem =>
      rw [List.mem_append] at hmem
      cases hmem with
      | inl hbefore =>
        refine .inr ⟨a, ?_, rfl⟩
        rw [← hranges]
        exact List.mem_append_left it.rest hbefore
      | inr hafter => exact .inr ⟨a, hrest a (hsuffix.subset hafter), rfl⟩

theorem foldl_insert_start {rs : RangeSet} {a : Range}
    (ha : a ∈ (l.foldl (fun rs r => rs.insert r.start r.length) rs).ranges)
    : (∃ b ∈ l, a.start = b.start) ∨ ∃ b ∈ rs.ranges, a.start = b.start := by
  induction l generalizing rs with
  | nil => exact .inr ⟨a, ha, rfl⟩
  | cons r l ih =>
    rw [List.foldl_cons] at ha
    cases ih ha with
    | inl hex =>
      obtain ⟨b, hb, heq⟩ := hex
      exact .inl ⟨b, List.mem_cons_of_mem r hb, heq⟩
    | inr hex =>
      obtain ⟨b, hb, heq⟩ := hex
      cases insert_start hb with
      | inl hstart => exact .inl ⟨r, List.mem_cons_self, heq.trans hstart⟩
      | inr hbefore =>
        obtain ⟨c, hc, hstart⟩ := hbefore
        exact .inr ⟨c, hc, heq.trans hstart⟩

theorem maxEnd_eq {n : Nat} (hl : ∀ r ∈ l, r.hi ≤ n) : maxEnd n l = n := by
  unfold maxEnd
  induction l with
  | nil => rfl
  | cons r l ih =>
    have ih := ih fun a ha => hl a (List.mem_cons_of_mem r ha)
    rw [List.filter_cons]
    split
    . rw [List.foldl_cons, Nat.max_eq_left (hl r List.mem_cons_self)]
      exact ih
    . exact ih

-- Nothing is merged when the ranges of a set are inserted one after another.
theorem foldl_insert_self {rs : RangeSet} (h : rs.Optimal) (e : UInt64)
    : (rs.ranges.foldl (fun rs r => rs.insert r.start r.length) (new e)).ranges = rs.ranges
        ∧ (rs.ranges.foldl (fun rs r => rs.insert r.start r.length) (new e)).endOffset.toNat
            = maxEnd e.toNat rs.ranges := by
  obtain ⟨hoptimal, hpoints, hend⟩ := foldl_insert_spec (new_optimal e) h.bounded
  refine ⟨?_, hend⟩
  apply hoptimal.toWellFormed.ranges_eq h.toWellFormed
  intro x
  rw [hpoints]
  simp [points, new]

theorem readText_str_iff {rs : RangeSet} (h : rs.Optimal) (e : UInt64)
    : ((new e).readText rs.str).ranges = rs.ranges ↔ ∀ r ∈ rs.ranges, r.start.toNat < 2 ^ 31 := by
  rw [readText_str]
  constructor
  . intro hback r hr
    by_contra hge
    have hinserted : ∀ a ∈ rs.ranges, ∃ b ∈ rs.ranges, a.start = readStart b.start := by
      intro a ha
      rw [← hback] at ha
      cases foldl_insert_start ha with
      | inl hex =>
        obtain ⟨b, hb, heq⟩ := hex
        rw [List.mem_map] at hb
        obtain ⟨c, hc, rfl⟩ := hb
        exact ⟨c, hc, heq⟩
      | inr hex =>
        obtain ⟨b, hb, _⟩ := hex
        cases hb
    -- The start is one that has been read, and so is the start that it has been read from.
    obtain ⟨a, ha, hra⟩ := hinserted r hr
    obtain ⟨b, hb, hab⟩ := hinserted a ha
    have hfar := readStart_far a.start
    have hfar' := readStart_far b.start
    rw [← hra] at hfar
    rw [← hab] at hfar'
    have hsmall : 2 ^ 31 ≤ a.start.toNat := by
      by_contra hlt
      rw [readStart_of_lt (by omega)] at hra
      rw [hra] at hge
      omega
    have hmax := @readStart_of_ge a.start (by omega)
    have hbounded := h.bounded r hr
    have hpos := h.separated.lt r hr
    rw [← hra] at hmax
    unfold Range.Bounded Range.hi Range.lo at *
    omega
  . intro hsmall
    have hsame : rs.ranges.map readBack = rs.ranges := by
      apply (List.map_congr_left _).trans (List.map_id rs.ranges)
      intro r hr
      have hpos := h.separated.lt r hr
      unfold Range.lo Range.hi at hpos
      exact readBack_of_lt (hsmall r hr) (by omega)
    rw [hsame]
    exact (foldl_insert_self h e).1

end Text

section Binary

open Channel (Lawful)
open Channel.Reader (readNbo32_append readNbo64_append)

variable {σ : Type} {basicRead : Channel.BasicRead σ} {data : σ → List UInt8}
variable (hlawful : Lawful basicRead data)
include hlawful

theorem readNbo64_write {chan : σ} {i : UInt64} {rest : List UInt8}
    (hdata : data chan = Writer.writeNbo64 i ++ rest)
    : ∃ chan', Channel.Reader.readNbo64 (Channel.Reader.tryRead basicRead) chan = .ok (i, chan')
        ∧ data chan' = rest := by
  apply readNbo64_append hlawful
  rw [hdata]
  exact List.append_assoc _ _ _

theorem readLoop_append (rs : RangeSet) (l : List Range) {chan : σ} {rest : List UInt8}
    (hdata : data chan
      = (l.flatMap fun r => Writer.writeNbo64 r.start ++ Writer.writeNbo64 r.length) ++ rest)
    : ∃ chan',
        readLoop (Channel.Reader.tryRead basicRead) l.length rs chan
          = .ok (l.foldl (fun rs r => rs.insert r.start r.length) rs, chan')
          ∧
        data chan' = rest := by
  induction l generalizing rs chan with
  | nil => exact ⟨chan, rfl, hdata⟩
  | cons r l ih =>
    rw [List.flatMap_cons, List.append_assoc, List.append_assoc] at hdata
    obtain ⟨chan1, hstart, hdata1⟩ := readNbo64_write hlawful hdata
    obtain ⟨chan2, hlength, hdata2⟩ := readNbo64_write hlawful hdata1
    obtain ⟨chan3, hloop, hdata3⟩ := ih (rs.insert r.start r.length) hdata2
    refine ⟨chan3, ?_, hdata3⟩
    rw [List.length_cons, readLoop, hstart]
    simp only [bind, Except.bind]
    rw [hlength]
    exact hloop

theorem read_write {rs : RangeSet} (h : rs.Optimal) (hcount : rs.ranges.length < 2 ^ 32) (e : UInt64)
    {chan : σ} {rest : List UInt8} (hdata : data chan = rs.write ++ rest)
    : ∃ chan',
        (new e).read (Channel.Reader.tryRead basicRead) chan = .ok (rs, chan') ∧ data chan' = rest := by
  unfold write at hdata
  rw [List.append_assoc, List.append_assoc] at hdata
  obtain ⟨chan1, hend, hdata1⟩ := readNbo64_write hlawful hdata
  obtain ⟨chan2, hn, hdata2⟩ := readNbo32_append hlawful hdata1
  obtain ⟨chan3, hloop, hdata3⟩ := readLoop_append hlawful (new rs.endOffset) rs.ranges hdata2
  refine ⟨chan3, ?_, hdata3⟩
  have hlength : (UInt32.ofNat rs.ranges.length).toNat = rs.ranges.length := UInt32.toNat_ofNat_of_lt' hcount
  obtain ⟨hranges, hmax⟩ := foldl_insert_self h rs.endOffset
  have hsame : rs.ranges.foldl (fun rs r => rs.insert r.start r.length) (new rs.endOffset) = rs := by
    rw [maxEnd_eq h.hi_le, UInt64.toNat_inj] at hmax
    generalize rs.ranges.foldl (fun rs r => rs.insert r.start r.length) (new rs.endOffset) = rs' at hranges hmax
    cases rs'
    cases rs
    dsimp only at hranges hmax
    rw [hranges, hmax]
  unfold read
  rw [hend]
  simp only [bind, Except.bind]
  rw [hn]
  dsimp only
  rw [hlength]
  rw [hsame] at hloop
  exact hloop

end Binary

variable {σ : Type} {basicRead : Channel.BasicRead σ} {data : σ → List UInt8}

/--
A set comes back from a channel. It comes back from its text if no range starts where an `int` cannot
say so.
-/
theorem roundTrip_iff (hlawful : Channel.Lawful basicRead data) (rs : RangeSet) (h : rs.Optimal)
    (hcount : rs.ranges.length < 2 ^ 32) (e : UInt64) (chan : σ) (hdata : data chan = rs.write)
    : (((new e).readText rs.str).ranges = rs.ranges
        ∧
      ∃ chan', (new e).read (Channel.Reader.tryRead basicRead) chan = .ok (rs, chan'))
        ↔
      ∀ r ∈ rs.ranges, r.start.toNat < 2 ^ 31 := by
  rw [← List.append_nil rs.write] at hdata
  obtain ⟨chan', hread, _⟩ := read_write hlawful h hcount e hdata
  rw [readText_str_iff h]
  exact and_iff_left ⟨chan', hread⟩

-- `1-100,110`
def twoRanges : RangeSet :=
  { ranges := [{ start := 1, length := 100 }, { start := 110, length := 1 }], endOffset := 200 }

theorem roundTrip_iff_twoRanges
    : ((new 0).readText twoRanges.str).ranges = twoRanges.ranges
        ∧
      ∃ chan',
        (new 0).read (Channel.Reader.tryRead Channel.StringReader.basicRead)
            (Channel.StringReader.new twoRanges.write)
          = .ok (twoRanges, chan') := by
  have hoptimal : twoRanges.Optimal := by
    refine ⟨⟨?_, ?_⟩, ?_⟩
    . unfold Range.Bounded
      decide
    . unfold twoRanges
      dsimp only
      rw [separated_cons, separated_cons]
      exact ⟨by decide, by decide, by decide, by decide, separated_nil⟩
    . decide
  exact (roundTrip_iff Channel.StringReader.lawful twoRanges hoptimal (by decide) 0
    (Channel.StringReader.new twoRanges.write) (Channel.StringReader.rest_new _)).mpr (by decide)

-- `2147483648` is read as the start of a range near the end of all numbers.
theorem readText_str_large
    : ¬∀ rs : RangeSet, rs.Optimal → rs.ranges.length < 2 ^ 32 →
        ∀ e, ((new e).readText rs.str).ranges = rs.ranges := by
  intro h
  have hoptimal : Optimal { ranges := [{ start := 2147483648, length := 1 }], endOffset := 2147483649 } := by
    refine ⟨⟨?_, ?_⟩, ?_⟩
    . unfold Range.Bounded
      decide
    . rw [separated_cons]
      exact ⟨by decide, by decide, separated_nil⟩
    . decide
  have hsmall := (readText_str_iff hoptimal 0).mp (h _ hoptimal (by decide) 0)
  revert hsmall
  decide

end RangeSet
end Misc
end ObTools
