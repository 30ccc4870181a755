import ObTools.Lib.SortedMap
import ObTools.Text.Split

/-!
This module contains the model of `PropertyList`, and the proof of what is read back from the text of a list: the
values whose white space is not lost, as quotes are written for the separator only.
-/

namespace ObTools
namespace Misc

abbrev Bytes := List UInt8

-- The first place of the character from `p` on
def findChar (c : UInt8) (str : Bytes) (p : Nat) : Option Nat := ((str.drop p).idxOf? c).map (· + p)

def substr (str : Bytes) (pos length : Nat) : Bytes := (str.drop pos).take length

structure PropertyList where
  entries : List (Bytes × Bytes)
  sorted : SortedMap.Sorted entries

namespace PropertyList

def empty : PropertyList where
  entries := []
  sorted := List.Pairwise.nil

theorem sorted_set {entries : List (Bytes × Bytes)} (name v : Bytes) (h : SortedMap.Sorted entries)
    : SortedMap.Sorted (SortedMap.set name v entries) := by
  refine SortedMap.sorted_set List.lt_irrefl (fun _ _ _ => List.lt_trans) ?_ h
  intro k l hle hne
  exact (List.le_iff_lt_or_eq.mp (List.not_lt.mp hle)).resolve_right (Ne.symm hne)

def add (pl : PropertyList) (name v : Bytes) : PropertyList where
  entries := SortedMap.set name v (SortedMap.erase name pl.entries)
  sorted := sorted_set name v (List.Pairwise.filter _ pl.sorted)

-- The value in front of the end of the property, `npos` where that is less than none
def unquoted (str : Bytes) (ep spf : Nat) : Bytes :=
  Text.canonicaliseSpace (if spf < ep + 1 then str.drop (ep + 1) else substr str (ep + 1) (spf - ep - 1))

-- The value of a property, and the separator behind it
def readValue (str : Bytes) (ep : Nat) (sp : Option Nat) (sep quote : UInt8) : Bytes × Option Nat :=
  -- Get sp fenced to end
  let spf := sp.getD str.length
  match findChar quote str (ep + 1) with
  | some qp =>
    -- If quote exists before sep we need to use it
    if qp < spf then
      match findChar quote str (qp + 1) with
      | some qp2 => (substr str (qp + 1) (qp2 - qp - 1), findChar sep str (qp2 + 1))
      -- Unclosed quote, assume it stops at sep to recover
      | none => (substr str (qp + 1) (spf - qp - 1), sp)
    else
      (unquoted str ep spf, sp)
  | none => (unquoted str ep spf, sp)

-- The loop, with the text that is left for it
def readLoop (sep quote : UInt8) (pl : PropertyList) (str : Bytes) : PropertyList :=
  match h : findChar 61 str 0 with
  | none => pl
  | some ep =>
    let skip := (findChar sep str 0).filter (· < ep)
    have hlt : 0 < str.length := by
      apply Nat.pos_of_ne_zero
      intro hnil
      rw [List.eq_nil_of_length_eq_zero hnil] at h
      cases h
    match skip with
    -- If separator before =, it's a name with no value
    | some sp => readLoop sep quote pl (str.drop (sp + 1))
    | none =>
      let name := Text.canonicaliseSpace (str.take ep)
      let value := readValue str ep (findChar sep str 0) sep quote
      match value.2 with
      | none => pl.add name value.1
      | some sp => readLoop sep quote (pl.add name value.1) (str.drop (sp + 1))
termination_by str.length
decreasing_by
  . rw [List.length_drop]
    omega
  . rw [List.length_drop]
    omega

def read (str : Bytes) (sep quote : UInt8) : PropertyList := readLoop sep quote empty str

def writeEntry (sep quote : UInt8) (e : Bytes × Bytes) : Bytes :=
  e.1 ++ [61] ++ if sep ∈ e.2 then [quote] ++ e.2 ++ [quote] else e.2

-- Convert to delimited string
def str (pl : PropertyList) (sep quote : UInt8) : Bytes := [sep].intercalate (pl.entries.map (writeEntry sep quote))

-- What is not in a name: the separator, `=`, quotes and white space
structure IsName (sep : UInt8) (name : Bytes) : Prop where
  ne : name ≠ []
  noSep : sep ∉ name
  noEquals : 61 ∉ name
  noQuote : 34 ∉ name
  word : ∀ c ∈ name, ¬(c = 32 ∨ c = 9 ∨ c = 13 ∨ c = 10)

structure Writable (sep : UInt8) (e : Bytes × Bytes) : Prop where
  name : IsName sep e.1
  value : 34 ∉ e.2

-- What is left of a value
def shown (sep : UInt8) (v : Bytes) : Bytes := if sep ∈ v then v else Text.canonicaliseSpace v

-- The text behind an entry: nothing, or the separator with the next one
def tailOf (sep : UInt8) : Option Bytes → Bytes
  | none => []
  | some rest => sep :: rest

variable {sep c : UInt8} {e : Bytes × Bytes} {before pre rest : Bytes} {next : Option Bytes} {p : Nat}

theorem findChar_append (hp : before.length = p) (h : c ∉ pre) (rest : Bytes)
    : findChar c (before ++ (pre ++ c :: rest)) p = some (pre.length + p) := by
  have hfirst : (pre ++ c :: rest).idxOf? c = some pre.length := by
    induction pre with
    | nil => simp [List.idxOf?_cons]
    | cons d pre ih =>
      rw [List.mem_cons, not_or] at h
      rw [List.cons_append, List.idxOf?_cons, ih h.2, if_neg (by simpa using Ne.symm h.1)]
      rfl
  unfold findChar
  rw [List.drop_left' hp, hfirst, Option.map_some]

theorem findChar_none (hp : before.length = p) (h : c ∉ rest) : findChar c (before ++ rest) p = none := by
  unfold findChar
  rw [List.drop_left' hp, List.idxOf?_eq_none_iff.mpr h, Option.map_none]

theorem findChar_tailOf (hp : before.length = p) (next : Option Bytes)
    : findChar sep (before ++ tailOf sep next) p = next.map fun _ => p := by
  cases next with
  | none => exact findChar_none hp List.not_mem_nil
  | some rest =>
    have hfound := findChar_append (c := sep) hp List.not_mem_nil rest
    rw [List.length_nil, Nat.zero_add] at hfound
    exact hfound

theorem le_of_findChar (hp : before.length = p) (h : c ∉ pre) {q : Nat} (hq : findChar c (before ++ (pre ++ rest)) p = some q)
    : p + pre.length ≤ q := by
  by_cases hmem : c ∈ rest
  . obtain ⟨x, y, hrest, hx⟩ := List.eq_append_cons_of_mem hmem
    have hpre : c ∉ pre ++ x := by
      rw [List.mem_append, not_or]
      exact ⟨h, hx⟩
    rw [hrest, ← List.append_assoc pre, findChar_append hp hpre, Option.some.injEq, List.length_append] at hq
    omega
  . have hnone : c ∉ pre ++ rest := by
      rw [List.mem_append, not_or]
      exact ⟨h, hmem⟩
    rw [findChar_none hp hnone] at hq
    cases hq

theorem substr_append {v : Bytes} (hp : before.length = p) (rest : Bytes)
    : substr (before ++ (v ++ rest)) p v.length = v := by
  unfold substr
  rw [List.drop_left' hp, List.take_left' rfl]

theorem writeEntry_of_mem (h : sep ∈ e.2) (quote : UInt8)
    : writeEntry sep quote e = e.1 ++ [61] ++ ([quote] ++ e.2 ++ [quote]) :=
  congrArg (e.1 ++ [61] ++ ·) (if_pos h)

theorem writeEntry_of_not_mem (h : sep ∉ e.2) (quote : UInt8) : writeEntry sep quote e = e.1 ++ [61] ++ e.2 :=
  congrArg (e.1 ++ [61] ++ ·) (if_neg h)

theorem readValue_quoted (hvalue : 34 ∉ e.2) (hname : sep ∉ e.1) (hsep : sep ≠ 61) (hmem : sep ∈ e.2)
    (next : Option Bytes)
    : readValue (writeEntry sep 34 e ++ tailOf sep next) e.1.length
          (findChar sep (writeEntry sep 34 e ++ tailOf sep next) 0) sep 34
        = (e.2, next.map fun _ => (writeEntry sep 34 e).length) := by
  have hquote : sep ≠ 34 := fun heq => hvalue (heq ▸ hmem)
  have hentry := writeEntry_of_mem hmem 34
  have hend : (writeEntry sep 34 e).length = e.1.length + 1 + 1 + e.2.length + 1 := by
    rw [hentry]
    simp only [List.length_append, List.length_singleton]
    omega
  -- the separator in the value is behind the first quote
  have hsp : ∃ sp, findChar sep (writeEntry sep 34 e ++ tailOf sep next) 0 = some sp ∧ e.1.length + 1 < sp := by
    obtain ⟨x, y, hsplit, hx⟩ := List.eq_append_cons_of_mem hmem
    have hfront : sep ∉ e.1 ++ [61] ++ ([34] ++ x) := by
      simp only [List.mem_append, List.mem_singleton, not_or]
      exact ⟨⟨hname, hsep⟩, hquote, hx⟩
    have htext : writeEntry sep 34 e ++ tailOf sep next
        = [] ++ (e.1 ++ [61] ++ ([34] ++ x) ++ sep :: (y ++ [34] ++ tailOf sep next)) := by
      rw [hentry, hsplit]
      simp
    rw [htext]
    refine ⟨_, findChar_append rfl hfront _, ?_⟩
    simp only [List.length_append, List.length_singleton, List.length_nil]
    omega
  obtain ⟨sp, hsp, hlt⟩ := hsp
  have hstart : (e.1 ++ [61]).length = e.1.length + 1 := List.length_append
  have hopen : (e.1 ++ [61] ++ [34]).length = e.1.length + 1 + 1 := by rw [List.length_append, hstart, List.length_singleton]
  have hqp : findChar 34 (writeEntry sep 34 e ++ tailOf sep next) (e.1.length + 1) = some (e.1.length + 1) := by
    have htext : writeEntry sep 34 e ++ tailOf sep next = e.1 ++ [61] ++ ([] ++ 34 :: (e.2 ++ [34] ++ tailOf sep next)) := by
      rw [hentry]
      simp
    rw [htext, findChar_append hstart List.not_mem_nil, List.length_nil, Nat.zero_add]
  have htext : writeEntry sep 34 e ++ tailOf sep next = e.1 ++ [61] ++ [34] ++ (e.2 ++ 34 :: tailOf sep next) := by
    rw [hentry]
    simp
  have hqp2 : findChar 34 (writeEntry sep 34 e ++ tailOf sep next) (e.1.length + 1 + 1)
      = some (e.2.length + (e.1.length + 1 + 1)) := by
    rw [htext]
    exact findChar_append hopen hvalue _
  have hnext : findChar sep (writeEntry sep 34 e ++ tailOf sep next) (e.2.length + (e.1.length + 1 + 1) + 1)
      = next.map fun _ => (writeEntry sep 34 e).length := by
    have hplace : e.2.length + (e.1.length + 1 + 1) + 1 = (writeEntry sep 34 e).length := by omega
    rw [hplace]
    exact findChar_tailOf rfl next
  have hv : substr (writeEntry sep 34 e ++ tailOf sep next) (e.1.length + 1 + 1) e.2.length = e.2 := by
    rw [htext]
    exact substr_append hopen _
  have hcount : e.2.length + (e.1.length + 1 + 1) - (e.1.length + 1) - 1 = e.2.length := by omega
  unfold readValue
  rw [hsp, hqp]
  dsimp only [Option.getD_some]
  rw [if_pos hlt, hqp2]
  dsimp only
  rw [hnext, hcount, hv]

theorem readValue_unquoted (hvalue : 34 ∉ e.2) (hname : sep ∉ e.1) (hsep : sep ≠ 61) (hmem : sep ∉ e.2)
    (next : Option Bytes)
    : readValue (writeEntry sep 34 e ++ tailOf sep next) e.1.length
          (findChar sep (writeEntry sep 34 e ++ tailOf sep next) 0) sep 34
        = (Text.canonicaliseSpace e.2, next.map fun _ => (writeEntry sep 34 e).length) := by
  have hentry := writeEntry_of_not_mem hmem 34
  have hend : (writeEntry sep 34 e).length = e.1.length + 1 + e.2.length := by
    rw [hentry, List.length_append, List.length_append, List.length_singleton]
  have hstart : (e.1 ++ [61]).length = e.1.length + 1 := List.length_append
  have htext : writeEntry sep 34 e ++ tailOf sep next = e.1 ++ [61] ++ (e.2 ++ tailOf sep next) := by
    rw [hentry, List.append_assoc]
  have hnone : sep ∉ writeEntry sep 34 e := by
    rw [hentry]
    simp only [List.mem_append, List.mem_singleton, not_or]
    exact ⟨⟨hname, hsep⟩, hmem⟩
  have hsp : findChar sep (writeEntry sep 34 e ++ tailOf sep next) 0 = next.map fun _ => (writeEntry sep 34 e).length := by
    cases next with
    | none =>
      have htail : writeEntry sep 34 e ++ tailOf sep none = [] ++ writeEntry sep 34 e := List.append_nil _
      rw [htail]
      exact findChar_none rfl hnone
    | some rest =>
      have hfound := findChar_append List.length_nil hnone rest
      exact hfound
  have hspf : (next.map fun _ => (writeEntry sep 34 e).length).getD (writeEntry sep 34 e ++ tailOf sep next).length
      = (writeEntry sep 34 e).length := by
    cases next with
    | none => exact congrArg List.length (List.append_nil _)
    | some rest => rfl
  have hunquoted : unquoted (writeEntry sep 34 e ++ tailOf sep next) e.1.length (writeEntry sep 34 e).length
      = Text.canonicaliseSpace e.2 := by
    have hcount : e.1.length + 1 + e.2.length - e.1.length - 1 = e.2.length := by omega
    unfold unquoted
    rw [if_neg (by omega), hend, hcount, htext, substr_append hstart]
  unfold readValue
  rw [hsp]
  dsimp only
  rw [hspf, hunquoted]
  cases hq : findChar 34 (writeEntry sep 34 e ++ tailOf sep next) (e.1.length + 1) with
  | none => rfl
  | some qp =>
    rw [htext] at hq
    have hle := le_of_findChar hstart hvalue hq
    dsimp only
    rw [if_neg (by omega)]

theorem readValue_writeEntry (hvalue : 34 ∉ e.2) (hname : sep ∉ e.1) (hsep : sep ≠ 61) (next : Option Bytes)
    : readValue (writeEntry sep 34 e ++ tailOf sep next) e.1.length
          (findChar sep (writeEntry sep 34 e ++ tailOf sep next) 0) sep 34
        = (shown sep e.2, next.map fun _ => (writeEntry sep 34 e).length) := by
  unfold shown
  split
  . next hmem => exact readValue_quoted hvalue hname hsep hmem next
  . next hmem => exact readValue_unquoted hvalue hname hsep hmem next

-- Where the loop comes to a property, and what follows
theorem readLoop_eq {quote : UInt8} {str : Bytes} {ep : Nat} (hep : findChar 61 str 0 = some ep)
    (hsp : ∀ sp, findChar sep str 0 = some sp → ep ≤ sp) (pl : PropertyList)
    : readLoop sep quote pl str
        = let name := Text.canonicaliseSpace (str.take ep)
          let value := readValue str ep (findChar sep str 0) sep quote
          match value.2 with
          | none => pl.add name value.1
          | some sp => readLoop sep quote (pl.add name value.1) (str.drop (sp + 1)) := by
  have hskip : (findChar sep str 0).filter (· < ep) = none := by
    rw [Option.filter_eq_none_iff]
    intro sp h
    have hle := hsp sp h
    simpa using hle
  rw [readLoop]
  split
  . next hnone =>
    rw [hep] at hnone
    cases hnone
  . next place hplace =>
    have heq : place = ep := Option.some.inj (hplace.symm.trans hep)
    subst heq
    dsimp only
    rw [hskip]

theorem readLoop_of_not_mem {quote : UInt8} {str : Bytes} (h : 61 ∉ str) (pl : PropertyList)
    : readLoop sep quote pl str = pl := by
  have hnone : findChar 61 ([] ++ str) 0 = none := findChar_none List.length_nil h
  rw [readLoop]
  split
  . rfl
  . next ep hep =>
    rw [List.nil_append, hep] at hnone
    cases hnone

theorem readLoop_writeEntry (he : Writable sep e) (hsep : sep ≠ 61) (next : Option Bytes) (pl : PropertyList)
    : readLoop sep 34 pl (writeEntry sep 34 e ++ tailOf sep next)
        = match next with
          | none => pl.add e.1 (shown sep e.2)
          | some rest => readLoop sep 34 (pl.add e.1 (shown sep e.2)) rest := by
  obtain ⟨v, hentry⟩ : ∃ v, writeEntry sep 34 e = e.1 ++ 61 :: v := ⟨_, List.append_assoc ..⟩
  have hep : findChar 61 (writeEntry sep 34 e ++ tailOf sep next) 0 = some e.1.length := by
    have hfound := findChar_append List.length_nil he.name.noEquals (v ++ tailOf sep next)
    rw [hentry, List.append_assoc]
    exact hfound
  have hsp : ∀ sp, findChar sep (writeEntry sep 34 e ++ tailOf sep next) 0 = some sp → e.1.length ≤ sp := by
    intro sp h
    rw [hentry, List.append_assoc] at h
    have hle := le_of_findChar List.length_nil he.name.noSep h
    omega
  have hname : (writeEntry sep 34 e ++ tailOf sep next).take e.1.length = e.1 := by
    rw [hentry, List.append_assoc]
    exact List.take_left' rfl
  rw [readLoop_eq hep hsp, hname, Text.canonicaliseSpace_eq_self he.name.word,
    readValue_writeEntry he.value he.name.noSep hsep]
  dsimp only
  cases next with
  | none => rfl
  | some rest =>
    have hdrop : (writeEntry sep 34 e ++ tailOf sep (some rest)).drop ((writeEntry sep 34 e).length + 1) = rest := by
      rw [← List.drop_drop, List.drop_left' rfl]
      rfl
    rw [Option.map_some]
    dsimp only
    rw [hdrop]

-- A value that comes back as it is
def Kept (sep : UInt8) (v : Bytes) : Prop := sep ∈ v ∨ Text.canonicaliseSpace v = v

theorem readLoop_intercalate {es : List (Bytes × Bytes)} (hes : ∀ f ∈ e :: es, Writable sep f) (hsep : sep ≠ 61)
    (pl : PropertyList)
    : readLoop sep 34 pl ([sep].intercalate ((e :: es).map (writeEntry sep 34)))
        = (e :: es).foldl (fun pl f => pl.add f.1 (shown sep f.2)) pl := by
  induction es generalizing e pl with
  | nil =>
    have hone := readLoop_writeEntry (hes e List.mem_cons_self) hsep none pl
    rw [tailOf, List.append_nil] at hone
    rw [List.map_singleton, List.intercalate_singleton, hone]
    rfl
  | cons f es ih =>
    have hjoin : [sep].intercalate ((e :: f :: es).map (writeEntry sep 34))
        = writeEntry sep 34 e ++ tailOf sep (some ([sep].intercalate ((f :: es).map (writeEntry sep 34)))) := by
      rw [List.map_cons, List.map_cons, List.intercalate_cons_cons, List.append_assoc]
      rfl
    rw [hjoin, readLoop_writeEntry (hes e List.mem_cons_self) hsep]
    exact ih (fun g hg => hes g (List.mem_cons_of_mem _ hg)) _

theorem entries_foldl_add (g : Bytes → Bytes) {es : List (Bytes × Bytes)} (hes : SortedMap.Sorted es) {pl : PropertyList}
    (hpl : ∀ f ∈ pl.entries, ∀ g ∈ es, f.1 < g.1)
    : (es.foldl (fun pl f => pl.add f.1 (g f.2)) pl).entries = pl.entries ++ es.map fun f => (f.1, g f.2) := by
  induction es generalizing pl with
  | nil => exact (List.append_nil _).symm
  | cons e es ih =>
    obtain ⟨hfirst, hrest⟩ := List.pairwise_cons.mp hes
    have hbefore : ∀ f ∈ pl.entries, f.1 < e.1 := fun f hf => hpl f hf e List.mem_cons_self
    have hadd : (pl.add e.1 (g e.2)).entries = pl.entries ++ [(e.1, g e.2)] := by
      have herase : SortedMap.erase e.1 pl.entries = pl.entries := by
        unfold SortedMap.erase
        rw [List.filter_eq_self]
        intro f hf
        have hne : f.1 ≠ e.1 := fun heq => List.lt_irrefl e.1 (heq ▸ hbefore f hf)
        simpa using hne
      unfold add
      dsimp only
      rw [herase]
      exact SortedMap.set_last List.lt_irrefl (fun _ _ => List.lt_asymm) hbefore
    rw [List.foldl_cons, ih hrest, hadd, List.append_assoc]
    . rfl
    . intro f hf f' hf'
      rw [hadd, List.mem_append, List.mem_singleton] at hf
      rcases hf with hf | rfl
      . exact hpl f hf f' (List.mem_cons_of_mem _ hf')
      . exact hfirst f' hf'

theorem eq_iff {pl pl' : PropertyList} : pl = pl' ↔ pl.entries = pl'.entries := by
  obtain ⟨entries, sorted⟩ := pl
  obtain ⟨entries', sorted'⟩ := pl'
  rw [mk.injEq]

/-
With another separator than `=`.
-/
theorem read_str_iff (hsep : sep ≠ 61) {pl : PropertyList} (hpl : ∀ e ∈ pl.entries, Writable sep e)
    : read (pl.str sep 34) sep 34 = pl ↔ ∀ e ∈ pl.entries, Kept sep e.2 := by
  have hentries : (read (pl.str sep 34) sep 34).entries = pl.entries.map fun f => (f.1, shown sep f.2) := by
    unfold read str
    cases hes : pl.entries with
    | nil => exact congrArg entries (readLoop_of_not_mem List.not_mem_nil empty)
    | cons e es =>
      rw [hes] at hpl
      have hsorted : SortedMap.Sorted (e :: es) := hes ▸ pl.sorted
      rw [readLoop_intercalate hpl hsep, entries_foldl_add (shown sep) hsorted fun _ hf => absurd hf List.not_mem_nil]
      rfl
  have hshown (v : Bytes) : shown sep v = v ↔ Kept sep v := by
    unfold shown Kept
    split
    . next hmem => exact iff_of_true rfl (Or.inl hmem)
    . next hmem => exact (or_iff_right hmem).symm
  have hmap : pl.entries.map (fun f => (f.1, shown sep f.2)) = pl.entries
      ↔ ∀ e ∈ pl.entries, (e.1, shown sep e.2) = e := by
    have hid := List.map_inj_left (f := fun e : Bytes × Bytes => (e.1, shown sep e.2)) (g := id) (l := pl.entries)
    rw [List.map_id] at hid
    exact hid
  rw [eq_iff, hentries, hmap]
  refine forall₂_congr fun e _ => ?_
  rw [← hshown, Prod.ext_iff]
  exact and_iff_right rfl

/-
With `=` as separator each `=` ends a name, and all the text behind it is the value.
-/

-- `piece` is what has been read of the name
def properties (piece : Bytes) : Bytes → List (Bytes × Bytes)
  | [] => []
  | c :: text =>
    if c = 61 then
      (Text.canonicaliseSpace piece, Text.canonicaliseSpace text) :: properties [] text
    else
      properties (piece ++ [c]) text

def addAll (pl : PropertyList) (ps : List (Bytes × Bytes)) : PropertyList := ps.foldl (fun pl f => pl.add f.1 f.2) pl

theorem properties_equals (piece text : Bytes)
    : properties piece (61 :: text)
        = (Text.canonicaliseSpace piece, Text.canonicaliseSpace text) :: properties [] text :=
  if_pos rfl

theorem properties_next (h : c ≠ 61) (piece text : Bytes)
    : properties piece (c :: text) = properties (piece ++ [c]) text :=
  if_neg h

theorem properties_append {text piece : Bytes} (h : 61 ∉ text) (rest : Bytes)
    : properties piece (text ++ 61 :: rest)
        = (Text.canonicaliseSpace (piece ++ text), Text.canonicaliseSpace rest) :: properties [] rest := by
  induction text generalizing piece with
  | nil =>
    rw [List.nil_append, properties_equals, List.append_nil]
  | cons c text ih =>
    rw [List.mem_cons, not_or] at h
    rw [List.cons_append, properties_next (Ne.symm h.1), ih h.2, List.append_assoc]
    rfl

theorem properties_of_not_mem {text piece : Bytes} (h : 61 ∉ text) : properties piece text = [] := by
  induction text generalizing piece with
  | nil => rfl
  | cons c text ih =>
    rw [List.mem_cons, not_or] at h
    rw [properties_next (Ne.symm h.1), ih h.2]

theorem properties_suffix (text piece rest : Bytes)
    : properties [] rest <:+ properties piece (text ++ 61 :: rest) := by
  induction text generalizing piece with
  | nil =>
    rw [List.nil_append, properties_equals]
    exact List.suffix_cons _ _
  | cons c text ih =>
    rw [List.cons_append]
    by_cases hc : c = 61
    . rw [hc, properties_equals]
      exact (ih []).trans (List.suffix_cons _ _)
    . rw [properties_next hc]
      exact ih _

theorem readValue_equals (str : Bytes) (ep : Nat)
    : readValue str ep (some ep) 61 34 = (Text.canonicaliseSpace (str.drop (ep + 1)), some ep) := by
  have hunquoted : unquoted str ep ep = Text.canonicaliseSpace (str.drop (ep + 1)) := by
    unfold unquoted
    rw [if_pos (Nat.lt_succ_self ep)]
  unfold readValue
  dsimp only [Option.getD_some]
  rw [hunquoted]
  cases hq : findChar 34 str (ep + 1) with
  | none => rfl
  | some qp =>
    obtain ⟨q, -, hq⟩ := Option.map_eq_some_iff.mp hq
    dsimp only
    rw [if_neg (by omega)]

theorem readLoop_equals (str : Bytes) (pl : PropertyList) : readLoop 61 34 pl str = pl.addAll (properties [] str) := by
  by_cases hmem : 61 ∈ str
  . obtain ⟨name, rest, hsplit, hname⟩ := List.eq_append_cons_of_mem hmem
    have hep : findChar 61 str 0 = some name.length := by
      have hfound := findChar_append List.length_nil hname rest
      rw [hsplit]
      exact hfound
    have hsp : ∀ sp, findChar 61 str 0 = some sp → name.length ≤ sp := by
      intro sp h
      rw [hep, Option.some.injEq] at h
      exact Nat.le_of_eq h
    have htake : str.take name.length = name := by rw [hsplit, List.take_left' rfl]
    have hdrop : str.drop (name.length + 1) = rest := by
      rw [hsplit, ← List.drop_drop, List.drop_left' rfl]
      rfl
    rw [readLoop_eq hep hsp, hep, readValue_equals, htake, hdrop]
    dsimp only
    rw [hdrop, readLoop_equals rest, hsplit, properties_append hname]
    rfl
  . rw [readLoop_of_not_mem hmem, properties_of_not_mem hmem]
    rfl
termination_by str.length
decreasing_by
  rw [hsplit, List.length_append, List.length_cons]
  omega

theorem mem_canonicaliseSpace {text : Bytes} (hc : ¬(c = 32 ∨ c = 9 ∨ c = 13 ∨ c = 10)) (h : c ∈ text)
    : c ∈ Text.canonicaliseSpace text := by
  have hkept (d : UInt8) (state : Text.SpaceState × Bytes) (hmem : c ∈ state.2 ∨ c = d)
      : c ∈ (Text.canonicaliseStep state d).2 := by
    obtain ⟨state, fixed⟩ := state
    unfold Text.canonicaliseStep
    dsimp only at hmem ⊢
    split
    . next hspace =>
      have hfixed : c ∈ fixed := hmem.resolve_right fun heq => hc (heq ▸ hspace)
      cases state <;> exact hfixed
    . rcases hmem with hmem | rfl
      . cases state <;> simp [hmem]
      . cases state <;> simp
  have hfold (state : Text.SpaceState × Bytes) (hmem : c ∈ state.2 ∨ c ∈ text)
      : c ∈ (text.foldl Text.canonicaliseStep state).2 := by
    clear h
    induction text generalizing state with
    | nil => exact hmem.resolve_right List.not_mem_nil
    | cons d text ih =>
      rw [List.mem_cons, ← or_assoc] at hmem
      exact ih _ (hmem.imp_left (hkept d state))
  exact hfold _ (Or.inr h)

theorem mem_add {pl : PropertyList} {k name v w : Bytes}
    : (k, w) ∈ (pl.add name v).entries ↔ (k, w) = (name, v) ∨ ((k, w) ∈ pl.entries ∧ k ≠ name) := by
  unfold add SortedMap.erase
  dsimp only
  rw [SortedMap.mem_set List.lt_irrefl (fun _ _ _ => List.lt_trans) (List.Pairwise.filter _ pl.sorted), List.mem_filter]
  simp

theorem mem_addAll {ps : List (Bytes × Bytes)} {pl : PropertyList} {k w : Bytes} (h : (k, w) ∈ (pl.addAll ps).entries)
    : (k, w) ∈ pl.entries ∨ (k, w) ∈ ps := by
  induction ps generalizing pl with
  | nil => exact Or.inl h
  | cons p ps ih =>
    rw [List.mem_cons]
    rcases ih h with hadd | hps
    . rcases mem_add.mp hadd with heq | ⟨hold, -⟩
      . exact Or.inr (Or.inl heq)
      . exact Or.inl hold
    . exact Or.inr (Or.inr hps)

theorem mem_addAll_iff {ps : List (Bytes × Bytes)} {pl : PropertyList} (hne : ps.Pairwise fun p q => p.1 ≠ q.1)
    (hpl : ∀ p ∈ ps, ∀ w, (p.1, w) ∉ pl.entries) {k w : Bytes}
    : (k, w) ∈ (pl.addAll ps).entries ↔ (k, w) ∈ pl.entries ∨ (k, w) ∈ ps := by
  refine ⟨mem_addAll, ?_⟩
  intro h
  induction ps generalizing pl with
  | nil => exact h.resolve_right List.not_mem_nil
  | cons p ps ih =>
    obtain ⟨hfirst, hrest⟩ := List.pairwise_cons.mp hne
    rw [List.forall_mem_cons] at hpl
    apply ih hrest
    . intro q hq v hmem
      rcases mem_add.mp hmem with heq | ⟨hold, -⟩
      . exact hfirst q hq (congrArg Prod.fst heq).symm
      . exact hpl.2 q hq v hold
    . rcases h with hold | hmem
      . refine Or.inl (mem_add.mpr (Or.inr ⟨hold, ?_⟩))
        rintro rfl
        exact hpl.1 w hold
      . rcases List.mem_cons.mp hmem with rfl | hmem
        . exact Or.inl (mem_add.mpr (Or.inl rfl))
        . exact Or.inr hmem

-- No name is lost
theorem exists_mem_addAll {ps : List (Bytes × Bytes)} {pl : PropertyList} {k : Bytes}
    (h : (∃ w, (k, w) ∈ pl.entries) ∨ ∃ w, (k, w) ∈ ps)
    : ∃ w, (k, w) ∈ (pl.addAll ps).entries := by
  induction ps generalizing pl with
  | nil => exact h.resolve_right fun ⟨_, hmem⟩ => List.not_mem_nil hmem
  | cons p ps ih =>
    apply ih
    by_cases hname : k = p.1
    . exact Or.inl ⟨p.2, mem_add.mpr (Or.inl (Prod.ext hname rfl))⟩
    . rcases h with ⟨w, hmem⟩ | ⟨w, hmem⟩
      . exact Or.inl ⟨w, mem_add.mpr (Or.inr ⟨hmem, hname⟩)⟩
      . refine Or.inr ⟨w, (List.mem_cons.mp hmem).resolve_left fun heq => hname ?_⟩
        exact congrArg Prod.fst heq

/-
All but the last of the properties have a value with `=` in it.
-/
theorem properties_dropLast (text piece : Bytes) : ∀ f ∈ (properties piece text).dropLast, 61 ∈ f.2 := by
  induction text generalizing piece with
  | nil => exact fun f hf => absurd hf List.not_mem_nil
  | cons c text ih =>
    by_cases hc : c = 61
    . rw [hc, properties_equals]
      by_cases hmem : 61 ∈ text
      . obtain ⟨name, rest, hsplit, hname⟩ := List.eq_append_cons_of_mem hmem
        have hne : properties [] text ≠ [] := by
          rw [hsplit, properties_append hname]
          exact List.cons_ne_nil _ _
        rw [List.dropLast_cons_of_ne_nil hne, List.forall_mem_cons]
        exact ⟨mem_canonicaliseSpace (by decide) hmem, ih []⟩
      . rw [properties_of_not_mem hmem]
        exact fun f hf => absurd hf List.not_mem_nil
    . rw [properties_next hc]
      exact ih _

theorem mem_value_of_mem_read {text k w : Bytes} {p : Bytes × Bytes} (hp : (properties [] text).getLast? = some p)
    (hne : k ≠ p.1) (h : (k, w) ∈ (read text 61 34).entries)
    : 61 ∈ w := by
  have hsplit : properties [] text = (properties [] text).dropLast ++ [p] :=
    (List.dropLast_append_getLast? p hp).symm
  unfold read at h
  rw [readLoop_equals, hsplit] at h
  unfold addAll at h
  rw [List.foldl_append] at h
  rcases mem_add.mp h with heq | ⟨hmem, -⟩
  . exact absurd (congrArg Prod.fst heq) hne
  . rcases mem_addAll hmem with hnil | hmem
    . exact absurd hnil List.not_mem_nil
    . exact properties_dropLast text [] _ hmem

-- What is written of a value with `=` is taken apart, with a quote in a name
theorem exists_quoted_name {es : List (Bytes × Bytes)} (he : e ∈ es) (hmem : 61 ∈ e.2)
    : ∃ k w, (k, w) ∈ properties [] ([61].intercalate (es.map (writeEntry 61 34))) ∧ 34 ∈ k := by
  obtain ⟨x, y, hsplit, hx⟩ := List.eq_append_cons_of_mem hmem
  have hpiece : 61 ∉ 34 :: x := by
    rw [List.mem_cons, not_or]
    exact ⟨by decide, hx⟩
  obtain ⟨before, after, htext⟩ : writeEntry 61 34 e <:+: [61].intercalate (es.map (writeEntry 61 34)) :=
    Text.infix_intercalate [61] (List.mem_map_of_mem he)
  have hplace : before ++ writeEntry 61 34 e ++ after
      = before ++ e.1 ++ 61 :: ((34 :: x) ++ 61 :: (y ++ [34] ++ after)) := by
    rw [writeEntry_of_mem hmem, hsplit]
    simp
  have hsuffix := properties_suffix (before ++ e.1) [] ((34 :: x) ++ 61 :: (y ++ [34] ++ after))
  rw [← hplace, htext, properties_append hpiece] at hsuffix
  refine ⟨_, _, hsuffix.subset List.mem_cons_self, ?_⟩
  exact mem_canonicaliseSpace (by decide) List.mem_cons_self

structure Survives (sep : UInt8) (pl : PropertyList) : Prop where
  values : ∀ e ∈ pl.entries, Kept sep e.2
  equals : sep = 61 → pl.entries.length ≤ 1 ∧ ∀ e ∈ pl.entries, 61 ∉ e.2

theorem entries_read_single {pl : PropertyList} (he : Writable 61 e) (hpl : pl.entries = [e]) (hvalue : 61 ∉ e.2)
    : (read (pl.str 61 34) 61 34).entries = [(e.1, Text.canonicaliseSpace e.2)] := by
  have hstr : pl.str 61 34 = e.1 ++ 61 :: e.2 := by
    unfold str
    rw [hpl, List.map_singleton, List.intercalate_singleton, writeEntry_of_not_mem hvalue, List.append_assoc]
    rfl
  unfold read
  rw [readLoop_equals, hstr, properties_append he.name.noEquals, properties_of_not_mem hvalue, List.nil_append,
    Text.canonicaliseSpace_eq_self he.name.word]
  rfl

theorem survives_of_read {pl : PropertyList} (hpl : ∀ e ∈ pl.entries, Writable 61 e)
    (h : read (pl.str 61 34) 61 34 = pl)
    : pl.entries.length ≤ 1 ∧ ∀ e ∈ pl.entries, 61 ∉ e.2 := by
  have hread : pl.entries = (empty.addAll (properties [] (pl.str 61 34))).entries := by
    rw [← readLoop_equals]
    exact congrArg entries h.symm
  -- a name with a quote would be left
  have hvalues : ∀ e ∈ pl.entries, 61 ∉ e.2 := by
    intro e he hmem
    obtain ⟨k, w, hproperty, hquote⟩ := exists_quoted_name he hmem
    have hkept : ∃ w, (k, w) ∈ pl.entries := by
      rw [hread]
      exact exists_mem_addAll (Or.inr ⟨w, hproperty⟩)
    obtain ⟨w', hentry⟩ := hkept
    exact (hpl _ hentry).name.noQuote hquote
  refine ⟨?_, hvalues⟩
  by_contra hlen
  obtain ⟨e, f, es, hes⟩ : ∃ e f es, pl.entries = e :: f :: es := by
    cases hes : pl.entries with
    | nil => simp [hes] at hlen
    | cons e es =>
      cases es with
      | nil => simp [hes] at hlen
      | cons f es => exact ⟨e, f, es, rfl⟩
  have hne : e.1 ≠ f.1 := by
    have hsorted := hes ▸ pl.sorted
    intro heq
    have hlt : e.1 < f.1 := (List.pairwise_cons.mp hsorted).1 f List.mem_cons_self
    exact List.lt_irrefl f.1 (heq ▸ hlt)
  -- every entry has the name of the last property, as the others have a value with `=`
  cases hlast : (properties [] (pl.str 61 34)).getLast? with
  | none =>
    rw [List.getLast?_eq_none_iff.mp hlast, hes] at hread
    cases hread
  | some p =>
    have hname (g : Bytes × Bytes) (hg : g ∈ pl.entries) : g.1 = p.1 := by
      by_contra hne
      refine hvalues g hg (mem_value_of_mem_read (k := g.1) hlast hne ?_)
      rw [h]
      exact hg
    rw [hes, List.forall_mem_cons, List.forall_mem_cons] at hname
    exact hne (hname.1.trans hname.2.1.symm)

theorem read_str_equals_iff {pl : PropertyList} (hpl : ∀ e ∈ pl.entries, Writable 61 e)
    : read (pl.str 61 34) 61 34 = pl ↔ pl.Survives 61 := by
  -- a list of at most one entry, in which there is no other `=`
  have hshort (hlen : pl.entries.length ≤ 1) (hvalues : ∀ e ∈ pl.entries, 61 ∉ e.2)
      : read (pl.str 61 34) 61 34 = pl ↔ ∀ e ∈ pl.entries, Kept 61 e.2 := by
    rw [eq_iff]
    cases hes : pl.entries with
    | nil =>
      have hstr : pl.str 61 34 = [] := by
        unfold str
        rw [hes]
        rfl
      rw [hstr]
      unfold read
      rw [readLoop_of_not_mem List.not_mem_nil]
      exact iff_of_true rfl fun e he => absurd he List.not_mem_nil
    | cons e es =>
      have hnil : es = [] := by
        rw [hes, List.length_cons] at hlen
        exact List.eq_nil_of_length_eq_zero (by omega)
      rw [hnil] at hes ⊢
      have he : e ∈ pl.entries := hes ▸ List.mem_singleton.mpr rfl
      rw [entries_read_single (hpl e he) hes (hvalues e he), List.singleton_inj, Prod.ext_iff, List.forall_mem_singleton]
      exact (and_iff_right rfl).trans (or_iff_right (hvalues e he)).symm
  constructor
  . intro h
    obtain ⟨hlen, hvalues⟩ := survives_of_read hpl h
    exact ⟨(hshort hlen hvalues).mp h, fun _ => ⟨hlen, hvalues⟩⟩
  . intro h
    obtain ⟨hlen, hvalues⟩ := h.equals rfl
    exact (hshort hlen hvalues).mpr h.values

theorem read_str_eq_iff {pl : PropertyList} (hpl : ∀ e ∈ pl.entries, Writable sep e)
    : read (pl.str sep 34) sep 34 = pl ↔ pl.Survives sep := by
  by_cases hsep : sep = 61
  . subst hsep
    exact read_str_equals_iff hpl
  . rw [read_str_iff hsep hpl]
    exact ⟨fun h => ⟨h, fun heq => absurd heq hsep⟩, Survives.values⟩

-- `a` with a value, separated by commas
def single (v : Bytes) : PropertyList where
  entries := [([97], v)]
  sorted := List.pairwise_singleton _ _

theorem isName_single : IsName 44 [97] where
  ne := by decide
  noSep := by decide
  noEquals := by decide
  noQuote := by decide
  word := by simp

theorem single_writable {v : Bytes} (h : 34 ∉ v) : ∀ e ∈ (single v).entries, Writable 44 e := by
  intro e he
  rw [List.mem_singleton.mp he]
  exact ⟨isName_single, h⟩

-- A space, and a comma for which there are quotes
theorem read_str_quoted : read ((single [32, 44]).str 44 34) 44 34 = single [32, 44] := by
  apply (read_str_eq_iff (single_writable (by decide))).mpr
  exact ⟨List.forall_mem_singleton.mpr (Or.inl (by decide)), fun heq => absurd heq (by decide)⟩

/-
A space in front of a letter is lost.
-/
theorem not_read_str
    : ¬∀ (sep : UInt8) (pl : PropertyList), (∀ e ∈ pl.entries, Writable sep e)
        → read (pl.str sep 34) sep 34 = pl := by
  intro h
  have hread := h 44 (single [32, 120]) (single_writable (by decide))
  rw [read_str_iff (by decide) (single_writable (by decide))] at hread
  have hvalue : Kept 44 [32, 120] := hread ([97], [32, 120]) (List.mem_singleton.mpr rfl)
  exact hvalue.elim (by decide) (by decide)

end PropertyList

end Misc
end ObTools
