import ObTools.Lex.Analyser
import ObTools.Lib.Delimiter
import ObTools.Lib.Digits
import ObTools.Web.MIMEHeaders

/-!
This module contains the proof that headers are read back as they have been written, also with folding.
-/

namespace ObTools
namespace Text

theorem canonicaliseStep_cases (state : SpaceState × List UInt8) (c : UInt8)
    : (canonicaliseStep state c).2 = state.2
        ∨ ¬(c = 32 ∨ c = 9 ∨ c = 13 ∨ c = 10)
          ∧ ((canonicaliseStep state c).2 = state.2 ++ [c] ∨ (canonicaliseStep state c).2 = state.2 ++ [32, c]) := by
  obtain ⟨state, fixed⟩ := state
  unfold canonicaliseStep
  dsimp only
  split
  . cases state with
    | start => exact Or.inl rfl
    | word => exact Or.inl rfl
    | ws => exact Or.inl rfl
  . next hc =>
    right
    refine ⟨hc, ?_⟩
    cases state with
    | start => exact Or.inl rfl
    | word => exact Or.inl rfl
    | ws => exact Or.inr rfl

-- The only white space is the space.
theorem canonicaliseSpace_plain (text : List UInt8)
    : ∀ c ∈ canonicaliseSpace text, ¬(c = 9 ∨ c = 13 ∨ c = 10) := by
  have hfold (state : SpaceState × List UInt8) (h : ∀ c ∈ state.2, ¬(c = 9 ∨ c = 13 ∨ c = 10))
      : ∀ c ∈ (text.foldl canonicaliseStep state).2, ¬(c = 9 ∨ c = 13 ∨ c = 10) := by
    induction text generalizing state with
    | nil => exact h
    | cons d text ih =>
      apply ih
      intro c hc
      rcases canonicaliseStep_cases state d with heq | ⟨hd, heq | heq⟩
      . rw [heq] at hc
        exact h c hc
      . rw [heq, List.mem_append, List.mem_singleton] at hc
        rcases hc with hc | rfl
        . exact h c hc
        . exact fun hbad => hd (Or.inr hbad)
      . rw [heq, List.mem_append] at hc
        rcases hc with hc | hc
        . exact h c hc
        . rw [List.mem_cons, List.mem_singleton] at hc
          rcases hc with rfl | rfl
          . decide
          . exact fun hbad => hd (Or.inr hbad)
  exact hfold (.start, []) (by simp)

end Text

namespace Web

-- What is on one line
def IsLine (s : List UInt8) : Prop := ∀ c ∈ s, c ≠ 13 ∧ c ≠ 10

instance (s : List UInt8) : Decidable (IsLine s) := List.decidableBAll _ s

theorem IsLine.append {s t : List UInt8} (h : IsLine s) (h' : IsLine t) : IsLine (s ++ t) :=
  List.forall_mem_append.mpr ⟨h, h'⟩

theorem getlineLoop_line {max count : Nat} {interleaved : Bool} {s : List UInt8} (hs : IsLine s)
    (hfirst : interleaved = true → count = 0 → s.head? ≠ some 36) (hlen : count + s.length < max)
    (t rest : List UInt8)
    : getlineLoop max interleaved count t (s ++ 13 :: 10 :: rest) = { ok := true, s := t ++ s, rest } := by
  induction s generalizing count t with
  | nil =>
    rw [List.nil_append, getlineLoop, if_pos rfl, List.append_nil]
    rfl
  | cons c s ih =>
    obtain ⟨hcr, hlf⟩ := hs c List.mem_cons_self
    have hdollar : ¬(interleaved = true ∧ c = 36 ∧ count = 0) := by
      rintro ⟨hinterleaved, rfl, hzero⟩
      exact hfirst hinterleaved hzero rfl
    have htail : IsLine s := fun c hc => hs c (List.mem_cons_of_mem _ hc)
    rw [List.length_cons] at hlen
    rw [List.cons_append, getlineLoop, if_neg hcr, if_neg hlf, if_neg hdollar, if_pos (by omega),
      ih htail (fun _ hzero => absurd hzero (by omega)) (by omega), List.append_assoc]
    rfl

-- The next line does not continue the one before it.
def NoSpace (s : List UInt8) : Prop := s.head? ≠ some 32 ∧ s.head? ≠ some 9

instance (s : List UInt8) : Decidable (NoSpace s) := inferInstanceAs (Decidable (_ ∧ _))

namespace MIMEHeaders

variable {maxLine : Nat} {v rest : List UInt8}

theorem getline_line {s : List UInt8} (hs : IsLine s) (hlen : s.length < MAX_HEADER) (rest : List UInt8)
    : getline (s ++ 13 :: 10 :: rest) = { ok := true, s, rest } := by
  unfold getline
  rw [getlineLoop_line hs (by simp) (by omega)]
  rfl

theorem rfind_some {s : List UInt8} {c : UInt8} {pos i : Nat} (h : rfind s c pos = some i) : s[i]? = some c := by
  have := List.find?_some h
  simpa using this

-- There are no tabs, so that the line is broken at a space.
theorem findSplit_some (hv : 9 ∉ v) {split : Nat} (h : findSplit maxLine v = some split) : v[split]? = some 32 := by
  have htab (i : Nat) : v[i]? ≠ some 9 := fun hi => hv (List.mem_of_getElem? hi)
  unfold findSplit at h
  dsimp only at h
  cases hcomma : rfind v 44 maxLine with
  | none =>
    rw [hcomma] at h
    exact rfind_some h
  | some i =>
    rw [hcomma] at h
    dsimp only at h
    by_cases hnext : v[i + 1]? = some 32 ∨ v[i + 1]? = some 9
    . rw [if_pos hnext] at h
      cases h
      exact hnext.resolve_right (htab _)
    . rw [if_neg hnext] at h
      exact rfind_some h

theorem readContinued_stop (s : List UInt8) (h : NoSpace rest)
    : readContinued s rest = { ok := true, s, rest } := by
  rw [readContinued, if_neg (not_or.mpr h)]

theorem readContinued_more {s extra input others : List UInt8}
    (hline : getline input = { ok := true, s := extra, rest := others })
    (hmax : s.length + extra.length ≤ MAX_HEADER)
    : readContinued s (32 :: input) = readContinued (s ++ 32 :: extra) others := by
  have hspace : (32 :: input).head? = some 32 ∨ (32 :: input).head? = some 9 := Or.inl rfl
  rw [readContinued, if_pos hspace, List.tail_cons, hline]
  dsimp only
  rw [if_neg (by simp), if_neg (Nat.not_lt.mpr hmax)]

theorem writeValue_whole (hv : IsLine v) (hrest : NoSpace rest) {p : List UInt8} (hp : IsLine p)
    (hlen : p.length + v.length < MAX_HEADER) (heq : writeValue maxLine v = v ++ [13, 10]) (s : List UInt8)
    : ∃ first others, first.length ≤ v.length
        ∧ getline (p ++ (writeValue maxLine v ++ rest)) = { ok := true, s := p ++ first, rest := others }
        ∧ readContinued (s ++ first) others = { ok := true, s := s ++ v, rest } := by
  refine ⟨v, rest, Nat.le_refl _, ?_, readContinued_stop _ hrest⟩
  rw [heq, List.append_assoc, ← List.append_assoc]
  exact getline_line (hp.append hv) (by rw [List.length_append]; exact hlen) rest

/--
Wherever a value has been folded, it is put together again, behind what there was on the line before it.
-/
theorem writeValue_reads (hv : IsLine v) (htab : 9 ∉ v) (hrest : NoSpace rest) {p : List UInt8} (hp : IsLine p)
    (hlen : p.length + v.length < MAX_HEADER) {s : List UInt8} (hmax : s.length + v.length ≤ MAX_HEADER)
    : ∃ first others, first.length ≤ v.length
        ∧ getline (p ++ (writeValue maxLine v ++ rest)) = { ok := true, s := p ++ first, rest := others }
        ∧ readContinued (s ++ first) others = { ok := true, s := s ++ v, rest } := by
  induction v using writeValue.induct maxLine generalizing p s with
  | case1 v hlong split hsplit ih =>
    have hspace := findSplit_some htab hsplit
    have hlt : split < v.length := (List.getElem?_eq_some_iff.mp hspace).1
    have hparts : v = v.take split ++ 32 :: v.drop (split + 1) := by
      have hget : v[split] = 32 := (List.getElem?_eq_some_iff.mp hspace).2
      rw [← hget, ← List.drop_eq_getElem_cons hlt, List.take_append_drop]
    have hlenTake : (v.take split).length = split := List.length_take_of_le (Nat.le_of_lt hlt)
    have hlenDrop : (v.drop (split + 1)).length = v.length - (split + 1) := List.length_drop
    have htake : IsLine (v.take split) := fun c hc => hv c (List.mem_of_mem_take hc)
    have hdrop : IsLine (v.drop (split + 1)) := fun c hc => hv c (List.mem_of_mem_drop hc)
    have hnil : IsLine [] := fun c hc => absurd hc List.not_mem_nil
    -- The rest of the value is read behind the space.
    obtain ⟨first, others, hfirst, hline, hcontinued⟩ := ih hdrop (fun h => htab (List.mem_of_mem_drop h)) hnil
      (by
        rw [hlenDrop, List.length_nil]
        omega)
      (s := s ++ v.take split ++ [32]) (by
        rw [List.length_append, List.length_append, hlenTake, hlenDrop, List.length_singleton]
        omega)
    rw [List.nil_append, List.nil_append] at hline
    have hread : s ++ v.take split ++ [32] ++ first = s ++ v.take split ++ 32 :: first := List.append_assoc ..
    have hvalue : s ++ v.take split ++ [32] ++ v.drop (split + 1) = s ++ v := by
      rw [List.append_assoc (s ++ v.take split), List.append_assoc s]
      exact congrArg (s ++ ·) hparts.symm
    rw [hread, hvalue] at hcontinued
    refine ⟨v.take split, 32 :: (writeValue maxLine (v.drop (split + 1)) ++ rest), ?_, ?_, ?_⟩
    . omega
    . rw [writeValue, if_pos hlong, hsplit]
      dsimp only
      rw [List.append_assoc, List.append_assoc, ← List.append_assoc p]
      exact getline_line (hp.append htake) (by rw [List.length_append]; omega) _
    . rw [readContinued_more hline (by rw [List.length_append]; omega)]
      exact hcontinued
  | case2 v hlong hsplit =>
    apply writeValue_whole hv hrest hp hlen
    rw [writeValue, if_pos hlong, hsplit]
  | case3 v hshort =>
    apply writeValue_whole hv hrest hp hlen
    rw [writeValue, if_neg hshort]

-- A header as it is kept
structure IsHeader (e : List UInt8 × List UInt8) : Prop where
  name_ne : e.1 ≠ []
  lower : e.1.map Text.Pattern.tolower = e.1
  line : IsLine e.1
  noColon : 58 ∉ e.1
  noSpace : NoSpace e.1
  value_ne : e.2 ≠ []
  canonical : Text.canonicaliseSpace e.2 = e.2
  length_lt : e.1.length + 2 + e.2.length < MAX_HEADER

theorem toupper_spec
    : ∀ c : UInt8, Text.Pattern.tolower c = c →
        Text.Pattern.tolower (toupper c) = c
          ∧ (toupper c ∈ [58, 13, 10, 32, 9] → toupper c = c) := by
  apply Digits.forall_byte
  decide

theorem length_capitalise (first : Bool) (name : List UInt8) : (capitalise first name).length = name.length := by
  induction name generalizing first with
  | nil => rfl
  | cons c name ih => rw [capitalise, List.length_cons, ih, List.length_cons]

theorem tolower_capitalise (first : Bool) {name : List UInt8} (h : name.map Text.Pattern.tolower = name)
    : (capitalise first name).map Text.Pattern.tolower = name := by
  induction name generalizing first with
  | nil => rfl
  | cons c name ih =>
    rw [List.map_cons, List.cons.injEq] at h
    rw [capitalise, List.map_cons, ih _ h.2]
    cases first with
    | false => exact congrArg (· :: name) h.1
    | true => exact congrArg (· :: name) (toupper_spec c h.1).1

theorem mem_capitalise {first : Bool} {name : List UInt8} (h : name.map Text.Pattern.tolower = name) {d : UInt8}
    (hd : d ∈ [58, 13, 10, 32, 9]) (hmem : d ∈ capitalise first name)
    : d ∈ name := by
  induction name generalizing first with
  | nil => exact hmem
  | cons c name ih =>
    rw [List.map_cons, List.cons.injEq] at h
    rw [capitalise, List.mem_cons] at hmem
    rcases hmem with heq | hmem
    . cases first with
      | false =>
        rw [heq]
        exact List.mem_cons_self
      | true =>
        have heq : d = toupper c := heq
        rw [heq] at hd ⊢
        rw [(toupper_spec c h.1).2 hd]
        exact List.mem_cons_self
    . exact List.mem_cons_of_mem _ (ih h.2 hmem)

section Headers

variable {e : List UInt8 × List UInt8}

theorem IsHeader.capitalise (h : IsHeader e)
    : IsLine (capitalise true e.1) ∧ 58 ∉ MIMEHeaders.capitalise true e.1
        ∧ ∀ rest, NoSpace (MIMEHeaders.capitalise true e.1 ++ rest) := by
  refine ⟨?_, ?_, ?_⟩
  . intro c hc
    constructor
    . rintro rfl
      exact (h.line 13 (mem_capitalise h.lower (by decide) hc)).1 rfl
    . rintro rfl
      exact (h.line 10 (mem_capitalise h.lower (by decide) hc)).2 rfl
  . intro hc
    exact h.noColon (mem_capitalise h.lower (by decide) hc)
  . intro rest
    obtain ⟨name, value⟩ := e
    cases name with
    | nil => exact absurd rfl h.name_ne
    | cons c name =>
      have hlower := (List.cons.inj h.lower).1
      have hspec := (toupper_spec c hlower).2
      have hne (d : UInt8) (hd : d ∈ [58, 13, 10, 32, 9]) (hc : some c ≠ some d) : some (toupper c) ≠ some d := by
        intro heq
        have hupper : toupper c = d := Option.some.inj heq
        rw [← hupper] at hd
        rw [hspec hd] at heq
        exact hc heq
      exact ⟨hne 32 (by decide) h.noSpace.1, hne 9 (by decide) h.noSpace.2⟩

theorem IsHeader.value_line (h : IsHeader e) : IsLine e.2 ∧ 9 ∉ e.2 := by
  have hplain := Text.canonicaliseSpace_plain e.2
  rw [h.canonical] at hplain
  constructor
  . intro c hc
    have := hplain c hc
    constructor
    . rintro rfl
      exact this (Or.inr (Or.inl rfl))
    . rintro rfl
      exact this (Or.inr (Or.inr rfl))
  . intro hc
    exact hplain 9 hc (Or.inl rfl)

theorem readLoop_header (h : IsHeader e) (hrest : NoSpace rest) (headers : MIMEHeaders)
    : readLoop headers (writeHeader maxLine e ++ rest) = readLoop (headers.put e.1 e.2) rest := by
  obtain ⟨hline, hcolon, -⟩ := h.capitalise
  obtain ⟨hvalue, htab⟩ := h.value_line
  have hlen := h.length_lt
  have hseparator : IsLine [58, 32] := by decide
  obtain ⟨first, others, -, hget, hcontinued⟩ := @writeValue_reads maxLine e.2 rest hvalue htab hrest
    (capitalise true e.1 ++ [58, 32]) (hline.append hseparator)
    (by
      rw [List.length_append, length_capitalise]
      exact hlen)
    [32] (by
      rw [List.length_singleton]
      omega)
  have hinput : writeHeader maxLine e ++ rest
      = capitalise true e.1 ++ [58, 32] ++ (writeValue maxLine e.2 ++ rest) := by
    unfold writeHeader
    rw [List.append_assoc]
  obtain ⟨htake, hdrop⟩ := Delimiter.takeWhile_ne hcolon ([32] ++ first)
  have hname : (capitalise true e.1 ++ [58, 32] ++ first).takeWhile (· ≠ 58) = capitalise true e.1 := by
    rw [List.append_assoc]
    exact htake
  have hvalues : ((capitalise true e.1 ++ [58, 32] ++ first).dropWhile (· ≠ 58)).tail = [32] ++ first := by
    rw [List.append_assoc]
    exact congrArg List.tail hdrop
  have hne : capitalise true e.1 ++ [58, 32] ++ first ≠ [] := by
    rw [List.append_assoc]
    exact List.append_ne_nil_of_right_ne_nil _ (List.cons_ne_nil _ _)
  have hmem : 58 ∈ capitalise true e.1 ++ [58, 32] ++ first :=
    List.mem_append_left _ (List.mem_append_right _ List.mem_cons_self)
  have hboth : e.1 ≠ [] ∧ e.2 ≠ [] := ⟨h.name_ne, h.value_ne⟩
  rw [readLoop, hinput, hget]
  dsimp only
  rw [if_neg (by simp), if_neg hne, if_pos hmem, hname, hvalues, hcontinued]
  dsimp only
  rw [if_neg (by simp), tolower_capitalise true h.lower]
  have hcanonical : Text.canonicaliseSpace ([32] ++ e.2) = e.2 := h.canonical
  rw [hcanonical, if_pos hboth]

theorem readLoop_blank (headers : MIMEHeaders) (rest : List UInt8)
    : readLoop headers (13 :: 10 :: rest) = { ok := true, headers, rest } := by
  have hnil : IsLine [] := fun c hc => absurd hc List.not_mem_nil
  have hline := getline_line hnil (by decide) rest
  rw [List.nil_append] at hline
  rw [readLoop, hline]
  rfl

theorem noSpace_headers (maxLine : Nat) {xml : List (List UInt8 × List UInt8)} (h : ∀ e ∈ xml, IsHeader e)
    (rest : List UInt8)
    : NoSpace (xml.flatMap (writeHeader maxLine) ++ 13 :: 10 :: rest) := by
  cases xml with
  | nil => exact ⟨by simp, by simp⟩
  | cons e xml =>
    rw [List.flatMap_cons, writeHeader, List.append_assoc, List.append_assoc, List.append_assoc]
    exact (h e List.mem_cons_self).capitalise.2.2 _

theorem noSpace_write {headers : MIMEHeaders} (h : ∀ e ∈ headers.xml, IsHeader e) (rest : List UInt8)
    : NoSpace (headers.write ++ rest) := by
  unfold write
  rw [List.append_assoc]
  exact noSpace_headers headers.maxLine h rest

/--
Headers are read back in their order, and the stream is left behind the blank line.
-/
theorem readLoop_write {xml : List (List UInt8 × List UInt8)} (h : ∀ e ∈ xml, IsHeader e) (headers : MIMEHeaders)
    (rest : List UInt8)
    : readLoop headers (xml.flatMap (writeHeader maxLine) ++ 13 :: 10 :: rest)
        =
      { ok := true, headers := { headers with xml := headers.xml ++ xml }, rest } := by
  induction xml generalizing headers with
  | nil =>
    rw [List.flatMap_nil, List.nil_append, List.append_nil]
    exact readLoop_blank headers rest
  | cons e xml ih =>
    have hrest : ∀ e ∈ xml, IsHeader e := fun e he => h e (List.mem_cons_of_mem _ he)
    have hnext := noSpace_headers maxLine hrest rest
    rw [List.flatMap_cons, List.append_assoc, readLoop_header (h e List.mem_cons_self) hnext, ih hrest]
    unfold put
    dsimp only
    rw [List.append_assoc]
    rfl

/--
What is written is read back, however long its lines may be.
-/
theorem read_folded {headers : MIMEHeaders} (h : ∀ e ∈ headers.xml, IsHeader e) (r : MIMEHeaders) (rest : List UInt8)
    : r.read (headers.write ++ rest) false = { ok := true, headers := { r with xml := headers.xml }, rest } := by
  unfold read write
  rw [if_neg Bool.false_ne_true, List.append_assoc]
  exact readLoop_write h { r with xml := [] } rest

-- The value is split behind the first comma, and then at a space.
theorem read_folded_split
    : let headers : MIMEHeaders := { maxLine := 6, xml := [(Lex.chars "to-all", Lex.chars "a, b,c d e")] }
      new.read (headers.write ++ Lex.chars "body") false
        =
      { ok := true, headers := { new with xml := headers.xml }, rest := Lex.chars "body" } := by
  apply read_folded
  rw [List.forall_mem_singleton]
  constructor
  all_goals decide

theorem get_of_forall_ne {headers : MIMEHeaders} {name : List UInt8} (h : ∀ e ∈ headers.xml, e.1 ≠ name)
    : headers.get name = [] := by
  have hnone : headers.xml.find? (fun e => e.1 = name) = none := by
    rw [List.find?_eq_none]
    intro e he
    simpa using h e he
  unfold get
  rw [hnone]
  rfl

theorem has_of_forall_ne {headers : MIMEHeaders} {name : List UInt8} (h : ∀ e ∈ headers.xml, e.1 ≠ name)
    : headers.has name = false := by
  unfold has
  rw [List.any_eq_false]
  intro e he
  simpa using h e he

end Headers

end MIMEHeaders

end Web
end ObTools
