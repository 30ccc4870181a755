import ObTools.Lib.Nesting
import ObTools.Xml.Runs

/-!
This module contains the tags that the parser reads, and the proof that a document that has been parsed
is complete unless it begins with an end tag.
-/

namespace ObTools
namespace Xml
namespace Parser

open Decoder (Keeps)
open ObTools.Lex (chars)
open Nesting (Open)
open Visits (after)

abbrev Tag := Nesting.Tag Bytes

def startTags (c : UInt8) (p : Parser) : List Tag :=
  after (readTag c) (fun empty _ => [if empty then .empty (nameAt c p) else .start (nameAt c p)]) p

def endTags (c : UInt8) : Parser → List Tag :=
  after (readRestOfName c) fun (name, c) =>
    after (if isAsciiSpace c then skipWs c else pure c) fun c _ => if c = 62 then [.stop name] else []

-- The tag that is read in a step, if there is one
def stepTags : Parser → List Tag :=
  after first fun c =>
    if c = 60 then
      after (getChar c) fun c =>
        if c = 47 then
          after (getChar c) fun c => if isNameStart c then endTags c else fun _ => []
        else if isNameStart c then
          startTags c
        else
          fun _ => []
    else
      fun _ => []

-- An end tag that is read while no elements are open
def unmatchedTags (p : Parser) : List Tag :=
  if p.elements.isEmpty then
    (stepTags p).filter fun tag =>
      match tag with
      | .stop _ => true
      | _ => false
  else
    []

-- The tags of a document
def tags (flags : Flags) (userNsMap : List (Bytes × Bytes)) (input : Bytes) (next : Nat) : List Tag :=
  visitsOf stepTags (new flags userNsMap input next)

/-
The parse of a text has a root whose tags match, and nothing is left open.
-/
structure Complete (flags : Flags) (userNsMap : List (Bytes × Bytes)) (input : Bytes) (next : Nat) : Prop where
  parsed : ∀ u p, parseStream (new flags userNsMap input next) = some (.ok (u, p)) →
    p.root.isSome = true ∧ p.elements = [] ∧ Nesting.Document (tags flags userNsMap input next)
  matched : visitsOf unmatchedTags (new flags userNsMap input next) = []

variable {p p' p1 p2 : Parser} {c : UInt8} {fuel : Nat}

/-
The tags of the different steps.
-/

theorem stepTags_of_ne (h1 : first p = some (.ok (c, p1))) (hc : c ≠ 60) : stepTags p = [] := by
  unfold stepTags
  rw [Visits.after_eq h1, if_neg hc]

theorem stepTags_other (h1 : first p = some (.ok (60, p1))) (h2 : getChar 60 p1 = some (.ok (c, p2)))
    (hc : c ≠ 47 ∧ isNameStart c = false)
    : stepTags p = [] := by
  unfold stepTags
  rw [Visits.after_eq h1, if_pos rfl, Visits.after_eq h2, if_neg hc.1, if_neg (by simp [hc.2])]

theorem stepTags_tag {empty : Bool} (h1 : first p = some (.ok (60, p1)))
    (h2 : getChar 60 p1 = some (.ok (c, p2))) (hc : isNameStart c = true)
    (hread : readTag c p2 = some (.ok (empty, p')))
    : stepTags p = [if empty then .empty (nameAt c p2) else .start (nameAt c p2)] := by
  unfold stepTags startTags
  rw [Visits.after_eq h1, if_pos rfl, Visits.after_eq h2, if_neg (isNameStart_spec c hc).2.1, if_pos hc,
    Visits.after_eq hread]

theorem endTags_eq {u : Unit} (h : readEndTag c p = some (.ok (u, p'))) : endTags c p = [.stop (nameAt c p)] := by
  unfold readEndTag at h
  obtain ⟨⟨name, c1⟩, p1, hname, h⟩ := Decoder.bind_ok h
  dsimp only at h
  obtain ⟨c2, p2, hskip, h⟩ := Decoder.bind_ok ((branch_bind ..).trans h)
  unfold endTags
  rw [Visits.after_eq hname]
  dsimp only
  rw [Visits.after_eq hskip, readRestOfName_name hname]
  split at h
  case isTrue => cases h
  case isFalse hc =>
    rw [Decidable.not_not] at hc
    rw [if_pos hc]

theorem stepTags_endTag {p3 : Parser} (h1 : first p = some (.ok (60, p1)))
    (h2 : getChar 60 p1 = some (.ok (47, p2))) (h3 : getChar 47 p2 = some (.ok (c, p3)))
    (hc : isNameStart c = true) (hread : readEndTag c p3 = some (.ok ((), p')))
    : stepTags p = [.stop (nameAt c p3)] := by
  unfold stepTags
  rw [Visits.after_eq h1, if_pos rfl, Visits.after_eq h2, if_pos rfl, Visits.after_eq h3, if_pos hc,
    endTags_eq hread]

theorem unmatchedTags_stop {name : Bytes} (helements : p.elements = []) (htags : stepTags p = [.stop name])
    : unmatchedTags p = [.stop name] := by
  unfold unmatchedTags
  rw [helements, htags]
  rfl

/-
The elements that are open after some tags.
-/
structure Reading (p : Parser) (tags : List Tag) : Prop where
  root : p.root = none
  hasRoot : p.hasRoot = !p.elements.isEmpty
  names : Open (p.elements.map Element.name) tags

theorem closed_names (e : Element) (p : Parser)
    : (closed e p).elements.map Element.name = p.elements.map Element.name := by
  unfold closed
  cases helements : p.elements <;> rfl

theorem closed_isEmpty (e : Element) (p : Parser) : (closed e p).elements.isEmpty = p.elements.isEmpty := by
  have hnames := congrArg List.isEmpty (closed_names e p)
  rwa [List.isEmpty_map, List.isEmpty_map] at hnames

theorem closed_hasRoot (e : Element) (p : Parser) : (closed e p).hasRoot = p.hasRoot := by
  unfold closed
  split <;> rfl

theorem closed_root (e : Element) (p : Parser) : (closed e p).root = if p.elements.isEmpty then some e else p.root := by
  unfold closed
  cases helements : p.elements <;> rfl

namespace Reading

variable {tags : List Tag}

theorem move (h : Reading p tags) (hmoved : Moved p p') : Reading p' tags where
  root := hmoved.root.trans h.root
  hasRoot := by rw [hmoved.hasRoot, hmoved.elements, h.hasRoot]
  names := by
    rw [hmoved.elements]
    exact h.names

-- The only element that is open ends, or one within another
theorem close {e : Element} {tag : Tag} (hroot : p.root = none) (hhasRoot : p.hasRoot = true)
    (hlast : p.elements = [] → Nesting.Document (tags ++ [tag]))
    (hopen : ∀ top elements, p.elements = top :: elements → Open (p.elements.map Element.name) (tags ++ [tag]))
    : if (closed e p).elements.isEmpty then
        (closed e p).root.isSome = true ∧ (closed e p).elements = [] ∧ Nesting.Document (tags ++ [tag])
      else
        Reading (closed e p) (tags ++ [tag]) := by
  rw [closed_isEmpty]
  cases helements : p.elements with
  | nil =>
    rw [List.isEmpty_nil, if_pos rfl, closed_root, helements]
    refine ⟨rfl, ?_, hlast helements⟩
    have hempty := closed_isEmpty e p
    rw [helements] at hempty
    exact List.isEmpty_iff.mp hempty
  | cons top elements =>
    rw [List.isEmpty_cons, if_neg (by simp)]
    refine ⟨?_, ?_, ?_⟩
    . rw [closed_root, helements]
      exact hroot
    . rw [closed_hasRoot, closed_isEmpty, helements]
      exact hhasRoot
    . rw [closed_names]
      exact hopen top elements helements

theorem tags_nil (h : Reading p tags) (helements : p.elements = []) : tags = [] := by
  have hnames := h.names
  rw [helements] at hnames
  cases hnames
  rfl

theorem endTag (h : Reading p tags) {u : Unit} (hread : readEndTag c p = some (.ok (u, p')))
    (helements : p.elements ≠ [])
    : if p'.elements.isEmpty then
        p'.root.isSome = true ∧ p'.elements = [] ∧ Nesting.Document (tags ++ [.stop (nameAt c p)])
      else
        Reading p' (tags ++ [.stop (nameAt c p)]) := by
  obtain ⟨p1, hmoved, hread⟩ := readEndTag_cases hread
  have h1 := h.move hmoved
  rcases hread with ⟨e, elements, e', p2, htop, hname, hfinal, rfl⟩ | ⟨hnil, -⟩
  . obtain ⟨nsMaps, rfl⟩ := finalProcessing_state hfinal
    have hnames := h1.names
    rw [htop, List.map_cons, ← hname] at hnames
    have hroot : p1.hasRoot = true := by
      rw [h1.hasRoot, htop]
      rfl
    refine close h1.root hroot ?_ ?_
    . intro hlast
      dsimp only at hlast
      rw [hlast] at hnames
      exact hnames.document
    . intro top rest hnext
      dsimp only at hnext ⊢
      rw [hnext] at hnames ⊢
      exact hnames.stop
  . rw [hmoved.elements] at hnil
    exact absurd hnil helements

theorem tag (h : Reading p tags) {empty : Bool} (hread : readTag c p = some (.ok (empty, p')))
    : if empty && p'.elements.isEmpty then
        p'.root.isSome = true ∧ p'.elements = []
          ∧ Nesting.Document (tags ++ [if empty then .empty (nameAt c p) else .start (nameAt c p)])
      else
        Reading p' (tags ++ [if empty then .empty (nameAt c p) else .start (nameAt c p)]) := by
  obtain ⟨e, p1, ⟨line, attrs, rfl⟩, hmoved, hread⟩ := readTag_cases hread
  have hroot : p1.root = none := hmoved.root.trans h.root
  have helements : p1.elements = p.elements := hmoved.elements
  cases empty with
  | true =>
    obtain ⟨e', p2, hfinal, rfl⟩ := hread
    obtain ⟨nsMaps, rfl⟩ := finalProcessing_state hfinal
    rw [Bool.true_and, if_pos rfl]
    refine close hroot rfl ?_ ?_
    . intro hlast
      rw [h.tags_nil (helements.symm.trans hlast)]
      exact .empty (nameAt c p)
    . intro top rest hnext
      have hnames := h.names
      dsimp only at hnext ⊢
      rw [← helements, hnext] at hnames
      rw [hnext]
      exact hnames.empty (nameAt c p)
  | false =>
    cases hread
    rw [Bool.false_and, if_neg (by simp), if_neg (by simp)]
    refine ⟨hroot, rfl, ?_⟩
    have hnames := h.names
    rw [← helements] at hnames
    exact hnames.start (nameAt c p)

end Reading

-- Content changes no names of open elements
theorem addContent_name (preserveWhitespace : Bool) (content : Bytes) (text e : Element)
    : (addContent preserveWhitespace content text e).name = e.name := by
  unfold addContent
  split
  . split <;> rfl
  . rfl

theorem Reading.content {tags : List Tag} (h : Reading p tags) {u : Unit} (hread : readContent c p = some (.ok (u, p')))
    : Reading p' tags := by
  obtain ⟨p1, hmoved, hread⟩ := readContent_cases hread
  have h1 := h.move hmoved
  rcases hread with ⟨e, elements, content, helements, rfl⟩ | ⟨-, rfl⟩
  . refine ⟨h1.root, ?_, ?_⟩
    . rw [h1.hasRoot, helements]
      rfl
    . have hnames := h1.names
      rw [helements] at hnames
      dsimp only
      rw [List.map_cons, addContent_name]
      exact hnames
  . exact h1

/--
A step ends the document or goes on with the elements that are open after its tag.
-/
theorem Reading.step {tags : List Tag} (h : Reading p tags) {done : Bool}
    (hstep : parseStep p = some (.ok (done, p'))) (hmatched : unmatchedTags p = [])
    : if done then
        p'.root.isSome = true ∧ p'.elements = [] ∧ Nesting.Document (tags ++ stepTags p)
      else
        Reading p' (tags ++ stepTags p) := by
  cases parseStep_cases hstep with
  | skip h1 h2 hmark hkeeps =>
    rw [stepTags_other h1 h2 (by rcases hmark with rfl | rfl <;> decide), List.append_nil]
    exact h.move (hkeeps _ (Moved.refl p))
  | endTag h1 h2 h3 hname hread =>
    have hmoved := getChar_keeps 47 _ _ _ (getChar_keeps 60 _ _ _ (first_moved h1) h2) h3
    have htags := stepTags_endTag h1 h2 h3 hname hread
    rw [htags]
    apply (h.move hmoved).endTag hread
    intro hnil
    rw [unmatchedTags_stop (hmoved.elements.symm.trans hnil) htags] at hmatched
    cases hmatched
  | tag h1 h2 hname hread =>
    have hmoved := getChar_keeps 60 _ _ _ (first_moved h1) h2
    rw [stepTags_tag h1 h2 hname hread]
    exact (h.move hmoved).tag hread
  | text h1 h2 hother hback hread =>
    have hmoved := unget_keeps _ _ _ _ (getChar_keeps 60 _ _ _ (first_moved h1) h2) hback
    rw [stepTags_other h1 h2 hother, List.append_nil]
    exact (h.move hmoved).content hread
  | content hroot hchar h1 hread =>
    rw [stepTags_of_ne h1 hchar.2, List.append_nil]
    exact (h.move (first_moved h1)).content hread

/-
Runs of the parser.
-/

theorem Reading.run {tags : List Tag} (h : Reading p tags) {u : Unit} (hloop : parseLoop fuel p = some (.ok (u, p')))
    (hmatched : visits unmatchedTags fuel p = [])
    : p'.root.isSome = true ∧ p'.elements = [] ∧ Nesting.Document (tags ++ visits stepTags fuel p) := by
  induction fuel generalizing p tags with
  | zero => cases hloop
  | succ fuel ih =>
    rw [parseLoop] at hloop
    obtain ⟨done, p1, hstep, hloop⟩ := Decoder.bind_ok hloop
    rw [visits, Visits.after_eq hstep] at hmatched ⊢
    obtain ⟨hmatched, hrest⟩ := List.append_eq_nil_iff.mp hmatched
    have h1 := h.step hstep hmatched
    rw [← List.append_assoc]
    cases done with
    | true =>
      cases hloop
      rw [if_pos rfl, List.append_nil]
      exact h1
    | false => exact ih h1 hloop hrest

theorem Reading.elements_eq_nil_iff {tags : List Tag} (h : Reading p tags) : p.elements = [] ↔ tags = [] := by
  rw [← h.names.eq_nil_iff, List.map_eq_nil_iff]

-- What comes after a step that goes on
theorem visits_after {β : Type} {f : Parser → List β} {P : List β → Prop} (hnil : P [])
    (hgo : ∀ p', parseStep p = some (.ok (false, p')) → P (visits f fuel p'))
    : P (after parseStep (fun done => if done then fun _ => [] else visits f fuel) p) := by
  unfold after
  split
  case h_1 done p' hstep =>
    cases done with
    | true => exact hnil
    | false => exact hgo p' hstep
  case h_2 => exact hnil

theorem Reading.visits_unmatched {tags : List Tag} (h : Reading p tags) (htags : tags ≠ [])
    : visits unmatchedTags fuel p = [] := by
  induction fuel generalizing p tags with
  | zero => rfl
  | succ fuel ih =>
    have hmatched : unmatchedTags p = [] := by
      unfold unmatchedTags
      rw [if_neg]
      rw [List.isEmpty_iff, h.elements_eq_nil_iff]
      exact htags
    rw [visits, hmatched, List.nil_append]
    apply visits_after (P := (· = []))
    . rfl
    . intro p' hstep
      refine ih (h.step hstep hmatched) ?_
      exact List.append_ne_nil_of_left_ne_nil htags _

-- At most one tag
def Single (l : List Tag) : Prop :=
  l = [] ∨ ∃ name, l = [.stop name] ∨ l = [.start name] ∨ l = [.empty name]

theorem after_single {α : Type} {x : Parse α} {v : α → Parser → List Tag} (h : ∀ a p', Single (v a p'))
    : Single (after x v p) := by
  unfold after
  split
  case h_1 a p' _ => exact h a p'
  case h_2 => exact Or.inl rfl

theorem stepTags_single (p : Parser) : Single (stepTags p) := by
  have hnil : Single [] := Or.inl rfl
  refine after_single fun c p1 => ?_
  split
  . refine after_single fun c p2 => ?_
    split
    . refine after_single fun c p3 => ?_
      split
      . refine after_single fun (name, c) p4 => ?_
        refine after_single fun c p5 => ?_
        split
        . exact Or.inr ⟨name, Or.inl rfl⟩
        . exact hnil
      . exact hnil
    . split
      . refine after_single fun empty p3 => ?_
        refine Or.inr ⟨nameAt c p2, Or.inr ?_⟩
        cases empty with
        | true => exact Or.inr rfl
        | false => exact Or.inl rfl
      . exact hnil
  . exact hnil

/--
As long as there is no root, the first tag decides.
-/
theorem Reading.visits_unmatched_iff (h : Reading p [])
    : visits unmatchedTags fuel p = [] ↔ ∀ name, (visits stepTags fuel p).head? ≠ some (.stop name) := by
  have helements := h.elements_eq_nil_iff.mpr rfl
  induction fuel generalizing p with
  | zero => simp [visits]
  | succ fuel ih =>
    rw [visits, visits]
    rcases stepTags_single p with hnone | ⟨name, hstop | hother⟩
    . have hmatched : unmatchedTags p = [] := by
        unfold unmatchedTags
        rw [hnone]
        split <;> rfl
      rw [hmatched, hnone, List.nil_append, List.nil_append]
      unfold after
      cases hstep : parseStep p with
      | none => simp
      | some r =>
        cases r with
        | error e => simp
        | ok r =>
          obtain ⟨done, p'⟩ := r
          cases done with
          | true => simp
          | false =>
            have h' := h.step hstep hmatched
            rw [hnone] at h'
            exact ih h' (h'.elements_eq_nil_iff.mpr rfl)
    . rw [unmatchedTags_stop helements hstop, hstop]
      simp
    . have hmatched : unmatchedTags p = [] := by
        unfold unmatchedTags
        rcases hother with heq | heq
        all_goals
          rw [heq]
          split <;> rfl
      rw [hmatched, List.nil_append]
      constructor
      . intro _ name'
        rcases hother with heq | heq
        all_goals
          rw [heq]
          simp
      . intro _
        apply visits_after (P := (· = []))
        . rfl
        . intro p' hstep
          have h' := h.step hstep hmatched
          refine Reading.visits_unmatched h' ?_
          rcases hother with heq | heq
          all_goals
            rw [heq]
            simp

-- An end tag that is read while no elements are open ends the document
theorem unmatchedTags_go_on {done : Bool} (hstep : parseStep p = some (.ok (done, p'))) (hdone : done = false)
    : unmatchedTags p = [] := by
  unfold unmatchedTags
  split
  case isFalse => rfl
  case isTrue hempty =>
    rw [List.isEmpty_iff] at hempty
    cases parseStep_cases hstep with
    | skip h1 h2 hmark hkeeps =>
      rw [stepTags_other h1 h2 (by rcases hmark with rfl | rfl <;> exact ⟨by decide, rfl⟩)]
      rfl
    | endTag h1 h2 h3 hname hread =>
      have helements : p'.elements = [] := by
        have hmoved := getChar_keeps 47 _ _ _ (getChar_keeps 60 _ _ _ (first_moved h1) h2) h3
        obtain ⟨p4, hmoved4, hread⟩ := readEndTag_cases hread
        have hnil := hmoved4.elements.trans (hmoved.elements.trans hempty)
        rcases hread with ⟨e, elements, e', p5, htop, -⟩ | ⟨-, hmoved'⟩
        . rw [htop] at hnil
          cases hnil
        . exact hmoved'.elements.trans (hmoved.elements.trans hempty)
      rw [helements] at hdone
      cases hdone
    | @tag c p1 p2 empty h1 h2 hname hread =>
      rw [stepTags_tag h1 h2 hname hread]
      cases empty <;> rfl
    | text h1 h2 hother _ _ =>
      rw [stepTags_other h1 h2 hother]
      rfl
    | content _ hchar h1 _ =>
      rw [stepTags_of_ne h1 hchar.2]
      rfl

theorem reading_new (flags : Flags) (userNsMap : List (Bytes × Bytes)) (input : Bytes) (next : Nat)
    : Reading (new flags userNsMap input next) [] := ⟨rfl, rfl, .nil⟩

/--
A document that has been parsed is complete unless its first tag is an end tag, which is taken for the end
of the document.
-/
theorem complete_iff (flags : Flags) (userNsMap : List (Bytes × Bytes)) (input : Bytes) (next : Nat)
    : Complete flags userNsMap input next ↔ ∀ name, (tags flags userNsMap input next).head? ≠ some (.stop name) := by
  have hread {u : Unit} {p : Parser} (hbom : skipBom (new flags userNsMap input next) = some (.ok (u, p)))
      : Reading p [] :=
    (reading_new flags userNsMap input next).move (skipBom_keeps _ u p (Moved.refl _) hbom)
  have hfirst : visitsOf unmatchedTags (new flags userNsMap input next) = [] ↔
      ∀ name, (tags flags userNsMap input next).head? ≠ some (.stop name) := by
    unfold tags visitsOf after
    split
    case h_1 u p hbom => exact (hread hbom).visits_unmatched_iff
    case h_2 => simp
  constructor
  . intro hcomplete
    exact hfirst.mp hcomplete.matched
  . intro hno
    have hmatched := hfirst.mpr hno
    refine ⟨?_, hmatched⟩
    intro u p hparse
    obtain ⟨u1, p1, hbom, hloop⟩ := Decoder.bind_ok hparse
    unfold tags
    unfold visitsOf at hmatched ⊢
    rw [Visits.after_eq hbom] at hmatched ⊢
    exact (hread hbom).run hloop hmatched

/--
The parse of an end tag alone succeeds, without a root.
-/
theorem not_complete
    : ¬Complete PARSER_OPTIMISE_CONTENT [] (chars "</a>") 0
        ∧ (match parseStream (new PARSER_OPTIMISE_CONTENT [] (chars "</a>") 0) with
          | some (.ok (_, p)) => p.root.isNone
          | _ => false) = true := by
  refine ⟨?_, by decide⟩
  intro hcomplete
  have hstop : visitsOf unmatchedTags (new PARSER_OPTIMISE_CONTENT [] (chars "</a>") 0)
      = [.stop (chars "a")] := by
    decide
  rw [hcomplete.matched] at hstop
  cases hstop

end Parser
end Xml
end ObTools
