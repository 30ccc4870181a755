import ObTools.Lib.SortedMap
import ObTools.Xml.Runs

/-!
This module contains the names that the elements and attributes of a document have after their namespaces
have been fixed, and the proof that the parser gives them these names.
-/

namespace ObTools
namespace Xml

open ObTools.Lex (chars)

abbrev Attrs := List (Bytes × Bytes)

-- Whether an attribute declares the namespace of a prefix, which is empty for the default
def Declares (aname pre : Bytes) : Prop := aname = chars "xmlns" ∧ pre = [] ∨ aname = chars "xmlns:" ++ pre

instance (aname pre : Bytes) : Decidable (Declares aname pre) := inferInstanceAs (Decidable (_ ∨ _))

-- What the innermost declaration binds a prefix to; of two declarations in one tag the last one counts
def namespaceOf (scopes : List Attrs) (pre : Bytes) : Option Bytes :=
  scopes.findSome? fun attrs => (attrs.reverse.find? fun attr => Declares attr.1 pre).map Prod.snd

-- The prefix of a name, or the default if it is used
def prefixOf (name : Bytes) (usedef : Bool) : Option Bytes :=
  if 58 ∈ name then
    some (name.takeWhile (· ≠ 58))
  else if usedef then
    some []
  else
    none

def localPart (name : Bytes) : Bytes := if 58 ∈ name then (name.dropWhile (· ≠ 58)).drop 1 else name

-- The prefix that the user has given to the namespace of a name
def newPrefix (userNsMap : Attrs) (scopes : List Attrs) (name : Bytes) (usedef : Bool) : Option Bytes :=
  ((prefixOf name usedef).bind (namespaceOf scopes)).bind fun nsname => SortedMap.find nsname userNsMap

def fixedName (userNsMap : Attrs) (scopes : List Attrs) (name : Bytes) (usedef : Bool) : Bytes :=
  match newPrefix userNsMap scopes name usedef with
  | none => name
  | some newprefix => if newprefix = [] then localPart name else newprefix ++ chars ":" ++ localPart name

section

variable (userNsMap : Attrs) (source : Nat → Option Element)

/-
A tree whose elements have the fixed names, where the source has the elements as their tags have them.
-/
inductive Fixed : List Attrs → Element → Prop
  | text {scopes : List Attrs} {e : Element} (read : source e.this = none) (name : e.name = [])
      (attrs : e.attrs = []) (children : e.children = [])
    : Fixed scopes e
  | element {scopes : List Attrs} {e tag : Element} (read : source e.this = some tag)
      (name : e.name = fixedName userNsMap (tag.attrs :: scopes) tag.name true)
      -- The last one of the attributes that come to have the same name counts
      (attrs : ∀ aname, SortedMap.find aname e.attrs
        = (tag.attrs.reverse.find? fun attr =>
            fixedName userNsMap (tag.attrs :: scopes) attr.1 false = aname).map Prod.snd)
      (children : ∀ c ∈ e.children, Fixed (tag.attrs :: scopes) c)
    : Fixed scopes e

/-
Open elements have the names of their tags.
-/
inductive Unfixed : List Element → Prop
  | nil : Unfixed []
  | cons {e tag : Element} {elements : List Element} (read : source e.this = some tag)
      (name : e.name = tag.name) (attrs : e.attrs = tag.attrs)
      (children : ∀ c ∈ e.children, Fixed userNsMap source ((e :: elements).map Element.attrs) c)
      (rest : Unfixed elements)
    : Unfixed (e :: elements)

end

namespace Parser

open Decoder (Keeps)
open Visits (after)

-- The element that is read in a step as its tag has it, if there is one
def openings : Parser → List Element :=
  after first fun c =>
    if c = 60 then
      after (getChar c) fun c =>
        if isNameStart c then after (readElement c) fun (e, _) _ => [e] else fun _ => []
    else
      fun _ => []

-- The elements of a document as their tags have them
def sourceOf (p : Parser) (this : Nat) : Option Element := (visitsOf openings p).find? fun e => e.this = this

/-
The names in what has been read so far, and a level of namespaces for each open element.
-/
structure Scoped (userNsMap : Attrs) (source : Nat → Option Element) (p : Parser) : Prop where
  levels : p.nsMaps.length = p.elements.length
  unfixed : Unfixed userNsMap source p.elements
  root : ∀ e ∈ p.root, Fixed userNsMap source [] e

-- A parser with PARSER_FIX_NAMESPACES
def fixing (flags : Flags) (userNsMap : Attrs) (input : Bytes) (next : Nat) : Parser :=
  new { flags with fixNamespaces := true } userNsMap input next

/-
The names are fixed in all states of a run, and in the document if it has been parsed.
-/
structure NamesFixed (userNsMap : Attrs) (start : Parser) : Prop where
  steps : ∀ p ∈ visitsOf (fun p => [p]) start, Scoped userNsMap (sourceOf start) p
  parsed : ∀ u p, parseStream start = some (.ok (u, p)) → Scoped userNsMap (sourceOf start) p

/-
The lookups.
-/

theorem nsPrefix_eq_some_iff (aname pre : Bytes) : nsPrefix aname = some pre ↔ Declares aname pre := by
  unfold nsPrefix Declares
  split
  . next heq =>
    rw [heq, Option.some_inj]
    constructor
    . intro hpre
      exact Or.inl ⟨rfl, hpre.symm⟩
    . rintro (⟨-, hpre⟩ | hname)
      . exact hpre.symm
      . exact absurd hname (by simp [chars])
  . next hne =>
    split
    . next hprefix =>
      obtain ⟨rest, rfl⟩ := List.isPrefixOf_iff_prefix.mp hprefix
      have hlength : (chars "xmlns:").length = 6 := rfl
      rw [← hlength, List.drop_left, Option.some_inj]
      constructor
      . rintro rfl
        exact Or.inr rfl
      . rintro (⟨hname, -⟩ | hname)
        . exact absurd hname hne
        . exact List.append_cancel_left hname
    . next hprefix =>
      constructor
      . intro hnone
        cases hnone
      . rintro (⟨hname, -⟩ | rfl)
        . exact absurd hname hne
        . exact absurd (List.isPrefixOf_iff_prefix.mpr (List.prefix_append _ _)) hprefix

-- The maps of the levels
abbrev scopeMaps (scopes : List Attrs) : List Attrs :=
  Scopes.maps (fun attr : Bytes × Bytes => nsPrefix attr.1) Prod.snd scopes

theorem find_scopeMaps (scopes : List Attrs) (pre : Bytes)
    : SortedMap.find pre ((scopeMaps scopes).headD []) = namespaceOf scopes pre := by
  rw [Scopes.find_maps]
  unfold Scopes.binding Scopes.declared namespaceOf
  simp only [nsPrefix_eq_some_iff]

theorem scopeMaps_cons (attrs : Attrs) (scopes : List Attrs)
    : ∃ topMap, scopeMaps (attrs :: scopes) = topMap :: scopeMaps scopes
        ∧ ∀ pre, SortedMap.find pre topMap = namespaceOf (attrs :: scopes) pre :=
  ⟨_, rfl, find_scopeMaps (attrs :: scopes)⟩

theorem substituteName_eq {topMap userNsMap : Attrs} {scopes : List Attrs}
    (hmap : ∀ pre, SortedMap.find pre topMap = namespaceOf scopes pre) (name : Bytes) (usedef : Bool)
    : substituteName userNsMap topMap name usedef = fixedName userNsMap scopes name usedef := by
  have htail : name.drop ((name.takeWhile (· ≠ 58)).length + 1) = (name.dropWhile (· ≠ 58)).drop 1 := by
    have happend := List.takeWhile_append_dropWhile (p := (· ≠ 58)) (l := name)
    conv =>
      lhs
      arg 2
      rw [← happend]
    rw [← List.drop_drop, List.drop_left]
  unfold substituteName fixedName newPrefix prefixOf localPart
  by_cases hcolon : 58 ∈ name
  . have hcontains : name.contains 58 = true := by simpa using hcolon
    rw [hcontains, if_pos hcolon, if_pos hcolon]
    simp only [Bool.not_true, Bool.false_eq_true, false_and, if_false, if_true]
    rw [Option.bind_some, hmap, htail]
    cases (namespaceOf scopes (name.takeWhile (· ≠ 58))).bind fun nsname => SortedMap.find nsname userNsMap with
    | none => rfl
    | some newprefix => cases newprefix <;> rfl
  . have hcontains : name.contains 58 = false := by simpa using hcolon
    rw [hcontains, if_neg hcolon, if_neg hcolon]
    cases usedef with
    | false => rfl
    | true =>
      simp only [Bool.not_false, Bool.not_true, Bool.false_eq_true, and_false, if_false, if_true]
      rw [Option.bind_some, hmap]
      cases (namespaceOf scopes []).bind fun nsname => SortedMap.find nsname userNsMap with
      | none => rfl
      | some newprefix => cases newprefix <;> rfl

/-
What a step does to the elements.
-/
inductive Acted (p : Parser) : Parser → List Element → Prop
  | moved {p' : Parser} (moved : Moved p p') : Acted p p' []
  | start {e : Element} {p1 : Parser} (this : e.this = p.next) (children : e.children = [])
      (moved : Moved { p with next := p.next + 1 } p1)
    : Acted p { p1 with nsMaps := openLevels e p1, hasRoot := true, elements := e :: p1.elements } [e]
  | empty {e e' : Element} {p1 p2 : Parser} (this : e.this = p.next) (children : e.children = [])
      (moved : Moved { p with next := p.next + 1 } p1)
      (final : finalProcessing e { p1 with nsMaps := openLevels e p1, hasRoot := true } = some (.ok (e', p2)))
    : Acted p (closed e' p2) [e]
  | stop {e e' : Element} {elements : List Element} {p1 p2 : Parser} (moved : Moved p p1)
      (top : p1.elements = e :: elements)
      (final : finalProcessing e { p1 with elements := elements } = some (.ok (e', p2)))
    : Acted p (closed e' p2) []
  | content {e : Element} {elements : List Element} {p1 : Parser} (content : Bytes) (moved : Moved p p1)
      (top : p1.elements = e :: elements)
    : Acted p
        { p1 with
          next := p1.next + 1
          elements := addContent p1.flags.preserveWhitespace content (Element.new p1.next [] content) e
            :: elements } []

variable {p p' p1 : Parser} {c : UInt8} {fuel : Nat}

theorem openings_of_ne (h : first p = some (.ok (c, p1))) (hc : c ≠ 60) : openings p = [] := by
  unfold openings
  rw [Visits.after_eq h, if_neg hc]

theorem openings_other {d : UInt8} {p2 : Parser} (h1 : first p = some (.ok (60, p1)))
    (h2 : getChar 60 p1 = some (.ok (d, p2))) (hd : isNameStart d = false)
    : openings p = [] := by
  unfold openings
  rw [Visits.after_eq h1, if_pos rfl, Visits.after_eq h2, if_neg (by simp [hd])]

theorem Acted.of_content {d : UInt8} {p2 : Parser} {u : Unit} (hmoved : Moved p p1)
    (hread : readContent d p1 = some (.ok (u, p2)))
    : Acted p p2 [] := by
  obtain ⟨p3, hmoved3, hread⟩ := readContent_cases hread
  have hmoved : Moved p p3 := hmoved.trans hmoved3
  rcases hread with ⟨e, elements, content, helements, rfl⟩ | ⟨-, rfl⟩
  . exact .content content hmoved helements
  . exact .moved hmoved

theorem closed_next (e : Element) (p : Parser) : (closed e p).next = p.next := by
  unfold closed
  split <;> rfl

theorem parseStep_acted {done : Bool} (h : parseStep p = some (.ok (done, p'))) : Acted p p' (openings p) := by
  cases parseStep_cases h with
  | skip h1 h2 hmark hkeeps =>
    rw [openings_other h1 h2 (by rcases hmark with rfl | rfl <;> rfl)]
    exact .moved (hkeeps (Moved p) (Moved.refl p))
  | endTag h1 h2 h3 hname hread =>
    rw [openings_other h1 h2 rfl]
    have hmoved := getChar_keeps 47 _ _ _ (getChar_keeps 60 _ _ _ (first_moved h1) h2) h3
    obtain ⟨p4, hmoved4, hread⟩ := readEndTag_cases hread
    rcases hread with ⟨e, elements, e', p5, helements, -, hfinal, rfl⟩ | ⟨-, hmoved'⟩
    . exact .stop (hmoved.trans hmoved4) helements hfinal
    . exact .moved (hmoved.trans hmoved')
  | tag h1 h2 hname hread =>
    have hmoved := getChar_keeps 60 _ _ _ (first_moved h1) h2
    obtain ⟨e, p3, helement, hread⟩ := readTag_element hread
    obtain ⟨⟨line, attrs, htag⟩, hmoved3⟩ := readElement_cases helement
    have hopenings : openings p = [e] := by
      unfold openings
      rw [Visits.after_eq h1, if_pos rfl, Visits.after_eq h2, if_pos hname, Visits.after_eq helement]
    have hthis : e.this = p.next := by
      rw [htag, ← hmoved.next]
      rfl
    have hchildren : e.children = [] := by
      rw [htag]
      rfl
    have hmoved3 := hmoved.next_trans hmoved3
    rw [hopenings]
    split at hread
    . obtain ⟨e', p4, hfinal, rfl⟩ := hread
      exact .empty hthis hchildren hmoved3 hfinal
    . subst hread
      exact .start hthis hchildren hmoved3
  | text h1 h2 hother hback hread =>
    rw [openings_other h1 h2 hother.2]
    have hmoved := getChar_keeps 60 _ _ _ (first_moved h1) h2
    exact .of_content (unget_keeps _ _ _ _ hmoved hback) hread
  | content _ hchar h1 hread =>
    rw [openings_of_ne h1 hchar.2]
    exact .of_content (first_moved h1) hread

/-
The trees.
-/

section

variable {userNsMap : Attrs} {source : Nat → Option Element} {scopes : List Attrs} {e e' tag : Element}
variable {elements : List Element}

theorem fixed_of_same (h : Fixed userNsMap source scopes e) (hthis : e'.this = e.this) (hname : e'.name = e.name)
    (hattrs : e'.attrs = e.attrs) (hchildren : e'.children = e.children)
    : Fixed userNsMap source scopes e' := by
  cases h with
  | text read name attrs children =>
    exact .text (hthis ▸ read) (hname.trans name) (hattrs.trans attrs) (hchildren.trans children)
  | element read name attrs children =>
    exact .element (hthis ▸ read) (hname.trans name) (hattrs ▸ attrs) (hchildren ▸ children)

theorem unfixed_children {children : List Element} (h : Unfixed userNsMap source (e :: elements))
    (hchildren : ∀ c ∈ children, Fixed userNsMap source ((e :: elements).map Element.attrs) c)
    : Unfixed userNsMap source ({ e with children := children } :: elements) := by
  cases h with
  | cons read name attrs _ rest => exact .cons read name attrs hchildren rest

theorem unfixed_add {c : Element} (h : Unfixed userNsMap source (e :: elements))
    (hc : Fixed userNsMap source ((e :: elements).map Element.attrs) c)
    : Unfixed userNsMap source (e.add c :: elements) := by
  apply unfixed_children h
  rw [List.forall_mem_append, List.forall_mem_singleton]
  cases h with
  | cons _ _ _ children _ => exact ⟨children, fixed_of_same hc rfl rfl rfl rfl⟩

theorem addContent_attrs (preserveWhitespace : Bool) (content : Bytes) (text e : Element)
    : (addContent preserveWhitespace content text e).attrs = e.attrs := by
  unfold addContent
  split
  . split <;> rfl
  . rfl

theorem unfixed_content {text : Element} {content : Bytes} (preserveWhitespace : Bool)
    (h : Unfixed userNsMap source (e :: elements))
    (htext : Fixed userNsMap source ((e :: elements).map Element.attrs) text)
    : Unfixed userNsMap source (addContent preserveWhitespace content text e :: elements) := by
  unfold addContent
  split
  case h_1 last hlast =>
    split
    case isTrue =>
      obtain ⟨children, hchildren⟩ := List.getLast?_eq_some_iff.mp hlast
      apply unfixed_children h
      cases h with
      | cons _ _ _ hfixed _ =>
        rw [hchildren, List.forall_mem_append, List.forall_mem_singleton] at hfixed
        rw [hchildren, List.dropLast_concat, List.forall_mem_append, List.forall_mem_singleton]
        exact ⟨hfixed.1, fixed_of_same hfixed.2 rfl rfl rfl rfl⟩
    case isFalse => exact unfixed_add h htext
  case h_2 => exact unfixed_add h htext

end

/-
The end of an element.
-/

theorem finalProcessing_fix {e e' : Element} {topMap : Attrs} {nsMaps : List Attrs}
    (hfix : p.flags.fixNamespaces = true) (hmaps : p.nsMaps = topMap :: nsMaps)
    (h : finalProcessing e p = some (.ok (e', p')))
    : p' = { p with nsMaps := nsMaps } ∧ e'.this = e.this
        ∧ e'.name = substituteName p.userNsMap topMap e.name true
        ∧ e'.attrs = Scopes.declare (fun attr : Bytes × Bytes => some (substituteName p.userNsMap topMap attr.1 false))
            Prod.snd [] e.attrs
        ∧ ∀ c ∈ e'.children, c ∈ e.children := by
  have hsame {e0 : Element} (heq : e0 = if p.flags.optimiseContent then e.optimise else e)
      : e0.this = e.this ∧ e0.name = e.name ∧ e0.attrs = e.attrs ∧ ∀ c ∈ e0.children, c ∈ e.children := by
    subst heq
    unfold Element.optimise
    split
    . split
      . split
        . exact ⟨rfl, rfl, rfl, fun c hc => absurd hc List.not_mem_nil⟩
        . exact ⟨rfl, rfl, rfl, fun c hc => hc⟩
      . exact ⟨rfl, rfl, rfl, fun c hc => hc⟩
    . exact ⟨rfl, rfl, rfl, fun c hc => hc⟩
  unfold finalProcessing at h
  rw [Decoder.get_bind] at h
  dsimp only at h
  generalize heq : (if p.flags.optimiseContent then e.optimise else e) = e0 at h
  obtain ⟨hthis, hname, hattrs, hchildren⟩ := hsame heq.symm
  rw [hfix, hmaps, hname, hattrs] at h
  cases h
  exact ⟨rfl, hthis, rfl, rfl, hchildren⟩

section

variable {userNsMap : Attrs} {source : Nat → Option Element}

/-
The names in what has been read so far are right, and so are the maps.
-/
structure Aligned (userNsMap : Attrs) (source : Nat → Option Element) (p : Parser) : Prop where
  fix : p.flags.fixNamespaces = true
  user : p.userNsMap = userNsMap
  nsMaps : p.nsMaps = scopeMaps (p.elements.map Element.attrs)
  unfixed : Unfixed userNsMap source p.elements
  root : ∀ e ∈ p.root, Fixed userNsMap source [] e

theorem Aligned.scoped (h : Aligned userNsMap source p) : Scoped userNsMap source p := by
  refine ⟨?_, h.unfixed, h.root⟩
  rw [h.nsMaps, Scopes.maps_length, List.length_map]

theorem Aligned.move (h : Aligned userNsMap source p) {n : Nat} (hmoved : Moved { p with next := p.next + n } p')
    : Aligned userNsMap source p' := by
  refine ⟨?_, ?_, ?_, ?_, ?_⟩
  . rw [hmoved.flags]
    exact h.fix
  . rw [hmoved.userNsMap]
    exact h.user
  . rw [hmoved.nsMaps, hmoved.elements]
    exact h.nsMaps
  . rw [hmoved.elements]
    exact h.unfixed
  . rw [hmoved.root]
    exact h.root

theorem Aligned.close {e e' tag : Element} {p2 : Parser}
    (h : Aligned userNsMap source { p with nsMaps := scopeMaps (p.elements.map Element.attrs) })
    (hread : source e.this = some tag) (hname : e.name = tag.name) (hattrs : e.attrs = tag.attrs)
    (hmaps : p.nsMaps = scopeMaps ((e :: p.elements).map Element.attrs))
    (hchildren : ∀ c ∈ e.children, Fixed userNsMap source ((e :: p.elements).map Element.attrs) c)
    (hfinal : finalProcessing e p = some (.ok (e', p2)))
    : Aligned userNsMap source (closed e' p2) := by
  have hfix : p.flags.fixNamespaces = true := h.fix
  have huser : p.userNsMap = userNsMap := h.user
  obtain ⟨topMap, htop, hmap⟩ := scopeMaps_cons e.attrs (p.elements.map Element.attrs)
  obtain ⟨rfl, hthis', hname', hattrs', hchildren'⟩ := finalProcessing_fix hfix (hmaps.trans htop) hfinal
  have hfixed : Fixed userNsMap source (p.elements.map Element.attrs) e' := by
    rw [List.map_cons, hattrs] at hchildren
    rw [hattrs] at hmap hattrs'
    refine .element (hthis' ▸ hread) ?_ ?_ ?_
    . rw [hname', hname, ← huser]
      exact substituteName_eq hmap tag.name true
    . intro aname
      rw [hattrs', Scopes.find_declare, ← huser]
      unfold Scopes.declared
      simp only [substituteName_eq hmap, Option.some_inj]
      exact Option.or_none
    . intro c hc
      exact hchildren c (hchildren' c hc)
  unfold closed
  have hunfixed : Unfixed userNsMap source p.elements := h.unfixed
  cases helements : p.elements with
  | nil =>
    rw [helements] at hfixed
    refine ⟨hfix, huser, rfl, .nil, ?_⟩
    intro e he
    cases he
    exact hfixed
  | cons top elements =>
    rw [helements] at hfixed hunfixed
    exact ⟨hfix, huser, rfl, unfixed_add hunfixed hfixed, h.root⟩

theorem openLevels_eq {e : Element} (h : Aligned userNsMap source p)
    : openLevels e p = scopeMaps ((e :: p.elements).map Element.attrs) := by
  unfold openLevels
  rw [if_pos h.fix, h.nsMaps, List.map_cons]
  show _ = Scopes.declare _ _ _ _ :: _
  unfold Scopes.declare
  congr 2
  funext nsMap attr
  dsimp only
  cases nsPrefix attr.1 <;> rfl

/--
A step keeps the names and the maps, if the source has what is read in it.
-/
theorem Aligned.step {opened : List Element} (h : Aligned userNsMap source p) (hacted : Acted p p' opened)
    (hsource : ∀ this, p.next ≤ this → this < p'.next → source this = opened.find? fun e => e.this = this)
    : Aligned userNsMap source p' := by
  cases hacted with
  | moved hmoved => exact h.move (n := 0) hmoved
  | @start e p1 hthis hchildren hmoved =>
    have h1 := h.move hmoved
    have hread : source e.this = some e := by
      rw [hsource e.this (Nat.le_of_eq hthis.symm) (by rw [hmoved.next, hthis]; exact Nat.lt_succ_self _)]
      simp
    refine ⟨h1.fix, h1.user, openLevels_eq h1, .cons hread rfl rfl ?_ h1.unfixed, h1.root⟩
    intro c hc
    rw [hchildren] at hc
    exact absurd hc List.not_mem_nil
  | @empty e e' p1 p2 hthis hchildren hmoved hfinal =>
    have h1 := h.move hmoved
    have hnext : (closed e' p2).next = p.next + 1 := by
      obtain ⟨nsMaps, rfl⟩ := finalProcessing_state hfinal
      rw [closed_next]
      exact hmoved.next
    have hread : source e.this = some e := by
      rw [hsource e.this (Nat.le_of_eq hthis.symm) (by rw [hnext, hthis]; exact Nat.lt_succ_self _)]
      simp
    have hclose : Aligned userNsMap source { p1 with nsMaps := p1.nsMaps, hasRoot := true } :=
      ⟨h1.fix, h1.user, h1.nsMaps, h1.unfixed, h1.root⟩
    rw [h1.nsMaps] at hclose
    refine Aligned.close hclose hread rfl rfl (openLevels_eq h1) ?_ hfinal
    intro c hc
    rw [hchildren] at hc
    exact absurd hc List.not_mem_nil
  | @stop e e' elements p1 p2 hmoved htop hfinal =>
    have h1 := h.move (n := 0) hmoved
    have hunfixed := h1.unfixed
    have hmaps := h1.nsMaps
    rw [htop] at hunfixed hmaps
    cases hunfixed with
    | cons hread hname hattrs hchildren hrest =>
      have hopen : Aligned userNsMap source
          { p1 with elements := elements, nsMaps := scopeMaps (elements.map Element.attrs) } :=
        ⟨h1.fix, h1.user, rfl, hrest, h1.root⟩
      exact Aligned.close (p := { p1 with elements := elements }) hopen hread hname hattrs hmaps hchildren hfinal
  | @content e elements p1 content hmoved htop =>
    have h1 := h.move (n := 0) hmoved
    have hunfixed := h1.unfixed
    have hmaps := h1.nsMaps
    rw [htop] at hunfixed hmaps
    have hread : source p1.next = none := by
      rw [hsource p1.next (Nat.le_of_eq hmoved.next.symm) (Nat.lt_succ_self _)]
      rfl
    refine ⟨h1.fix, h1.user, ?_, unfixed_content _ hunfixed (.text hread rfl rfl rfl), h1.root⟩
    rw [hmaps, List.map_cons, List.map_cons, addContent_attrs]

theorem Acted.next_le {opened : List Element} (h : Acted p p' opened) : p.next ≤ p'.next := by
  cases h with
  | moved hmoved => exact Nat.le_of_eq hmoved.next.symm
  | start _ _ hmoved =>
    refine Nat.le_trans (Nat.le_succ _) (Nat.le_of_eq ?_)
    exact hmoved.next.symm
  | empty _ _ hmoved hfinal =>
    obtain ⟨nsMaps, rfl⟩ := finalProcessing_state hfinal
    rw [closed_next]
    refine Nat.le_trans (Nat.le_succ _) (Nat.le_of_eq ?_)
    exact hmoved.next.symm
  | stop hmoved _ hfinal =>
    obtain ⟨nsMaps, rfl⟩ := finalProcessing_state hfinal
    rw [closed_next]
    exact Nat.le_of_eq hmoved.next.symm
  | content _ hmoved _ =>
    refine Nat.le_trans (Nat.le_of_eq hmoved.next.symm) (Nat.le_succ _)

-- The elements of a step are at addresses before those of the steps that follow
theorem Acted.opened_lt {opened : List Element} (h : Acted p p' opened) : ∀ e ∈ opened, e.this < p'.next := by
  cases h with
  | start hthis _ hmoved => 
    rw [List.forall_mem_singleton, hthis]
    exact Nat.lt_of_lt_of_eq (Nat.lt_succ_self _) hmoved.next.symm
  | empty hthis _ hmoved hfinal =>
    obtain ⟨nsMaps, rfl⟩ := finalProcessing_state hfinal
    rw [List.forall_mem_singleton, hthis, closed_next]
    exact Nat.lt_of_lt_of_eq (Nat.lt_succ_self _) hmoved.next.symm
  | moved _ | stop _ _ _ | content _ _ _ =>
    intro e he
    exact absurd he List.not_mem_nil

theorem openings_this : ∀ e ∈ openings p, e.this = p.next := by
  intro e he
  obtain ⟨c1, p1, h1, he⟩ := Visits.mem_after he
  split at he
  . obtain ⟨c2, p2, h2, he⟩ := Visits.mem_after he
    split at he
    . obtain ⟨⟨tag, empty⟩, p3, h3, he⟩ := Visits.mem_after he
      rw [List.mem_singleton] at he
      obtain ⟨⟨line, attrs, htag⟩, -⟩ := readElement_cases h3
      rw [he, htag, ← (getChar_keeps c1 _ _ _ (first_moved h1) h2).next]
      rfl
    . exact absurd he List.not_mem_nil
  . exact absurd he List.not_mem_nil

theorem visits_openings_this : ∀ e ∈ visits openings fuel p, p.next ≤ e.this := by
  have hstep : Keeps (fun q => p.next ≤ q.next) parseStep := by
    intro q done q' hq h
    exact Nat.le_trans hq (parseStep_acted h).next_le
  refine forall_visits (Q := fun e : Element => p.next ≤ e.this) hstep ?_ (Nat.le_refl _)
  intro q hq e he
  rw [openings_this e he]
  exact hq

theorem find_eq_none {l : List Element} {this : Nat} (h : ∀ e ∈ l, e.this ≠ this)
    : (l.find? fun e => e.this = this) = none := by
  rw [List.find?_eq_none]
  intro e he
  simpa using h e he

/--
The rest of a run keeps the names and the maps, if the source has what is read in it.
-/
theorem Aligned.run (h : Aligned userNsMap source p)
    (hsource : ∀ this, p.next ≤ this → source this = (visits openings fuel p).find? fun e => e.this = this)
    : (∀ q ∈ visits (fun q => [q]) fuel p, Scoped userNsMap source q)
        ∧ ∀ u q, parseLoop fuel p = some (.ok (u, q)) → Scoped userNsMap source q := by
  induction fuel generalizing p with
  | zero =>
    refine ⟨?_, ?_⟩
    . intro q hq
      exact absurd hq List.not_mem_nil
    . intro u q hloop
      cases hloop
  | succ fuel ih =>
    -- What is read in a step, and in those that follow
    have hnow {done : Bool} {p' : Parser} (hstep : parseStep p = some (.ok (done, p')))
        : Aligned userNsMap source p' := by
      apply h.step (parseStep_acted hstep)
      intro this hle hlt
      rw [hsource this hle, visits, List.find?_append, Visits.after_eq hstep]
      cases done with
      | true =>
        rw [if_pos rfl]
        exact Option.or_none
      | false =>
        rw [if_neg (by simp), find_eq_none (l := visits openings fuel p'), Option.or_none]
        intro e he
        have hge := visits_openings_this e he
        omega
    have hlater {p' : Parser} (hstep : parseStep p = some (.ok (false, p')))
        : ∀ this, p'.next ≤ this → source this = (visits openings fuel p').find? fun e => e.this = this := by
      intro this hle
      have hacted := parseStep_acted hstep
      rw [hsource this (Nat.le_trans hacted.next_le hle), visits, List.find?_append, Visits.after_eq hstep,
        if_neg (by simp)]
      rw [find_eq_none (l := openings p), Option.none_or]
      intro e he
      have hlt := hacted.opened_lt e he
      omega
    constructor
    . intro q hq
      rw [visits, List.mem_append, List.mem_singleton] at hq
      rcases hq with rfl | hq
      . exact h.scoped
      . obtain ⟨done, p', hstep, hq⟩ := Visits.mem_after hq
        cases done with
        | true => exact absurd hq List.not_mem_nil
        | false => exact (ih (hnow hstep) (hlater hstep)).1 q hq
    . intro u q hloop
      obtain ⟨done, p', hstep, hloop⟩ := Decoder.bind_ok hloop
      cases done with
      | true =>
        cases hloop
        exact (hnow hstep).scoped
      | false => exact (ih (hnow hstep) (hlater hstep)).2 u q hloop

end

/--
The elements and attributes of a document have the names that the innermost declarations and the map of the
user give them, and each open element has its own level of namespaces.
-/
theorem names_fixed (flags : Flags) (userNsMap : Attrs) (input : Bytes) (next : Nat)
    : NamesFixed userNsMap (fixing flags userNsMap input next) := by
  have hnew : Aligned userNsMap (sourceOf (fixing flags userNsMap input next)) (fixing flags userNsMap input next) := by
    refine ⟨rfl, rfl, rfl, .nil, ?_⟩
    intro e he
    cases he
  have hrun {u : Unit} {p : Parser} (hbom : skipBom (fixing flags userNsMap input next) = some (.ok (u, p)))
      : Aligned userNsMap (sourceOf (fixing flags userNsMap input next)) p
          ∧ ∀ this, sourceOf (fixing flags userNsMap input next) this
            = (visits openings (p.rest.length + 1) p).find? fun e => e.this = this := by
    refine ⟨hnew.move (n := 0) (skipBom_keeps _ u p (Moved.refl _) hbom), ?_⟩
    intro this
    unfold sourceOf visitsOf
    rw [Visits.after_eq hbom]
  constructor
  . intro p hp
    obtain ⟨u, p1, hbom, hp⟩ := Visits.mem_after hp
    obtain ⟨h1, hsource⟩ := hrun hbom
    exact (h1.run fun this _ => hsource this).1 p hp
  . intro u p hparse
    obtain ⟨u1, p1, hbom, hloop⟩ := Decoder.bind_ok hparse
    obtain ⟨h1, hsource⟩ := hrun hbom
    exact (h1.run fun this _ => hsource this).2 u p hloop

end Parser
end Xml
end ObTools
