import Mathlib.Data.List.Flatten
import Mathlib.Data.List.Nodup
import ObTools.Xml.ParserFrame
import ObTools.Xml.Steps

/-!
This module contains the proof that the elements that a parser has read have the right parents.
-/

namespace ObTools
namespace Xml

namespace Element

-- All elements below have the one as their parent that holds them
inductive Attached : Element → Prop
  | mk {e : Element} (parent : ∀ c ∈ e.children, c.parent = some e.this)
      (children : ∀ c ∈ e.children, Attached c)
    : Attached e

def addresses (e : Element) : List Nat := (Heap.flatten e).map this

variable {e e' c top : Element} {elements : List Element} {base next : Nat}

theorem flattenAll_eq (elements : List Element)
    : Heap.flattenAll elements = elements.flatMap Heap.flatten := by
  induction elements with
  | nil => rfl
  | cons e elements ih => rw [Heap.flattenAll, ih, List.flatMap_cons]

theorem flatten_eq (e : Element) : Heap.flatten e = e :: e.children.flatMap Heap.flatten := by
  cases e
  rw [Heap.flatten, flattenAll_eq]

theorem addresses_eq (e : Element) : addresses e = e.this :: e.children.flatMap addresses := by
  unfold addresses
  rw [flatten_eq, List.map_cons, List.map_flatMap]

theorem Attached.parent (h : Attached e) : ∀ c ∈ e.children, c.parent = some e.this := by
  cases h with
  | mk parent => exact parent

theorem Attached.children (h : Attached e) : ∀ c ∈ e.children, Attached c := by
  cases h with
  | mk _ children => exact children

theorem addresses_add (top c : Element) : addresses (top.add c) = addresses top ++ addresses c := by
  have hc : addresses { c with parent := some top.this } = addresses c := by
    rw [addresses_eq, addresses_eq c]
  rw [addresses_eq, addresses_eq top, add, List.flatMap_append, List.flatMap_singleton, hc]
  rfl

theorem Attached.add (htop : Attached top) (hc : Attached c) : Attached (top.add c) := by
  refine ⟨?_, ?_⟩
  . intro d hd
    rw [Element.add, List.mem_append, List.mem_singleton] at hd
    rcases hd with hd | rfl
    . exact htop.parent d hd
    . rfl
  . intro d hd
    rw [Element.add, List.mem_append, List.mem_singleton] at hd
    rcases hd with hd | rfl
    . exact htop.children d hd
    . exact ⟨hc.parent, hc.children⟩

/-
Trees of elements at different addresses, whose roots have no parents.
-/
structure Grown (base next : Nat) (elements : List Element) : Prop where
  root : ∀ e ∈ elements, e.parent = none
  attached : ∀ e ∈ elements, Attached e
  nodup : (elements.flatMap addresses).Nodup
  range : ∀ a ∈ elements.flatMap addresses, base ≤ a ∧ a < next

namespace Grown

theorem nil (base next : Nat) : Grown base next [] := by
  refine ⟨?_, ?_, List.nodup_nil, ?_⟩
  . intro e he
    exact absurd he List.not_mem_nil
  . intro e he
    exact absurd he List.not_mem_nil
  . intro a ha
    exact absurd ha List.not_mem_nil

theorem sublist {elements' : List Element} (h : Grown base next elements)
    (hsub : elements'.Sublist elements)
    : Grown base next elements' := by
  have hsub' : (elements'.flatMap addresses).Sublist (elements.flatMap addresses) := hsub.flatMap addresses
  exact ⟨fun e he => h.root e (hsub.subset he), fun e he => h.attached e (hsub.subset he),
    hsub'.nodup h.nodup, fun a ha => h.range a (hsub'.subset ha)⟩

theorem tail (h : Grown base next (e :: elements)) : Grown base next elements :=
  h.sublist (List.sublist_cons_self e elements)

theorem new (h : Grown base next elements) (hle : base ≤ next) (name content : Bytes)
    : Grown base (next + 1) (Element.new next name content :: elements) := by
  have haddresses : addresses (Element.new next name content) = [next] := by
    rw [addresses_eq]
    rfl
  refine ⟨?_, ?_, ?_, ?_⟩
  . rw [List.forall_mem_cons]
    exact ⟨rfl, h.root⟩
  . rw [List.forall_mem_cons]
    refine ⟨⟨?_, ?_⟩, h.attached⟩
    all_goals
      intro c hc
      exact absurd hc List.not_mem_nil
  . rw [List.flatMap_cons, haddresses, List.singleton_append, List.nodup_cons]
    refine ⟨?_, h.nodup⟩
    intro hmem
    have := (h.range next hmem).2
    omega
  . intro a ha
    rw [List.flatMap_cons, haddresses, List.singleton_append, List.mem_cons] at ha
    rcases ha with rfl | ha
    . omega
    . have := h.range a ha
      omega

-- Only some of the addresses are left
theorem change (h : Grown base next (e :: elements)) (hroot : e'.parent = none) (hattached : Attached e')
    (hsub : (addresses e').Sublist (addresses e))
    : Grown base next (e' :: elements) := by
  have hsub : ((e' :: elements).flatMap addresses).Sublist ((e :: elements).flatMap addresses) := by
    rw [List.flatMap_cons, List.flatMap_cons]
    exact hsub.append_right _
  refine ⟨?_, ?_, hsub.nodup h.nodup, fun a ha => h.range a (hsub.subset ha)⟩
  . rw [List.forall_mem_cons]
    exact ⟨hroot, h.tail.root⟩
  . rw [List.forall_mem_cons]
    exact ⟨hattached, h.tail.attached⟩

-- An element that has ended becomes a child
theorem add (h : Grown base next (c :: top :: elements)) : Grown base next (top.add c :: elements) := by
  have hperm : ((top.add c :: elements).flatMap addresses).Perm
      ((c :: top :: elements).flatMap addresses) := by
    rw [List.flatMap_cons, List.flatMap_cons, List.flatMap_cons, addresses_add, ← List.append_assoc]
    exact List.perm_append_comm.append_right _
  have hattached := h.attached
  rw [List.forall_mem_cons, List.forall_mem_cons] at hattached
  refine ⟨?_, ?_, hperm.nodup_iff.mpr h.nodup, fun a ha => h.range a (hperm.mem_iff.mp ha)⟩
  . rw [List.forall_mem_cons]
    exact ⟨h.tail.root top List.mem_cons_self, h.tail.tail.root⟩
  . rw [List.forall_mem_cons]
    exact ⟨hattached.2.1.add hattached.1, hattached.2.2⟩

end Grown

end Element

namespace Parser

open Decoder (Keeps)
open Element (Attached Grown addresses)

variable {base : Nat} {α : Type}

-- The elements that have been read so far
def trees (p : Parser) : List Element := p.elements ++ p.root.toList

def Building (base : Nat) (p : Parser) : Prop := base ≤ p.next ∧ Grown base p.next p.trees

theorem building_of_same {x : Parse α} (h : ∀ els root next, Keeps (Same els root next) x)
    : Keeps (Building base) x := by
  intro p a p' hp heq
  obtain ⟨helements, hroot, hnext⟩ := h p.elements p.root p.next p a p' ⟨rfl, rfl, rfl⟩ heq
  unfold Building trees
  rw [helements, hroot, hnext]
  exact hp

theorem closed_building {e : Element} {p : Parser} (hle : base ≤ p.next)
    (hgrown : Grown base p.next (e :: p.trees))
    : Building base (closed e p) := by
  unfold trees at hgrown
  unfold Building closed
  cases helements : p.elements with
  | nil =>
    rw [helements] at hgrown
    refine ⟨hle, ?_⟩
    unfold trees
    dsimp only
    refine hgrown.sublist ?_
    simp
  | cons top elements =>
    rw [helements] at hgrown
    exact ⟨hle, hgrown.add⟩

/-
An element before it is closed is at the same address, with the same children or without children.
-/
structure Processed (e e' : Element) : Prop where
  this : e'.this = e.this
  parent : e'.parent = e.parent
  children : e'.children = e.children ∨ e'.children = []

theorem optimise_processed (e : Element) : Processed e e.optimise := by
  unfold Element.optimise
  split
  . split
    . exact ⟨rfl, rfl, Or.inr rfl⟩
    . exact ⟨rfl, rfl, Or.inl rfl⟩
  . exact ⟨rfl, rfl, Or.inl rfl⟩

theorem finalProcessing_processed {e e' : Element} {p p' : Parser}
    (h : finalProcessing e p = some (.ok (e', p')))
    : Processed e e' ∧ p'.trees = p.trees ∧ p'.next = p.next := by
  have hoptimise : Processed e (if p.flags.optimiseContent then e.optimise else e) := by
    split
    . exact optimise_processed e
    . exact ⟨rfl, rfl, Or.inl rfl⟩
  unfold finalProcessing at h
  rw [Decoder.get_bind] at h
  dsimp only at h
  cases hfix : p.flags.fixNamespaces with
  | false =>
    rw [hfix] at h
    cases h
    exact ⟨hoptimise, rfl, rfl⟩
  | true =>
    rw [hfix] at h
    cases hmaps : p.nsMaps with
    | nil =>
      rw [hmaps] at h
      cases h
      exact ⟨hoptimise, rfl, rfl⟩
    | cons topMap nsMaps =>
      rw [hmaps] at h
      cases h
      exact ⟨⟨hoptimise.this, hoptimise.parent, hoptimise.children⟩, rfl, rfl⟩

theorem Processed.grown {e e' : Element} {next : Nat} {elements : List Element}
    (hprocessed : Processed e e') (h : Grown base next (e :: elements))
    : Grown base next (e' :: elements) := by
  have hattached := h.attached e List.mem_cons_self
  refine h.change ?_ ?_ ?_
  . rw [hprocessed.parent]
    exact h.root e List.mem_cons_self
  . rcases hprocessed.children with hchildren | hchildren
    . refine ⟨?_, ?_⟩
      . rw [hchildren, hprocessed.this]
        exact hattached.parent
      . rw [hchildren]
        exact hattached.children
    . refine ⟨?_, ?_⟩
      all_goals
        intro c hc
        rw [hchildren] at hc
        exact absurd hc List.not_mem_nil
  . rw [Element.addresses_eq, Element.addresses_eq e, hprocessed.this]
    refine List.Sublist.cons_cons _ ?_
    rcases hprocessed.children with hchildren | hchildren
    . rw [hchildren]
    . rw [hchildren]
      exact List.nil_sublist _

-- The end of an element that has been taken off the stack
theorem close_building {e e' : Element} {p p1 p' : Parser} {u : Unit} (hle : base ≤ p.next)
    (hgrown : Grown base p.next (e :: p.trees)) (hfinal : finalProcessing e p = some (.ok (e', p1)))
    (hclose : closeElement e' p1 = some (.ok (u, p')))
    : Building base p' := by
  obtain ⟨hprocessed, htrees, hnext⟩ := finalProcessing_processed hfinal
  rw [closeElement_eq] at hclose
  cases hclose
  refine closed_building (by rw [hnext]; exact hle) ?_
  rw [htrees, hnext]
  exact hprocessed.grown hgrown

-- The name that is read from its first character on
def nameAt (c : UInt8) (p : Parser) : Bytes := c :: if p.failed then [] else p.rest.takeWhile isNameChar

theorem readRestOfName_name {c : UInt8} {p p' : Parser} {name : Bytes} {d : UInt8}
    (h : readRestOfName c p = some (.ok ((name, d), p')))
    : name = nameAt c p := by
  unfold readRestOfName at h
  rw [Decoder.get_bind, Decoder.set_bind] at h
  obtain ⟨e, p1, -, h⟩ := Decoder.bind_ok h
  cases h
  rfl

-- The element that a tag begins
def tagElement (c : UInt8) (p : Parser) (line : Nat) (attrs : List (Bytes × Bytes)) : Element :=
  { Element.new p.next [] [] with name := nameAt c p, line := line, attrs := attrs }

-- The first part of a tag: the element that it begins, and whether it is an empty one
def readElement (c : UInt8) : Parse (Element × Bool) := do
  let e ← newElement [] []
  let (name, c) ← readRestOfName c
  let p ← get
  let line := p.line
  let (attrs, empty) ← withFuel (readAttrsLoop [] c)
  return ({ e with name := name, line := line, attrs := attrs }, empty)

theorem readElement_cases {c : UInt8} {p p1 : Parser} {e : Element} {empty : Bool}
    (h : readElement c p = some (.ok ((e, empty), p1)))
    : (∃ line attrs, e = tagElement c p line attrs) ∧ Moved { p with next := p.next + 1 } p1 := by
  unfold readElement at h
  obtain ⟨e1, p1, hnew, h⟩ := Decoder.bind_ok h
  cases hnew
  obtain ⟨⟨name, c1⟩, p2, hname, h⟩ := Decoder.bind_ok h
  have hmoved2 := readRestOfName_keeps c _ _ p2 (Moved.refl _) hname
  cases readRestOfName_name hname
  dsimp only at h
  rw [Decoder.get_bind] at h
  obtain ⟨⟨attrs, empty'⟩, p3, hattrs, h⟩ := Decoder.bind_ok h
  cases h
  exact ⟨⟨p2.line, attrs, rfl⟩, withFuel_keeps (readAttrsLoop_keeps [] c1) _ _ _ hmoved2 hattrs⟩

theorem readTag_element {c : UInt8} {p p' : Parser} {empty : Bool} (h : readTag c p = some (.ok (empty, p')))
    : ∃ e p1, readElement c p = some (.ok ((e, empty), p1))
        ∧ if empty then
            ∃ e' p2, finalProcessing e { p1 with nsMaps := openLevels e p1, hasRoot := true }
              = some (.ok (e', p2)) ∧ p' = closed e' p2
          else
            p' = { p1 with nsMaps := openLevels e p1, hasRoot := true, elements := e :: p1.elements } := by
  unfold readTag at h
  obtain ⟨e, p1, hnew, h⟩ := Decoder.bind_ok h
  obtain ⟨⟨name, c1⟩, p2, hname, h⟩ := Decoder.bind_ok h
  dsimp only at h
  rw [Decoder.get_bind] at h
  obtain ⟨⟨attrs, empty'⟩, p3, hattrs, h⟩ := Decoder.bind_ok h
  dsimp only at h
  rw [Decoder.bind_eq _ (initialProcessing_state _ p3), Decoder.modify_bind] at h
  have hread : readElement c p
      = some (.ok (({ e with name := name, line := p2.line, attrs := attrs }, empty'), p3)) := by
    unfold readElement
    rw [Decoder.bind_eq _ hnew, Decoder.bind_eq _ hname]
    dsimp only
    rw [Decoder.get_bind, Decoder.bind_eq _ hattrs]
    rfl
  cases empty' with
  | true =>
    obtain ⟨e', p5, hfinal, h⟩ := Decoder.bind_ok h
    obtain ⟨u, p6, hclose, h⟩ := Decoder.bind_ok h
    rw [closeElement_eq] at hclose
    cases hclose
    cases h
    exact ⟨_, p3, hread, e', p5, hfinal, rfl⟩
  | false =>
    rw [if_neg (by simp), Decoder.modify_bind] at h
    cases h
    exact ⟨_, p3, hread, rfl⟩

/-
What a start tag or an empty tag does.
-/
theorem readTag_cases {c : UInt8} {p p' : Parser} {empty : Bool} (h : readTag c p = some (.ok (empty, p')))
    : ∃ e p1, (∃ line attrs, e = tagElement c p line attrs) ∧ Moved { p with next := p.next + 1 } p1
        ∧ if empty then
            ∃ e' p2, finalProcessing e { p1 with nsMaps := openLevels e p1, hasRoot := true }
              = some (.ok (e', p2)) ∧ p' = closed e' p2
          else
            p' = { p1 with nsMaps := openLevels e p1, hasRoot := true, elements := e :: p1.elements } := by
  obtain ⟨e, p1, hread, h⟩ := readTag_element h
  obtain ⟨htag, hmoved⟩ := readElement_cases hread
  exact ⟨e, p1, htag, hmoved, h⟩

/-
What an end tag does.
-/
theorem readEndTag_cases {c : UInt8} {p p' : Parser} {u : Unit} (h : readEndTag c p = some (.ok (u, p')))
    : ∃ p1, Moved p p1 ∧
        ((∃ e elements e' p2, p1.elements = e :: elements ∧ nameAt c p = e.name
            ∧ finalProcessing e { p1 with elements := elements } = some (.ok (e', p2)) ∧ p' = closed e' p2)
          ∨ p1.elements = [] ∧ Moved p p') := by
  unfold readEndTag at h
  obtain ⟨⟨name, c1⟩, p1, hname, h⟩ := Decoder.bind_ok h
  have hmoved1 := readRestOfName_keeps c _ _ p1 (Moved.refl p) hname
  cases readRestOfName_name hname
  dsimp only at h
  have hspace : Keeps (Moved p) (if isAsciiSpace c1 then skipWs c1 else pure c1) := by
    split
    . exact skipWs_keeps c1
    . exact Keeps.pure c1
  obtain ⟨c2, p2, hskip, h⟩ := Decoder.bind_ok ((branch_bind ..).trans h)
  have hmoved2 := hspace p1 c2 p2 hmoved1 hskip
  split at h
  case isTrue => cases h
  case isFalse =>
    rw [Decoder.get_bind] at h
    refine ⟨p2, hmoved2, ?_⟩
    cases helements : p2.elements with
    | nil =>
      rw [helements] at h
      exact Or.inr ⟨rfl, error_keeps _ p2 u p' hmoved2 h⟩
    | cons e elements =>
      rw [helements] at h
      dsimp only at h
      split at h
      case isTrue heq =>
        rw [Decoder.set_bind] at h
        obtain ⟨e', p3, hfinal, hclose⟩ := Decoder.bind_ok h
        rw [closeElement_eq] at hclose
        cases hclose
        exact Or.inl ⟨e, elements, e', p3, rfl, heq, hfinal, rfl⟩
      case isFalse => exact absurd h (fatal_ne_ok _ _)

theorem readTag_building (c : UInt8) : Keeps (Building base) (readTag c) := by
  intro p empty p' hp h
  obtain ⟨e, p1, ⟨line, attrs, rfl⟩, hmoved, h⟩ := readTag_cases h
  have hprocessed : Processed (Element.new p.next [] []) (tagElement c p line attrs) :=
    ⟨rfl, rfl, Or.inl rfl⟩
  have hgrown := hprocessed.grown (hp.2.new hp.1 [] [])
  have hle : base ≤ p1.next := by
    rw [hmoved.next]
    exact Nat.le_succ_of_le hp.1
  have htrees : p1.trees = p.trees := by
    unfold trees
    rw [hmoved.elements, hmoved.root]
  have hnext : p1.next = p.next + 1 := hmoved.next
  rw [← htrees, ← hnext] at hgrown
  cases empty with
  | true =>
    obtain ⟨e, p2, hfinal, rfl⟩ := h
    exact close_building (p := { p1 with nsMaps := openLevels _ p1, hasRoot := true }) hle hgrown hfinal
      (closeElement_eq e)
  | false =>
    cases h
    exact ⟨hle, hgrown⟩

theorem readEndTag_building (c : UInt8) : Keeps (Building base) (readEndTag c) := by
  intro p u p' hp h
  obtain ⟨p1, hmoved, h⟩ := readEndTag_cases h
  have hgrown := hp.2
  unfold trees at hgrown
  rcases h with ⟨e, elements, e', p2, helements, -, hfinal, rfl⟩ | ⟨-, hmoved⟩
  . rw [← hmoved.elements, ← hmoved.root, ← hmoved.next, helements] at hgrown
    refine close_building (p := { p1 with elements := elements }) ?_ hgrown hfinal (closeElement_eq e')
    rw [hmoved.next]
    exact hp.1
  . unfold Building trees
    rw [hmoved.elements, hmoved.root, hmoved.next]
    exact hp

-- More content for the last child
theorem addContent_grown {e text : Element} {content : Bytes} {next : Nat} {elements : List Element}
    (preserveWhitespace : Bool) (h : Grown base next (text :: e :: elements))
    : Grown base next (addContent preserveWhitespace content text e :: elements) := by
  unfold addContent
  split
  case h_1 last hlast =>
    split
    case isTrue =>
      obtain ⟨children, hchildren⟩ := List.getLast?_eq_some_iff.mp hlast
      have hattached := h.attached e (List.mem_cons_of_mem text List.mem_cons_self)
      have hparent := hattached.parent
      have hbelow := hattached.children
      rw [hchildren, List.forall_mem_append, List.forall_mem_singleton] at hparent hbelow
      refine h.tail.change (h.tail.root e List.mem_cons_self) ⟨?_, ?_⟩ ?_
      . rw [hchildren, List.dropLast_concat, List.forall_mem_append, List.forall_mem_singleton]
        exact hparent
      . rw [hchildren, List.dropLast_concat, List.forall_mem_append, List.forall_mem_singleton]
        exact ⟨hbelow.1, hbelow.2.parent, hbelow.2.children⟩
      . rw [Element.addresses_eq, Element.addresses_eq e, hchildren, List.dropLast_concat,
          List.flatMap_append, List.flatMap_append, List.flatMap_singleton, List.flatMap_singleton,
          Element.addresses_eq last]
        rw [Element.addresses_eq { last with content := _ }]
    case isFalse => exact h.add
  case h_2 => exact h.add

/-
What content does.
-/
theorem readContent_cases {c : UInt8} {p p' : Parser} {u : Unit} (h : readContent c p = some (.ok (u, p')))
    : ∃ p1, Moved p p1 ∧
        ((∃ e elements content, p1.elements = e :: elements
            ∧ p' = { p1 with
              next := p1.next + 1
              elements := addContent p1.flags.preserveWhitespace content (Element.new p1.next [] content) e
                :: elements })
          ∨ p1.elements = [] ∧ p' = p1) := by
  unfold readContent at h
  obtain ⟨content, p1, hread, h⟩ := Decoder.bind_ok h
  rw [Decoder.get_bind] at h
  refine ⟨p1, withFuel_keeps (readContentLoop_keeps [] true c) _ _ _ (Moved.refl p) hread, ?_⟩
  cases helements : p1.elements with
  | cons e elements =>
    rw [helements] at h
    obtain ⟨text, p2, hnew, h⟩ := Decoder.bind_ok h
    cases hnew
    cases h
    exact Or.inl ⟨e, elements, content, rfl, rfl⟩
  | nil =>
    rw [helements] at h
    cases h
    exact Or.inr ⟨rfl, rfl⟩

theorem readContent_building (c : UInt8) : Keeps (Building base) (readContent c) := by
  intro p u p' hp h
  obtain ⟨p1, hmoved, h⟩ := readContent_cases h
  have hp1 : Building base p1 := by
    unfold Building trees
    rw [hmoved.elements, hmoved.root, hmoved.next]
    exact hp
  rcases h with ⟨e, elements, content, helements, rfl⟩ | ⟨-, rfl⟩
  . have hgrown := hp1.2.new hp1.1 [] content
    unfold trees at hgrown
    rw [helements] at hgrown
    exact ⟨Nat.le_succ_of_le hp1.1, addContent_grown _ hgrown⟩
  . exact hp1

theorem parseStep_building : Keeps (Building base) parseStep := by
  have hgetChar (c : UInt8) : Keeps (Building base) (getChar c) :=
    building_of_same fun _ _ _ => getChar_keeps c
  apply Keeps.get_bind
  intro p hp
  refine branch_keeps (hgetChar 0) (building_of_same fun _ _ _ => skipWs_keeps 0) ?_
  intro c
  dsimp only
  split
  . exact fatal_keeps _
  . split
    . apply (hgetChar c).bind
      intro c
      split
      . exact building_of_same fun _ _ _ => declaration_keeps c
      . split
        . exact (building_of_same fun _ _ _ => skipPi_keeps).bind fun _ => Keeps.pure _
        . have hend : Keeps (Building base) (do
              let p ← get
              return p.elements.isEmpty : Parse Bool) := by
            apply Keeps.get_bind
            intro p _
            exact Keeps.pure _
          split
          . apply (hgetChar c).bind
            intro c
            refine branch_keeps (readEndTag_building c) (fatal_keeps _) ?_
            intro _
            exact hend
          . split
            . apply (readTag_building c).bind
              intro empty
              apply Keeps.get_bind
              intro p _
              exact Keeps.pure _
            . split
              . apply (building_of_same fun _ _ _ => unget_keeps c).bind
                intro _
                exact (readContent_building 60).bind fun _ => Keeps.pure _
              . exact fatal_keeps _
    . split
      . exact (readContent_building c).bind fun _ => Keeps.pure _
      . exact fatal_keeps _

theorem parseLoop_building (fuel : Nat) : Keeps (Building base) (parseLoop fuel) := by
  induction fuel with
  | zero => exact Keeps.outOfFuel
  | succ fuel ih =>
    apply parseStep_building.bind
    intro done
    split
    . exact Keeps.pure _
    . exact ih

/--
A root that has been read has no parent, and all elements below it have the right ones. They are at
new addresses.
-/
theorem parseStream_grown {flags : Flags} {userNsMap : List (Bytes × Bytes)} {xml : Bytes} {next : Nat}
    {p : Parser} {u : Unit} {root : Element}
    (h : parseStream (new flags userNsMap xml next) = some (.ok (u, p))) (hroot : p.root = some root)
    : next ≤ p.next ∧ Grown next p.next [root] := by
  have hkeeps : Keeps (Building next) parseStream :=
    (building_of_same fun _ _ _ => skipBom_keeps).bind fun _ => withFuel_keeps parseLoop_building
  have hstart : Building next (new flags userNsMap xml next) := ⟨Nat.le_refl _, Grown.nil next next⟩
  obtain ⟨hle, hgrown⟩ := hkeeps _ u p hstart h
  refine ⟨hle, hgrown.sublist ?_⟩
  unfold trees
  rw [hroot]
  exact List.sublist_append_right _ _

end Parser

end Xml
end ObTools
