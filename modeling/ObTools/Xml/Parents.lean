import ObTools.Xml.DeleteLemmas
import ObTools.Xml.LoadLemmas

/-!
This module contains runs of the operations on elements, and the proof that each element has the one as
its parent that holds it, unless elements are added from XML text.
-/

namespace ObTools
namespace Xml
namespace Heap

open Forest (Above Holds)

inductive Op where
  | create (name content : Bytes) (attrs : List (Bytes × Bytes))
  | add (e child : Nat)
  | addCopy (e child : Nat)
  | addNew (e : Nat) (name content : Bytes) (attrs : List (Bytes × Bytes))
  | addXml (e : Nat) (xml : Bytes) (flags : Flags)
  | merge (e source : Nat)
  | superimpose (e source : Nat) (identifier : Bytes)
  | optimise (e : Nat)
  | translate (e : Nat) (transMap : List (Bytes × Bytes))
  | detach (e : Nat)
  | replaceWith (this e : Nat)
  | parse (flags : Flags) (userNsMap : List (Bytes × Bytes)) (xml : Bytes)
  | deleteElements (root : Nat) (path : Bytes)
deriving Repr, DecidableEq

def step (fuel : Nat) (h : Heap) : Op → Option Heap
  | .create name content attrs => some (h.create name content attrs).2
  | .add e child => h.add e child
  | .addCopy e child => h.addCopy fuel e child
  | .addNew e name content attrs => h.addNew e name content attrs
  | .addXml e xml flags => h.addXml e xml flags
  | .merge e source => h.merge fuel e source
  | .superimpose e source identifier => superimpose identifier fuel e source h
  | .optimise e => h.optimise fuel e
  | .translate e transMap => (translate transMap fuel e h).map Prod.snd
  | .detach e => h.detach e
  | .replaceWith this e => h.replaceWith this e
  | .parse flags userNsMap xml =>
    match h.parse flags userNsMap xml with
    | some (_, h) => some h
    | none => some h
  | .deleteElements root path => (h.deleteElements fuel root path).map Prod.snd

-- Whether an element is another one or above it; the way up has no more steps than there are elements
def isAbove (h : Heap) (c : Nat) : Nat → Nat → Bool
  | 0, _ => true
  | fuel + 1, e => e = c || match (h.nodes e).bind Node.parent with
    | some parent => isAbove h c fuel parent
    | none => false

-- An element to be taken by another one has no parent, and is the root of another tree
def owned (h : Heap) (e child : Nat) : Bool :=
  (h.nodes child).all (fun m => m.parent.isNone) && !h.isAbove child (h.next + 1) e

-- The operations that set the parents right
def keepsParents (h : Heap) : Op → Bool
  | .add e child => h.owned e child
  | .replaceWith this e => (h.nodes this).all (fun n => n.parent.isNone) || h.owned this e
  | .addXml _ xml flags => (h.parse flags [] xml).isNone
  | _ => true

/-
Each element in a list has the one as its parent that holds the list, and no other has a parent. So
elements that are detached or deleted are taken out of the lists that hold them.
-/
structure Parents (h : Heap) : Prop where
  children : ∀ a n, h.nodes a = some n → ∀ c ∈ n.children, ∃ m, h.nodes c = some m ∧ m.parent = some a
  roots : ∀ c m, h.nodes c = some m → (∀ a n, h.nodes a = some n → c ∉ n.children) → m.parent = none
  detach : ∀ c m, h.nodes c = some m → ∃ h', h.detach c = some h'
    ∧ (∀ a n, h'.nodes a = some n → c ∉ n.children) ∧ ∃ m', h'.nodes c = some m' ∧ m'.parent = none
  deleteElements : ∀ root n path, h.nodes root = some n →
    ∃ els enough, h.getElements root path = some els ∧ ∀ fuel, enough ≤ fuel →
      ∃ any h', h.deleteElements fuel root path = some (any, h')
        ∧ ∀ e ∈ els, ∀ a n, h'.nodes a = some n → e ∉ n.children

variable {h h' : Heap} {a c e child : Nat} {m n : Node} {fuel : Nat}

theorem not_above_of_isAbove (hwf : WellFormed h) (habove : h.isAbove c fuel e = false)
    : ¬Above h.links c e := by
  induction fuel generalizing e with
  | zero => cases habove
  | succ fuel ih =>
    rw [isAbove, Bool.or_eq_false_iff, decide_eq_false_iff_not] at habove
    intro hce
    cases hce with
    | refl => exact habove.1 rfl
    | tail hcy hye =>
      obtain ⟨k, hk, hparent⟩ := hwf.linked.live hye
      obtain ⟨n, hn, rfl⟩ := links_eq_some hk
      have hup := habove.2
      rw [hn, Option.bind_some, show n.parent = _ from hparent] at hup
      exact ih hup hcy

theorem owned_spec (hwf : WellFormed h) (howned : h.owned e child = true)
    : (∀ m, h.nodes child = some m → m.parent = none) ∧ ¬Above h.links child e := by
  rw [owned, Bool.and_eq_true, Bool.not_eq_true'] at howned
  refine ⟨?_, not_above_of_isAbove hwf howned.2⟩
  intro m hm
  rw [hm] at howned
  exact Option.isNone_iff_eq_none.mp howned.1

theorem WellFormed.add_owned (hwf : WellFormed h) (howned : h.owned e child = true)
    (hadd : h.add e child = some h')
    : WellFormed h' := by
  obtain ⟨hroot, habove⟩ := owned_spec hwf howned
  have hne : child ≠ e := by
    rintro rfl
    exact habove .refl
  obtain ⟨n, m, -, hm, -⟩ := add_eq_some hne hadd
  exact hwf.add hm (hroot m hm) habove hadd

theorem WellFormed.replaceWith_owned {this : Nat} (hwf : WellFormed h)
    (howned : h.keepsParents (.replaceWith this e) = true) (hreplace : h.replaceWith this e = some h')
    : WellFormed h' := by
  rw [keepsParents, Bool.or_eq_true] at howned
  rcases howned with hnone | howned
  . rw [Heap.replaceWith, Option.bind_eq_bind, Option.bind_eq_some_iff] at hreplace
    obtain ⟨n, hn, hreplace⟩ := hreplace
    rw [hn, Option.all_some, Option.isNone_iff_eq_none] at hnone
    rw [hnone] at hreplace
    cases hreplace
    exact hwf
  . obtain ⟨hroot, habove⟩ := owned_spec hwf howned
    exact hwf.replaceWith hroot habove hreplace

-- Without a root that it adds, the text changes nothing
theorem addXml_of_parse_isNone {xml : Bytes} {flags : Flags} (hparse : (h.parse flags [] xml).isNone = true)
    (hadd : h.addXml e xml flags = some h')
    : h' = h := by
  rw [addXml, Option.bind_eq_bind, Option.bind_eq_some_iff] at hadd
  obtain ⟨n, -, hadd⟩ := hadd
  rw [Option.isNone_iff_eq_none.mp hparse] at hadd
  exact (Option.some.inj hadd).symm

/--
The links agree after each operation that sets the parents right.
-/
theorem step_wellFormed (hwf : WellFormed h) {op : Op} (hop : h.keepsParents op = true)
    (hstep : step fuel h op = some h')
    : WellFormed h' := by
  cases op with
  | create name content attrs =>
    cases hstep
    exact hwf.create name content attrs
  | add e child => exact hwf.add_owned hop hstep
  | addCopy e child => exact hwf.addCopy hstep
  | addNew e name content attrs => exact hwf.addNew hstep
  | addXml e xml flags =>
    rw [addXml_of_parse_isNone hop hstep]
    exact hwf
  | merge e source => exact hwf.merge hstep
  | superimpose e source identifier =>
    exact (superimpose_wellFormed identifier fuel).1 e source h h' hwf hstep
  | optimise e => exact hwf.optimise hstep
  | translate e transMap =>
    obtain ⟨⟨keep, h1⟩, htranslate, heq⟩ := Option.map_eq_some_iff.mp hstep
    cases heq
    exact (translate_wellFormed transMap fuel).1 e h keep _ hwf htranslate
  | detach e => exact (detach_detached hwf hstep).wellFormed
  | replaceWith this e => exact hwf.replaceWith_owned hop hstep
  | parse flags userNsMap xml =>
    rw [step] at hstep
    split at hstep
    case h_1 root h1 hparse =>
      cases hstep
      exact (hwf.parse hparse).wellFormed
    case h_2 =>
      cases hstep
      exact hwf
  | deleteElements root path =>
    obtain ⟨⟨any, h1⟩, hdelete, heq⟩ := Option.map_eq_some_iff.mp hstep
    cases heq
    rw [Heap.deleteElements, Option.bind_eq_bind, Option.bind_eq_some_iff] at hdelete
    obtain ⟨els, -, hdelete⟩ := hdelete
    rw [Option.bind_eq_bind, Option.bind_eq_some_iff] at hdelete
    obtain ⟨h2, hall, heq⟩ := hdelete
    cases heq
    exact hwf.deleteAll hall

theorem not_mem_of_not_holds (hholds : ∀ a, ¬Holds h.links a c) (a : Nat) (n : Node)
    (ha : h.nodes a = some n)
    : c ∉ n.children := by
  intro hc
  exact hholds a ((holds_iff ha).mpr hc)

theorem WellFormed.parents (hwf : WellFormed h) : Parents h where
  children := by
    intro a n ha c hc
    obtain ⟨k, hk, hparent⟩ := hwf.linked.live ((holds_iff ha).mpr hc)
    obtain ⟨m, hm, rfl⟩ := links_eq_some hk
    exact ⟨m, hm, hparent⟩
  roots := by
    intro c m hc hno
    cases hparent : m.parent with
    | none => rfl
    | some a =>
      have hholds : Holds h.links a c := by
        rw [hwf.linked.holds_iff, Forest.parentOf, links_eq hc, Option.map_some, Node.link, hparent]
      obtain ⟨k, hk⟩ := hholds.live
      obtain ⟨n, hn, -⟩ := links_eq_some hk
      exact absurd ((holds_iff hn).mp hholds) (hno a n hn)
  detach := by
    intro c m hc
    obtain ⟨h', hdetach, hdetached⟩ := hwf.detach hc
    obtain ⟨m', hm', hroot⟩ := hdetached.root
    refine ⟨h', hdetach, not_mem_of_not_holds ?_, m', hm', hroot⟩
    exact hdetached.wellFormed.linked.not_holds_root (links_eq hm') hroot
  deleteElements := by
    intro root n path hroot
    obtain ⟨els, enough, hels, hdelete⟩ := deleteElements_isSome hwf hroot path
    refine ⟨els, enough, hels, ?_⟩
    intro fuel hfuel
    obtain ⟨any, h', hdelete, hgone⟩ := hdelete fuel hfuel
    exact ⟨any, h', hdelete, fun e he => not_mem_of_not_holds (hgone e he)⟩

/--
Each element in a list has the one as its parent that holds the list, after any operations that set the
parents right. Elements added from XML text are the ones whose parents are not set.
-/
theorem run_parents {h0 : Heap} (hwf : WellFormed h0) {ops : List Op}
    (hops : Runs.all (step fuel) keepsParents h0 ops = true)
    (hrun : Runs.run (step fuel) h0 ops = some h)
    : Parents h := by
  have hend : WellFormed h := by
    refine Runs.run_inv_of_all ?_ hwf hops hrun
    intro h op h' hwf hop hstep
    exact step_wellFormed hwf hop hstep
  exact hend.parents

-- What there is to see of the elements: their children and parents
def family (h : Heap) (a : Nat) : Option (List Nat × Option Nat) :=
  (h.nodes a).map fun n => (n.children, n.parent)

-- A sub-element is added, and replaced with one that has been parsed
def replaceRun : List Op := [.create (Lex.chars "a") [] [], .create (Lex.chars "b") [] [], .add 0 1,
  .parse PARSER_OPTIMISE_CONTENT [] (Lex.chars "<c/>"), .replaceWith 1 2]

theorem run_parents_sample
    : ∃ h, Runs.run (step 10) Heap.empty replaceRun = some h ∧ h.family 0 = some ([2], none)
        ∧ h.family 2 = some ([], some 0) ∧ Parents h := by
  have hmap : (Runs.run (step 10) Heap.empty replaceRun).map (fun h => (h.family 0, h.family 2))
      = some (some ([2], none), some ([], some 0)) := by
    decide +kernel
  obtain ⟨h, hrun, heq⟩ := Option.map_eq_some_iff.mp hmap
  rw [Prod.mk.injEq] at heq
  exact ⟨h, hrun, heq.1, heq.2, run_parents WellFormed.empty (by decide +kernel) hrun⟩

-- A sub-element is added from XML text
def addXmlRun : List Op := [.create (Lex.chars "a") [] [],
  .addXml 0 (Lex.chars "<b/>") PARSER_OPTIMISE_CONTENT]

/--
The element has no parent, so it stays in the list when it is detached and when it is deleted.
-/
theorem addXml_not_parents
    : (∃ h, Runs.run (step 10) Heap.empty addXmlRun = some h ∧ h.family 0 = some ([1], none)
          ∧ h.family 1 = some ([], none) ∧ ¬Parents h)
        ∧ (Runs.run (step 10) Heap.empty (addXmlRun ++ [.detach 1])).map (fun h => h.family 0)
          = some (some ([1], none))
        ∧ (Runs.run (step 10) Heap.empty (addXmlRun ++ [.deleteElements 0 (Lex.chars "b")])).map
            (fun h => (h.family 0, h.family 1))
          = some (some ([1], none), none) := by
  refine ⟨?_, by decide +kernel, by decide +kernel⟩
  have hmap : (Runs.run (step 10) Heap.empty addXmlRun).map (fun h => (h.family 0, h.family 1))
      = some (some ([1], none), some ([], none)) := by
    decide +kernel
  obtain ⟨h, hrun, heq⟩ := Option.map_eq_some_iff.mp hmap
  rw [Prod.mk.injEq] at heq
  refine ⟨h, hrun, heq.1, heq.2, ?_⟩
  intro hparents
  obtain ⟨n, hn, hfamily⟩ := Option.map_eq_some_iff.mp heq.1
  obtain ⟨m, hm, hfamily'⟩ := Option.map_eq_some_iff.mp heq.2
  rw [Prod.mk.injEq] at hfamily hfamily'
  have hmem : 1 ∈ n.children := by
    rw [hfamily.1]
    exact List.mem_singleton_self 1
  obtain ⟨m', hm', hparent⟩ := hparents.children 0 n hn 1 hmem
  rw [hm] at hm'
  cases hm'
  rw [hfamily'.2] at hparent
  cases hparent

end Heap
end Xml
end ObTools
