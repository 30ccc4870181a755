import ObTools.Xml.HeapLemmas
import ObTools.Xml.Parsed

/-!
This module contains the proof that the elements that have been read from XML text can be put with the
others.
-/

namespace ObTools
namespace Xml

open Element (Attached Grown addresses)
open Forest (Holds Linked Links Ranked parentOf)

namespace Heap

variable {e x y root : Element} {h h' : Heap} {base next a c : Nat}

-- What is below an element
structure Below (x e : Element) : Prop where
  attached : Attached x
  children : ∀ c ∈ x.children, c ∈ flatten e
  holder : x = e ∨ ∃ y ∈ flatten e, x ∈ y.children
  sublist : (flatten x).Sublist (flatten e)

theorem mem_flatten_self (e : Element) : e ∈ flatten e := by
  rw [Element.flatten_eq]
  exact List.mem_cons_self

theorem flatten_sublist_of_mem {children : List Element} (hx : x ∈ children)
    : (flatten x).Sublist (children.flatMap flatten) := by
  rw [List.flatMap_def]
  exact List.sublist_flatten_of_mem (List.mem_map_of_mem hx)

theorem attached_below (h : Attached e) : ∀ x ∈ flatten e, Below x e := by
  induction h with
  | mk parent children ih =>
    rename_i e
    intro x hx
    rw [Element.flatten_eq, List.mem_cons] at hx
    have hmem (c : Element) (hc : c ∈ e.children) (y : Element) (hy : y ∈ flatten c) : y ∈ flatten e := by
      rw [Element.flatten_eq]
      exact List.mem_cons_of_mem e ((flatten_sublist_of_mem hc).subset hy)
    rcases hx with rfl | hx
    . refine ⟨⟨parent, children⟩, ?_, Or.inl rfl, List.Sublist.refl _⟩
      intro c hc
      exact hmem c hc c (mem_flatten_self c)
    . obtain ⟨c, hc, hx⟩ := List.mem_flatMap.mp hx
      have hbelow := ih c hc x hx
      refine ⟨hbelow.attached, ?_, Or.inr ?_, ?_⟩
      . intro d hd
        exact hmem c hc d (hbelow.children d hd)
      . rcases hbelow.holder with rfl | ⟨y, hy, hxy⟩
        . exact ⟨e, mem_flatten_self e, hc⟩
        . exact ⟨y, hmem c hc y hy, hxy⟩
      . rw [Element.flatten_eq e]
        exact (hbelow.sublist.trans (flatten_sublist_of_mem hc)).cons e

-- The links of the elements that are in a tree
def treeLinks (root : Element) : Links Nat :=
  fun a => ((flatten root).find? fun e => e.this = a).map fun e => (node e).link

theorem find_eq_some_iff (hnodup : (addresses root).Nodup)
    : ((flatten root).find? fun e => e.this = a) = some x ↔ x ∈ flatten root ∧ x.this = a := by
  constructor
  . intro hfind
    exact ⟨List.mem_of_find?_eq_some hfind, by simpa using List.find?_some hfind⟩
  . rintro ⟨hmem, hthis⟩
    cases hfind : (flatten root).find? fun e => e.this = a with
    | none =>
      rw [List.find?_eq_none] at hfind
      exact absurd hthis (by simpa using hfind x hmem)
    | some y =>
      have hy : y ∈ flatten root := List.mem_of_find?_eq_some hfind
      have hthis' : y.this = a := by simpa using List.find?_some hfind
      rw [List.inj_on_of_nodup_map hnodup hy hmem (hthis'.trans hthis.symm)]

theorem holds_treeLinks (hnodup : (addresses root).Nodup)
    : Holds (treeLinks root) a c ↔ ∃ x ∈ flatten root, x.this = a ∧ ∃ y ∈ x.children, y.this = c := by
  unfold Holds treeLinks
  constructor
  . rintro ⟨n, hn, hc⟩
    obtain ⟨x, hx, rfl⟩ := Option.map_eq_some_iff.mp hn
    rw [find_eq_some_iff hnodup] at hx
    exact ⟨x, hx.1, hx.2, List.mem_map.mp hc⟩
  . rintro ⟨x, hx, hthis, hc⟩
    rw [(find_eq_some_iff hnodup).mpr ⟨hx, hthis⟩]
    exact ⟨_, rfl, List.mem_map.mpr hc⟩

theorem parentOf_treeLinks (hnodup : (addresses root).Nodup)
    : parentOf (treeLinks root) c = some (some a)
        ↔ ∃ y ∈ flatten root, y.this = c ∧ y.parent = some a := by
  unfold parentOf treeLinks
  rw [Option.map_map]
  constructor
  . intro hparent
    obtain ⟨y, hy, hparent⟩ := Option.map_eq_some_iff.mp hparent
    rw [find_eq_some_iff hnodup] at hy
    exact ⟨y, hy.1, hy.2, hparent⟩
  . rintro ⟨y, hy, hthis, hparent⟩
    rw [(find_eq_some_iff hnodup).mpr ⟨hy, hthis⟩, Option.map_some]
    exact congrArg some hparent

/--
The links in a tree with the right parents agree.
-/
theorem treeLinks_linked (hattached : Attached root) (hroot : root.parent = none)
    (hnodup : (addresses root).Nodup)
    : Linked (treeLinks root) := by
  have hbelow := attached_below hattached
  have hchild (x : Element) (hx : x ∈ flatten root) (y : Element) (hy : y ∈ x.children)
      : y ∈ flatten root ∧ y.parent = some x.this :=
    ⟨(hbelow x hx).children y hy, (hbelow x hx).attached.parent y hy⟩
  refine ⟨?_, ?_, ?_⟩
  . intro a c
    rw [holds_treeLinks hnodup, parentOf_treeLinks hnodup]
    constructor
    . rintro ⟨x, hx, rfl, y, hy, rfl⟩
      obtain ⟨hmem, hparent⟩ := hchild x hx y hy
      exact ⟨y, hmem, rfl, hparent⟩
    . rintro ⟨y, hy, rfl, hparent⟩
      rcases (hbelow y hy).holder with rfl | ⟨x, hx, hyx⟩
      . rw [hroot] at hparent
        cases hparent
      . have hparent' := (hchild x hx y hyx).2
        rw [hparent] at hparent'
        exact ⟨x, hx, (Option.some.inj hparent').symm, y, hyx, rfl⟩
  . intro a n hn
    obtain ⟨x, hx, rfl⟩ := Option.map_eq_some_iff.mp hn
    rw [find_eq_some_iff hnodup] at hx
    have hself : x.children.Sublist (x.children.flatMap flatten) := by
      have := List.Sublist.flatMap_right x.children (f := fun c => [c]) (g := flatten)
        fun c _ => List.singleton_sublist.mpr (mem_flatten_self c)
      rwa [List.flatMap_singleton'] at this
    have hsub : x.children.Sublist (flatten root) := by
      refine (hself.cons x).trans ?_
      rw [← Element.flatten_eq]
      exact (hbelow x hx.1).sublist
    exact (hsub.map Element.this).nodup hnodup
  . refine ⟨fun a => (((flatten root).find? fun e => e.this = a).map fun e => (flatten e).length).getD 0, ?_⟩
    intro a c hholds
    rw [holds_treeLinks hnodup] at hholds
    obtain ⟨x, hx, hxa, y, hy, hyc⟩ := hholds
    obtain ⟨hmem, -⟩ := hchild x hx y hy
    dsimp only
    rw [(find_eq_some_iff hnodup).mpr ⟨hx, hxa⟩, (find_eq_some_iff hnodup).mpr ⟨hmem, hyc⟩]
    have hle := (flatten_sublist_of_mem hy).length_le
    rw [Option.map_some, Option.map_some, Option.getD_some, Option.getD_some, Element.flatten_eq x,
      List.length_cons]
    omega

/--
Elements at new addresses are put with the others.
-/
theorem WellFormed.load (hwf : WellFormed h) (hle : h.next ≤ next) (hgrown : Grown h.next next [root])
    : Copied h (h.load root next) root.this := by
  have hnodup := hgrown.nodup
  have hrange := hgrown.range
  have hroot := hgrown.root root (List.mem_singleton_self root)
  have hattached := hgrown.attached root (List.mem_singleton_self root)
  rw [List.flatMap_singleton] at hnodup hrange
  have hnone (a : Nat) (ha : a < h.next ∨ next ≤ a) : ((flatten root).find? fun e => e.this = a) = none := by
    rw [List.find?_eq_none]
    intro x hx
    have := hrange x.this (List.mem_map_of_mem hx)
    simp only [decide_eq_true_eq]
    omega
  have hself : ((flatten root).find? fun e => e.this = root.this) = some root :=
    (find_eq_some_iff hnodup).mpr ⟨mem_flatten_self root, rfl⟩
  have hnew := hrange root.this (List.mem_map_of_mem (mem_flatten_self root))
  refine ⟨⟨?_, ?_⟩, ⟨?_, hle⟩, hnew.1, hnew.2, ?_⟩
  . refine hwf.linked.union (treeLinks_linked hattached hroot hnodup) ?_ ?_
    . intro a
      by_cases ha : a < h.next
      . refine Or.inr ?_
        rw [treeLinks, hnone a (Or.inl ha), Option.map_none]
      . refine Or.inl ?_
        rw [links, hwf.fresh a (Nat.le_of_not_lt ha), Option.map_none]
    . intro a
      unfold links Heap.load treeLinks
      dsimp only
      cases h.nodes a with
      | none =>
        rw [Option.none_or, Option.map_none, Option.none_or, Option.map_map]
        rfl
      | some n => rfl
  . intro a ha
    unfold Heap.load at ha ⊢
    dsimp only at ha ⊢
    rw [hwf.fresh a (Nat.le_trans hle ha), hnone a (Or.inr ha)]
    rfl
  . intro a ha
    unfold Heap.load
    dsimp only
    rw [hnone a (Or.inl ha), Option.map_none, Option.or_none]
  . refine ⟨node root, ?_, hroot⟩
    unfold Heap.load
    dsimp only
    rw [hwf.fresh _ hnew.1, hself]
    rfl

theorem WellFormed.parse (hwf : WellFormed h) {flags : Flags} {userNsMap : List (Bytes × Bytes)}
    {xml : Bytes} {r : Nat} (hparse : h.parse flags userNsMap xml = some (r, h'))
    : Copied h h' r := by
  unfold Heap.parse at hparse
  split at hparse
  case h_1 u p hstream =>
    obtain ⟨root, hroot, heq⟩ := Option.map_eq_some_iff.mp hparse
    cases heq
    obtain ⟨hle, hgrown⟩ := Parser.parseStream_grown hstream hroot
    exact hwf.load hle hgrown
  case h_2 => cases hparse

end Heap
end Xml
end ObTools
