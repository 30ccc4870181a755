import Mathlib.Data.List.Perm.Subperm
import ObTools.Xml.Counterparts
import ObTools.Xml.LoadLemmas

/-!
This module contains trees of elements that are in a heap, and what operations make of them. Such a
tree is a value with all that the elements at its addresses hold.
-/

namespace ObTools
namespace Xml
namespace Heap

open Element (Alike addresses addresses_eq flatten_eq)

-- There is nothing yet at the addresses of elements to come
def Fresh (h : Heap) : Prop := ∀ a, h.next ≤ a → h.nodes a = none

/-
Separate trees. Each element is at its own address, and its attributes are a map.
-/
structure Stored (h : Heap) (trees : List Element) : Prop where
  nodes : ∀ d ∈ trees.flatMap flatten, h.nodes d.this = some (node d)
  sorted : ∀ d ∈ trees.flatMap flatten, SortedMap.Sorted d.attrs
  nodup : (trees.flatMap addresses).Nodup

/-
A tree has become another one. Nothing else that was there has changed.
-/
structure Becomes (h h' : Heap) (e e' : Element) : Prop where
  stored : Stored h' [e']
  this : e'.this = e.this
  frame : ∀ a, a < h.next → a ∉ addresses e → h'.nodes a = h.nodes a
  within : ∀ a ∈ addresses e', a ∈ addresses e ∨ h.next ≤ a
  next : h.next ≤ h'.next
  fresh : Fresh h'

/-
A tree of new elements. What was there has not changed.
-/
structure Made (h h' : Heap) (e : Element) : Prop where
  stored : Stored h' [e]
  extended : Extends h h'
  new : ∀ a ∈ addresses e, h.next ≤ a
  fresh : Fresh h'

variable {h h1 h' : Heap} {e e' d c q q' source : Element} {trees trees' before after : List Element} {a : Nat}

theorem mem_addresses (hd : d ∈ flatten e) : d.this ∈ addresses e := List.mem_map_of_mem hd

theorem this_mem_addresses (e : Element) : e.this ∈ addresses e := mem_addresses (mem_flatten_self e)

theorem Fresh.load {root : Element} {next : Nat} (hfresh : Fresh h) (hle : h.next ≤ next)
    (hlt : ∀ a ∈ addresses root, a < next)
    : Fresh (h.load root next) := by
  intro a ha
  change next ≤ a at ha
  have hnone : ((flatten root).find? fun e => e.this = a) = none := by
    rw [List.find?_eq_none]
    intro d hd
    have := hlt _ (mem_addresses hd)
    simp only [decide_eq_true_eq]
    omega
  unfold Heap.load
  dsimp only
  rw [hfresh a (by omega), hnone]
  rfl

namespace Stored

theorem perm (hstored : Stored h trees) (hperm : trees.Perm trees') : Stored h trees' where
  nodes := fun d hd => hstored.nodes d ((hperm.flatMap_right flatten).mem_iff.mpr hd)
  sorted := fun d hd => hstored.sorted d ((hperm.flatMap_right flatten).mem_iff.mpr hd)
  nodup := (hperm.flatMap_right addresses).nodup_iff.mp hstored.nodup

theorem sublist (hstored : Stored h trees) (hsub : trees'.Sublist trees) : Stored h trees' where
  nodes := fun d hd => hstored.nodes d ((hsub.flatMap flatten).subset hd)
  sorted := fun d hd => hstored.sorted d ((hsub.flatMap flatten).subset hd)
  nodup := (hsub.flatMap addresses).nodup hstored.nodup

theorem append_iff
    : Stored h (trees ++ trees') ↔ Stored h trees ∧ Stored h trees'
        ∧ (trees.flatMap addresses).Disjoint (trees'.flatMap addresses) := by
  constructor
  . intro hstored
    refine ⟨hstored.sublist (List.sublist_append_left ..), hstored.sublist (List.sublist_append_right ..), ?_⟩
    have hnodup := hstored.nodup
    rw [List.flatMap_append] at hnodup
    exact List.disjoint_of_nodup_append hnodup
  . rintro ⟨hleft, hright, hapart⟩
    refine ⟨?_, ?_, ?_⟩
    . intro d hd
      rw [List.flatMap_append, List.mem_append] at hd
      exact hd.elim (hleft.nodes d) (hright.nodes d)
    . intro d hd
      rw [List.flatMap_append, List.mem_append] at hd
      exact hd.elim (hleft.sorted d) (hright.sorted d)
    . rw [List.flatMap_append]
      exact hleft.nodup.append hright.nodup hapart

/--
A tree is its root and the trees of the children.
-/
theorem root_iff
    : Stored h [e] ↔ h.nodes e.this = some (node e) ∧ SortedMap.Sorted e.attrs
        ∧ e.this ∉ e.children.flatMap addresses ∧ Stored h e.children := by
  constructor
  . rintro ⟨hnodes, hsorted, hnodup⟩
    rw [List.flatMap_singleton, addresses_eq, List.nodup_cons] at hnodup
    rw [List.flatMap_singleton, flatten_eq, List.forall_mem_cons] at hnodes hsorted
    exact ⟨hnodes.1, hsorted.1, hnodup.1, hnodes.2, hsorted.2, hnodup.2⟩
  . rintro ⟨hnode, hattrs, hnew, hnodes, hsorted, hnodup⟩
    refine ⟨?_, ?_, ?_⟩
    . rw [List.flatMap_singleton, flatten_eq, List.forall_mem_cons]
      exact ⟨hnode, hnodes⟩
    . rw [List.flatMap_singleton, flatten_eq, List.forall_mem_cons]
      exact ⟨hattrs, hsorted⟩
    . rw [List.flatMap_singleton, addresses_eq, List.nodup_cons]
      exact ⟨hnew, hnodup⟩

theorem node_eq (hstored : Stored h [e]) : h.nodes e.this = some (node e) := (root_iff.mp hstored).1

theorem children (hstored : Stored h [e]) : Stored h e.children := (root_iff.mp hstored).2.2.2

theorem mem (hstored : Stored h trees) (he : e ∈ trees) : Stored h [e] :=
  hstored.sublist (List.singleton_sublist.mpr he)

-- What is at the addresses of the trees is what matters
theorem congr (hstored : Stored h trees) (heq : ∀ a ∈ trees.flatMap addresses, h'.nodes a = h.nodes a)
    : Stored h' trees := by
  refine ⟨?_, hstored.sorted, hstored.nodup⟩
  intro d hd
  rw [heq]
  . exact hstored.nodes d hd
  . obtain ⟨e, he, hd⟩ := List.mem_flatMap.mp hd
    exact List.mem_flatMap.mpr ⟨e, he, mem_addresses hd⟩

theorem lt_next (hstored : Stored h trees) (hfresh : Fresh h) (ha : a ∈ trees.flatMap addresses) : a < h.next := by
  by_contra hle
  obtain ⟨e, he, ha⟩ := List.mem_flatMap.mp ha
  obtain ⟨d, hd, rfl⟩ := List.mem_map.mp ha
  have hnode := hstored.nodes d (List.mem_flatMap.mpr ⟨e, he, hd⟩)
  rw [hfresh _ (Nat.le_of_not_lt hle)] at hnode
  cases hnode

theorem root_lt (hstored : Stored h [e]) (hfresh : Fresh h) (ha : a ∈ addresses e) : a < h.next := by
  refine hstored.lt_next hfresh ?_
  rw [List.flatMap_singleton]
  exact ha

end Stored

/-
Elements that are written.
-/

namespace Becomes

theorem refl (he : Stored h [e]) (hfresh : Fresh h) : Becomes h h e e where
  stored := he
  this := rfl
  frame := fun _ _ _ => rfl
  within := fun _ ha => Or.inl ha
  next := Nat.le_refl _
  fresh := hfresh

theorem trans (hfirst : Becomes h h1 e d) (hsecond : Becomes h1 h' d e') : Becomes h h' e e' := by
  refine ⟨hsecond.stored, hsecond.this.trans hfirst.this, ?_, ?_, ?_, hsecond.fresh⟩
  . intro a hlt ha
    rw [hsecond.frame a (Nat.lt_of_lt_of_le hlt hfirst.next), hfirst.frame a hlt ha]
    intro hd
    rcases hfirst.within a hd with h | h
    . exact ha h
    . omega
  . intro a ha
    rcases hsecond.within a ha with hd | hle
    . exact hfirst.within a hd
    . have := hfirst.next
      omega
  . exact Nat.le_trans hfirst.next hsecond.next

/--
Another tree is the same as before.
-/
theorem others (hbecomes : Becomes h h' e e') (hfresh : Fresh h) (htrees : Stored h trees)
    (hapart : (addresses e).Disjoint (trees.flatMap addresses))
    : Stored h' trees ∧ (addresses e').Disjoint (trees.flatMap addresses) := by
  constructor
  . refine htrees.congr ?_
    intro a ha
    exact hbecomes.frame a (htrees.lt_next hfresh ha) fun he => hapart he ha
  . intro a he' ha
    rcases hbecomes.within a he' with he | hle
    . exact hapart he ha
    . have := htrees.lt_next hfresh ha
      omega

/--
An element with a child that has changed.
-/
theorem child (hbecomes : Becomes h h' q q') (hfresh : Fresh h) (he : Stored h [e])
    (hchildren : e.children = before ++ q :: after)
    : Becomes h h' e { e with children := before ++ q' :: after } := by
  obtain ⟨hnode, hattrs, hnew, hstored⟩ := Stored.root_iff.mp he
  rw [hchildren] at hnew hstored
  have hperm {x : Element} : (before ++ x :: after).Perm ([x] ++ (before ++ after)) := List.perm_middle
  obtain ⟨hq, hrest, hapart⟩ := Stored.append_iff.mp (hstored.perm hperm)
  rw [List.flatMap_singleton] at hapart
  obtain ⟨hrest', hapart'⟩ := hbecomes.others hfresh hrest hapart
  have hsub : ∀ a ∈ addresses q, a ∈ e.children.flatMap addresses := by
    intro a ha
    rw [hchildren]
    exact List.mem_flatMap.mpr ⟨q, by simp, ha⟩
  have haddresses (x : Element) (a : Nat) : a ∈ (before ++ x :: after).flatMap addresses
      ↔ a ∈ addresses x ∨ a ∈ (before ++ after).flatMap addresses := by
    rw [(hperm.flatMap_right addresses).mem_iff, List.flatMap_append, List.flatMap_singleton, List.mem_append]
  have hlt := he.root_lt hfresh (this_mem_addresses e)
  rw [haddresses] at hnew
  refine ⟨Stored.root_iff.mpr ⟨?_, hattrs, ?_, ?_⟩, rfl, ?_, ?_, hbecomes.next, hbecomes.fresh⟩
  . rw [hbecomes.frame _ hlt fun h => hnew (Or.inl h), hnode]
    simp only [node, hchildren, List.map_append, List.map_cons, hbecomes.this]
  . dsimp only
    rw [haddresses]
    rintro (h | h)
    . rcases hbecomes.within _ h with h | h
      . exact hnew (Or.inl h)
      . omega
    . exact hnew (Or.inr h)
  . refine Stored.perm ?_ hperm.symm
    refine Stored.append_iff.mpr ⟨hbecomes.stored, hrest', ?_⟩
    rw [List.flatMap_singleton]
    exact hapart'
  . intro a hlt ha
    refine hbecomes.frame a hlt fun hq => ha ?_
    rw [addresses_eq]
    exact List.mem_cons_of_mem _ (hsub a hq)
  . intro a ha
    rw [addresses_eq, List.mem_cons] at ha ⊢
    dsimp only at ha
    rw [haddresses] at ha
    rw [hchildren, haddresses]
    rcases ha with rfl | h | h
    . exact Or.inl (Or.inl rfl)
    . rcases hbecomes.within a h with h | h
      . exact Or.inl (Or.inr (Or.inl h))
      . exact Or.inr h
    . exact Or.inl (Or.inr (Or.inr h))

end Becomes

theorem Fresh.update {n : Node} (hfresh : Fresh h) (ha : a < h.next)
    : Fresh { h with nodes := Function.update h.nodes a (some n) } := by
  intro b hb
  dsimp only at hb ⊢
  rw [Function.update_of_ne (by omega)]
  exact hfresh b hb

-- The data of an element
theorem write_becomes (e' : Element) (f : Node → Node) (he : Stored h [e]) (hfresh : Fresh h) (he' : f (node e) = node e')
    (hthis : e'.this = e.this) (hchildren : e'.children = e.children) (hattrs : SortedMap.Sorted e'.attrs)
    : ∃ h', h.write e.this f = some h' ∧ Becomes h h' e e' := by
  obtain ⟨hnode, -, hnew, hstored⟩ := Stored.root_iff.mp he
  have hlt := he.root_lt hfresh (this_mem_addresses e)
  refine ⟨_, write_eq hnode, Stored.root_iff.mpr ⟨?_, hattrs, ?_, ?_⟩, hthis, ?_, ?_, Nat.le_refl _, hfresh.update hlt⟩
  . rw [hthis, ← he']
    exact Function.update_self ..
  . rw [hthis, hchildren]
    exact hnew
  . rw [hchildren]
    refine hstored.congr ?_
    intro a ha
    refine Function.update_of_ne ?_ ..
    rintro rfl
    exact hnew ha
  . intro a _ ha
    refine Function.update_of_ne ?_ ..
    rintro rfl
    exact ha (this_mem_addresses e)
  . intro a ha
    rw [addresses_eq, hthis, hchildren, ← addresses_eq] at ha
    exact Or.inl ha

/-
Elements that are added.
-/

/--
A new tree is added to one that was there before.
-/
theorem Made.add (hmade : Made h h1 c) (hfresh : Fresh h) (he : Stored h [e])
    : ∃ h', h1.add e.this c.this = some h' ∧ Becomes h h' e (e.add c) := by
  obtain ⟨hnode, hattrs, hnew, hchildren⟩ := Stored.root_iff.mp he
  obtain ⟨hnode', hattrs', hnew', hchildren'⟩ := Stored.root_iff.mp hmade.stored
  have hlt := he.root_lt hfresh (this_mem_addresses e)
  have hle := hmade.new _ (this_mem_addresses c)
  have hlt' := hmade.stored.root_lt hmade.fresh (this_mem_addresses c)
  have hne : c.this ≠ e.this := by omega
  rw [← hmade.extended.nodes _ hlt] at hnode
  have hold : ∀ a ∈ e.children.flatMap addresses, a < h.next := by
    intro a ha
    refine he.root_lt hfresh ?_
    rw [addresses_eq]
    exact List.mem_cons_of_mem _ ha
  have hbelow : ∀ a ∈ c.children.flatMap addresses, h.next ≤ a := by
    intro a ha
    refine hmade.new a ?_
    rw [addresses_eq]
    exact List.mem_cons_of_mem _ ha
  obtain ⟨h', hadd⟩ : ∃ h', h1.add e.this c.this = some h' := by
    rw [Heap.add, write_eq hnode, Option.bind_eq_bind, Option.bind_some]
    exact ⟨_, write_eq ((Function.update_of_ne hne ..).trans hnode')⟩
  obtain ⟨n, m, hn, hm, hnodes, hnext⟩ := add_eq_some hne hadd
  cases hnode.symm.trans hn
  cases hnode'.symm.trans hm
  have hsame (a : Nat) (he : a ≠ e.this) (hc : a ≠ c.this) : h'.nodes a = h1.nodes a := by
    rw [hnodes, Function.update_of_ne hc, Function.update_of_ne he]
  refine ⟨h', hadd, Stored.root_iff.mpr ⟨?_, hattrs, ?_, Stored.append_iff.mpr ⟨?_, ?_, ?_⟩⟩, rfl, ?_, ?_, ?_, ?_⟩
  . change h'.nodes e.this = _
    rw [hnodes, Function.update_of_ne hne.symm, Function.update_self]
    simp [node, Element.add]
  . rw [Element.add, List.flatMap_append, List.flatMap_singleton, addresses_eq, List.mem_append, List.mem_cons]
    rintro (hmem | heq | hmem)
    . exact hnew hmem
    . exact hne heq.symm
    . have hge : h.next ≤ e.this := hbelow _ hmem
      omega
  . refine hchildren.congr ?_
    intro a ha
    have hlt := hold a ha
    refine (hsame a ?_ ?_).trans (hmade.extended.nodes a hlt)
    . rintro rfl
      exact hnew ha
    . omega
  . refine Stored.root_iff.mpr ⟨?_, hattrs', hnew', hchildren'.congr ?_⟩
    . rw [hnodes]
      exact Function.update_self ..
    . intro a ha
      have := hbelow a ha
      refine hsame a ?_ ?_
      . omega
      . rintro rfl
        exact hnew' ha
  . intro a ha hc
    have hlt := hold a ha
    rw [List.flatMap_singleton, addresses_eq, ← addresses_eq c] at hc
    have hle := hmade.new a hc
    omega
  . intro a hlt ha
    refine (hsame a ?_ ?_).trans (hmade.extended.nodes a hlt)
    . rintro rfl
      exact ha (this_mem_addresses e)
    . omega
  . intro a ha
    rw [Element.addresses_add, List.mem_append] at ha
    exact ha.imp_right (hmade.new a)
  . rw [hnext]
    exact hmade.extended.next
  . intro a ha
    have := hmade.extended.next
    refine (hsame a ?_ ?_).trans (hmade.fresh a (by omega))
    . omega
    . omega

/-
Copies.
-/

theorem Made.becomes (hmade : Made h h1 e) (hbecomes : Becomes h1 h' e e') : Made h h' e' := by
  refine ⟨hbecomes.stored, ⟨?_, ?_⟩, ?_, hbecomes.fresh⟩
  . intro a ha
    rw [hbecomes.frame a (Nat.lt_of_lt_of_le ha hmade.extended.next), hmade.extended.nodes a ha]
    intro he
    have := hmade.new a he
    omega
  . exact Nat.le_trans hmade.extended.next hbecomes.next
  . intro a ha
    rcases hbecomes.within a ha with h | h
    . exact hmade.new a h
    . exact Nat.le_trans hmade.extended.next h

theorem Made.create (hfresh : Fresh h) (name content : Bytes) {attrs : List (Bytes × Bytes)}
    (hattrs : SortedMap.Sorted attrs)
    : Made h (h.create name content attrs).2 { Element.new h.next name content with attrs := attrs } where
  stored := Stored.root_iff.mpr
    ⟨Function.update_self .., hattrs, List.not_mem_nil, fun _ hd => absurd hd List.not_mem_nil,
      fun _ hd => absurd hd List.not_mem_nil, List.nodup_nil⟩
  extended := ⟨fun _ ha => create_nodes_of_lt name content attrs ha, Nat.le_succ _⟩
  new := by
    intro a ha
    rw [addresses_eq, List.mem_cons] at ha
    rcases ha with rfl | ha
    . exact Nat.le_refl _
    . exact absurd ha List.not_mem_nil
  fresh := by
    intro a ha
    change h.next + 1 ≤ a at ha
    exact (Function.update_of_ne (by omega) ..).trans (hfresh a (by omega))

-- Trees that are stored are still so after a new one has been made
theorem Stored.extend (hstored : Stored h trees) (hfresh : Fresh h) (hextended : Extends h h')
    : Stored h' trees :=
  hstored.congr fun _ ha => hextended.nodes _ (hstored.lt_next hfresh ha)

-- The copies of children are added one after the other
theorem deepCopy_children {done rest : List Element}
    (ih : ∀ c ∈ rest, ∀ h, Fresh h → Stored h [c] → ∃ enough h' d, Made h h' d ∧ Alike c d
      ∧ ∀ fuel, enough ≤ fuel → h.deepCopy fuel c.this = some (d.this, h'))
    (hfresh : Fresh h) (hmade : Made h h1 e) (hrest : Stored h rest)
    (halike : List.Forall₂ Alike done e.children)
    : ∃ enough h' children, Made h h' { e with children := children }
        ∧ List.Forall₂ Alike (done ++ rest) children
        ∧ ∀ fuel, enough ≤ fuel → (rest.map Element.this).foldlM (fun h child => do
            let (copy, h) ← h.deepCopy fuel child
            h.add e.this copy) h1 = some h' := by
  induction rest generalizing done h1 e with
  | nil =>
    rw [List.append_nil]
    refine ⟨0, h1, e.children, ?_, halike, fun _ _ => rfl⟩
    cases e
    exact hmade
  | cons c rest ihrest =>
    rw [List.forall_mem_cons] at ih
    have hc := (hrest.mem List.mem_cons_self).extend hfresh hmade.extended
    obtain ⟨enough1, h2, d, hd, hcd, hcopy⟩ := ih.1 h1 hmade.fresh hc
    obtain ⟨h3, hadd, hbecomes⟩ := hd.add hmade.fresh hmade.stored
    have halike' : List.Forall₂ Alike (done ++ [c]) (e.add d).children :=
      List.rel_append halike (.cons (hcd.attach _) .nil)
    obtain ⟨enough2, h', children, hmade', halike', hfold⟩ :=
      ihrest ih.2 (hmade.becomes hbecomes) (hrest.sublist (List.sublist_cons_self ..)) halike'
    refine ⟨max enough1 enough2, h', children, hmade', ?_, ?_⟩
    . rw [List.append_assoc, List.singleton_append] at halike'
      exact halike'
    . intro fuel hle
      rw [List.map_cons, List.foldlM_cons, hcopy fuel (by omega), Option.bind_eq_bind, Option.bind_eq_bind,
        Option.bind_some]
      dsimp only
      rw [hadd, Option.bind_some]
      exact hfold fuel (by omega)

/--
A copy is a new tree with the same data.
-/
theorem deepCopy_made (c : Element) (h : Heap) (hfresh : Fresh h) (hc : Stored h [c])
    : ∃ enough h' d, Made h h' d ∧ Alike c d
        ∧ ∀ fuel, enough ≤ fuel → h.deepCopy fuel c.this = some (d.this, h') := by
  induction c using Element.induction generalizing h with
  | h c ih =>
    obtain ⟨hnode, hattrs, -, hchildren⟩ := Stored.root_iff.mp hc
    obtain ⟨enough, h', children, hmade, halike, hfold⟩ :=
      deepCopy_children ih hfresh (Made.create hfresh c.name c.content hattrs) hchildren .nil
    refine ⟨enough + 1, h', _, hmade, ⟨rfl, rfl, rfl, halike.length_eq.symm, ?_⟩, ?_⟩
    . intro i d b hd hb
      obtain ⟨hi, rfl⟩ := List.getElem?_eq_some_iff.mp hd
      obtain ⟨hi', rfl⟩ := List.getElem?_eq_some_iff.mp hb
      exact halike.get hi hi'
    . intro fuel hle
      obtain ⟨fuel, rfl⟩ : ∃ k, fuel = k + 1 := ⟨fuel - 1, by omega⟩
      rw [deepCopy, hnode, Option.bind_eq_bind, Option.bind_some]
      exact congrArg (fun r => Option.bind r fun h' => some (h.next, h')) (hfold fuel (by omega))

end Heap
end Xml
end ObTools
