import ObTools.Lib.Forest
import ObTools.Lib.Runs
import ObTools.Xml.Heap

/-!
This module contains the proof that the links of elements to their children and parents agree after
each operation on them.
-/

namespace ObTools
namespace Xml

open Forest (Above Holds Link Linked Links Ranked parentOf put)

def Node.link (n : Node) : Link Nat where
  children := n.children
  parent := n.parent

namespace Heap

def links (h : Heap) : Links Nat := fun a => (h.nodes a).map Node.link

structure WellFormed (h : Heap) : Prop where
  linked : Linked h.links
  fresh : ∀ a, h.next ≤ a → h.nodes a = none

variable {h h' h1 : Heap} {a c e child dest source : Nat} {n m : Node} {f : Node → Node} {fuel : Nat}

theorem links_eq (ha : h.nodes a = some n) : h.links a = some n.link := by
  rw [links, ha, Option.map_some]

theorem links_eq_some {k : Link Nat} (ha : h.links a = some k) : ∃ n, h.nodes a = some n ∧ n.link = k :=
  Option.map_eq_some_iff.mp ha

theorem holds_iff (ha : h.nodes a = some n) : Holds h.links a c ↔ c ∈ n.children :=
  Forest.holds_iff_mem (links_eq ha)

namespace WellFormed

theorem lt (hwf : WellFormed h) (ha : h.nodes a = some n) : a < h.next := by
  by_contra hle
  rw [hwf.fresh a (Nat.le_of_not_lt hle)] at ha
  cases ha

theorem empty : WellFormed Heap.empty where
  linked := Linked.empty
  fresh := fun _ _ => rfl

end WellFormed

/-
Writing to a node.
-/

theorem write_eq (he : h.nodes e = some n)
    : h.write e f = some { h with nodes := Function.update h.nodes e (some (f n)) } := by
  rw [write, he]
  rfl

theorem write_eq_some (hwrite : h.write e f = some h')
    : ∃ n, h.nodes e = some n ∧ h'.nodes = Function.update h.nodes e (some (f n))
        ∧ h'.next = h.next := by
  rw [write, Option.bind_eq_bind, Option.bind_eq_some_iff] at hwrite
  obtain ⟨n, hn, heq⟩ := hwrite
  cases heq
  exact ⟨n, hn, rfl, rfl⟩

theorem links_update (hnodes : h'.nodes = Function.update h.nodes e (some n))
    : h'.links = put e n.link h.links := by
  funext a
  unfold links put
  rw [hnodes]
  by_cases ha : a = e
  . rw [ha, Function.update_self, Function.update_self, Option.map_some]
  . rw [Function.update_of_ne ha, Function.update_of_ne ha]

theorem fresh_update (hwf : WellFormed h) (he : e < h'.next) (hle : h.next ≤ h'.next) {n : Option Node}
    (hnodes : h'.nodes = Function.update h.nodes e n) (a : Nat) (ha : h'.next ≤ a)
    : h'.nodes a = none := by
  rw [hnodes, Function.update_of_ne (by omega)]
  exact hwf.fresh a (by omega)

-- Data of an element that is not a link
theorem WellFormed.write_data (hwf : WellFormed h) (hwrite : h.write e f = some h')
    (hf : ∀ n, h.nodes e = some n → (f n).link = n.link)
    : WellFormed h' ∧ h'.links = h.links := by
  obtain ⟨n, hn, hnodes, hnext⟩ := write_eq_some hwrite
  have hlinks : h'.links = h.links := by
    rw [links_update hnodes, hf n hn, put, ← links_eq hn]
    exact Function.update_eq_self ..
  refine ⟨⟨?_, ?_⟩, hlinks⟩
  . rw [hlinks]
    exact hwf.linked
  . exact fresh_update hwf (hnext ▸ hwf.lt hn) (by omega) hnodes

/-
New elements.
-/

theorem WellFormed.create (hwf : WellFormed h) (name content : Bytes) (attrs : List (Bytes × Bytes))
    : WellFormed (h.create name content attrs).2 where
  linked := by
    rw [links_update (h := h) (e := h.next) rfl]
    exact hwf.linked.insert (by rw [links, hwf.fresh _ (Nat.le_refl _), Option.map_none])
  fresh := fresh_update hwf (Nat.lt_succ_self _) (Nat.le_succ _) rfl

theorem create_nodes_of_lt (name content : Bytes) (attrs : List (Bytes × Bytes)) (ha : a < h.next)
    : (h.create name content attrs).2.nodes a = h.nodes a :=
  Function.update_of_ne (by omega) ..

theorem add_eq_some (hne : child ≠ e) (hadd : h.add e child = some h')
    : ∃ n m, h.nodes e = some n ∧ h.nodes child = some m
        ∧ h'.nodes = Function.update
            (Function.update h.nodes e (some { n with children := n.children ++ [child] }))
            child (some { m with parent := some e })
        ∧ h'.next = h.next := by
  rw [add, Option.bind_eq_bind, Option.bind_eq_some_iff] at hadd
  obtain ⟨h1, hwrite1, hwrite2⟩ := hadd
  obtain ⟨n, hn, hnodes1, hnext1⟩ := write_eq_some hwrite1
  obtain ⟨m, hm, hnodes2, hnext2⟩ := write_eq_some hwrite2
  rw [hnodes1, Function.update_of_ne hne] at hm
  refine ⟨n, m, hn, hm, ?_, hnext2.trans hnext1⟩
  rw [hnodes2, hnodes1]

/--
An element without a parent that is not above another one can be added to it.
-/
theorem WellFormed.add (hwf : WellFormed h) (hc : h.nodes child = some m) (hroot : m.parent = none)
    (habove : ¬Above h.links child e) (hadd : h.add e child = some h')
    : WellFormed h' := by
  have hne : child ≠ e := by
    rintro rfl
    exact habove .refl
  obtain ⟨n, m', hn, hm', hnodes, hnext⟩ := add_eq_some hne hadd
  rw [hc] at hm'
  cases hm'
  refine ⟨?_, ?_⟩
  . have hlinks : h'.links = Forest.attach e child n.link m.link h.links := by
      rw [links_update (h := { h with nodes := Function.update h.nodes e _ }) hnodes, links_update rfl]
      rfl
    rw [hlinks]
    exact hwf.linked.attach (links_eq hn) (links_eq hc) hroot habove
  . intro a ha
    have he := hwf.lt hn
    have hlt := hwf.lt hc
    rw [hnodes, Function.update_of_ne (by omega), Function.update_of_ne (by omega)]
    exact hwf.fresh a (by omega)

/-
Copies.
-/

-- The elements that were there before have not changed
structure Extends (h h' : Heap) : Prop where
  nodes : ∀ a, a < h.next → h'.nodes a = h.nodes a
  next : h.next ≤ h'.next

theorem Extends.refl (h : Heap) : Extends h h where
  nodes := fun _ _ => rfl
  next := Nat.le_refl _

theorem Extends.trans (hext1 : Extends h h1) (hext2 : Extends h1 h') : Extends h h' where
  nodes := by
    intro a ha
    rw [hext2.nodes a (Nat.lt_of_lt_of_le ha hext1.next), hext1.nodes a ha]
  next := Nat.le_trans hext1.next hext2.next

/--
What is above an element that was there before was there before, too.
-/
theorem Extends.lt_of_above (hext : Extends h h') (hwf : WellFormed h) (hwf' : WellFormed h')
    (ha : a < h.next) (habove : Above h'.links c a)
    : c < h.next := by
  induction habove using Relation.ReflTransGen.head_induction_on with
  | refl => exact ha
  | head hholds _ ih =>
    rw [hwf'.linked.holds_iff, parentOf, links, hext.nodes _ ih] at hholds
    obtain ⟨n, hn⟩ := ((hwf.linked.holds_iff _ _).mpr hholds).live
    obtain ⟨n, hn, -⟩ := links_eq_some hn
    exact hwf.lt hn

/-
What a deep copy is: a new element without a parent. No other element has changed.
-/
structure Copied (h h' : Heap) (copy : Nat) : Prop where
  wellFormed : WellFormed h'
  extended : Extends h h'
  new : h.next ≤ copy
  lt : copy < h'.next
  root : ∃ m, h'.nodes copy = some m ∧ m.parent = none

-- A new element can be added to one that was there before
theorem Copied.add {copy : Nat} (hcopied : Copied h h1 copy) (hwf : WellFormed h) (he : e < h.next)
    (hadd : h1.add e copy = some h')
    : WellFormed h' := by
  obtain ⟨m, hm, hroot⟩ := hcopied.root
  refine hcopied.wellFormed.add hm hroot ?_ hadd
  intro habove
  have hlt := hcopied.extended.lt_of_above hwf hcopied.wellFormed he habove
  have hle := hcopied.new
  omega

theorem Copied.create (hwf : WellFormed h) (name content : Bytes) (attrs : List (Bytes × Bytes))
    : Copied h (h.create name content attrs).2 h.next where
  wellFormed := hwf.create name content attrs
  extended := ⟨fun _ ha => create_nodes_of_lt name content attrs ha, Nat.le_succ _⟩
  new := Nat.le_refl _
  lt := Nat.lt_succ_self _
  root := ⟨_, Function.update_self .., rfl⟩

-- A copy is added to one that is being made
theorem Copied.add_copy {copy : Nat} (hdest : Copied h h1 dest) {h2 : Heap} (hcopy : Copied h1 h2 copy)
    (hadd : h2.add dest copy = some h')
    : Copied h h' dest := by
  have hlt := hdest.lt
  have hnew := hdest.new
  have hle := hcopy.new
  have hne : copy ≠ dest := by omega
  obtain ⟨n, m, hn, hm, hnodes, hnext⟩ := add_eq_some hne hadd
  refine ⟨hcopy.add hdest.wellFormed hlt hadd, ⟨?_, ?_⟩, hnew, ?_, ?_⟩
  . intro a ha
    rw [hnodes, Function.update_of_ne (by omega), Function.update_of_ne (by omega)]
    exact (hdest.extended.trans hcopy.extended).nodes a ha
  . rw [hnext]
    exact (hdest.extended.trans hcopy.extended).next
  . have := hcopy.extended.next
    omega
  . obtain ⟨k, hk, hroot⟩ := hdest.root
    rw [hcopy.extended.nodes dest hlt, hk] at hn
    cases hn
    refine ⟨{ n with children := n.children ++ [copy] }, ?_, hroot⟩
    rw [hnodes, Function.update_of_ne (Ne.symm hne), Function.update_self]

theorem deepCopy_copied (hwf : WellFormed h) {copy : Nat}
    (hcopy : h.deepCopy fuel e = some (copy, h'))
    : Copied h h' copy := by
  induction fuel generalizing h h' e copy with
  | zero => cases hcopy
  | succ fuel ih =>
    rw [deepCopy, Option.bind_eq_bind, Option.bind_eq_some_iff] at hcopy
    obtain ⟨n, -, hcopy⟩ := hcopy
    dsimp only at hcopy
    rw [Option.bind_eq_bind, Option.bind_eq_some_iff] at hcopy
    obtain ⟨h1, hfold, heq⟩ := hcopy
    cases heq
    refine Runs.foldlM_inv (I := fun k => Copied h k h.next) ?_ (Copied.create hwf ..) hfold
    intro k child k' _ hk hstep
    rw [Option.bind_eq_bind, Option.bind_eq_some_iff] at hstep
    obtain ⟨⟨copy, k1⟩, hcopy, hadd⟩ := hstep
    exact hk.add_copy (ih hk.wellFormed hcopy) hadd

/-
The operations that add copies.
-/

theorem WellFormed.addCopy (hwf : WellFormed h) (hadd : h.addCopy fuel e child = some h')
    : WellFormed h' := by
  rw [Heap.addCopy, Option.bind_eq_bind, Option.bind_eq_some_iff] at hadd
  obtain ⟨n, hn, hadd⟩ := hadd
  rw [Option.bind_eq_bind, Option.bind_eq_some_iff] at hadd
  obtain ⟨⟨copy, h1⟩, hcopy, hadd⟩ := hadd
  exact (deepCopy_copied hwf hcopy).add hwf (hwf.lt hn) hadd

theorem WellFormed.addNew (hwf : WellFormed h) {name content : Bytes} {attrs : List (Bytes × Bytes)}
    (hadd : h.addNew e name content attrs = some h')
    : WellFormed h' := by
  rw [Heap.addNew, Option.bind_eq_bind, Option.bind_eq_some_iff] at hadd
  obtain ⟨n, hn, hadd⟩ := hadd
  exact (Copied.create hwf name content attrs).add hwf (hwf.lt hn) hadd

theorem WellFormed.mergeLoop (hwf : WellFormed h) {i : Nat}
    (hmerge : h.mergeLoop e source fuel i = some h')
    : WellFormed h' := by
  induction fuel generalizing h i with
  | zero => cases hmerge
  | succ fuel ih =>
    rw [Heap.mergeLoop, Option.bind_eq_bind, Option.bind_eq_some_iff] at hmerge
    obtain ⟨s, -, hmerge⟩ := hmerge
    split at hmerge
    . cases hmerge
      exact hwf
    . rw [Option.bind_eq_bind, Option.bind_eq_some_iff] at hmerge
      obtain ⟨h1, hadd, hmerge⟩ := hmerge
      exact ih (hwf.addCopy hadd) hmerge

theorem WellFormed.merge (hwf : WellFormed h) (hmerge : h.merge fuel e source = some h')
    : WellFormed h' := by
  rw [Heap.merge, Option.bind_eq_bind, Option.bind_eq_some_iff] at hmerge
  obtain ⟨s, -, hmerge⟩ := hmerge
  rw [Option.bind_eq_bind, Option.bind_eq_some_iff] at hmerge
  obtain ⟨h1, hwrite, hmerge⟩ := hmerge
  exact (hwf.write_data hwrite fun _ _ => rfl).1.mergeLoop hmerge

theorem superimpose_wellFormed (identifier : Bytes) (fuel : Nat)
    : (∀ e source h h', WellFormed h → superimpose identifier fuel e source h = some h' → WellFormed h')
        ∧ ∀ e source i h h', WellFormed h
            → superimposeLoop identifier fuel e source i h = some h' → WellFormed h' := by
  induction fuel with
  | zero =>
    refine ⟨?_, ?_⟩
    . intro e source h h' _ hsuper
      rw [superimpose] at hsuper
      cases hsuper
    . intro e source i h h' _ hsuper
      rw [superimposeLoop] at hsuper
      cases hsuper
  | succ fuel ih =>
    refine ⟨?_, ?_⟩
    . intro e source h h' hwf hsuper
      simp only [superimpose, Option.bind_eq_bind, Option.bind_eq_some_iff] at hsuper
      obtain ⟨s, -, h1, hwrite, hsuper⟩ := hsuper
      exact ih.2 e source 0 h1 h' (hwf.write_data hwrite fun _ _ => rfl).1 hsuper
    . intro e source i h h' hwf hsuper
      simp only [superimposeLoop, Option.bind_eq_bind, Option.bind_eq_some_iff] at hsuper
      obtain ⟨s, -, hsuper⟩ := hsuper
      split at hsuper
      case h_1 =>
        cases hsuper
        exact hwf
      case h_2 p _ =>
        simp only [Option.bind_eq_some_iff] at hsuper
        obtain ⟨child, -, n, -, found, -, hsuper⟩ := hsuper
        cases found with
        | some q =>
          simp only [Option.bind_eq_some_iff] at hsuper
          obtain ⟨h1, hq, hsuper⟩ := hsuper
          exact ih.2 e source (i + 1) h1 h' (ih.1 q p h h1 hwf hq) hsuper
        | none =>
          simp only [Option.bind_eq_some_iff] at hsuper
          obtain ⟨h1, hadd, hsuper⟩ := hsuper
          exact ih.2 e source (i + 1) h1 h' (hwf.addCopy hadd) hsuper

end Heap
end Xml
end ObTools
