import Mathlib.Algebra.Order.BigOperators.Group.List
import Mathlib.Algebra.Order.Ring.Nat
import ObTools.Xml.HeapLemmas
import ObTools.Xml.XPath

/-!
This module contains the proof that the operations that delete and detach elements take them out of
the lists that hold them.
-/

namespace ObTools
namespace Xml
namespace Heap

open Forest (Above Holds Link Linked Links Ranked parentOf put)

variable {h h' : Heap} {l : Links Nat} {rank : Nat → Nat} {e c : Nat} {fuel : Nat}

/-
The elements below some others are gone, and no others.
-/
structure Dropped (l : Links Nat) (els : List Nat) (h h' : Heap) : Prop where
  gone : ∀ e ∈ els, ∀ x, Above l e x → h'.nodes x = none
  kept : ∀ x, (∀ e ∈ els, ¬Above l e x) → h'.nodes x = h.nodes x
  next : h'.next = h.next

-- The elements below another one are as they were
def Agrees (l : Links Nat) (e : Nat) (h : Heap) : Prop := ∀ x, Above l e x → h.links x = l x

theorem Dropped.agrees (hl : Linked l) {d : Nat} (hdropped : Dropped l [c] h h') (hc : Holds l e c)
    (hd : Holds l e d) (hne : d ≠ c) (hagrees : Agrees l d h)
    : Agrees l d h' := by
  intro x habove
  rw [links, hdropped.kept x]
  . exact hagrees x habove
  . intro c' hc'
    rw [List.mem_singleton.mp hc']
    exact hl.not_above_sibling hd hc hne habove

theorem Dropped.cons {els : List Nat} {h1 : Heap} (hdropped : Dropped l [c] h h1)
    (hdropped' : Dropped l els h1 h')
    : Dropped l (c :: els) h h' where
  gone := by
    intro e he x habove
    by_cases hx : ∀ e ∈ els, ¬Above l e x
    . rw [hdropped'.kept x hx]
      rcases List.mem_cons.mp he with rfl | he
      . exact hdropped.gone e (List.mem_singleton_self e) x habove
      . exact absurd habove (hx e he)
    . simp only [not_forall, not_not] at hx
      obtain ⟨e', he', habove'⟩ := hx
      exact hdropped'.gone e' he' x habove'
  kept := by
    intro x hx
    rw [List.forall_mem_cons] at hx
    rw [hdropped'.kept x hx.2, hdropped.kept x]
    intro e he
    rw [List.mem_singleton.mp he]
    exact hx.1
  next := hdropped'.next.trans hdropped.next

-- The destructor goes through the children, which have no elements in common
theorem deleteChildren_dropped (hl : Linked l)
    (ih : ∀ c h h', Agrees l c h → delete fuel c h = some h' → Dropped l [c] h h') {children : List Nat}
    (hchildren : ∀ c ∈ children, Holds l e c) (hnodup : children.Nodup)
    (hagrees : ∀ c ∈ children, Agrees l c h)
    (hfold : children.foldlM (fun h child => delete fuel child h) h = some h')
    : Dropped l children h h' := by
  induction children generalizing h with
  | nil =>
    cases hfold
    refine ⟨?_, fun _ _ => rfl, rfl⟩
    intro e he
    exact absurd he List.not_mem_nil
  | cons c children ihc =>
    rw [List.foldlM_cons, Option.bind_eq_bind, Option.bind_eq_some_iff] at hfold
    obtain ⟨h1, hdelete, hfold⟩ := hfold
    rw [List.forall_mem_cons] at hchildren hagrees
    rw [List.nodup_cons] at hnodup
    have hdropped := ih c h h1 hagrees.1 hdelete
    refine hdropped.cons (ihc hchildren.2 hnodup.2 ?_ hfold)
    intro d hd
    have hne : d ≠ c := by
      rintro rfl
      exact hnodup.1 hd
    exact hdropped.agrees hl hchildren.1 (hchildren.2 d hd) hne (hagrees.2 d hd)

theorem above_iff {n : Node} (hl : l e = some n.link) (x : Nat)
    : Above l e x ↔ e = x ∨ ∃ c ∈ n.children, Above l c x := by
  constructor
  . intro habove
    rcases Relation.ReflTransGen.cases_head habove with heq | ⟨c, hc, habove⟩
    . exact Or.inl heq
    . exact Or.inr ⟨c, (Forest.holds_iff_mem hl).mp hc, habove⟩
  . rintro (rfl | ⟨c, hc, habove⟩)
    . exact .refl
    . exact .head ((Forest.holds_iff_mem hl).mpr hc) habove

theorem Agrees.child (hagrees : Agrees l e h) (hc : Holds l e c) : Agrees l c h := by
  intro x habove
  exact hagrees x (.head hc habove)

/--
An element is deleted together with all that are below it.
-/
theorem delete_dropped (hl : Linked l) (hagrees : Agrees l e h) (hdelete : delete fuel e h = some h')
    : Dropped l [e] h h' := by
  induction fuel generalizing e h h' with
  | zero => cases hdelete
  | succ fuel ih =>
    simp only [delete, Option.bind_eq_bind, Option.bind_eq_some_iff] at hdelete
    obtain ⟨n, hn, h1, hfold, heq⟩ := hdelete
    cases heq
    have hle : l e = some n.link := by
      rw [← hagrees e .refl, links_eq hn]
    have hchildren : ∀ c ∈ n.children, Holds l e c := fun c hc => (Forest.holds_iff_mem hle).mpr hc
    have hdropped := deleteChildren_dropped hl (fun c h h' => ih) hchildren (hl.nodup e _ hle)
      (fun c hc => hagrees.child (hchildren c hc)) hfold
    refine ⟨?_, ?_, hdropped.next⟩
    . intro e' he' x habove
      rw [List.mem_singleton.mp he', above_iff hle] at habove
      dsimp only
      by_cases hx : x = e
      . rw [hx, Function.update_self]
      . rw [Function.update_of_ne hx]
        obtain ⟨c, hc, habove⟩ := habove.resolve_left (Ne.symm hx)
        exact hdropped.gone c hc x habove
    . intro x hx
      have hx := hx e (List.mem_singleton_self e)
      rw [above_iff hle, not_or, not_exists] at hx
      dsimp only
      rw [Function.update_of_ne (Ne.symm hx.1)]
      refine hdropped.kept x ?_
      intro c hc habove
      exact hx.2 c ⟨hc, habove⟩

theorem deleteChildren_isSome (hl : Linked l) (rank : Nat → Nat) (fuel : Nat)
    (ih : ∀ c h, Agrees l c h → (l c).isSome → rank c < fuel → ∃ h', delete fuel c h = some h')
    {children : List Nat} (hchildren : ∀ c ∈ children, Holds l e c) (hnodup : children.Nodup)
    (hagrees : ∀ c ∈ children, Agrees l c h) (hfuel : ∀ c ∈ children, rank c < fuel)
    : ∃ h', children.foldlM (fun h child => delete fuel child h) h = some h' := by
  induction children generalizing h with
  | nil => exact ⟨h, rfl⟩
  | cons c children ihc =>
    rw [List.forall_mem_cons] at hchildren hagrees hfuel
    rw [List.nodup_cons] at hnodup
    obtain ⟨m, hm, -⟩ := hl.live hchildren.1
    obtain ⟨h1, hdelete⟩ := ih c h hagrees.1 (by rw [hm]; rfl) hfuel.1
    have hdropped := delete_dropped hl hagrees.1 hdelete
    rw [List.foldlM_cons, hdelete, Option.bind_eq_bind, Option.bind_some]
    refine ihc hchildren.2 hnodup.2 ?_ hfuel.2
    intro d hd
    have hne : d ≠ c := by
      rintro rfl
      exact hnodup.1 hd
    exact hdropped.agrees hl hchildren.1 (hchildren.2 d hd) hne (hagrees.2 d hd)

/--
The destructor comes to an end, with as much fuel as there are levels of elements.
-/
theorem delete_isSome (hl : Linked l) (hrank : Ranked l rank) (hagrees : Agrees l e h)
    (he : (l e).isSome) (hfuel : rank e < fuel)
    : ∃ h', delete fuel e h = some h' := by
  induction fuel generalizing e h with
  | zero => exact absurd hfuel (Nat.not_lt_zero _)
  | succ fuel ih =>
    obtain ⟨k, hk⟩ := Option.isSome_iff_exists.mp he
    have hlinks := hagrees e .refl
    rw [hk] at hlinks
    obtain ⟨n, hn, rfl⟩ := links_eq_some hlinks
    have hchildren : ∀ c ∈ n.children, Holds l e c := fun c hc => (Forest.holds_iff_mem hk).mpr hc
    obtain ⟨h1, hfold⟩ := deleteChildren_isSome hl rank fuel (fun c h => ih) hchildren
      (hl.nodup e _ hk) (fun c hc => hagrees.child (hchildren c hc))
      (fun c hc => by have := hrank e c (hchildren c hc); omega)
    rw [delete, hn, Option.bind_eq_bind, Option.bind_some, hfold]
    exact ⟨_, rfl⟩

/-
Deleting a child, and taking it out of the list that holds it.
-/

variable {h1 : Heap} {n m : Node} {f : Node → Node}

theorem Agrees.links (h : Heap) (e : Nat) : Agrees h.links e h := fun _ _ => rfl

theorem Dropped.nodes_eq_none {els : List Nat} (hdropped : Dropped l els h h') {x : Nat}
    (hx : h.nodes x = none)
    : h'.nodes x = none := by
  by_cases habove : ∀ e ∈ els, ¬Above l e x
  . rw [hdropped.kept x habove, hx]
  . simp only [not_forall, not_not] at habove
    obtain ⟨e, he, habove⟩ := habove
    exact hdropped.gone e he x habove

theorem WellFormed.deleteChild (hwf : WellFormed h) (he : h.nodes e = some n) (hc : c ∈ n.children)
    (hdelete : delete fuel c h = some h1) (hwrite : h1.write e f = some h')
    (hf : (f n).link = { n.link with children := n.children.filter (· ≠ c) })
    : WellFormed h' := by
  have hl := hwf.linked
  have hholds : Holds h.links e c := (holds_iff he).mpr hc
  obtain ⟨k, hk, -⟩ := hl.live hholds
  have hdropped := delete_dropped hl (.links h c) hdelete
  have hgone (x : Nat) (habove : Above h.links c x) : h1.nodes x = none :=
    hdropped.gone c (List.mem_singleton_self c) x habove
  have hkept (x : Nat) (habove : ¬Above h.links c x) : h1.nodes x = h.nodes x := by
    refine hdropped.kept x ?_
    intro c' hc'
    rw [List.mem_singleton.mp hc']
    exact habove
  have habove := hl.not_above_of_holds hholds
  obtain ⟨n', hn', hnodes, hnext⟩ := write_eq_some hwrite
  rw [hkept e habove, he] at hn'
  cases hn'
  refine ⟨?_, ?_⟩
  . have hunlink := hl.unlink (links_eq he) hk hholds
    refine hunlink.drop (S := Above h.links c) ?_ ?_ ?_
    . intro a x hax
      rw [hl.holds_unlink (links_eq he) hk hholds] at hax
      exact ⟨fun ha => ha.tail hax.1, fun hx => hl.above_ne hx hax.2 hax.1⟩
    . intro x hx
      have hne : x ≠ e := by
        rintro rfl
        exact habove hx
      rw [Heap.links, hnodes, Function.update_of_ne hne, hgone x hx, Option.map_none]
    . intro x hx
      have hne : x ≠ c := by
        rintro rfl
        exact hx .refl
      rw [links_update hnodes, Forest.unlink, Forest.put_of_ne hne, hf]
      by_cases hxe : x = e
      . rw [hxe, Forest.put_self, Forest.put_self]
        rfl
      . rw [Forest.put_of_ne hxe, Forest.put_of_ne hxe, Heap.links, hkept x hx, Heap.links]
  . intro a ha
    rw [hnext, hdropped.next] at ha
    have hlt := hwf.lt he
    rw [hnodes, Function.update_of_ne (by omega)]
    exact hdropped.nodes_eq_none (hwf.fresh a ha)

theorem WellFormed.optimise (hwf : WellFormed h) (hoptimise : h.optimise fuel e = some h')
    : WellFormed h' := by
  simp only [Heap.optimise, Option.bind_eq_bind, Option.bind_eq_some_iff] at hoptimise
  obtain ⟨n, hn, hoptimise⟩ := hoptimise
  split at hoptimise
  case h_1 child hchildren =>
    rw [Option.bind_eq_some_iff] at hoptimise
    obtain ⟨m, -, hoptimise⟩ := hoptimise
    split at hoptimise
    case isTrue =>
      simp only [Option.bind_eq_some_iff] at hoptimise
      obtain ⟨h1, hcontent, h2, hdelete, hwrite⟩ := hoptimise
      obtain ⟨n', hn', hnodes, -⟩ := write_eq_some hcontent
      rw [hn] at hn'
      cases hn'
      refine (hwf.write_data hcontent fun _ _ => rfl).1.deleteChild (n := { n with content := m.content })
        (by rw [hnodes, Function.update_self]) (by rw [hchildren]; exact List.mem_singleton_self child)
        hdelete hwrite ?_
      simp [Node.link, hchildren]
    case isFalse =>
      cases hoptimise
      exact hwf
  case h_2 =>
    cases hoptimise
    exact hwf

theorem filter_ne_eq_self {xs : List Nat} (hc : c ∉ xs) : xs.filter (· ≠ c) = xs := by
  rw [List.filter_eq_self]
  intro y hy
  simp only [decide_eq_true_eq]
  rintro rfl
  exact hc hy

theorem eraseIdx_eq_filter {xs : List Nat} (hnodup : xs.Nodup) {i : Nat} (hi : xs[i]? = some c)
    : xs.eraseIdx i = xs.filter (· ≠ c) := by
  induction xs generalizing i with
  | nil => cases hi
  | cons x xs ih =>
    rw [List.nodup_cons] at hnodup
    cases i with
    | zero =>
      rw [List.getElem?_cons_zero] at hi
      cases hi
      rw [List.eraseIdx_cons_zero, List.filter_cons_of_neg (by simp), filter_ne_eq_self hnodup.1]
    | succ i =>
      rw [List.getElem?_cons_succ] at hi
      have hne : x ≠ c := by
        rintro rfl
        exact hnodup.1 (List.mem_of_getElem? hi)
      rw [List.eraseIdx_cons_succ, List.filter_cons_of_pos (by simpa using hne), ih hnodup.2 hi]

theorem translate_wellFormed (transMap : List (Bytes × Bytes)) (fuel : Nat)
    : (∀ e h keep h', WellFormed h → translate transMap fuel e h = some (keep, h') → WellFormed h')
        ∧ ∀ e i h h', WellFormed h → translateLoop transMap fuel e i h = some h' → WellFormed h' := by
  induction fuel with
  | zero =>
    refine ⟨?_, ?_⟩
    . intro e h keep h' _ htranslate
      rw [translate] at htranslate
      cases htranslate
    . intro e i h h' _ htranslate
      rw [translateLoop] at htranslate
      cases htranslate
  | succ fuel ih =>
    refine ⟨?_, ?_⟩
    . intro e h keep h' hwf htranslate
      simp only [translate, Option.bind_eq_bind, Option.bind_eq_some_iff] at htranslate
      obtain ⟨n, -, htranslate⟩ := htranslate
      split at htranslate
      case isTrue =>
        cases htranslate
        exact hwf
      case isFalse =>
        split at htranslate
        case h_1 =>
          rw [Option.bind_eq_some_iff] at htranslate
          obtain ⟨h1, hloop, heq⟩ := htranslate
          cases heq
          exact ih.2 e 0 h h' hwf hloop
        case h_2 =>
          cases htranslate
          exact hwf
        case h_3 =>
          simp only [Option.bind_eq_some_iff] at htranslate
          obtain ⟨h1, hloop, h2, hwrite, heq⟩ := htranslate
          cases heq
          exact ((ih.2 e 0 h h1 hwf hloop).write_data hwrite fun _ _ => rfl).1
    . intro e i h h' hwf htranslate
      simp only [translateLoop, Option.bind_eq_bind, Option.bind_eq_some_iff] at htranslate
      obtain ⟨n, -, htranslate⟩ := htranslate
      split at htranslate
      case h_1 =>
        cases htranslate
        exact hwf
      case h_2 child _ =>
        simp only [Option.bind_eq_some_iff] at htranslate
        obtain ⟨⟨keep, h1⟩, hchild, n1, hn1, htranslate⟩ := htranslate
        have hwf1 := ih.1 child h keep h1 hwf hchild
        split at htranslate
        case isTrue => cases htranslate
        case isFalse hi =>
          rw [not_not] at hi
          split at htranslate
          case isTrue => exact ih.2 e (i + 1) h1 h' hwf1 htranslate
          case isFalse =>
            simp only [Option.bind_eq_some_iff] at htranslate
            obtain ⟨h2, hdelete, h3, hwrite, htranslate⟩ := htranslate
            have hnodup : n1.children.Nodup := hwf1.linked.nodup e n1.link (links_eq hn1)
            refine ih.2 e i h3 h' ?_ htranslate
            refine hwf1.deleteChild hn1 (List.mem_of_getElem? hi) hdelete hwrite ?_
            rw [eraseIdx_eq_filter hnodup hi]
            rfl

/-
Detaching.
-/

-- What is left of the links when an element has been detached
structure Detached (h : Heap) (e : Nat) (h' : Heap) : Prop where
  wellFormed : WellFormed h'
  holds : ∀ a c, Holds h'.links a c → Holds h.links a c
  root : ∃ n, h'.nodes e = some n ∧ n.parent = none
  live : ∀ a, (h'.nodes a).isSome = (h.nodes a).isSome
  next : h'.next = h.next

theorem isSome_update (g : Nat → Option Node) {b : Nat} (k : Node) (hb : (g b).isSome = true) (a : Nat)
    : (Function.update g b (some k) a).isSome = (g a).isSome := by
  by_cases ha : a = b
  . rw [ha, Function.update_self, hb, Option.isSome_some]
  . rw [Function.update_of_ne ha]

/--
An element that is detached is in no list any more, and has no parent.
-/
theorem WellFormed.detach (hwf : WellFormed h) (he : h.nodes e = some n)
    : ∃ h', h.detach e = some h' ∧ Detached h e h' := by
  have hl := hwf.linked
  have hsome : (h.nodes e).isSome = true := by rw [he, Option.isSome_some]
  rw [Heap.detach, he, Option.bind_eq_bind, Option.bind_some]
  cases hparent : n.parent with
  | none =>
    dsimp only
    rw [Option.bind_eq_bind, Option.bind_some, write_eq he]
    have hdata := hwf.write_data (write_eq he) (f := fun n => { n with parent := none }) ?_
    . refine ⟨_, rfl, hdata.1, ?_, ⟨_, Function.update_self .., rfl⟩, isSome_update _ _ hsome, rfl⟩
      intro a c hac
      rw [hdata.2] at hac
      exact hac
    . intro n' hn'
      rw [he] at hn'
      cases hn'
      rw [Node.link, Node.link, hparent]
  | some a =>
    have hholds : Holds h.links a e := by
      rw [hl.holds_iff, parentOf, links_eq he, Option.map_some, Node.link, hparent]
    obtain ⟨k', hk'⟩ := hholds.live
    obtain ⟨k, hk, rfl⟩ := links_eq_some hk'
    have hne := hl.ne_of_holds hholds
    dsimp only
    rw [write_eq hk, Option.bind_eq_bind, Option.bind_some,
      write_eq (n := n) ((Function.update_of_ne hne.symm ..).trans he)]
    have hlinks {h' : Heap} (hnodes : h'.nodes = Function.update (Function.update h.nodes a
          (some { k with children := k.children.filter (· ≠ e) })) e (some { n with parent := none }))
        : h'.links = Forest.unlink a e k.link n.link h.links := by
      rw [links_update (h := { h with nodes := Function.update h.nodes a _ }) hnodes, links_update rfl]
      rfl
    refine ⟨_, rfl, ⟨?_, ?_⟩, ?_, ⟨_, Function.update_self .., rfl⟩, ?_, rfl⟩
    . rw [hlinks rfl]
      exact hl.unlink (links_eq hk) (links_eq he) hholds
    . intro b hb
      have hlt := hwf.lt he
      have hlta := hwf.lt hk
      dsimp only at hb ⊢
      rw [Function.update_of_ne (by omega), Function.update_of_ne (by omega)]
      exact hwf.fresh b hb
    . intro b c hbc
      rw [hlinks rfl, hl.holds_unlink (links_eq hk) (links_eq he) hholds] at hbc
      exact hbc.1
    . intro b
      have hsomea : (h.nodes a).isSome = true := by rw [hk, Option.isSome_some]
      have hsomee := isSome_update h.nodes { k with children := k.children.filter (· ≠ e) } hsomea e
      exact (isSome_update _ _ (hsomee.trans hsome) b).trans (isSome_update h.nodes _ hsomea b)

/-
Replacing.
-/

theorem replace_perm {xs : List Nat} (hnodup : xs.Nodup) (hc : c ∈ xs) (e : Nat)
    : (xs.replace c e).Perm (xs.filter (· ≠ c) ++ [e]) := by
  induction xs with
  | nil => exact absurd hc List.not_mem_nil
  | cons x xs ih =>
    rw [List.nodup_cons] at hnodup
    by_cases hx : x = c
    . subst hx
      rw [List.filter_cons_of_neg (by simp), filter_ne_eq_self hnodup.1, List.replace_cons_self]
      exact (List.perm_append_singleton e xs).symm
    . have hcxs : c ∈ xs := (List.mem_cons.mp hc).resolve_left (Ne.symm hx)
      have hbeq : (c == x) = false := by simpa using Ne.symm hx
      rw [List.filter_cons_of_pos (by simpa using hx), List.replace_cons, hbeq]
      exact (ih hnodup.2 hcxs).cons x

/--
An element without a parent that is not above another one can take its place.
-/
theorem WellFormed.replaceWith (hwf : WellFormed h) {this : Nat}
    (hroot : ∀ m, h.nodes e = some m → m.parent = none) (habove : ¬Above h.links e this)
    (hreplace : h.replaceWith this e = some h')
    : WellFormed h' := by
  have hl := hwf.linked
  simp only [Heap.replaceWith, Option.bind_eq_bind, Option.bind_eq_some_iff] at hreplace
  obtain ⟨n, hn, hreplace⟩ := hreplace
  split at hreplace
  case h_1 =>
    cases hreplace
    exact hwf
  case h_2 a hparent =>
    rw [Option.bind_eq_some_iff] at hreplace
    obtain ⟨k, hk, hreplace⟩ := hreplace
    split at hreplace
    case isFalse =>
      cases hreplace
      exact hwf
    case isTrue hmem =>
      rw [List.contains_iff_mem] at hmem
      simp only [Option.bind_eq_some_iff] at hreplace
      obtain ⟨h1, hwrite1, h2, hwrite2, hwrite3⟩ := hreplace
      have hholds : Holds h.links a this := (holds_iff hk).mpr hmem
      have hne : a ≠ this := hl.ne_of_holds hholds
      have hea : e ≠ a := by
        rintro rfl
        exact habove (.single hholds)
      have hethis : e ≠ this := by
        rintro rfl
        exact habove .refl
      obtain ⟨k', hk', hnodes1, hnext1⟩ := write_eq_some hwrite1
      rw [hk] at hk'
      cases hk'
      obtain ⟨m, he, hnodes2, hnext2⟩ := write_eq_some hwrite2
      rw [hnodes1, Function.update_of_ne hea] at he
      obtain ⟨n', hn', hnodes3, hnext3⟩ := write_eq_some hwrite3
      rw [hnodes2, Function.update_of_ne hethis.symm, hnodes1, Function.update_of_ne hne.symm, hn] at hn'
      cases hn'
      refine ⟨?_, ?_⟩
      . have hlinks : h'.links = put this { n.link with parent := none } (put e
            { m.link with parent := some a }
            (put a { k.link with children := k.children.replace this e } h.links)) := by
          rw [links_update hnodes3, links_update hnodes2, links_update hnodes1]
          rfl
        rw [hlinks]
        exact hl.replace (links_eq hk) (links_eq hn) hholds (links_eq he) (hroot m he) habove
          (replace_perm (hl.nodup a _ (links_eq hk)) hmem e)
      . intro b hb
        have hlt := hwf.lt hk
        have hlt' := hwf.lt he
        have hlt'' := hwf.lt hn
        rw [hnodes3, Function.update_of_ne (by omega), hnodes2, Function.update_of_ne (by omega), hnodes1,
          Function.update_of_ne (by omega)]
        exact hwf.fresh b (by omega)

/-
Deleting detached elements.
-/

theorem WellFormed.delete (hwf : WellFormed h) (he : h.nodes e = some n) (hroot : n.parent = none)
    (hdelete : delete fuel e h = some h')
    : WellFormed h' ∧ ∀ a c, Holds h'.links a c → Holds h.links a c := by
  have hl := hwf.linked
  have hdropped := delete_dropped hl (.links h e) hdelete
  have hgone (x : Nat) (habove : Above h.links e x) : h'.links x = none := by
    rw [links, hdropped.gone e (List.mem_singleton_self e) x habove, Option.map_none]
  have hkept (x : Nat) (habove : ¬Above h.links e x) : h'.links x = h.links x := by
    rw [links, hdropped.kept x, links]
    intro e' he'
    rw [List.mem_singleton.mp he']
    exact habove
  refine ⟨⟨?_, ?_⟩, ?_⟩
  . refine hl.drop (S := Above h.links e) ?_ hgone hkept
    intro a x hax
    refine ⟨fun ha => ha.tail hax, fun hx => hl.above_ne hx ?_ hax⟩
    rintro rfl
    exact hl.not_holds_root (links_eq he) hroot a hax
  . intro a ha
    rw [hdropped.next] at ha
    exact hdropped.nodes_eq_none (hwf.fresh a ha)
  . rintro a c ⟨k, hk, hc⟩
    by_cases ha : Above h.links e a
    . rw [hgone a ha] at hk
      cases hk
    . rw [hkept a ha] at hk
      exact ⟨k, hk, hc⟩

/-
Elements that are there, and none of which is above another one.
-/
structure Separate (h : Heap) (els : List Nat) : Prop where
  nodup : els.Nodup
  live : ∀ e ∈ els, ∃ n, h.nodes e = some n
  above : ∀ c ∈ els, ∀ d ∈ els, c ≠ d → ¬Above h.links c d

theorem Detached.nodes_eq_none (hdetached : Detached h e h') {x : Nat} (hx : h.nodes x = none)
    : h'.nodes x = none := by
  have hlive := hdetached.live x
  rw [hx, Option.isSome_none, Option.isSome_eq_false_iff, Option.isNone_iff_eq_none] at hlive
  exact hlive

theorem detach_detached (hwf : WellFormed h) (hdetach : h.detach e = some h') : Detached h e h' := by
  have hdetach' := hdetach
  rw [Heap.detach, Option.bind_eq_bind, Option.bind_eq_some_iff] at hdetach'
  obtain ⟨n, hn, -⟩ := hdetach'
  obtain ⟨h1, hdetach1, hdetached⟩ := hwf.detach hn
  rw [hdetach] at hdetach1
  cases hdetach1
  exact hdetached

theorem WellFormed.deleteAll (hwf : WellFormed h) {els : List Nat}
    (hdelete : h.deleteAll fuel els = some h')
    : WellFormed h' := by
  refine Runs.foldlM_inv (I := WellFormed) ?_ hwf hdelete
  intro k e k' _ hk hstep
  rw [Option.bind_eq_bind, Option.bind_eq_some_iff] at hstep
  obtain ⟨k1, hdetach, hdelete⟩ := hstep
  have hdetached := detach_detached hk hdetach
  obtain ⟨n, hn, hroot⟩ := hdetached.root
  exact (hdetached.wellFormed.delete hn hroot hdelete).1

/--
Elements that are deleted one after the other are gone from the lists that held them.
-/
theorem deleteAll_isSome (hwf : WellFormed h) {els : List Nat} (hsep : Separate h els)
    (hrank : Ranked h.links rank) (hfuel : ∀ e ∈ els, rank e < fuel)
    : ∃ h', h.deleteAll fuel els = some h' ∧ (∀ x, h.nodes x = none → h'.nodes x = none)
        ∧ ∀ e ∈ els, h'.nodes e = none := by
  induction els generalizing h with
  | nil =>
    refine ⟨h, rfl, fun _ hx => hx, ?_⟩
    intro e he
    exact absurd he List.not_mem_nil
  | cons e els ih =>
    rw [List.forall_mem_cons] at hfuel
    obtain ⟨n, hn⟩ := hsep.live e List.mem_cons_self
    obtain ⟨h1, hdetach, hdetached⟩ := hwf.detach hn
    obtain ⟨n1, hn1, hroot⟩ := hdetached.root
    have hrank1 : Ranked h1.links rank := fun a c hac => hrank a c (hdetached.holds a c hac)
    have hl1 := hdetached.wellFormed.linked
    obtain ⟨h2, hdelete⟩ := delete_isSome hl1 hrank1 (.links h1 e) (by rw [links_eq hn1]; rfl) hfuel.1
    have hdropped := delete_dropped hl1 (.links h1 e) hdelete
    obtain ⟨hwf2, hholds⟩ := hdetached.wellFormed.delete hn1 hroot hdelete
    have hsep2 : Separate h2 els := by
      refine ⟨(List.nodup_cons.mp hsep.nodup).2, ?_, ?_⟩
      . intro d hd
        obtain ⟨m, hm⟩ := hsep.live d (List.mem_cons_of_mem e hd)
        have hne : e ≠ d := by
          rintro rfl
          exact (List.nodup_cons.mp hsep.nodup).1 hd
        rw [hdropped.kept d, ← Option.isSome_iff_exists, hdetached.live, hm, Option.isSome_some]
        intro e' he' habove
        rw [List.mem_singleton.mp he'] at habove
        exact hsep.above e List.mem_cons_self d (List.mem_cons_of_mem e hd) hne
          (habove.mono hdetached.holds)
      . intro c hc d hd hne habove
        refine hsep.above c (List.mem_cons_of_mem e hc) d (List.mem_cons_of_mem e hd) hne ?_
        exact habove.mono fun a c hac => hdetached.holds a c (hholds a c hac)
    have hrank2 : Ranked h2.links rank := fun a c hac => hrank1 a c (hholds a c hac)
    obtain ⟨h', hrest, hnone, hgone⟩ := ih hwf2 hsep2 hrank2 hfuel.2
    refine ⟨h', ?_, ?_, ?_⟩
    . rw [Heap.deleteAll, List.foldlM_cons, hdetach, Option.bind_eq_bind, Option.bind_some, hdelete,
        Option.bind_some]
      exact hrest
    . intro x hx
      exact hnone x (hdropped.nodes_eq_none (hdetached.nodes_eq_none hx))
    . intro d hd
      rcases List.mem_cons.mp hd with rfl | hd
      . exact hnone d (hdropped.gone d (List.mem_singleton_self d) d .refl)
      . exact hgone d hd

/-
The elements that a path leads to.
-/

theorem Separate.nil (h : Heap) : Separate h [] := by
  refine ⟨List.nodup_nil, ?_, ?_⟩
  . intro e he
    exact absurd he List.not_mem_nil
  . intro c hc
    exact absurd hc List.not_mem_nil

theorem Separate.singleton (he : h.nodes e = some n) : Separate h [e] := by
  refine ⟨List.nodup_singleton e, ?_, ?_⟩
  . intro e' he'
    rw [List.mem_singleton.mp he']
    exact ⟨n, he⟩
  . intro c hc d hd hne
    rw [List.mem_singleton] at hc hd
    exact absurd (hc.trans hd.symm) hne

theorem Separate.siblings (hwf : WellFormed h) (he : h.nodes e = some n) {els : List Nat}
    (hels : els.Sublist n.children)
    : Separate h els := by
  have hl := hwf.linked
  have hholds (c : Nat) (hc : c ∈ els) : Holds h.links e c := (holds_iff he).mpr (hels.subset hc)
  refine ⟨hels.nodup (hl.nodup e _ (links_eq he)), ?_, ?_⟩
  . intro c hc
    obtain ⟨m, hm, -⟩ := hl.live (hholds c hc)
    obtain ⟨m, hm, -⟩ := links_eq_some hm
    exact ⟨m, hm⟩
  . intro c hc d hd hne habove
    exact hl.not_above_sibling (hholds c hc) (hholds d hd) hne habove .refl

theorem named_spec {children : List Nat} (hlive : ∀ c ∈ children, ∃ n, h.nodes c = some n) (name : Bytes)
    : ∃ els, h.named name children = some els ∧ els.Sublist children := by
  induction children with
  | nil => exact ⟨[], rfl, .slnil⟩
  | cons c children ih =>
    rw [List.forall_mem_cons] at hlive
    obtain ⟨n, hn⟩ := hlive.1
    obtain ⟨els, hels, hsub⟩ := ih hlive.2
    rw [named, hn, Option.bind_eq_bind, Option.bind_some, hels, Option.bind_eq_bind, Option.bind_some]
    refine ⟨_, rfl, ?_⟩
    split
    . exact hsub.cons_cons c
    . exact hsub.cons c

theorem getChildren_spec (hwf : WellFormed h) (he : h.nodes e = some n) (name : Bytes)
    : ∃ els, h.getChildren e name = some els ∧ Separate h els := by
  have hall := (Separate.siblings hwf he (List.Sublist.refl _)).live
  obtain ⟨els, hels, hsub⟩ := named_spec hall name
  refine ⟨els, ?_, Separate.siblings hwf he hsub⟩
  rw [getChildren, he]
  exact hels

/--
A path leads to elements that are there.
-/
theorem getElementsLoop_spec (hwf : WellFormed h) {path : Bytes} (he : h.nodes e = some n)
    (hfuel : path.length < fuel)
    : ∃ els, h.getElementsLoop fuel e path = some els ∧ Separate h els := by
  induction fuel generalizing e n path with
  | zero => exact absurd hfuel (Nat.not_lt_zero _)
  | succ fuel ih =>
    rw [getElementsLoop]
    generalize hpath : (if path.head? = some 47 then path.tail else path) = rest
    have hlength : rest.length ≤ path.length := by
      rw [← hpath]
      split
      . rw [List.length_tail]
        omega
      . exact Nat.le_refl _
    split
    case isTrue => exact ⟨[e], rfl, Separate.singleton he⟩
    case isFalse hne =>
      have hpos := List.length_pos_of_ne_nil hne
      obtain ⟨els, hels, hsep⟩ := getChildren_spec hwf he (readStep (rest.takeWhile (· ≠ 47))).1
      dsimp only
      rw [hels, Option.bind_eq_bind, Option.bind_some]
      split
      case isTrue => exact ⟨els, rfl, hsep⟩
      case isFalse =>
        split
        case h_1 => exact ⟨[], rfl, Separate.nil h⟩
        case h_2 child hchild =>
          obtain ⟨m, hm⟩ := hsep.live child (List.mem_of_getElem? hchild)
          split
          case isTrue => exact ⟨[child], rfl, Separate.singleton hm⟩
          case isFalse =>
            refine ih hm ?_
            rw [List.length_drop]
            omega

/--
All elements at the given path are deleted, and no list holds them any more.
-/
theorem deleteElements_isSome (hwf : WellFormed h) {root : Nat} (hroot : h.nodes root = some n)
    (path : Bytes)
    : ∃ els enough, h.getElements root path = some els ∧ ∀ fuel, enough ≤ fuel →
        ∃ any h', h.deleteElements fuel root path = some (any, h')
          ∧ ∀ e ∈ els, ∀ a, ¬Holds h'.links a e := by
  obtain ⟨els, hels, hsep⟩ := getElementsLoop_spec hwf hroot (Nat.lt_succ_self path.length)
  obtain ⟨rank, hrank⟩ := hwf.linked.ranked
  refine ⟨els, (els.map rank).sum + 1, hels, ?_⟩
  intro fuel hfuel
  have henough (e : Nat) (he : e ∈ els) : rank e < fuel := by
    have := List.le_sum_of_mem (List.mem_map_of_mem (f := rank) he)
    omega
  obtain ⟨h', hdelete, -, hgone⟩ := deleteAll_isSome hwf hsep hrank henough
  refine ⟨!els.isEmpty, h', ?_, ?_⟩
  . rw [deleteElements, getElements, hels, Option.bind_eq_bind, Option.bind_some, hdelete]
    rfl
  . intro e he a hholds
    obtain ⟨m, hm, -⟩ := (hwf.deleteAll hdelete).linked.live hholds
    obtain ⟨m, hm, -⟩ := links_eq_some hm
    rw [hgone e he] at hm
    cases hm

end Heap
end Xml
end ObTools
