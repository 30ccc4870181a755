import ObTools.Xml.Stored

/-!
This module contains the proof that an element that has been superimposed has all the data of the source,
and that it stays as it is if the source is superimposed again.
-/

namespace ObTools
namespace Xml
namespace Heap

open Element (Alike Distinct Dominates Kept addresses addresses_eq)
open ObTools.Lex (chars)
open Overlay (first place Laid Overlaid)

variable {h h1 h' : Heap} {e c result source : Element} {identifier : Bytes} {fuel i : Nat}
  {rest children : List Element}

theorem ident_node (identifier : Bytes) (e : Element)
    : ident identifier (node e) = Element.ident identifier e := rfl

theorem findIdent_eq (identifier pid : Bytes) (hchildren : Stored h children)
    : h.findIdent identifier pid (children.map Element.this)
        = some ((first (Element.ident identifier) pid children).map Element.this) := by
  induction children with
  | nil => rfl
  | cons c children ih =>
    have hnode := (hchildren.mem List.mem_cons_self).node_eq
    have hrest := hchildren.sublist (List.sublist_cons_self c children)
    rw [List.map_cons, findIdent, hnode, Option.bind_eq_bind, Option.bind_some, ident_node]
    unfold first at ih ⊢
    by_cases heq : pid = Element.ident identifier c
    . rw [if_pos heq, List.find?_cons_of_pos (by simpa using heq.symm), Option.map_some]
    . rw [if_neg heq, List.find?_cons_of_neg (by simpa using Ne.symm heq)]
      exact ih hrest

-- The data of an element with that of the source over it
def overwritten (e source : Element) : Element :=
  { e with
    attrs := copyAttrs source.attrs e.attrs
    content := if source.content ≠ [] then source.content else e.content }

theorem superimpose_eq (hsource : Stored h [source])
    (hwrite : h.write e.this (fun n =>
      { n with
        attrs := copyAttrs source.attrs n.attrs
        content := if source.content ≠ [] then source.content else n.content }) = some h1)
    : superimpose identifier (fuel + 1) e.this source.this h
        = superimposeLoop identifier fuel e.this source.this 0 h1 := by
  rw [superimpose, hsource.node_eq, Option.bind_eq_bind, Option.bind_some]
  exact congrArg (fun r => Option.bind r (superimposeLoop identifier fuel e.this source.this 0)) hwrite

theorem superimposeLoop_end (hsource : Stored h [source]) (hi : source.children[i]? = none)
    : superimposeLoop identifier (fuel + 1) e.this source.this i h = some h := by
  rw [superimposeLoop, hsource.node_eq, Option.bind_eq_bind, Option.bind_some]
  simp only [node, List.getElem?_map, hi, Option.map_none]

theorem superimposeLoop_next (he : Stored h [e]) (hsource : Stored h [source])
    (hi : source.children[i]? = some c)
    : superimposeLoop identifier (fuel + 1) e.this source.this i h
        = (match first (Element.ident identifier) (Element.ident identifier c) e.children with
          | some q => superimpose identifier fuel q.this c.this h
          | none => h.addCopy fuel e.this c.this).bind
            (superimposeLoop identifier fuel e.this source.this (i + 1)) := by
  have hc := hsource.children.mem (List.mem_of_getElem? hi)
  rw [superimposeLoop, hsource.node_eq, Option.bind_eq_bind, Option.bind_some]
  simp only [node, List.getElem?_map, hi, Option.map_some]
  rw [hc.node_eq, Option.bind_some, he.node_eq, Option.bind_some]
  have hfind := findIdent_eq identifier (Element.ident identifier c) he.children
  rw [ident_node]
  simp only [node, hfind]
  cases first (Element.ident identifier) (Element.ident identifier c) e.children with
  | some q => rfl
  | none => rfl

/-
The source is read while it is superimposed on another tree.
-/

-- The result of one element of the source
def Superimposes (identifier : Bytes) (source : Element) : Prop :=
  ∀ h e, Fresh h → Stored h [e] → Stored h [source] → (addresses e).Disjoint (addresses source)
    → ∃ enough h' e', Becomes h h' e e' ∧ Dominates identifier source e' ∧ Kept identifier e source e'
      ∧ ∀ fuel, enough ≤ fuel → superimpose identifier fuel e.this source.this h = some h'

/--
A child is superimposed on the first one with its identifier, or copied if there is none.
-/
theorem superimposeLoop_step (ih : Superimposes identifier c) (hi : source.children[i]? = some c)
    (hdistinct : Distinct identifier c) (hfresh : Fresh h) (he : Stored h [e]) (hsource : Stored h [source])
    (hapart : (addresses e).Disjoint (addresses source))
    : ∃ enough h1 children, Becomes h h1 e { e with children := children }
        ∧ Laid (Element.ident identifier) (Element.ident identifier) (Dominates identifier) (Kept identifier)
          c e.children children
        ∧ ∀ fuel, enough ≤ fuel → superimposeLoop identifier (fuel + 1) e.this source.this i h
            = superimposeLoop identifier fuel e.this source.this (i + 1) h1 := by
  have hmem : c ∈ source.children := List.mem_of_getElem? hi
  have hc := hsource.children.mem hmem
  cases hfirst : first (Element.ident identifier) (Element.ident identifier c) e.children with
  | some q =>
    obtain ⟨before, after, hchildren, hbefore⟩ := Overlay.first_split hfirst
    obtain ⟨hsame, hq⟩ := Overlay.first_eq_some hfirst
    have hapart' : (addresses q).Disjoint (addresses c) := by
      intro a haq hac
      refine hapart (a := a) ?_ ?_
      . rw [addresses_eq]
        exact List.mem_cons_of_mem _ (List.mem_flatMap.mpr ⟨q, hq, haq⟩)
      . rw [addresses_eq]
        exact List.mem_cons_of_mem _ (List.mem_flatMap.mpr ⟨c, hmem, hac⟩)
    obtain ⟨enough, h1, q', hbecomes, hdominates, hkept, hrun⟩ := ih h q hfresh (he.children.mem hq) hc hapart'
    refine ⟨enough, h1, before ++ q' :: after, hbecomes.child hfresh he hchildren, ?_, ?_⟩
    . rw [hchildren]
      exact .onto hbefore hsame (Element.ident_superimposed hdominates hkept hsame) hdominates hkept
    . intro fuel hle
      rw [superimposeLoop_next he hsource hi, hfirst]
      dsimp only
      rw [hrun fuel hle, Option.bind_some]
  | none =>
    obtain ⟨enough, h1, d, hmade, halike, hcopy⟩ := deepCopy_made c h hfresh hc
    obtain ⟨h2, hadd, hbecomes⟩ := hmade.add hfresh he
    have halike' := halike.attach (some e.this)
    refine ⟨enough, h2, _, hbecomes, .behind (Overlay.first_eq_none.mp hfirst) halike'.ident_eq
      (hdistinct.dominates halike'), ?_⟩
    intro fuel hle
    rw [superimposeLoop_next he hsource hi, hfirst]
    dsimp only
    rw [addCopy, he.node_eq, Option.bind_eq_bind, Option.bind_some, hcopy fuel hle, Option.bind_eq_bind,
      Option.bind_some]
    dsimp only
    rw [hadd, Option.bind_some]

theorem superimposeLoop_overlaid (ih : ∀ c ∈ source.children, Superimposes identifier c)
    (hdistinct : ∀ c ∈ source.children, Distinct identifier c) (hrest : source.children.drop i = rest)
    (hnodup : (rest.map (Element.ident identifier)).Nodup) (hfresh : Fresh h) (he : Stored h [e])
    (hsource : Stored h [source]) (hapart : (addresses e).Disjoint (addresses source))
    : ∃ enough h' children, Becomes h h' e { e with children := children }
        ∧ Overlaid (Element.ident identifier) (Element.ident identifier) (Dominates identifier)
          (Kept identifier) rest e.children children
        ∧ ∀ fuel, enough ≤ fuel → superimposeLoop identifier fuel e.this source.this i h = some h' := by
  induction rest generalizing i h e with
  | nil =>
    refine ⟨1, h, e.children, ?_, .nil, ?_⟩
    . cases e
      exact .refl he hfresh
    . intro fuel hle
      obtain ⟨fuel, rfl⟩ : ∃ k, fuel = k + 1 := ⟨fuel - 1, by omega⟩
      exact superimposeLoop_end hsource (List.getElem?_eq_none (List.drop_eq_nil_iff.mp hrest))
  | cons c rest ihrest =>
    have hi : source.children[i]? = some c := by rw [← List.head?_drop, hrest, List.head?_cons]
    have hrest' : source.children.drop (i + 1) = rest := by rw [← List.tail_drop, hrest, List.tail_cons]
    have hmem : c ∈ source.children := List.mem_of_getElem? hi
    rw [List.map_cons, List.nodup_cons] at hnodup
    obtain ⟨enough1, h1, children1, hbecomes1, hlaid, hstep⟩ :=
      superimposeLoop_step (ih c hmem) hi (hdistinct c hmem) hfresh he hsource hapart
    obtain ⟨hsource1, hapart1⟩ := hbecomes1.others hfresh hsource (by simpa using hapart)
    obtain ⟨enough2, h', children, hbecomes2, hoverlaid, hrun⟩ :=
      ihrest hrest' hnodup.2 hbecomes1.fresh hbecomes1.stored hsource1 (by simpa using hapart1)
    refine ⟨max enough1 enough2 + 1, h', children, hbecomes1.trans hbecomes2, ?_, ?_⟩
    . refine .cons hlaid hoverlaid ?_
      intro t ht heq
      exact hnodup.1 (heq ▸ List.mem_map_of_mem ht)
    . intro fuel hle
      obtain ⟨fuel, rfl⟩ : ∃ k, fuel = k + 1 := ⟨fuel - 1, by omega⟩
      rw [hstep fuel (by omega)]
      exact hrun fuel (by omega)

theorem superimposes (hdistinct : Distinct identifier source) : Superimposes identifier source := by
  induction hdistinct with
  | @mk source distinct children ih =>
    intro h e hfresh he hsource hapart
    have hattrs := (Stored.root_iff.mp he).2.1
    have hattrs' := (Stored.root_iff.mp hsource).2.1
    obtain ⟨h1, hwrite, hbecomes1⟩ := write_becomes (overwritten e source)
      (fun n =>
        { n with
          attrs := copyAttrs source.attrs n.attrs
          content := if source.content ≠ [] then source.content else n.content })
      he hfresh rfl rfl rfl (Element.copyAttrs_sorted hattrs)
    obtain ⟨hsource1, hapart1⟩ := hbecomes1.others hfresh hsource (by simpa using hapart)
    obtain ⟨enough, h', children', hbecomes2, hoverlaid, hrun⟩ := superimposeLoop_overlaid (i := 0) ih children
      List.drop_zero distinct hbecomes1.fresh hbecomes1.stored hsource1 (by simpa using hapart1)
    have hfind := Element.find_copyAttrs e.attrs hattrs'
    refine ⟨enough + 1, h', _, hbecomes1.trans hbecomes2, ⟨?_, ?_, ?_, ?_⟩,
      ⟨rfl, rfl, rfl, rfl, ?_, ?_, hoverlaid.length, hoverlaid.unchanged, ?_⟩, ?_⟩
    . intro aname aval haval
      refine (hfind aname).trans ?_
      rw [haval, Option.some_or]
    . intro hcontent
      exact if_pos hcontent
    . intro s hs
      obtain ⟨r, hr, -⟩ := hoverlaid.covers s hs
      exact Option.isSome_of_mem hr
    . intro s hs r hr
      obtain ⟨r', hr', hdominates⟩ := hoverlaid.covers s hs
      cases hr'.symm.trans hr
      exact hdominates
    . intro aname hnone
      refine (hfind aname).trans ?_
      rw [hnone, Option.none_or]
    . intro hcontent
      exact if_neg (not_not_intro hcontent)
    . intro s hs i c r hplace hc hr
      obtain ⟨r', hr', hkept⟩ := hoverlaid.kept s hs i c hplace hc
      cases hr'.symm.trans hr
      exact hkept
    . intro fuel hle
      obtain ⟨fuel, rfl⟩ : ∃ k, fuel = k + 1 := ⟨fuel - 1, by omega⟩
      rw [superimpose_eq hsource hwrite]
      exact hrun fuel (by omega)

/-
What is superimposed again changes nothing.
-/

theorem superimposeLoop_again (identifier : Bytes) (hsource : Stored h [source]) (hresult : Stored h [result])
    (hrest : source.children.drop i = rest)
    (ih : ∀ s ∈ source.children, ∃ r enough,
      first (Element.ident identifier) (Element.ident identifier s) result.children = some r
        ∧ ∀ fuel, enough ≤ fuel → superimpose identifier fuel r.this s.this h = some h)
    : ∃ enough, ∀ fuel, enough ≤ fuel
        → superimposeLoop identifier fuel result.this source.this i h = some h := by
  induction rest generalizing i with
  | nil =>
    refine ⟨1, ?_⟩
    intro fuel hle
    obtain ⟨fuel, rfl⟩ : ∃ k, fuel = k + 1 := ⟨fuel - 1, by omega⟩
    exact superimposeLoop_end hsource (List.getElem?_eq_none (List.drop_eq_nil_iff.mp hrest))
  | cons s rest ihrest =>
    have hi : source.children[i]? = some s := by rw [← List.head?_drop, hrest, List.head?_cons]
    have hrest' : source.children.drop (i + 1) = rest := by rw [← List.tail_drop, hrest, List.tail_cons]
    obtain ⟨r, enough1, hfirst, hrun⟩ := ih s (List.mem_of_getElem? hi)
    obtain ⟨enough2, hloop⟩ := ihrest hrest'
    refine ⟨max enough1 enough2 + 1, ?_⟩
    intro fuel hle
    obtain ⟨fuel, rfl⟩ : ∃ k, fuel = k + 1 := ⟨fuel - 1, by omega⟩
    rw [superimposeLoop_next hresult hsource hi, hfirst]
    dsimp only
    rw [hrun fuel (by omega), Option.bind_some]
    exact hloop fuel (by omega)

/--
A source changes nothing of a tree that has all its data already, even if both share elements.
-/
theorem superimpose_again (hdominates : Dominates identifier source result) (hsource : Stored h [source])
    (hresult : Stored h [result])
    : ∃ enough, ∀ fuel, enough ≤ fuel → superimpose identifier fuel result.this source.this h = some h := by
  induction hdominates with
  | @mk source result attrs content found children ih =>
    have hsorted := (Stored.root_iff.mp hsource).2.1
    have hsorted' := (Stored.root_iff.mp hresult).2.1
    have hcontent : (if source.content ≠ [] then source.content else result.content) = result.content := by
      split
      . next hne => exact (content hne).symm
      . rfl
    have hwrite : h.write result.this (fun n =>
        { n with
          attrs := copyAttrs source.attrs n.attrs
          content := if source.content ≠ [] then source.content else n.content }) = some h := by
      rw [write_eq hresult.node_eq]
      simp only [node, Element.copyAttrs_of_find hsorted hsorted' attrs, hcontent]
      rw [Function.update_eq_self_iff.mpr hresult.node_eq.symm]
    obtain ⟨enough, hloop⟩ := superimposeLoop_again (i := 0) identifier hsource hresult
      List.drop_zero (by
        intro s hs
        obtain ⟨r, hr⟩ := Option.isSome_iff_exists.mp (found s hs)
        obtain ⟨-, hmem⟩ := Overlay.first_eq_some hr
        obtain ⟨enough, hrun⟩ := ih s hs r hr (hsource.children.mem hs) (hresult.children.mem hmem)
        exact ⟨r, enough, hr, hrun⟩)
    refine ⟨enough + 1, ?_⟩
    intro fuel hle
    obtain ⟨fuel, rfl⟩ : ∃ k, fuel = k + 1 := ⟨fuel - 1, by omega⟩
    rw [superimpose_eq hsource hwrite]
    exact hloop fuel (by omega)

/-
A source that is superimposed twice. After the first time all its data are in the base, and the second
time leaves the heap as it is.
-/
def Settles (identifier : Bytes) (h : Heap) (base source : Element) : Prop :=
  ∃ enough h' result, Becomes h h' base result ∧ Dominates identifier source result
    ∧ Kept identifier base source result ∧ ∀ fuel, enough ≤ fuel
      → superimpose identifier fuel base.this source.this h = some h'
        ∧ superimpose identifier fuel base.this source.this h' = some h'

/--
A source with different identifiers of siblings settles, if it is the base itself or a separate tree.
-/
theorem superimpose_settles {identifier : Bytes} {h : Heap} {base source : Element} (hfresh : Fresh h)
    (hbase : Stored h [base]) (hsource : Stored h [source]) (hdistinct : Distinct identifier source)
    (hapart : source = base ∨ (addresses base).Disjoint (addresses source))
    : Settles identifier h base source := by
  rcases hapart with rfl | hapart
  . have hdominates := hdistinct.dominates (Alike.refl source)
    obtain ⟨enough, hrun⟩ := superimpose_again hdominates hsource hbase
    exact ⟨enough, h, source, .refl hbase hfresh, hdominates, hdistinct.kept,
      fun fuel hle => ⟨hrun fuel hle, hrun fuel hle⟩⟩
  . obtain ⟨enough1, h', result, hbecomes, hdominates, hkept, hrun⟩ :=
      superimposes hdistinct h base hfresh hbase hsource hapart
    obtain ⟨hsource', -⟩ := hbecomes.others hfresh hsource (by simpa using hapart)
    obtain ⟨enough2, hagain⟩ := superimpose_again hdominates hsource' hbecomes.stored
    refine ⟨max enough1 enough2, h', result, hbecomes, hdominates, hkept, ?_⟩
    intro fuel hle
    refine ⟨hrun fuel (by omega), ?_⟩
    rw [← hbecomes.this]
    exact hagain fuel (by omega)

def oldMenu : Element :=
  (Element.new 0 (chars "menu") []).add (Element.new 1 (chars "item") (chars "Open"))

def newMenu : Element :=
  ((Element.new 2 (chars "menu") []).add (Element.new 3 (chars "item") (chars "Read"))).add
    (Element.new 4 (chars "end") [])

theorem superimpose_settles_menu
    : Settles (chars "id") ((empty.load oldMenu 2).load newMenu 5) oldMenu newMenu := by
  refine superimpose_settles ?_ ⟨?_, ?_, ?_⟩ ⟨?_, ?_, ?_⟩ ⟨?_, ?_⟩ (Or.inr ?_)
  . exact (Fresh.load (fun _ _ => rfl) (by decide) (by decide)).load (by decide) (by decide)
  . decide
  . unfold SortedMap.Sorted
    decide
  . decide
  . decide
  . unfold SortedMap.Sorted
    decide
  . decide
  . decide
  . intro c hc
    have hchildren : c.children = [] := by
      simp only [newMenu, Element.new, Element.add, List.nil_append, List.singleton_append, List.mem_cons,
        List.not_mem_nil, or_false] at hc
      rcases hc with rfl | rfl <;> rfl
    exact .leaf hchildren
  . unfold List.Disjoint
    decide

/-
More fuel gives the same.
-/

theorem deepCopy_succ {r : Nat × Heap} {a : Nat} (hcopy : h.deepCopy fuel a = some r)
    : h.deepCopy (fuel + 1) a = some r := by
  induction fuel generalizing h a r with
  | zero => cases hcopy
  | succ fuel ih =>
    rw [deepCopy, Option.bind_eq_bind, Option.bind_eq_some_iff] at hcopy
    obtain ⟨n, hn, hcopy⟩ := hcopy
    dsimp only at hcopy
    rw [Option.bind_eq_bind, Option.bind_eq_some_iff] at hcopy
    obtain ⟨h1, hfold, heq⟩ := hcopy
    rw [deepCopy, hn, Option.bind_eq_bind, Option.bind_some]
    dsimp only
    rw [Runs.foldlM_mono ?_ hfold]
    . exact heq
    . intro h child h' hstep
      rw [Option.bind_eq_bind, Option.bind_eq_some_iff] at hstep ⊢
      obtain ⟨r, hr, hadd⟩ := hstep
      exact ⟨r, ih hr, hadd⟩

theorem addCopy_succ {a b : Nat} (hadd : h.addCopy fuel a b = some h') : h.addCopy (fuel + 1) a b = some h' := by
  simp only [addCopy, Option.bind_eq_bind, Option.bind_eq_some_iff] at hadd ⊢
  obtain ⟨n, hn, r, hcopy, hadd⟩ := hadd
  exact ⟨n, hn, r, deepCopy_succ hcopy, hadd⟩

theorem superimpose_succ (identifier : Bytes) (fuel : Nat)
    : (∀ a s h h', superimpose identifier fuel a s h = some h' → superimpose identifier (fuel + 1) a s h = some h')
        ∧ ∀ a s i h h', superimposeLoop identifier fuel a s i h = some h'
            → superimposeLoop identifier (fuel + 1) a s i h = some h' := by
  induction fuel with
  | zero =>
    refine ⟨?_, ?_⟩
    . intro a s h h' hrun
      rw [superimpose] at hrun
      cases hrun
    . intro a s i h h' hrun
      rw [superimposeLoop] at hrun
      cases hrun
  | succ fuel ih =>
    refine ⟨?_, ?_⟩
    . intro a s h h' hrun
      rw [superimpose] at hrun ⊢
      simp only [Option.bind_eq_bind, Option.bind_eq_some_iff] at hrun ⊢
      obtain ⟨n, hn, h1, hwrite, hrun⟩ := hrun
      exact ⟨n, hn, h1, hwrite, ih.2 a s 0 h1 h' hrun⟩
    . intro a s i h h' hrun
      rw [superimposeLoop, Option.bind_eq_bind, Option.bind_eq_some_iff] at hrun ⊢
      obtain ⟨n, hn, hrun⟩ := hrun
      refine ⟨n, hn, ?_⟩
      cases hi : n.children[i]? with
      | none =>
        rw [hi] at hrun
        exact hrun
      | some p =>
        rw [hi] at hrun
        simp only [Option.bind_eq_bind, Option.bind_eq_some_iff] at hrun ⊢
        obtain ⟨child, hchild, m, hm, found, hfound, hrun⟩ := hrun
        refine ⟨child, hchild, m, hm, found, hfound, ?_⟩
        cases found with
        | some q =>
          simp only [Option.bind_eq_some_iff] at hrun ⊢
          obtain ⟨h1, hq, hrun⟩ := hrun
          exact ⟨h1, ih.1 q p h h1 hq, ih.2 a s (i + 1) h1 h' hrun⟩
        | none =>
          simp only [Option.bind_eq_some_iff] at hrun ⊢
          obtain ⟨h1, hadd, hrun⟩ := hrun
          exact ⟨h1, addCopy_succ hadd, ih.2 a s (i + 1) h1 h' hrun⟩

theorem superimpose_mono {a s enough : Nat} (hrun : superimpose identifier enough a s h = some h')
    (hle : enough ≤ fuel)
    : superimpose identifier fuel a s h = some h' := by
  induction hle with
  | refl => exact hrun
  | step _ ih => exact (superimpose_succ identifier _).1 a s h h' ih

/-
A source that holds the base: what is added to the base is added to the source too.
-/

def outer : Element := (Element.new 0 (chars "a") []).add (Element.new 1 (chars "b") [])

def inner : Element := { Element.new 1 (chars "b") [] with parent := some 0 }

theorem not_superimpose_settles
    : ¬∀ identifier h base source, Fresh h → Stored h [base] → Stored h [source] → Distinct identifier source
        → Settles identifier h base source := by
  intro hclaim
  obtain ⟨enough, h', result, -, -, -, hrun⟩ := hclaim [] (empty.load outer 2) inner outer
    (Fresh.load (fun _ _ => rfl) (by decide) (by decide))
    ⟨by decide, by unfold SortedMap.Sorted; decide, by decide⟩
    ⟨by decide, by unfold SortedMap.Sorted; decide, by decide⟩
    ⟨by decide, by
      intro c hc
      cases List.mem_singleton.mp hc
      exact .leaf rfl⟩
  obtain ⟨hfirst, hagain⟩ := hrun (max enough 10) (Nat.le_max_left ..)
  -- The base has a copy of itself below it, then that has one, too
  have hcopy : ((superimpose [] 10 1 0 (empty.load outer 2)).bind fun h => h.nodes 2).map Node.children
      = some [] := by
    decide +kernel
  have hcopies : ((superimpose [] 10 1 0 (empty.load outer 2)).bind fun h =>
      (superimpose [] 10 1 0 h).bind fun h => h.nodes 2).map Node.children = some [3] := by
    decide +kernel
  cases hfirst' : superimpose [] 10 1 0 (empty.load outer 2) with
  | none =>
    rw [hfirst'] at hcopy
    cases hcopy
  | some h1 =>
    cases hfirst.symm.trans (superimpose_mono hfirst' (Nat.le_max_right enough 10))
    rw [hfirst', Option.bind_some] at hcopy hcopies
    cases hagain' : superimpose [] 10 1 0 h' with
    | none =>
      rw [hagain'] at hcopies
      cases hcopies
    | some h2 =>
      cases hagain.symm.trans (superimpose_mono hagain' (Nat.le_max_right enough 10))
      rw [hagain', Option.bind_some, hcopy] at hcopies
      cases hcopies

end Heap
end Xml
end ObTools
