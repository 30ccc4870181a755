import ObTools.Lib.Overlay
import ObTools.Xml.Parsed

/-!
This module contains what it means that a tree of elements is superimposed on another one. The children
of both are matched by their identifiers.
-/

namespace ObTools
namespace Xml
namespace Element

open Overlay (first place Laid Overlaid)

def ident (identifier : Bytes) (e : Element) : Bytes := (SortedMap.find identifier e.attrs).getD e.name

-- The identifiers of siblings are different
inductive Distinct (identifier : Bytes) : Element → Prop
  | mk {e : Element} (distinct : (e.children.map (ident identifier)).Nodup)
      (children : ∀ c ∈ e.children, Distinct identifier c)
    : Distinct identifier e

/-
All attributes and the content of each element of the source are those of its counterpart.
-/
inductive Dominates (identifier : Bytes) : Element → Element → Prop
  | mk {source result : Element}
      (attrs : ∀ aname aval, SortedMap.find aname source.attrs = some aval
        → SortedMap.find aname result.attrs = some aval)
      (content : source.content ≠ [] → result.content = source.content)
      (found : ∀ s ∈ source.children,
        (first (ident identifier) (ident identifier s) result.children).isSome)
      (children : ∀ s ∈ source.children, ∀ r,
        first (ident identifier) (ident identifier s) result.children = some r
          → Dominates identifier s r)
    : Dominates identifier source result

/-
What the source does not have is as before. A child without a counterpart in the source stays at its
place with all that is below it.
-/
inductive Kept (identifier : Bytes) : Element → Element → Element → Prop
  | mk {base source result : Element} (this : result.this = base.this) (name : result.name = base.name)
      (parent : result.parent = base.parent) (line : result.line = base.line)
      (attrs : ∀ aname, SortedMap.find aname source.attrs = none
        → SortedMap.find aname result.attrs = SortedMap.find aname base.attrs)
      (content : source.content = [] → result.content = base.content)
      (length : base.children.length ≤ result.children.length)
      (unchanged : ∀ (i : Nat) c, base.children[i]? = some c
        → (∀ s ∈ source.children, place (ident identifier) (ident identifier s) base.children ≠ some i)
        → result.children[i]? = some c)
      (children : ∀ s ∈ source.children, ∀ (i : Nat) c r,
        place (ident identifier) (ident identifier s) base.children = some i
          → base.children[i]? = some c → result.children[i]? = some r → Kept identifier c s r)
    : Kept identifier base source result

-- Elements that have the same data, at other addresses
inductive Alike : Element → Element → Prop
  | mk {e c : Element} (name : c.name = e.name) (content : c.content = e.content) (attrs : c.attrs = e.attrs)
      (length : c.children.length = e.children.length)
      (children : ∀ (i : Nat) d b, e.children[i]? = some d → c.children[i]? = some b → Alike d b)
    : Alike e c

variable {identifier : Bytes} {e c base source result : Element} {attrs sourceAttrs : List (Bytes × Bytes)}

/--
To show a fact about an element, it is enough to show it with the fact about its children.
-/
theorem induction {P : Element → Prop} (h : ∀ e, (∀ c ∈ e.children, P c) → P e) (e : Element) : P e := by
  refine h e ?_
  intro c hc
  exact induction h c
termination_by sizeOf e
decreasing_by
  cases e
  have := List.sizeOf_lt_of_mem hc
  simp only [Element.mk.sizeOf_spec]
  dsimp only at this
  omega

theorem Distinct.leaf (hchildren : e.children = []) : Distinct identifier e := by
  refine ⟨?_, ?_⟩
  . rw [hchildren]
    exact List.nodup_nil
  . intro c hc
    rw [hchildren] at hc
    exact absurd hc List.not_mem_nil

/-
Attributes.
-/

theorem set_sorted {key v : Bytes} (hattrs : SortedMap.Sorted attrs)
    : SortedMap.Sorted (SortedMap.set key v attrs) := by
  refine SortedMap.sorted_set List.lt_irrefl (fun _ _ _ => List.lt_trans) ?_ hattrs
  intro k l hle hne
  exact (List.le_iff_lt_or_eq.mp (List.not_lt.mp hle)).resolve_right (Ne.symm hne)

theorem copyAttrs_sorted (hattrs : SortedMap.Sorted attrs)
    : SortedMap.Sorted (Heap.copyAttrs sourceAttrs attrs) := by
  induction sourceAttrs generalizing attrs with
  | nil => exact hattrs
  | cons attr sourceAttrs ih => exact ih (set_sorted hattrs)

theorem find_copyAttrs (attrs : List (Bytes × Bytes)) (hsource : SortedMap.Sorted sourceAttrs) (aname : Bytes)
    : SortedMap.find aname (Heap.copyAttrs sourceAttrs attrs)
        = (SortedMap.find aname sourceAttrs).or (SortedMap.find aname attrs) := by
  induction sourceAttrs generalizing attrs with
  | nil => rfl
  | cons attr sourceAttrs ih =>
    obtain ⟨hfirst, hrest⟩ := List.pairwise_cons.mp hsource
    have hstep : Heap.copyAttrs (attr :: sourceAttrs) attrs
        = Heap.copyAttrs sourceAttrs (SortedMap.set attr.1 attr.2 attrs) := rfl
    rw [hstep, ih _ hrest]
    by_cases heq : attr.1 = aname
    . have hnone : SortedMap.find aname sourceAttrs = none := by
        cases hfind : SortedMap.find aname sourceAttrs with
        | none => rfl
        | some aval =>
          have hlt := hfirst _ (SortedMap.mem_of_find hfind)
          rw [heq] at hlt
          exact absurd hlt (List.lt_irrefl aname)
      rw [hnone, Option.none_or, ← heq, SortedMap.find_set_self]
      unfold SortedMap.find
      rw [List.find?_cons_of_pos (by simp)]
      rfl
    . rw [SortedMap.find_set_of_ne (Ne.symm heq)]
      unfold SortedMap.find
      rw [List.find?_cons_of_neg (by simpa using heq)]

-- Attributes that are there already
theorem copyAttrs_of_find (hsource : SortedMap.Sorted sourceAttrs) (hattrs : SortedMap.Sorted attrs)
    (hfind : ∀ aname aval, SortedMap.find aname sourceAttrs = some aval → SortedMap.find aname attrs = some aval)
    : Heap.copyAttrs sourceAttrs attrs = attrs := by
  have hmem : ∀ attr ∈ sourceAttrs, SortedMap.find attr.1 attrs = some attr.2 :=
    fun attr hattr => hfind _ _ (SortedMap.find_of_mem List.lt_irrefl hsource hattr)
  clear hfind hsource
  induction sourceAttrs with
  | nil => rfl
  | cons attr sourceAttrs ih =>
    rw [List.forall_mem_cons] at hmem
    have hset := SortedMap.set_of_find List.lt_irrefl (fun _ _ _ => List.lt_trans) hattrs hmem.1
    have hstep : Heap.copyAttrs (attr :: sourceAttrs) attrs
        = Heap.copyAttrs sourceAttrs (SortedMap.set attr.1 attr.2 attrs) := rfl
    rw [hstep, hset]
    exact ih hmem.2

/-
Identifiers.
-/

theorem Alike.ident_eq (h : Alike e c) : ident identifier c = ident identifier e := by
  cases h with
  | mk name _ attrs => rw [ident, ident, name, attrs]

/--
An element that is superimposed by one with the same identifier keeps it.
-/
theorem ident_superimposed (hdominates : Dominates identifier source result)
    (hkept : Kept identifier base source result) (hsame : ident identifier base = ident identifier source)
    : ident identifier result = ident identifier source := by
  cases hdominates with
  | mk attrs =>
    cases hkept with
    | mk _ name _ _ keptAttrs =>
      cases hfind : SortedMap.find identifier source.attrs with
      | some aval => rw [ident, ident, attrs _ _ hfind, hfind, Option.getD_some, Option.getD_some]
      | none => rw [← hsame, ident, ident, keptAttrs _ hfind, name]

theorem Alike.attach (h : Alike e c) (parent : Option Nat) : Alike e { c with parent := parent } := by
  cases h with
  | mk name content attrs length children => exact ⟨name, content, attrs, length, children⟩

/-
Trees that are superimposed on themselves or on nothing.
-/

theorem Alike.refl (e : Element) : Alike e e := by
  induction e using Element.induction with
  | h e ih =>
    refine ⟨rfl, rfl, rfl, rfl, ?_⟩
    intro i d b hd hb
    rw [hd] at hb
    cases hb
    exact ih d (List.mem_of_getElem? hd)

theorem Alike.map_ident (identifier : Bytes) (h : Alike e c)
    : c.children.map (ident identifier) = e.children.map (ident identifier) := by
  cases h with
  | mk _ _ _ length children =>
    refine List.ext_getElem (by rw [List.length_map, List.length_map, length]) ?_
    intro i hi hi'
    rw [List.length_map] at hi hi'
    rw [List.getElem_map, List.getElem_map]
    exact (children i _ _ (List.getElem?_eq_getElem hi') (List.getElem?_eq_getElem hi)).ident_eq

theorem Distinct.dominates (h : Distinct identifier e) (halike : Alike e c) : Dominates identifier e c := by
  induction h generalizing c with
  | @mk e distinct children ih =>
    have hmap := halike.map_ident identifier
    cases halike with
    | mk name content attrs length alike =>
      have hfirst (s : Element) (hs : s ∈ e.children)
          : ∃ r, first (ident identifier) (ident identifier s) c.children = some r ∧ Alike s r := by
        obtain ⟨i, hi⟩ := List.getElem?_of_mem hs
        obtain ⟨hlt, -⟩ := List.getElem?_eq_some_iff.mp hi
        have hlt' : i < c.children.length := by omega
        have hr : c.children[i]? = some c.children[i] := List.getElem?_eq_getElem hlt'
        have hsr := alike i s _ hi hr
        refine ⟨_, ?_, hsr⟩
        rw [← hsr.ident_eq]
        exact Overlay.first_of_nodup (hmap ▸ distinct) (List.mem_of_getElem? hr)
      refine ⟨?_, ?_, ?_, ?_⟩
      . intro aname aval hfind
        rw [attrs, hfind]
      . intro _
        exact content
      . intro s hs
        obtain ⟨r, hr, -⟩ := hfirst s hs
        rw [hr]
        rfl
      . intro s hs r hr
        obtain ⟨r', hr', hsr⟩ := hfirst s hs
        rw [hr'] at hr
        cases hr
        exact ih s hs hsr

theorem Distinct.kept (h : Distinct identifier e) : Kept identifier e e e := by
  induction h with
  | @mk e distinct children ih =>
    refine ⟨rfl, rfl, rfl, rfl, fun _ _ => rfl, fun _ => rfl, Nat.le_refl _, fun _ _ hc _ => hc, ?_⟩
    intro s hs i c r hplace hc hr
    rw [hc] at hr
    cases hr
    have hmem : c ∈ e.children := List.mem_of_getElem? hc
    have heq := List.inj_on_of_nodup_map distinct hmem hs (Overlay.place_key hplace hc)
    rw [heq]
    exact ih s hs

end Element
end Xml
end ObTools
