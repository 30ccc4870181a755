import ObTools.Xml.Paths

/-!
This module contains the proof that `ensure_path` adds the elements of a path that are missing, and no others.
-/

namespace ObTools
namespace Xml
namespace Heap

open ObTools.Lex (chars)

-- The first child of the name
def firstChild (h : Heap) (e : Nat) (name : Bytes) : Option Nat :=
  (h.nodes e).bind fun n => (h.sameNamed name n.children).head?

-- Where the names lead, along the first child of each name
def leads (h : Heap) : Nat → List Bytes → Option Nat
  | e, [] => some e
  | e, name :: names => (h.firstChild e name).bind fun child => leads h child names

-- The heap with elements of the given names below an element, each the child of the one before
def extended (h : Heap) (top : Nat) (names : List Bytes) : Heap where
  nodes := fun a =>
    if a < h.next then
      (h.nodes a).map fun n =>
        if a = top ∧ names ≠ [] then { n with children := n.children ++ [h.next] } else n
    else
      names[a - h.next]?.map fun name =>
        { name := name
          content := []
          attrs := []
          children := if a + 1 < h.next + names.length then [a + 1] else []
          parent := some (if a = h.next then top else a - 1)
          line := 0 }
  next := h.next + names.length

-- A path of plain names, with or without a / before it
def pathOf (absolute : Bool) (names : List Bytes) : Bytes :=
  if absolute then joined names else (joined names).tail

/-
An element that all of the path leads to, in a heap where only what was missing of the path has been added.
-/
structure Ensured (h h' : Heap) (root : Nat) (path : Bytes) (names : List Bytes) (e : Nat) : Prop where
  found : h'.getElement root path = some (some e)
  added : ∃ existing missing top, names = existing ++ missing ∧ h.leads root existing = some top
    ∧ (∀ name ∈ missing.head?, h.firstChild top name = none) ∧ h' = h.extended top missing
  kept : ∀ a n, h.nodes a = some n → ∃ n', h'.nodes a = some n' ∧ n'.name = n.name ∧ n'.content = n.content
    ∧ n'.attrs = n.attrs ∧ n'.parent = n.parent ∧ n'.line = n.line ∧ n.children <+: n'.children
  again : h'.ensurePath root path = some (e, h')

-- The children of all elements are there
def Live (h : Heap) : Prop := ∀ a n, h.nodes a = some n → ∀ c ∈ n.children, ∃ m, h.nodes c = some m

/-
Elements whose children are there, at addresses that are not new. Their parents do not matter.
-/
structure Closed (h : Heap) : Prop where
  live : Live h
  fresh : ∀ a, h.next ≤ a → h.nodes a = none

variable {h h' : Heap} {root top e child : Nat} {n m : Node} {name : Bytes} {names missing : List Bytes}
variable {absolute : Bool}

theorem WellFormed.closed (hwf : WellFormed h) : Closed h where
  live := fun _ _ ha => (Separate.siblings hwf ha (List.Sublist.refl _)).live
  fresh := hwf.fresh

theorem Closed.lt (hclosed : Closed h) (he : h.nodes e = some n) : e < h.next := by
  by_contra hle
  rw [hclosed.fresh e (Nat.le_of_not_lt hle)] at he
  cases he

/-
Paths of plain names.
-/

theorem follow_names (hlive : Live h) (he : h.nodes e = some n) (hplain : ∀ s ∈ names, 91 ∉ s)
    : ∃ els, h.follow names e = some els ∧ els.head? = h.leads e names := by
  induction names generalizing e n with
  | nil => exact ⟨[e], rfl, rfl⟩
  | cons name names ih =>
    rw [List.forall_mem_cons] at hplain
    have hfirst : h.firstChild e name = (h.sameNamed name n.children)[0]? := by
      unfold firstChild
      rw [he, Option.bind_some, List.head?_eq_getElem?]
    have hchildren : h.getChildren e name = some (h.sameNamed name n.children) := by
      rw [getChildren, he]
      exact named_eq (hlive e n he) name
    rw [follow, leads, readStep_plain hplain.1, hfirst]
    dsimp only
    rw [hchildren, Option.bind_eq_bind, Option.bind_some]
    split
    . next hlast =>
      refine ⟨_, rfl, ?_⟩
      rw [hlast.1, List.head?_eq_getElem?]
      cases (h.sameNamed name n.children)[0]? <;> rfl
    . rw [show (-1 : Int).toNat = 0 from rfl]
      cases hget : (h.sameNamed name n.children)[0]? with
      | none => exact ⟨[], rfl, rfl⟩
      | some child =>
        have hmem : child ∈ n.children := (List.mem_filter.mp (List.mem_of_getElem? hget)).1
        obtain ⟨m, hm⟩ := hlive e n he child hmem
        exact ih hm hplain.2

/--
A path of plain names leads along the first children of these names.
-/
theorem getElement_pathOf (hlive : Live h) (hroot : h.nodes root = some n)
    (hplain : ∀ s ∈ names, s ≠ [] ∧ 47 ∉ s ∧ 91 ∉ s)
    : h.getElement root (pathOf absolute names) = some (h.leads root names) := by
  have hfollow : h.getElements root (pathOf absolute names) = h.follow names root := by
    cases names with
    | nil => cases absolute <;> rfl
    | cons name names =>
      have hslash : ∀ s ∈ name :: names, 47 ∉ s := fun s hs => (hplain s hs).2.1
      have hnext : ∀ s ∈ names, s ≠ [] := fun s hs => (hplain s (List.mem_cons_of_mem name hs)).1
      have hne := (hplain name List.mem_cons_self).1
      cases absolute with
      | true => exact getElements_joined hslash hnext fun hnil => absurd hnil hne
      | false => exact getElements_relative hslash hnext hne
  obtain ⟨els, hels, hhead⟩ := follow_names hlive hroot fun s hs => (hplain s hs).2.2
  unfold getElement
  rw [hfollow, hels, Option.map_some, hhead]

theorem leads_append (e : Nat) (names names' : List Bytes)
    : h.leads e (names ++ names') = (h.leads e names).bind fun top => h.leads top names' := by
  induction names generalizing e with
  | nil => rfl
  | cons name names ih =>
    rw [List.cons_append, leads, leads]
    cases h.firstChild e name with
    | none => rfl
    | some child => exact ih child

theorem leads_concat (e : Nat) (names : List Bytes) (name : Bytes)
    : h.leads e (names ++ [name]) = (h.leads e names).bind fun top => h.firstChild top name := by
  rw [leads_append]
  congr 1
  funext top
  rw [leads]
  cases h.firstChild top name <;> rfl

/-
The elements that are added.
-/

-- The last one of them, or the element that they are added to
def lastOf (h : Heap) (top : Nat) (names : List Bytes) : Nat :=
  if names = [] then top else h.next + names.length - 1

theorem eq_of_nodes (hnodes : h.nodes = h'.nodes) (hnext : h.next = h'.next) : h = h' := by
  cases h
  cases h'
  cases hnodes
  cases hnext
  rfl

theorem extended_nil (hclosed : Closed h) (top : Nat) : h.extended top [] = h := by
  have hnodes : (h.extended top []).nodes = h.nodes := by
    funext a
    unfold extended
    dsimp only
    split
    . cases h.nodes a with
      | none => rfl
      | some n => simp
    . next hlt => rw [hclosed.fresh a (Nat.le_of_not_lt hlt), List.getElem?_nil, Option.map_none]
  exact eq_of_nodes hnodes rfl

theorem extended_old (hclosed : Closed h) (ha : h.nodes e = some n)
    : (h.extended top names).nodes e
        = some (if e = top ∧ names ≠ [] then { n with children := n.children ++ [h.next] } else n) := by
  unfold extended
  dsimp only
  rw [if_pos (hclosed.lt ha), ha, Option.map_some]

theorem extended_new (h : Heap) (top : Nat) {i : Nat} (hi : i < names.length)
    : (h.extended top names).nodes (h.next + i)
        = some
            { name := names[i]
              content := []
              attrs := []
              children := if i + 1 < names.length then [h.next + i + 1] else []
              parent := some (if i = 0 then top else h.next + i - 1)
              line := 0 } := by
  unfold extended
  dsimp only
  rw [if_neg (by omega), Nat.add_sub_cancel_left, List.getElem?_eq_getElem hi, Option.map_some]
  congr 2
  . split <;> split <;> first | rfl | omega
  . congr 1
    split <;> split <;> first | rfl | omega

theorem extended_fresh {a : Nat} (ha : h.next + names.length ≤ a) : (h.extended top names).nodes a = none := by
  unfold extended
  dsimp only
  rw [if_neg (by omega), List.getElem?_eq_none (by omega), Option.map_none]

theorem hasName_extended (hclosed : Closed h) (ha : h.nodes e = some n)
    : (h.extended top names).hasName name e = h.hasName name e := by
  unfold hasName
  rw [extended_old hclosed ha, ha]
  simp only [Option.any_some]
  split <;> rfl

theorem hasName_new (h : Heap) (top : Nat) (names : List Bytes) (name : Bytes) {i : Nat} (hi : i < names.length)
    : (h.extended top names).hasName name (h.next + i) = decide (names[i] = name) := by
  unfold hasName
  rw [extended_new h top hi]
  rfl

theorem sameNamed_extended (hclosed : Closed h) (ha : h.nodes e = some n) (top : Nat) (names : List Bytes)
    (name : Bytes)
    : (h.extended top names).sameNamed name n.children = h.sameNamed name n.children := by
  apply List.filter_congr
  intro c hc
  obtain ⟨m, hm⟩ := hclosed.live e n ha c hc
  exact hasName_extended hclosed hm

theorem live_extended (hclosed : Closed h) (top : Nat) (names : List Bytes) : Live (h.extended top names) := by
  intro a n ha c hc
  rcases Nat.lt_or_ge a h.next with hlt | hge
  . have hold : ∃ n', h.nodes a = some n' := by
      unfold extended at ha
      dsimp only at ha
      rw [if_pos hlt, Option.map_eq_some_iff] at ha
      exact ⟨ha.choose, ha.choose_spec.1⟩
    obtain ⟨n', hn'⟩ := hold
    rw [extended_old hclosed hn', Option.some_inj] at ha
    subst ha
    split at hc
    . next hadd =>
      rw [List.mem_append, List.mem_singleton] at hc
      rcases hc with hc | rfl
      . obtain ⟨m, hm⟩ := hclosed.live a n' hn' c hc
        exact ⟨_, extended_old hclosed hm⟩
      . exact ⟨_, extended_new h top (i := 0) (List.length_pos_of_ne_nil hadd.2)⟩
    . obtain ⟨m, hm⟩ := hclosed.live a n' hn' c hc
      exact ⟨_, extended_old hclosed hm⟩
  . obtain ⟨i, rfl⟩ := Nat.exists_eq_add_of_le hge
    rcases Nat.lt_or_ge i names.length with hi | hi
    . rw [extended_new h top hi, Option.some_inj] at ha
      subst ha
      dsimp only at hc
      split at hc
      . next hnext =>
        rw [List.mem_singleton] at hc
        subst hc
        exact ⟨_, extended_new h top (i := i + 1) hnext⟩
      . exact absurd hc List.not_mem_nil
    . rw [extended_fresh (by omega)] at ha
      cases ha

/-
Where the names lead afterwards.
-/

theorem firstChild_extended (hclosed : Closed h) (hchild : h.firstChild e name = some child)
    : (h.extended top names).firstChild e name = some child := by
  unfold firstChild at hchild ⊢
  rw [Option.bind_eq_some_iff] at hchild
  obtain ⟨n, ha, hhead⟩ := hchild
  rw [extended_old hclosed ha, Option.bind_some]
  split
  . dsimp only
    unfold sameNamed at hhead ⊢
    rw [List.filter_append, List.head?_append]
    have hsame := sameNamed_extended hclosed ha top names name
    unfold sameNamed at hsame
    rw [hsame, hhead]
    rfl
  . rw [sameNamed_extended hclosed ha top names name]
    exact hhead

theorem leads_extended (hclosed : Closed h) {existing : List Bytes} (hleads : h.leads e existing = some child)
    : (h.extended top names).leads e existing = some child := by
  induction existing generalizing e with
  | nil => exact hleads
  | cons name existing ih =>
    rw [leads, Option.bind_eq_some_iff] at hleads
    obtain ⟨c, hc, hleads⟩ := hleads
    rw [leads, firstChild_extended hclosed hc, Option.bind_some]
    exact ih hleads

-- Down along the elements that have been added
theorem leads_new {i : Nat} (hi : i < names.length)
    : (h.extended top names).leads (h.next + i) (names.drop (i + 1)) = some (h.next + names.length - 1) := by
  rcases Nat.lt_or_ge (i + 1) names.length with hnext | hlast
  . rw [List.drop_eq_getElem_cons hnext, leads]
    have hfirst : (h.extended top names).firstChild (h.next + i) names[i + 1] = some (h.next + (i + 1)) := by
      unfold firstChild
      rw [extended_new h top hi, Option.bind_some]
      dsimp only
      rw [if_pos hnext]
      unfold sameNamed
      rw [List.filter_cons_of_pos]
      . rfl
      . rw [Nat.add_assoc, hasName_new h top names _ hnext]
        simp
    rw [hfirst, Option.bind_some]
    exact leads_new hnext
  . rw [List.drop_eq_nil_of_le hlast, leads]
    congr 1
    omega
termination_by names.length - i

theorem leads_missing (hclosed : Closed h) (htop : h.nodes top = some n)
    (hmissing : ∀ name ∈ missing.head?, h.firstChild top name = none)
    : (h.extended top missing).leads top missing = some (h.lastOf top missing) := by
  cases missing with
  | nil => rfl
  | cons name names =>
    have hnone := hmissing name rfl
    have hfirst : (h.extended top (name :: names)).firstChild top name = some h.next := by
      unfold firstChild at hnone ⊢
      rw [htop, Option.bind_some] at hnone
      rw [extended_old hclosed htop, Option.bind_some, if_pos ⟨rfl, List.cons_ne_nil _ _⟩]
      have hsame := sameNamed_extended hclosed htop top (name :: names) name
      unfold sameNamed at hsame hnone ⊢
      dsimp only
      rw [List.filter_append, hsame, List.head?_append, hnone, Option.none_or, List.filter_cons_of_pos]
      . rfl
      . have hnew := hasName_new h top (name :: names) name (Nat.zero_lt_succ names.length)
        exact hnew.trans (by simp)
    rw [leads, hfirst, Option.bind_some]
    unfold lastOf
    rw [if_neg (List.cons_ne_nil _ _)]
    exact leads_new (i := 0) (Nat.zero_lt_succ _)

/-
The last element that is added.
-/

theorem lastOf_nodes (hclosed : Closed h) (htop : h.nodes top = some n) (names : List Bytes)
    : ∃ m, (h.extended top names).nodes (h.lastOf top names) = some m := by
  unfold lastOf
  split
  . exact ⟨_, extended_old hclosed htop⟩
  . next hne =>
    have hpos := List.length_pos_of_ne_nil hne
    have hlast := extended_new h top (by omega : names.length - 1 < names.length)
    rw [← Nat.add_sub_assoc hpos] at hlast
    exact ⟨_, hlast⟩

theorem lastOf_lt (hclosed : Closed h) (htop : h.nodes top = some n) : h.lastOf top names < h.next + names.length := by
  unfold lastOf
  have hlt := hclosed.lt htop
  split
  . omega
  . next hne =>
    have hpos := List.length_pos_of_ne_nil hne
    omega

-- The node that one more element gets its place in
theorem extended_concat_last (hclosed : Closed h) (htop : h.nodes top = some n)
    (hm : (h.extended top names).nodes (h.lastOf top names) = some m)
    : (h.extended top (names ++ [name])).nodes (h.lastOf top names)
        = some { m with children := m.children ++ [h.next + names.length] } := by
  unfold lastOf at hm ⊢
  split at hm
  . next hnil =>
    subst hnil
    rw [extended_old hclosed htop, if_neg (by simp), Option.some_inj] at hm
    rw [if_pos rfl, extended_old hclosed htop, if_pos ⟨rfl, by simp⟩, hm]
    rfl
  . next hne =>
    have hpos := List.length_pos_of_ne_nil hne
    obtain ⟨i, hi⟩ : ∃ i, names.length = i + 1 := ⟨names.length - 1, by omega⟩
    have hindex : h.next + names.length - 1 = h.next + i := by omega
    rw [hindex, extended_new h top (by omega), Option.some_inj] at hm
    have hlength : (names ++ [name]).length = names.length + 1 := by
      rw [List.length_append, List.length_singleton]
    have hchildren : (if i + 1 < (names ++ [name]).length then [h.next + i + 1] else [])
        = (if i + 1 < names.length then [h.next + i + 1] else []) ++ [h.next + names.length] := by
      rw [if_pos (by omega), if_neg (by omega), hi]
      rfl
    rw [if_neg hne, hindex, extended_new h top (by omega), ← hm, List.getElem_append_left (by omega), hchildren]

-- The other nodes
theorem extended_concat_other {a : Nat} (hlast : a ≠ h.lastOf top names) (hnew : a ≠ h.next + names.length)
    : (h.extended top (names ++ [name])).nodes a = (h.extended top names).nodes a := by
  unfold lastOf at hlast
  unfold extended
  dsimp only
  split
  . congr 1
    funext n
    by_cases htop : a = top
    . have hne : names ≠ [] := by
        intro hnil
        rw [if_pos hnil] at hlast
        exact hlast htop
      rw [if_pos ⟨htop, by simp⟩, if_pos ⟨htop, hne⟩]
    . rw [if_neg (fun h => htop h.1), if_neg (fun h => htop h.1)]
  . next hge =>
    rcases Nat.lt_or_ge (a - h.next) names.length with hi | hi
    . have hne : names ≠ [] := List.ne_nil_of_length_pos (by omega)
      rw [if_neg hne] at hlast
      rw [List.getElem?_append_left hi, List.length_append, List.length_singleton]
      have hbelow : a + 1 < h.next + names.length := by omega
      have hbelow' : a + 1 < h.next + (names.length + 1) := by omega
      rw [if_pos hbelow, if_pos hbelow']
    . have hlength : (names ++ [name]).length ≤ a - h.next := by
        rw [List.length_append, List.length_singleton]
        omega
      rw [List.getElem?_eq_none hlength, List.getElem?_eq_none hi]
      rfl

theorem extended_concat (hclosed : Closed h) (htop : h.nodes top = some n)
    : ((h.extended top names).create name [] []).2.add (h.lastOf top names) (h.next + names.length)
        = some (h.extended top (names ++ [name])) := by
  obtain ⟨m, hm⟩ := lastOf_nodes hclosed htop names
  have hne : h.lastOf top names ≠ h.next + names.length := Nat.ne_of_lt (lastOf_lt hclosed htop)
  have hcreate : ((h.extended top names).create name [] []).2.nodes
      = Function.update (h.extended top names).nodes (h.next + names.length)
          (some { name := name, content := [], attrs := [], children := [], parent := none, line := 0 }) := rfl
  have hm' : ((h.extended top names).create name [] []).2.nodes (h.lastOf top names) = some m := by
    rw [hcreate, Function.update_of_ne hne]
    exact hm
  rw [add, write_eq hm', Option.bind_eq_bind, Option.bind_some]
  have hnew : (Function.update ((h.extended top names).create name [] []).2.nodes (h.lastOf top names)
      (some { m with children := m.children ++ [h.next + names.length] })) (h.next + names.length)
      = some { name := name, content := [], attrs := [], children := [], parent := none, line := 0 } := by
    rw [Function.update_of_ne hne.symm, hcreate, Function.update_self]
  rw [write_eq hnew, Option.some_inj]
  apply eq_of_nodes
  . funext a
    dsimp only
    by_cases ha : a = h.next + names.length
    . subst ha
      rw [Function.update_self]
      have hlength : names.length < (names ++ [name]).length := by
        rw [List.length_append, List.length_singleton]
        omega
      rw [extended_new h top hlength, List.length_append, List.length_singleton, if_neg (Nat.lt_irrefl _),
        List.getElem_concat_length rfl]
      unfold lastOf
      simp only [List.length_eq_zero_iff]
    . rw [Function.update_of_ne ha]
      by_cases hlast : a = h.lastOf top names
      . rw [hlast, Function.update_self]
        exact (extended_concat_last hclosed htop hm).symm
      . rw [Function.update_of_ne hlast, extended_concat_other hlast ha, hcreate, Function.update_of_ne ha]
  . show h.next + names.length + 1 = h.next + (names ++ [name]).length
    rw [List.length_append, List.length_singleton]
    rfl

/-
The last / of a path.
-/

theorem rfind_eq_none {c : UInt8} {s : Bytes} (hc : c ∉ s) : rfind c s = none := by
  induction s with
  | nil => rfl
  | cons d s ih =>
    rw [List.mem_cons, not_or] at hc
    rw [rfind, ih hc.2]
    exact if_neg (Ne.symm hc.1)

theorem rfind_append {c : UInt8} {s : Bytes} (hc : c ∉ s) (before : Bytes)
    : rfind c (before ++ c :: s) = some before.length := by
  induction before with
  | nil =>
    rw [List.nil_append, rfind, rfind_eq_none hc]
    exact if_pos rfl
  | cons d before ih =>
    rw [List.cons_append, rfind, ih]
    rfl

theorem pathOf_singleton (absolute : Bool) (name : Bytes)
    : pathOf absolute [name] = if absolute then 47 :: name else name := by
  unfold pathOf joined
  rw [List.flatMap_singleton]
  rfl

theorem pathOf_concat (absolute : Bool) (hne : names ≠ []) (name : Bytes)
    : pathOf absolute (names ++ [name]) = pathOf absolute names ++ 47 :: name := by
  unfold pathOf joined
  rw [List.flatMap_append, List.flatMap_singleton]
  split
  . rfl
  . rw [List.tail_append_of_ne_nil]
    cases names with
    | nil => exact absurd rfl hne
    | cons name names => exact List.cons_ne_nil _ _

theorem pathOf_ne_nil (hplain : ∀ s ∈ names, s ≠ []) (hne : names ≠ []) : pathOf absolute names ≠ [] := by
  unfold pathOf
  cases names with
  | nil => exact absurd rfl hne
  | cons name names =>
    rw [List.forall_mem_cons] at hplain
    cases absolute with
    | true => exact List.cons_ne_nil _ _
    | false => exact List.append_ne_nil_of_left_ne_nil hplain.1 _

theorem leads_live (hlive : Live h) (he : h.nodes e = some n) (hleads : h.leads e names = some child)
    : ∃ m, h.nodes child = some m := by
  induction names generalizing e n with
  | nil =>
    cases hleads
    exact ⟨n, he⟩
  | cons name names ih =>
    rw [leads, Option.bind_eq_some_iff] at hleads
    obtain ⟨c, hc, hleads⟩ := hleads
    unfold firstChild at hc
    rw [he, Option.bind_some] at hc
    have hmem : c ∈ n.children := (List.mem_filter.mp (List.mem_of_mem_head? hc)).1
    obtain ⟨m, hm⟩ := hlive e n he c hmem
    exact ih hm hleads

theorem ensurePathLoop_found {fuel : Nat} {path : Bytes} (hget : h.getElement root path = some (some e))
    : ensurePathLoop root (fuel + 1) path h = some (e, h) := by
  rw [ensurePathLoop, hget, Option.bind_eq_bind, Option.bind_some]
  rfl

/-
What is made at the end of a path, once the parent is there.
-/
theorem ensurePathLoop_missing {fuel : Nat} {path : Bytes} (hclosed : Closed h) (htop : h.nodes top = some n)
    (hget : h.getElement root path = some none)
    (hparent : (match rfind 47 path with
      | some (delim + 1) => ensurePathLoop root fuel (path.take (delim + 1)) h
      | _ => some (root, h)) = some (h.lastOf top missing, h.extended top missing))
    (hname : (match rfind 47 path with
      | some delim => path.drop (delim + 1)
      | none => path) = name)
    : ensurePathLoop root (fuel + 1) path h
        = some (h.lastOf top (missing ++ [name]), h.extended top (missing ++ [name])) := by
  have hlast : h.lastOf top (missing ++ [name]) = h.next + missing.length := by
    unfold lastOf
    rw [if_neg (by simp), List.length_append, List.length_singleton]
    rfl
  have hadd : ((h.extended top missing).create name [] []).2.add (h.lastOf top missing) (h.next + missing.length)
      = some (h.extended top (missing ++ [name])) := extended_concat hclosed htop
  have hnew : ((h.extended top missing).create name [] []).1 = h.next + missing.length := rfl
  rw [ensurePathLoop, hget, Option.bind_eq_bind, Option.bind_some, hlast]
  dsimp only
  cases hslash : rfind 47 path with
  | none =>
    rw [hslash] at hparent hname
    dsimp only at hparent hname ⊢
    rw [hparent, hname, Option.bind_eq_bind, Option.bind_some]
    dsimp only
    rw [hnew, hadd]
    rfl
  | some delim =>
    rw [hslash] at hparent hname
    dsimp only at hname ⊢
    cases delim with
    | zero =>
      dsimp only at hparent ⊢
      rw [hparent, hname, Option.bind_eq_bind, Option.bind_some]
      dsimp only
      rw [hnew, hadd]
      rfl
    | succ delim =>
      dsimp only at hparent ⊢
      rw [hparent, hname, Option.bind_eq_bind, Option.bind_some]
      dsimp only
      rw [hnew, hadd]
      rfl

/--
The elements that are missing are made, from the parent on.
-/
theorem ensurePathLoop_spec {fuel : Nat} (hclosed : Closed h) (hroot : h.nodes root = some n)
    (hplain : ∀ s ∈ names, s ≠ [] ∧ 47 ∉ s ∧ 91 ∉ s) (hfuel : (pathOf absolute names).length < fuel)
    : ∃ existing missing top, names = existing ++ missing ∧ h.leads root existing = some top
        ∧ (∀ name ∈ missing.head?, h.firstChild top name = none)
        ∧ ensurePathLoop root fuel (pathOf absolute names) h
          = some (h.lastOf top missing, h.extended top missing) := by
  induction names using List.reverseRecOn generalizing fuel with
  | nil =>
    refine ⟨[], [], root, rfl, rfl, by simp, ?_⟩
    obtain ⟨fuel, rfl⟩ := Nat.exists_eq_succ_of_ne_zero (Nat.ne_of_gt (Nat.zero_lt_of_lt hfuel))
    rw [extended_nil hclosed]
    exact ensurePathLoop_found (getElement_pathOf hclosed.live hroot hplain)
  | append_singleton names name ih =>
    obtain ⟨fuel, rfl⟩ := Nat.exists_eq_succ_of_ne_zero (Nat.ne_of_gt (Nat.zero_lt_of_lt hfuel))
    have hget : h.getElement root (pathOf absolute (names ++ [name])) = some (h.leads root (names ++ [name])) :=
      getElement_pathOf hclosed.live hroot hplain
    rw [List.forall_mem_append, List.forall_mem_singleton] at hplain
    cases hleads : h.leads root (names ++ [name]) with
    | some e =>
      rw [hleads] at hget
      refine ⟨names ++ [name], [], e, (List.append_nil _).symm, hleads, by simp, ?_⟩
      rw [extended_nil hclosed]
      exact ensurePathLoop_found hget
    | none =>
      rw [hleads] at hget
      have hslash : 47 ∉ name := hplain.2.2.1
      have hparent : ∃ existing missing top, names = existing ++ missing ∧ h.leads root existing = some top
          ∧ (∀ name ∈ missing.head?, h.firstChild top name = none)
          ∧ (match rfind 47 (pathOf absolute (names ++ [name])) with
            | some (delim + 1) =>
              ensurePathLoop root fuel ((pathOf absolute (names ++ [name])).take (delim + 1)) h
            | _ => some (root, h)) = some (h.lastOf top missing, h.extended top missing)
          ∧ (match rfind 47 (pathOf absolute (names ++ [name])) with
            | some delim => (pathOf absolute (names ++ [name])).drop (delim + 1)
            | none => pathOf absolute (names ++ [name])) = name := by
        cases names with
        | nil =>
          refine ⟨[], [], root, rfl, rfl, by simp, ?_⟩
          rw [extended_nil hclosed, List.nil_append, pathOf_singleton]
          cases absolute with
          | true =>
            rw [if_pos rfl, show rfind 47 (47 :: name) = some 0 from rfind_append hslash []]
            exact ⟨rfl, rfl⟩
          | false =>
            rw [if_neg (by simp), rfind_eq_none hslash]
            exact ⟨rfl, rfl⟩
        | cons first names =>
          have hne : first :: names ≠ [] := List.cons_ne_nil _ _
          have hpath : pathOf absolute (first :: names) ≠ [] := pathOf_ne_nil (fun s hs => (hplain.1 s hs).1) hne
          have hpos := List.length_pos_of_ne_nil hpath
          rw [pathOf_concat absolute hne name] at hfuel ⊢
          rw [List.length_append, List.length_cons] at hfuel
          have hlt : (pathOf absolute (first :: names)).length < fuel := by omega
          obtain ⟨existing, missing, top, hnames, htop, hmissing, hloop⟩ := ih hplain.1 hlt
          refine ⟨existing, missing, top, hnames, htop, hmissing, ?_⟩
          rw [rfind_append hslash]
          obtain ⟨delim, hdelim⟩ := Nat.exists_eq_succ_of_ne_zero (Nat.ne_of_gt hpos)
          rw [hdelim]
          dsimp only
          rw [← Nat.succ_eq_add_one, ← hdelim, List.take_left, ← List.drop_drop, List.drop_left]
          exact ⟨hloop, rfl⟩
      obtain ⟨existing, missing, top, rfl, htop, hmissing, hloop, hname⟩ := hparent
      obtain ⟨m, hm⟩ := leads_live hclosed.live hroot htop
      refine ⟨existing, missing ++ [name], top, List.append_assoc .., htop, ?_,
        ensurePathLoop_missing hclosed hm hget hloop hname⟩
      cases missing with
      | nil =>
        rw [List.append_nil, leads_concat, htop, Option.bind_some] at hleads
        intro s hs
        cases hs
        exact hleads
      | cons first missing => exact hmissing

/--
All of a path is there after it has been ensured, and nothing else is added or changed.
-/
theorem ensurePath_ensures (h : Heap) (root : Nat) (n : Node) (absolute : Bool) (names : List Bytes)
    (hclosed : Closed h) (hroot : h.nodes root = some n) (hplain : ∀ s ∈ names, s ≠ [] ∧ 47 ∉ s ∧ 91 ∉ s)
    : ∃ e h', h.ensurePath root (pathOf absolute names) = some (e, h')
        ∧ Ensured h h' root (pathOf absolute names) names e := by
  obtain ⟨existing, missing, top, hnames, htop, hmissing, hloop⟩ :=
    ensurePathLoop_spec hclosed hroot hplain (Nat.lt_succ_self (pathOf absolute names).length)
  obtain ⟨m, hm⟩ := leads_live hclosed.live hroot htop
  have hfound : (h.extended top missing).getElement root (pathOf absolute names) = some (some (h.lastOf top missing)) := by
    rw [getElement_pathOf (live_extended hclosed top missing) (extended_old hclosed hroot) hplain, hnames, leads_append,
      leads_extended hclosed htop, Option.bind_some, leads_missing hclosed hm hmissing]
  refine ⟨h.lastOf top missing, h.extended top missing, hloop, ?_, ?_, ?_, ?_⟩
  . exact hfound
  . exact ⟨existing, missing, top, hnames, htop, hmissing, rfl⟩
  . intro a n ha
    refine ⟨_, extended_old hclosed ha, ?_⟩
    split
    . exact ⟨rfl, rfl, rfl, rfl, rfl, List.prefix_append _ _⟩
    . exact ⟨rfl, rfl, rfl, rfl, rfl, List.prefix_rfl⟩
  . exact ensurePathLoop_found hfound

theorem ensurePath_ensures_new
    : ∃ e h', (Heap.empty.create (chars "r") [] []).2.ensurePath 0 (pathOf true [chars "a", chars "b"]) = some (e, h')
        ∧ Ensured (Heap.empty.create (chars "r") [] []).2 h' 0 (pathOf true [chars "a", chars "b"])
            [chars "a", chars "b"] e :=
  ensurePath_ensures (Heap.empty.create (chars "r") [] []).2 0 _ true [chars "a", chars "b"]
    (WellFormed.empty.create (chars "r") [] []).closed rfl (by decide)

end Heap
end Xml
end ObTools
