import ObTools.Xml.Paths

/-!
This module contains the proof that the path of an element leads to it, unless an element on the way has no
name or too many siblings have the same one.
-/

namespace ObTools
namespace Xml
namespace Heap

open Forest (Above Holds)
open ObTools.Lex (chars)

-- The path that an element gets leads to it
def Finds (h : Heap) (root e : Nat) : Prop :=
  ∃ enough, ∀ fuel, enough ≤ fuel → ∃ path, h.getXpath fuel e = some path ∧ h.getElement root path = some (some e)

/-
An element that has a name, in a tree with the right parents and with names that have no special characters.
-/
structure Proper (h : Heap) (root e : Nat) : Prop where
  wellFormed : WellFormed h
  top : ∃ n, h.nodes root = some n ∧ n.parent = none
  above : Above h.links root e
  plain : ∀ x n, h.nodes x = some n → 47 ∉ n.name ∧ 91 ∉ n.name ∧ 64 ∉ n.name
  target : ∃ n, h.nodes e = some n ∧ n.name ≠ []

/-
An element and the one that holds it, on the way from the root to another element.
-/
structure OnWay (h : Heap) (root e p x : Nat) : Prop where
  above : Above h.links root p
  holds : Holds h.links p x
  below : Above h.links x e

-- An element without a name on the way, other than the first one, has a sibling without a name
def NamedOnWay (h : Heap) (root e : Nat) : Prop :=
  ∀ p x m n, OnWay h root e p x → p ≠ root → h.nodes p = some m → h.nodes x = some n → n.name = [] →
    1 < (h.sameNamed [] m.children).length

-- The siblings with the same name can be counted in an `int`
def FewOnWay (h : Heap) (root e : Nat) : Prop :=
  ∀ p x m n, OnWay h root e p x → h.nodes p = some m → h.nodes x = some n →
    (h.sameNamed n.name m.children).length < 2 ^ 31

variable {h : Heap} {root e p : Nat} {n m : Node} {name : Bytes} {count mycount : Nat}

/-
The counts of the siblings with the same name.
-/

theorem sameNamed_append (l l' : List Nat) : h.sameNamed name (l ++ l') = h.sameNamed name l ++ h.sameNamed name l' :=
  List.filter_append ..

theorem hasName_iff (he : h.nodes e = some n) : h.hasName name e = true ↔ n.name = name := by
  unfold hasName
  rw [he]
  simp

theorem countSiblings_append (current : Nat) (l l' : List Nat)
    : h.countSiblings current name (l ++ l') count mycount
        = (h.countSiblings current name l count mycount).bind
            fun counts => h.countSiblings current name l' counts.1 counts.2 := by
  induction l generalizing count mycount with
  | nil => rfl
  | cons p l ih =>
    rw [List.cons_append, countSiblings, countSiblings]
    cases h.nodes p with
    | none => rfl
    | some n =>
      simp only [Option.bind_eq_bind, Option.bind_some]
      split
      . split
        . exact ih
        . rfl
      . exact ih

-- Siblings other than the element
theorem countSiblings_others {l : List Nat} (hlive : ∀ c ∈ l, ∃ n, h.nodes c = some n) (he : e ∉ l)
    (hcount : count + (h.sameNamed name l).length < 2 ^ 31)
    : h.countSiblings e name l count mycount = some (count + (h.sameNamed name l).length, mycount) := by
  induction l generalizing count with
  | nil => rfl
  | cons p l ih =>
    rw [List.forall_mem_cons] at hlive
    rw [List.mem_cons, not_or] at he
    obtain ⟨n, hn⟩ := hlive.1
    unfold sameNamed at ih hcount ⊢
    rw [countSiblings, hn, Option.bind_eq_bind, Option.bind_some, if_neg (Ne.symm he.1)]
    rw [List.filter_cons] at hcount ⊢
    by_cases hname : n.name = name
    . rw [if_pos ((hasName_iff hn).mpr hname), List.length_cons] at hcount ⊢
      rw [if_pos hname, if_pos (by omega), ih hlive.2 he.2 (by omega)]
      rw [Nat.add_assoc, Nat.add_comm 1]
    . rw [if_neg (fun hhas => hname ((hasName_iff hn).mp hhas))] at hcount ⊢
      rw [if_neg hname, ih hlive.2 he.2 hcount]

-- All siblings, and those before the element
theorem countSiblings_eq {before after : List Nat} (hlive : ∀ c ∈ before ++ e :: after, ∃ n, h.nodes c = some n)
    (hnodup : (before ++ e :: after).Nodup) (he : h.nodes e = some n)
    (hcount : (h.sameNamed n.name (before ++ e :: after)).length < 2 ^ 31)
    : h.countSiblings e n.name (before ++ e :: after) 0 0
        = some ((h.sameNamed n.name (before ++ e :: after)).length, (h.sameNamed n.name before).length) := by
  have hsame : h.sameNamed n.name (before ++ e :: after)
      = h.sameNamed n.name before ++ e :: h.sameNamed n.name after := by
    rw [sameNamed_append]
    unfold sameNamed
    rw [List.filter_cons_of_pos ((hasName_iff he).mpr rfl)]
  rw [List.forall_mem_append, List.forall_mem_cons] at hlive
  rw [List.nodup_middle, List.nodup_cons, List.mem_append, not_or] at hnodup
  rw [hsame, List.length_append, List.length_cons] at hcount
  rw [hsame, List.length_append, List.length_cons, countSiblings_append,
    countSiblings_others hlive.1 hnodup.1.1 (by omega), Option.bind_some, countSiblings, he,
    Option.bind_eq_bind, Option.bind_some, if_pos rfl, if_pos rfl, if_pos (by omega),
    countSiblings_others hlive.2.2 hnodup.1.2 (by omega)]
  congr 2
  . omega
  . omega

/-
The step for an element among those with the same name.
-/

def stepOf (name : Bytes) (total index : Nat) : Bytes :=
  name ++ if total > 1 then [91] ++ Digits.toBytes 10 (index + 1) ++ [93] else []

theorem readStep_stepOf {total index : Nat} (hname : 91 ∉ name) (hindex : index < total) (htotal : total < 2 ^ 31)
    : (readStep (stepOf name total index)).1 = name ∧ (readStep (stepOf name total index)).2.toNat = index := by
  unfold stepOf
  split
  . rw [readStep_counted hname (by omega)]
    exact ⟨rfl, Int.toNat_natCast index⟩
  . rw [List.append_nil, readStep_plain hname]
    refine ⟨rfl, ?_⟩
    have hzero : index = 0 := by omega
    rw [hzero]
    rfl

theorem stepOf_plain {total index : Nat} (hname : 47 ∉ name) : 47 ∉ stepOf name total index := by
  unfold stepOf
  rw [List.mem_append, not_or]
  refine ⟨hname, ?_⟩
  split
  . intro hmem
    rw [List.mem_append, List.mem_append, List.mem_singleton, List.mem_singleton] at hmem
    rcases hmem with (heq | hdigit) | heq
    . cases heq
    . have := Digits.isDigit_of_mem_toBytes (by decide) (by decide) hdigit
      exact absurd this (by decide)
    . cases heq
  . exact List.not_mem_nil

theorem stepOf_ne_nil {total index : Nat} (hname : name = [] → 1 < total) : stepOf name total index ≠ [] := by
  unfold stepOf
  intro hnil
  rw [List.append_eq_nil_iff] at hnil
  rw [if_pos (hname hnil.1)] at hnil
  simp at hnil

/--
The step leads from the parent to the element.
-/
theorem step_spec (hwf : WellFormed h) (hp : h.nodes p = some m) (he : h.nodes e = some n)
    (hholds : Holds h.links p e) (hname : 91 ∉ n.name) (hfew : (h.sameNamed n.name m.children).length < 2 ^ 31)
    : ∃ index, h.countSiblings e n.name m.children 0 0 = some ((h.sameNamed n.name m.children).length, index)
        ∧ h.getChildren p (readStep (stepOf n.name (h.sameNamed n.name m.children).length index)).1
          = some (h.sameNamed n.name m.children)
        ∧ (h.sameNamed n.name m.children)[
            (readStep (stepOf n.name (h.sameNamed n.name m.children).length index)).2.toNat]? = some e := by
  have hmem : e ∈ m.children := (holds_iff hp).mp hholds
  have hsep := Separate.siblings hwf hp (List.Sublist.refl _)
  have hnodup := hsep.nodup
  have hlive := hsep.live
  obtain ⟨before, after, hsplit⟩ := List.append_of_mem hmem
  refine ⟨(h.sameNamed n.name before).length, ?_⟩
  have hget : (h.sameNamed n.name m.children)[(h.sameNamed n.name before).length]? = some e := by
    rw [hsplit, sameNamed_append, List.getElem?_append_right (Nat.le_refl _), Nat.sub_self]
    unfold sameNamed
    rw [List.filter_cons_of_pos ((hasName_iff he).mpr rfl)]
    rfl
  have hindex := (List.getElem?_eq_some_iff.mp hget).1
  obtain ⟨hread, hcount⟩ := readStep_stepOf hname hindex hfew
  rw [hread, hcount]
  refine ⟨?_, getChildren_eq hwf hp n.name, hget⟩
  rw [hsplit] at hlive hnodup hfew ⊢
  exact countSiblings_eq hlive hnodup he hfew

/-
The steps from the root to an element.
-/
structure Walk (h : Heap) (root e : Nat) (steps : List Bytes) (enough : Nat) : Prop where
  plain : ∀ s ∈ steps, 47 ∉ s
  next : ∀ s ∈ steps.tail, s ≠ []
  start : steps = [] ↔ e = root
  xpath : ∀ fuel xpath, enough ≤ fuel → h.getXpathLoop fuel e xpath = some (joined steps ++ xpath)
  follow : ∀ more, more ≠ [] → h.follow (steps ++ more) root = h.follow more e

theorem Walk.atRoot (hroot : h.nodes root = some n) (hparent : n.parent = none) : Walk h root root [] 1 where
  plain := fun s hs => absurd hs List.not_mem_nil
  next := fun s hs => absurd hs List.not_mem_nil
  start := iff_of_true rfl rfl
  xpath := by
    intro fuel xpath hfuel
    obtain ⟨fuel, rfl⟩ := Nat.exists_eq_succ_of_ne_zero (Nat.ne_of_gt hfuel)
    rw [getXpathLoop, hroot, Option.bind_eq_bind, Option.bind_some, hparent]
    rfl
  follow := fun more _ => rfl

theorem Walk.xpath_step {steps : List Bytes} {enough index : Nat} (hwf : WellFormed h) (hwalk : Walk h root p steps enough)
    (hp : h.nodes p = some m) (he : h.nodes e = some n) (hholds : Holds h.links p e)
    (hcounts : h.countSiblings e n.name m.children 0 0 = some ((h.sameNamed n.name m.children).length, index))
    : ∀ fuel xpath, enough + 1 ≤ fuel → h.getXpathLoop fuel e xpath
        = some (joined (steps ++ [stepOf n.name (h.sameNamed n.name m.children).length index]) ++ xpath) := by
  intro fuel xpath hfuel
  obtain ⟨fuel, rfl⟩ := Nat.exists_eq_succ_of_ne_zero (Nat.ne_of_gt (Nat.lt_of_lt_of_le (Nat.succ_pos _) hfuel))
  have hparent : n.parent = some p := by
    obtain ⟨k, hk, hparent⟩ := hwf.linked.live hholds
    rw [links_eq he] at hk
    cases hk
    exact hparent
  rw [getXpathLoop, he, Option.bind_eq_bind, Option.bind_some, hparent]
  dsimp only
  rw [hp, Option.bind_eq_bind, Option.bind_some, hcounts, Option.bind_some]
  dsimp only
  rw [hwalk.xpath fuel _ (Nat.le_of_succ_le_succ hfuel)]
  unfold joined stepOf
  rw [List.flatMap_append, List.flatMap_singleton]
  simp only [List.append_assoc, List.cons_append, List.nil_append]

theorem Walk.step {steps : List Bytes} {enough : Nat} (hwf : WellFormed h) (hwalk : Walk h root p steps enough)
    (hp : h.nodes p = some m) (he : h.nodes e = some n) (hholds : Holds h.links p e)
    (hplain : 47 ∉ n.name ∧ 91 ∉ n.name) (hfew : (h.sameNamed n.name m.children).length < 2 ^ 31)
    (hnamed : p ≠ root → n.name = [] → 1 < (h.sameNamed n.name m.children).length) (hne : e ≠ root)
    : ∃ s, (n.name ≠ [] → s ≠ []) ∧ Walk h root e (steps ++ [s]) (enough + 1)
        ∧ ∃ found, h.follow [s] p = some found ∧ found.head? = some e := by
  obtain ⟨index, hcounts, hchildren, hget⟩ := step_spec hwf hp he hholds hplain.2 hfew
  refine ⟨stepOf n.name (h.sameNamed n.name m.children).length index, ?_, ⟨?_, ?_, ?_, ?_, ?_⟩, follow_last hchildren hget⟩
  . intro hname
    apply stepOf_ne_nil
    intro hnil
    exact absurd hnil hname
  . rw [List.forall_mem_append, List.forall_mem_singleton]
    exact ⟨hwalk.plain, stepOf_plain hplain.1⟩
  . cases steps with
    | nil =>
      intro s hs
      exact absurd hs List.not_mem_nil
    | cons first steps =>
      have hnext := hwalk.next
      have hp : p ≠ root := by
        intro heq
        cases hwalk.start.mpr heq
      rw [List.cons_append, List.tail_cons, List.forall_mem_append, List.forall_mem_singleton]
      exact ⟨hnext, stepOf_ne_nil (hnamed hp)⟩
  . exact iff_of_false (List.append_ne_nil_of_right_ne_nil _ (List.cons_ne_nil _ _)) hne
  . exact hwalk.xpath_step hwf hp he hholds hcounts
  . intro more hmore
    rw [List.append_assoc, hwalk.follow _ (by simp), List.singleton_append, follow_cons hchildren hget hmore]

theorem walk (hproper : Proper h root e) (hnamed : NamedOnWay h root e) (hfew : FewOnWay h root e)
    {x : Nat} (habove : Above h.links root x) (hbelow : Above h.links x e)
    : ∃ steps enough, Walk h root x steps enough := by
  have hwf := hproper.wellFormed
  obtain ⟨n, hroot, hparent⟩ := hproper.top
  induction habove with
  | refl => exact ⟨[], 1, Walk.atRoot hroot hparent⟩
  | @tail p x habove hholds ih =>
    obtain ⟨steps, enough, hwalk⟩ := ih (.head hholds hbelow)
    have hway : OnWay h root e p x := ⟨habove, hholds, hbelow⟩
    obtain ⟨k, hlink⟩ := hholds.live
    obtain ⟨m, hp, -⟩ := links_eq_some hlink
    obtain ⟨k', hlink', -⟩ := hwf.linked.live hholds
    obtain ⟨n', hx, -⟩ := links_eq_some hlink'
    have hne : x ≠ root := by
      rintro rfl
      exact hwf.linked.not_holds_root (links_eq hroot) hparent p hholds
    have hnamed (hp' : p ≠ root) (hname : n'.name = []) : 1 < (h.sameNamed n'.name m.children).length := by
      rw [hname]
      exact hnamed p x m n' hway hp' hp hx hname
    have hplain := hproper.plain x n' hx
    obtain ⟨s, -, hwalk', -⟩ := hwalk.step hwf hp hx hholds ⟨hplain.1, hplain.2.1⟩ (hfew p x m n' hway hp hx) hnamed hne
    exact ⟨_, _, hwalk'⟩

/--
The path of an element leads to it, if its name and those of the elements above it are such that each step
can be found.
-/
theorem finds (h : Heap) (root e : Nat) (hproper : Proper h root e) (hnamed : NamedOnWay h root e)
    (hfew : FewOnWay h root e)
    : Finds h root e := by
  have hwf := hproper.wellFormed
  obtain ⟨n, hroot, hparent⟩ := hproper.top
  rcases hproper.above.cases_tail with rfl | ⟨p, habove', hholds⟩
  . refine ⟨1, ?_⟩
    intro fuel hfuel
    exact ⟨[], (Walk.atRoot hroot hparent).xpath fuel [] hfuel, rfl⟩
  . obtain ⟨steps, enough, hwalk⟩ := walk hproper hnamed hfew habove' (.single hholds)
    have hway : OnWay h root e p e := ⟨habove', hholds, .refl⟩
    obtain ⟨k, hlink⟩ := hholds.live
    obtain ⟨m, hp, -⟩ := links_eq_some hlink
    obtain ⟨k', hlink', -⟩ := hwf.linked.live hholds
    obtain ⟨n', he, -⟩ := links_eq_some hlink'
    have hne : e ≠ root := by
      rintro rfl
      exact hwf.linked.not_holds_root (links_eq hroot) hparent p hholds
    have hname : n'.name ≠ [] := by
      obtain ⟨n'', he', hname⟩ := hproper.target
      rw [he] at he'
      cases he'
      exact hname
    have hplain := hproper.plain e n' he
    obtain ⟨s, hs, hwalk', found, hfollow, hhead⟩ := hwalk.step hwf hp he hholds ⟨hplain.1, hplain.2.1⟩
      (hfew p e m n' hway hp he) (fun _ hnil => absurd hnil hname) hne
    refine ⟨enough + 1, ?_⟩
    intro fuel hfuel
    refine ⟨joined (steps ++ [s]), ?_, ?_⟩
    . have hxpath := hwalk'.xpath fuel [] hfuel
      rw [List.append_nil] at hxpath
      exact hxpath
    . have hgo : h.getElements root (joined (steps ++ [s])) = h.follow (steps ++ [s]) root := by
        have hplain := hwalk'.plain
        have hnext := hwalk'.next
        cases steps with
        | nil => exact getElements_joined hplain hnext fun hnil => absurd hnil (hs hname)
        | cons first steps => exact getElements_joined hplain hnext fun _ => by simp
      unfold getElement
      rw [hgo, hwalk.follow [s] (List.cons_ne_nil _ _), hfollow, Option.map_some, hhead]

/-
Elements that are each the only child of the one before.
-/

def chainNode (count a : Nat) (name : Bytes) : Node where
  name := name
  content := []
  attrs := []
  children := if a + 1 < count then [a + 1] else []
  parent := if a = 0 then none else some (a - 1)
  line := 0

def chain (names : List Bytes) : Heap where
  nodes := fun a => names[a]?.map (chainNode names.length a)
  next := names.length

theorem chain_holds_iff (names : List Bytes) (a c : Nat)
    : Holds (chain names).links a c ↔ c = a + 1 ∧ c < names.length := by
  constructor
  . rintro ⟨k, hk, hc⟩
    obtain ⟨n, hn, rfl⟩ := links_eq_some hk
    obtain ⟨name, -, rfl⟩ := Option.map_eq_some_iff.mp hn
    dsimp only [Node.link, chainNode] at hc
    split at hc
    . rw [List.mem_singleton] at hc
      omega
    . exact absurd hc List.not_mem_nil
  . rintro ⟨rfl, hlt⟩
    have ha : (chain names).nodes a = some (chainNode names.length a names[a]) := by
      unfold chain
      dsimp only
      rw [List.getElem?_eq_getElem (by omega : a < names.length)]
      rfl
    rw [holds_iff ha]
    unfold chainNode
    rw [if_pos hlt]
    exact List.mem_cons_self

theorem chain_wellFormed (names : List Bytes) : WellFormed (chain names) where
  linked := by
    refine ⟨?_, ?_, fun a => names.length - a, ?_⟩
    . intro a c
      rw [chain_holds_iff]
      unfold Forest.parentOf links chain
      dsimp only
      cases hc : names[c]? with
      | none =>
        have := List.getElem?_eq_none_iff.mp hc
        simp
        omega
      | some name =>
        have hlt := (List.getElem?_eq_some_iff.mp hc).1
        simp only [Option.map_some, Node.link, chainNode, Option.some_inj]
        split
        . simp
          omega
        . rw [Option.some_inj]
          omega
    . intro a k hk
      obtain ⟨n, hn, rfl⟩ := links_eq_some hk
      obtain ⟨name, -, rfl⟩ := Option.map_eq_some_iff.mp hn
      dsimp only [Node.link, chainNode]
      split <;> simp
    . intro a c hholds
      rw [chain_holds_iff] at hholds
      dsimp only
      omega
  fresh := by
    intro a ha
    unfold chain
    dsimp only
    rw [List.getElem?_eq_none ha]
    rfl

theorem chain_above (names : List Bytes) {a : Nat} (ha : a < names.length) : Above (chain names).links 0 a := by
  induction a with
  | zero => exact .refl
  | succ a ih => exact .tail (ih (by omega)) ((chain_holds_iff names a (a + 1)).mpr ⟨rfl, ha⟩)

/-
Elements that are all children of the first one.
-/

def crowd (name : Bytes) (count : Nat) : Heap where
  nodes := fun a =>
    if a = 0 then
      some { name := name, content := [], attrs := [], children := List.range' 1 count, parent := none, line := 0 }
    else if a ≤ count then
      some { name := name, content := [], attrs := [], children := [], parent := some 0, line := 0 }
    else
      none
  next := count + 1

theorem crowd_holds_iff (name : Bytes) (count a c : Nat)
    : Holds (crowd name count).links a c ↔ a = 0 ∧ 1 ≤ c ∧ c ≤ count := by
  constructor
  . rintro ⟨k, hk, hc⟩
    obtain ⟨n, hn, rfl⟩ := links_eq_some hk
    unfold crowd at hn
    dsimp only at hn
    split at hn
    . next ha =>
      cases hn
      dsimp only [Node.link] at hc
      rw [List.mem_range'_1] at hc
      omega
    . split at hn
      . cases hn
        exact absurd hc List.not_mem_nil
      . cases hn
  . rintro ⟨rfl, hc⟩
    have h0 : (crowd name count).nodes 0 = some _ := rfl
    rw [holds_iff h0, List.mem_range'_1]
    omega

theorem crowd_wellFormed (name : Bytes) (count : Nat) : WellFormed (crowd name count) where
  linked := by
    refine ⟨?_, ?_, fun a => if a = 0 then 1 else 0, ?_⟩
    . intro a c
      rw [crowd_holds_iff]
      unfold Forest.parentOf links crowd
      dsimp only
      split
      . simp [Node.link]
        omega
      . split
        . simp [Node.link]
          omega
        . simp
          omega
    . intro a k hk
      obtain ⟨n, hn, rfl⟩ := links_eq_some hk
      unfold crowd at hn
      dsimp only at hn
      split at hn
      . cases hn
        exact List.nodup_range'
      . split at hn
        . cases hn
          exact List.nodup_nil
        . cases hn
    . intro a c hholds
      rw [crowd_holds_iff] at hholds
      dsimp only
      split <;> split <;> omega
  fresh := by
    intro a ha
    have hlt : count < a := ha
    unfold crowd
    dsimp only
    rw [if_neg (by omega), if_neg (by omega)]

theorem chain_nodes {names : List Bytes} {a : Nat} (ha : (chain names).nodes a = some n)
    : ∃ name ∈ names, n = chainNode names.length a name := by
  obtain ⟨name, hname, rfl⟩ := Option.map_eq_some_iff.mp ha
  exact ⟨name, List.mem_of_getElem? hname, rfl⟩

theorem chain_proper {names : List Bytes} {name : Bytes} (hplain : ∀ s ∈ names, 47 ∉ s ∧ 91 ∉ s ∧ 64 ∉ s)
    (he : names[e]? = some name) (hname : name ≠ [])
    : Proper (chain names) 0 e where
  wellFormed := chain_wellFormed names
  top := by
    have hlength : 0 < names.length := Nat.zero_lt_of_lt (List.getElem?_eq_some_iff.mp he).1
    refine ⟨chainNode names.length 0 names[0], ?_, rfl⟩
    unfold chain
    dsimp only
    rw [List.getElem?_eq_getElem hlength]
    rfl
  above := chain_above names (List.getElem?_eq_some_iff.mp he).1
  plain := by
    intro x n hx
    obtain ⟨name, hmem, rfl⟩ := chain_nodes hx
    exact hplain name hmem
  target := by
    refine ⟨chainNode names.length e name, ?_, hname⟩
    unfold chain
    dsimp only
    rw [he]
    rfl

theorem crowd_one {name : Bytes} {count : Nat} (hcount : 1 ≤ count)
    : (crowd name count).nodes 1
        = some { name := name, content := [], attrs := [], children := [], parent := some 0, line := 0 } := by
  unfold crowd
  dsimp only
  rw [if_neg (by decide), if_pos hcount]

theorem crowd_proper {name : Bytes} {count : Nat} (hplain : 47 ∉ name ∧ 91 ∉ name ∧ 64 ∉ name) (hname : name ≠ [])
    (hcount : 1 ≤ count)
    : Proper (crowd name count) 0 1 where
  wellFormed := crowd_wellFormed name count
  top := ⟨_, rfl, rfl⟩
  above := .single ((crowd_holds_iff name count 0 1).mpr ⟨rfl, Nat.le_refl 1, hcount⟩)
  plain := by
    intro x n hx
    unfold crowd at hx
    dsimp only at hx
    split at hx
    . cases hx
      exact hplain
    . split at hx
      . cases hx
        exact hplain
      . cases hx
  target := ⟨_, crowd_one hcount, hname⟩

theorem sameNamed_crowd (name : Bytes) (count : Nat)
    : (crowd name count).sameNamed name (List.range' 1 count) = List.range' 1 count := by
  unfold sameNamed
  rw [List.filter_eq_self]
  intro a ha
  rw [List.mem_range'_1] at ha
  unfold hasName crowd
  dsimp only
  rw [if_neg (by omega), if_pos (by omega)]
  simp

theorem few_crowd {name : Bytes} {count : Nat} (hcount : count < 2 ^ 31) : FewOnWay (crowd name count) 0 1 := by
  intro p x m n hway hp hx
  obtain ⟨rfl, h1, h2⟩ := (crowd_holds_iff name count p x).mp hway.holds
  unfold crowd at hp hx
  dsimp only at hp hx
  rw [if_pos rfl] at hp
  rw [if_neg (by omega), if_pos h2] at hx
  cases hp
  cases hx
  dsimp only
  rw [sameNamed_crowd, List.length_range']
  exact hcount

theorem named_crowd (name : Bytes) (count : Nat) : NamedOnWay (crowd name count) 0 1 := by
  intro p x m n hway hne
  exact absurd ((crowd_holds_iff name count p x).mp hway.holds).1 hne

theorem finds_crowd : Finds (crowd (chars "a") 2) 0 1 :=
  finds (crowd (chars "a") 2) 0 1 (crowd_proper (by decide) (by decide) (by decide)) (named_crowd _ _)
    (few_crowd (by decide))

-- Too many siblings cannot be counted
theorem countSiblings_eq_none {l : List Nat} (hcount : count < 2 ^ 31)
    (hmany : 2 ^ 31 ≤ count + (h.sameNamed name l).length)
    : h.countSiblings e name l count mycount = none := by
  induction l generalizing count mycount with
  | nil =>
    have hlength : (h.sameNamed name []).length = 0 := rfl
    omega
  | cons p l ih =>
    unfold sameNamed at ih hmany
    rw [countSiblings]
    cases hp : h.nodes p with
    | none => rfl
    | some n =>
      rw [Option.bind_eq_bind, Option.bind_some]
      rw [List.filter_cons] at hmany
      by_cases hname : n.name = name
      . rw [if_pos ((hasName_iff hp).mpr hname), List.length_cons] at hmany
        rw [if_pos hname]
        split
        . next hlt => exact ih hlt (by omega)
        . rfl
      . rw [if_neg (fun hhas => hname ((hasName_iff hp).mp hhas))] at hmany
        rw [if_neg hname]
        exact ih hcount hmany

theorem not_finds_crowd {name : Bytes} {many : Nat} (hmany : 2 ^ 31 ≤ many) : ¬Finds (crowd name many) 0 1 := by
  rintro ⟨enough, hfinds⟩
  obtain ⟨path, hpath, -⟩ := hfinds (enough + 1) (Nat.le_succ _)
  have h0 : (crowd name many).nodes 0
      = some { name := name, content := [], attrs := [], children := List.range' 1 many, parent := none, line := 0 } := rfl
  have hnone : (crowd name many).countSiblings 1 name (List.range' 1 many) 0 0 = none := by
    apply countSiblings_eq_none (by decide)
    rw [sameNamed_crowd, List.length_range']
    omega
  unfold getXpath at hpath
  rw [getXpathLoop, crowd_one (by omega), Option.bind_eq_bind, Option.bind_some] at hpath
  dsimp only at hpath
  rw [h0, Option.bind_eq_bind, Option.bind_some] at hpath
  dsimp only at hpath
  rw [hnone] at hpath
  cases hpath

/--
An element without a name on the way is passed over, and too many siblings of a name cannot be counted.
-/
theorem not_finds
    : (Proper (chain [chars "r", chars "a", [], chars "e"]) 0 3
          ∧ ¬Finds (chain [chars "r", chars "a", [], chars "e"]) 0 3)
        ∧ Proper (crowd (chars "a") (2 ^ 31)) 0 1 ∧ ¬Finds (crowd (chars "a") (2 ^ 31)) 0 1 := by
  refine ⟨⟨chain_proper (by decide) rfl (by decide), ?_⟩, crowd_proper (by decide) (by decide) (by decide),
    not_finds_crowd (Nat.le_refl _)⟩
  rintro ⟨enough, hfinds⟩
  obtain ⟨path, hpath, hget⟩ := hfinds (enough + 4) (Nat.le_add_right _ _)
  have hxpath : (chain [chars "r", chars "a", [], chars "e"]).getXpath (enough + 4) 3 = some (chars "/a//e") := rfl
  rw [hxpath, Option.some_inj] at hpath
  subst hpath
  have hmissing : (chain [chars "r", chars "a", [], chars "e"]).getElement 0 (chars "/a//e") ≠ some (some 3) := by
    decide
  exact hmissing hget

end Heap
end Xml
end ObTools
