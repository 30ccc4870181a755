import Mathlib.Data.List.Nodup
import Mathlib.Data.List.Perm.Basic
import Mathlib.Logic.Function.Basic
import Mathlib.Logic.Relation

/-!
This module contains nodes that have links to their children and to their parents, and how the links
stay consistent if nodes are moved, added and dropped.
-/

namespace Forest

variable {κ : Type}

structure Link (κ : Type) where
  children : List κ
  parent : Option κ

abbrev Links (κ : Type) := κ → Option (Link κ)

-- That a node has a child in its list
def Holds (l : Links κ) (a c : κ) : Prop := ∃ n, l a = some n ∧ c ∈ n.children

-- The parent that a node has, if there is such a node
def parentOf (l : Links κ) (c : κ) : Option (Option κ) := (l c).map Link.parent

def Above (l : Links κ) : κ → κ → Prop := Relation.ReflTransGen (Holds l)

def Ranked (l : Links κ) (rank : κ → Nat) : Prop := ∀ a c, Holds l a c → rank c < rank a

/-
A node is in the list of its parent and in no other, once, and no node is below itself.
-/
structure Linked (l : Links κ) : Prop where
  holds_iff : ∀ a c, Holds l a c ↔ parentOf l c = some (some a)
  nodup : ∀ a n, l a = some n → n.children.Nodup
  ranked : ∃ rank, Ranked l rank

variable {l l' l1 l2 : Links κ} {a b c d x y : κ} {n m k : Link κ} {rank : κ → Nat}

theorem Holds.live (h : Holds l a c) : ∃ n, l a = some n := by
  obtain ⟨n, ha, -⟩ := h
  exact ⟨n, ha⟩

theorem holds_iff_mem (ha : l a = some n) : Holds l a c ↔ c ∈ n.children := by
  unfold Holds
  simp [ha]

theorem Above.rank_le (hrank : Ranked l rank) (h : Above l a b) : rank b ≤ rank a := by
  induction h with
  | refl => exact Nat.le_refl _
  | tail _ hholds ih => exact Nat.le_trans (Nat.le_of_lt (hrank _ _ hholds)) ih

theorem Above.mono (hholds : ∀ a c, Holds l a c → Holds l' a c) (h : Above l a b) : Above l' a b :=
  Relation.ReflTransGen.mono hholds _ _ h

namespace Linked

theorem live (h : Linked l) (hholds : Holds l a c) : ∃ m, l c = some m ∧ m.parent = some a := by
  rw [h.holds_iff] at hholds
  exact Option.map_eq_some_iff.mp hholds

theorem not_above_of_holds (h : Linked l) (hholds : Holds l a c) : ¬Above l c a := by
  intro habove
  obtain ⟨rank, hrank⟩ := h.ranked
  have hle := habove.rank_le hrank
  have hlt := hrank a c hholds
  omega

theorem ne_of_holds (h : Linked l) (hholds : Holds l a c) : a ≠ c := by
  rintro rfl
  exact h.not_above_of_holds hholds .refl

theorem holder_unique (h : Linked l) (ha : Holds l a c) (hb : Holds l b c) : a = b := by
  rw [h.holds_iff] at ha hb
  rw [ha] at hb
  exact Option.some.inj (Option.some.inj hb)

theorem not_holds_root (h : Linked l) (hc : l c = some m) (hroot : m.parent = none) (a : κ)
    : ¬Holds l a c := by
  rw [h.holds_iff, parentOf, hc, Option.map_some, hroot]
  simp

/--
Of two nodes above another one, one is above the other.
-/
theorem above_total (h : Linked l) (ha : Above l a x) (hb : Above l b x)
    : Above l a b ∨ Above l b a := by
  induction ha with
  | refl => exact Or.inr hb
  | tail hay hyz ih =>
    cases hb with
    | refl => exact Or.inl (hay.tail hyz)
    | tail hbw hwz =>
      rw [h.holder_unique hwz hyz] at hbw
      exact ih hbw

theorem above_ne (h : Linked l) (habove : Above l c x) (hne : x ≠ c) (hholds : Holds l a x)
    : Above l c a := by
  cases habove with
  | refl => exact absurd rfl hne
  | tail hcy hyx =>
    rw [h.holder_unique hholds hyx]
    exact hcy

theorem not_above_sibling (h : Linked l) (hc : Holds l a c) (hd : Holds l a d) (hne : c ≠ d)
    (habove : Above l c x)
    : ¬Above l d x := by
  intro habove'
  rcases h.above_total habove habove' with hcd | hdc
  . exact h.not_above_of_holds hc (h.above_ne hcd hne.symm hd)
  . exact h.not_above_of_holds hd (h.above_ne hdc hne hc)

theorem empty : Linked (fun _ => none : Links κ) := by
  have hholds (a c : κ) : ¬Holds (fun _ => none) a c := by
    rintro ⟨n, hn, -⟩
    cases hn
  refine ⟨?_, ?_, ⟨fun _ => 0, ?_⟩⟩
  . intro a c
    simp [hholds a c, parentOf]
  . intro a n ha
    cases ha
  . intro a c hac
    exact absurd hac (hholds a c)

/--
Nodes are dropped together with all that is below them and above them.
-/
theorem drop (h : Linked l) {S : κ → Prop} (hS : ∀ a c, Holds l a c → (S a ↔ S c))
    (hin : ∀ x, S x → l' x = none) (hout : ∀ x, ¬S x → l' x = l x)
    : Linked l' := by
  have hholds (a c : κ) : Holds l' a c ↔ Holds l a c ∧ ¬S a := by
    unfold Holds
    by_cases ha : S a
    . simp [hin a ha, ha]
    . simp [hout a ha, ha]
  refine ⟨?_, ?_, ?_⟩
  . intro a c
    rw [hholds, parentOf]
    by_cases hc : S c
    . rw [hin c hc, Option.map_none]
      refine iff_of_false ?_ (by simp)
      rintro ⟨hac, ha⟩
      exact ha ((hS a c hac).mpr hc)
    . rw [hout c hc, ← parentOf, ← h.holds_iff, and_iff_left_iff_imp]
      intro hac ha
      exact hc ((hS a c hac).mp ha)
  . intro a n ha
    by_cases hSa : S a
    . rw [hin a hSa] at ha
      cases ha
    . rw [hout a hSa] at ha
      exact h.nodup a n ha
  . obtain ⟨rank, hrank⟩ := h.ranked
    refine ⟨rank, ?_⟩
    intro a c hac
    rw [hholds] at hac
    exact hrank a c hac.1

/--
Nodes are added that are apart from all others.
-/
theorem union (h1 : Linked l1) (h2 : Linked l2) (hdisjoint : ∀ x, l1 x = none ∨ l2 x = none)
    (hl : ∀ x, l x = (l1 x).or (l2 x))
    : Linked l := by
  have hleft (x : κ) (n : Link κ) (hx : l1 x = some n) : l x = l1 x ∧ l2 x = none := by
    rw [hl, hx, Option.some_or]
    refine ⟨rfl, (hdisjoint x).resolve_left ?_⟩
    simp [hx]
  have hright (x : κ) (hx : l1 x = none) : l x = l2 x := by
    rw [hl, hx, Option.none_or]
  have hholds (a c : κ) : Holds l a c ↔ Holds l1 a c ∨ Holds l2 a c := by
    unfold Holds
    cases ha : l1 a with
    | none => simp [hright a ha]
    | some n =>
      obtain ⟨hl1, hl2⟩ := hleft a n ha
      rw [hl1, hl2, ha]
      simp
  refine ⟨?_, ?_, ?_⟩
  . intro a c
    rw [hholds, h1.holds_iff, h2.holds_iff, parentOf, parentOf, parentOf]
    cases hc : l1 c with
    | none => simp [hright c hc]
    | some m =>
      obtain ⟨hl1, hl2⟩ := hleft c m hc
      rw [hl1, hl2, hc]
      simp
  . intro a n ha
    cases h1a : l1 a with
    | none =>
      rw [hright a h1a] at ha
      exact h2.nodup a n ha
    | some k =>
      rw [(hleft a k h1a).1] at ha
      exact h1.nodup a n ha
  . obtain ⟨rank1, hrank1⟩ := h1.ranked
    obtain ⟨rank2, hrank2⟩ := h2.ranked
    refine ⟨fun x => if (l1 x).isSome then rank1 x else rank2 x, ?_⟩
    intro a c hac
    rw [hholds] at hac
    rcases hac with hac | hac
    . obtain ⟨n, ha⟩ := hac.live
      obtain ⟨m, hc, -⟩ := h1.live hac
      simpa [ha, hc] using hrank1 a c hac
    . obtain ⟨n, ha⟩ := hac.live
      obtain ⟨m, hc, -⟩ := h2.live hac
      have ha1 : l1 a = none := (hdisjoint a).resolve_right (by simp [ha])
      have hc1 : l1 c = none := (hdisjoint c).resolve_right (by simp [hc])
      simpa [ha1, hc1] using hrank2 a c hac

end Linked

section Updates

variable [DecidableEq κ]

-- Replaces the link of a node
def put (a : κ) (n : Link κ) (l : Links κ) : Links κ := Function.update l a (some n)

theorem put_self : put a n l a = some n := Function.update_self ..

theorem put_of_ne (h : x ≠ a) : put a n l x = l x := Function.update_of_ne h ..

theorem holds_put (a : κ) (n : Link κ) (l : Links κ)
    : Holds (put a n l) x c ↔ if x = a then c ∈ n.children else Holds l x c := by
  by_cases hx : x = a
  . rw [hx, if_pos rfl, holds_iff_mem put_self]
  . rw [if_neg hx, Holds, put_of_ne hx, Holds]

theorem parentOf_put (a : κ) (n : Link κ) (l : Links κ)
    : parentOf (put a n l) x = if x = a then some n.parent else parentOf l x := by
  by_cases hx : x = a
  . rw [hx, if_pos rfl, parentOf, put_self, Option.map_some]
  . rw [if_neg hx, parentOf, put_of_ne hx, parentOf]

-- A new parent changes no list
theorem holds_put_parent (hc : l c = some m) (p : Option κ)
    : Holds (put c { m with parent := p } l) x y ↔ Holds l x y := by
  rw [holds_put]
  split
  case isTrue hx => rw [hx, holds_iff_mem hc]
  case isFalse => rfl

-- A new list changes no parent
theorem parentOf_put_children (ha : l a = some n) (children : List κ)
    : parentOf (put a { n with children := children } l) x = parentOf l x := by
  rw [parentOf_put]
  split
  case isTrue hx => rw [hx, parentOf, ha, Option.map_some]
  case isFalse => rfl

theorem nodup_put (hn : n.children.Nodup) (h : ∀ x k, l x = some k → k.children.Nodup) (x : κ)
    (k : Link κ) (hk : put a n l x = some k)
    : k.children.Nodup := by
  by_cases hx : x = a
  . rw [hx, put_self] at hk
    cases hk
    exact hn
  . rw [put_of_ne hx] at hk
    exact h x k hk

/-
Adding a node at the end of a list, and removing it from a list.
-/

def attach (a c : κ) (n m : Link κ) (l : Links κ) : Links κ :=
  put c { m with parent := some a } (put a { n with children := n.children ++ [c] } l)

def unlink (a c : κ) (n m : Link κ) (l : Links κ) : Links κ :=
  put c { m with parent := none } (put a { n with children := n.children.filter (· ≠ c) } l)

theorem holds_attach (hne : a ≠ c) (ha : l a = some n) (hc : l c = some m)
    : Holds (attach a c n m l) x y ↔ Holds l x y ∨ (x = a ∧ y = c) := by
  rw [attach, holds_put_parent (by rw [put_of_ne hne.symm, hc]), holds_put]
  split
  case isTrue hx =>
    rw [hx, List.mem_append, List.mem_singleton, holds_iff_mem ha]
    simp
  case isFalse hx => simp [hx]

theorem ranked_attach (hrank : Ranked l rank) (hne : a ≠ c) (ha : l a = some n) (hc : l c = some m)
    (habove : ¬Above l c a)
    : ∃ rank', Ranked (attach a c n m l) rank' := by
  classical
  -- All nodes above the list are moved above the nodes that are added to it
  refine ⟨fun x => if Above l x a then rank x + rank c + 1 else rank x, ?_⟩
  intro x y hxy
  rw [holds_attach hne ha hc] at hxy
  rcases hxy with hholds | ⟨rfl, rfl⟩
  . have hlt := hrank x y hholds
    by_cases hy : Above l y a
    . have hx : Above l x a := hy.head hholds
      simp only [if_pos hx, if_pos hy]
      omega
    . simp only [if_neg hy]
      split <;> omega
  . have hx : Above l x x := .refl
    simp only [if_pos hx, if_neg habove]
    omega

namespace Linked

theorem attach (h : Linked l) (ha : l a = some n) (hc : l c = some m) (hroot : m.parent = none)
    (habove : ¬Above l c a)
    : Linked (attach a c n m l) := by
  have hne : a ≠ c := by
    rintro rfl
    exact habove .refl
  have hnew := h.not_holds_root hc hroot
  refine ⟨?_, ?_, ?_⟩
  . intro x y
    rw [holds_attach hne ha hc, Forest.attach, parentOf_put, parentOf_put_children ha]
    split
    case isTrue hy =>
      subst hy
      simp [hnew x, eq_comm]
    case isFalse hy => simp [hy, h.holds_iff]
  . refine nodup_put (h.nodup c m hc) (nodup_put ?_ h.nodup)
    refine List.Nodup.append (h.nodup a n ha) (List.nodup_singleton c) ?_
    intro y hy hyc
    rw [List.mem_singleton] at hyc
    rw [hyc] at hy
    exact hnew a ⟨n, ha, hy⟩
  . obtain ⟨rank, hrank⟩ := h.ranked
    exact ranked_attach hrank hne ha hc habove

theorem holds_unlink (h : Linked l) (ha : l a = some n) (hc : l c = some m) (hholds : Holds l a c)
    : Holds (unlink a c n m l) x y ↔ Holds l x y ∧ y ≠ c := by
  rw [unlink, holds_put_parent (by rw [put_of_ne (h.ne_of_holds hholds).symm, hc]), holds_put]
  split
  case isTrue hx =>
    rw [hx, List.mem_filter, holds_iff_mem ha]
    simp
  case isFalse hx =>
    refine (and_iff_left_of_imp ?_).symm
    rintro hxy rfl
    exact hx (h.holder_unique hxy hholds)

theorem unlink (h : Linked l) (ha : l a = some n) (hc : l c = some m) (hholds : Holds l a c)
    : Linked (unlink a c n m l) := by
  refine ⟨?_, ?_, ?_⟩
  . intro x y
    rw [h.holds_unlink ha hc hholds, Forest.unlink, parentOf_put, parentOf_put_children ha]
    split
    case isTrue hy => simp [hy]
    case isFalse hy => simp [hy, h.holds_iff]
  . exact nodup_put (h.nodup c m hc) (nodup_put ((h.nodup a n ha).filter _) h.nodup)
  . obtain ⟨rank, hrank⟩ := h.ranked
    refine ⟨rank, ?_⟩
    intro x y hxy
    rw [h.holds_unlink ha hc hholds] at hxy
    exact hrank x y hxy.1

/--
A new node has no links.
-/
theorem insert (h : Linked l) (hnew : l a = none) : Linked (put a { children := [], parent := none } l) := by
  have hno (x : κ) : ¬Holds l x a := by
    rw [h.holds_iff, parentOf, hnew]
    simp
  have hholds (x y : κ) : Holds (put a { children := [], parent := none } l) x y ↔ Holds l x y := by
    rw [holds_put]
    split
    case isTrue hx => simp [hx, Holds, hnew]
    case isFalse => rfl
  refine ⟨?_, ?_, ?_⟩
  . intro x y
    rw [hholds, parentOf_put]
    split
    case isTrue hy => simp [hy, hno x]
    case isFalse => exact h.holds_iff x y
  . exact nodup_put List.nodup_nil h.nodup
  . obtain ⟨rank, hrank⟩ := h.ranked
    refine ⟨rank, ?_⟩
    intro x y hxy
    rw [hholds] at hxy
    exact hrank x y hxy

/--
The order of a list does not matter.
-/
theorem reorder (h : Linked l) (ha : l a = some n) {children : List κ}
    (hperm : children.Perm n.children)
    : Linked (put a { n with children := children } l) := by
  have hholds (x y : κ) : Holds (put a { n with children := children } l) x y ↔ Holds l x y := by
    rw [holds_put]
    split
    case isTrue hx => rw [hx, hperm.mem_iff, holds_iff_mem ha]
    case isFalse => rfl
  refine ⟨?_, ?_, ?_⟩
  . intro x y
    rw [hholds, parentOf_put_children ha, h.holds_iff]
  . exact nodup_put (hperm.nodup_iff.mpr (h.nodup a n ha)) h.nodup
  . obtain ⟨rank, hrank⟩ := h.ranked
    refine ⟨rank, ?_⟩
    intro x y hxy
    rw [hholds] at hxy
    exact hrank x y hxy

/--
A node without a parent can take the place of another one.
-/
theorem replace (h : Linked l) (ha : l a = some n) (hc : l c = some m) (hholds : Holds l a c)
    (hd : l d = some k) (hroot : k.parent = none) (habove : ¬Above l d c) {children : List κ}
    (hperm : children.Perm (n.children.filter (· ≠ c) ++ [d]))
    : Linked (put c { m with parent := none } (put d { k with parent := some a }
        (put a { n with children := children } l))) := by
  have hac : a ≠ c := h.ne_of_holds hholds
  have hda : d ≠ a := by
    rintro rfl
    exact habove (.single hholds)
  have hdc : d ≠ c := by
    rintro rfl
    exact habove .refl
  -- The node is unlinked, the other one is added, and the list is put into order
  have hunlink := h.unlink ha hc hholds
  have hua : Forest.unlink a c n m l a = some { n with children := n.children.filter (· ≠ c) } := by
    rw [Forest.unlink, put_of_ne hac, put_self]
  have hud : Forest.unlink a c n m l d = some k := by
    rw [Forest.unlink, put_of_ne hdc, put_of_ne hda, hd]
  have habove' : ¬Above (Forest.unlink a c n m l) d a := by
    intro hda
    refine habove (.tail (hda.mono ?_) hholds)
    intro x y hxy
    rw [h.holds_unlink ha hc hholds] at hxy
    exact hxy.1
  have hattach := hunlink.attach hua hud hroot habove'
  have hta := (put_of_ne (n := { k with parent := some a })
    (l := put a { n with children := n.children.filter (· ≠ c) ++ [d] } (Forest.unlink a c n m l))
    hda.symm).trans put_self
  have hlinks : put c { m with parent := none } (put d { k with parent := some a }
        (put a { n with children := children } l))
      = put a { n with children := children } (Forest.attach a d
          { n with children := n.children.filter (· ≠ c) } k (Forest.unlink a c n m l)) := by
    funext x
    unfold Forest.attach Forest.unlink put
    by_cases hxa : x = a
    . subst hxa
      simp [Function.update_of_ne hac, Function.update_of_ne hda.symm]
    . by_cases hxd : x = d
      . subst hxd
        simp [Function.update_of_ne hdc, Function.update_of_ne hda]
      . by_cases hxc : x = c
        . subst hxc
          simp [Function.update_of_ne hxa, Function.update_of_ne hxd]
        . simp [Function.update_of_ne hxa, Function.update_of_ne hxd, Function.update_of_ne hxc]
  rw [hlinks]
  exact hattach.reorder hta hperm

end Linked

end Updates

end Forest
