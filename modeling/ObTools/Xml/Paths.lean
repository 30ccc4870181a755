import ObTools.Lib.Delimiter
import ObTools.Text.Convert
import ObTools.Xml.DeleteLemmas

/-!
This module contains paths as lists of steps, and where each step leads.
-/

namespace ObTools
namespace Xml
namespace Heap

-- The path with a / before each step
def joined (steps : List Bytes) : Bytes := steps.flatMap fun step => 47 :: step

-- Whether an element has the name
def hasName (h : Heap) (name : Bytes) (c : Nat) : Bool := (h.nodes c).any fun n => n.name = name

def sameNamed (h : Heap) (name : Bytes) (children : List Nat) : List Nat := children.filter (h.hasName name)

-- Goes down along the steps
def follow (h : Heap) : List Bytes → Nat → Option (List Nat)
  | [], e => some [e]
  | step :: steps, e => do
    let l ← h.getChildren e (readStep step).1
    if steps = [] ∧ (readStep step).2 < 0 then
      return l
    else
      match l[(readStep step).2.toNat]? with
      | none => return []
      | some child => follow h steps child

variable {h : Heap} {e child : Nat} {n : Node} {name step path : Bytes} {steps children l : List Bytes}

theorem named_eq {children : List Nat} (hlive : ∀ c ∈ children, ∃ n, h.nodes c = some n) (name : Bytes)
    : h.named name children = some (h.sameNamed name children) := by
  induction children with
  | nil => rfl
  | cons c children ih =>
    rw [List.forall_mem_cons] at hlive
    obtain ⟨n, hn⟩ := hlive.1
    have hhas : h.hasName name c = decide (n.name = name) := by
      unfold hasName
      rw [hn]
      rfl
    unfold sameNamed at ih ⊢
    rw [named, hn, Option.bind_eq_bind, Option.bind_some, ih hlive.2, Option.bind_eq_bind, Option.bind_some,
      List.filter_cons, hhas]
    split <;> simp_all

theorem getChildren_eq (hwf : WellFormed h) (he : h.nodes e = some n) (name : Bytes)
    : h.getChildren e name = some (h.sameNamed name n.children) := by
  have hlive := (Separate.siblings hwf he (List.Sublist.refl _)).live
  rw [getChildren, he]
  exact named_eq hlive name

/-
The steps of a path.
-/

theorem takeWhile_step (hstep : 47 ∉ step) (steps : List Bytes)
    : (step ++ joined steps).takeWhile (· ≠ 47) = step := by
  rw [List.takeWhile_append_of_pos (Delimiter.forall_ne hstep)]
  cases steps with
  | nil => exact List.append_nil step
  | cons s steps => exact List.append_nil step

theorem joined_eq_nil_iff : joined steps = [] ↔ steps = [] := by
  cases steps <;> simp [joined]

/--
A path leads where its steps lead, one after another. Only the first step can be empty, and only if others
follow.
-/
theorem getElementsLoop_steps {fuel : Nat} (hplain : ∀ s ∈ step :: steps, 47 ∉ s) (hnext : ∀ s ∈ steps, s ≠ [])
    (hne : step = [] → steps ≠ []) (hfuel : (step ++ joined steps).length < fuel)
    (hpath : (if path.head? = some 47 then path.tail else path) = step ++ joined steps)
    : h.getElementsLoop fuel e path = h.follow (step :: steps) e := by
  induction fuel generalizing step steps path e with
  | zero => exact absurd hfuel (Nat.not_lt_zero _)
  | succ fuel ih =>
    rw [List.forall_mem_cons] at hplain
    have hrest : step ++ joined steps ≠ [] := by
      intro hnil
      rw [List.append_eq_nil_iff, joined_eq_nil_iff] at hnil
      exact hne hnil.1 hnil.2
    have hlast : step.length = (step ++ joined steps).length ↔ steps = [] := by
      rw [List.length_append, Nat.left_eq_add, List.length_eq_zero_iff, joined_eq_nil_iff]
    rw [getElementsLoop, hpath, if_neg hrest, takeWhile_step hplain.1, follow]
    dsimp only
    simp only [hlast]
    cases h.getChildren e (readStep step).1 with
    | none => rfl
    | some l =>
      simp only [Option.bind_eq_bind, Option.bind_some]
      split
      . rfl
      . cases l[(readStep step).2.toNat]? with
        | none => rfl
        | some child =>
          cases steps with
          | nil => rfl
          | cons next steps =>
            dsimp only
            rw [if_neg (List.cons_ne_nil _ _)]
            rw [List.forall_mem_cons] at hnext
            have hdrop : (step ++ joined (next :: steps)).drop (step.length + 1) = next ++ joined steps := by
              rw [List.drop_append, List.drop_eq_nil_of_le (Nat.le_succ _), List.nil_append, Nat.add_sub_cancel_left]
              rfl
            rw [hdrop]
            apply ih hplain.2 hnext.2
            . intro hnil
              exact absurd hnil hnext.1
            . have hpos := List.length_pos_of_ne_nil hrest
              have hlength := congrArg List.length hdrop
              rw [List.length_drop] at hlength
              omega
            . rw [if_neg]
              cases next with
              | nil => exact absurd rfl hnext.1
              | cons c next =>
                intro heq
                rw [List.cons_append, List.head?_cons, Option.some_inj] at heq
                rw [heq] at hplain
                exact hplain.2 _ List.mem_cons_self List.mem_cons_self

theorem getElements_joined (hplain : ∀ s ∈ step :: steps, 47 ∉ s) (hnext : ∀ s ∈ steps, s ≠ [])
    (hne : step = [] → steps ≠ [])
    : h.getElements e (joined (step :: steps)) = h.follow (step :: steps) e := by
  apply getElementsLoop_steps hplain hnext hne
  . rw [show joined (step :: steps) = 47 :: (step ++ joined steps) from rfl, List.length_cons]
    omega
  . rfl

-- Without the / before the first step
theorem getElements_relative (hplain : ∀ s ∈ step :: steps, 47 ∉ s) (hnext : ∀ s ∈ steps, s ≠ [])
    (hne : step ≠ [])
    : h.getElements e (step ++ joined steps) = h.follow (step :: steps) e := by
  apply getElementsLoop_steps hplain hnext
  . intro hnil
    exact absurd hnil hne
  . omega
  . rw [if_neg]
    cases step with
    | nil => exact absurd rfl hne
    | cons c step =>
      intro heq
      rw [List.cons_append, List.head?_cons, Option.some_inj] at heq
      rw [heq] at hplain
      exact hplain _ List.mem_cons_self List.mem_cons_self

/-
Where a step leads.
-/
section

variable {els : List Nat}

theorem follow_cons (hchildren : h.getChildren e (readStep step).1 = some els)
    (hchild : els[(readStep step).2.toNat]? = some child) (hsteps : steps ≠ [])
    : h.follow (step :: steps) e = h.follow steps child := by
  rw [follow, hchildren, Option.bind_eq_bind, Option.bind_some, if_neg (fun hlast => hsteps hlast.1), hchild]

theorem follow_last (hchildren : h.getChildren e (readStep step).1 = some els)
    (hchild : els[(readStep step).2.toNat]? = some child)
    : ∃ found, h.follow [step] e = some found ∧ found.head? = some child := by
  rw [follow, hchildren, Option.bind_eq_bind, Option.bind_some]
  split
  . next hcount =>
    rw [Int.toNat_of_nonpos (Int.le_of_lt hcount.2)] at hchild
    exact ⟨els, rfl, List.head?_eq_getElem?.trans hchild⟩
  . rw [hchild]
    exact ⟨[child], rfl, rfl⟩

end

-- A step without a count
theorem readStep_plain (hstep : 91 ∉ step) : readStep step = (step, -1) := by
  unfold readStep
  rw [if_neg (by simpa using hstep)]

-- A step with a count
theorem readStep_counted (hname : 91 ∉ name) {k : Nat} (hk : k + 1 < 2 ^ 31)
    : readStep (name ++ ([91] ++ Digits.toBytes 10 (k + 1) ++ [93])) = (name, (k : Int)) := by
  have hbefore : (name ++ ([91] ++ Digits.toBytes 10 (k + 1) ++ [93])).takeWhile (· ≠ 91) = name := by
    rw [List.append_assoc]
    exact (Delimiter.takeWhile_ne hname (Digits.toBytes 10 (k + 1) ++ [93])).1
  have hafter : (name ++ ([91] ++ Digits.toBytes 10 (k + 1) ++ [93])).drop (name.length + 1)
      = Digits.toBytes 10 (k + 1) ++ [93] := by
    rw [← List.drop_drop, List.drop_left]
    rfl
  have hdigits : (Digits.toBytes 10 (k + 1) ++ [93]).takeWhile (· ≠ 93) = Digits.toBytes 10 (k + 1) := by
    refine (Delimiter.takeWhile_ne ?_ []).1
    intro hc
    exact absurd (Digits.isDigit_of_mem_toBytes (by decide) (by decide) hc) (by decide)
  have hatoi : Text.atoi (Digits.toBytes 10 (k + 1)) = Int32.ofInt (min (k + 1 : Nat) (2 ^ 63 - 1)) :=
    Text.stoi_decimal (k + 1)
  have hcount : (Text.atoi (Digits.toBytes 10 (k + 1)) - 1).toInt = k := by
    rw [hatoi, Int32.toInt_sub, Int32.toInt_ofInt]
    have hmin : min ((k + 1 : Nat) : Int) (2 ^ 63 - 1) = k + 1 := by omega
    rw [hmin]
    have hone : (1 : Int32).toInt = 1 := by decide
    have hsum : ((k : Int) + 1).bmod (2 ^ 32) = k + 1 := Int.bmod_eq_of_le (by omega) (by omega)
    rw [hone, show Int32.size = 2 ^ 32 from rfl, hsum, Int.add_sub_cancel]
    exact Int.bmod_eq_of_le (by omega) (by omega)
  unfold readStep
  rw [if_pos (by simp)]
  dsimp only
  rw [hbefore, hafter, hdigits, hcount, if_pos]
  exact ⟨by simp, Digits.toBytes_ne_nil⟩

end Heap
end Xml
end ObTools
