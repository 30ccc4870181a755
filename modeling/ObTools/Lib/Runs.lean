import Mathlib.Algebra.BigOperators.Fin

/-!
This module contains runs of a transition system that takes one of several actions in each step, and
how an invariant of all steps becomes one of all runs. It also contains sums over threads of which one
takes a step.
-/

namespace Runs

variable {σ α : Type} (step : σ → α → Option σ)

-- The state after some actions, `none` if one of them is not possible
def run (s : σ) : List α → Option σ
  | [] => some s
  | a :: as =>
    match step s a with
    | some s => run s as
    | none => none

-- Whether each action meets a condition in the state in which it is taken
def all (ok : σ → α → Bool) (s : σ) : List α → Bool
  | [] => true
  | a :: as =>
    ok s a && match step s a with
      | some s => all ok s as
      | none => true

variable {step}

theorem run_step {s s1 : σ} {a : α} (hstep : step s a = some s1) (as : List α)
    : run step s (a :: as) = run step s1 as := by
  rw [run, hstep]

theorem run_cons {s s' : σ} {a : α} {as : List α} (hrun : run step s (a :: as) = some s')
    : ∃ s1, step s a = some s1 ∧ run step s1 as = some s' := by
  cases hstep : step s a with
  | none => simp [run, hstep] at hrun
  | some s1 =>
    rw [run_step hstep] at hrun
    exact ⟨s1, rfl, hrun⟩

theorem all_step {s s1 : σ} {a : α} (hstep : step s a = some s1) (ok : σ → α → Bool) (as : List α)
    : all step ok s (a :: as) = (ok s a && all step ok s1 as) := by
  rw [all, hstep]

theorem run_append {s s' : σ} {as bs : List α} (h : run step s as = some s')
    : run step s (as ++ bs) = run step s' bs := by
  induction as generalizing s with
  | nil =>
    cases h
    rfl
  | cons a as ih =>
    obtain ⟨s1, hstep, hrun⟩ := run_cons h
    rw [List.cons_append, run_step hstep]
    exact ih hrun

/--
The invariant can also speak about the actions that have been taken.
-/
theorem run_history_of_all {ok : σ → α → Bool} {Inv : List α → σ → Prop}
    (hinv : ∀ as s a s', Inv as s → ok s a = true → step s a = some s' → Inv (as ++ [a]) s')
    {s s' : σ} {as bs : List α} (h : Inv as s) (hok : all step ok s bs = true)
    (hrun : run step s bs = some s')
    : Inv (as ++ bs) s' := by
  induction bs generalizing as s with
  | nil =>
    cases hrun
    rw [List.append_nil]
    exact h
  | cons b bs ih =>
    obtain ⟨s1, hstep, hrun⟩ := run_cons hrun
    rw [all_step hstep, Bool.and_eq_true] at hok
    rw [← List.singleton_append, ← List.append_assoc]
    exact ih (hinv as s b s1 h hok.1 hstep) hok.2 hrun

theorem run_inv_of_all {ok : σ → α → Bool} {Inv : σ → Prop}
    (hinv : ∀ s a s', Inv s → ok s a = true → step s a = some s' → Inv s') {s s' : σ} (h : Inv s)
    {as : List α} (hok : all step ok s as = true) (hrun : run step s as = some s')
    : Inv s' :=
  @run_history_of_all _ _ _ ok (fun _ => Inv) (fun _ => hinv) s s' [] as h hok hrun

theorem run_history {Inv : List α → σ → Prop} (hinv : ∀ as s a s', Inv as s → step s a = some s' → Inv (as ++ [a]) s')
    {s s' : σ} {as bs : List α} (h : Inv as s) (hrun : run step s bs = some s')
    : Inv (as ++ bs) s' := by
  induction bs generalizing as s with
  | nil =>
    cases hrun
    rw [List.append_nil]
    exact h
  | cons b bs ih =>
    obtain ⟨s1, hstep, hrun⟩ := run_cons hrun
    rw [← List.singleton_append, ← List.append_assoc]
    exact ih (hinv as s b s1 h hstep) hrun

theorem run_inv {Inv : σ → Prop} (hinv : ∀ s a s', Inv s → step s a = some s' → Inv s') {s s' : σ}
    (h : Inv s) {as : List α} (hrun : run step s as = some s')
    : Inv s' :=
  @run_history _ _ _ (fun _ => Inv) (fun _ => hinv) s s' [] as h hrun

/--
Where an action keeps the invariant if and only if it meets the condition, a run meets it all along if and only if the
invariant holds all along.
-/
theorem all_iff_inv {ok : σ → α → Bool} {Inv : σ → Prop}
    (hinv : ∀ s a s', Inv s → step s a = some s' → (ok s a = true ↔ Inv s')) {s s' : σ} (h : Inv s) {as : List α}
    (hrun : run step s as = some s')
    : all step ok s as = true ↔ ∀ bs, bs <+: as → ∀ t, run step s bs = some t → Inv t := by
  induction as generalizing s with
  | nil =>
    refine iff_of_true rfl ?_
    intro bs hbs t ht
    rw [List.prefix_nil.mp hbs] at ht
    cases ht
    exact h
  | cons a as ih =>
    obtain ⟨s1, hstep, hrun1⟩ := run_cons hrun
    rw [all_step hstep, Bool.and_eq_true, hinv s a s1 h hstep]
    constructor
    . intro ⟨h1, hall⟩ bs hbs t ht
      cases bs with
      | nil =>
        cases ht
        exact h
      | cons b bs =>
        obtain ⟨rfl, htail⟩ := List.cons_prefix_cons.mp hbs
        rw [run_step hstep] at ht
        exact (ih h1 hrun1).mp hall bs htail t ht
    . intro hall
      have h1 : Inv s1 := by
        apply hall [a] (List.cons_prefix_cons.mpr ⟨rfl, List.nil_prefix⟩)
        exact run_step hstep []
      refine ⟨h1, (ih h1 hrun1).mpr ?_⟩
      intro bs hbs t ht
      apply hall (a :: bs) (List.cons_prefix_cons.mpr ⟨rfl, hbs⟩)
      rw [run_step hstep]
      exact ht

-- Whether a property holds wherever an action is taken in a run
def Along (step : σ → α → Option σ) (s : σ) (as : List α) (P : σ → α → Prop) : Prop :=
  ∀ before a after, as = before ++ a :: after → ∀ s', run step s before = some s' → P s' a

/--
An equivalence that follows from the invariant.
-/
theorem along_congr (Inv : σ → Prop) (hinv : ∀ s a s', Inv s → step s a = some s' → Inv s') {P Q : σ → α → Prop}
    (hiff : ∀ s a, Inv s → (P s a ↔ Q s a)) {s : σ} (h : Inv s) (as : List α)
    : Along step s as P ↔ Along step s as Q := by
  have hreached (before : List α) (s' : σ) (hrun : run step s before = some s') (a : α) : P s' a ↔ Q s' a :=
    hiff s' a (run_inv hinv h hrun)
  constructor
  . intro hall before a after heq s' hrun
    exact (hreached before s' hrun a).mp (hall before a after heq s' hrun)
  . intro hall before a after heq s' hrun
    exact (hreached before s' hrun a).mpr (hall before a after heq s' hrun)

/--
What each element of a list keeps, the loop over the list keeps.
-/
theorem foldlM_inv {f : σ → α → Option σ} {I : σ → Prop} {as : List α}
    (hinv : ∀ s a s', a ∈ as → I s → f s a = some s' → I s') {s s' : σ} (h : I s)
    (hfold : as.foldlM f s = some s')
    : I s' := by
  induction as generalizing s with
  | nil =>
    cases hfold
    exact h
  | cons a as ih =>
    rw [List.foldlM_cons, Option.bind_eq_bind, Option.bind_eq_some_iff] at hfold
    obtain ⟨s1, hstep, hfold⟩ := hfold
    refine ih ?_ (hinv s a s1 List.mem_cons_self h hstep) hfold
    intro t b t' hb
    exact hinv t b t' (List.mem_cons_of_mem a hb)

/--
A loop gives the same with a body that gives the same wherever the other one gives anything.
-/
theorem foldlM_mono {f g : σ → α → Option σ} (hmono : ∀ s a s', f s a = some s' → g s a = some s')
    {as : List α} {s s' : σ} (hfold : as.foldlM f s = some s')
    : as.foldlM g s = some s' := by
  induction as generalizing s with
  | nil => exact hfold
  | cons a as ih =>
    rw [List.foldlM_cons, Option.bind_eq_bind, Option.bind_eq_some_iff] at hfold
    obtain ⟨s1, hstep, hfold⟩ := hfold
    rw [List.foldlM_cons, hmono s a s1 hstep, Option.bind_eq_bind, Option.bind_some]
    exact ih hfold

section Threads

variable {ι β : Type} [DecidableEq ι]

theorem forall_update {P : ι → β → Prop} {g : ι → β} {i : ι} {b : β} (hself : P i b)
    (hother : ∀ j, j ≠ i → P j (g j))
    : ∀ j, P j (Function.update g i b j) := by
  intro j
  by_cases h : j = i
  . rw [h, Function.update_self]
    exact hself
  . rw [Function.update_of_ne h]
    exact hother j h

variable [Fintype ι]

/--
Only the part of the thread that takes the step is replaced.
-/
theorem sum_update (f : β → Nat) (g : ι → β) (i : ι) (b : β)
    : (∑ j, f (Function.update g i b j)) + f (g i) = (∑ j, f (g j)) + f b := by
  have hnew := Finset.add_sum_erase Finset.univ (fun j => f (Function.update g i b j))
    (Finset.mem_univ i)
  have hold := Finset.add_sum_erase Finset.univ (fun j => f (g j)) (Finset.mem_univ i)
  have hrest : ∑ j ∈ Finset.univ.erase i, f (Function.update g i b j)
      = ∑ j ∈ Finset.univ.erase i, f (g j) := by
    apply Finset.sum_congr rfl
    intro j hj
    rw [Function.update_of_ne (Finset.ne_of_mem_erase hj)]
  rw [← hnew, ← hold, hrest]
  simp only [Function.update_self]
  omega

end Threads

end Runs
