import Mathlib.Data.List.Forall2

/-!
This module contains what is seen of something that is ticked until it ends: what each of its ticks puts out. There are
the ticks of one thing after another, of things side by side, and of those that end with the first of them, and the
rules for showing them of a machine.
-/

/-
What the ticks put out, one after the other. It is `cut` where it is not looked at any further.
-/
inductive Ticks (α : Type) where
  | cut
  -- It ends with this tick
  | last (out : List α)
  | next (out : List α) (rest : Ticks α)
deriving DecidableEq, Repr

-- What a tick of a machine leaves: whether it is still active, and its environment
structure Ticked (α ε σ : Type) where
  active : Bool
  out : List α
  env : ε
  state : σ

-- The same, of a machine that it is the state of
def Ticked.lift {α ε σ τ : Type} (t : Ticked α ε σ) (f : σ → τ) : Ticked α ε τ where
  active := t.active
  out := t.out
  env := t.env
  state := f t.state

namespace Ticks

variable {α β ε σ τ : Type} {t u : Ticks β} {ts : List (Ticks β)} {n budget : Nat}

def map (f : α → β) : Ticks α → Ticks β
  | cut => cut
  | last out => last (out.map f)
  | next out rest => next (out.map f) (rest.map f)

def take : Nat → Ticks β → Ticks β
  | 0, _ => cut
  | _ + 1, cut => cut
  | _ + 1, last out => last out
  | budget + 1, next out rest => next out (rest.take budget)

-- More is put out in the first tick, in front
def before (out : List β) : Ticks β → Ticks β
  | cut => cut
  | last out' => last (out ++ out')
  | next out' rest => next (out ++ out') rest

-- What follows is given the number of ticks that are used
def andThen : Ticks β → (Nat → Ticks β) → Ticks β
  | cut, _ => cut
  | last out, f => next out (f 1)
  | next out rest, f => next out (rest.andThen fun used => f (used + 1))

-- Side by side, until both have ended
def both : Ticks β → Ticks β → Ticks β
  | cut, _ => cut
  | _, cut => cut
  | last a, last b => last (a ++ b)
  | last a, next b u => next (a ++ b) u
  | next a t, last b => next (a ++ b) t
  | next a t, next b u => next (a ++ b) (t.both u)

-- Side by side, until one has ended
def race : Ticks β → Ticks β → Ticks β
  | cut, _ => cut
  | _, cut => cut
  | last a, last b => last (a ++ b)
  | last a, next b _ => last (a ++ b)
  | next a _, last b => last (a ++ b)
  | next a t, next b u => next (a ++ b) (t.race u)

-- Without an end
def silent : Nat → Ticks β
  | 0 => cut
  | budget + 1 => next [] (silent budget)

-- Nothing until the tick that it is due at, which is the first of what follows
def wait (due : Nat → Bool) (f : Nat → Nat → Ticks β) : Nat → Nat → Ticks β
  | 0, _ => cut
  | budget + 1, n => if due n then f (budget + 1) n else next [] (wait due f budget (n + 1))

-- Again and again, for the number of times that are left when it has ended, if there is one
def again (body : Nat → Nat → Ticks β) : Nat → Option Nat → Nat → Nat → Ticks β
  | 0, _, _, _ => cut
  | fuel + 1, left, budget, n =>
    if left = some 0 then
      body budget n
    else
      (body budget n).andThen fun used => again body fuel (left.map (· - 1)) (budget - used) (n + used)

-- Copies side by side, each from the first tick that is due after the one that the copy before it began at
def staggered (due : Nat → Nat → Bool) (body : Nat → Nat → Ticks β) : Nat → Nat → Nat → Ticks β
  | 0, _, _ => last []
  | copies + 1, budget, n =>
    (body budget n).both <|
      if copies = 0 then last [] else next [] (wait (due n) (staggered due body copies) (budget - 1) (n + 1))

def zip (ts : List (Ticks β)) : Ticks β := ts.foldr both (last [])

def first (budget : Nat) (ts : List (Ticks β)) : Ticks β := ts.foldr race (silent budget)

-- What is put out in the first tick
def head : Ticks β → List β
  | cut => []
  | last out => out
  | next out _ => out

def rest : Ticks β → Option (Ticks β)
  | next _ rest => some rest
  | _ => none

/-
Side by side, tick by tick.
-/

theorem both_last_nil (t : Ticks β) : t.both (last []) = t := by
  cases t with
  | cut => rfl
  | last out => exact congrArg last (List.append_nil out)
  | next out rest => exact congrArg (next · rest) (List.append_nil out)

theorem zip_append_both (ts : List (Ticks β)) (t u : Ticks β) : zip (ts ++ [t.both u]) = zip (ts ++ [t, u]) := by
  unfold zip
  rw [List.foldr_append, List.foldr_append]
  simp only [List.foldr_cons, List.foldr_nil, both_last_nil]

theorem zip_append_last (ts : List (Ticks β)) : zip (ts ++ [last []]) = zip ts := by
  unfold zip
  rw [List.foldr_append]
  rfl

/--
What is side by side goes on with the rests of those that have not ended.
-/
theorem zip_eq (hts : cut ∉ ts)
    : zip ts
        = if ts.filterMap rest = [] then
            last (ts.flatMap head)
          else
            next (ts.flatMap head) (zip (ts.filterMap rest)) := by
  induction ts with
  | nil => rfl
  | cons t ts ih =>
    rw [List.mem_cons, not_or] at hts
    have hcons : zip (t :: ts) = t.both (zip ts) := rfl
    rw [hcons, ih hts.2, List.flatMap_cons, List.filterMap_cons]
    cases t with
    | cut => exact absurd rfl hts.1
    | last out =>
      by_cases hrests : ts.filterMap rest = []
      . rw [if_pos hrests]
        simp only [rest, hrests, if_true]
        rfl
      . rw [if_neg hrests]
        simp only [rest, hrests, if_false]
        rfl
    | next out more =>
      by_cases hrests : ts.filterMap rest = []
      . rw [if_pos hrests]
        simp only [rest, hrests, reduceCtorEq, if_false]
        exact congrArg (next _) (both_last_nil more).symm
      . rw [if_neg hrests]
        simp only [rest, reduceCtorEq, if_false]
        rfl

/--
With the first to end, all of them end.
-/
theorem first_eq (hts : cut ∉ ts)
    : first (budget + 1) ts
        = if (ts.filterMap rest).length = ts.length then
            next (ts.flatMap head) (first budget (ts.filterMap rest))
          else
            last (ts.flatMap head) := by
  induction ts with
  | nil => rfl
  | cons t ts ih =>
    rw [List.mem_cons, not_or] at hts
    have hcons : first (budget + 1) (t :: ts) = t.race (first (budget + 1) ts) := rfl
    have hle : (ts.filterMap rest).length ≤ ts.length := List.length_filterMap_le rest ts
    rw [hcons, ih hts.2, List.flatMap_cons, List.filterMap_cons]
    cases t with
    | cut => exact absurd rfl hts.1
    | last out =>
      have hne : (ts.filterMap rest).length ≠ ts.length + 1 := by omega
      simp only [rest, List.length_cons, hne, if_false]
      by_cases hlength : (ts.filterMap rest).length = ts.length
      . rw [if_pos hlength]
        rfl
      . rw [if_neg hlength]
        rfl
    | next out more =>
      simp only [rest, List.length_cons, Nat.add_right_cancel_iff]
      by_cases hlength : (ts.filterMap rest).length = ts.length
      . rw [if_pos hlength, if_pos hlength]
        rfl
      . rw [if_neg hlength, if_neg hlength]
        rfl

/-
What is shown by a machine, from any environments that its ticks are given.
-/

variable (f : α → β) (step : ε → Nat → σ → Ticked α ε σ)

def Shows : Nat → Ticks β → Nat → σ → Prop
  | 0, _, _, _ => True
  | _ + 1, cut, _, _ => False
  | _ + 1, last out, n, s => ∀ e, (step e n s).active = false ∧ (step e n s).out.map f = out
  | budget + 1, next out rest, n, s => ∀ e, (step e n s).active = true ∧ (step e n s).out.map f = out
      ∧ Shows budget rest (n + 1) (step e n s).state

variable {f} {step} {g : ε → Nat → τ → Ticked α ε τ} {R : τ → σ → Prop} {s : σ} {x : τ}

theorem Shows.ne_cut (h : Shows f step (budget + 1) t n s) : t ≠ cut := by
  rintro rfl
  exact h

/--
What one tick of it shows.
-/
theorem Shows.tick (h : Shows f step (budget + 1) t n s) (e : ε)
    : (step e n s).out.map f = t.head
      ∧ ((step e n s).active = false ∧ t.rest = none
        ∨ (step e n s).active = true ∧ ∃ u, t.rest = some u ∧ Shows f step budget u (n + 1) (step e n s).state) := by
  cases t with
  | cut => exact h.elim
  | last out => exact ⟨(h e).2, .inl ⟨(h e).1, rfl⟩⟩
  | next out rest => exact ⟨(h e).2.1, .inr ⟨(h e).1, rest, rfl, (h e).2.2⟩⟩

theorem shows_last {out : List β} (h : ∀ e, (step e n s).active = false ∧ (step e n s).out.map f = out)
    : Shows f step budget (last out) n s := by
  cases budget with
  | zero => trivial
  | succ budget => exact h

/--
A machine that ticks as another one does shows the same.
-/
theorem Shows.embed
    (hstep : ∀ e n x s, R x s → ∃ e',
      (g e n x).active = (step e' n s).active ∧ (g e n x).out = (step e' n s).out
        ∧ ((step e' n s).active = true → R (g e n x).state (step e' n s).state))
    (h : Shows f step budget t n s) (hx : R x s)
    : Shows f g budget t n x := by
  induction budget generalizing t n s x with
  | zero => trivial
  | succ budget ih =>
    cases t with
    | cut => exact h.elim
    | last out =>
      intro e
      obtain ⟨e', hactive, hout, -⟩ := hstep e n x s hx
      rw [hactive, hout]
      exact h e'
    | next out rest =>
      intro e
      obtain ⟨e', hactive, hout, hstate⟩ := hstep e n x s hx
      rw [hactive, hout]
      exact ⟨(h e').1, (h e').2.1, ih (h e').2.2 (hstate (h e').1)⟩

/--
A machine that ticks as another one does, and goes on when that one has ended.
-/
theorem Shows.andThen {Q : τ → Prop} {next : Nat → Ticks β}
    (hstep : ∀ e n x s, R x s → ∃ e',
      (g e n x).active = true ∧ (g e n x).out = (step e' n s).out
        ∧ ((step e' n s).active = true → R (g e n x).state (step e' n s).state)
        ∧ ((step e' n s).active = false → Q (g e n x).state))
    (h : Shows f step budget t n s) (hx : R x s)
    (hnext : ∀ used y, 0 < used → Q y → Shows f g (budget - used) (next used) (n + used) y)
    : Shows f g budget (t.andThen next) n x := by
  induction budget generalizing t n s x next with
  | zero => trivial
  | succ budget ih =>
    cases t with
    | cut => exact h.elim
    | last out =>
      intro e
      obtain ⟨e', hactive, hout, -, hQ⟩ := hstep e n x s hx
      rw [hout]
      exact ⟨hactive, (h e').2, hnext 1 _ (Nat.zero_lt_one) (hQ (h e').1)⟩
    | next out rest =>
      intro e
      obtain ⟨e', hactive, hout, hstate, -⟩ := hstep e n x s hx
      rw [hout]
      refine ⟨hactive, (h e').2.1, ih (h e').2.2 (hstate (h e').1) ?_⟩
      intro used y hpos hy
      have hmore := hnext (used + 1) y (Nat.succ_pos used) hy
      rw [Nat.add_sub_add_right, ← Nat.add_assoc, Nat.add_right_comm] at hmore
      exact hmore

/--
A machine whose first tick is that of another state of it, with more in front.
-/
theorem Shows.before {out : List β}
    (h : ∀ e, ∃ e' s', Shows f step budget t n s' ∧ (step e n s).active = (step e' n s').active
      ∧ (step e n s).out.map f = out ++ (step e' n s').out.map f ∧ (step e n s).state = (step e' n s').state)
    (e₀ : ε)
    : Shows f step budget (t.before out) n s := by
  cases budget with
  | zero => trivial
  | succ budget =>
    cases t with
    | cut =>
      obtain ⟨_, s', hs', -⟩ := h e₀
      exact hs'.elim
    | last out' =>
      intro e
      obtain ⟨e', s', hs', hactive, hout, -⟩ := h e
      rw [hactive, hout, (hs' e').2]
      exact ⟨(hs' e').1, rfl⟩
    | next out' rest =>
      intro e
      obtain ⟨e', s', hs', hactive, hout, hstate⟩ := h e
      rw [hactive, hout, hstate, (hs' e').2.1]
      exact ⟨(hs' e').1, rfl, (hs' e').2.2⟩

/-
A machine that is ticked until it ends, in the same environment at the start of each tick.
-/

def run (step : ε → Nat → σ → Ticked α ε σ) (e : ε) : Nat → Nat → σ → Ticks α
  | 0, _, _ => cut
  | budget + 1, n, s =>
    let t := step e n s
    if t.active then next t.out (run step e budget (n + 1) t.state) else last t.out

theorem Shows.run_take (h : Shows f step budget t n s) (e : ε) : (run step e budget n s).map f = t.take budget := by
  induction budget generalizing t n s with
  | zero => rfl
  | succ budget ih =>
    unfold run
    dsimp only
    cases t with
    | cut => exact h.elim
    | last out =>
      obtain ⟨hactive, hout⟩ := h e
      rw [hactive]
      exact congrArg last hout
    | next out rest =>
      obtain ⟨hactive, hout, hrest⟩ := h e
      rw [hactive, if_pos rfl, map, hout, ih hrest, take]

/-
Machines that are ticked one after the other in a tick. Those that have ended are dropped.
-/

def tickAll (tick : ε → σ → Ticked α ε σ) (env : ε) : List σ → Ticked α ε (List σ)
  | [] => { active := false, out := [], env := env, state := [] }
  | s :: states =>
    let t := tick env s
    let others := tickAll tick t.env states
    { active := t.active || others.active,
      out := t.out ++ others.out,
      env := others.env,
      state := if t.active then t.state :: others.state else others.state }

theorem ne_cut_of_shows {states : List σ}
    (h : List.Forall₂ (fun t s => Shows f step (budget + 1) t n s) ts states)
    : cut ∉ ts := by
  induction h with
  | nil => exact List.not_mem_nil
  | cons ht _ ih =>
    rw [List.mem_cons, not_or]
    exact ⟨ht.ne_cut.symm, ih⟩

theorem tickAll_shows {states : List σ}
    (h : List.Forall₂ (fun t s => Shows f step (budget + 1) t n s) ts states) (e : ε)
    : (tickAll (step · n) e states).out.map f = ts.flatMap head
      ∧ List.Forall₂ (fun t s => Shows f step budget t (n + 1) s) (ts.filterMap rest)
          (tickAll (step · n) e states).state := by
  induction h generalizing e with
  | nil => exact ⟨rfl, .nil⟩
  | @cons t s ts states ht _ ih =>
    obtain ⟨hout, hrest⟩ := ht.tick e
    obtain ⟨houts, hrests⟩ := ih (step e n s).env
    unfold tickAll
    dsimp only
    rw [List.map_append, hout, houts, List.flatMap_cons, List.filterMap_cons]
    refine ⟨rfl, ?_⟩
    rcases hrest with ⟨hactive, hnone⟩ | ⟨hactive, u, hsome, hu⟩
    . rw [hactive, hnone]
      exact hrests
    . rw [hactive, hsome]
      exact .cons hu hrests

end Ticks
