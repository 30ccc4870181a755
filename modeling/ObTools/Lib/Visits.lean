import ObTools.Lib.Decoder

/-!
This module contains what is visited while a decoder runs, in the order of the visits, whether or not
the decoder ends in the end.
-/

namespace Visits

variable {σ ε α β γ δ : Type}

-- What is visited after a decoder, from the value and the state it ends with
def after (x : Decoder σ ε α) (v : α → σ → List β) : σ → List β := fun s =>
  match x s with
  | some (.ok (a, s)) => v a s
  | _ => []

theorem after_eq {x : Decoder σ ε α} {v : α → σ → List β} {s s' : σ} {a : α}
    (h : x s = some (.ok (a, s')))
    : after x v s = v a s' := by
  unfold after
  rw [h]

theorem mem_after {x : Decoder σ ε α} {v : α → σ → List β} {s : σ} {b : β} (h : b ∈ after x v s)
    : ∃ a s', x s = some (.ok (a, s')) ∧ b ∈ v a s' := by
  unfold after at h
  split at h
  case h_1 a s' heq => exact ⟨a, s', heq, h⟩
  case h_2 => exact absurd h List.not_mem_nil

variable (Q : γ → β → Prop) (u : γ → β → γ)

/-
What is visited is as it has to be after what has been visited before.
-/
def Ordered : γ → List β → Prop
  | _, [] => True
  | c, b :: l => Q c b ∧ Ordered (u c b) l

/-
A part of the state is as it has to be after what the decoder has visited.
-/
structure Tracks (g : σ → γ) (x : Decoder σ ε α) (v : σ → List β) (s : σ) : Prop where
  ordered : Ordered Q u (g s) (v s)
  state : ∀ a s', x s = some (.ok (a, s')) → g s' = (v s).foldl u (g s)

variable {Q u}

theorem Ordered.append {c : γ} {l l' : List β} (hl : Ordered Q u c l) (hl' : Ordered Q u (l.foldl u c) l')
    : Ordered Q u c (l ++ l') := by
  induction l generalizing c with
  | nil => exact hl'
  | cons b l ih => exact ⟨hl.1, ih hl.2 hl'⟩

namespace Tracks

variable {g : σ → γ} {x : Decoder σ ε α} {v : σ → List β} {s : σ}

theorem silent (h : ∀ a s', x s = some (.ok (a, s')) → g s' = g s) : Tracks Q u g x (fun _ => []) s :=
  ⟨trivial, h⟩

theorem fails (h : ∀ a s', x s ≠ some (.ok (a, s'))) : Tracks Q u g x (fun _ => []) s := by
  apply silent
  intro a s' heq
  exact absurd heq (h a s')

theorem pure (a : α) : Tracks Q u g (Pure.pure a : Decoder σ ε α) (fun _ => []) s := by
  apply silent
  intro a' s' h
  cases h
  rfl

theorem raise (e : ε) : Tracks Q u g (Decoder.raise e : Decoder σ ε α) (fun _ => []) s := by
  apply fails
  intro a s' h
  cases h

theorem outOfFuel : Tracks Q u g (Decoder.outOfFuel : Decoder σ ε α) (fun _ => []) s := by
  apply fails
  intro a s' h
  cases h

theorem bind {f : α → Decoder σ ε δ} {w : α → σ → List β} (hx : Tracks Q u g x v s)
    (hf : ∀ a s', x s = some (.ok (a, s')) → Tracks Q u g (f a) (w a) s')
    : Tracks Q u g (x >>= f) (fun s => v s ++ after x w s) s := by
  refine ⟨?_, ?_⟩
  . apply hx.ordered.append
    unfold after
    split
    case h_1 a s' heq =>
      rw [← hx.state a s' heq]
      exact (hf a s' heq).ordered
    case h_2 => exact trivial
  . intro b s' h
    obtain ⟨a, s1, heq, h⟩ := Decoder.bind_ok h
    rw [(hf a s1 heq).state b s' h, hx.state a s1 heq, List.foldl_append, after_eq heq]

-- Nothing is visited by the first of two decoders
theorem bind_silent {f : α → Decoder σ ε δ} {w : α → σ → List β}
    (hx : ∀ a s', x s = some (.ok (a, s')) → g s' = g s)
    (hf : ∀ a s', x s = some (.ok (a, s')) → Tracks Q u g (f a) (w a) s')
    : Tracks Q u g (x >>= f) (after x w) s :=
  (silent hx).bind hf

-- Nothing is visited by the second one
theorem bind_rest {f : α → Decoder σ ε δ} (hx : Tracks Q u g x v s)
    (hf : ∀ a s' b s'', x s = some (.ok (a, s')) → f a s' = some (.ok (b, s'')) → g s'' = g s')
    : Tracks Q u g (x >>= f) v s := by
  refine ⟨hx.ordered, ?_⟩
  intro b s'' h
  obtain ⟨a, s', heq, h⟩ := Decoder.bind_ok h
  rw [hf a s' b s'' heq h, hx.state a s' heq]

theorem of_eq {y : Decoder σ ε α} (heq : y s = x s) (hx : Tracks Q u g x v s) : Tracks Q u g y v s := by
  refine ⟨hx.ordered, ?_⟩
  rw [heq]
  exact hx.state

theorem congr {v' : σ → List β} (hx : Tracks Q u g x v s) (heq : v' s = v s) : Tracks Q u g x v' s := by
  refine ⟨?_, ?_⟩
  . rw [heq]
    exact hx.ordered
  . rw [heq]
    exact hx.state

end Tracks

end Visits
