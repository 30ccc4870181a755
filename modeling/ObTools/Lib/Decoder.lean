import Mathlib.Data.List.Basic

/-!
This module contains decoders that read from a source of bytes with a state of its own. A decoder can
throw an exception, and it can run out of fuel.

That a decoder reads some bytes means that it consumes them if it finds them in front of it, whatever
comes after them.
-/

abbrev Decoder (σ ε α : Type) := StateT σ (ExceptT ε Option) α

namespace Decoder

variable {σ ε α β γ : Type}

def outOfFuel : Decoder σ ε α := fun _ => none

def raise (e : ε) : Decoder σ ε α := fun _ => some (.error e)

def lift (f : σ → Except ε (α × σ)) : Decoder σ ε α := fun s => some (f s)

theorem bind_eq {x : Decoder σ ε α} {s s' : σ} {a : α} (f : α → Decoder σ ε β)
    (h : x s = some (.ok (a, s')))
    : (x >>= f) s = f a s' := by
  simp only [bind, StateT.bind, ExceptT.bind, ExceptT.mk]
  rw [h]
  rfl

theorem bind_error {x : Decoder σ ε α} {s : σ} {e : ε} (f : α → Decoder σ ε β)
    (h : x s = some (.error e))
    : (x >>= f) s = some (.error e) := by
  simp only [bind, StateT.bind, ExceptT.bind, ExceptT.mk]
  rw [h]
  rfl

theorem bind_ok {x : Decoder σ ε α} {f : α → Decoder σ ε β} {s s' : σ} {b : β}
    (h : (x >>= f) s = some (.ok (b, s')))
    : ∃ a s1, x s = some (.ok (a, s1)) ∧ f a s1 = some (.ok (b, s')) := by
  cases hx : x s with
  | none =>
    have hnone : (x >>= f) s = none := by
      simp only [bind, StateT.bind, ExceptT.bind, ExceptT.mk]
      rw [hx]
      rfl
    rw [hnone] at h
    cases h
  | some r =>
    cases r with
    | error e =>
      rw [bind_error f hx] at h
      cases h
    | ok r =>
      rw [bind_eq f hx] at h
      exact ⟨r.1, r.2, rfl, h⟩

theorem bind_ne_none {x : Decoder σ ε α} {f : α → Decoder σ ε β} {s : σ} (hx : x s ≠ none)
    (hf : ∀ a s', x s = some (.ok (a, s')) → f a s' ≠ none)
    : (x >>= f) s ≠ none := by
  cases hread : x s with
  | none => exact absurd hread hx
  | some r =>
    cases r with
    | error e =>
      rw [bind_error f hread]
      simp
    | ok r =>
      rw [bind_eq f hread]
      apply hf r.1 r.2 hread

theorem get_bind (f : σ → Decoder σ ε α) (s : σ) : (get >>= f) s = f s s := rfl

theorem set_bind (s' : σ) (f : PUnit → Decoder σ ε α) (s : σ) : (set s' >>= f) s = f () s' := rfl

theorem modify_bind (g : σ → σ) (f : PUnit → Decoder σ ε α) (s : σ)
    : (modify g >>= f) s = f () (g s) := rfl

theorem pure_eq (a : α) (s : σ) : (pure a : Decoder σ ε α) s = some (.ok (a, s)) := rfl

/-
What holds of the state before a decoder holds of the state after it, if there is one.
-/
def Keeps (I : σ → Prop) (x : Decoder σ ε α) : Prop :=
  ∀ s a s', I s → x s = some (.ok (a, s')) → I s'

namespace Keeps

variable {I : σ → Prop} {x : Decoder σ ε α}

theorem pure (a : α) : Keeps I (Pure.pure a : Decoder σ ε α) := by
  intro s a s' hs h
  cases h
  exact hs

theorem raise (e : ε) : Keeps I (Decoder.raise e : Decoder σ ε α) := by
  intro s a s' _ h
  cases h

theorem outOfFuel : Keeps I (Decoder.outOfFuel : Decoder σ ε α) := by
  intro s a s' _ h
  cases h

theorem modify {g : σ → σ} (hg : ∀ s, I s → I (g s))
    : Keeps I (MonadState.modifyGet fun s => (⟨⟩, g s) : Decoder σ ε PUnit) := by
  intro s a s' hs h
  cases h
  exact hg s hs

theorem bind {f : α → Decoder σ ε β} (hx : Keeps I x) (hf : ∀ a, Keeps I (f a))
    : Keeps I (x >>= f) := by
  intro s b s' hs h
  obtain ⟨a, s1, hx', hf'⟩ := bind_ok h
  exact hf a s1 b s' (hx s a s1 hs hx') hf'

theorem set {s' : σ} (hs' : I s') : Keeps I (MonadStateOf.set s' : Decoder σ ε PUnit) := by
  intro s a s1 _ h
  cases h
  exact hs'

theorem set_bind {s' : σ} {f : PUnit → Decoder σ ε α} (hs' : I s') (hf : Keeps I (f ()))
    : Keeps I (MonadStateOf.set s' >>= f) := by
  intro s a s1 _ h
  exact hf s' a s1 hs' h

-- The invariant holds of the state that is read
theorem get_bind {f : σ → Decoder σ ε α} (hf : ∀ s, I s → Keeps I (f s)) : Keeps I (get >>= f) := by
  intro s a s' hs h
  exact hf s hs s a s' hs h

end Keeps

/-
A decoder that comes to an end from every state with one property, in a state with another one if there is one.
-/
def Runs (I J : σ → Prop) (x : Decoder σ ε α) : Prop :=
  ∀ s, I s → x s ≠ none ∧ ∀ a s', x s = some (.ok (a, s')) → J s'

namespace Runs

variable {I J K : σ → Prop} {x : Decoder σ ε α}

theorem pure (a : α) : Runs I I (Pure.pure a : Decoder σ ε α) := by
  intro s hs
  refine ⟨Option.some_ne_none _, ?_⟩
  intro b s' h
  cases h
  exact hs

theorem bind {f : α → Decoder σ ε β} (hx : Runs I J x) (hf : ∀ a, Runs J K (f a)) : Runs I K (x >>= f) := by
  intro s hs
  obtain ⟨hsome, hkeep⟩ := hx s hs
  refine ⟨bind_ne_none hsome fun a s' h => (hf a s' (hkeep a s' h)).1, ?_⟩
  intro b s' h
  obtain ⟨a, s1, hx', hf'⟩ := bind_ok h
  exact (hf a s1 (hkeep a s1 hx')).2 b s' hf'

theorem weaken (hx : Runs I J x) (h : ∀ s, J s → K s) : Runs I K x := by
  intro s hs
  exact ⟨(hx s hs).1, fun a s' heq => h s' ((hx s hs).2 a s' heq)⟩

end Runs

def Reads (data : σ → List UInt8) (x : Decoder σ ε α) (bytes : List UInt8) (a : α) : Prop :=
  ∀ s rest, data s = bytes ++ rest → ∃ s', x s = some (.ok (a, s')) ∧ data s' = rest

namespace Reads

variable {data : σ → List UInt8} {x : Decoder σ ε α} {bytes bytes1 bytes2 : List UInt8} {a : α}
  {b : β}

theorem pure (a : α) : Reads data (Pure.pure a : Decoder σ ε α) [] a := by
  intro s rest hdata
  exact ⟨s, rfl, hdata⟩

theorem bind {f : α → Decoder σ ε β} (hx : Reads data x bytes1 a) (hf : Reads data (f a) bytes2 b)
    : Reads data (x >>= f) (bytes1 ++ bytes2) b := by
  intro s rest hdata
  rw [List.append_assoc] at hdata
  obtain ⟨s1, hx, hdata1⟩ := hx s _ hdata
  obtain ⟨s2, hf, hdata2⟩ := hf s1 _ hdata1
  refine ⟨s2, ?_, hdata2⟩
  rw [bind_eq f hx]
  exact hf

theorem bind_return (f : α → β) (hx : Reads data x bytes a)
    : Reads data (x >>= fun a => Pure.pure (f a) : Decoder σ ε β) bytes (f a) := by
  have := hx.bind (f := fun a => Pure.pure (f a)) (pure (f a))
  rw [List.append_nil] at this
  exact this

end Reads

end Decoder
