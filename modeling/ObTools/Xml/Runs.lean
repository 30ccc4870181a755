import ObTools.Lib.Visits
import ObTools.Xml.Parsed

/-!
This module contains the runs of the parser: what there is of interest in its steps, in their order, and
what a step can do.
-/

namespace ObTools
namespace Xml
namespace Parser

open Decoder (Keeps)
open Visits (Tracks after)

variable {α β γ : Type}

-- What is of interest in the steps of the document-level parser
def visits (f : Parser → List β) : Nat → Parser → List β
  | 0, _ => []
  | fuel + 1, p => f p ++ after parseStep (fun done => if done then fun _ => [] else visits f fuel) p

def visitsOf (f : Parser → List β) : Parser → List β :=
  after skipBom fun _ p => visits f (p.rest.length + 1) p

-- The first character of a step
def first : Parse UInt8 := do
  let p ← get
  if p.hasRoot ∧ p.flags.preserveWhitespace then getChar 0 else skipWs 0

variable {f : Parser → List β} {p p' : Parser} {fuel : Nat}

theorem first_bind (g : UInt8 → Parse α) (p : Parser)
    : (first >>= g) p = (if p.hasRoot ∧ p.flags.preserveWhitespace then getChar 0 >>= g else skipWs 0 >>= g) p := by
  unfold first
  rw [bind_assoc, Decoder.get_bind]
  split <;> rfl

theorem first_keeps {I : Parser → Prop} [OfElements I] : Keeps I first := by
  apply Keeps.get_bind
  intro p _
  split
  . exact getChar_keeps 0
  . exact skipWs_keeps 0

theorem first_moved {c : UInt8} (h : first p = some (.ok (c, p'))) : Moved p p' :=
  first_keeps p c p' (Moved.refl p) h

/-
What holds in all states of a run.
-/
section

variable {I : Parser → Prop} {Q : β → Prop}

theorem forall_visits (hstep : Keeps I parseStep) (hf : ∀ p, I p → ∀ b ∈ f p, Q b) (hp : I p)
    : ∀ b ∈ visits f fuel p, Q b := by
  induction fuel generalizing p with
  | zero =>
    intro b hb
    exact absurd hb List.not_mem_nil
  | succ fuel ih =>
    intro b hb
    rw [visits, List.mem_append] at hb
    rcases hb with hb | hb
    . exact hf p hp b hb
    . obtain ⟨done, p', heq, hb⟩ := Visits.mem_after hb
      split at hb
      . exact absurd hb List.not_mem_nil
      . exact ih (hstep p done p' hp heq) b hb

end

section

variable {Q : γ → β → Prop} {u : γ → β → γ} {g : Parser → γ}

theorem withFuel_tracks {loop : Nat → Parse α} {v : Nat → Parser → List β}
    (h : Tracks Q u g (loop (p.rest.length + 1)) (v (p.rest.length + 1)) p)
    : Tracks Q u g (withFuel loop) (fun p => v (p.rest.length + 1) p) p :=
  ⟨h.ordered, h.state⟩

theorem visits_tracks {I : Parser → Prop} (hstep : Keeps I parseStep)
    (hf : ∀ p, I p → Tracks Q u g parseStep f p) (hp : I p)
    : Tracks Q u g (parseLoop fuel) (visits f fuel) p := by
  induction fuel generalizing p with
  | zero => exact Tracks.outOfFuel
  | succ fuel ih =>
    apply (hf p hp).bind
    intro done p' heq
    cases done with
    | true => exact Tracks.pure ()
    | false => exact ih (hstep p false p' hp heq)

theorem visitsOf_tracks {I : Parser → Prop} (hbom : Keeps I skipBom) (hstep : Keeps I parseStep)
    (hf : ∀ p, I p → Tracks Q u g parseStep f p) (hp : I p)
    (hsame : ∀ u p', skipBom p = some (.ok (u, p')) → g p' = g p)
    : Tracks Q u g parseStream (visitsOf f) p := by
  apply Tracks.bind_silent hsame
  intro u p' heq
  exact withFuel_tracks (visits_tracks hstep hf (hbom p u p' hp heq))

end

/-
What a step can do.
-/
inductive Stepped (p p' : Parser) : Bool → Prop
  -- A comment, a declaration or a processing instruction
  | skip {c : UInt8} {p1 p2 : Parser} (open1 : first p = some (.ok (60, p1)))
      (open2 : getChar 60 p1 = some (.ok (c, p2))) (mark : c = 33 ∨ c = 63)
      (keeps : ∀ (I : Parser → Prop) [OfElements I], I p → I p')
    : Stepped p p' false
  | endTag {c : UInt8} {p1 p2 p3 : Parser} (open1 : first p = some (.ok (60, p1)))
      (open2 : getChar 60 p1 = some (.ok (47, p2))) (open3 : getChar 47 p2 = some (.ok (c, p3)))
      (name : isNameStart c = true) (read : readEndTag c p3 = some (.ok ((), p')))
    : Stepped p p' p'.elements.isEmpty
  | tag {c : UInt8} {p1 p2 : Parser} {empty : Bool} (open1 : first p = some (.ok (60, p1)))
      (open2 : getChar 60 p1 = some (.ok (c, p2))) (name : isNameStart c = true)
      (read : readTag c p2 = some (.ok (empty, p')))
    : Stepped p p' (empty && p'.elements.isEmpty)
  -- Text that begins with a character that cannot begin a tag
  | text {c : UInt8} {p1 p2 p3 : Parser} (open1 : first p = some (.ok (60, p1)))
      (open2 : getChar 60 p1 = some (.ok (c, p2))) (other : c ≠ 47 ∧ isNameStart c = false)
      (back : unget c p2 = some (.ok ((), p3)))
      (read : readContent 60 p3 = some (.ok ((), p')))
    : Stepped p p' false
  | content {c : UInt8} {p1 : Parser} (root : p.hasRoot = true) (char : c ≠ 0 ∧ c ≠ 60)
      (open1 : first p = some (.ok (c, p1))) (read : readContent c p1 = some (.ok ((), p')))
    : Stepped p p' false

theorem Stepped.of_keeps {c : UInt8} {p1 p2 p3 : Parser} {x : Parse Unit} {done : Bool}
    (hx : ∀ (I : Parser → Prop) [OfElements I], Keeps I x)
    (h1 : first p = some (.ok (60, p1))) (h2 : getChar 60 p1 = some (.ok (c, p2))) (hc : c = 33 ∨ c = 63)
    (hmove : ∀ (I : Parser → Prop) [OfElements I], I p → I p3)
    (h : (do x; pure false : Parse Bool) p3 = some (.ok (done, p')))
    : Stepped p p' done := by
  obtain ⟨u, p4, hread, h⟩ := Decoder.bind_ok h
  cases h
  refine skip h1 h2 hc ?_
  intro I hI hp
  exact hx I p3 u p' (hmove I hp) hread

theorem parseStep_cases {done : Bool} (h : parseStep p = some (.ok (done, p'))) : Stepped p p' done := by
  unfold parseStep at h
  rw [Decoder.get_bind] at h
  obtain ⟨c, p1, h1, h⟩ := Decoder.bind_ok ((first_bind _ p).trans h)
  dsimp only at h
  have hmove1 (I : Parser → Prop) [OfElements I] (hp : I p) : I p1 := first_keeps p c p1 hp h1
  split at h
  case isTrue => exact absurd h (fatal_ne_ok _ _)
  case isFalse hc0 =>
    split at h
    case isTrue hc =>
      cases hc
      obtain ⟨c2, p2, h2, h⟩ := Decoder.bind_ok h
      have hmove2 (I : Parser → Prop) [OfElements I] (hp : I p) : I p2 :=
        getChar_keeps 60 p1 c2 p2 (hmove1 I hp) h2
      split at h
      case isTrue hbang =>
        -- A comment, or something else that is skipped
        obtain ⟨c3, p3, h3, h⟩ := Decoder.bind_ok h
        have hmove3 (I : Parser → Prop) [OfElements I] (hp : I p) : I p3 :=
          getChar_keeps c2 p2 c3 p3 (hmove2 I hp) h3
        split at h
        case isTrue =>
          obtain ⟨c4, p4, h4, h⟩ := Decoder.bind_ok h
          have hmove4 (I : Parser → Prop) [OfElements I] (hp : I p) : I p4 :=
            getChar_keeps c3 p3 c4 p4 (hmove3 I hp) h4
          split at h
          . exact Stepped.of_keeps (fun _ _ => skipComment_keeps) h1 h2 (.inl hbang) hmove4 h
          . rw [← bind_assoc] at h
            exact Stepped.of_keeps (fun _ _ => (error_keeps _).bind fun _ => skipToGt_keeps) h1 h2 (.inl hbang)
              hmove4 h
        case isFalse => exact Stepped.of_keeps (fun _ _ => skipToGt_keeps) h1 h2 (.inl hbang) hmove3 h
      case isFalse =>
        split at h
        case isTrue hquery => exact Stepped.of_keeps (fun _ _ => skipPi_keeps) h1 h2 (.inr hquery) hmove2 h
        case isFalse =>
          split at h
          case isTrue hslash =>
            cases hslash
            obtain ⟨c3, p3, h3, h⟩ := Decoder.bind_ok h
            split at h
            case isTrue hname =>
              obtain ⟨u, p4, hread, h⟩ := Decoder.bind_ok h
              rw [Decoder.get_bind] at h
              cases h
              exact .endTag h1 h2 h3 hname hread
            case isFalse =>
              obtain ⟨u, p4, hread, -⟩ := Decoder.bind_ok h
              exact absurd hread (fatal_ne_ok _ _)
          case isFalse hslash =>
            split at h
            case isTrue hname =>
              obtain ⟨empty, p3, hread, h⟩ := Decoder.bind_ok h
              rw [Decoder.get_bind] at h
              cases h
              exact .tag h1 h2 hname hread
            case isFalse hname =>
              split at h
              case isTrue =>
                obtain ⟨u, p3, hback, h⟩ := Decoder.bind_ok h
                obtain ⟨u, p4, hread, h⟩ := Decoder.bind_ok h
                cases h
                exact .text h1 h2 ⟨hslash, Bool.not_eq_true _ ▸ hname⟩ hback hread
              case isFalse => exact absurd h (fatal_ne_ok _ _)
    case isFalse hc =>
      split at h
      case isTrue hroot =>
        obtain ⟨u, p2, hread, h⟩ := Decoder.bind_ok h
        cases h
        exact .content hroot ⟨hc0, hc⟩ h1 hread
      case isFalse => exact absurd h (fatal_ne_ok _ _)

end Parser
end Xml
end ObTools
