import ObTools.Xml.Heap

/-!
This module contains the parts of the parser that leave the elements alone that have been read so far.
-/

namespace ObTools
namespace Xml
namespace Parser

open Decoder (Keeps)
open ObTools.Lex (chars isAlpha)

variable {α β : Type} {els : List Element} {root : Option Element} {next : Nat}

def Same (els : List Element) (root : Option Element) (next : Nat) (p : Parser) : Prop :=
  p.elements = els ∧ p.root = root ∧ p.next = next

/-
What does not depend on where the parser is in its input.
-/
class OfElements (I : Parser → Prop) : Prop where
  move : ∀ p rest failed line errors, I p →
    I { p with rest := rest, failed := failed, line := line, errors := errors }

-- Nor on the base of the numbers that are read
class OfTrees (I : Parser → Prop) : Prop extends OfElements I where
  hex : ∀ p hex, I p → I { p with hex := hex }

instance : OfTrees (Same els root next) where
  move := fun _ _ _ _ _ hp => hp
  hex := fun _ _ hp => hp

/-
A parser that has gone on in its input.
-/
structure Moved (p q : Parser) : Prop where
  flags : q.flags = p.flags
  userNsMap : q.userNsMap = p.userNsMap
  elements : q.elements = p.elements
  root : q.root = p.root
  hasRoot : q.hasRoot = p.hasRoot
  nsMaps : q.nsMaps = p.nsMaps
  next : q.next = p.next

theorem Moved.refl (p : Parser) : Moved p p := ⟨rfl, rfl, rfl, rfl, rfl, rfl, rfl⟩

theorem Moved.trans {p q r : Parser} (h : Moved p q) (h' : Moved q r) : Moved p r :=
  ⟨h'.flags.trans h.flags, h'.userNsMap.trans h.userNsMap, h'.elements.trans h.elements,
    h'.root.trans h.root, h'.hasRoot.trans h.hasRoot, h'.nsMaps.trans h.nsMaps, h'.next.trans h.next⟩

theorem Moved.next_trans {p q r : Parser} {n : Nat} (h : Moved p q) (h' : Moved { q with next := q.next + n } r)
    : Moved { p with next := p.next + n } r :=
  ⟨h'.flags.trans h.flags, h'.userNsMap.trans h.userNsMap, h'.elements.trans h.elements,
    h'.root.trans h.root, h'.hasRoot.trans h.hasRoot, h'.nsMaps.trans h.nsMaps,
    h'.next.trans (congrArg (· + n) h.next)⟩

instance (p : Parser) : OfTrees (Moved p) where
  move := fun _ _ _ _ _ h => ⟨h.flags, h.userNsMap, h.elements, h.root, h.hasRoot, h.nsMaps, h.next⟩
  hex := fun _ _ h => ⟨h.flags, h.userNsMap, h.elements, h.root, h.hasRoot, h.nsMaps, h.next⟩

variable {I : Parser → Prop}

variable {p p' : Parser} {rest : Bytes} {c d : UInt8}

theorem getChar_cons (hfailed : p.failed = false) (hrest : p.rest = d :: rest)
    : getChar c p = some (.ok (d, { p with rest := rest })) := by
  unfold getChar
  rw [hfailed, hrest]

theorem getChar_end (hend : p.failed = true ∨ p.rest = [])
    : getChar c p = some (.ok (c, { p with failed := true })) := by
  unfold getChar
  rcases hend with hfailed | hrest
  . rw [hfailed]
  . rw [hrest]
    cases p.failed <;> rfl

theorem getChar_read (h : getChar c p = some (.ok (d, p'))) (hne : d ≠ c)
    : p'.failed = false ∧ p.rest = d :: p'.rest := by
  unfold getChar at h
  split at h
  case h_1 hfailed hrest =>
    cases h
    exact ⟨hfailed, hrest⟩
  case h_2 =>
    cases h
    exact absurd rfl hne

theorem fatal_ne_ok (message : Bytes) (p : Parser) {a : α}
    : (fatal message : Parse α) p ≠ some (.ok (a, p')) := by
  intro h
  unfold fatal at h
  rw [Decoder.get_bind] at h
  cases h

theorem branch_bind {b : Prop} [Decidable b] (x y : Parse α) (f : α → Parse β) (p : Parser)
    : ((if b then x else y) >>= f) p = (if b then x >>= f else y >>= f) p := by
  split <;> rfl

theorem fatal_keeps (message : Bytes) : Keeps I (fatal message : Parse α) := by
  apply Keeps.get_bind
  intro p _
  exact Keeps.raise _

-- A check that may end the parse, and what comes after it
theorem guard_keeps {b : Prop} [Decidable b] {y : Parse Unit} {x : Unit → Parse α}
    (hy : Keeps I y) (hx : Keeps I (x ()))
    : Keeps I (if b then y >>= x else x ()) := by
  split
  . exact hy.bind fun _ => hx
  . exact hx

theorem check_keeps {b : Prop} [Decidable b] (message : Bytes) {x : Unit → Parse α}
    (hx : Keeps I (x ()))
    : Keeps I (if b then fatal message >>= x else x ()) :=
  guard_keeps (fatal_keeps message) hx

-- What comes after one of two parts
theorem branch_keeps {b : Prop} [Decidable b] {x y : Parse α} {f : α → Parse β}
    (hx : Keeps I x) (hy : Keeps I y) (hf : ∀ a, Keeps I (f a))
    : Keeps I (if b then x >>= f else y >>= f) := by
  split
  . exact hx.bind hf
  . exact hy.bind hf

theorem withFuel_keeps {loop : Nat → Parse α} (h : ∀ fuel, Keeps I (loop fuel))
    : Keeps I (withFuel loop) := by
  intro p a p' hp heq
  exact h _ p a p' hp heq

section

variable [OfElements I]

open OfElements (move)

theorem error_keeps (message : Bytes) : Keeps I (error message) := by
  apply Keeps.get_bind
  intro p hp
  exact Keeps.set (move p _ _ _ _ hp)

theorem getChar_keeps (c : UInt8) : Keeps I (getChar c) := by
  intro p a p' hp h
  unfold getChar at h
  split at h
  all_goals
    cases h
    exact move p _ _ _ _ hp

theorem unget_keeps (c : UInt8) : Keeps I (unget c) := by
  intro p a p' hp h
  unfold unget at h
  split at h
  all_goals
    cases h
    first
    | exact hp
    | exact move p _ _ _ _ hp

theorem skipWs_keeps (c : UInt8) : Keeps I (skipWs c) := by
  apply Keeps.get_bind
  intro p hp
  dsimp only
  split
  all_goals exact Keeps.set_bind (move p _ _ _ _ hp) (getChar_keeps 0)

theorem readRestOfName_keeps (c : UInt8) : Keeps I (readRestOfName c) := by
  apply Keeps.get_bind
  intro p hp
  dsimp only
  refine Keeps.set_bind (move p _ _ _ _ hp) ?_
  refine (getChar_keeps 0).bind ?_
  intro d
  exact Keeps.pure _

theorem countLine_keeps (c : UInt8) : Keeps I (countLine c) := by
  apply Keeps.modify
  intro p hp
  split
  . exact move p _ _ _ _ hp
  . exact hp

theorem skipToGt_keeps : Keeps I skipToGt := by
  apply withFuel_keeps
  intro fuel
  induction fuel with
  | zero => exact Keeps.outOfFuel
  | succ fuel ih =>
    refine (getChar_keeps 0).bind ?_
    intro c
    split
    . exact Keeps.pure _
    . split
      . refine Keeps.bind (Keeps.modify ?_) fun _ => ih
        exact fun p hp => move p _ _ _ _ hp
      . split
        . exact fatal_keeps _
        . exact ih

theorem skipComment_keeps : Keeps I skipComment := by
  apply withFuel_keeps
  intro fuel
  induction fuel with
  | zero => exact Keeps.outOfFuel
  | succ fuel ih =>
    have hgo (c : UInt8) : Keeps I (do countLine c; skipCommentLoop fuel) :=
      (countLine_keeps c).bind fun _ => ih
    refine (getChar_keeps 0).bind ?_
    intro c
    split
    . refine (getChar_keeps 0).bind ?_
      intro c
      split
      . refine (getChar_keeps 0).bind ?_
        intro c
        split
        . exact Keeps.pure _
        . exact hgo c
      . exact hgo c
    . split
      . exact fatal_keeps _
      . exact hgo c

theorem skipPi_keeps : Keeps I skipPi := by
  apply withFuel_keeps
  intro fuel
  induction fuel with
  | zero => exact Keeps.outOfFuel
  | succ fuel ih =>
    refine (getChar_keeps 0).bind ?_
    intro c
    split
    . refine (getChar_keeps 0).bind ?_
      intro c
      refine (countLine_keeps c).bind ?_
      intro _
      split
      . exact Keeps.pure _
      . split
        . exact fatal_keeps _
        . exact ih
    . split
      . exact fatal_keeps _
      . exact ih

-- What comes after <!
theorem declaration_keeps (c : UInt8)
    : Keeps I (do
        let c ← getChar c
        if c = 45 then
          let c ← getChar c
          if c = 45 then
            skipComment
          else
            error (chars "Weird comment")
            skipToGt
        else
          skipToGt
        return false : Parse Bool) := by
  refine (getChar_keeps c).bind ?_
  intro c
  split
  . refine (getChar_keeps c).bind ?_
    intro c
    split
    . exact skipComment_keeps.bind fun _ => Keeps.pure _
    . refine (error_keeps _).bind ?_
      intro _
      exact skipToGt_keeps.bind fun _ => Keeps.pure _
  . exact skipToGt_keeps.bind fun _ => Keeps.pure _

theorem skipBom_keeps : Keeps I skipBom := by
  refine (getChar_keeps 0).bind ?_
  intro c
  split
  . exact unget_keeps c
  . refine (getChar_keeps c).bind ?_
    intro c
    split
    . exact unget_keeps c
    . refine (getChar_keeps c).bind ?_
      intro c
      split
      . exact unget_keeps c
      . exact Keeps.pure _

theorem readNumber_keeps : Keeps I readNumber := by
  apply Keeps.get_bind
  intro p hp
  split
  . refine Keeps.set_bind (move p _ _ _ _ hp) ?_
    refine (getChar_keeps 0).bind ?_
    intro c
    exact Keeps.pure _
  . exact Keeps.set_bind (move p _ _ _ _ hp) (Keeps.pure _)

-- The number of a reference
theorem number_keeps
    : Keeps I (do
        let (n, c) ← readNumber
        if c ≠ 59 then
          fatal (chars "Malformed character reference")
        return encodeChar n) := by
  refine readNumber_keeps.bind ?_
  rintro ⟨n, c⟩
  apply check_keeps
  exact Keeps.pure _

-- The name of a reference, or what is none
theorem entity_keeps (c : UInt8)
    : Keeps I (if isAlpha c then do
          let (name, c) ← readRestOfName c
          if c ≠ 59 then
            fatal (chars "Malformed entity reference")
          match entity name with
          | some c => return [c]
          | none => fatal (chars "Unrecognised entity name")
        else do
          let p ← get
          if p.flags.beLenient then
            unget c
            return chars "&"
          else
            fatal (chars "Weird reference - unescaped '&'?")) := by
  split
  . refine (readRestOfName_keeps c).bind ?_
    rintro ⟨name, c⟩
    apply check_keeps
    split
    . exact Keeps.pure _
    . exact fatal_keeps _
  . apply Keeps.get_bind
    intro p _
    split
    . exact (unget_keeps c).bind fun _ => Keeps.pure _
    . exact fatal_keeps _

end

section

variable [OfTrees I]

theorem readRef_keeps : Keeps I readRef := by
  refine (getChar_keeps 0).bind ?_
  intro c
  split
  . refine (getChar_keeps c).bind ?_
    intro c
    split
    . refine Keeps.bind (Keeps.modify ?_) fun _ => number_keeps
      exact fun p hp => OfTrees.hex p true hp
    . exact (unget_keeps c).bind fun _ => number_keeps
  . exact entity_keeps c

theorem readValueLoop_keeps (quote : UInt8) (aval : Bytes) (fuel : Nat)
    : Keeps I (readValueLoop quote aval fuel) := by
  induction fuel generalizing aval with
  | zero => exact Keeps.outOfFuel
  | succ fuel ih =>
    refine (getChar_keeps 0).bind ?_
    intro c
    split
    . exact fatal_keeps _
    . split
      . exact Keeps.pure _
      . split
        . exact readRef_keeps.bind fun text => ih _
        . exact ih _

theorem readAttrsLoop_keeps (attrs : List (Bytes × Bytes)) (c : UInt8) (fuel : Nat)
    : Keeps I (readAttrsLoop attrs c fuel) := by
  induction fuel generalizing attrs c with
  | zero => exact Keeps.outOfFuel
  | succ fuel ih =>
    unfold readAttrsLoop
    apply check_keeps
    refine branch_keeps (skipWs_keeps c) (Keeps.pure c) ?_
    intro c
    dsimp only
    split
    . refine (getChar_keeps c).bind ?_
      intro c
      apply check_keeps
      exact Keeps.pure _
    . split
      . exact Keeps.pure _
      . split
        . exact fatal_keeps _
        . refine (readRestOfName_keeps c).bind ?_
          rintro ⟨aname, c⟩
          apply check_keeps
          refine branch_keeps (skipWs_keeps c) (Keeps.pure c) ?_
          intro c
          apply check_keeps
          refine (skipWs_keeps 0).bind ?_
          intro quote
          apply check_keeps
          refine (withFuel_keeps (readValueLoop_keeps quote [])).bind ?_
          intro aval
          refine (getChar_keeps 0).bind ?_
          intro c
          exact ih _ c

theorem readContentLoop_keeps (content : Bytes) (first : Bool) (c : UInt8) (fuel : Nat)
    : Keeps I (readContentLoop content first c fuel) := by
  induction fuel generalizing content first c with
  | zero => exact Keeps.outOfFuel
  | succ fuel ih =>
    unfold readContentLoop
    apply Keeps.get_bind
    intro p _
    have hspace : Keeps I (do
        let c ← skipWs c
        pure (c, if c ≠ 60 then content ++ [32] else content, false)) :=
      (skipWs_keeps c).bind fun _ => Keeps.pure _
    simp only [← bind_assoc]
    refine branch_keeps hspace (Keeps.pure _) ?_
    rintro ⟨c, content, first⟩
    dsimp only
    split
    . exact (unget_keeps c).bind fun _ => Keeps.pure _
    . split
      . refine readRef_keeps.bind ?_
        intro text
        refine (getChar_keeps 0).bind ?_
        intro d
        exact ih _ _ d
      . split
        . exact fatal_keeps _
        . refine ((countLine_keeps c).bind fun _ => getChar_keeps 0).bind ?_
          intro d
          exact ih _ _ d

end

-- The levels of namespaces that are open within an element
def openLevels (e : Element) (p : Parser) : List (List (Bytes × Bytes)) :=
  if p.flags.fixNamespaces then
    e.attrs.foldl (fun nsMap attr =>
      match nsPrefix attr.1 with
      | some pre => SortedMap.set pre attr.2 nsMap
      | none => nsMap) (p.nsMaps.headD []) :: p.nsMaps
  else
    p.nsMaps

theorem initialProcessing_state (e : Element) (p : Parser)
    : initialProcessing e p = some (.ok ((), { p with nsMaps := openLevels e p })) := by
  unfold initialProcessing openLevels
  rw [Decoder.get_bind]
  split <;> rfl

theorem finalProcessing_state {e e' : Element} (h : finalProcessing e p = some (.ok (e', p')))
    : ∃ nsMaps, p' = { p with nsMaps := nsMaps } := by
  unfold finalProcessing at h
  rw [Decoder.get_bind] at h
  dsimp only at h
  cases hfix : p.flags.fixNamespaces with
  | false =>
    rw [hfix] at h
    cases h
    exact ⟨p.nsMaps, rfl⟩
  | true =>
    rw [hfix] at h
    cases hmaps : p.nsMaps with
    | nil =>
      rw [hmaps] at h
      cases h
      exact ⟨[], by rw [← hmaps]⟩
    | cons topMap nsMaps =>
      rw [hmaps] at h
      cases h
      exact ⟨nsMaps, rfl⟩

end Parser
end Xml
end ObTools
