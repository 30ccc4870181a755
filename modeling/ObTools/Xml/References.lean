import ObTools.Xml.Runs

/-!
This module contains the references that the parser reads in the attribute values and in the content of
a document.
-/

namespace ObTools
namespace Xml
namespace Parser

open Decoder (Keeps)
open ObTools.Lex (chars)
open Visits (Tracks after)

-- A reference is read at the character after its &
def valueRefs (quote : UInt8) : Nat → Parser → List Parser
  | 0 => fun _ => []
  | fuel + 1 => after (getChar 0) fun c =>
    if c = 0 ∨ c = quote then
      fun _ => []
    else if c = 38 then
      fun p => [p] ++ after readRef (fun _ => valueRefs quote fuel) p
    else
      valueRefs quote fuel

def attrsRefs (attrs : List (Bytes × Bytes)) (c : UInt8) : Nat → Parser → List Parser
  | 0 => fun _ => []
  | fuel + 1 =>
    if !isAsciiSpace c ∧ c ≠ 47 ∧ c ≠ 62 then
      fun _ => []
    else
      after (if c ≠ 47 ∧ c ≠ 62 then skipWs c else pure c) fun c =>
        if c = 47 ∨ c = 62 ∨ isNameStart c = false then
          fun _ => []
        else
          after (readRestOfName c) fun (aname, c) =>
            if (SortedMap.find aname attrs).isSome then
              fun _ => []
            else
              after (if isAsciiSpace c then skipWs c else pure c) fun c =>
                if c ≠ 61 then
                  fun _ => []
                else
                  after (skipWs 0) fun quote =>
                    if quote ≠ 34 ∧ quote ≠ 39 then
                      fun _ => []
                    else
                      fun p => valueRefs quote (p.rest.length + 1) p
                        ++ after (withFuel (readValueLoop quote [])) (fun aval =>
                          after (getChar 0) fun c => attrsRefs (SortedMap.set aname aval attrs) c fuel) p

def tagRefs (c : UInt8) : Parser → List Parser :=
  after (newElement [] []) fun _ => after (readRestOfName c) fun (_, c) p => attrsRefs [] c (p.rest.length + 1) p

-- White space at the beginning of a round, where a single space is kept
def contentSpace (content : Bytes) (first : Bool) (c : UInt8) : Parse (UInt8 × Bytes × Bool) := do
  let p ← get
  if !p.flags.preserveWhitespace ∧ isAsciiSpace c then
    let c ← skipWs c
    return (c, if c ≠ 60 then content ++ [32] else content, false)
  else
    return (c, content, first)

def contentRefs (content : Bytes) (first : Bool) (c : UInt8) : Nat → Parser → List Parser
  | 0 => fun _ => []
  | fuel + 1 =>
    after (contentSpace content first c) fun (c, content, first) =>
      if c = 60 ∧ !first then
        fun _ => []
      else if c = 38 then
        fun p => [p] ++ after readRef (fun text =>
          after (getChar 0) fun c => contentRefs (content ++ text) false c fuel) p
      else if c = 0 then
        fun _ => []
      else
        after (countLine c) fun _ => after (getChar 0) fun d => contentRefs (content ++ [c]) false d fuel

def textRefs (c : UInt8) (p : Parser) : List Parser := contentRefs [] true c (p.rest.length + 1) p

def stepRefsOf (hasRoot beLenient : Bool) : Parser → List Parser :=
  after first fun c =>
    if c = 60 then
      after (getChar c) fun c =>
        if c = 33 ∨ c = 63 ∨ c = 47 then
          fun _ => []
        else if isNameStart c then
          tagRefs c
        else if beLenient then
          after (unget c) fun _ => textRefs 60
        else
          fun _ => []
    else if c ≠ 0 ∧ hasRoot then
      textRefs c
    else
      fun _ => []

def stepRefs (p : Parser) : List Parser := stepRefsOf p.hasRoot p.flags.beLenient p

-- The states of the parser at the references of a document
def references (flags : Flags) (userNsMap : List (Bytes × Bytes)) (input : Bytes) (next : Nat)
    : List Parser :=
  visitsOf stepRefs (new flags userNsMap input next)

/-
The base of the numbers.
-/

instance (hex : Bool) : OfElements (fun p => p.hex = hex) where
  move := fun _ _ _ _ _ hp => hp

-- A hexadecimal reference
def startsHex (p : Parser) : Bool := [35, 120].isPrefixOf p.rest

-- Numbers are hexadecimal from the first hexadecimal reference on
def TracksHex {α : Type} : Parse α → (Parser → List Parser) → Parser → Prop :=
  Tracks (fun hex p => p.failed = false ∧ p.hex = hex) (fun hex p => hex || p.startsHex) Parser.hex

variable {α β : Type} {x : Parse α} {p p' : Parser} {fuel : Nat}

theorem hex_eq (hx : ∀ hex, Keeps (fun p => p.hex = hex) x) (a : α) (p' : Parser)
    (h : x p = some (.ok (a, p')))
    : p'.hex = p.hex :=
  hx p.hex p a p' rfl h

theorem skipWs_read {c d : UInt8} (h : skipWs c p = some (.ok (d, p'))) (hne : d ≠ 0)
    : p'.failed = false := by
  unfold skipWs at h
  rw [Decoder.get_bind] at h
  dsimp only at h
  split at h
  all_goals
    rw [Decoder.set_bind] at h
    exact (getChar_read h hne).1

theorem first_read {c : UInt8} (h : first p = some (.ok (c, p'))) (hne : c ≠ 0) : p'.failed = false := by
  unfold first at h
  rw [Decoder.get_bind] at h
  split at h
  . exact (getChar_read h hne).1
  . exact skipWs_read h hne

namespace TracksHex

theorem check {b : Prop} [Decidable b] {message : Bytes} {x : Unit → Parse α} {v : Parser → List Parser}
    (hx : ¬b → TracksHex (x ()) v p)
    : TracksHex (if b then fatal message >>= x else x ()) (if b then fun _ => [] else v) p := by
  split
  case isTrue =>
    apply Tracks.fails
    intro a p' h
    obtain ⟨u, p1, h, -⟩ := Decoder.bind_ok h
    exact fatal_ne_ok message p h
  case isFalse hb => exact hx hb

theorem fatal (message : Bytes) : TracksHex (Parser.fatal message : Parse α) (fun _ => []) p := by
  apply Tracks.fails
  intro a p'
  exact fatal_ne_ok message p

theorem branch {b : Prop} [Decidable b] {y : Parse α} {f : α → Parse β} {w : α → Parser → List Parser}
    (hx : ∀ hex, Keeps (fun p => p.hex = hex) x) (hy : ∀ hex, Keeps (fun p => p.hex = hex) y)
    (hf : ∀ a p', (if b then x else y) p = some (.ok (a, p')) → TracksHex (f a) (w a) p')
    : TracksHex (if b then x >>= f else y >>= f) (after (if b then x else y) w) p := by
  split
  case isTrue hb =>
    simp only [if_pos hb] at hf
    exact Tracks.bind_silent (hex_eq hx) hf
  case isFalse hb =>
    simp only [if_neg hb] at hf
    exact Tracks.bind_silent (hex_eq hy) hf

end TracksHex

theorem startsHex_eq_false (h : ∀ rest, p.rest ≠ 35 :: 120 :: rest) : p.startsHex = false := by
  unfold startsHex
  rw [← Bool.not_eq_true, List.isPrefixOf_iff_prefix]
  rintro ⟨rest, heq⟩
  exact h rest heq.symm

theorem readRef_hex (hfailed : p.failed = false) {text : Bytes} (h : readRef p = some (.ok (text, p')))
    : p'.hex = (p.hex || p.startsHex) := by
  unfold readRef at h
  obtain ⟨c, p1, h1, h⟩ := Decoder.bind_ok h
  have hex1 := hex_eq (fun _ => getChar_keeps 0) c p1 h1
  split at h
  case isTrue hc =>
    cases hc
    obtain ⟨hfailed1, hrest1⟩ := getChar_read h1 (by decide)
    obtain ⟨d, p2, h2, h⟩ := Decoder.bind_ok h
    have hex2 := (hex_eq (fun _ => getChar_keeps 35) d p2 h2).trans hex1
    split at h
    case isTrue hd =>
      cases hd
      obtain ⟨-, hrest2⟩ := getChar_read h2 (by decide)
      rw [Decoder.modify_bind] at h
      have hstarts : p.startsHex = true := by
        unfold startsHex
        rw [hrest1, hrest2]
        rfl
      rw [hstarts, Bool.or_true]
      exact hex_eq (fun _ => number_keeps) text p' h
    case isFalse hd =>
      obtain ⟨u, p3, h3, h⟩ := Decoder.bind_ok h
      have hex3 := (hex_eq (fun _ => unget_keeps d) u p3 h3).trans hex2
      have hstarts : p.startsHex = false := by
        apply startsHex_eq_false
        intro rest hrest
        rw [hrest1, List.cons_inj_right] at hrest
        rw [getChar_cons hfailed1 hrest] at h2
        cases h2
        exact hd rfl
      rw [hstarts, Bool.or_false, ← hex3]
      exact hex_eq (fun _ => number_keeps) text p' h
  case isFalse hc =>
    have hstarts : p.startsHex = false := by
      apply startsHex_eq_false
      intro rest hrest
      rw [getChar_cons hfailed hrest] at h1
      cases h1
      exact hc rfl
    rw [hstarts, Bool.or_false, ← hex1]
    exact hex_eq (fun _ => entity_keeps c) text p' h

theorem readRef_tracks (hfailed : p.failed = false) : TracksHex readRef (fun p => [p]) p :=
  ⟨⟨⟨hfailed, rfl⟩, trivial⟩, fun _ _ h => readRef_hex hfailed h⟩

theorem readValueLoop_tracks (quote : UInt8) (aval : Bytes)
    : TracksHex (readValueLoop quote aval fuel) (valueRefs quote fuel) p := by
  induction fuel generalizing aval p with
  | zero => exact Tracks.outOfFuel
  | succ fuel ih =>
    apply Tracks.bind_silent (hex_eq fun _ => getChar_keeps 0)
    intro c p' hget
    by_cases hzero : c = 0
    . rw [if_pos hzero, if_pos (.inl hzero)]
      exact TracksHex.fatal _
    . by_cases hquote : c = quote
      . rw [if_neg hzero, if_pos hquote, if_pos (.inr hquote)]
        exact Tracks.pure aval
      . rw [if_neg hzero, if_neg hquote, if_neg (not_or.mpr ⟨hzero, hquote⟩)]
        split
        . apply (readRef_tracks (getChar_read hget hzero).1).bind
          intro text p' _
          exact ih _
        . exact ih _

theorem readAttrsLoop_tracks (attrs : List (Bytes × Bytes)) (c : UInt8)
    : TracksHex (readAttrsLoop attrs c fuel) (attrsRefs attrs c fuel) p := by
  induction fuel generalizing attrs c p with
  | zero => exact Tracks.outOfFuel
  | succ fuel ih =>
    unfold readAttrsLoop attrsRefs
    apply TracksHex.check
    intro _
    apply TracksHex.branch (fun _ => skipWs_keeps c) (fun _ => Keeps.pure c)
    intro c p _
    dsimp only
    by_cases hslash : c = 47
    . rw [if_pos hslash, if_pos (.inl hslash)]
      apply Tracks.silent
      intro a p' h
      obtain ⟨d, p1, h1, h⟩ := Decoder.bind_ok h
      split at h
      . obtain ⟨u, p2, hfatal, -⟩ := Decoder.bind_ok h
        exact absurd hfatal (fatal_ne_ok _ _)
      . cases h
        exact hex_eq (fun _ => getChar_keeps c) d p' h1
    . by_cases hgt : c = 62
      . rw [if_neg hslash, if_pos hgt, if_pos (.inr (.inl hgt))]
        exact Tracks.pure _
      . cases hname : isNameStart c with
        | false =>
          rw [if_neg hslash, if_neg hgt, if_pos (by simp), if_pos (by simp)]
          exact TracksHex.fatal _
        | true =>
          rw [if_neg hslash, if_neg hgt, if_neg (by simp), if_neg (by simp [hslash, hgt])]
          apply Tracks.bind_silent (hex_eq fun _ => readRestOfName_keeps c)
          rintro ⟨aname, c⟩ p _
          apply TracksHex.check
          intro _
          apply TracksHex.branch (fun _ => skipWs_keeps c) (fun _ => Keeps.pure c)
          intro c p _
          apply TracksHex.check
          intro _
          apply Tracks.bind_silent (hex_eq fun _ => skipWs_keeps 0)
          intro quote p _
          apply TracksHex.check
          intro _
          apply Tracks.bind (withFuel_tracks (readValueLoop_tracks quote []))
          intro aval p _
          apply Tracks.bind_silent (hex_eq fun _ => getChar_keeps 0)
          intro c p _
          exact ih _ c

theorem contentSpace_bind (content : Bytes) (head : Bool) (c : UInt8)
    (f : UInt8 × Bytes × Bool → Parse α)
    : (contentSpace content head c >>= f) p
        = (if !p.flags.preserveWhitespace ∧ isAsciiSpace c then
            skipWs c >>= fun c => f (c, if c ≠ 60 then content ++ [32] else content, false)
          else
            f (c, content, head)) p := by
  unfold contentSpace
  rw [bind_assoc, Decoder.get_bind]
  split
  . rw [bind_assoc]
    simp only [pure_bind]
  . rw [pure_bind]

theorem contentSpace_read {content : Bytes} {head : Bool} {c : UInt8} (hc : c = 38 → p.failed = false)
    {a : UInt8 × Bytes × Bool} (h : contentSpace content head c p = some (.ok (a, p')))
    : p'.hex = p.hex ∧ (a.1 = 38 → p'.failed = false) := by
  unfold contentSpace at h
  rw [Decoder.get_bind] at h
  split at h
  . obtain ⟨d, p1, h1, h⟩ := Decoder.bind_ok h
    cases h
    exact ⟨hex_eq (fun _ => skipWs_keeps c) d p' h1, fun hd => skipWs_read h1 (by rw [show d = 38 from hd]; decide)⟩
  . cases h
    exact ⟨rfl, hc⟩

theorem readContentLoop_tracks (content : Bytes) (head : Bool) (c : UInt8) (hc : c = 38 → p.failed = false)
    : TracksHex (readContentLoop content head c fuel) (contentRefs content head c fuel) p := by
  induction fuel generalizing content head c p with
  | zero => exact Tracks.outOfFuel
  | succ fuel ih =>
    have hloop : TracksHex (contentSpace content head c >>= fun (c, content, head) =>
        if c = 60 ∧ !head then do
          unget c
          return content
        else if c = 38 then do
          let text ← readRef
          let c ← getChar 0
          readContentLoop (content ++ text) false c fuel
        else if c = 0 then
          fatal (chars "Unexpected end of stream")
        else do
          countLine c
          let d ← getChar 0
          readContentLoop (content ++ [c]) false d fuel) (contentRefs content head c (fuel + 1)) p := by
      apply Tracks.bind_silent fun a p' h => (contentSpace_read hc h).1
      rintro ⟨c, content, head⟩ p' h
      have hc' := (contentSpace_read hc h).2
      dsimp only at hc' ⊢
      split
      . apply Tracks.silent
        intro a p1 h
        obtain ⟨u, p2, hunget, h⟩ := Decoder.bind_ok h
        cases h
        exact hex_eq (fun _ => unget_keeps c) u p1 hunget
      . split
        case isTrue hamp =>
          apply (readRef_tracks (hc' hamp)).bind
          intro text p1 _
          apply Tracks.bind_silent (hex_eq fun _ => getChar_keeps 0)
          intro d p2 hget
          exact ih _ _ d fun hd => (getChar_read hget (hd ▸ by decide)).1
        case isFalse =>
          split
          . exact TracksHex.fatal _
          . apply Tracks.bind_silent (hex_eq fun _ => countLine_keeps c)
            intro _ p1 _
            apply Tracks.bind_silent (hex_eq fun _ => getChar_keeps 0)
            intro d p2 hget
            exact ih _ _ d fun hd => (getChar_read hget (hd ▸ by decide)).1
    refine Tracks.of_eq ?_ hloop
    rw [contentSpace_bind, readContentLoop, Decoder.get_bind]
    simp only [pure_bind]

theorem initialProcessing_hex (e : Element) (hex : Bool) : Keeps (fun p => p.hex = hex) (initialProcessing e) := by
  apply Keeps.get_bind
  intro p hp
  split
  . exact Keeps.set hp
  . exact Keeps.pure _

theorem finalProcessing_hex (e : Element) (hex : Bool) : Keeps (fun p => p.hex = hex) (finalProcessing e) := by
  intro p e' p' hp h
  obtain ⟨nsMaps, rfl⟩ := finalProcessing_state h
  exact hp

theorem closeElement_hex (e : Element) (hex : Bool) : Keeps (fun p => p.hex = hex) (closeElement e) := by
  apply Keeps.modify
  intro p hp
  cases p.elements
  all_goals exact hp

theorem readTag_tracks (c : UInt8) : TracksHex (readTag c) (tagRefs c) p := by
  apply Tracks.bind_silent
  . intro a p' h
    cases h
    rfl
  intro e p _
  apply Tracks.bind_silent (hex_eq fun _ => readRestOfName_keeps c)
  rintro ⟨name, c⟩ p _
  refine Tracks.of_eq (Decoder.get_bind _ p) ?_
  apply Tracks.bind_rest (withFuel_tracks (readAttrsLoop_tracks [] c))
  rintro ⟨attrs, empty⟩ p' b p'' _ h
  refine hex_eq (x := _) (fun hex => ?_) b p'' h
  refine (initialProcessing_hex _ hex).bind fun _ => ?_
  refine Keeps.bind (Keeps.modify fun p hp => hp) fun _ => ?_
  split
  . refine (finalProcessing_hex _ hex).bind fun e => ?_
    exact (closeElement_hex e hex).bind fun _ => Keeps.pure _
  . exact Keeps.bind (Keeps.modify fun p hp => hp) fun _ => Keeps.pure _

theorem readContent_tracks (c : UInt8) (hc : c = 38 → p.failed = false)
    : TracksHex (readContent c) (textRefs c) p := by
  apply Tracks.bind_rest (withFuel_tracks (readContentLoop_tracks [] true c hc))
  intro content p1 u p' _ h
  rw [Decoder.get_bind] at h
  cases helements : p1.elements with
  | nil =>
    rw [helements] at h
    cases h
    rfl
  | cons e elements =>
    rw [helements] at h
    obtain ⟨text, p2, hnew, h⟩ := Decoder.bind_ok h
    cases hnew
    cases h
    rfl

theorem readEndTag_hex (c : UInt8) (hex : Bool) : Keeps (fun p => p.hex = hex) (readEndTag c) := by
  refine (readRestOfName_keeps c).bind ?_
  rintro ⟨name, c⟩
  refine branch_keeps (skipWs_keeps c) (Keeps.pure c) ?_
  intro c
  refine guard_keeps (Keeps.raise none) ?_
  apply Keeps.get_bind
  intro p hp
  cases helements : p.elements with
  | nil => exact error_keeps _
  | cons e elements =>
    dsimp only
    split
    . refine Keeps.set_bind hp ?_
      exact (finalProcessing_hex _ hex).bind fun e => closeElement_hex e hex
    . exact fatal_keeps _

theorem parseStep_tracks : TracksHex parseStep stepRefs p := by
  refine Tracks.congr (v := stepRefsOf p.hasRoot p.flags.beLenient) ?_ rfl
  unfold parseStep
  refine Tracks.of_eq ((Decoder.get_bind _ p).trans (first_bind _ p).symm) ?_
  apply Tracks.bind_silent (hex_eq fun _ => first_keeps)
  intro c p1 h1
  dsimp only
  by_cases hzero : c = 0
  . rw [if_pos hzero]
    refine Tracks.congr (TracksHex.fatal _) ?_
    rw [hzero, if_neg (by decide), if_neg (by simp)]
  rw [if_neg hzero]
  by_cases hlt : c = 60
  . rw [if_pos hlt, if_pos hlt]
    apply Tracks.bind_silent (hex_eq fun _ => getChar_keeps c)
    intro d p2 h2
    by_cases hbang : d = 33
    . rw [if_pos hbang, if_pos (.inl hbang)]
      exact Tracks.silent (hex_eq fun _ => declaration_keeps d)
    by_cases hquery : d = 63
    . rw [if_neg hbang, if_pos hquery, if_pos (.inr (.inl hquery))]
      exact Tracks.silent (hex_eq fun _ => skipPi_keeps.bind fun _ => Keeps.pure _)
    by_cases hslash : d = 47
    . rw [if_neg hbang, if_neg hquery, if_pos hslash, if_pos (.inr (.inr hslash))]
      refine Tracks.silent (hex_eq fun hex => ?_)
      refine (getChar_keeps d).bind fun e => ?_
      refine branch_keeps (readEndTag_hex e hex) (fatal_keeps _) ?_
      intro _
      exact Keeps.get_bind fun _ _ => Keeps.pure _
    have hnone : ¬(d = 33 ∨ d = 63 ∨ d = 47) := by simp [hbang, hquery, hslash]
    rw [if_neg hbang, if_neg hquery, if_neg hslash, if_neg hnone]
    by_cases hname : isNameStart d = true
    . rw [if_pos hname, if_pos hname]
      apply (readTag_tracks d).bind_rest
      intro empty p3 b p4 _ h
      rw [Decoder.get_bind] at h
      cases h
      rfl
    rw [if_neg hname, if_neg hname]
    split
    . apply Tracks.bind_silent (hex_eq fun _ => unget_keeps d)
      intro u p3 h3
      apply (readContent_tracks 60 fun h => absurd h (by decide)).bind_rest
      intro u p4 b p5 _ h
      cases h
      rfl
    . exact TracksHex.fatal _
  . rw [if_neg hlt, if_neg hlt]
    have hfailed := first_read h1 hzero
    split
    case isTrue hroot =>
      rw [if_pos ⟨hzero, hroot⟩]
      apply (readContent_tracks c fun _ => hfailed).bind_rest
      intro u p3 b p4 _ h
      cases h
      rfl
    case isFalse hroot =>
      rw [if_neg fun h => hroot h.2]
      exact TracksHex.fatal _

end Parser
end Xml
end ObTools
