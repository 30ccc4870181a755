import ObTools.Lib.Delimiter
import ObTools.Xml.ParserFrame

/-!
This module contains the proof of what the parser skips at a comment and at a processing instruction.
-/

namespace ObTools
namespace Xml
namespace Parser

open Delimiter (First delimiter skip skip_complete skip_fail skip_match skip_restart trailing)
open ObTools.Lex (chars)

/-
What is left after a part of the parser has skipped a text, unless it fails.
-/
def Skips (x : Parse Unit) (p : Parser) : Option Bytes → Prop
  | some after => ∃ line, x p = some (.ok ((), { p with rest := after, line := line }))
  | none => ∃ message, x p = some (.error message)

-- The text is skipped up to and including the first marker, and without a marker the parse fails
def SkipsPast (x : Parse Unit) (marker : Bytes) (p : Parser) : Prop :=
  (∀ before after, First marker before after p.rest → Skips x p (some after))
    ∧ (¬marker <:+: p.rest → Skips x p none)

variable {p : Parser} {rest : Bytes} {x y : Parse Unit} {c d : UInt8} {fuel : Nat} {after : Option Bytes}

namespace Skips

theorem getChar {f : UInt8 → Parse Unit} (hfailed : p.failed = false) (hrest : p.rest = d :: rest)
    (h : Skips (f d) { p with rest := rest } after)
    : Skips (getChar c >>= f) p after := by
  cases after with
  | none =>
    obtain ⟨message, h⟩ := h
    exact ⟨message, (Decoder.bind_eq f (getChar_cons hfailed hrest)).trans h⟩
  | some after =>
    obtain ⟨line, h⟩ := h
    exact ⟨line, (Decoder.bind_eq f (getChar_cons hfailed hrest)).trans h⟩

theorem getChar_end {f : UInt8 → Parse Unit} (hend : p.failed = true ∨ p.rest = [])
    (h : Skips (f c) { p with failed := true } none)
    : Skips (Parser.getChar c >>= f) p none := by
  obtain ⟨message, h⟩ := h
  exact ⟨message, (Decoder.bind_eq f (Parser.getChar_end hend)).trans h⟩

theorem countLine (h : ∀ line, Skips x { p with line := line } after)
    : Skips (do countLine c; x) p after := by
  have hline : (do Parser.countLine c; x) p = x { p with line := if c = 10 then p.line + 1 else p.line } := by
    unfold Parser.countLine
    rw [Decoder.modify_bind]
    split <;> rfl
  cases after with
  | none =>
    obtain ⟨message, h⟩ := h _
    exact ⟨message, hline.trans h⟩
  | some after =>
    obtain ⟨line, h⟩ := h _
    exact ⟨line, hline.trans h⟩

theorem fatal (message : Bytes) : Skips (fatal message) p none := by
  unfold Parser.fatal
  exact ⟨_, rfl⟩

theorem pure (hrest : p.rest = rest) : Skips (Pure.pure ()) p (some rest) := by
  rw [← hrest]
  exact ⟨p.line, rfl⟩

theorem not_some {rest : Bytes} (h : Skips x p none) : ¬Skips x p (some rest) := by
  rintro ⟨line, hsome⟩
  obtain ⟨message, hnone⟩ := h
  rw [hnone] at hsome
  cases hsome

theorem skipsPast {k : Nat} {d e : UInt8} (h : Skips x p (skip d e k 0 p.rest))
    : SkipsPast x (delimiter d e k) p ↔
        ∀ before after, First (delimiter d e k) before after p.rest → trailing d before % (k + 1) = 0 := by
  constructor
  . intro hpast before after hfirst
    rw [← Delimiter.skip_first hfirst]
    obtain ⟨line, hskips⟩ := hpast.1 before after hfirst
    cases hskip : skip d e k 0 p.rest with
    | none =>
      rw [hskip] at h
      obtain ⟨message, h⟩ := h
      rw [hskips] at h
      cases h
    | some after' =>
      rw [hskip] at h
      obtain ⟨line', h⟩ := h
      rw [hskips] at h
      have hrest := congrArg Parser.rest (Prod.mk.inj (Except.ok.inj (Option.some.inj h))).2
      exact congrArg some hrest.symm
  . intro hgroups
    refine ⟨?_, ?_⟩
    . intro before after hfirst
      rw [← (Delimiter.skip_first hfirst).mpr (hgroups before after hfirst)]
      exact h
    . intro hno
      rw [← Delimiter.skip_eq_none hno]
      exact h

end Skips

theorem skipCommentLoop_failed (hend : p.failed = true) : Skips (skipCommentLoop (fuel + 1)) p none := by
  rw [skipCommentLoop]
  refine Skips.getChar_end (.inl hend) ?_
  rw [if_neg (by decide), if_pos rfl]
  exact Skips.fatal _

-- At the end of the stream a part of the marker does not help
theorem skipCommentLoop_end (hend : p.failed = true)
    : Skips (do countLine c; skipCommentLoop (fuel + 1)) p none := by
  apply Skips.countLine
  intro line
  exact skipCommentLoop_failed hend

/--
A comment is skipped as the search for `-->` goes, which does not go back.
-/
theorem skipCommentLoop_skips (hfailed : p.failed = false) (hzero : 0 ∉ p.rest) (hfuel : p.rest.length < fuel)
    : Skips (skipCommentLoop fuel) p (skip 45 62 2 0 p.rest) := by
  induction fuel using Nat.strongRecOn generalizing p with
  | ind fuel ih =>
    obtain ⟨fuel, rfl⟩ : ∃ n, fuel = n + 1 := ⟨fuel - 1, by omega⟩
    have hnext {c : UInt8} {q : Parser} (hq : q.failed = false) (hsub : q.rest <:+ p.rest)
        (hlt : q.rest.length < fuel)
        : Skips (do countLine c; skipCommentLoop fuel) q (skip 45 62 2 0 q.rest) := by
      apply Skips.countLine
      intro line
      exact ih fuel (Nat.lt_succ_self _) hq (fun hmem => hzero (hsub.mem hmem)) hlt
    rw [skipCommentLoop]
    cases hrest : p.rest with
    | nil =>
      refine Skips.getChar_end (.inr hrest) ?_
      rw [if_neg (by decide), if_pos rfl]
      exact Skips.fatal _
    | cons c1 rest =>
      rw [hrest, List.mem_cons, not_or] at hzero
      rw [hrest, List.length_cons] at hfuel
      refine Skips.getChar hfailed hrest ?_
      by_cases h1 : c1 = 45
      . rw [if_pos h1, h1, skip_match (by decide)]
        cases rest with
        | nil =>
          obtain ⟨fuel, rfl⟩ : ∃ n, fuel = n + 1 := ⟨fuel - 1, by omega⟩
          refine Skips.getChar_end (.inr rfl) ?_
          rw [if_neg (by decide)]
          exact skipCommentLoop_end rfl
        | cons c2 rest =>
          refine Skips.getChar hfailed rfl ?_
          rw [List.length_cons] at hfuel
          by_cases h2 : c2 = 45
          . rw [if_pos h2, h2, skip_match (by decide)]
            cases rest with
            | nil =>
              obtain ⟨fuel, rfl⟩ : ∃ n, fuel = n + 1 := ⟨fuel - 1, by omega⟩
              refine Skips.getChar_end (.inr rfl) ?_
              rw [if_neg (by decide)]
              exact skipCommentLoop_end rfl
            | cons c3 rest =>
              refine Skips.getChar hfailed rfl ?_
              rw [List.length_cons] at hfuel
              by_cases h3 : c3 = 62
              . rw [if_pos h3, h3, skip_complete]
                exact Skips.pure rfl
              . rw [if_neg h3, skip_fail h3]
                exact hnext hfailed ⟨[c1, c2, c3], hrest.symm⟩ (by dsimp only; omega)
          . rw [if_neg h2, skip_restart (by decide) h2]
            exact hnext hfailed ⟨[c1, c2], hrest.symm⟩ (by dsimp only; omega)
      . rw [if_neg h1, skip_restart (by decide) h1, if_neg (Ne.symm hzero.1)]
        exact hnext hfailed ⟨[c1], hrest.symm⟩ (by dsimp only; omega)

theorem skipComment_skips (hfailed : p.failed = false) (hzero : 0 ∉ p.rest)
    : Skips skipComment p (skip 45 62 2 0 p.rest) :=
  skipCommentLoop_skips hfailed hzero (Nat.lt_succ_self _)

/--
A processing instruction is skipped as the search for `?>` goes, which does not go back.
-/
theorem skipPiLoop_skips (hfailed : p.failed = false) (hzero : 0 ∉ p.rest) (hfuel : p.rest.length < fuel)
    : Skips (skipPiLoop fuel) p (skip 63 62 1 0 p.rest) := by
  induction fuel using Nat.strongRecOn generalizing p with
  | ind fuel ih =>
    obtain ⟨fuel, rfl⟩ : ∃ n, fuel = n + 1 := ⟨fuel - 1, by omega⟩
    have hnext {q : Parser} (hq : q.failed = false) (hsub : q.rest <:+ p.rest) (hlt : q.rest.length < fuel)
        : Skips (skipPiLoop fuel) q (skip 63 62 1 0 q.rest) :=
      ih fuel (Nat.lt_succ_self _) hq (fun hmem => hzero (hsub.mem hmem)) hlt
    rw [skipPiLoop]
    cases hrest : p.rest with
    | nil =>
      refine Skips.getChar_end (.inr hrest) ?_
      rw [if_neg (by decide), if_pos rfl]
      exact Skips.fatal _
    | cons c1 rest =>
      rw [hrest, List.mem_cons, not_or] at hzero
      rw [hrest, List.length_cons] at hfuel
      refine Skips.getChar hfailed hrest ?_
      by_cases h1 : c1 = 63
      . rw [if_pos h1, h1, skip_match (by decide)]
        cases rest with
        | nil =>
          refine Skips.getChar_end (.inr rfl) ?_
          apply Skips.countLine
          intro line
          rw [if_neg (by decide), if_pos rfl]
          exact Skips.fatal _
        | cons c2 rest =>
          refine Skips.getChar hfailed rfl ?_
          rw [List.length_cons] at hfuel
          rw [List.mem_cons, not_or] at hzero
          apply Skips.countLine
          intro line
          by_cases h2 : c2 = 62
          . rw [if_pos h2, h2, skip_complete]
            exact Skips.pure rfl
          . rw [if_neg h2, skip_fail h2, if_neg (Ne.symm hzero.2.1)]
            exact hnext hfailed ⟨[c1, c2], hrest.symm⟩ (by dsimp only; omega)
      . rw [if_neg h1, skip_restart (by decide) h1, if_neg (Ne.symm hzero.1)]
        exact hnext hfailed ⟨[c1], hrest.symm⟩ (by dsimp only; omega)

theorem skipPi_skips (hfailed : p.failed = false) (hzero : 0 ∉ p.rest)
    : Skips skipPi p (skip 63 62 1 0 p.rest) :=
  skipPiLoop_skips hfailed hzero (Nat.lt_succ_self _)

/--
A comment ends at the first `-->` if the number of the other hyphens before it is divisible by three,
and a processing instruction ends at the first `?>` if the number of the other question marks is even.
-/
theorem skipsPast_iff (p : Parser) (hfailed : p.failed = false) (hzero : 0 ∉ p.rest)
    : (SkipsPast skipComment (chars "-->") p ↔
          ∀ before after, First (chars "-->") before after p.rest → trailing 45 before % 3 = 0)
        ∧ (SkipsPast skipPi (chars "?>") p ↔
          ∀ before after, First (chars "?>") before after p.rest → trailing 63 before % 2 = 0) := by
  constructor
  . exact (skipComment_skips hfailed hzero).skipsPast
  . exact (skipPi_skips hfailed hzero).skipsPast

-- A parser at the text
def atText (text : Bytes) : Parser := new PARSER_OPTIMISE_CONTENT [] text 0

theorem skipsPast_sample
    : (SkipsPast skipComment (chars "-->") (atText (chars "--?- -->?>")) ↔
          ∀ before after, First (chars "-->") before after (chars "--?- -->?>") → trailing 45 before % 3 = 0)
        ∧ (SkipsPast skipPi (chars "?>") (atText (chars "--?- -->?>")) ↔
          ∀ before after, First (chars "?>") before after (chars "--?- -->?>") → trailing 63 before % 2 = 0) :=
  skipsPast_iff (atText (chars "--?- -->?>")) rfl (by decide)

/--
One more hyphen is in the way of the end of a comment, and one more question mark of the end of a
processing instruction.
-/
theorem not_skipsPast
    : ¬SkipsPast skipComment (chars "-->") (atText (chars " --->"))
        ∧ ¬SkipsPast skipPi (chars "?>") (atText (chars "xml ??>")) := by
  constructor
  . intro h
    have hskip : skip 45 62 2 0 (atText (chars " --->")).rest = none := by decide
    have hfail := skipComment_skips (p := atText (chars " --->")) rfl (by decide)
    rw [hskip] at hfail
    exact hfail.not_some (h.1 (chars " -") [] ⟨rfl, by decide⟩)
  . intro h
    have hskip : skip 63 62 1 0 (atText (chars "xml ??>")).rest = none := by decide
    have hfail := skipPi_skips (p := atText (chars "xml ??>")) rfl (by decide)
    rw [hskip] at hfail
    exact hfail.not_some (h.1 (chars "xml ?") [] ⟨rfl, by decide⟩)

end Parser
end Xml
end ObTools
