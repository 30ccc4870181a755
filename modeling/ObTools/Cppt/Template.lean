import Mathlib.Logic.Function.Basic
import ObTools.Cppt.Fidelity

/-!
This module contains the proof of what a `CPPT::Processor` makes of a whole template, with blocks of code, expressions
and comments between its texts: statements that put the texts and the expressions into the stream, in order, with the
code between them.
-/

namespace ObTools
namespace CPPT

open TokenRecogniser

/-
What the processor does with its input, whatever the fuel.
-/
inductive Reads : Processor → Bytes → Processor → Bytes → Prop
  | done {p : Processor} {sin : Bytes} : Reads p sin p sin
  | use {p p' q : Processor} {c : UInt8} {sin sin' rest : Bytes} (hc : c ≠ 0)
      (htry : p.tryChar c sin = (false, p', sin')) (hrest : Reads p' sin' q rest)
    : Reads p (c :: sin) q rest
  | retry {p p' q : Processor} {c : UInt8} {sin sin' rest : Bytes} (hc : c ≠ 0)
      (htry : p.tryChar c sin = (true, p', sin')) (hrest : Reads p' (c :: sin') q rest)
    : Reads p (c :: sin) q rest

namespace Reads

variable {p p' q : Processor} {sin sin' rest : Bytes}

theorem trans (h : Reads p sin p' sin') (h' : Reads p' sin' q rest) : Reads p sin q rest := by
  induction h with
  | done => exact h'
  | use hc htry _ ih => exact .use hc htry (ih h')
  | retry hc htry _ ih => exact .retry hc htry (ih h')

-- With one bound for the loop over the input and for the retries of a character
theorem exists_fuel (h : Reads p sin q rest) (hend : rest = [])
    : ∃ n, (∀ fuel, n < fuel → Processor.processLoop fuel p sin = some q)
        ∧ ∀ c sin', sin = c :: sin' → ∀ fuel fuel', n ≤ fuel → n ≤ fuel' →
          (Processor.processChar fuel p c sin').bind (fun r => Processor.processLoop fuel' r.1 r.2) = some q := by
  induction h with
  | done =>
    subst hend
    refine ⟨0, fun fuel hfuel => ?_, nofun⟩
    obtain ⟨fuel, rfl⟩ := Nat.exists_eq_add_one_of_ne_zero (Nat.ne_of_gt hfuel)
    rfl
  | @use p p' q c sin sin' rest hc htry _ ih =>
    obtain ⟨n, hloop, -⟩ := ih hend
    have hchar : ∀ fuel fuel', n + 1 ≤ fuel → n + 1 ≤ fuel' →
        (Processor.processChar fuel p c sin).bind (fun r => Processor.processLoop fuel' r.1 r.2) = some q := by
      intro fuel fuel' hfuel hfuel'
      obtain ⟨fuel, rfl⟩ := Nat.exists_eq_add_of_le' (Nat.le_of_add_left_le hfuel)
      rw [Processor.processChar, htry]
      exact hloop fuel' hfuel'
    refine ⟨n + 1, fun fuel hfuel => ?_, ?_⟩
    . obtain ⟨fuel, rfl⟩ := Nat.exists_eq_add_one_of_ne_zero (Nat.ne_of_gt (Nat.zero_lt_of_lt hfuel))
      rw [Processor.processLoop, if_neg hc]
      exact hchar _ _ (Nat.le_of_lt hfuel) (Nat.le_of_lt_succ hfuel)
    . rintro _ _ ⟨⟩
      exact hchar
  | @retry p p' q c sin sin' rest hc htry _ ih =>
    obtain ⟨n, -, hrest⟩ := ih hend
    have hchar : ∀ fuel fuel', n + 1 ≤ fuel → n + 1 ≤ fuel' →
        (Processor.processChar fuel p c sin).bind (fun r => Processor.processLoop fuel' r.1 r.2) = some q := by
      intro fuel fuel' hfuel hfuel'
      obtain ⟨fuel, rfl⟩ := Nat.exists_eq_add_of_le' (Nat.le_of_add_left_le hfuel)
      rw [Processor.processChar, htry]
      exact hrest c sin' rfl fuel fuel' (Nat.le_of_succ_le_succ hfuel) (Nat.le_of_succ_le hfuel')
    refine ⟨n + 1, fun fuel hfuel => ?_, ?_⟩
    . obtain ⟨fuel, rfl⟩ := Nat.exists_eq_add_one_of_ne_zero (Nat.ne_of_gt (Nat.zero_lt_of_lt hfuel))
      rw [Processor.processLoop, if_neg hc]
      exact hchar _ _ (Nat.le_of_lt hfuel) (Nat.le_of_lt_succ hfuel)
    . rintro _ _ ⟨⟩
      exact hchar

end Reads

/-
The processor without its recognisers, and these.
-/

namespace Processor

def having (q : Processor) (r : ProcessorState → TokenRecogniser) : Processor :=
  { q with trNormal := r .normal, trCode := r .code, trExpr := r .expr, trComment := r .comment }

def recognisers (p : Processor) : ProcessorState → TokenRecogniser
  | .normal => p.trNormal
  | .code => p.trCode
  | .expr => p.trExpr
  | .comment => p.trComment

-- Characters that are no part of a tag
def keep (q : Processor) (s : Bytes) : Processor :=
  match q.state with
  | .normal => q.outputString s
  | .code => q.write s
  | .expr => q.write s
  | .comment => q

-- With a token, the state changes if it is a tag
def onToken (q : Processor) (token sin : Bytes) : Processor × Bytes :=
  match q.state with
  | .normal =>
    if token = q.tags.startCode then ({ q.openCode with state := .code }, stripEol sin)
    else if token = q.tags.startExpr then ({ q.openExpr with state := .expr }, sin)
    else if token = q.tags.startComment then ({ q with state := .comment }, sin)
    else (q, sin)
  | .code => if token = q.tags.endCode then ({ q.closeCode with state := .normal }, stripEol sin) else (q, sin)
  | .expr => if token = q.tags.endExpr then ({ q.closeExpr with state := .normal }, sin) else (q, sin)
  | .comment => if token = q.tags.endComment then ({ q with state := .normal }, stripEol sin) else (q, sin)

variable {q : Processor} {r : ProcessorState → TokenRecogniser} {c : UInt8} {used : Bool} {tr : TokenRecogniser}

theorem startText_having (q : Processor) (r : ProcessorState → TokenRecogniser) (c : UInt8)
    : (q.having r).startText c = (q.startText c).having r := by
  unfold startText
  rw [apply_ite (having · r), apply_ite (having · r)]
  rfl

theorem outputText_having (q : Processor) (r : ProcessorState → TokenRecogniser) (c : UInt8)
    : (q.having r).outputText c = (q.outputText c).having r := by
  unfold outputText
  rw [startText_having]
  dsimp only
  rw [apply_ite (having · r), apply_ite (having · r), apply_ite (having · r)]
  rfl

theorem keep_having (q : Processor) (r : ProcessorState → TokenRecogniser) (s : Bytes)
    : (q.having r).keep s = (q.keep s).having r := by
  have houtput : (q.having r).outputString s = (q.outputString s).having r := by
    unfold outputString
    generalize s.takeWhile (· ≠ 0) = s
    induction s generalizing q with
    | nil => rfl
    | cons c s ih =>
      rw [List.foldl_cons, List.foldl_cons, outputText_having]
      exact ih _
  obtain ⟨sout, sname, tags, state, started, normal, code, expr, comment⟩ := q
  cases state with
  | normal => exact houtput
  | code => rfl
  | expr => rfl
  | comment => rfl

theorem keep_nil (q : Processor) : q.keep [] = q := by
  obtain ⟨sout, sname, tags, state, started, normal, code, expr, comment⟩ := q
  cases state with
  | normal => rfl
  | code => exact congrArg (Processor.mk · _ _ _ _ _ _ _ _) (List.append_nil sout)
  | expr => exact congrArg (Processor.mk · _ _ _ _ _ _ _ _) (List.append_nil sout)
  | comment => rfl

theorem outputText_frame (q : Processor) (c : UInt8)
    : (q.outputText c).state = q.state ∧ (q.outputText c).tags = q.tags ∧ (q.outputText c).sname = q.sname := by
  unfold outputText startText
  dsimp only
  split_ifs <;> exact ⟨rfl, rfl, rfl⟩

theorem outputString_frame (q : Processor) (s : Bytes)
    : (q.outputString s).state = q.state ∧ (q.outputString s).tags = q.tags
      ∧ (q.outputString s).sname = q.sname := by
  unfold outputString
  generalize s.takeWhile (· ≠ 0) = s
  induction s generalizing q with
  | nil => exact ⟨rfl, rfl, rfl⟩
  | cons c s ih =>
    obtain ⟨hstate, htags, hname⟩ := outputText_frame q c
    obtain ⟨hstate', htags', hname'⟩ := ih (q.outputText c)
    exact ⟨hstate'.trans hstate, htags'.trans htags, hname'.trans hname⟩

theorem keep_frame (q : Processor) (s : Bytes)
    : (q.keep s).state = q.state ∧ (q.keep s).tags = q.tags ∧ (q.keep s).sname = q.sname := by
  unfold keep
  split
  . exact outputString_frame q s
  . exact ⟨rfl, rfl, rfl⟩
  . exact ⟨rfl, rfl, rfl⟩
  . exact ⟨rfl, rfl, rfl⟩

theorem keep_append (q : Processor) {s t : Bytes} (hs : 0 ∉ s) : q.keep (s ++ t) = (q.keep s).keep t := by
  have hstate := (keep_frame q s).1
  unfold keep at hstate ⊢
  cases hq : q.state with
  | normal =>
    rw [hq] at hstate
    dsimp only at hstate ⊢
    rw [hstate]
    dsimp only
    unfold outputString
    have hne : ∀ c ∈ s, c ≠ 0 := fun c hc hzero => hs (hzero ▸ hc)
    have htake : s.takeWhile (· ≠ 0) = s := List.takeWhile_eq_self_iff.mpr (by simpa using hne)
    rw [List.takeWhile_append_of_pos (by simpa using hne), List.foldl_append, htake]
  | code =>
    dsimp only [write]
    rw [hq, List.append_assoc]
  | expr =>
    dsimp only [write]
    rw [hq, List.append_assoc]
  | comment =>
    dsimp only
    rw [hq]

theorem openCode_having (q : Processor) (r : ProcessorState → TokenRecogniser)
    : (q.having r).openCode = q.openCode.having r := by
  unfold openCode
  rw [apply_ite (having · r)]
  rfl

theorem onToken_having (q : Processor) (r : ProcessorState → TokenRecogniser) (token sin : Bytes)
    : (q.having r).onToken token sin = ((q.onToken token sin).1.having r, (q.onToken token sin).2) := by
  have hopenExpr : (q.having r).openExpr = q.openExpr.having r := by
    unfold openExpr
    rw [apply_ite (having · r)]
    rfl
  have hcloseExpr : (q.having r).closeExpr = q.closeExpr.having r := by
    unfold closeExpr
    dsimp only
    rw [apply_ite (having · r)]
    rfl
  unfold onToken
  rw [openCode_having, hopenExpr, hcloseExpr]
  cases hq : q.state with
  | normal =>
    have hstate : (q.having r).state = .normal := hq
    rw [hstate]
    dsimp only
    change (if token = q.tags.startCode then _ else if token = q.tags.startExpr then _
      else if token = q.tags.startComment then _ else _) = _
    split_ifs <;> rfl
  | code =>
    have hstate : (q.having r).state = .code := hq
    rw [hstate]
    dsimp only
    change (if token = q.tags.endCode then _ else _) = _
    split_ifs <;> rfl
  | expr =>
    have hstate : (q.having r).state = .expr := hq
    rw [hstate]
    dsimp only
    change (if token = q.tags.endExpr then _ else _) = _
    split_ifs <;> rfl
  | comment =>
    have hstate : (q.having r).state = .comment := hq
    rw [hstate]
    dsimp only
    change (if token = q.tags.endComment then _ else _) = _
    split_ifs <;> rfl

/-
A character is tried by the recogniser of the state.
-/

theorem keep_singleton (hc : c ≠ 0) (hstate : q.state = .normal) : q.keep [c] = q.outputText c := by
  unfold keep outputString
  rw [hstate, List.takeWhile_cons_of_pos (by simpa using hc)]
  rfl

-- What is done with a character, by what the recogniser of the state has said
def outcome (q : Processor) (c : UInt8) (sin : Bytes) (used : Bool) (token : Bytes)
    : TokenState → Bool × Processor × Bytes
  | .reading => (false, if used then q else q.keep [c], sin)
  | .valid => (!used, q.onToken token sin)
  | .invalid => (!used, q.keep token, sin)

theorem tryChar_having {state : TokenState} (hc : c ≠ 0) (sin : Bytes)
    (hchar : (r q.state).processChar c = (used, state, tr))
    : (q.having r).tryChar c sin
        = (q.having (Function.update r q.state tr)).outcome c sin used tr.currentToken state := by
  obtain ⟨sout, sname, tags, pstate, started, normal, code, expr, comment⟩ := q
  unfold tryChar
  cases pstate with
  | normal =>
    change Processor.normalChar _ c sin = _
    have hchar : (r .normal).processChar c = (used, state, tr) := hchar
    unfold normalChar having
    dsimp only
    rw [hchar]
    cases state with
    | reading =>
      unfold outcome
      rw [keep_singleton hc rfl]
      rfl
    | valid =>
      dsimp only [outcome, onToken]
      split_ifs <;> rfl
    | invalid => rfl
  | code =>
    change Processor.codeChar _ c sin = _
    have hchar : (r .code).processChar c = (used, state, tr) := hchar
    unfold codeChar having
    dsimp only
    rw [hchar]
    cases state with
    | reading => rfl
    | valid =>
      dsimp only [outcome, onToken]
      split_ifs <;> rfl
    | invalid => rfl
  | expr =>
    change Processor.exprChar _ c sin = _
    have hchar : (r .expr).processChar c = (used, state, tr) := hchar
    unfold exprChar having
    dsimp only
    rw [hchar]
    cases state with
    | reading => rfl
    | valid =>
      dsimp only [outcome, onToken]
      split_ifs <;> rfl
    | invalid => rfl
  | comment =>
    change Processor.commentChar _ c sin = _
    have hchar : (r .comment).processChar c = (used, state, tr) := hchar
    unfold commentChar having
    dsimp only
    rw [hchar]
    cases state with
    | reading =>
      cases used <;> rfl
    | valid =>
      dsimp only [outcome, onToken]
      split_ifs <;> rfl
    | invalid => rfl

end Processor

/-
The recognisers, with what the one of the state holds back.
-/

def tokensOf (tags : Tags) : ProcessorState → List Bytes
  | .normal => (ofTokens [tags.startCode, tags.startExpr, tags.startComment]).tokens
  | .code => (ofTokens [tags.endCode]).tokens
  | .expr => (ofTokens [tags.endExpr]).tokens
  | .comment => (ofTokens [tags.endComment]).tokens

structure Holding (tags : Tags) (r : ProcessorState → TokenRecogniser) (st : ProcessorState) (w : Bytes) : Prop where
  tokens : ∀ st', (r st').tokens = tokensOf tags st'
  rests : ∀ st', st' ≠ st → (r st').index = 0 ∧ (r st').longestValid = 0
  index : (r st).index = w.length
  token : w ≠ [] → (r st).currentToken = w

structure Resting (tags : Tags) (r : ProcessorState → TokenRecogniser) : Prop where
  tokens : ∀ st, (r st).tokens = tokensOf tags st
  rests : ∀ st, (r st).index = 0 ∧ (r st).longestValid = 0

variable {tags : Tags} {r : ProcessorState → TokenRecogniser} {st : ProcessorState} {w : Bytes} {q : Processor}
  {c : UInt8} {tr : TokenRecogniser}

theorem Resting.holding (h : Resting tags r) (st : ProcessorState) : Holding tags r st [] where
  tokens := h.tokens
  rests := fun st' _ => h.rests st'
  index := (h.rests st).1
  token := fun hne => absurd rfl hne

theorem Holding.update {w' : Bytes} (h : Holding tags r st w) (htokens : tr.tokens = (r st).tokens)
    (hindex : tr.index = w'.length) (htoken : w' ≠ [] → tr.currentToken = w')
    : Holding tags (Function.update r st tr) st w' where
  tokens := by
    intro st'
    by_cases hst : st' = st
    . subst hst
      rw [Function.update_self, htokens]
      exact h.tokens st'
    . rw [Function.update_of_ne hst]
      exact h.tokens st'
  rests := by
    intro st' hst
    rw [Function.update_of_ne hst]
    exact h.rests st' hst
  index := by
    rw [Function.update_self]
    exact hindex
  token := by
    rw [Function.update_self]
    exact htoken

-- The recogniser is done with what it held back
theorem Holding.resting (h : Holding tags r st w) (htokens : tr.tokens = (r st).tokens) (hindex : tr.index = 0)
    (hlongest : tr.longestValid = 0)
    : Resting tags (Function.update r st tr) := by
  have hupdate : Holding tags (Function.update r st tr) st [] :=
    h.update htokens hindex fun hne => absurd rfl hne
  refine ⟨hupdate.tokens, fun st' => ?_⟩
  by_cases hst : st' = st
  . subst hst
    rw [Function.update_self]
    exact ⟨hindex, hlongest⟩
  . exact hupdate.rests st' hst

namespace TokenRecogniser

theorem processChar_more (hps : possibles tr.tokens tr.index c ≠ [])
    (hcomplete : isComplete (possibles tr.tokens tr.index c) tr.index = false)
    : tr.processChar c = (true, .reading,
        { tr with index := tr.index + 1, currentToken := (if tr.index = 0 then [] else tr.currentToken) ++ [c] }) := by
  unfold processChar
  dsimp only
  rw [if_pos (mt List.eq_nil_of_length_eq_zero hps), hcomplete, if_neg Bool.false_ne_true]

-- A token that may go on to be a longer one is remembered
theorem processChar_longest (hcomplete : isComplete (possibles tr.tokens tr.index c) tr.index = true)
    (hlength : (possibles tr.tokens tr.index c).length ≠ 1)
    : ∃ tr', tr.processChar c = (true, .reading, tr') ∧ tr'.tokens = tr.tokens ∧ tr'.index = tr.index + 1
        ∧ tr'.longestValid ≠ 0 ∧ tr'.currentToken = (if tr.index = 0 then [] else tr.currentToken) ++ [c] := by
  have hps : (possibles tr.tokens tr.index c).length ≠ 0 := by
    intro hzero
    rw [List.eq_nil_of_length_eq_zero hzero] at hcomplete
    cases hcomplete
  unfold processChar
  dsimp only
  rw [if_pos hps, if_pos hcomplete, if_neg hlength]
  exact ⟨_, rfl, rfl, rfl, Nat.succ_ne_zero _, rfl⟩

theorem processChar_only (hcomplete : isComplete (possibles tr.tokens tr.index c) tr.index = true)
    (hlength : (possibles tr.tokens tr.index c).length = 1)
    : ∃ tr', tr.processChar c = (true, .valid, tr') ∧ tr'.tokens = tr.tokens ∧ tr'.index = 0 ∧ tr'.longestValid = 0
        ∧ tr'.currentToken = (if tr.index = 0 then [] else tr.currentToken) ++ [c] := by
  unfold processChar
  dsimp only
  rw [if_pos (by omega), if_pos hcomplete, if_pos hlength]
  exact ⟨_, rfl, rfl, rfl, rfl, rfl⟩

-- The token that is remembered is taken when no longer one goes on with the next character
theorem processChar_taken (hindex : tr.index ≠ 0) (hlongest : tr.longestValid ≠ 0)
    (hps : possibles tr.tokens tr.index c = [])
    : ∃ tr', tr.processChar c = (false, .valid, tr') ∧ tr'.tokens = tr.tokens ∧ tr'.index = 0 ∧ tr'.longestValid = 0
        ∧ tr'.currentToken = tr.currentToken := by
  rw [processChar_none hps, if_neg hindex, if_pos hlongest]
  exact ⟨_, rfl, rfl, rfl, rfl, rfl⟩

theorem mem_possibles {tokens : List Bytes} {u v : Bytes} (h : u ++ c :: v ∈ tokens)
    : u ++ c :: v ∈ possibles tokens u.length c := by
  refine List.mem_filter.mpr ⟨h, decide_eq_true ⟨?_, ?_⟩⟩
  . simp
  . simp

end TokenRecogniser

theorem Holding.kept (h : Holding tags r st w)
    : (if (r st).index = 0 then [] else (r st).currentToken) ++ [c] = w ++ [c] := by
  by_cases hw : w = []
  . have hindex : (r st).index = 0 := by
      rw [h.index, hw]
      rfl
    rw [if_pos hindex, hw]
  . have hindex : (r st).index ≠ 0 := by
      rw [h.index]
      exact mt List.eq_nil_of_length_eq_zero hw
    rw [if_neg hindex, h.token hw]

/-
Text in which nothing is taken for a tag.
-/

-- One more character is held back
theorem Holding.reads_more (h : Holding tags r q.state w) (hc : c ≠ 0) (sin : Bytes)
    (hps : possibles (tokensOf tags q.state) w.length c ≠ [])
    (hcomplete : isComplete (possibles (tokensOf tags q.state) w.length c) w.length = false)
    : ∃ r', Reads (q.having r) (c :: sin) (q.having r') sin ∧ Holding tags r' q.state (w ++ [c])
        ∧ (r' q.state).longestValid = (r q.state).longestValid := by
  rw [← h.tokens, ← h.index] at hps hcomplete
  have hchar := processChar_more hps hcomplete
  have htry := Processor.tryChar_having hc sin hchar
  refine ⟨_, .use hc htry .done, h.update rfl ?_ fun _ => h.kept, ?_⟩
  . rw [List.length_append, h.index]
    rfl
  . rw [Function.update_self]

-- A character that does not go on with what is held back
theorem Holding.reads_kept (h : Holding tags r q.state w) (hlongest : (r q.state).longestValid = 0) (hc : c ≠ 0)
    (sin : Bytes) (hw : w ≠ []) (hps : possibles (tokensOf tags q.state) w.length c = [])
    : ∃ r', (q.having r).tryChar c sin = (true, (q.keep w).having r', sin) ∧ Resting tags r' := by
  have hindex : (r q.state).index ≠ 0 := by
    rw [h.index]
    exact mt List.eq_nil_of_length_eq_zero hw
  rw [← h.tokens, ← h.index] at hps
  have hchar := processChar_none hps
  rw [if_neg hindex, if_neg (not_not_intro hlongest)] at hchar
  have htry := Processor.tryChar_having hc sin hchar
  refine ⟨Function.update r q.state { r q.state with index := 0 }, ?_, h.resting rfl rfl hlongest⟩
  rw [htry]
  dsimp only [Processor.outcome]
  rw [Processor.keep_having, h.token hw]
  rfl

theorem Resting.reads_char (h : Resting tags r) (hc : c ≠ 0) (sin : Bytes)
    (hps : possibles (tokensOf tags q.state) 0 c = [])
    : ∃ r', (q.having r).tryChar c sin = (false, (q.keep [c]).having r', sin) ∧ Resting tags r' := by
  obtain ⟨hindex, hlongest⟩ := h.rests q.state
  rw [← h.tokens, ← hindex] at hps
  have hchar := processChar_none hps
  rw [if_pos hindex] at hchar
  have htry := Processor.tryChar_having hc sin hchar
  refine ⟨_, ?_, (h.holding q.state).resting rfl hindex hlongest⟩
  rw [htry]
  dsimp only [Processor.outcome]
  rw [Processor.keep_having]
  rfl

theorem Holding.rest (h : Holding tags r st []) (hlongest : (r st).longestValid = 0) : Resting tags r where
  tokens := h.tokens
  rests := by
    intro st'
    by_cases hst : st' = st
    . subst hst
      exact ⟨h.index, hlongest⟩
    . exact h.rests st' hst

/--
A text in which nothing is taken for a tag is kept, and nothing of it is held back in the end.
-/
theorem Holding.reads_spared (h : Holding tags r q.state w) (hlongest : (r q.state).longestValid = 0) {text : Bytes}
    (rest : Bytes) (hw : 0 ∉ w) (hnul : 0 ∉ text) (hspared : spared (tokensOf tags q.state) w.length text = true)
    : ∃ r', Reads (q.having r) (text ++ rest) ((q.keep (w ++ text)).having r') rest ∧ Resting tags r' := by
  induction text generalizing q r w with
  | nil =>
    obtain rfl : w = [] := List.eq_nil_of_length_eq_zero (of_decide_eq_true hspared)
    rw [List.append_nil, Processor.keep_nil]
    exact ⟨r, .done, h.rest hlongest⟩
  | cons c text ih =>
    rw [List.mem_cons, not_or] at hnul
    obtain ⟨hc, hnul⟩ := hnul
    have hc : c ≠ 0 := Ne.symm hc
    have hstate := (Processor.keep_frame q w).1
    rw [spared] at hspared
    by_cases hps : possibles (tokensOf tags q.state) w.length c = []
    . rw [if_neg (not_not_intro hps)] at hspared
      by_cases hstart : possibles (tokensOf tags q.state) 0 c = []
      . -- The character begins no tag
        rw [if_neg (not_not_intro hstart)] at hspared
        by_cases hempty : w = []
        . subst hempty
          obtain ⟨r', htry, hresting⟩ := (h.rest hlongest).reads_char hc (text ++ rest) hstart
          have hstate' := (Processor.keep_frame q [c]).1
          obtain ⟨r'', hreads, hresting'⟩ := ih (hresting.holding (q.keep [c]).state) (hresting.rests _).2
            List.not_mem_nil hnul (hstate' ▸ hspared)
          refine ⟨r'', .use hc htry ?_, hresting'⟩
          have hkeep : q.keep (c :: text) = (q.keep [c]).keep text :=
            Processor.keep_append q (s := [c]) (by simpa using hc.symm)
          rw [List.nil_append, hkeep]
          exact hreads
        . obtain ⟨r1, htry, hresting⟩ := h.reads_kept hlongest hc (text ++ rest) hempty hps
          obtain ⟨r', htry', hresting'⟩ := hresting.reads_char hc (text ++ rest) (hstate ▸ hstart)
          have hstate' := (Processor.keep_frame (q.keep w) [c]).1.trans hstate
          obtain ⟨r'', hreads, hresting''⟩ := ih (hresting'.holding ((q.keep w).keep [c]).state)
            (hresting'.rests _).2 List.not_mem_nil hnul (hstate' ▸ hspared)
          refine ⟨r'', .retry hc htry (.use hc htry' ?_), hresting''⟩
          have hkeep : (q.keep w).keep (c :: text) = ((q.keep w).keep [c]).keep text :=
            Processor.keep_append (q.keep w) (s := [c]) (by simpa using hc.symm)
          rw [Processor.keep_append q hw, hkeep]
          exact hreads
      . -- It begins to be held back
        rw [if_pos hstart, Bool.and_eq_true, Bool.not_eq_true'] at hspared
        have hempty : w ≠ [] := by
          rintro rfl
          exact hstart hps
        obtain ⟨r1, htry, hresting⟩ := h.reads_kept hlongest hc (text ++ rest) hempty hps
        obtain ⟨r', hmore, hholding, hlongest'⟩ := (hresting.holding (q.keep w).state).reads_more hc (text ++ rest)
          (hstate ▸ hstart) (hstate ▸ hspared.1)
        obtain ⟨r'', hreads, hresting'⟩ := ih hholding (hlongest'.trans (hresting.rests _).2) (by simpa using hc.symm)
          hnul (hstate ▸ hspared.2)
        refine ⟨r'', .retry hc htry (hmore.trans ?_), hresting'⟩
        rw [Processor.keep_append q hw]
        exact hreads
    . rw [if_pos hps, Bool.and_eq_true, Bool.not_eq_true'] at hspared
      obtain ⟨r', hmore, hholding, hlongest'⟩ := h.reads_more hc (text ++ rest) hps hspared.1
      obtain ⟨r'', hreads, hresting⟩ := ih hholding (hlongest'.trans hlongest)
        (by simpa using ⟨hw, hc.symm⟩) hnul (by rw [List.length_append]; exact hspared.2)
      refine ⟨r'', hmore.trans ?_, hresting⟩
      rw [List.append_cons]
      exact hreads

theorem Resting.reads_text (h : Resting tags r) {text : Bytes} (rest : Bytes) (hnul : 0 ∉ text)
    (hspared : spared (tokensOf tags q.state) 0 text = true)
    : ∃ r', Reads (q.having r) (text ++ rest) ((q.keep text).having r') rest ∧ Resting tags r' :=
  (h.holding q.state).reads_spared (h.rests q.state).2 rest List.not_mem_nil hnul hspared

/-
Tags.
-/

-- One more character of a tag, which need not be the first one to be complete
theorem Holding.reads_next {v : Bytes} (h : Holding tags r q.state w) (hc : c ≠ 0) (sin : Bytes)
    (htag : w ++ c :: v ∈ tokensOf tags q.state) (hv : v ≠ [])
    : ∃ r', Reads (q.having r) (c :: sin) (q.having r') sin ∧ Holding tags r' q.state (w ++ [c]) := by
  have hmem := mem_possibles htag
  cases hcomplete : isComplete (possibles (tokensOf tags q.state) w.length c) w.length with
  | false =>
    obtain ⟨r', hmore, hholding, -⟩ := h.reads_more hc sin (List.ne_nil_of_mem hmem) hcomplete
    exact ⟨r', hmore, hholding⟩
  | true =>
    have hlength : (possibles (tokensOf tags q.state) w.length c).length ≠ 1 := by
      intro hone
      obtain ⟨tag, heq⟩ := List.length_eq_one_iff.mp hone
      rw [heq] at hcomplete hmem
      obtain rfl := List.mem_singleton.mp hmem
      exact hv (by simpa [isComplete] using hcomplete)
    rw [← h.tokens, ← h.index] at hcomplete hlength
    obtain ⟨tr, hchar, htokens, hindex, -, htoken⟩ := processChar_longest hcomplete hlength
    have htry := Processor.tryChar_having hc sin hchar
    refine ⟨_, .use hc htry .done, h.update htokens ?_ fun _ => htoken.trans h.kept⟩
    rw [hindex, List.length_append, h.index]
    rfl

-- Up to its last character, a tag is held back
theorem Holding.reads_part {u v : Bytes} (h : Holding tags r q.state w) (rest : Bytes)
    (htag : w ++ u ++ v ∈ tokensOf tags q.state) (hnul : 0 ∉ u) (hv : v ≠ [])
    : ∃ r', Reads (q.having r) (u ++ rest) (q.having r') rest ∧ Holding tags r' q.state (w ++ u) := by
  induction u generalizing r w with
  | nil =>
    rw [List.append_nil]
    exact ⟨r, .done, h⟩
  | cons c u ih =>
    rw [List.mem_cons, not_or] at hnul
    have hsplit : w ++ c :: u ++ v = w ++ c :: (u ++ v) := List.append_assoc _ _ _
    rw [hsplit] at htag
    obtain ⟨r', hnext, hholding⟩ := h.reads_next (Ne.symm hnul.1) (u ++ rest) htag (by simp [hv])
    obtain ⟨r'', hreads, hholding'⟩ := ih hholding (by simpa using htag) hnul.2
    rw [List.append_cons]
    exact ⟨r'', hnext.trans hreads, hholding'⟩

-- Whether a tag is taken with its last character, because no other one has it there
def isOnly (tokens : List Bytes) (tag : Bytes) : Bool :=
  (possibles tokens (tag.length - 1) (tag.getLastD 0)).length = 1

theorem isComplete_of_mem {tokens : List Bytes} {u : Bytes} (htag : u ++ [c] ∈ tokens)
    : isComplete (possibles tokens u.length c) u.length = true :=
  List.any_eq_true.mpr ⟨_, mem_possibles htag, decide_eq_true List.length_append⟩

theorem exists_concat {tag : Bytes} (hne : tag ≠ []) (hnul : 0 ∉ tag)
    : ∃ u c, tag = u ++ [c] ∧ 0 ∉ u ∧ c ≠ 0 := by
  refine ⟨tag.dropLast, tag.getLast hne, (List.dropLast_append_getLast hne).symm, ?_, ?_⟩
  . exact fun hmem => hnul (List.mem_of_mem_dropLast hmem)
  . exact fun hzero => hnul (hzero ▸ List.getLast_mem hne)

theorem Resting.reads_only (h : Resting tags r) {tag : Bytes} (sin : Bytes) (htag : tag ∈ tokensOf tags q.state)
    (hne : tag ≠ []) (hnul : 0 ∉ tag) (honly : isOnly (tokensOf tags q.state) tag = true)
    : ∃ r', Reads (q.having r) (tag ++ sin) ((q.onToken tag sin).1.having r') (q.onToken tag sin).2
        ∧ Resting tags r' := by
  obtain ⟨u, c, rfl, hu, hc⟩ := exists_concat hne hnul
  obtain ⟨r', hpart, hholding⟩ :=
    (h.holding q.state).reads_part ([c] ++ sin) htag hu (List.cons_ne_nil c [])
  have hcomplete := isComplete_of_mem htag
  have hlength : (possibles (tokensOf tags q.state) u.length c).length = 1 := by
    simpa [isOnly] using honly
  rw [List.nil_append] at hholding
  rw [← hholding.tokens, ← hholding.index] at hcomplete hlength
  obtain ⟨tr, hchar, htokens, hindex, hlongest, htoken⟩ := processChar_only hcomplete hlength
  have htry := Processor.tryChar_having hc sin hchar
  dsimp only [Processor.outcome] at htry
  rw [Processor.onToken_having, htoken, hholding.kept] at htry
  refine ⟨_, ?_, hholding.resting htokens hindex hlongest⟩
  rw [List.append_assoc]
  exact hpart.trans (.use hc htry .done)

theorem Resting.reads_longest (h : Resting tags r) {tag : Bytes} (sin : Bytes) {d : UInt8} (hd : d ≠ 0)
    (htag : tag ∈ tokensOf tags q.state) (hne : tag ≠ []) (hnul : 0 ∉ tag)
    (honly : isOnly (tokensOf tags q.state) tag = false) (hps : possibles (tokensOf tags q.state) tag.length d = [])
    : ∃ r', Reads (q.having r) (tag ++ d :: sin) ((q.onToken tag sin).1.having r') (d :: (q.onToken tag sin).2)
        ∧ Resting tags r' := by
  obtain ⟨u, c, rfl, hu, hc⟩ := exists_concat hne hnul
  obtain ⟨r', hpart, hholding⟩ :=
    (h.holding q.state).reads_part ([c] ++ d :: sin) htag hu (List.cons_ne_nil c [])
  have hcomplete := isComplete_of_mem htag
  have hlength : (possibles (tokensOf tags q.state) u.length c).length ≠ 1 := by
    simpa [isOnly] using honly
  rw [List.nil_append] at hholding
  rw [← hholding.tokens, ← hholding.index] at hcomplete hlength
  obtain ⟨tr, hchar, htokens, hindex, hlongest, htoken⟩ := processChar_longest hcomplete hlength
  have htry := Processor.tryChar_having hc (d :: sin) hchar
  -- The tag is held back until the next character is none that goes on with it
  have hheld : Holding tags (Function.update r' q.state tr) q.state (u ++ [c]) := by
    refine hholding.update htokens ?_ fun _ => htoken.trans hholding.kept
    rw [hindex, List.length_append, hholding.index]
    rfl
  have hlongest' : (Function.update r' q.state tr q.state).longestValid ≠ 0 := by
    rw [Function.update_self]
    exact hlongest
  have hindex' : (Function.update r' q.state tr q.state).index ≠ 0 := by
    rw [hheld.index, List.length_append]
    exact Nat.succ_ne_zero _
  rw [← hheld.tokens, ← hheld.index] at hps
  obtain ⟨tr', hchar', htokens', hindex', hlongest', htoken'⟩ := processChar_taken hindex' hlongest' hps
  have htry' := Processor.tryChar_having hd sin hchar'
  dsimp only [Processor.outcome] at htry'
  rw [Processor.onToken_having, htoken', hheld.token hne] at htry'
  refine ⟨_, ?_, hheld.resting htokens' hindex' hlongest'⟩
  rw [List.append_assoc]
  exact hpart.trans (.use hc htry (.retry hd htry' .done))

/-
The program that is written, and what it puts into the stream: the expressions have a value there, and the code is in
between.
-/

namespace Template

inductive Part where
  | char (c : UInt8)
  | expr (e : Bytes)
  | code (s : Bytes)
deriving DecidableEq

inductive Operand where
  | literal (s : Bytes)
  | expr (e : Bytes)

namespace Operand

def emit : Operand → Bytes
  | literal s => 34 :: (s.flatMap escaped ++ [34])
  | expr e => 40 :: (e ++ [41])

def meaning : Operand → List Part
  | literal s => s.map .char
  | expr e => [.expr e]

end Operand

-- The last operand is a literal, with an empty one behind an expression
inductive Statement where
  | endl
  | stream (operands : List Operand) (s : Bytes)
  | code (s : Bytes)

def inserted (operands : List Operand) : Bytes := operands.flatMap fun operand => operand.emit ++ [32, 60, 60, 32]

namespace Statement

def emit (sname : Bytes) : Statement → Bytes
  | endl => streamTo sname ++ endlStatement
  | stream operands s => streamTo sname ++ (inserted operands ++ 34 :: (s.flatMap escaped ++ closeLiteral))
  | code s => s

def meaning : Statement → List Part
  | endl => [.char 10]
  | stream operands s => operands.flatMap Operand.meaning ++ s.map .char
  | code s => [.code s]

end Statement

def opened (sname : Bytes) (started : Bool) (operands : List Operand) (s : Bytes) : Bytes :=
  if started then streamTo sname ++ (inserted operands ++ 34 :: s.flatMap escaped) else []

def Emitted (sname sout : Bytes) (started : Bool) (parts : List Part) : Prop :=
  ∃ (statements : List Statement) (operands : List Operand) (s : Bytes),
    sout = statements.flatMap (Statement.emit sname) ++ opened sname started operands s
      ∧ parts = statements.flatMap Statement.meaning ++ (operands.flatMap Operand.meaning ++ s.map .char)
      ∧ (started = false → operands = [] ∧ s = [])

namespace Emitted

variable {sname sout : Bytes} {parts : List Part}

theorem nil (sname : Bytes) : Emitted sname [] false [] := ⟨[], [], [], rfl, rfl, fun _ => ⟨rfl, rfl⟩⟩

theorem close (h : Emitted sname sout true parts) : Emitted sname (sout ++ closeLiteral) false parts := by
  obtain ⟨statements, operands, s, rfl, rfl, -⟩ := h
  refine ⟨statements ++ [.stream operands s], [], [], ?_, ?_, fun _ => ⟨rfl, rfl⟩⟩
  . simp [opened, Statement.emit]
  . simp [Statement.meaning]

theorem append (h : Emitted sname sout true parts) (c : UInt8)
    : Emitted sname (sout ++ escaped c) true (parts ++ [.char c]) := by
  obtain ⟨statements, operands, s, rfl, rfl, -⟩ := h
  refine ⟨statements, operands, s ++ [c], ?_, ?_, nofun⟩
  . simp [opened]
  . simp

theorem start (h : Emitted sname sout false parts) : Emitted sname (sout ++ (streamTo sname ++ [34])) true parts := by
  obtain ⟨statements, operands, s, rfl, rfl, hclosed⟩ := h
  obtain ⟨rfl, rfl⟩ := hclosed rfl
  refine ⟨statements, [], [], ?_, rfl, nofun⟩
  simp [opened, inserted]

theorem endl (h : Emitted sname sout false parts)
    : Emitted sname (sout ++ (streamTo sname ++ endlStatement)) false (parts ++ [.char 10]) := by
  obtain ⟨statements, operands, s, rfl, rfl, hclosed⟩ := h
  obtain ⟨rfl, rfl⟩ := hclosed rfl
  refine ⟨statements ++ [.endl], [], [], ?_, ?_, fun _ => ⟨rfl, rfl⟩⟩
  . simp [opened, Statement.emit]
  . simp [Statement.meaning]

theorem code (h : Emitted sname sout false parts) (s : Bytes)
    : Emitted sname (sout ++ s) false (parts ++ [.code s]) := by
  obtain ⟨statements, operands, t, rfl, rfl, hclosed⟩ := h
  obtain ⟨rfl, rfl⟩ := hclosed rfl
  refine ⟨statements ++ [.code s], [], [], ?_, ?_, fun _ => ⟨rfl, rfl⟩⟩
  . simp [opened, Statement.emit]
  . simp [Statement.meaning]

-- In an open literal, or where none is
theorem expr (h : Emitted sname sout true parts) (e : Bytes)
    : Emitted sname (sout ++ [34, 32, 60, 60, 32, 40] ++ e ++ [41] ++ [32, 60, 60, 32, 34]) true
        (parts ++ [.expr e]) := by
  obtain ⟨statements, operands, s, rfl, rfl, -⟩ := h
  refine ⟨statements, operands ++ [.literal s, .expr e], [], ?_, ?_, nofun⟩
  . simp [opened, inserted, Operand.emit]
  . simp [Operand.meaning]

theorem startExpr (h : Emitted sname sout false parts) (e : Bytes)
    : Emitted sname (sout ++ (streamTo sname ++ [40]) ++ e ++ [41] ++ [32, 60, 60, 32, 34]) true
        (parts ++ [.expr e]) := by
  obtain ⟨statements, operands, s, rfl, rfl, hclosed⟩ := h
  obtain ⟨rfl, rfl⟩ := hclosed rfl
  refine ⟨statements, [.expr e], [], ?_, ?_, nofun⟩
  . simp [opened, inserted, Operand.emit]
  . simp [Operand.meaning]

end Emitted

variable {q : Processor} {parts : List Part}

def Shows (q : Processor) (parts : List Part) : Prop := Emitted q.sname q.sout q.startedText parts

theorem outputText_open (hstarted : q.startedText = true) (c : UInt8)
    : q.outputText c =
        if c = 10 then { q.write (escaped c ++ closeLiteral) with startedText := false } else q.write (escaped c) := by
  have hstart : q.startText c = q := if_pos hstarted
  unfold Processor.outputText escaped
  dsimp only
  rw [hstart, if_pos hstarted]
  by_cases hnewline : c = 10
  . rw [if_pos hnewline, if_pos hnewline, if_pos hnewline]
  . rw [if_neg hnewline, if_neg hnewline, if_neg hnewline]
    split <;> rfl

theorem outputText_closed (hstarted : q.startedText = false) (c : UInt8)
    : q.outputText c =
        if c = 10 then
          q.write (streamTo q.sname ++ endlStatement)
        else
          { q.write (streamTo q.sname ++ [34]) with startedText := true }.write (escaped c) := by
  have hclosed : ¬q.startedText = true := by
    rw [hstarted]
    exact Bool.false_ne_true
  by_cases hnewline : c = 10
  . have hstart : q.startText c = q.write (streamTo q.sname ++ endlStatement) := by
      unfold Processor.startText
      rw [if_neg hclosed, if_pos hnewline]
    have hwritten : ¬(q.write (streamTo q.sname ++ endlStatement)).startedText = true := hclosed
    unfold Processor.outputText
    dsimp only
    rw [hstart, if_neg hwritten, if_pos hnewline]
  . have hstart : q.startText c = { q.write (streamTo q.sname ++ [34]) with startedText := true } := by
      unfold Processor.startText
      rw [if_neg hclosed, if_neg hnewline]
    unfold Processor.outputText escaped
    dsimp only
    rw [hstart, if_pos rfl, if_neg hnewline, if_neg hnewline, if_neg hnewline]
    split <;> rfl

theorem Shows.outputText (h : Shows q parts) (c : UInt8) : Shows (q.outputText c) (parts ++ [.char c]) := by
  unfold Shows at h
  cases hstarted : q.startedText with
  | true =>
    rw [hstarted] at h
    have happend := h.append c
    rw [outputText_open hstarted]
    split
    . have hclose := happend.close
      rw [List.append_assoc] at hclose
      exact hclose
    . unfold Shows
      change Emitted q.sname (q.sout ++ escaped c) q.startedText _
      rw [hstarted]
      exact happend
  | false =>
    rw [hstarted] at h
    rw [outputText_closed hstarted]
    split
    . rename_i hnewline
      unfold Shows
      change Emitted q.sname (q.sout ++ (streamTo q.sname ++ endlStatement)) q.startedText _
      rw [hstarted, hnewline]
      exact h.endl
    . exact h.start.append c

theorem Shows.outputString (h : Shows q parts) {s : Bytes} (hs : 0 ∉ s)
    : Shows (q.outputString s) (parts ++ s.map .char) := by
  have hne : ∀ c ∈ s, c ≠ 0 := fun c hc hzero => hs (hzero ▸ hc)
  have htake : s.takeWhile (· ≠ 0) = s := List.takeWhile_eq_self_iff.mpr (by simpa using hne)
  unfold Processor.outputString
  rw [htake]
  clear htake hne hs
  induction s generalizing q parts with
  | nil =>
    rw [List.map_nil, List.append_nil]
    exact h
  | cons c s ih =>
    have hrest := ih (h.outputText c)
    rw [List.append_assoc] at hrest
    exact hrest

/-
Blocks.
-/

inductive BlockKind where
  | code
  | expr
  | comment
deriving DecidableEq

namespace BlockKind

def state : BlockKind → ProcessorState
  | code => .code
  | expr => .expr
  | comment => .comment

def startTag (tags : Tags) : BlockKind → Bytes
  | code => tags.startCode
  | expr => tags.startExpr
  | comment => tags.startComment

def endTag (tags : Tags) : BlockKind → Bytes
  | code => tags.endCode
  | expr => tags.endExpr
  | comment => tags.endComment

-- Tags are looked for in this order
def Distinct (tags : Tags) : BlockKind → Prop
  | code => True
  | expr => tags.startExpr ≠ tags.startCode
  | comment => tags.startComment ≠ tags.startCode ∧ tags.startComment ≠ tags.startExpr

def opens (q : Processor) : BlockKind → Processor
  | code => { q.openCode with state := .code }
  | expr => { q.openExpr with state := .expr }
  | comment => { q with state := .comment }

def closes (q : Processor) : BlockKind → Processor
  | code => { q.closeCode with state := .normal }
  | expr => { q.closeExpr with state := .normal }
  | comment => { q with state := .normal }

-- What is left of the text behind a block
def after (s : Bytes) : BlockKind → Bytes
  | code => stripEol s
  | expr => s
  | comment => stripEol s

variable {kind : BlockKind}

theorem onToken_startTag (hstate : q.state = .normal) (hdistinct : kind.Distinct q.tags) (sin : Bytes)
    : q.onToken (kind.startTag q.tags) sin = (kind.opens q, if kind = .code then stripEol sin else sin) := by
  unfold Processor.onToken
  rw [hstate]
  cases kind with
  | code => exact if_pos rfl
  | expr => exact (if_neg hdistinct).trans (if_pos rfl)
  | comment => exact (if_neg hdistinct.1).trans ((if_neg hdistinct.2).trans (if_pos rfl))

theorem onToken_endTag (hstate : q.state = kind.state) (sin : Bytes)
    : q.onToken (kind.endTag q.tags) sin = (kind.closes q, kind.after sin) := by
  unfold Processor.onToken
  rw [hstate]
  cases kind with
  | code => exact if_pos rfl
  | expr => exact if_pos rfl
  | comment => exact if_pos rfl

end BlockKind

structure Block where
  kind : BlockKind
  body : Bytes

-- Neither a blank nor a newline
def Solid (s : Bytes) : Prop := ∀ c ∈ s.head?, c ≠ 32 ∧ c ≠ 9 ∧ c ≠ 10

theorem stripEol_append {s t : Bytes} (ht : Solid t) (hne : t ≠ []) : stripEol (s ++ t) = stripEol s ++ t := by
  induction s with
  | nil =>
    cases t with
    | nil => exact absurd rfl hne
    | cons c t =>
      obtain ⟨hspace, htab, hnewline⟩ := ht c rfl
      have hstop : stripEol (c :: t) = c :: t := by
        rw [stripEol, if_neg (not_or.mpr ⟨hspace, htab⟩), if_neg hnewline]
      exact hstop
  | cons c s ih =>
    rw [List.cons_append, stripEol, stripEol]
    split
    . exact ih
    . split <;> rfl

namespace Block

variable {b : Block}

def render (tags : Tags) (b : Block) : Bytes := b.kind.startTag tags ++ (b.body ++ b.kind.endTag tags)

/-
The blanks and the newline behind the tag of a block of code are dropped, but where the tag might have been a longer
one, its next character has been read before that.
-/
def shown (tags : Tags) (b : Block) : Bytes :=
  if b.kind = .code then
    if isOnly (tokensOf tags .normal) tags.startCode then stripEol b.body else b.body.take 1 ++ stripEol (b.body.drop 1)
  else
    b.body

def meaning (tags : Tags) (b : Block) : List Part :=
  match b.kind with
  | .code => [.code (b.shown tags)]
  | .expr => [.expr b.body]
  | .comment => []

structure Proper (tags : Tags) (b : Block) : Prop where
  startTag : b.kind.startTag tags ≠ []
  endTag : b.kind.endTag tags ≠ []
  nul : 0 ∉ b.render tags
  distinct : b.kind.Distinct tags
  solid : Solid (b.kind.startTag tags)
  solidEnd : b.kind = .code → Solid (b.kind.endTag tags)
  taken : isOnly (tokensOf tags .normal) (b.kind.startTag tags) = true
    ∨ (b.kind = .code → b.body ≠ [])
      ∧ ∀ c ∈ (b.body ++ b.kind.endTag tags).head?,
        possibles (tokensOf tags .normal) (b.kind.startTag tags).length c = []
  spared : CPPT.spared [b.kind.endTag tags] 0 (b.shown tags) = true

theorem startTag_mem {tags : Tags} (h : b.kind.startTag tags ≠ []) : b.kind.startTag tags ∈ tokensOf tags .normal := by
  unfold tokensOf ofTokens
  refine List.mem_filter.mpr ⟨?_, decide_eq_true h⟩
  cases b.kind <;> simp [BlockKind.startTag]

theorem tokensOf_end {tags : Tags} (h : b.kind.endTag tags ≠ [])
    : tokensOf tags b.kind.state = [b.kind.endTag tags] := by
  have hfilter (kind : BlockKind) (h : kind.endTag tags ≠ [])
      : [kind.endTag tags].filter (· ≠ []) = [kind.endTag tags] :=
    List.filter_eq_self.mpr (by simpa using h)
  cases hkind : b.kind with
  | code => exact hfilter .code (hkind ▸ h)
  | expr => exact hfilter .expr (hkind ▸ h)
  | comment => exact hfilter .comment (hkind ▸ h)

theorem isOnly_singleton {tag : Bytes} (hne : tag ≠ []) (hnul : 0 ∉ tag) : isOnly [tag] tag = true := by
  obtain ⟨u, c, rfl, -, -⟩ := exists_concat hne hnul
  simp [isOnly, possibles]

theorem opens_state (q : Processor) (kind : BlockKind) : (kind.opens q).state = kind.state := by
  cases kind <;> rfl

theorem opens_frame (q : Processor) (kind : BlockKind)
    : (kind.opens q).tags = q.tags ∧ (kind.opens q).sname = q.sname := by
  cases kind with
  | code =>
    change q.openCode.tags = q.tags ∧ q.openCode.sname = q.sname
    unfold Processor.openCode
    split <;> exact ⟨rfl, rfl⟩
  | expr =>
    change q.openExpr.tags = q.tags ∧ q.openExpr.sname = q.sname
    unfold Processor.openExpr
    split <;> exact ⟨rfl, rfl⟩
  | comment => exact ⟨rfl, rfl⟩

-- The tag at the start, and what is left of the body behind it
theorem Proper.reads_start {r : ProcessorState → TokenRecogniser} (h : b.Proper q.tags) (hr : Resting q.tags r)
    (hstate : q.state = .normal) (rest : Bytes)
    : ∃ r', Reads (q.having r) (b.render q.tags ++ rest) ((b.kind.opens q).having r')
          (b.shown q.tags ++ (b.kind.endTag q.tags ++ rest))
        ∧ Resting q.tags r' := by
  have hnul := h.nul
  unfold render at hnul
  rw [List.mem_append, List.mem_append, not_or, not_or] at hnul
  obtain ⟨hnulStart, hnulBody, hnulEnd⟩ := hnul
  have hmem := startTag_mem h.startTag
  have honToken := BlockKind.onToken_startTag hstate h.distinct
  have hend : b.kind = .code → Solid (b.kind.endTag q.tags ++ rest) := by
    intro hcode c hc
    rw [List.head?_append_of_ne_nil _ h.endTag] at hc
    exact h.solidEnd hcode c hc
  unfold render shown
  rw [List.append_assoc, List.append_assoc]
  rw [← hstate] at hmem
  cases honly : isOnly (tokensOf q.tags q.state) (b.kind.startTag q.tags) with
  | true =>
    obtain ⟨r', hreads, hresting⟩ := hr.reads_only (b.body ++ (b.kind.endTag q.tags ++ rest)) hmem h.startTag hnulStart
      honly
    refine ⟨r', ?_, hresting⟩
    rw [honToken] at hreads
    dsimp only at hreads
    by_cases hcode : b.kind = .code
    . have honlyCode : isOnly (tokensOf q.tags .normal) q.tags.startCode = true := by
        rw [hstate, hcode] at honly
        exact honly
      rw [if_pos hcode, if_pos honlyCode]
      rw [if_pos hcode, stripEol_append (hend hcode) (by simp [h.endTag])] at hreads
      exact hreads
    . rw [if_neg hcode]
      rw [if_neg hcode] at hreads
      exact hreads
  | false =>
    have hnot : ¬isOnly (tokensOf q.tags .normal) (b.kind.startTag q.tags) = true := by
      rw [← hstate, honly]
      exact Bool.false_ne_true
    obtain ⟨hne, hnext⟩ := h.taken.resolve_left hnot
    rw [← hstate] at hnext
    -- The character that shows that the tag is not a longer one
    obtain ⟨d, s, hsplit⟩ : ∃ d s, b.body ++ b.kind.endTag q.tags = d :: s :=
      List.exists_cons_of_ne_nil (by simp [h.endTag])
    rw [hsplit] at hnext
    have hd : d ≠ 0 := by
      rintro rfl
      have hmem : 0 ∈ b.body ++ b.kind.endTag q.tags := by
        rw [hsplit]
        exact List.mem_cons_self
      exact (List.mem_append.mp hmem).elim hnulBody hnulEnd
    obtain ⟨r', hreads, hresting⟩ := hr.reads_longest (s ++ rest) hd hmem h.startTag hnulStart honly (hnext d rfl)
    refine ⟨r', ?_, hresting⟩
    rw [honToken] at hreads
    dsimp only at hreads
    have hinput : b.body ++ (b.kind.endTag q.tags ++ rest) = d :: (s ++ rest) := by
      rw [← List.append_assoc, hsplit]
      rfl
    by_cases hcode : b.kind = .code
    . have hnotCode : ¬isOnly (tokensOf q.tags .normal) q.tags.startCode = true := by
        rw [hcode] at hnot
        exact hnot
      rw [hinput, if_pos hcode, if_neg hnotCode]
      rw [if_pos hcode] at hreads
      obtain ⟨c, body, hbody⟩ := List.exists_cons_of_ne_nil (hne hcode)
      rw [hbody, List.cons_append] at hsplit
      obtain ⟨rfl, rfl⟩ := List.cons.inj hsplit
      have htail : body ++ b.kind.endTag q.tags ++ rest = body ++ (b.kind.endTag q.tags ++ rest) :=
        List.append_assoc _ _ _
      rw [htail, stripEol_append (hend hcode) (by simp [h.endTag])] at hreads
      rw [hbody, htail]
      exact hreads
    . rw [hinput, if_neg hcode]
      rw [if_neg hcode] at hreads
      rw [hinput]
      exact hreads

theorem stripEol_suffix (s : Bytes) : stripEol s <:+ s := by
  induction s with
  | nil => exact List.suffix_rfl
  | cons c s ih =>
    unfold stripEol
    split
    . exact ih.trans (List.suffix_cons c s)
    . split
      . exact List.suffix_cons c s
      . exact List.suffix_rfl

theorem shown_subset (tags : Tags) (b : Block) : b.shown tags ⊆ b.body := by
  unfold shown
  split
  . split
    . exact (stripEol_suffix b.body).subset
    . refine List.append_subset.mpr ⟨List.take_subset 1 b.body, ?_⟩
      exact fun c hc => List.drop_subset 1 b.body ((stripEol_suffix _).subset hc)
  . exact List.Subset.refl _

def run (q : Processor) (b : Block) : Processor := b.kind.closes ((b.kind.opens q).keep (b.shown q.tags))

theorem closes_state (q : Processor) (kind : BlockKind) : (kind.closes q).state = .normal := by
  cases kind <;> rfl

theorem closes_frame (q : Processor) (kind : BlockKind)
    : (kind.closes q).tags = q.tags ∧ (kind.closes q).sname = q.sname := by
  cases kind with
  | code => exact ⟨rfl, rfl⟩
  | expr =>
    change q.closeExpr.tags = q.tags ∧ q.closeExpr.sname = q.sname
    unfold Processor.closeExpr
    dsimp only
    split <;> exact ⟨rfl, rfl⟩
  | comment => exact ⟨rfl, rfl⟩

theorem run_frame (q : Processor) (b : Block)
    : (b.run q).state = .normal ∧ (b.run q).tags = q.tags ∧ (b.run q).sname = q.sname := by
  obtain ⟨hopenTags, hopenName⟩ := opens_frame q b.kind
  obtain ⟨-, htags, hname⟩ := Processor.keep_frame (b.kind.opens q) (b.shown q.tags)
  obtain ⟨hcloseTags, hcloseName⟩ := closes_frame ((b.kind.opens q).keep (b.shown q.tags)) b.kind
  exact ⟨closes_state _ _, hcloseTags.trans (htags.trans hopenTags), hcloseName.trans (hname.trans hopenName)⟩

/--
A block is read as a whole, and what is behind it is left.
-/
theorem Proper.reads {r : ProcessorState → TokenRecogniser} (h : b.Proper q.tags) (hr : Resting q.tags r)
    (hstate : q.state = .normal) (rest : Bytes)
    : ∃ r', Reads (q.having r) (b.render q.tags ++ rest) ((b.run q).having r') (b.kind.after rest)
        ∧ Resting q.tags r' := by
  have hnul := h.nul
  unfold render at hnul
  rw [List.mem_append, List.mem_append, not_or, not_or] at hnul
  obtain ⟨r1, hstart, hr1⟩ := h.reads_start hr hstate rest
  have hstate1 := opens_state q b.kind
  have hspared := h.spared
  rw [← tokensOf_end h.endTag, ← hstate1] at hspared
  obtain ⟨r2, hbody, hr2⟩ := hr1.reads_text (b.kind.endTag q.tags ++ rest)
    (fun hmem => hnul.2.1 (shown_subset q.tags b hmem)) hspared
  obtain ⟨hstate2, htags2, -⟩ := Processor.keep_frame (b.kind.opens q) (b.shown q.tags)
  have hstate2 := hstate2.trans hstate1
  have htags2 := htags2.trans (opens_frame q b.kind).1
  have htokens : tokensOf q.tags ((b.kind.opens q).keep (b.shown q.tags)).state = [b.kind.endTag q.tags] := by
    rw [hstate2, tokensOf_end h.endTag]
  have honly := isOnly_singleton h.endTag hnul.2.2
  rw [← htokens] at honly
  have hmem : b.kind.endTag q.tags ∈ tokensOf q.tags ((b.kind.opens q).keep (b.shown q.tags)).state := by
    rw [htokens]
    exact List.mem_cons_self
  obtain ⟨r3, hend, hr3⟩ := hr2.reads_only rest hmem h.endTag hnul.2.2 honly
  have honToken := BlockKind.onToken_endTag hstate2 rest
  rw [htags2] at honToken
  rw [honToken] at hend
  exact ⟨r3, hstart.trans (hbody.trans hend), hr3⟩

theorem shows_run (h : Shows q parts) : Shows (b.run q) (parts ++ b.meaning q.tags) := by
  unfold Shows at h
  unfold run meaning
  cases hkind : b.kind with
  | code =>
    have hclosed : Emitted q.sname q.openCode.sout false parts := by
      unfold Processor.openCode
      cases hstarted : q.startedText with
      | true =>
        rw [hstarted] at h
        rw [if_pos rfl]
        exact h.close
      | false =>
        rw [hstarted] at h
        rw [if_neg Bool.false_ne_true]
        exact h
    have hname : q.openCode.sname = q.sname := by
      unfold Processor.openCode
      split <;> rfl
    have hcode := hclosed.code (b.shown q.tags)
    rw [← hname] at hcode
    exact hcode
  | expr =>
    have hshown : b.shown q.tags = b.body := by
      unfold shown
      rw [hkind]
      exact if_neg nofun
    rw [hshown]
    obtain ⟨sout, sname, tags, state, started, normal, code, expr, comment⟩ := q
    cases started with
    | true => exact h.expr b.body
    | false => exact h.startExpr b.body
  | comment =>
    rw [List.append_nil]
    exact h

end Block

theorem Shows.keep (h : Shows q parts) (hstate : q.state = .normal) {s : Bytes} (hs : 0 ∉ s)
    : Shows (q.keep s) (parts ++ s.map .char) := by
  unfold Processor.keep
  rw [hstate]
  exact h.outputString hs

-- The literal that is open at the end is closed
theorem Shows.exists_statements (h : Shows q parts)
    : ∃ statements : List Statement, q.openCode.sout = statements.flatMap (Statement.emit q.sname)
        ∧ statements.flatMap Statement.meaning = parts := by
  have hclosed : Emitted q.sname q.openCode.sout false parts := by
    unfold Shows at h
    unfold Processor.openCode
    cases hstarted : q.startedText with
    | true =>
      rw [hstarted] at h
      exact h.close
    | false =>
      rw [hstarted] at h
      exact h
  obtain ⟨statements, operands, s, hsout, hparts, hnone⟩ := hclosed
  obtain ⟨rfl, rfl⟩ := hnone rfl
  exact ⟨statements, hsout.trans (List.append_nil _), (hparts.trans (List.append_nil _)).symm⟩

end Template

/-
A template is a text with blocks in it, each with the text behind it.
-/
structure Template where
  text : Bytes
  blocks : List (Template.Block × Bytes)

namespace Template

def renderBlocks (tags : Tags) (blocks : List (Block × Bytes)) : Bytes :=
  blocks.flatMap fun b => b.1.render tags ++ b.2

def render (tags : Tags) (template : Template) : Bytes := template.text ++ renderBlocks tags template.blocks

def meaningBlocks (tags : Tags) (blocks : List (Block × Bytes)) : List Part :=
  blocks.flatMap fun b => b.1.meaning tags ++ (b.1.kind.after b.2).map .char

def meaning (tags : Tags) (template : Template) : List Part :=
  template.text.map .char ++ meaningBlocks tags template.blocks

def ProperText (tags : Tags) (s : Bytes) : Prop := 0 ∉ s ∧ spared (tokensOf tags .normal) 0 s = true

structure Proper (tags : Tags) (template : Template) : Prop where
  text : ProperText tags template.text
  blocks : ∀ b ∈ template.blocks, b.1.Proper tags ∧ ProperText tags (b.1.kind.after b.2)

variable {q : Processor} {parts : List Part} {r : ProcessorState → TokenRecogniser} {blocks : List (Block × Bytes)}

theorem after_append {kind : BlockKind} {s t : Bytes} (ht : Solid t) : kind.after (s ++ t) = kind.after s ++ t := by
  cases t with
  | nil => rw [List.append_nil, List.append_nil]
  | cons c t =>
    cases kind with
    | code => exact stripEol_append ht (List.cons_ne_nil c t)
    | expr => rfl
    | comment => exact stripEol_append ht (List.cons_ne_nil c t)

theorem solid_renderBlocks {tags : Tags} (h : ∀ b ∈ blocks, b.1.Proper tags ∧ ProperText tags (b.1.kind.after b.2))
    : Solid (renderBlocks tags blocks) := by
  cases blocks with
  | nil => exact fun c hc => absurd hc (by simp [renderBlocks])
  | cons b blocks =>
    have hproper := (h b List.mem_cons_self).1
    intro c hc
    unfold renderBlocks Block.render at hc
    rw [List.flatMap_cons, List.append_assoc, List.append_assoc,
      List.head?_append_of_ne_nil _ hproper.startTag] at hc
    exact hproper.solid c hc

theorem reads_blocks (h : ∀ b ∈ blocks, b.1.Proper q.tags ∧ ProperText q.tags (b.1.kind.after b.2))
    (hr : Resting q.tags r) (hstate : q.state = .normal) (hshows : Shows q parts)
    : ∃ q' r', Reads (q.having r) (renderBlocks q.tags blocks) (q'.having r') [] ∧ q'.state = .normal
        ∧ q'.sname = q.sname ∧ Shows q' (parts ++ meaningBlocks q.tags blocks) := by
  induction blocks generalizing q r parts with
  | nil =>
    refine ⟨q, r, .done, hstate, rfl, ?_⟩
    change Shows q (parts ++ [])
    rw [List.append_nil]
    exact hshows
  | cons b blocks ih =>
    rw [List.forall_mem_cons] at h
    obtain ⟨⟨hproper, hnul, hspared⟩, hblocks⟩ := h
    obtain ⟨r1, hblock, hr1⟩ := hproper.reads hr hstate (b.2 ++ renderBlocks q.tags blocks)
    rw [after_append (solid_renderBlocks hblocks)] at hblock
    obtain ⟨hstate1, htags1, hname1⟩ := Block.run_frame q b.1
    rw [← hstate1] at hspared
    obtain ⟨r2, htext, hr2⟩ := hr1.reads_text (renderBlocks q.tags blocks) hnul hspared
    have hshows1 := (Block.shows_run (b := b.1) hshows).keep hstate1 hnul
    obtain ⟨hstate2, htags2, hname2⟩ := Processor.keep_frame (b.1.run q) (b.1.kind.after b.2)
    have htags := htags2.trans htags1
    rw [← htags] at hblocks hr2
    obtain ⟨q', r', hreads, hstate', hname', hshows'⟩ := ih hblocks hr2 (hstate2.trans hstate1) hshows1
    rw [htags] at hreads hshows'
    refine ⟨q', r', ?_, hstate', hname'.trans (hname2.trans hname1), ?_⟩
    . have hrender : renderBlocks q.tags (b :: blocks) = b.1.render q.tags ++ (b.2 ++ renderBlocks q.tags blocks) :=
        List.append_assoc _ _ _
      rw [hrender]
      exact hblock.trans (htext.trans hreads)
    . have hmeaning : meaningBlocks q.tags (b :: blocks)
          = b.1.meaning q.tags ++ ((b.1.kind.after b.2).map .char ++ meaningBlocks q.tags blocks) :=
        List.append_assoc _ _ _
      rw [hmeaning, ← List.append_assoc, ← List.append_assoc]
      exact hshows'

/--
The program that a template becomes puts its texts and expressions into the stream, in order and with its code between
them.
-/
theorem process_render {tags : Tags} (sname : Bytes) (template : Template) (h : template.Proper tags)
    : ∃ statements : List Statement, statements.flatMap Statement.meaning = template.meaning tags
        ∧ ∃ n, ∀ fuel, n < fuel →
          Processor.process fuel tags sname (template.render tags)
            = some (statements.flatMap (Statement.emit sname)) := by
  have hr : Resting tags (Processor.new tags sname).recognisers := by
    refine ⟨fun st => ?_, fun st => ?_⟩
    . cases st <;> rfl
    . cases st <;> exact ⟨rfl, rfl⟩
  obtain ⟨r1, htext, hr1⟩ := hr.reads_text (q := Processor.new tags sname) (renderBlocks tags template.blocks)
    h.text.1 h.text.2
  have hshows : Shows (Processor.new tags sname) [] := Emitted.nil sname
  have hshows1 := hshows.keep rfl h.text.1
  obtain ⟨hstate1, htags1, hname1⟩ := Processor.keep_frame (Processor.new tags sname) template.text
  have htags : ((Processor.new tags sname).keep template.text).tags = tags := htags1
  have hblocks := h.blocks
  rw [← htags] at hblocks hr1
  obtain ⟨q', r', hreads, hstate', hname', hshows'⟩ := reads_blocks hblocks hr1 hstate1 hshows1
  rw [htags] at hreads hshows'
  obtain ⟨n, hloop, -⟩ := (htext.trans hreads).exists_fuel rfl
  obtain ⟨statements, hsout, hmeaning⟩ := hshows'.exists_statements
  have hname : q'.sname = sname := hname'.trans hname1
  rw [hname] at hsout
  refine ⟨statements, hmeaning, n, fun fuel hfuel => ?_⟩
  have hprocess : Processor.processLoop fuel (Processor.new tags sname) (template.render tags) = some (q'.having r') :=
    hloop fuel hfuel
  have hnormal : (q'.having r').state = .normal := hstate'
  unfold Processor.process
  rw [hprocess, Option.bind_eq_bind, Option.bind_some, if_pos hnormal, Processor.openCode_having]
  exact congrArg some hsout

-- "a<? f?>\nb<?=x=?>"
def queryTemplate : Template where
  text := [97]
  blocks := [({ kind := .code, body := [32, 102] }, [10, 98]), ({ kind := .expr, body := [120] }, [])]

theorem queryTemplate_proper : queryTemplate.Proper queryTags where
  text := by
    unfold ProperText
    decide
  blocks := by
    intro b hb
    unfold ProperText
    rcases List.mem_cons.mp hb with rfl | hb
    . refine ⟨⟨by decide, by decide, by decide, trivial, ?_, fun _ => ?_, .inr ⟨fun _ => by decide, ?_⟩, by decide⟩,
        by decide⟩
      all_goals
        rintro c ⟨⟩
        decide
    . obtain rfl := List.mem_singleton.mp hb
      refine ⟨⟨by decide, by decide, by decide, ?_, ?_, nofun, .inl (by decide), by decide⟩, by decide⟩
      . exact (by decide : queryTags.startExpr ≠ queryTags.startCode)
      . rintro c ⟨⟩
        decide

-- The newline behind the code is dropped
theorem process_render_query
    : ∃ statements : List Statement,
        statements.flatMap Statement.meaning = [.char 97, .code [32, 102], .char 98, .expr [120]]
          ∧ ∃ n, ∀ fuel, n < fuel →
            Processor.process fuel queryTags [111] [97, 60, 63, 32, 102, 63, 62, 10, 98, 60, 63, 61, 120, 61, 63, 62]
              = some (statements.flatMap (Statement.emit [111])) := by
  have h := process_render [111] queryTemplate queryTemplate_proper
  have hmeaning : queryTemplate.meaning queryTags = [.char 97, .code [32, 102], .char 98, .expr [120]] := by decide
  rw [hmeaning] at h
  exact h

end Template

end CPPT
end ObTools
