import Mathlib.Data.List.Infix
import Mathlib.Data.List.TakeWhile
import ObTools.Cppt.Held

/-!
This module contains the proof of which texts come out of a `CPPT::Processor` as they are: those in which the characters
that are held back, because they may begin a tag, are never taken for a tag or left over at the end.
-/

namespace ObTools
namespace CPPT

open TokenRecogniser

/-
What is written to the stream for text is a sequence of statements, and a literal that may still be open.
-/

inductive Statement where
  | endl
  | literal (s : Bytes)

def escaped (c : UInt8) : Bytes := if c = 10 then [92, 110] else if c = 34 ∨ c = 92 then [92, c] else [c]

namespace Statement

def emit (sname : Bytes) : Statement → Bytes
  | endl => streamTo sname ++ endlStatement
  | literal s => streamTo sname ++ (34 :: (s.flatMap escaped ++ closeLiteral))

def value : Statement → Bytes
  | endl => [10]
  | literal s => s

end Statement

def openLiteral (sname : Bytes) (started : Bool) (s : Bytes) : Bytes :=
  if started then streamTo sname ++ (34 :: s.flatMap escaped) else []

def Written (sname sout : Bytes) (started : Bool) (t : Bytes) : Prop :=
  ∃ (statements : List Statement) (s : Bytes),
    sout = statements.flatMap (Statement.emit sname) ++ openLiteral sname started s
      ∧ t = statements.flatMap Statement.value ++ s ∧ (started = false → s = [])

variable {sname sout t : Bytes} {started : Bool}

theorem written_nil (sname : Bytes) : Written sname [] false [] := ⟨[], [], rfl, rfl, fun _ => rfl⟩

-- The open literal is closed
theorem Written.close (h : Written sname sout true t) : Written sname (sout ++ closeLiteral) false t := by
  obtain ⟨statements, s, rfl, rfl, -⟩ := h
  refine ⟨statements ++ [.literal s], [], ?_, ?_, fun _ => rfl⟩
  . simp [openLiteral, Statement.emit]
  . simp [Statement.value]

theorem Written.append (h : Written sname sout true t) (c : UInt8)
    : Written sname (sout ++ escaped c) true (t ++ [c]) := by
  obtain ⟨statements, s, rfl, rfl, -⟩ := h
  refine ⟨statements, s ++ [c], ?_, ?_, nofun⟩
  . simp [openLiteral]
  . simp

theorem Written.start (h : Written sname sout false t) : Written sname (sout ++ (streamTo sname ++ [34])) true t := by
  obtain ⟨statements, s, rfl, rfl, hs⟩ := h
  refine ⟨statements, s, ?_, rfl, nofun⟩
  simp [openLiteral, hs rfl]

theorem Written.endl (h : Written sname sout false t)
    : Written sname (sout ++ (streamTo sname ++ endlStatement)) false (t ++ [10]) := by
  obtain ⟨statements, s, rfl, rfl, hs⟩ := h
  refine ⟨statements ++ [.endl], [], ?_, ?_, fun _ => rfl⟩
  . simp [openLiteral, Statement.emit]
  . simp [Statement.value, hs rfl]

namespace Processor

variable {p : Processor}

theorem outputText_open (hstarted : p.startedText = true) (h : Written p.sname p.sout true t) (c : UInt8)
    : ∃ sout started, p.outputText c = { p with sout, startedText := started }
        ∧ Written p.sname sout started (t ++ [c]) := by
  have hstart : p.startText c = p := if_pos hstarted
  have happend := h.append c
  unfold outputText
  dsimp only
  rw [hstart, if_pos hstarted]
  by_cases hc : c = 10
  . have hclose := happend.close
    rw [hc, escaped, if_pos rfl, List.append_assoc] at hclose
    rw [if_pos hc, hc]
    exact ⟨_, _, rfl, hclose⟩
  . rw [escaped, if_neg hc] at happend
    rw [if_neg hc]
    by_cases hslash : c = 34 ∨ c = 92
    . rw [if_pos hslash] at happend
      rw [if_pos hslash]
      exact ⟨_, true, by rw [← hstarted]; rfl, happend⟩
    . rw [if_neg hslash] at happend
      rw [if_neg hslash]
      exact ⟨_, true, by rw [← hstarted]; rfl, happend⟩

theorem outputText_written (h : Written p.sname p.sout p.startedText t) (c : UInt8)
    : ∃ sout started, p.outputText c = { p with sout, startedText := started }
        ∧ Written p.sname sout started (t ++ [c]) := by
  cases hstarted : p.startedText with
  | true =>
    rw [hstarted] at h
    exact outputText_open hstarted h c
  | false =>
    rw [hstarted] at h
    by_cases hc : c = 10
    . have hstart : p.startText c = p.write (streamTo p.sname ++ endlStatement) := by
        unfold startText
        rw [hstarted, if_neg Bool.false_ne_true, if_pos hc]
      have hclosed : ¬(p.write (streamTo p.sname ++ endlStatement)).startedText = true := by
        show ¬p.startedText = true
        simp [hstarted]
      refine ⟨_, false, ?_, hc ▸ h.endl⟩
      unfold outputText
      dsimp only
      rw [hstart, if_neg hclosed, ← hstarted]
      rfl
    . have hstart : p.outputText c = outputText { p.write (streamTo p.sname ++ [34]) with startedText := true } c := by
        unfold outputText startText
        dsimp only
        rw [hstarted, if_neg Bool.false_ne_true, if_neg hc]
        rfl
      rw [hstart]
      exact outputText_open rfl h.start c

theorem foldl_outputText_written (h : Written p.sname p.sout p.startedText t) (s : Bytes)
    : ∃ sout started, s.foldl outputText p = { p with sout, startedText := started }
        ∧ Written p.sname sout started (t ++ s) := by
  induction s generalizing p t with
  | nil =>
    rw [List.append_nil]
    exact ⟨_, _, rfl, h⟩
  | cons c s ih =>
    obtain ⟨sout, started, heq, hwritten⟩ := outputText_written h c
    have hrest := @ih (t ++ [c]) { p with sout, startedText := started } hwritten
    rw [List.append_assoc, List.singleton_append] at hrest
    rw [List.foldl_cons, heq]
    exact hrest

theorem outputString_written (h : Written p.sname p.sout p.startedText t) {s : Bytes} (hs : 0 ∉ s)
    : ∃ sout started, p.outputString s = { p with sout, startedText := started }
        ∧ Written p.sname sout started (t ++ s) := by
  have htake : s.takeWhile (· ≠ 0) = s := by
    rw [List.takeWhile_eq_self_iff]
    intro c hc
    exact decide_eq_true fun hzero => hs (hzero ▸ hc)
  unfold outputString
  rw [htake]
  exact foldl_outputText_written h s

end Processor

/-
The statements are read back.
-/

theorem readLiteral_escaped (s rest : Bytes) : readLiteral (s.flatMap escaped ++ 34 :: rest) = some (s, rest) := by
  induction s with
  | nil =>
    rw [List.flatMap_nil, List.nil_append, readLiteral.eq_def]
    exact if_pos rfl
  | cons c s ih =>
    rw [List.flatMap_cons, List.append_assoc]
    by_cases hc : c = 10
    . rw [escaped, if_pos hc, List.cons_append, List.cons_append, List.nil_append, readLiteral, if_neg (by decide),
        if_pos rfl, ih, hc]
      rfl
    . rw [escaped, if_neg hc]
      by_cases hslash : c = 34 ∨ c = 92
      . rw [if_pos hslash, List.cons_append, List.cons_append, List.nil_append, readLiteral, if_neg (by decide),
          if_pos rfl, ih]
        have hn : c ≠ 110 := by
          rcases hslash with rfl | rfl <;> decide
        simp only [Option.map_some, if_neg hn]
      . rw [not_or] at hslash
        rw [if_neg (not_or.mpr hslash), List.singleton_append, readLiteral.eq_def]
        dsimp only
        rw [if_neg hslash.1, if_neg hslash.2, ih]
        rfl

theorem readOperand_emit (sname : Bytes) (st : Statement) (rest : Bytes)
    : ∃ operand, st.emit sname = streamTo sname ++ operand ∧ readOperand (operand ++ rest) = some (st.value, rest) := by
  cases st with
  | endl => exact ⟨endlStatement, rfl, rfl⟩
  | literal s =>
    refine ⟨_, rfl, ?_⟩
    have hread := readLiteral_escaped s ([59, 10] ++ rest)
    have hsplit : 34 :: (s.flatMap escaped ++ closeLiteral) ++ rest
        = 34 :: (s.flatMap escaped ++ 34 :: ([59, 10] ++ rest)) := by
      rw [List.cons_append, List.append_assoc]
      rfl
    have hquote : [34] <+: 34 :: (s.flatMap escaped ++ 34 :: ([59, 10] ++ rest)) := List.prefix_append [34] _
    rw [hsplit, readOperand, if_pos hquote, List.drop_one, List.tail_cons, hread, Option.bind_eq_bind,
      Option.bind_some]
    exact if_pos (List.prefix_append _ _)

theorem readStatements_emit (sname : Bytes) (statements : List Statement) {fuel : Nat}
    (hfuel : statements.length < fuel)
    : readStatements sname fuel (statements.flatMap (Statement.emit sname))
        = some (statements.flatMap Statement.value) := by
  induction statements generalizing fuel with
  | nil =>
    cases fuel with
    | zero => contradiction
    | succ fuel => rfl
  | cons st statements ih =>
    cases fuel with
    | zero => contradiction
    | succ fuel =>
      have hrest := ih (Nat.lt_of_succ_lt_succ hfuel)
      obtain ⟨operand, hemit, hread⟩ := readOperand_emit sname st (statements.flatMap (Statement.emit sname))
      have hne : streamTo sname ++ (operand ++ statements.flatMap (Statement.emit sname)) ≠ [] := by
        simp [streamTo]
      rw [List.flatMap_cons, List.flatMap_cons, hemit, List.append_assoc, readStatements, if_neg hne,
        if_pos (List.prefix_append _ _), List.drop_left, hread, Option.bind_eq_bind, Option.bind_some]
      dsimp only
      rw [hrest]
      rfl

theorem length_le_emit (sname : Bytes) (statements : List Statement)
    : statements.length ≤ (statements.flatMap (Statement.emit sname)).length := by
  induction statements with
  | nil => exact Nat.le_refl _
  | cons st statements ih =>
    have hpos : 0 < (st.emit sname).length := by
      cases st <;> simp [Statement.emit, streamTo]
    rw [List.flatMap_cons, List.length_append, List.length_cons]
    omega

theorem streamed_written (h : Written sname sout false t) : streamed sname sout = some t := by
  obtain ⟨statements, s, rfl, rfl, hs⟩ := h
  have hlength := length_le_emit sname statements
  have hopen : openLiteral sname false s = [] := rfl
  unfold streamed
  rw [hopen, List.append_nil, hs rfl, List.append_nil]
  exact readStatements_emit sname statements (Nat.lt_succ_of_le hlength)

/-
A text without a start tag.
-/

def startTags (tags : Tags) : List Bytes := [tags.startCode, tags.startExpr, tags.startComment]

structure PlainText (tags : Tags) (text : Bytes) : Prop where
  nul : 0 ∉ text
  tag : ∀ tag ∈ startTags tags, ¬tag <:+: text

theorem PlainText.part {tags : Tags} {text s : Bytes} (h : PlainText tags text) (hs : s <:+: text)
    : PlainText tags s where
  nul := fun hzero => h.nul (hs.subset hzero)
  tag := fun tag htag hpart => h.tag tag htag (hpart.trans hs)

/-
The recogniser that holds characters back.
-/

structure TokenRecogniser.Holds (tr : TokenRecogniser) (h : Held) : Prop where
  index : tr.index = h.pending.length
  token : h.pending ≠ [] → tr.currentToken = h.pending
  longest : tr.longestValid ≠ 0 ↔ h.valid = true
  fresh : h.pending = [] → h.valid = false

namespace TokenRecogniser

variable {tr : TokenRecogniser} {h h' : Held} {c : UInt8}

theorem Holds.kept (hholds : tr.Holds h) : (if tr.index = 0 then [] else tr.currentToken) = h.pending := by
  rw [hholds.index]
  by_cases hpending : h.pending = []
  . rw [hpending]
    rfl
  . rw [if_neg (mt List.eq_nil_of_length_eq_zero hpending)]
    exact hholds.token hpending

theorem Holds.processChar_hold (hholds : tr.Holds h) (hhold : h.hold tr.tokens c = some h')
    : ∃ state tr', tr.processChar c = (true, state, tr') ∧ state ≠ .invalid ∧ tr'.currentToken = h.pending ++ [c]
        ∧ tr'.tokens = tr.tokens ∧ tr'.Holds h' := by
  unfold Held.hold at hhold
  rw [← hholds.index] at hhold
  unfold processChar
  dsimp only
  rw [hholds.kept]
  by_cases hps : possibles tr.tokens tr.index c = []
  . rw [if_pos hps] at hhold
    contradiction
  . rw [if_neg hps] at hhold
    rw [if_pos (mt List.eq_nil_of_length_eq_zero hps)]
    have hne : h.pending ++ [c] ≠ [] := by simp
    by_cases hcomplete : isComplete (possibles tr.tokens tr.index c) tr.index = true
    . rw [if_pos hcomplete] at hhold
      rw [if_pos hcomplete]
      by_cases hone : (possibles tr.tokens tr.index c).length = 1
      . rw [if_pos hone, Option.some.injEq] at hhold
        rw [if_pos hone]
        subst hhold
        refine ⟨_, _, rfl, nofun, rfl, rfl, rfl, fun h => absurd rfl h, ?_, fun _ => rfl⟩
        simp
      . rw [if_neg hone, Option.some.injEq] at hhold
        rw [if_neg hone]
        subst hhold
        refine ⟨_, _, rfl, nofun, rfl, rfl, ?_, fun _ => rfl, ?_, fun h => absurd h hne⟩
        . simp [hholds.index]
        . simp
    . rw [if_neg hcomplete, Option.some.injEq] at hhold
      rw [if_neg hcomplete]
      subst hhold
      refine ⟨_, _, rfl, nofun, rfl, rfl, ?_, fun _ => rfl, hholds.longest, fun h => absurd h hne⟩
      simp [hholds.index]

theorem processChar_none (hps : possibles tr.tokens tr.index c = [])
    : tr.processChar c =
        if tr.index = 0 then
          (false, .reading, tr)
        else if tr.longestValid ≠ 0 then
          (false, .valid, { tr with index := 0, longestValid := 0 })
        else
          (false, .invalid, { tr with index := 0 }) := by
  unfold processChar
  rw [hps]
  rfl

theorem holds_reset (tr : TokenRecogniser) (written : Bytes)
    : { tr with index := 0, longestValid := 0 }.Holds { written, pending := [], valid := false } where
  index := rfl
  token := nofun
  longest := by simp
  fresh := fun _ => rfl

-- It gives back what it holds, or says that this has been a token
theorem Holds.processChar_flush (hholds : tr.Holds h) (hpending : h.pending ≠ [])
    (hps : possibles tr.tokens h.pending.length c = [])
    : ∃ tr', tr.processChar c = (false, if h.valid then .valid else .invalid, tr') ∧ tr'.currentToken = h.pending
        ∧ tr'.tokens = tr.tokens ∧ tr'.Holds h.flush := by
  have hindex : tr.index ≠ 0 := by
    rw [hholds.index]
    exact mt List.eq_nil_of_length_eq_zero hpending
  rw [← hholds.index] at hps
  rw [processChar_none hps, if_neg hindex]
  refine ⟨{ tr with index := 0, longestValid := 0 }, ?_, hholds.token hpending, rfl, holds_reset _ _⟩
  cases hvalid : h.valid with
  | true => rw [if_pos (hholds.longest.mpr hvalid), if_pos rfl]
  | false =>
    have hlongest : tr.longestValid = 0 := by
      by_contra hlongest
      rw [hholds.longest.mp hlongest] at hvalid
      contradiction
    rw [if_neg (not_not_intro hlongest), if_neg Bool.false_ne_true, ← hlongest]

end TokenRecogniser

theorem Processor.tryChar_eq {p : Processor} {c : UInt8} {sin : Bytes} (hstate : p.state = .normal)
    : p.tryChar c sin = p.normalChar c sin := by
  unfold tryChar
  rw [hstate]

/-
The processor in the state for text.
-/

structure Passing (tags : Tags) (sname : Bytes) (tokens : List Bytes) (p : Processor) (h : Held) : Prop where
  state : p.state = .normal
  tags : p.tags = tags
  name : p.sname = sname
  tokens : p.trNormal.tokens = tokens
  recogniser : p.trNormal.Holds h
  written : Written sname p.sout p.startedText h.written

namespace Passing

variable {tags : Tags} {tokens : List Bytes} {p : Processor} {h h' : Held} {c : UInt8} (sin : Bytes)

theorem not_tag (hplain : PlainText tags t) {tag : Bytes} (htag : tag ∈ startTags tags) : t ≠ tag := by
  rintro rfl
  exact hplain.tag t htag List.infix_rfl

theorem normalChar_reading {used : Bool} {tr : TokenRecogniser}
    (hchar : p.trNormal.processChar c = (used, .reading, tr))
    : p.normalChar c sin
        = (false, if used then { p with trNormal := tr } else { p with trNormal := tr }.outputText c, sin) := by
  unfold Processor.normalChar
  rw [hchar]

theorem normalChar_invalid {used : Bool} {tr : TokenRecogniser}
    (hchar : p.trNormal.processChar c = (used, .invalid, tr))
    : p.normalChar c sin = (!used, { p with trNormal := tr }.outputString tr.currentToken, sin) := by
  unfold Processor.normalChar
  rw [hchar]

-- What is taken for a tag is none of them, it is dropped
theorem normalChar_valid (hpassing : Passing tags sname tokens p h) {used : Bool} {tr : TokenRecogniser}
    (hchar : p.trNormal.processChar c = (used, .valid, tr)) (hplain : PlainText tags tr.currentToken)
    : p.normalChar c sin = (!used, { p with trNormal := tr }, sin) := by
  unfold Processor.normalChar
  rw [hchar]
  dsimp only
  rw [hpassing.tags, if_neg (not_tag hplain (by simp [startTags])), if_neg (not_tag hplain (by simp [startTags])),
    if_neg (not_tag hplain (by simp [startTags]))]

theorem tryChar_hold (hpassing : Passing tags sname tokens p h) (hplain : PlainText tags (h.pending ++ [c]))
    (hhold : h.hold tokens c = some h')
    : ∃ p', p.tryChar c sin = (false, p', sin) ∧ Passing tags sname tokens p' h' := by
  have hwritten := Held.written_hold hhold
  rw [← hpassing.tokens] at hhold
  obtain ⟨state, tr, hchar, hstate, htoken, htokens, hholds⟩ := hpassing.recogniser.processChar_hold hhold
  have hrest : Passing tags sname tokens { p with trNormal := tr } h' := by
    refine ⟨hpassing.state, hpassing.tags, hpassing.name, htokens.trans hpassing.tokens, hholds, ?_⟩
    rw [hwritten]
    exact hpassing.written
  refine ⟨_, ?_, hrest⟩
  rw [Processor.tryChar_eq hpassing.state]
  cases state with
  | reading => exact normalChar_reading sin hchar
  | valid => exact hpassing.normalChar_valid sin hchar (htoken ▸ hplain)
  | invalid => contradiction

-- The character begins no tag
theorem tryChar_write (hpassing : Passing tags sname tokens p h) (hpending : h.pending = [])
    (hps : possibles tokens 0 c = [])
    : ∃ p', p.tryChar c sin = (false, p', sin)
        ∧ Passing tags sname tokens p' { h with written := h.written ++ [c] } := by
  obtain ⟨hstate, rfl, rfl, rfl, hholds, hwritten⟩ := hpassing
  have hindex : p.trNormal.index = 0 := by
    rw [hholds.index, hpending]
    rfl
  have hchar : p.trNormal.processChar c = (false, .reading, p.trNormal) := by
    rw [processChar_none (hindex ▸ hps), if_pos hindex]
  obtain ⟨sout, started, houtput, hwritten⟩ := Processor.outputText_written hwritten c
  refine ⟨_, (Processor.tryChar_eq hstate).trans (normalChar_reading sin hchar), ?_⟩
  rw [if_neg Bool.false_ne_true]
  rw [houtput]
  exact ⟨hstate, rfl, rfl, rfl, ⟨hholds.index, hholds.token, hholds.longest, hholds.fresh⟩, hwritten⟩

-- The character does not go on with what is held back
theorem tryChar_flush (hpassing : Passing tags sname tokens p h) (hplain : PlainText tags h.pending)
    (hpending : h.pending ≠ []) (hps : possibles tokens h.pending.length c = [])
    : ∃ p', p.tryChar c sin = (true, p', sin) ∧ Passing tags sname tokens p' h.flush := by
  rw [← hpassing.tokens] at hps
  obtain ⟨tr, hchar, htoken, htokens, hholds⟩ := hpassing.recogniser.processChar_flush hpending hps
  obtain ⟨hstate, rfl, rfl, rfl, -, hwritten⟩ := id hpassing
  rw [Processor.tryChar_eq hstate]
  cases hvalid : h.valid with
  | true =>
    have hflush : h.flush.written = h.written := by
      unfold Held.flush
      rw [hvalid, if_pos rfl, List.append_nil]
    rw [hvalid, if_pos rfl] at hchar
    refine ⟨_, hpassing.normalChar_valid sin hchar (htoken ▸ hplain), hstate, rfl, rfl, htokens, hholds, ?_⟩
    rw [hflush]
    exact hwritten
  | false =>
    have hflush : h.flush.written = h.written ++ h.pending := by
      rw [Held.flush_of_not_valid hvalid]
    rw [hvalid, if_neg Bool.false_ne_true] at hchar
    obtain ⟨sout, started, houtput, hwritten⟩ :=
      Processor.outputString_written (p := { p with trNormal := tr }) hwritten hplain.nul
    refine ⟨_, normalChar_invalid sin hchar, ?_⟩
    rw [htoken, houtput]
    refine ⟨hstate, rfl, rfl, htokens, hholds, ?_⟩
    rw [hflush]
    exact hwritten

theorem tryChar_pass (hpassing : Passing tags sname tokens p h) (hplain : PlainText tags [c])
    (hpending : h.pending = [])
    : ∃ p', p.tryChar c sin = (false, p', sin) ∧ Passing tags sname tokens p' (h.pass tokens c) := by
  unfold Held.pass
  cases hhold : h.hold tokens c with
  | none =>
    have hps : possibles tokens h.pending.length c = [] := Held.hold_eq_none_iff.mp hhold
    rw [hpending] at hps
    exact hpassing.tryChar_write sin hpending hps
  | some h' =>
    have hheld : PlainText tags (h.pending ++ [c]) := by
      rw [hpending]
      exact hplain
    exact hpassing.tryChar_hold sin hheld hhold

-- A character that is tried again is used the second time
theorem processChar_step (hpassing : Passing tags sname tokens p h) (hplain : PlainText tags (h.pending ++ [c]))
    (fuel : Nat)
    : ∃ p', Processor.processChar (fuel + 2) p c sin = some (p', sin)
        ∧ Passing tags sname tokens p' (h.step tokens c) := by
  unfold Processor.processChar
  cases hhold : h.hold tokens c with
  | some h' =>
    obtain ⟨p', htry, hpassing'⟩ := hpassing.tryChar_hold sin hplain hhold
    rw [htry, Held.step_of_hold hhold]
    exact ⟨p', rfl, hpassing'⟩
  | none =>
    have hchar : PlainText tags [c] := hplain.part (List.suffix_append _ _).isInfix
    rw [Held.step_of_flush hhold]
    by_cases hpending : h.pending = []
    . obtain ⟨p', htry, hpassing'⟩ := hpassing.tryChar_pass sin hchar hpending
      rw [htry, Held.flush_of_not_valid (hpassing.recogniser.fresh hpending), hpending, List.append_nil]
      have hsame : h = { written := h.written, pending := [], valid := false } := by
        rw [← hpending, ← hpassing.recogniser.fresh hpending]
      rw [← hsame]
      exact ⟨p', rfl, hpassing'⟩
    . have hheld : PlainText tags h.pending := hplain.part (List.prefix_append _ _).isInfix
      obtain ⟨p', htry, hpassing'⟩ :=
        hpassing.tryChar_flush sin hheld hpending (Held.hold_eq_none_iff.mp hhold)
      obtain ⟨p'', hretry, hpassing''⟩ := hpassing'.tryChar_pass sin hchar rfl
      rw [htry]
      dsimp only
      rw [if_pos rfl, Processor.processChar, hretry]
      exact ⟨p'', rfl, hpassing''⟩

theorem processLoop_run {text : Bytes} {fuel : Nat} (hpassing : Passing tags sname tokens p h)
    (hplain : PlainText tags (h.pending ++ text)) (hfuel : text.length < fuel)
    : ∃ p', Processor.processLoop fuel p text = some p' ∧ Passing tags sname tokens p' (h.run tokens text) := by
  induction text generalizing fuel p h with
  | nil =>
    cases fuel with
    | zero => contradiction
    | succ fuel => exact ⟨p, rfl, hpassing⟩
  | cons c text ih =>
    cases fuel with
    | zero => contradiction
    | succ fuel =>
      have hrest : text.length < fuel := Nat.lt_of_succ_lt_succ hfuel
      obtain ⟨fuel, rfl⟩ := Nat.exists_eq_add_one_of_ne_zero (Nat.ne_of_gt (Nat.zero_lt_of_lt hrest))
      have hsplit : h.pending ++ c :: text = h.pending ++ [c] ++ text := by
        rw [List.append_assoc, List.singleton_append]
      rw [hsplit] at hplain
      have hhead : PlainText tags (h.pending ++ [c]) := hplain.part (List.prefix_append _ _).isInfix
      obtain ⟨p', hchar, hpassing'⟩ := hpassing.processChar_step text hhead fuel
      obtain ⟨used, hused⟩ : (h.step tokens c).pending <:+ h.pending ++ [c] := Held.pending_step h
      have hpending : (h.step tokens c).pending ++ text <:+: h.pending ++ [c] ++ text := by
        rw [← hused, List.append_assoc]
        exact (List.suffix_append _ _).isInfix
      obtain ⟨p'', hloop, hpassing''⟩ := ih hpassing' (hplain.part hpending) hrest
      have hnul : c ≠ 0 := by
        rintro rfl
        exact hhead.nul (by simp)
      rw [Processor.processLoop, if_neg hnul, hchar, Option.bind_eq_bind, Option.bind_some]
      exact ⟨p'', hloop, hpassing''⟩

theorem new_empty (tags : Tags) (sname : Bytes)
    : Passing tags sname (TokenRecogniser.ofTokens (startTags tags)).tokens (Processor.new tags sname) Held.empty where
  state := rfl
  tags := rfl
  name := rfl
  tokens := rfl
  recogniser := ⟨rfl, nofun, by simp [Processor.new, TokenRecogniser.ofTokens, Held.empty], fun _ => rfl⟩
  written := written_nil sname

end Passing

theorem streamed_process {tags : Tags} {text : Bytes} {fuel : Nat} (sname : Bytes) (hplain : PlainText tags text)
    (hfuel : text.length < fuel)
    : ∃ out, Processor.process fuel tags sname text = some out
        ∧ streamed sname out = some (Held.empty.run (startTags tags) text).written := by
  have htokens : (TokenRecogniser.ofTokens (startTags tags)).tokens = startTags tags := by
    refine List.filter_eq_self.mpr fun tag htag => decide_eq_true ?_
    rintro rfl
    exact hplain.tag [] htag List.nil_infix
  obtain ⟨p, hloop, hpassing⟩ := (Passing.new_empty tags sname).processLoop_run hplain hfuel
  rw [htokens] at hpassing
  unfold Processor.process
  rw [hloop, Option.bind_eq_bind, Option.bind_some]
  rw [if_pos hpassing.state]
  refine ⟨_, rfl, ?_⟩
  have hwritten := hpassing.written
  unfold Processor.openCode
  cases hstarted : p.startedText with
  | false =>
    rw [hstarted] at hwritten
    rw [if_neg Bool.false_ne_true]
    exact streamed_written hwritten
  | true =>
    rw [hstarted] at hwritten
    rw [if_pos rfl]
    exact streamed_written hwritten.close

/--
What is emitted for a text without a start tag puts just that text into the stream if no characters that are held back
reach the last one of a tag or the end of the text.
-/
theorem streamed_process_iff {tags : Tags} {text : Bytes} {fuel : Nat} (sname : Bytes) (hnul : 0 ∉ text)
    (htag : ∀ tag ∈ startTags tags, ¬tag <:+: text) (hfuel : text.length < fuel)
    : (∃ out, Processor.process fuel tags sname text = some out ∧ streamed sname out = some text)
        ↔ spared (startTags tags) 0 text = true := by
  obtain ⟨out, hout, hstreamed⟩ := streamed_process sname ⟨hnul, htag⟩ hfuel
  rw [← Held.written_run_iff]
  constructor
  . rintro ⟨out', hout', hstreamed'⟩
    rw [hout, Option.some.injEq] at hout'
    rw [← hout', hstreamed, Option.some.injEq] at hstreamed'
    exact hstreamed'
  . intro hwritten
    rw [hwritten] at hstreamed
    exact ⟨out, hout, hstreamed⟩

-- <? ?>, <?= =?> and <?# #?>
def queryTags : Tags where
  startCode := [60, 63]
  endCode := [63, 62]
  startExpr := [60, 63, 61]
  endExpr := [61, 63, 62]
  startComment := [60, 63, 35]
  endComment := [35, 63, 62]

-- "a<b\n" comes out as it is
theorem streamed_process_query
    : ∃ out, Processor.process 5 queryTags [111] [97, 60, 98, 10] = some out
        ∧ streamed [111] out = some [97, 60, 98, 10] :=
  (streamed_process_iff [111] (by decide) (by decide) (by decide)).mpr (by decide)

-- The last character of "a<" may begin a tag, it is still held back when the text has been closed
theorem not_streamed_process
    : ¬∀ (tags : Tags) (sname text : Bytes) (fuel : Nat),
        [tags.startCode, tags.endCode, tags.startExpr, tags.endExpr, tags.startComment, tags.endComment].Nodup →
        (∀ tag ∈ [tags.endCode, tags.endExpr, tags.endComment] ++ startTags tags, tag ≠ []) →
        0 ∉ text → (∀ tag ∈ startTags tags, ¬tag <:+: text) → text.length < fuel →
        ∃ out, Processor.process fuel tags sname text = some out ∧ streamed sname out = some text := by
  intro h
  obtain ⟨out, hout, hstreamed⟩ := h queryTags [111] [97, 60] 3 (by decide) (by decide) (by decide) (by decide)
    (by decide)
  have heval : Processor.process 3 queryTags [111] [97, 60] = some (streamTo [111] ++ [34, 97] ++ closeLiteral) := by
    decide
  rw [heval, Option.some.injEq] at hout
  subst hout
  exact absurd hstreamed (by decide)

end CPPT
end ObTools
