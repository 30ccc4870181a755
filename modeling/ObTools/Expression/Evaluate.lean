import Mathlib.Data.List.Chain
import ObTools.Expression.EvaluatorLemmas

/-!
This module contains the proof of what `evaluate` gives for a text, and for which texts it throws an exception.
-/

namespace ObTools
namespace Expression

open ObTools.Lex (Bytes isAlpha isDigit)
open Text (isSpace)
open Tokeniser (isNameChar Ends AtEnd)

-- Whatever whitespace is between the two, they do not run together
def Adjacent (t u : Token) : Prop :=
  (t.type = .name ∨ t.type = .number → u.type ≠ .name ∧ u.type ≠ .number)
    ∧ (t.type = .lt ∨ t.type = .gt ∨ t.type = .not → u.type ≠ .eq)

structure Neat (ts : List Token) : Prop where
  first : ∀ t ∈ ts.head?, t.type ∈ [Token.Type.number, .name, .minus, .not, .lpar]
  last : ∀ t ∈ ts.getLast?, t.type ∈ [Token.Type.number, .name, .rpar]
  chain : ts.IsChain Adjacent

namespace Neat

variable {t u : Token} {ts us : List Token}

theorem single (h : t.type ∈ [Token.Type.number, .name]) : Neat [t] := by
  simp only [List.mem_cons, List.not_mem_nil, or_false] at h
  constructor
  . intro u hu
    cases hu
    obtain h | h := h <;> simp [h]
  . intro u hu
    cases hu
    obtain h | h := h <;> simp [h]
  . exact List.isChain_singleton t

theorem ne_eq_of_first (h : Neat ts) (hu : u ∈ ts.head?) : u.type ≠ .eq := by
  intro heq
  have hfirst := h.first u hu
  rw [heq] at hfirst
  revert hfirst
  decide

theorem unary (ht : t.type = .minus ∨ t.type = .not) (h : Neat ts) (hne : ts ≠ []) : Neat (t :: ts) := by
  constructor
  . intro u hu
    cases hu
    obtain ht | ht := ht <;> simp [ht]
  . intro u hu
    rw [List.getLast?_cons_of_ne_nil hne] at hu
    exact h.last u hu
  . rw [List.isChain_cons]
    refine ⟨?_, h.chain⟩
    intro u hu
    refine ⟨?_, fun _ => h.ne_eq_of_first hu⟩
    intro hoperand
    obtain ht | ht := ht <;> simp [ht] at hoperand

theorem parentheses (ht : t.type = .lpar) (hu : u.type = .rpar) (h : Neat ts)
    : Neat (t :: (ts ++ [u])) := by
  constructor
  . intro v hv
    cases hv
    simp [ht]
  . intro v hv
    rw [List.getLast?_cons_of_ne_nil (by simp), List.getLast?_concat] at hv
    cases hv
    simp [hu]
  . rw [List.isChain_cons, List.isChain_append]
    refine ⟨?_, h.chain, List.isChain_singleton u, ?_⟩
    . intro v _
      simp [Adjacent, ht]
    . intro v _ w hw
      cases hw
      simp [Adjacent, hu]

theorem binary {op : BinOp} (ht : t.type = op.type) (hts : Neat ts) (hus : Neat us) (htsne : ts ≠ [])
    (husne : us ≠ [])
    : Neat (ts ++ t :: us) := by
  constructor
  . intro u hu
    rw [List.head?_append_of_ne_nil _ htsne] at hu
    exact hts.first u hu
  . intro u hu
    rw [List.getLast?_append_of_ne_nil _ (List.cons_ne_nil t us), List.getLast?_cons_of_ne_nil husne]
      at hu
    exact hus.last u hu
  . rw [List.isChain_append, List.isChain_cons]
    refine ⟨hts.chain, ⟨?_, hus.chain⟩, ?_⟩
    . intro u hu
      refine ⟨?_, fun _ => hus.ne_eq_of_first hu⟩
      intro hoperand
      rw [ht] at hoperand
      cases op <;> simp [BinOp.type] at hoperand
    . intro u hu v hv
      cases hv
      have hlast := hts.last u hu
      simp only [List.mem_cons, List.not_mem_nil, or_false] at hlast
      refine ⟨?_, ?_⟩
      . intro _
        rw [ht]
        cases op <;> simp [BinOp.type]
      . intro hoperator
        obtain h | h | h := hlast <;> simp [h] at hoperator

end Neat

theorem Sentence.neat {level : Level} {e : Expr} {ts : List Token} (h : Sentence level e ts)
    : Neat ts := by
  induction h with
  | number ht => exact Neat.single (by simp [ht])
  | var ht => exact Neat.single (by simp [ht])
  | neg ht h ih => exact Neat.unary (.inl ht) ih h.ne_nil
  | not ht h ih => exact Neat.unary (.inr ht) ih h.ne_nil
  | parentheses ht hu _ ih => exact Neat.parentheses ht hu ih
  | operand _ _ ih => exact ih
  | repeated ht _ _ hl hr ihl ihr => exact Neat.binary ht ihl ihr hl.ne_nil hr.ne_nil
  | compared ht _ hl hr ihl ihr => exact Neat.binary ht ihl ihr hl.ne_nil hr.ne_nil

section texts

variable {t u : Token} {ts : List Token} {text rest word : Bytes}

theorem Spells.type_ne_eot (h : Spells t word) : t.type ≠ .eot := by
  cases h with
  | @symbol type symbol hsymbol =>
    intro heot
    change type = .eot at heot
    rw [heot] at hsymbol
    cases hsymbol
  | _ => exact Token.Type.noConfusion

theorem Spells.zero_notMem (h : Spells t word) : 0 ∉ word := by
  have hclass : isAlpha 0 = false ∧ isDigit 0 = false ∧ isNameChar 0 = false := by decide
  intro hzero
  cases h with
  | name hc hcs =>
    cases hzero with
    | head => rw [hclass.1] at hc; cases hc
    | tail _ hzero =>
      have := hcs 0 hzero
      rw [hclass.2.2] at this
      cases this
  | whole _ hds =>
    have := hds 0 hzero
    rw [hclass.2.1] at this
    cases this
  | decimal _ hds hfs =>
    have hdigit : isDigit 0 = true := by
      rw [List.mem_append, List.mem_cons] at hzero
      obtain hzero | hzero | hzero := hzero
      . exact hds 0 hzero
      . cases hzero
      . exact hfs 0 hzero
    rw [hclass.2.1] at hdigit
    cases hdigit
  | @symbol type symbol hsymbol =>
    cases type with
    | unknown => cases hsymbol
    | eot => cases hsymbol
    | number => cases hsymbol
    | name => cases hsymbol
    | _ =>
      cases hsymbol
      revert hzero
      decide

theorem Renders.zero_notMem (h : Renders ts text) : 0 ∉ text := by
  have hspaces : ∀ {ws : Bytes}, (∀ c ∈ ws, isSpace c = true) → 0 ∉ ws := by
    intro ws hws hzero
    have := hws 0 hzero
    revert this
    decide
  induction h with
  | end_ hws => exact hspaces hws
  | token hws hspells _ ih =>
    rw [List.mem_append, List.mem_append, not_or, not_or]
    exact ⟨hspaces hws, hspells.zero_notMem, ih⟩

-- What a token can start with
set_option maxRecDepth 4000 in
theorem Spells.head (h : Spells t word) {c : UInt8} (hc : c ∈ word.head?)
    : (t.type ≠ .name → t.type ≠ .number → isNameChar c = false ∧ isDigit c = false)
        ∧ (t.type ≠ .eq → c ≠ 61) ∧ c ≠ 46 := by
  have hclass : ∀ c : UInt8, (isAlpha c = true ∨ isDigit c = true) → c ≠ 61 ∧ c ≠ 46 := by
    apply Digits.forall_byte
    decide
  cases h with
  | name hd hcs =>
    cases hc
    have := hclass _ (.inl hd)
    exact ⟨fun h => absurd rfl h, fun _ => this.1, this.2⟩
  | @whole ds hne hds =>
    have := hclass c (.inr (hds c (List.mem_of_mem_head? hc)))
    exact ⟨fun _ h => absurd rfl h, fun _ => this.1, this.2⟩
  | @decimal ds fs hne hds hfs =>
    rw [List.head?_append_of_ne_nil _ hne] at hc
    have := hclass c (.inr (hds c (List.mem_of_mem_head? hc)))
    exact ⟨fun _ h => absurd rfl h, fun _ => this.1, this.2⟩
  | @symbol type symbol hsymbol =>
    cases type with
    | unknown => cases hsymbol
    | eot => cases hsymbol
    | number => cases hsymbol
    | name => cases hsymbol
    | _ =>
      cases hsymbol
      cases hc
      decide

theorem ends_of_adjacent (hrenders : Renders ts text) (hend : AtEnd rest)
    (hadjacent : ∀ u ∈ ts.head?, Adjacent t u)
    : Ends t (text ++ rest) := by
  have hspace : ∀ {ws word' : Bytes} {c : UInt8}, (∀ d ∈ ws, isSpace d = true) →
      c ∈ (ws ++ word').head? → isSpace c = true ∨ ws = [] := by
    intro ws word' c hws hc
    cases ws with
    | nil => exact .inr rfl
    | cons d ws =>
      cases hc
      exact .inl (hws c List.mem_cons_self)
  have hblank : ∀ c : UInt8, isSpace c = true ∨ c = 0 →
      isNameChar c = false ∧ isDigit c = false ∧ c ≠ 46 ∧ c ≠ 61 := by
    intro c hc
    obtain hc | rfl := hc
    . obtain ⟨_, hdigit, hname, h46, h61, _⟩ := (classes_disjoint c).1 hc
      exact ⟨hname, hdigit, h46, h61⟩
    . decide
  have hends : ∀ c, isSpace c = true ∨ c = 0 →
      (t.type = .name → isNameChar c = false) ∧ (t.type = .number → isDigit c = false ∧ c ≠ 46)
        ∧ (t.type = .lt ∨ t.type = .gt ∨ t.type = .not → c ≠ 61) := by
    intro c hc
    obtain ⟨hname, hdigit, h46, h61⟩ := hblank c hc
    exact ⟨fun _ => hname, fun _ => ⟨hdigit, h46⟩, fun _ => h61⟩
  intro c hc
  cases hrenders with
  | end_ hws =>
    obtain hc' | rfl := hspace hws hc
    . exact hends c (.inl hc')
    . exact hends c (.inr (hend c hc))
  | @token u ts ws word text hws hspells _ =>
    rw [List.append_assoc] at hc
    obtain hc' | rfl := hspace hws hc
    . exact hends c (.inl hc')
    . rw [List.nil_append, List.append_assoc, List.head?_append_of_ne_nil _ hspells.ne_nil] at hc
      obtain ⟨hclass, h61, h46⟩ := hspells.head hc
      obtain ⟨hoperand, heq⟩ := hadjacent u rfl
      refine ⟨?_, ?_, fun h => h61 (heq h)⟩
      . intro h
        have := hoperand (.inl h)
        exact (hclass this.1 this.2).1
      . intro h
        have := hoperand (.inr h)
        exact ⟨(hclass this.1 this.2).2, h46⟩

end texts

namespace Evaluator

variable {getValueForName : Bytes → Except Exception ℚ} {e : Expr} {ts : List Token}
  {text rest : Bytes}

theorem steps_of_renders (hrenders : Renders ts text) (hchain : ts.IsChain Adjacent)
    (hend : AtEnd rest) {ev : Evaluator} (hrest : ev.tokeniser.rest = text ++ rest)
    : ∃ ev1 ev', next ev = some (.ok ((), ev1)) ∧ Steps ev1 ts ev' ∧ ev'.token.type = .eot := by
  induction hrenders generalizing ev with
  | @end_ ws hws =>
    refine ⟨{ tokeniser := { rest := rest.tail }, token := { type := .eot } }, _, ?_, .refl _, rfl⟩
    rw [next_ok_iff, ← Tokeniser.readToken_end hws hend, ← hrest]
  | @token t ts ws word text hws hspells hrenders ih =>
    rw [List.isChain_cons] at hchain
    have hends := ends_of_adjacent hrenders hend hchain.1
    have hread := Tokeniser.readToken_spells hws hspells hends
    obtain ⟨ev2, ev', hnext, hsteps, heot⟩ :=
      @ih hchain.2 { tokeniser := { rest := text ++ rest }, token := t } rfl
    refine ⟨{ tokeniser := { rest := text ++ rest }, token := t }, ev', ?_, ?_, heot⟩
    . rw [next_ok_iff, ← hread, ← List.append_assoc word, ← List.append_assoc ws, ← hrest]
    . exact .step hspells.type_ne_eot hnext hsteps

theorem renders_of_steps {ev ev1 ev' : Evaluator} (hnext : next ev = some (.ok ((), ev1)))
    (hsteps : Steps ev1 ts ev') (heot : ev'.token.type = .eot)
    : ∃ text rest, ev.tokeniser.rest = text ++ rest ∧ Renders ts text ∧ AtEnd rest := by
  induction hsteps generalizing ev with
  | refl ev1 =>
    rw [next_ok_iff] at hnext
    obtain ⟨ws, word, hws, htext, hword⟩ := Tokeniser.readToken_sound hnext
    obtain hspells | ⟨_, hend⟩ := hword
    . exact absurd heot hspells.type_ne_eot
    . refine ⟨ws, word ++ ev1.tokeniser.rest, htext, .end_ hws, ?_⟩
      obtain rfl | ⟨rfl, hrest⟩ := hend
      . intro c hc
        cases hc
        rfl
      . rw [hrest]
        intro c hc
        cases hc
  | step hne hnext1 _ ih =>
    rw [next_ok_iff] at hnext
    obtain ⟨ws, word, hws, htext, hword⟩ := Tokeniser.readToken_sound hnext
    obtain hspells | ⟨heot', _⟩ := hword
    . obtain ⟨text, rest, hrest, hrenders, hend⟩ := ih hnext1 heot
      refine ⟨ws ++ (word ++ text), rest, ?_, .token hws hspells hrenders, hend⟩
      rw [htext, hrest]
      simp
    . exact absurd heot' hne

theorem evaluate_sentence (hsentence : Sentence .expression e ts) (hrenders : Renders ts text)
    (hend : AtEnd rest)
    : evaluate getValueForName (text ++ rest) = some (e.run getValueForName) := by
  obtain ⟨ev1, ev', hnext, hsteps, heot⟩ := @steps_of_renders _ _ rest hrenders hsentence.neat.chain
    hend { tokeniser := { rest := text ++ rest }, token := { type := .unknown } } rfl
  have hlength : ts.length ≤ (text ++ rest).length + 1 := by
    have hle := next_remaining_le hnext
    have hconsumed := hsteps.remaining_le
    dsimp only at hle
    omega
  have hstops : Stops .expression ev'.token.type := by
    intro op hop
    rw [heot] at hop
    cases op <;> cases hop
  have hvalue := parses_readExpression getValueForName (parses_readFactor getValueForName _) e ts ev1
    ev' hlength hsentence hsteps hstops
  unfold evaluate
  dsimp only
  rw [Decoder.bind_eq _ hnext]
  cases hrun : e.run getValueForName with
  | error x =>
    rw [hrun] at hvalue
    rw [Decoder.bind_error _ hvalue]
    rfl
  | ok v =>
    rw [hrun] at hvalue
    rw [Decoder.bind_eq _ hvalue, Decoder.get_bind, if_neg (not_not.mpr heot)]
    rfl

theorem sentence_of_evaluate {v : ℚ} (h : evaluate getValueForName text = some (.ok v))
    : ∃ e ts text1 rest, Sentence .expression e ts ∧ Renders ts text1 ∧ text = text1 ++ rest
        ∧ AtEnd rest := by
  unfold evaluate at h
  dsimp only at h
  split at h
  . cases h
  . next result hread =>
    obtain ⟨w, ev', rfl⟩ : ∃ w ev', result = .ok (w, ev') := by
      cases result with
      | error x => cases h
      | ok r => exact ⟨r.1, r.2, rfl⟩
    obtain ⟨_, ev1, hnext, hrest⟩ := Decoder.bind_ok hread
    obtain ⟨u, ev2, hexpression, hlast⟩ := Decoder.bind_ok hrest
    rw [Decoder.get_bind] at hlast
    split at hlast
    . cases hlast
    . next heot =>
      rw [not_not] at heot
      obtain ⟨e, ts, hsentence, hsteps⟩ := accepts_readExpression
        (accepts_readFactor getValueForName _) ev1 u ev2 hexpression
      obtain ⟨text1, rest, htext, hrenders, hend⟩ := renders_of_steps hnext hsteps heot
      exact ⟨e, ts, text1, rest, hsentence, hrenders, htext, hend⟩

theorem evaluate_ne_none (getValueForName : Bytes → Except Exception ℚ) (text : Bytes)
    : evaluate getValueForName text ≠ none := by
  unfold evaluate
  dsimp only
  split
  . next hread =>
    apply absurd hread
    apply Decoder.bind_ne_none (next_ne_none _)
    intro _ ev1 hnext
    have hle := next_remaining_le hnext
    have hfinishes := finishes_readExpression (accepts_readFactor getValueForName _)
      (finishes_readFactor getValueForName text.length)
    apply Decoder.bind_ne_none (hfinishes ev1 hle)
    intro v ev2 _
    rw [Decoder.get_bind]
    split
    . unfold raise Decoder.raise
      simp
    . simp [Decoder.pure_eq]
  . simp

theorem takeWhile_nonzero (htext : 0 ∉ text) (hend : AtEnd rest)
    : (text ++ rest).takeWhile (· ≠ 0) = text := by
  refine (Delimiter.takeWhile_stop rest ?_ ?_).1
  . intro c hc
    apply decide_eq_true
    intro hzero
    rw [hzero] at hc
    exact htext hc
  . intro c hc
    rw [hend c hc]
    rfl

theorem atEnd_dropWhile (text : Bytes) : AtEnd (text.dropWhile (· ≠ 0)) := by
  intro c hc
  have := List.head?_dropWhile_not (fun c : UInt8 => decide (c ≠ 0)) text
  rw [Option.mem_def] at hc
  rw [hc] at this
  simpa using this

end Evaluator

-- A sentence gives its value, and anything else an exception
structure Follows (getValueForName : Bytes → Except Exception ℚ) (text : Bytes) : Prop where
  value : ∀ e ts v, Sentence .expression e ts → Renders ts text →
    e.value (fun name => (getValueForName name).toOption) = some v →
    Evaluator.evaluate getValueForName text = some (.ok v)
  throws : ¬ IsSentence text → ∃ x, Evaluator.evaluate getValueForName text = some (.error x)

-- It is a sentence, with all of its variables defined
def Evaluable (getValueForName : Bytes → Except Exception ℚ) (text : Bytes) : Prop :=
  ∃ e ts, Sentence .expression e ts ∧ Renders ts text
    ∧ e.Defined fun name => (getValueForName name).toOption

section evaluate

variable (getValueForName : Bytes → Except Exception ℚ)

theorem run_ok_iff_defined (e : Expr)
    : (∃ v, e.run getValueForName = .ok v)
        ↔ e.Defined fun name => (getValueForName name).toOption := by
  apply Expr.run_ok_iff
  intro name
  cases getValueForName name <;> simp [Except.toOption]

theorem evaluable_iff (text : Bytes)
    : Evaluable getValueForName (text.takeWhile (· ≠ 0))
        ↔ ∃ v, Evaluator.evaluate getValueForName text = some (.ok v) := by
  constructor
  . rintro ⟨e, ts, hsentence, hrenders, hdefined⟩
    obtain ⟨v, hv⟩ := (run_ok_iff_defined getValueForName e).mpr hdefined
    have hevaluate := @Evaluator.evaluate_sentence getValueForName e ts _ _ hsentence hrenders
      (Evaluator.atEnd_dropWhile text)
    rw [List.takeWhile_append_dropWhile, hv] at hevaluate
    exact ⟨v, hevaluate⟩
  . rintro ⟨v, hv⟩
    obtain ⟨e, ts, text1, rest, hsentence, hrenders, rfl, hend⟩ := Evaluator.sentence_of_evaluate hv
    rw [Evaluator.takeWhile_nonzero hrenders.zero_notMem hend]
    refine ⟨e, ts, hsentence, hrenders, ?_⟩
    rw [Evaluator.evaluate_sentence hsentence hrenders hend] at hv
    exact (run_ok_iff_defined getValueForName e).mp ⟨v, Option.some.inj hv⟩

theorem value_of_sentence {text : Bytes} {e : Expr} {ts : List Token} {v : ℚ}
    (hsentence : Sentence .expression e ts) (hrenders : Renders ts text)
    (hvalue : e.value (fun name => (getValueForName name).toOption) = some v)
    : Evaluator.evaluate getValueForName text = some (.ok v) := by
  have hrun : e.run getValueForName = .ok v := by
    refine Expr.run_of_value ?_ hvalue
    intro name u hu
    cases hlookup : getValueForName name with
    | error x =>
      rw [hlookup] at hu
      cases hu
    | ok w =>
      rw [hlookup] at hu
      cases hu
      rfl
  have hend : AtEnd [] := by
    intro c hc
    cases hc
  have := @Evaluator.evaluate_sentence getValueForName e ts text [] hsentence hrenders hend
  rw [List.append_nil, hrun] at this
  exact this

theorem throws_of_not_ok {text : Bytes}
    (h : ¬ ∃ v, Evaluator.evaluate getValueForName text = some (.ok v))
    : ∃ x, Evaluator.evaluate getValueForName text = some (.error x) := by
  cases hresult : Evaluator.evaluate getValueForName text with
  | none => exact absurd hresult (Evaluator.evaluate_ne_none getValueForName text)
  | some result =>
    cases result with
    | error x => exact ⟨x, rfl⟩
    | ok v => exact absurd ⟨v, hresult⟩ h

/-
What comes behind a zero byte is not looked at.
-/
theorem follows_iff (text : Bytes)
    : Follows getValueForName text
        ↔ (0 ∈ text → ¬ Evaluable getValueForName (text.takeWhile (· ≠ 0))) := by
  rw [evaluable_iff]
  constructor
  . rintro hfollows hzero ⟨v, hv⟩
    have hno : ¬ IsSentence text := by
      rintro ⟨e, ts, _, hrenders⟩
      exact hrenders.zero_notMem hzero
    obtain ⟨x, hx⟩ := hfollows.throws hno
    rw [hv] at hx
    cases hx
  . intro h
    refine ⟨fun e ts v => value_of_sentence getValueForName, ?_⟩
    intro hno
    apply throws_of_not_ok
    by_cases hzero : 0 ∈ text
    . exact h hzero
    . rintro ⟨v, hv⟩
      obtain ⟨e, ts, text1, rest, hsentence, hrenders, rfl, hend⟩ :=
        Evaluator.sentence_of_evaluate hv
      have hnil : rest = [] := by
        cases rest with
        | nil => rfl
        | cons c rest =>
          have hc : c = 0 := hend c rfl
          rw [hc] at hzero
          exact absurd (List.mem_append_right text1 List.mem_cons_self) hzero
      rw [hnil, List.append_nil] at hno
      exact hno ⟨e, ts, hsentence, hrenders⟩

-- `1`, a zero byte and `)`
theorem not_follows : ¬ Follows Evaluator.getValueForName [49, 0, 41] := by
  intro hfollows
  have hno : ¬ IsSentence [49, 0, 41] := by
    rintro ⟨e, ts, _, hrenders⟩
    exact hrenders.zero_notMem (by decide)
  obtain ⟨x, hx⟩ := hfollows.throws hno
  have hdigit : ∀ d ∈ [49], isDigit d = true := by
    intro d hd
    rw [List.mem_singleton.mp hd]
    rfl
  have hspells : Spells { type := .number, value := Digits.ofBytes 10 [49] } [49] :=
    .whole (by decide) hdigit
  have hsentence : ∀ t : Token, t.type = .number → Sentence .expression (.number t.value) [t] := by
    intro t ht
    exact .operand (by decide) (.operand (by decide) (.operand (by decide) (.operand (by decide)
      (.number ht))))
  have hrenders : Renders [{ type := .number, value := Digits.ofBytes 10 [49] }] [49] :=
    @Renders.token _ _ [] [49] [] (by simp) hspells (.end_ (by simp))
  have hevaluate := @Evaluator.evaluate_sentence Evaluator.getValueForName _ _ [49] [0, 41]
    (hsentence _ rfl) hrenders (by intro c hc; cases hc; rfl)
  change Evaluator.evaluate Evaluator.getValueForName [49, 0, 41] = _ at hevaluate
  rw [hx] at hevaluate
  cases hevaluate

end evaluate

end Expression
end ObTools
