import ObTools.Expression.Evaluator

/-!
This module contains the proof that the functions of the evaluator read the sentences of their levels, and
nothing else.
-/

namespace ObTools
namespace Expression

open ObTools.Lex (Bytes)

theorem Sentence.ne_nil {level : Level} {e : Expr} {ts : List Token} (h : Sentence level e ts)
    : ts ≠ [] := by
  induction h with
  | operand _ _ ih => exact ih
  | _ => simp

namespace Evaluator

-- No operator of the level, or of one below it, is next
def Stops (level : Level) (type : Token.Type) : Prop :=
  ∀ op : BinOp, op.type = type → level.rank < op.level.rank

theorem Stops.mono {level level' : Level} {type : Token.Type} (hle : level'.rank ≤ level.rank)
    (h : Stops level type)
    : Stops level' type := by
  intro op hop
  exact lt_of_le_of_lt hle (h op hop)

theorem type_injective {op op' : BinOp} (h : op.type = op'.type) : op = op' := by
  cases op <;> cases op' <;> first | rfl | cases h

theorem below_rank_lt {level : Level} (h : level ≠ .factor) : level.below.rank < level.rank := by
  cases level with
  | factor => exact absurd rfl h
  | _ => decide

variable (getValueForName : Bytes → Except Exception ℚ)

-- What stands for a sentence of the level is read to its end, and valued
def Parses (level : Level) (n : Nat) (read : Read ℚ) : Prop :=
  ∀ e ts ev ev', ts.length ≤ n → Sentence level e ts → Steps ev ts ev' →
    Stops level ev'.token.type → read ev = some ((e.run getValueForName).map fun v => (v, ev'))

-- Nothing else is read
def Accepts (level : Level) (read : Read ℚ) : Prop :=
  ∀ ev v ev', read ev = some (.ok (v, ev')) → ∃ e ts, Sentence level e ts ∧ Steps ev ts ev'

-- There is fuel enough for so many tokens
def Finishes (n : Nat) (read : Read ℚ) : Prop := ∀ ev, ev.remaining ≤ n → read ev ≠ none

section chain

variable {operator : Token.Type → Option (ℚ → ℚ → ℚ)} {read : Read ℚ} {level : Level} {n : Nat}
  {ev ev' : Evaluator}

theorem readOperators_stop {fuel : Nat} {v : ℚ} (h : operator ev.token.type = none)
    : readOperators operator read (fuel + 1) v ev = some (.ok (v, ev)) := by
  unfold readOperators
  rw [Decoder.get_bind, h]
  rfl

theorem readOperators_more {fuel : Nat} {v : ℚ} {op : ℚ → ℚ → ℚ}
    (h : operator ev.token.type = some op)
    : readOperators operator read (fuel + 1) v ev
        = (do
            next
            let w ← read
            readOperators operator read fuel (op v w) : Read ℚ) ev := by
  rw [readOperators, Decoder.get_bind, h]

theorem operator_eq_none (hops : OperatorsOf level operator) {type : Token.Type}
    (h : Stops level type)
    : operator type = none := by
  cases hop : operator type with
  | none => rfl
  | some f =>
    obtain ⟨op, hlevel, htype⟩ := hops.level type f hop
    have hlt := h op htype
    rw [hlevel] at hlt
    exact absurd hlt (lt_irrefl _)

theorem stops_below {op : BinOp} {type : Token.Type} (htype : type = op.type)
    (hlevel : op.level = level) (hfactor : level ≠ .factor)
    : Stops level.below type := by
  intro op' hop'
  rw [type_injective (hop'.trans htype), hlevel]
  exact below_rank_lt hfactor

theorem run_binary_ok {op : BinOp} {l r : Expr} {v w : ℚ} (hl : l.run getValueForName = .ok v)
    (hr : r.run getValueForName = .ok w)
    : (Expr.binary op l r).run getValueForName = .ok (op.run v w) := by
  unfold Expr.run
  rw [hl, hr]
  rfl

theorem run_binary_left {op : BinOp} {l r : Expr} {x : Exception}
    (hl : l.run getValueForName = .error x)
    : (Expr.binary op l r).run getValueForName = .error x := by
  unfold Expr.run
  rw [hl]
  rfl

theorem run_binary_right {op : BinOp} {l r : Expr} {v : ℚ} {x : Exception}
    (hl : l.run getValueForName = .ok v) (hr : r.run getValueForName = .error x)
    : (Expr.binary op l r).run getValueForName = .error x := by
  unfold Expr.run
  rw [hl, hr]
  rfl

/-
The loop goes on behind each of the operands, with the value of all before it.
-/
theorem readChain_eq (hread : Parses getValueForName level.below n read)
    (hops : OperatorsOf level operator) (hpred : level ≠ .predicate) (hfactor : level ≠ .factor)
    {e : Expr} {ts : List Token} (hsentence : Sentence level e ts) (hn : ts.length ≤ n)
    (hsteps : Steps ev ts ev') (hstops : Stops level.below ev'.token.type)
    : ∃ fuel, ev'.remaining < fuel
        ∧ readChain operator read ev
            = match e.run getValueForName with
              | .error x => some (.error x)
              | .ok v => readOperators operator read fuel v ev' := by
  induction hsentence generalizing ev' with
  | number _ => exact absurd rfl hfactor
  | var _ => exact absurd rfl hfactor
  | neg _ _ _ => exact absurd rfl hfactor
  | not _ _ _ => exact absurd rfl hfactor
  | parentheses _ _ _ _ => exact absurd rfl hfactor
  | compared _ _ _ _ _ _ => exact absurd rfl hpred
  | @operand level e ts _ hoperand _ =>
    have hvalue := hread e ts ev ev' hn hoperand hsteps hstops
    refine ⟨ev'.tokeniser.rest.length + 2, ?_, ?_⟩
    . unfold remaining
      split <;> omega
    . unfold readChain
      cases hrun : e.run getValueForName with
      | error x =>
        rw [hrun] at hvalue
        exact Decoder.bind_error _ hvalue
      | ok v =>
        rw [hrun] at hvalue
        rw [Decoder.bind_eq _ hvalue, Decoder.get_bind]
  | @repeated level op t l r ts us htype hlevel _ hl hr ihl _ =>
    rw [List.length_append, List.length_cons] at hn
    obtain ⟨ev1, hts, hrest⟩ := hsteps.append
    obtain ⟨htoken, hne, ev2, hnext, hus⟩ := hrest.cons
    have hstops1 : Stops level.below ev1.token.type :=
      stops_below (htoken ▸ htype) hlevel hfactor
    obtain ⟨fuel, hfuel, hchain⟩ := ihl hread hops hpred hfactor (by omega) hts hstops1
    obtain ⟨fuel, rfl⟩ : ∃ k, fuel = k + 1 := ⟨fuel - 1, by omega⟩
    have hlt := next_remaining_lt (htoken ▸ hne) hnext
    have hle := hus.remaining_le
    refine ⟨fuel, by omega, ?_⟩
    rw [hchain]
    have hoperator : operator ev1.token.type = some op.run := by
      rw [htoken, htype]
      exact hops.run op hlevel
    have hvalue := hread r us ev2 ev' (by omega) hr hus hstops
    cases hrun1 : l.run getValueForName with
    | error x => rw [run_binary_left _ hrun1]
    | ok v =>
      dsimp only
      rw [readOperators_more hoperator, Decoder.bind_eq _ hnext]
      cases hrun2 : r.run getValueForName with
      | error x =>
        rw [hrun2] at hvalue
        rw [run_binary_right _ hrun1 hrun2]
        exact Decoder.bind_error _ hvalue
      | ok w =>
        rw [hrun2] at hvalue
        rw [run_binary_ok _ hrun1 hrun2, Decoder.bind_eq _ hvalue]

theorem parses_readChain (hread : Parses getValueForName level.below n read)
    (hops : OperatorsOf level operator) (hpred : level ≠ .predicate) (hfactor : level ≠ .factor)
    : Parses getValueForName level n (readChain operator read) := by
  intro e ts ev ev' hn hsentence hsteps hstops
  obtain ⟨fuel, hfuel, hchain⟩ := readChain_eq getValueForName hread hops hpred hfactor hsentence hn
    hsteps (hstops.mono (below_rank_lt hfactor).le)
  obtain ⟨fuel, rfl⟩ : ∃ k, fuel = k + 1 := ⟨fuel - 1, by omega⟩
  rw [hchain]
  cases e.run getValueForName with
  | error x => rfl
  | ok v => exact readOperators_stop (operator_eq_none hops hstops)

theorem accepts_readOperators (hread : Accepts level.below read) (hops : OperatorsOf level operator)
    (hpred : level ≠ .predicate) {fuel : Nat} {v w : ℚ} {e : Expr} {ts : List Token}
    {ev0 : Evaluator} (hsentence : Sentence level e ts) (hsteps : Steps ev0 ts ev)
    (h : readOperators operator read fuel v ev = some (.ok (w, ev')))
    : ∃ e ts, Sentence level e ts ∧ Steps ev0 ts ev' := by
  induction fuel generalizing v e ts ev with
  | zero => cases h
  | succ fuel ih =>
    cases hoperator : operator ev.token.type with
    | none =>
      rw [readOperators_stop hoperator] at h
      cases h
      exact ⟨e, ts, hsentence, hsteps⟩
    | some f =>
      rw [readOperators_more hoperator] at h
      obtain ⟨_, ev1, hnext, hrest⟩ := Decoder.bind_ok h
      obtain ⟨u, ev2, hoperand, hloop⟩ := Decoder.bind_ok hrest
      obtain ⟨r, us, hr, hus⟩ := hread ev1 u ev2 hoperand
      obtain ⟨op, hlevel, htype⟩ := hops.level _ f hoperator
      have hne : ev.token.type ≠ .eot := by
        rw [← htype]
        cases op <;> decide
      apply ih (.repeated htype.symm hlevel hpred hsentence hr) (hsteps.trans (.step hne hnext hus)) hloop

theorem accepts_readChain (hread : Accepts level.below read) (hops : OperatorsOf level operator)
    (hpred : level ≠ .predicate) (hfactor : level ≠ .factor)
    : Accepts level (readChain operator read) := by
  intro ev v ev' h
  obtain ⟨u, ev1, hoperand, hloop⟩ := Decoder.bind_ok h
  obtain ⟨e, ts, hsentence, hsteps⟩ := hread ev u ev1 hoperand
  rw [Decoder.get_bind] at hloop
  exact accepts_readOperators hread hops hpred (.operand hfactor hsentence) hsteps hloop

theorem Accepts.remaining_lt {level : Level} (hread : Accepts level read) {v : ℚ}
    (h : read ev = some (.ok (v, ev')))
    : ev'.remaining < ev.remaining := by
  obtain ⟨e, ts, hsentence, hsteps⟩ := hread ev v ev' h
  have hpos : 0 < ts.length := List.length_pos_iff.mpr hsentence.ne_nil
  have hle := hsteps.remaining_le
  omega

theorem finishes_readOperators (hread : Accepts level.below read) (hops : OperatorsOf level operator)
    (hfinishes : Finishes n read) {fuel : Nat} (v : ℚ) (hn : ev.remaining ≤ n)
    (hfuel : ev.remaining < fuel)
    : readOperators operator read fuel v ev ≠ none := by
  induction fuel generalizing v ev with
  | zero => omega
  | succ fuel ih =>
    cases hoperator : operator ev.token.type with
    | none =>
      rw [readOperators_stop hoperator]
      simp
    | some f =>
      rw [readOperators_more hoperator]
      obtain ⟨op, -, htype⟩ := hops.level _ f hoperator
      have hne : ev.token.type ≠ .eot := by
        rw [← htype]
        cases op <;> decide
      apply Decoder.bind_ne_none (next_ne_none ev)
      intro _ ev1 hnext
      have hlt1 := next_remaining_lt hne hnext
      apply Decoder.bind_ne_none (hfinishes ev1 (by omega))
      intro w ev2 hoperand
      have hlt2 := hread.remaining_lt hoperand
      apply ih <;> omega

theorem finishes_readChain (hread : Accepts level.below read) (hops : OperatorsOf level operator)
    (hfinishes : Finishes n read)
    : Finishes n (readChain operator read) := by
  intro ev hn
  apply Decoder.bind_ne_none (hfinishes ev hn)
  intro v ev1 hoperand
  have hlt := hread.remaining_lt hoperand
  rw [Decoder.get_bind]
  apply finishes_readOperators hread hops hfinishes v (by omega)
  unfold remaining
  split <;> omega

end chain

section levels

variable {factor : Read ℚ} {n : Nat} {ev ev' : Evaluator}

theorem readPredicate_stop {v : ℚ} (hread : readSide factor ev = some (.ok (v, ev')))
    (h : comparison ev'.token.type = none)
    : readPredicate factor ev = some (.ok (v, ev')) := by
  unfold readPredicate
  rw [Decoder.bind_eq _ hread, Decoder.get_bind, h]
  rfl

theorem readPredicate_more {v : ℚ} {op : ℚ → ℚ → ℚ} (hread : readSide factor ev = some (.ok (v, ev')))
    (h : comparison ev'.token.type = some op)
    : readPredicate factor ev
        = (do
            next
            let w ← readSide factor
            return op v w : Read ℚ) ev' := by
  unfold readPredicate
  rw [Decoder.bind_eq _ hread, Decoder.get_bind, h]

theorem parses_readPredicate (hread : Parses getValueForName .side n (readSide factor))
    : Parses getValueForName .predicate n (readPredicate factor) := by
  intro e ts ev ev' hn hsentence hsteps hstops
  cases hsentence with
  | operand _ hoperand =>
    have hvalue := hread e ts ev ev' hn hoperand hsteps (hstops.mono (by decide))
    cases hrun : e.run getValueForName with
    | error x =>
      rw [hrun] at hvalue
      exact Decoder.bind_error _ hvalue
    | ok v =>
      rw [hrun] at hvalue
      exact readPredicate_stop hvalue (operator_eq_none comparison_operatorsOf hstops)
  | @compared op t l r ts us htype hlevel hl hr =>
    rw [List.length_append, List.length_cons] at hn
    obtain ⟨ev1, hts, hrest⟩ := hsteps.append
    obtain ⟨htoken, _, ev2, hnext, hus⟩ := hrest.cons
    have hstops1 : Stops .side ev1.token.type :=
      stops_below (htoken ▸ htype) hlevel (by decide)
    have hoperator : comparison ev1.token.type = some op.run := by
      rw [htoken, htype]
      exact comparison_operatorsOf.run op hlevel
    have hvalue1 := hread l ts ev ev1 (by omega) hl hts hstops1
    have hvalue2 := hread r us ev2 ev' (by omega) hr hus (hstops.mono (by decide))
    cases hrun1 : l.run getValueForName with
    | error x =>
      rw [hrun1] at hvalue1
      rw [run_binary_left _ hrun1]
      exact Decoder.bind_error _ hvalue1
    | ok v =>
      rw [hrun1] at hvalue1
      rw [readPredicate_more hvalue1 hoperator, Decoder.bind_eq _ hnext]
      cases hrun2 : r.run getValueForName with
      | error x =>
        rw [hrun2] at hvalue2
        rw [run_binary_right _ hrun1 hrun2]
        exact Decoder.bind_error _ hvalue2
      | ok w =>
        rw [hrun2] at hvalue2
        rw [run_binary_ok _ hrun1 hrun2, Decoder.bind_eq _ hvalue2]
        rfl
  | repeated _ _ hpred _ _ => exact absurd rfl hpred

theorem accepts_readPredicate (hread : Accepts .side (readSide factor))
    : Accepts .predicate (readPredicate factor) := by
  intro ev v ev' h
  obtain ⟨u, ev1, hside, hrest⟩ := Decoder.bind_ok h
  obtain ⟨l, ts, hl, hts⟩ := hread ev u ev1 hside
  cases hoperator : comparison ev1.token.type with
  | none =>
    rw [readPredicate_stop hside hoperator] at h
    cases h
    exact ⟨l, ts, .operand (by decide) hl, hts⟩
  | some f =>
    rw [readPredicate_more hside hoperator] at h
    obtain ⟨_, ev2, hnext, hrest2⟩ := Decoder.bind_ok h
    obtain ⟨w, ev3, hoperand, hreturn⟩ := Decoder.bind_ok hrest2
    cases hreturn
    obtain ⟨r, us, hr, hus⟩ := hread ev2 w ev' hoperand
    obtain ⟨op, hlevel, htype⟩ := comparison_operatorsOf.level _ f hoperator
    have hne : ev1.token.type ≠ .eot := by
      rw [← htype]
      cases op <;> decide
    exact ⟨.binary op l r, ts ++ ev1.token :: us, .compared htype.symm hlevel hl hr,
      hts.trans (.step hne hnext hus)⟩

theorem finishes_readPredicate (hread : Accepts .side (readSide factor))
    (hfinishes : Finishes n (readSide factor))
    : Finishes n (readPredicate factor) := by
  intro ev hn
  apply Decoder.bind_ne_none (hfinishes ev hn)
  intro v ev1 hside
  have hlt1 := hread.remaining_lt hside
  rw [Decoder.get_bind]
  cases hoperator : comparison ev1.token.type with
  | none => simp [Decoder.pure_eq]
  | some f =>
    apply Decoder.bind_ne_none (next_ne_none ev1)
    intro _ ev2 hnext
    obtain ⟨op, -, htype⟩ := comparison_operatorsOf.level _ f hoperator
    have hne : ev1.token.type ≠ .eot := by
      rw [← htype]
      cases op <;> decide
    have hlt2 := next_remaining_lt hne hnext
    apply Decoder.bind_ne_none (hfinishes ev2 (by omega))
    intro w ev3 _
    simp [Decoder.pure_eq]

theorem parses_readExpression (hfactor : Parses getValueForName .factor n factor)
    : Parses getValueForName .expression n (readExpression factor) := by
  have hterm : Parses getValueForName .term n (readTerm factor) :=
    parses_readChain getValueForName hfactor termOperator_operatorsOf (by decide) (by decide)
  have hside : Parses getValueForName .side n (readSide factor) :=
    parses_readChain getValueForName hterm sideOperator_operatorsOf (by decide) (by decide)
  have hpredicate := parses_readPredicate getValueForName hside
  exact parses_readChain getValueForName hpredicate expressionOperator_operatorsOf (by decide)
    (by decide)

theorem accepts_readSide (hfactor : Accepts .factor factor) : Accepts .side (readSide factor) := by
  have hterm : Accepts .term (readTerm factor) :=
    accepts_readChain hfactor termOperator_operatorsOf (by decide) (by decide)
  exact accepts_readChain hterm sideOperator_operatorsOf (by decide) (by decide)

theorem accepts_readExpression (hfactor : Accepts .factor factor)
    : Accepts .expression (readExpression factor) :=
  accepts_readChain (accepts_readPredicate (accepts_readSide hfactor)) expressionOperator_operatorsOf
    (by decide) (by decide)

theorem finishes_readExpression (hfactor : Accepts .factor factor) (hfinishes : Finishes n factor)
    : Finishes n (readExpression factor) := by
  have hterm : Accepts .term (readTerm factor) :=
    accepts_readChain hfactor termOperator_operatorsOf (by decide) (by decide)
  have hside := accepts_readSide hfactor
  have hfinishesTerm : Finishes n (readTerm factor) :=
    @finishes_readChain _ _ .term _ hfactor termOperator_operatorsOf hfinishes
  have hfinishesSide : Finishes n (readSide factor) :=
    @finishes_readChain _ _ .side _ hterm sideOperator_operatorsOf hfinishesTerm
  exact @finishes_readChain _ _ .expression _ (accepts_readPredicate hside) expressionOperator_operatorsOf
    (finishes_readPredicate hside hfinishesSide)

end levels

section readFactor

-- The equations of `readFactor` are needed from here on
attribute [local simp] readFactor

variable {n : Nat} {ev ev' : Evaluator}

theorem readFactor_minus (h : ev.token.type = .minus)
    : readFactor getValueForName (n + 1) ev
        = (do
            next
            let v ← readFactor getValueForName n
            return -v : Read ℚ) ev := by
  rw [readFactor, Decoder.get_bind, h]

theorem readFactor_not (h : ev.token.type = .not)
    : readFactor getValueForName (n + 1) ev
        = (do
            next
            let v ← readFactor getValueForName n
            return if v ≠ 0 then 0 else 1 : Read ℚ) ev := by
  rw [readFactor, Decoder.get_bind, h]

theorem readFactor_number (h : ev.token.type = .number)
    : readFactor getValueForName (n + 1) ev
        = (do
            next
            return ev.token.value : Read ℚ) ev := by
  rw [readFactor, Decoder.get_bind, h]

theorem readFactor_name_error (h : ev.token.type = .name) {x : Exception}
    (hlookup : getValueForName ev.token.name = .error x)
    : readFactor getValueForName (n + 1) ev = some (.error x) := by
  rw [readFactor, Decoder.get_bind, h]
  apply Decoder.bind_error
  unfold Decoder.lift
  dsimp only
  rw [hlookup]
  rfl

theorem readFactor_name_ok (h : ev.token.type = .name) {v : ℚ}
    (hlookup : getValueForName ev.token.name = .ok v)
    : readFactor getValueForName (n + 1) ev
        = (do
            next
            return v : Read ℚ) ev := by
  rw [readFactor, Decoder.get_bind, h]
  apply Decoder.bind_eq
  unfold Decoder.lift
  dsimp only
  rw [hlookup]
  rfl

theorem readFactor_lpar (h : ev.token.type = .lpar)
    : readFactor getValueForName (n + 1) ev
        = (do
            next
            let v ← readExpression (readFactor getValueForName n)
            let evaluator ← MonadState.get
            if evaluator.token.type = .rpar then do
              next
              return v
            else
              raise "Mismatched parentheses" : Read ℚ) ev := by
  rw [readFactor, Decoder.get_bind, h]

-- No factor starts with any other token
theorem readFactor_throws
    (h : ev.token.type ∉ [Token.Type.minus, .not, .number, .name, .lpar])
    : ∃ x, readFactor getValueForName (n + 1) ev = some (.error x) := by
  rw [readFactor, Decoder.get_bind]
  cases htype : ev.token.type with
  | minus => simp [htype] at h
  | not => simp [htype] at h
  | number => simp [htype] at h
  | name => simp [htype] at h
  | lpar => simp [htype] at h
  | _ => exact ⟨_, rfl⟩

theorem parses_readFactor (n : Nat)
    : Parses getValueForName .factor n (readFactor getValueForName n) := by
  induction n with
  | zero =>
    intro e ts ev ev' hn hsentence
    have hpos : 0 < ts.length := List.length_pos_iff.mpr hsentence.ne_nil
    omega
  | succ n ih =>
    intro e ts ev ev' hn hsentence hsteps hstops
    cases hsentence with
    | number htype =>
      obtain ⟨rfl, _, ev1, hnext, hrest⟩ := hsteps.cons
      cases hrest
      rw [readFactor_number _ htype, Decoder.bind_eq _ hnext]
      rfl
    | var htype =>
      obtain ⟨rfl, _, ev1, hnext, hrest⟩ := hsteps.cons
      cases hrest
      unfold Expr.run
      cases hlookup : getValueForName ev.token.name with
      | error x =>
        rw [readFactor_name_error _ htype hlookup]
        rfl
      | ok v =>
        rw [readFactor_name_ok _ htype hlookup, Decoder.bind_eq _ hnext]
        rfl
    | @neg t e ts htype hoperand =>
      obtain ⟨rfl, _, ev1, hnext, hrest⟩ := hsteps.cons
      rw [List.length_cons] at hn
      have hvalue := ih e ts ev1 ev' (by omega) hoperand hrest hstops
      rw [readFactor_minus _ htype, Decoder.bind_eq _ hnext]
      unfold Expr.run
      cases hrun : e.run getValueForName with
      | error x =>
        rw [hrun] at hvalue
        exact Decoder.bind_error _ hvalue
      | ok v =>
        rw [hrun] at hvalue
        rw [Decoder.bind_eq _ hvalue]
        rfl
    | @not t e ts htype hoperand =>
      obtain ⟨rfl, _, ev1, hnext, hrest⟩ := hsteps.cons
      rw [List.length_cons] at hn
      have hvalue := ih e ts ev1 ev' (by omega) hoperand hrest hstops
      rw [readFactor_not _ htype, Decoder.bind_eq _ hnext]
      unfold Expr.run
      cases hrun : e.run getValueForName with
      | error x =>
        rw [hrun] at hvalue
        exact Decoder.bind_error _ hvalue
      | ok v =>
        rw [hrun] at hvalue
        rw [Decoder.bind_eq _ hvalue]
        rfl
    | @parentheses t u e ts htype hclose hinner =>
      obtain ⟨rfl, _, ev1, hnext, hrest⟩ := hsteps.cons
      obtain ⟨ev2, hts, hlast⟩ := hrest.append
      obtain ⟨rfl, _, ev3, hnext2, hend⟩ := hlast.cons
      cases hend
      rw [List.length_cons, List.length_append] at hn
      have hstops2 : Stops .expression ev2.token.type := by
        intro op hop
        rw [hclose] at hop
        cases op <;> cases hop
      have hvalue := parses_readExpression getValueForName ih e ts ev1 ev2 (by omega) hinner hts
        hstops2
      rw [readFactor_lpar _ htype, Decoder.bind_eq _ hnext]
      cases hrun : e.run getValueForName with
      | error x =>
        rw [hrun] at hvalue
        exact Decoder.bind_error _ hvalue
      | ok v =>
        rw [hrun] at hvalue
        rw [Decoder.bind_eq _ hvalue, Decoder.get_bind, if_pos hclose, Decoder.bind_eq _ hnext2]
        rfl
    | operand hfactor _ => exact absurd rfl hfactor
    | @repeated _ op _ _ _ _ _ _ hlevel _ _ _ => cases op <;> cases hlevel

theorem accepts_readFactor (n : Nat) : Accepts .factor (readFactor getValueForName n) := by
  induction n with
  | zero =>
    intro ev v ev' h
    cases h
  | succ n ih =>
    intro ev v ev' h
    by_cases hstart : ev.token.type ∈ [Token.Type.minus, .not, .number, .name, .lpar]
    . simp only [List.mem_cons, List.not_mem_nil, or_false] at hstart
      have hne : ev.token.type ≠ .eot := by
        intro heot
        rw [heot] at hstart
        revert hstart
        decide
      obtain htype | htype | htype | htype | htype := hstart
      . rw [readFactor_minus _ htype] at h
        obtain ⟨_, ev1, hnext, hrest⟩ := Decoder.bind_ok h
        obtain ⟨u, ev2, hoperand, hreturn⟩ := Decoder.bind_ok hrest
        cases hreturn
        obtain ⟨e, ts, hsentence, hsteps⟩ := ih ev1 u ev' hoperand
        exact ⟨.neg e, ev.token :: ts, .neg htype hsentence, .step hne hnext hsteps⟩
      . rw [readFactor_not _ htype] at h
        obtain ⟨_, ev1, hnext, hrest⟩ := Decoder.bind_ok h
        obtain ⟨u, ev2, hoperand, hreturn⟩ := Decoder.bind_ok hrest
        cases hreturn
        obtain ⟨e, ts, hsentence, hsteps⟩ := ih ev1 u ev' hoperand
        exact ⟨.not e, ev.token :: ts, .not htype hsentence, .step hne hnext hsteps⟩
      . rw [readFactor_number _ htype] at h
        obtain ⟨_, ev1, hnext, hreturn⟩ := Decoder.bind_ok h
        cases hreturn
        exact ⟨_, _, .number htype, .single hne hnext⟩
      . cases hlookup : getValueForName ev.token.name with
        | error x =>
          rw [readFactor_name_error _ htype hlookup] at h
          cases h
        | ok u =>
          rw [readFactor_name_ok _ htype hlookup] at h
          obtain ⟨_, ev1, hnext, hreturn⟩ := Decoder.bind_ok h
          cases hreturn
          exact ⟨_, _, .var htype, .single hne hnext⟩
      . rw [readFactor_lpar _ htype] at h
        obtain ⟨_, ev1, hnext, hrest⟩ := Decoder.bind_ok h
        obtain ⟨u, ev2, hinner, hrest2⟩ := Decoder.bind_ok hrest
        obtain ⟨e, ts, hsentence, hsteps⟩ := accepts_readExpression ih ev1 u ev2 hinner
        rw [Decoder.get_bind] at hrest2
        split at hrest2
        . next hclose =>
          obtain ⟨_, ev3, hnext2, hreturn⟩ := Decoder.bind_ok hrest2
          cases hreturn
          have hne2 : ev2.token.type ≠ .eot := by
            rw [hclose]
            decide
          exact ⟨e, ev.token :: (ts ++ [ev2.token]), .parentheses htype hclose hsentence,
            .step hne hnext (hsteps.trans (.single hne2 hnext2))⟩
        . cases hrest2
    . obtain ⟨x, hthrows⟩ := readFactor_throws getValueForName (n := n) hstart
      rw [hthrows] at h
      cases h

theorem finishes_readFactor (n : Nat) : Finishes n (readFactor getValueForName (n + 1)) := by
  induction n with
  | zero =>
    intro ev hn
    have heot : ev.token.type = .eot := by
      by_contra hne
      unfold remaining at hn
      rw [if_neg hne] at hn
      omega
    obtain ⟨x, hthrows⟩ := @readFactor_throws getValueForName 0 ev (by rw [heot]; decide)
    rw [hthrows]
    simp
  | succ n ih =>
    intro ev hn
    by_cases hstart : ev.token.type ∈ [Token.Type.minus, .not, .number, .name, .lpar]
    . simp only [List.mem_cons, List.not_mem_nil, or_false] at hstart
      have hlt : ∀ ev1, next ev = some (.ok ((), ev1)) → ev1.remaining ≤ n := by
        intro ev1 hnext
        have hne : ev.token.type ≠ .eot := by
          intro heot
          rw [heot] at hstart
          revert hstart
          decide
        have := next_remaining_lt hne hnext
        omega
      obtain htype | htype | htype | htype | htype := hstart
      . rw [readFactor_minus _ htype]
        apply Decoder.bind_ne_none (next_ne_none ev)
        intro _ ev1 hnext
        apply Decoder.bind_ne_none (ih ev1 (hlt ev1 hnext))
        intro v ev2 _
        simp [Decoder.pure_eq]
      . rw [readFactor_not _ htype]
        apply Decoder.bind_ne_none (next_ne_none ev)
        intro _ ev1 hnext
        apply Decoder.bind_ne_none (ih ev1 (hlt ev1 hnext))
        intro v ev2 _
        simp [Decoder.pure_eq]
      . rw [readFactor_number _ htype]
        apply Decoder.bind_ne_none (next_ne_none ev)
        intro _ ev1 _
        simp [Decoder.pure_eq]
      . cases hlookup : getValueForName ev.token.name with
        | error x =>
          rw [readFactor_name_error _ htype hlookup]
          simp
        | ok u =>
          rw [readFactor_name_ok _ htype hlookup]
          apply Decoder.bind_ne_none (next_ne_none ev)
          intro _ ev1 _
          simp [Decoder.pure_eq]
      . rw [readFactor_lpar _ htype]
        apply Decoder.bind_ne_none (next_ne_none ev)
        intro _ ev1 hnext
        have hinner := finishes_readExpression (accepts_readFactor getValueForName (n + 1)) ih
        apply Decoder.bind_ne_none (hinner ev1 (hlt ev1 hnext))
        intro v ev2 _
        rw [Decoder.get_bind]
        split
        . apply Decoder.bind_ne_none (next_ne_none ev2)
          intro _ ev3 _
          simp [Decoder.pure_eq]
        . unfold raise Decoder.raise
          simp
    . obtain ⟨x, hthrows⟩ := readFactor_throws getValueForName (n := n + 1) hstart
      rw [hthrows]
      simp

end readFactor

end Evaluator
end Expression
end ObTools
