import ObTools.Expression.Tokeniser
import ObTools.Expression.TokeniserLemmas
import ObTools.Lib.Decoder

/-!
This module contains the model of `Expression::Evaluator`. What reads a factor is an argument of the other
functions, as `read_factor` calls them for an expression in parentheses; its fuel stands for the depth of the
call stack. A quotient by zero, for which a `double` has an infinity or no number, is 0.

It then contains what the evaluator makes of an expression, and the steps that it takes from token to token.
-/

namespace ObTools
namespace Expression

open ObTools.Lex (Bytes chars)

structure Evaluator where
  tokeniser : Tokeniser
  token : Token
  deriving DecidableEq, Repr

namespace Evaluator

abbrev Read (α : Type) := Decoder Evaluator Exception α

def raise {α : Type} (error : String) : Read α := Decoder.raise { error := chars error }

-- The virtual function, where it is not overridden
def getValueForName (name : Bytes) : Except Exception ℚ :=
  throw { error := chars "Variable name lookup for '" ++ name ++ chars "' not implemented" }

def next : Read Unit :=
  Decoder.lift fun evaluator => do
    let (token, tokeniser) ← evaluator.tokeniser.readToken
    return ((), { tokeniser, token })

def termOperator : Token.Type → Option (ℚ → ℚ → ℚ)
  | .mul => some (· * ·)
  | .div => some (· / ·)
  | _ => none

def sideOperator : Token.Type → Option (ℚ → ℚ → ℚ)
  | .plus => some (· + ·)
  | .minus => some (· - ·)
  | _ => none

def comparison : Token.Type → Option (ℚ → ℚ → ℚ)
  | .eq => some fun v w => if v = w then 1 else 0
  | .ne => some fun v w => if v ≠ w then 1 else 0
  | .lt => some fun v w => if v < w then 1 else 0
  | .gt => some fun v w => if v > w then 1 else 0
  | .lteq => some fun v w => if v ≤ w then 1 else 0
  | .gteq => some fun v w => if v ≥ w then 1 else 0
  | _ => none

def expressionOperator : Token.Type → Option (ℚ → ℚ → ℚ)
  | .and => some fun v w => if v ≠ 0 ∧ w ≠ 0 then 1 else 0
  | .or => some fun v w => if v ≠ 0 ∨ w ≠ 0 then 1 else 0
  | _ => none

-- The loop for operators of one level, with what reads their second operand
def readOperators (operator : Token.Type → Option (ℚ → ℚ → ℚ)) (read : Read ℚ) : Nat → ℚ → Read ℚ
  | 0, _ => Decoder.outOfFuel
  | fuel + 1, v => do
    let evaluator ← MonadState.get
    match operator evaluator.token.type with
    | none => return v
    | some op => do
      next
      let w ← read
      readOperators operator read fuel (op v w)

-- Each iteration of the loop reads a token, of which there are no more than characters
def readChain (operator : Token.Type → Option (ℚ → ℚ → ℚ)) (read : Read ℚ) : Read ℚ := do
  let v ← read
  let evaluator ← MonadState.get
  readOperators operator read (evaluator.tokeniser.rest.length + 2) v

section

variable (factor : Read ℚ)

def readTerm : Read ℚ := readChain termOperator factor

def readSide : Read ℚ := readChain sideOperator (readTerm factor)

def readPredicate : Read ℚ := do
  let v ← readSide factor
  let evaluator ← MonadState.get
  match comparison evaluator.token.type with
  | none => return v
  | some op => do
    next
    let w ← readSide factor
    return op v w

-- The second operand is read also if the first one decides
def readExpression : Read ℚ := readChain expressionOperator (readPredicate factor)

end

def readFactor (getValueForName : Bytes → Except Exception ℚ) : Nat → Read ℚ
  | 0 => Decoder.outOfFuel
  | fuel + 1 => do
    let evaluator ← MonadState.get
    match evaluator.token.type with
    | .minus => do
      next
      let v ← readFactor getValueForName fuel
      return -v
    | .not => do
      next
      let v ← readFactor getValueForName fuel
      return if v ≠ 0 then 0 else 1
    | .number => do
      next
      return evaluator.token.value
    | .name => do
      let v ← Decoder.lift fun evaluator =>
        (getValueForName evaluator.token.name).map fun v => (v, evaluator)
      next
      return v
    | .lpar => do
      next
      let v ← readExpression (readFactor getValueForName fuel)
      let evaluator ← MonadState.get
      if evaluator.token.type = .rpar then do
        next
        return v
      else
        raise "Mismatched parentheses"
    | .eot => raise "Unexpected end"
    | _ => raise "Unrecognised token"

def evaluate (getValueForName : Bytes → Except Exception ℚ) (expr : Bytes)
    : Option (Except Exception ℚ) :=
  let read : Read ℚ := do
    next
    let v ← readExpression (readFactor getValueForName (expr.length + 1))
    let evaluator ← MonadState.get
    -- Must be EOF now
    if evaluator.token.type ≠ .eot then
      raise "Parse error"
    else
      return v
  -- No token is set yet
  match read { tokeniser := { rest := expr }, token := { type := .unknown } } with
  | none => none
  | some result => some (result.map Prod.fst)

end Evaluator

-- The variables are the properties in a list
def PropertyListEvaluator.getValueForName (vars : Bytes → Option ℚ) (name : Bytes)
    : Except Exception ℚ :=
  match vars name with
  | some v => return v
  | none => throw { error := chars "No such variable '" ++ name ++ chars "'" }

end Expression
end ObTools

namespace ObTools
namespace Expression

open ObTools.Lex (Bytes)

-- The quotient by zero is that of the model
def BinOp.run : BinOp → ℚ → ℚ → ℚ
  | .mul, v, w => v * w
  | .div, v, w => v / w
  | .add, v, w => v + w
  | .sub, v, w => v - w
  | .eq, v, w => if v = w then 1 else 0
  | .ne, v, w => if v ≠ w then 1 else 0
  | .lt, v, w => if v < w then 1 else 0
  | .gt, v, w => if v > w then 1 else 0
  | .le, v, w => if v ≤ w then 1 else 0
  | .ge, v, w => if v ≥ w then 1 else 0
  | .and, v, w => if v ≠ 0 ∧ w ≠ 0 then 1 else 0
  | .or, v, w => if v ≠ 0 ∨ w ≠ 0 then 1 else 0

-- The exception is that for the first variable that is not defined
def Expr.run (getValueForName : Bytes → Except Exception ℚ) : Expr → Except Exception ℚ
  | .number q => return q
  | .var name => getValueForName name
  | .neg e => do
    let v ← e.run getValueForName
    return -v
  | .not e => do
    let v ← e.run getValueForName
    return if v ≠ 0 then 0 else 1
  | .binary op l r => do
    let v ← l.run getValueForName
    let w ← r.run getValueForName
    return op.run v w

theorem BinOp.run_of_apply {op : BinOp} {u v w : ℚ} (h : op.apply v w = some u)
    : op.run v w = u := by
  cases op with
  | div =>
    by_cases hw : w = 0
    . simp [BinOp.apply, hw] at h
    . simp only [BinOp.apply, hw, if_false, Option.some.injEq] at h
      exact h
  | _ =>
    cases h
    simp [BinOp.run, truth]

section run

variable {getValueForName : Bytes → Except Exception ℚ} {vars : Bytes → Option ℚ}

theorem Expr.run_of_value (hvars : ∀ name v, vars name = some v → getValueForName name = .ok v)
    {e : Expr} {v : ℚ} (h : e.value vars = some v)
    : e.run getValueForName = .ok v := by
  induction e generalizing v with
  | number q =>
    cases h
    rfl
  | var name => exact hvars name v h
  | neg e ih =>
    obtain ⟨u, hu, heq⟩ := Option.bind_eq_some_iff.mp h
    cases heq
    unfold Expr.run
    rw [ih hu]
    rfl
  | not e ih =>
    obtain ⟨u, hu, heq⟩ := Option.bind_eq_some_iff.mp h
    cases heq
    unfold Expr.run
    rw [ih hu]
    by_cases hzero : u = 0
    . simp [hzero, truth]
    . simp [hzero, truth]
  | binary op l r ihl ihr =>
    obtain ⟨u, hu, hrest⟩ := Option.bind_eq_some_iff.mp h
    obtain ⟨w, hw, happly⟩ := Option.bind_eq_some_iff.mp hrest
    unfold Expr.run
    rw [ihl hu, ihr hw, ← BinOp.run_of_apply happly]
    rfl

-- It is only for its variables that an expression throws an exception
theorem Expr.run_ok_iff (hvars : ∀ name, (∃ v, getValueForName name = .ok v) ↔ vars name ≠ none)
    (e : Expr)
    : (∃ v, e.run getValueForName = .ok v) ↔ e.Defined vars := by
  induction e with
  | number q => exact ⟨fun _ => trivial, fun _ => ⟨q, rfl⟩⟩
  | var name => exact hvars name
  | neg e ih =>
    unfold Expr.Defined Expr.run
    rw [← ih]
    cases e.run getValueForName <;> simp [bind, Except.bind, pure, Except.pure]
  | not e ih =>
    unfold Expr.Defined Expr.run
    rw [← ih]
    cases e.run getValueForName <;> simp [bind, Except.bind, pure, Except.pure]
  | binary op l r ihl ihr =>
    unfold Expr.Defined Expr.run
    rw [← ihl, ← ihr]
    cases l.run getValueForName <;> cases r.run getValueForName <;>
      simp [bind, Except.bind, pure, Except.pure]

end run

namespace Evaluator

-- The operators of a level that has a loop
structure OperatorsOf (level : Level) (operator : Token.Type → Option (ℚ → ℚ → ℚ)) : Prop where
  run : ∀ op : BinOp, op.level = level → operator op.type = some op.run
  level : ∀ type f, operator type = some f → ∃ op : BinOp, op.level = level ∧ op.type = type

theorem termOperator_operatorsOf : OperatorsOf .term termOperator := by
  constructor
  . intro op hop
    cases op <;> first | rfl | cases hop
  . intro type f h
    cases type with
    | mul => exact ⟨.mul, rfl, rfl⟩
    | div => exact ⟨.div, rfl, rfl⟩
    | _ => cases h

theorem sideOperator_operatorsOf : OperatorsOf .side sideOperator := by
  constructor
  . intro op hop
    cases op <;> first | rfl | cases hop
  . intro type f h
    cases type with
    | plus => exact ⟨.add, rfl, rfl⟩
    | minus => exact ⟨.sub, rfl, rfl⟩
    | _ => cases h

theorem comparison_operatorsOf : OperatorsOf .predicate comparison := by
  constructor
  . intro op hop
    cases op <;> first | rfl | cases hop
  . intro type f h
    cases type with
    | eq => exact ⟨.eq, rfl, rfl⟩
    | ne => exact ⟨.ne, rfl, rfl⟩
    | lt => exact ⟨.lt, rfl, rfl⟩
    | gt => exact ⟨.gt, rfl, rfl⟩
    | lteq => exact ⟨.le, rfl, rfl⟩
    | gteq => exact ⟨.ge, rfl, rfl⟩
    | _ => cases h

theorem expressionOperator_operatorsOf : OperatorsOf .expression expressionOperator := by
  constructor
  . intro op hop
    cases op <;> first | rfl | cases hop
  . intro type f h
    cases type with
    | and => exact ⟨.and, rfl, rfl⟩
    | or => exact ⟨.or, rfl, rfl⟩
    | _ => cases h

section Steps

-- How many tokens there are at most, the current one included
def remaining (ev : Evaluator) : Nat :=
  ev.tokeniser.rest.length + if ev.token.type = .eot then 0 else 1

-- The tokens that are passed on the way from a state to another one
inductive Steps : Evaluator → List Token → Evaluator → Prop where
  | refl (ev : Evaluator) : Steps ev [] ev
  | step {ev ev1 ev' : Evaluator} {ts : List Token} : ev.token.type ≠ .eot →
      next ev = some (.ok ((), ev1)) → Steps ev1 ts ev' → Steps ev (ev.token :: ts) ev'

variable {ev ev1 ev' : Evaluator} {ts us : List Token}

theorem next_ok_iff
    : next ev = some (.ok ((), ev')) ↔ ev.tokeniser.readToken = .ok (ev'.token, ev'.tokeniser) := by
  unfold next Decoder.lift
  dsimp only
  cases ev.tokeniser.readToken with
  | error e =>
    constructor
    . intro h
      cases h
    . intro h
      cases h
  | ok r =>
    constructor
    . intro h
      cases h
      rfl
    . intro h
      cases h
      rfl

theorem next_ne_none (ev : Evaluator) : next ev ≠ none := by
  unfold next Decoder.lift
  simp

theorem next_remaining_le (h : next ev = some (.ok ((), ev')))
    : ev'.remaining ≤ ev.tokeniser.rest.length := by
  rw [next_ok_iff] at h
  obtain ⟨ws, word, hws, htext, hword⟩ := Tokeniser.readToken_sound h
  have hlength : ev.tokeniser.rest.length
      = ws.length + (word.length + ev'.tokeniser.rest.length) := by
    rw [htext, List.length_append, List.length_append]
  unfold remaining
  cases hword with
  | inl hspells =>
    have hpos : 0 < word.length := List.length_pos_iff.mpr hspells.ne_nil
    split <;> omega
  | inr heot =>
    rw [if_pos heot.1]
    omega

theorem next_remaining_lt (htype : ev.token.type ≠ .eot) (h : next ev = some (.ok ((), ev')))
    : ev'.remaining < ev.remaining := by
  have hle := next_remaining_le h
  unfold remaining at hle ⊢
  rw [if_neg htype]
  omega

theorem Steps.trans (h : Steps ev ts ev1) (h' : Steps ev1 us ev') : Steps ev (ts ++ us) ev' := by
  induction h with
  | refl ev => exact h'
  | step htype hnext _ ih => exact .step htype hnext (ih h')

theorem Steps.single (htype : ev.token.type ≠ .eot) (hnext : next ev = some (.ok ((), ev')))
    : Steps ev [ev.token] ev' :=
  .step htype hnext (.refl ev')

theorem Steps.append (h : Steps ev (ts ++ us) ev')
    : ∃ ev1, Steps ev ts ev1 ∧ Steps ev1 us ev' := by
  induction ts generalizing ev with
  | nil => exact ⟨ev, .refl ev, h⟩
  | cons t ts ih =>
    cases h with
    | step htype hnext hrest =>
      obtain ⟨ev1, hts, hus⟩ := ih hrest
      exact ⟨ev1, .step htype hnext hts, hus⟩

theorem Steps.cons {t : Token} (h : Steps ev (t :: ts) ev')
    : ev.token = t ∧ t.type ≠ .eot ∧ ∃ ev1, next ev = some (.ok ((), ev1)) ∧ Steps ev1 ts ev' := by
  cases h with
  | step htype hnext hrest => exact ⟨rfl, htype, _, hnext, hrest⟩

theorem Steps.remaining_le (h : Steps ev ts ev') : ev'.remaining + ts.length ≤ ev.remaining := by
  induction h with
  | refl ev => simp
  | step htype hnext _ ih =>
    have hlt := next_remaining_lt htype hnext
    rw [List.length_cons]
    omega

end Steps

end Evaluator
end Expression
end ObTools
