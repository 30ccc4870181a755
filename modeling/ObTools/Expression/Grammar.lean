import Mathlib.Algebra.Order.Ring.Rat
import ObTools.Expression.Tokeniser

/-!
This module contains the grammar of expressions, and what they mean. A sentence is given by its tokens, which
a text renders with any whitespace between them.
-/

namespace ObTools
namespace Expression

open ObTools.Lex (Bytes chars isAlpha isDigit)
open Tokeniser (isNameChar)

inductive BinOp where
  | mul
  | div
  | add
  | sub
  | eq
  | ne
  | lt
  | gt
  | le
  | ge
  | and
  | or
  deriving DecidableEq, Repr

inductive Expr where
  | number (q : ℚ)
  | var (name : Bytes)
  | neg (e : Expr)
  | not (e : Expr)
  | binary (op : BinOp) (l r : Expr)
  deriving DecidableEq, Repr

def truth (b : Bool) : ℚ := if b then 1 else 0

-- There is no quotient by zero
def BinOp.apply : BinOp → ℚ → ℚ → Option ℚ
  | .mul, v, w => some (v * w)
  | .div, v, w => if w = 0 then none else some (v / w)
  | .add, v, w => some (v + w)
  | .sub, v, w => some (v - w)
  | .eq, v, w => some (truth (v = w))
  | .ne, v, w => some (truth (v ≠ w))
  | .lt, v, w => some (truth (v < w))
  | .gt, v, w => some (truth (v > w))
  | .le, v, w => some (truth (v ≤ w))
  | .ge, v, w => some (truth (v ≥ w))
  | .and, v, w => some (truth (v ≠ 0 && w ≠ 0))
  | .or, v, w => some (truth (v ≠ 0 || w ≠ 0))

namespace Expr

variable (vars : Bytes → Option ℚ)

def value : Expr → Option ℚ
  | .number q => some q
  | .var name => vars name
  | .neg e => do
    let v ← e.value
    return -v
  | .not e => do
    let v ← e.value
    return truth (v = 0)
  | .binary op l r => do
    let v ← l.value
    let w ← r.value
    op.apply v w

-- Its variables are defined
def Defined : Expr → Prop
  | .number _ => True
  | .var name => vars name ≠ none
  | .neg e => e.Defined
  | .not e => e.Defined
  | .binary _ l r => l.Defined ∧ r.Defined

end Expr

inductive Level where
  | factor
  | term
  | side
  | predicate
  | expression
  deriving DecidableEq, Repr

namespace Level

-- What the operators of a level have between them
def below : Level → Level
  | .factor => .factor
  | .term => .factor
  | .side => .term
  | .predicate => .side
  | .expression => .predicate

def rank : Level → Nat
  | .factor => 0
  | .term => 1
  | .side => 2
  | .predicate => 3
  | .expression => 4

end Level

namespace BinOp

def level : BinOp → Level
  | .mul | .div => .term
  | .add | .sub => .side
  | .eq | .ne | .lt | .gt | .le | .ge => .predicate
  | .and | .or => .expression

def type : BinOp → Token.Type
  | .mul => .mul
  | .div => .div
  | .add => .plus
  | .sub => .minus
  | .eq => .eq
  | .ne => .ne
  | .lt => .lt
  | .gt => .gt
  | .le => .lteq
  | .ge => .gteq
  | .and => .and
  | .or => .or

end BinOp

/-
EXPR:   PRED ([ && || ] PRED)+
PRED:   SIDE [ == < > <= >= !=] SIDE
SIDE:   TERM ([ + - ] TERM)+
TERM:   FACTOR ([ * / ] FACTOR)+
FACTOR: [ ! - ] [ number | variable | (EXPR)]

What is repeated can be absent, and associates to the left. A predicate compares once at most. A factor can
have several unary operators.
-/
inductive Sentence : Level → Expr → List Token → Prop where
  | number {t : Token} : t.type = .number → Sentence .factor (.number t.value) [t]
  | var {t : Token} : t.type = .name → Sentence .factor (.var t.name) [t]
  | neg {t : Token} {e : Expr} {ts : List Token} : t.type = .minus → Sentence .factor e ts →
      Sentence .factor (.neg e) (t :: ts)
  | not {t : Token} {e : Expr} {ts : List Token} : t.type = .not → Sentence .factor e ts →
      Sentence .factor (.not e) (t :: ts)
  | parentheses {t u : Token} {e : Expr} {ts : List Token} : t.type = .lpar → u.type = .rpar →
      Sentence .expression e ts → Sentence .factor e (t :: (ts ++ [u]))
  | operand {level : Level} {e : Expr} {ts : List Token} : level ≠ .factor →
      Sentence level.below e ts → Sentence level e ts
  | repeated {level : Level} {op : BinOp} {t : Token} {l r : Expr} {ts us : List Token} :
      t.type = op.type → op.level = level → level ≠ .predicate → Sentence level l ts →
      Sentence level.below r us → Sentence level (.binary op l r) (ts ++ t :: us)
  | compared {op : BinOp} {t : Token} {l r : Expr} {ts us : List Token} : t.type = op.type →
      op.level = .predicate → Sentence .side l ts → Sentence .side r us →
      Sentence .predicate (.binary op l r) (ts ++ t :: us)

-- What is written for operators and parentheses
def Token.Type.symbol : Token.Type → Option String
  | .mul => some "*"
  | .div => some "/"
  | .plus => some "+"
  | .minus => some "-"
  | .and => some "&&"
  | .or => some "||"
  | .not => some "!"
  | .eq => some "=="
  | .lt => some "<"
  | .gt => some ">"
  | .lteq => some "<="
  | .gteq => some ">="
  | .ne => some "!="
  | .lpar => some "("
  | .rpar => some ")"
  | _ => none

inductive Spells : Token → Bytes → Prop where
  | name {c : UInt8} {cs : Bytes} : isAlpha c = true → (∀ d ∈ cs, isNameChar d = true) →
      Spells { type := .name, name := c :: cs } (c :: cs)
  | whole {ds : Bytes} : ds ≠ [] → (∀ d ∈ ds, isDigit d = true) →
      Spells { type := .number, value := Digits.ofBytes 10 ds } ds
  | decimal {ds fs : Bytes} : ds ≠ [] → (∀ d ∈ ds, isDigit d = true) →
      (∀ d ∈ fs, isDigit d = true) →
      Spells { type := .number, value := Digits.ofBytes 10 ds + Digits.ofBytes 10 fs / 10 ^ fs.length }
        (ds ++ 46 :: fs)
  | symbol {type : Token.Type} {symbol : String} : type.symbol = some symbol →
      Spells { type } (chars symbol)

inductive Renders : List Token → Bytes → Prop where
  | end_ {ws : Bytes} : (∀ c ∈ ws, Text.isSpace c = true) → Renders [] ws
  | token {t : Token} {ts : List Token} {ws word text : Bytes} : (∀ c ∈ ws, Text.isSpace c = true) →
      Spells t word → Renders ts text → Renders (t :: ts) (ws ++ (word ++ text))

def IsSentence (text : Bytes) : Prop := ∃ e ts, Sentence .expression e ts ∧ Renders ts text

end Expression
end ObTools
