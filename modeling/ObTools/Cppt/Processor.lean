import Mathlib.Data.List.Basic

/-!
This module contains the model of `CPPT::TokenRecogniser` and of the `CPPT::Processor` that turns a template into C++.

The loop over the input and the retries of a character run with fuel, there is no result if they are still running when
it is used up.
-/

namespace ObTools
namespace CPPT

abbrev Bytes := List UInt8

inductive TokenState where
  -- Waiting for more input
  | reading
  -- Input derived a token
  | valid
  -- Input derived a non-token
  | invalid
deriving DecidableEq

structure TokenRecogniser where
  tokens : List Bytes
  index : Nat
  longestValid : Nat
  currentToken : Bytes

namespace TokenRecogniser

-- Empty strings are silently ignored
def ofTokens (tokens : List Bytes) : TokenRecogniser :=
  { tokens := tokens.filter (· ≠ []), index := 0, longestValid := 0, currentToken := [] }

-- The tokens that have the character at an index
def possibles (tokens : List Bytes) (index : Nat) (c : UInt8) : List Bytes :=
  tokens.filter fun p => p.length > index ∧ p[index]? = some c

-- Would one of them be complete?
def isComplete (possibles : List Bytes) (index : Nat) : Bool := possibles.any (·.length = index + 1)

def processChar (tr : TokenRecogniser) (c : UInt8) : Bool × TokenState × TokenRecogniser :=
  let npossibles := (possibles tr.tokens tr.index c).length
  let atLeastOneIsValid := isComplete (possibles tr.tokens tr.index c) tr.index
  if npossibles ≠ 0 then
    -- Clear token on first character, and keep this character
    let currentToken := (if tr.index = 0 then [] else tr.currentToken) ++ [c]
    if atLeastOneIsValid then
      if npossibles = 1 then
        (true, .valid, { tr with index := 0, longestValid := 0, currentToken })
      else
        -- Remember we had this, in case we have to backtrack
        (true, .reading, { tr with index := tr.index + 1, longestValid := tr.index + 1, currentToken })
    else
      (true, .reading, { tr with index := tr.index + 1, currentToken })
  else if tr.index = 0 then
    (false, .reading, tr)
  else if tr.longestValid ≠ 0 then
    -- It is assumed to be the last character that was valid
    (false, .valid, { tr with index := 0, longestValid := 0 })
  else
    (false, .invalid, { tr with index := 0 })

end TokenRecogniser

inductive ProcessorState where
  -- Passing through text
  | normal
  -- In C++ code
  | code
  -- In C++ expr
  | expr
  -- In template comment
  | comment
deriving DecidableEq

structure Tags where
  startCode : Bytes
  endCode : Bytes
  startExpr : Bytes
  endExpr : Bytes
  startComment : Bytes
  endComment : Bytes

/-
`sout` is what has been written to the stream.
-/
structure Processor where
  sout : Bytes
  sname : Bytes
  tags : Tags
  state : ProcessorState
  startedText : Bool
  trNormal : TokenRecogniser
  trCode : TokenRecogniser
  trExpr : TokenRecogniser
  trComment : TokenRecogniser

-- The names of the streams with a `<<`, two blanks in front of them
def streamTo (sname : Bytes) : Bytes := [32, 32] ++ sname ++ [32, 60, 60, 32]

-- `endl;` and the end of a literal, each with a line feed
def endlStatement : Bytes := [101, 110, 100, 108, 59, 10]

def closeLiteral : Bytes := [34, 59, 10]

-- Strip trailing whitespace and subsequent newline
def stripEol : Bytes → Bytes
  | [] => []
  | c :: sin => if c = 32 ∨ c = 9 then stripEol sin else if c = 10 then sin else c :: sin

namespace Processor

def new (tags : Tags) (sname : Bytes) : Processor where
  sout := []
  sname
  tags
  state := .normal
  startedText := false
  trNormal := .ofTokens [tags.startCode, tags.startExpr, tags.startComment]
  trCode := .ofTokens [tags.endCode]
  trExpr := .ofTokens [tags.endExpr]
  trComment := .ofTokens [tags.endComment]

def write (p : Processor) (bytes : Bytes) : Processor := { p with sout := p.sout ++ bytes }

-- If not in a stream already, start one, unless there is only a newline
def startText (p : Processor) (c : UInt8) : Processor :=
  if p.startedText then p
  else if c = 10 then p.write (streamTo p.sname ++ endlStatement)
  else { p.write (streamTo p.sname ++ [34]) with startedText := true }

-- Output a text character, taking care of wrapping in C++ output
def outputText (p : Processor) (c : UInt8) : Processor :=
  let p := p.startText c
  if p.startedText then
    if c = 10 then { p.write ([92, 110] ++ closeLiteral) with startedText := false }
    -- Back-slashify quotes and backslashes
    else if c = 34 ∨ c = 92 then p.write [92, c]
    else p.write [c]
  else
    p

-- Ditto for an entire string
def outputString (p : Processor) (s : Bytes) : Processor := (s.takeWhile (· ≠ 0)).foldl outputText p

-- Close any open text out and open a C++ block
def openCode (p : Processor) : Processor := if p.startedText then p.write closeLiteral else p

-- Close any open text out and open a C++ expr
def openExpr (p : Processor) : Processor :=
  if p.startedText then p.write [34, 32, 60, 60, 32, 40]
  else { p.write (streamTo p.sname ++ [40]) with startedText := true }

def closeCode (p : Processor) : Processor := { p with startedText := false }

def closeExpr (p : Processor) : Processor :=
  let p := p.write [41]
  if p.startedText then p.write [32, 60, 60, 32, 34] else p

/-
What is done with a character in one of the states, and whether it has to be tried again.
-/

def normalChar (p : Processor) (c : UInt8) (sin : Bytes) : Bool × Processor × Bytes :=
  let (usedChar, tokstate, tr) := p.trNormal.processChar c
  let p := { p with trNormal := tr }
  match tokstate with
  | .reading => (false, if usedChar then p else p.outputText c, sin)
  | .valid =>
    let token := tr.currentToken
    if token = p.tags.startCode then
      (!usedChar, { p.openCode with state := .code }, stripEol sin)
    else if token = p.tags.startExpr then
      (!usedChar, { p.openExpr with state := .expr }, sin)
    else if token = p.tags.startComment then
      (!usedChar, { p with state := .comment }, sin)
    else
      (!usedChar, p, sin)
  -- Output unwanted characters as text, and retry
  | .invalid => (!usedChar, p.outputString tr.currentToken, sin)

def codeChar (p : Processor) (c : UInt8) (sin : Bytes) : Bool × Processor × Bytes :=
  let (usedChar, tokstate, tr) := p.trCode.processChar c
  let p := { p with trCode := tr }
  match tokstate with
  | .reading => (false, if usedChar then p else p.write [c], sin)
  | .valid =>
    if tr.currentToken = p.tags.endCode then
      (!usedChar, { p.closeCode with state := .normal }, stripEol sin)
    else
      (!usedChar, p, sin)
  | .invalid => (!usedChar, p.write tr.currentToken, sin)

def exprChar (p : Processor) (c : UInt8) (sin : Bytes) : Bool × Processor × Bytes :=
  let (usedChar, tokstate, tr) := p.trExpr.processChar c
  let p := { p with trExpr := tr }
  match tokstate with
  | .reading => (false, if usedChar then p else p.write [c], sin)
  | .valid =>
    if tr.currentToken = p.tags.endExpr then
      (!usedChar, { p.closeExpr with state := .normal }, sin)
    else
      (!usedChar, p, sin)
  | .invalid => (!usedChar, p.write tr.currentToken, sin)

def commentChar (p : Processor) (c : UInt8) (sin : Bytes) : Bool × Processor × Bytes :=
  let (usedChar, tokstate, tr) := p.trComment.processChar c
  let p := { p with trComment := tr }
  match tokstate with
  -- Swallow it
  | .reading => (false, p, sin)
  | .valid =>
    if tr.currentToken = p.tags.endComment then
      (!usedChar, { p with state := .normal }, stripEol sin)
    else
      (!usedChar, p, sin)
  | .invalid => (!usedChar, p, sin)

def tryChar (p : Processor) (c : UInt8) (sin : Bytes) : Bool × Processor × Bytes :=
  match p.state with
  | .normal => p.normalChar c sin
  | .code => p.codeChar c sin
  | .expr => p.exprChar c sin
  | .comment => p.commentChar c sin

def processChar : Nat → Processor → UInt8 → Bytes → Option (Processor × Bytes)
  | 0, _, _, _ => none
  | fuel + 1, p, c, sin =>
    let (retry, p, sin) := p.tryChar c sin
    if retry then processChar fuel p c sin else some (p, sin)

def processLoop : Nat → Processor → Bytes → Option Processor
  | 0, _, _ => none
  | _ + 1, p, [] => some p
  | fuel + 1, p, c :: sin =>
    if c = 0 then
      some p
    else do
      let (p, sin) ← processChar (fuel + 1) p c sin
      processLoop fuel p sin

-- Process an instream into an outstream
def process (fuel : Nat) (tags : Tags) (sname sin : Bytes) : Option Bytes := do
  let p ← processLoop fuel (new tags sname) sin
  -- Close out the text in case it stops in the middle of it
  return (if p.state = .normal then p.openCode else p).sout

end Processor

/-
What the statements that are emitted put into the stream, if there is nothing else.
-/

-- The characters of a literal up to its closing quote, and what is behind it
def readLiteral : Bytes → Option (Bytes × Bytes)
  | [] => none
  | c :: out =>
    if c = 34 then
      some ([], out)
    else if c = 92 then
      match out with
      | [] => none
      | c :: out => (readLiteral out).map fun (s, out) => ((if c = 110 then 10 else c) :: s, out)
    else
      (readLiteral out).map fun (s, out) => (c :: s, out)

-- A literal or `endl`
def readOperand (out : Bytes) : Option (Bytes × Bytes) :=
  if [34] <+: out then do
    let (s, out) ← readLiteral (out.drop 1)
    if [59, 10] <+: out then some (s, out.drop 2) else none
  else if endlStatement <+: out then
    some ([10], out.drop endlStatement.length)
  else
    none

def readStatements (sname : Bytes) : Nat → Bytes → Option Bytes
  | 0, _ => none
  | fuel + 1, out =>
    if out = [] then
      some []
    else if streamTo sname <+: out then do
      let (s, out) ← readOperand (out.drop (streamTo sname).length)
      let t ← readStatements sname fuel out
      return s ++ t
    else
      none

def streamed (sname out : Bytes) : Option Bytes := readStatements sname (out.length + 1) out

end CPPT
end ObTools
