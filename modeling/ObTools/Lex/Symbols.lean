import Mathlib.Data.List.Basic
import ObTools.Lex.Analyser

/-!
This module contains the proof on which inputs the symbols that the lexical analyser reads are the longest
ones of those that have been added.

A symbol is read as long as what has been read is the beginning of one of them, which may end in the middle
of one.
-/

namespace ObTools
namespace Lex

-- What `get` and `peek` give for the next `n` characters, there is 0 behind the end
def seen (rest : Bytes) (n : Nat) : Bytes := (rest ++ List.replicate n 0).take n

structure Longest (symbols : List Bytes) (rest symbol : Bytes) : Prop where
  mem : symbol ∈ symbols
  begins : symbol <+: rest
  longest : ∀ s ∈ symbols, s <+: rest → s.length ≤ symbol.length

/-
As far as the input agrees with a symbol it agrees with one that is there as a whole.
-/
def Completes (symbols : List Bytes) (rest : Bytes) : Prop :=
  ∀ s ∈ symbols, ∀ p, p <+: s → p ≠ [] → p = seen rest p.length → ∃ s' ∈ symbols, p <+: s' ∧ s' <+: rest

theorem Longest.eq_of {symbols : List Bytes} {rest s s' : Bytes} (h : Longest symbols rest s)
    (h' : Longest symbols rest s')
    : s = s' := by
  have hle := h'.longest s h.mem h.begins
  have hge := h.longest s' h'.mem h'.begins
  exact (List.prefix_of_prefix_length_le h.begins h'.begins hle).eq_of_length_le hge

theorem get_snd (input : Bytes) : (get input).2 = input.tail := by
  cases input <;> rfl

section Seen

variable {rest : Bytes} {n m : Nat}

@[simp]
theorem length_seen (rest : Bytes) (n : Nat) : (seen rest n).length = n := by
  simp [seen]

theorem take_seen (rest : Bytes) (h : m ≤ n) : (seen rest n).take m = seen rest m := by
  unfold seen
  rw [List.take_take, Nat.min_eq_left h, List.take_append, List.take_append, List.take_replicate, List.take_replicate]
  apply congrArg (rest.take m ++ List.replicate · 0)
  omega

theorem seen_isPrefix (rest : Bytes) (h : m ≤ n) : seen rest m <+: seen rest n := by
  rw [← take_seen rest h]
  apply List.take_prefix

theorem seen_cons (rest : Bytes) (n : Nat) : seen rest (n + 1) = peek rest :: seen rest.tail n := by
  cases rest with
  | nil =>
    unfold seen
    rw [List.nil_append, List.take_replicate, Nat.min_self]
    simp [List.replicate_succ, peek, get]
  | cons c rest =>
    change _ = c :: seen rest n
    unfold seen
    rw [List.cons_append, List.take_succ_cons, List.take_append, List.take_append, List.take_replicate,
      List.take_replicate]
    apply congrArg fun k => c :: (rest.take n ++ List.replicate k 0)
    omega

theorem seen_succ (rest : Bytes) (n : Nat) : seen rest (n + 1) = seen rest n ++ [peek (rest.drop n)] := by
  induction n generalizing rest with
  | zero => rw [seen_cons]; rfl
  | succ n ih => rw [seen_cons, ih, seen_cons rest n, List.cons_append, List.drop_tail]

theorem seen_of_isPrefix {p : Bytes} (h : p <+: rest) : seen rest p.length = p := by
  obtain ⟨rest, rfl⟩ := h
  unfold seen
  rw [List.append_assoc, List.take_left]

theorem isPrefix_seen_of_le (h : n ≤ rest.length) : seen rest n <+: rest := by
  unfold seen
  rw [List.take_append_of_le_length h]
  apply List.take_prefix

end Seen

namespace Analyser

variable (lex : Analyser)

-- The number of characters that are taken for a symbol
structure Takes (rest : Bytes) (n : Nat) : Prop where
  found : ∀ m, 1 ≤ m → m ≤ n → ∃ s ∈ lex.symbols, seen rest m <+: s
  stop : ¬∃ s ∈ lex.symbols, seen rest (n + 1) <+: s

def outcome (rest : Bytes) (n : Nat) : Except Exception (Token × Bytes) :=
  if n = 0 then
    throw { error := chars "Unrecognised token near '" ++ seen rest 1 ++ chars "'" }
  else
    return ({ type := .symbol, value := seen rest n }, rest.drop n)

theorem any_take_iff (rest : Bytes) (n : Nat)
    : (lex.symbols.any fun candidate => candidate.take n == seen rest n) = true
        ↔ ∃ s ∈ lex.symbols, seen rest n <+: s := by
  simp only [List.any_eq_true, beq_iff_eq]
  apply exists_congr
  intro s
  apply and_congr_right
  intro _
  rw [List.prefix_iff_eq_take, length_seen, eq_comm]

theorem readSymbolLoop_eq (c : UInt8) (input : Bytes) (fuel len : Nat) (hlen : 1 ≤ len) (hpos : 1 < len + fuel)
    (hfuel : ∀ s ∈ lex.symbols, s.length < len + fuel)
    (hfound : ∀ m, 1 ≤ m → m < len → ∃ s ∈ lex.symbols, seen (c :: input) m <+: s)
    : ∃ n, lex.Takes (c :: input) n
        ∧ lex.readSymbolLoop (seen (c :: input) len) (input.drop (len - 2)) fuel len
            = outcome (c :: input) n := by
  have hdrop (len : Nat) (hlen : 1 < len) : (c :: input).drop (len - 1) = input.drop (len - 2) := by
    have hsucc : len - 1 = (len - 2) + 1 := by omega
    rw [hsucc, List.drop_succ_cons]
  induction fuel generalizing len with
  | zero =>
    have hmany : 1 < len := by omega
    refine ⟨len - 1, ⟨fun m hm hle => hfound m hm (by omega), ?_⟩, ?_⟩
    . rintro ⟨s, hs, hbegins⟩
      have hlength := hbegins.length_le
      have hlt := hfuel s hs
      rw [length_seen] at hlength
      omega
    . unfold outcome
      rw [readSymbolLoop, if_neg (by omega), take_seen _ (by omega), hdrop len hmany]
  | succ fuel ih =>
    rw [readSymbolLoop]
    by_cases hmore : ∃ s ∈ lex.symbols, seen (c :: input) len <+: s
    . have hconsumed : (if len > 1 then (get (input.drop (len - 2))).2 else input.drop (len - 2))
          = input.drop (len - 1) := by
        split
        . next hmany =>
          have hsucc : len - 1 = (len - 2) + 1 := by omega
          rw [get_snd, List.tail_drop, hsucc]
        . next hone =>
          have heq : len - 2 = len - 1 := by omega
          rw [heq]
      have hpeek : seen (c :: input) len ++ [peek (input.drop (len - 1))] = seen (c :: input) (len + 1) := by
        have hsucc : len = (len - 1) + 1 := by omega
        rw [seen_succ]
        conv_rhs => rw [hsucc, List.drop_succ_cons, ← hsucc]
      rw [if_pos ((any_take_iff lex _ _).mpr hmore), hconsumed]
      dsimp only
      rw [hpeek]
      have hnext : len + 1 - 2 = len - 1 := by omega
      rw [← hnext]
      apply ih (len + 1) (by omega) (by omega)
      . intro s hs
        have hlt := hfuel s hs
        omega
      . intro m hm hlt
        by_cases heq : m = len
        . rw [heq]
          exact hmore
        . exact hfound m hm (by omega)
    . rw [if_neg fun h => hmore ((any_take_iff lex _ _).mp h)]
      refine ⟨len - 1, ⟨fun m hm hle => hfound m hm (by omega), ?_⟩, ?_⟩
      . have hsucc : len - 1 + 1 = len := by omega
        rwa [hsucc]
      . unfold outcome
        by_cases hone : len = 1
        . rw [if_pos hone, if_pos (by omega), hone]
        . rw [if_neg hone, if_neg (by omega), take_seen _ (by omega), hdrop len (by omega)]

theorem le_foldr_max {ls : List Nat} {l : Nat} (h : l ∈ ls) : l ≤ ls.foldr max 0 := by
  induction ls with
  | nil => contradiction
  | cons l' ls ih =>
    rw [List.foldr_cons]
    cases List.mem_cons.mp h with
    | inl heq => exact heq ▸ Nat.le_max_left _ _
    | inr hmem => exact Nat.le_trans (ih hmem) (Nat.le_max_right _ _)

theorem readSymbolToken_eq (c : UInt8) (input : Bytes)
    : ∃ n, lex.Takes (c :: input) n ∧ lex.readSymbolToken c input = outcome (c :: input) n := by
  have hlength : ∀ s ∈ lex.symbols, s.length < 1 + ((lex.symbols.map List.length).foldr max 0 + 1) := by
    intro s hs
    have hle : s.length ≤ (lex.symbols.map List.length).foldr max 0 := le_foldr_max (List.mem_map_of_mem hs)
    omega
  apply lex.readSymbolLoop_eq c input _ 1 (Nat.le_refl 1) (by omega) hlength
  intro m hm hlt
  omega

variable {lex} {rest : Bytes} {n m : Nat}

theorem Takes.le (h : lex.Takes rest n) {s : Bytes} (hs : s ∈ lex.symbols) (hbegins : seen rest m <+: s) : m ≤ n := by
  rw [← Nat.not_lt]
  intro hlt
  exact h.stop ⟨s, hs, (seen_isPrefix rest hlt).trans hbegins⟩

theorem Takes.completes_iff (h : lex.Takes rest n)
    : Completes lex.symbols rest ↔ n = 0 ∨ seen rest n ∈ lex.symbols ∧ seen rest n <+: rest := by
  refine ⟨?_, ?_⟩
  . intro hcompletes
    rw [or_iff_not_imp_left]
    intro hn
    obtain ⟨s, hs, hbegins⟩ := h.found n (Nat.one_le_iff_ne_zero.mpr hn) (Nat.le_refl n)
    have hne : seen rest n ≠ [] := by
      intro hnil
      have hlength := length_seen rest n
      rw [hnil] at hlength
      exact hn hlength.symm
    obtain ⟨s', hs', hp, hrest⟩ := hcompletes s hs _ hbegins hne (by rw [length_seen])
    have hle : s'.length ≤ n := h.le hs' (by simp only [seen_of_isPrefix hrest, List.prefix_rfl])
    have heq : seen rest n = s' := hp.eq_of_length_le (by rwa [length_seen])
    rw [heq]
    exact ⟨hs', hrest⟩
  . rintro hn s hs p hp hne hseen
    rw [hseen] at hp
    have hle : p.length ≤ n := h.le hs hp
    have hpos : 0 < p.length := List.length_pos_of_ne_nil hne
    obtain ⟨hmem, hrest⟩ := hn.resolve_left (by omega)
    refine ⟨_, hmem, ?_, hrest⟩
    rw [hseen]
    exact seen_isPrefix rest hle

theorem Takes.longest (h : lex.Takes rest n) (hmem : seen rest n ∈ lex.symbols) (hrest : seen rest n <+: rest)
    : Longest lex.symbols rest (seen rest n) := by
  refine ⟨hmem, hrest, ?_⟩
  intro s hs hbegins
  rw [length_seen]
  exact h.le hs (by simp only [seen_of_isPrefix hbegins, List.prefix_rfl])

theorem Takes.not_isPrefix (h : lex.Takes rest 0) {s : Bytes} (hs : s ∈ lex.symbols) (hbegins : s <+: rest) : s = [] := by
  have hle : s.length ≤ 0 := h.le hs (by simp only [seen_of_isPrefix hbegins, List.prefix_rfl])
  exact List.eq_nil_of_length_eq_zero (Nat.le_zero.mp hle)

/-
Tokens.
-/

-- What is neither the end of the input nor the beginning of a name, a number or a string
def isSymbolStart : Bytes → Bool
  | [] => false
  | c :: input =>
    c ≠ 0 && !(isAlpha c || c = 95) && !isDigit c && c ≠ 34
      && !(c = 45 && (isDigit (peek input) || peek input = 46)) && !(c = 46 && isDigit (peek input))

variable (lex)

structure CommentAt (rest : Bytes) : Prop where
  start : isSymbolStart rest = true
  -- There are no comments that begin with these.
  sign : rest.head? ≠ some 45 ∧ rest.head? ≠ some 46
  symbol : Longest lex.symbols rest lex.lineCommentSymbol
  ne_nil : lex.lineCommentSymbol ≠ []

def behindComment (rest : Bytes) : Bytes :=
  ((rest.drop lex.lineCommentSymbol.length).dropWhile fun c => c ≠ 0 ∧ c ≠ 10).tail

-- Where a symbol has to be read if a token is read from the input
inductive Comes : Bytes → Bytes → Prop where
  | symbol {input : Bytes} (h : isSymbolStart (input.dropWhile Text.isSpace) = true)
    : Comes input (input.dropWhile Text.isSpace)
  | comment {input rest : Bytes} (h : lex.CommentAt (input.dropWhile Text.isSpace))
      (hrest : Comes (lex.behindComment (input.dropWhile Text.isSpace)) rest)
    : Comes input rest

structure ReadsSymbols (input : Bytes) (result : Except Exception (Token × Bytes)) : Prop where
  longest : ∀ token rest', result = .ok (token, rest') → token.type = .symbol
    → ∃ rest, lex.Comes input rest ∧ ¬lex.CommentAt rest ∧ Longest lex.symbols rest token.value
        ∧ rest = token.value ++ rest'
  reads : ∀ rest, lex.Comes input rest → ¬lex.CommentAt rest → (∃ s ∈ lex.symbols, s ≠ [] ∧ s <+: rest)
    → ∃ token rest', result = .ok (token, rest') ∧ token.type = .symbol
  fails : ∀ rest, lex.Comes input rest → (∀ s ∈ lex.symbols, s ≠ [] → ¬s <+: rest) → ∃ e, result = .error e

-- The symbol for a line comment has been added as a symbol, or there is none.
def Built : Prop := lex.lineCommentSymbol = [] ∨ lex.lineCommentSymbol ∈ lex.symbols

variable {lex} {input : Bytes}

theorem built_new (input : Bytes) : (new input).Built := .inl rfl

theorem Built.addSymbol (h : lex.Built) (symbol : Bytes) : (lex.addSymbol symbol).Built :=
  h.imp_right (List.mem_append_left _)

theorem built_addLineCommentSymbol (symbol : Bytes) : (lex.addLineCommentSymbol symbol).Built :=
  .inr (List.mem_append_right _ (List.mem_singleton_self symbol))

theorem type_readNumberToken {c : UInt8} {token : Token} {rest' : Bytes}
    (h : readNumberToken c rest = .ok (token, rest'))
    : token.type = .number := by
  unfold readNumberToken at h
  generalize readDecimals (c :: rest.takeWhile isDigit) (rest.dropWhile isDigit) = decimals at h
  obtain ⟨value, input⟩ := decimals
  cases hexponent : readExponent value input with
  | error e =>
    simp only [hexponent] at h
    contradiction
  | ok exponent =>
    simp only [hexponent] at h
    cases h
    rfl

theorem type_readStringToken {token : Token} {rest' : Bytes} (h : readStringToken rest = .ok (token, rest'))
    : token.type = .string := by
  unfold readStringToken at h
  cases hloop : readStringLoop [] rest with
  | error e =>
    rw [hloop] at h
    contradiction
  | ok value =>
    rw [hloop] at h
    cases h
    rfl

theorem readTokenLoop_of_not_start (hstart : isSymbolStart (input.dropWhile Text.isSpace) = false) (fuel : Nat)
    {token : Token} {rest' : Bytes} (h : lex.readTokenLoop (fuel + 1) input = .ok (token, rest'))
    : token.type ≠ .symbol := by
  rw [readTokenLoop] at h
  cases hinput : input.dropWhile Text.isSpace with
  | nil =>
    rw [hinput] at h
    cases h
    exact Token.Type.noConfusion
  | cons c rest =>
    rw [hinput] at h hstart
    dsimp only [get] at h
    unfold isSymbolStart at hstart
    by_cases hzero : c = 0
    . rw [if_pos hzero] at h
      cases h
      exact Token.Type.noConfusion
    rw [if_neg hzero] at h
    by_cases hname : isAlpha c = true ∨ c = 95
    . rw [if_pos hname] at h
      cases h
      exact Token.Type.noConfusion
    rw [if_neg hname] at h
    by_cases hdigit : isDigit c = true
    . rw [if_pos hdigit] at h
      rw [type_readNumberToken h]
      exact Token.Type.noConfusion
    rw [if_neg hdigit] at h
    by_cases hquote : c = 34
    . rw [if_pos hquote] at h
      rw [type_readStringToken h]
      exact Token.Type.noConfusion
    -- What is left is a number that begins with a sign or a point.
    rw [if_neg hquote] at h
    simp only [Bool.not_eq_true] at hdigit
    rw [not_or, Bool.not_eq_true] at hname
    by_cases hminus : c = 45 ∧ (isDigit (peek rest) = true ∨ peek rest = 46)
    . rw [if_pos hminus.1, if_pos hminus.2] at h
      rw [type_readNumberToken h]
      exact Token.Type.noConfusion
    by_cases hdot : c = 46 ∧ isDigit (peek rest) = true
    . rw [if_neg (by rw [hdot.1]; decide), if_pos hdot.1, if_pos hdot.2] at h
      rw [type_readNumberToken h]
      exact Token.Type.noConfusion
    . have hno : ¬c = 45 ∨ isDigit (peek rest) = false ∧ ¬peek rest = 46 := by
        rw [← Bool.not_eq_true, ← not_or, ← not_and_or]
        exact hminus
      have hpoint : ¬c = 45 ∨ isDigit (peek rest) = false ∧ ¬peek rest = 46
          → c = 46 ∧ isDigit (peek rest) = true := by
        simpa [hzero, hname, hdigit, hquote] using hstart
      exact absurd (hpoint hno) hdot

theorem readTokenLoop_of_start {c : UInt8} (hinput : input.dropWhile Text.isSpace = c :: rest)
    (hstart : isSymbolStart (c :: rest) = true) (fuel : Nat)
    : lex.readTokenLoop (fuel + 1) input
        = (lex.readSymbolToken c rest).bind fun (token, input) =>
            if c ≠ 45 ∧ c ≠ 46 ∧ token.type = .symbol ∧ token.value = lex.lineCommentSymbol then
              lex.readTokenLoop fuel (input.dropWhile fun c => c ≠ 0 ∧ c ≠ 10).tail
            else
              .ok (token, input) := by
  unfold isSymbolStart at hstart
  simp only [Bool.and_eq_true, Bool.not_eq_true', Bool.or_eq_false_iff, decide_eq_true_eq, Bool.and_eq_false_iff,
    decide_eq_false_iff_not] at hstart
  obtain ⟨⟨⟨⟨⟨hzero, halpha, hunderscore⟩, hdigit⟩, hquote⟩, hminus⟩, hdot⟩ := hstart
  rw [readTokenLoop, hinput]
  dsimp only [get]
  rw [if_neg hzero, if_neg (by simp [halpha, hunderscore]), if_neg (by simp [hdigit]), if_neg hquote]
  have hpure (result : Except Exception (Token × Bytes))
      : result = result.bind fun (token, input) => .ok (token, input) := by
    cases result <;> rfl
  by_cases hsign : c = 45
  . have hnumber : ¬(isDigit (peek rest) = true ∨ peek rest = 46) := by
      rintro (h | h)
      . rcases hminus with hne | ⟨hfalse, -⟩
        . exact hne hsign
        . rw [hfalse] at h
          contradiction
      . rcases hminus with hne | ⟨-, hne⟩
        . exact hne hsign
        . exact hne h
    simp only [if_neg hnumber, ne_eq, hsign, not_true_eq_false, false_and, if_false]
    apply hpure
  . by_cases hpoint : c = 46
    . have hnumber : ¬isDigit (peek rest) = true := by
        rw [hdot.resolve_left fun hne => hne hpoint]
        exact Bool.false_ne_true
      rw [if_neg hsign]
      simp only [if_neg hnumber, ne_eq, hpoint, not_true_eq_false, false_and, and_false, if_false]
      apply hpure
    . simp only [ne_eq, hsign, hpoint, not_false_eq_true, true_and]
      rfl

/-
The places at which a symbol has to be read.
-/

theorem isSymbolStart_of_comes (h : lex.Comes input rest) : isSymbolStart (input.dropWhile Text.isSpace) = true := by
  cases h with
  | symbol h => exact h
  | comment h _ => exact h.start

theorem Comes.eq_of_not_comment (h : lex.Comes input rest) (hcomment : ¬lex.CommentAt (input.dropWhile Text.isSpace))
    : rest = input.dropWhile Text.isSpace := by
  cases h with
  | symbol _ => rfl
  | comment h _ => exact absurd h hcomment

theorem comes_iff_of_comment (hcomment : lex.CommentAt (input.dropWhile Text.isSpace))
    : lex.Comes input rest
        ↔ rest = input.dropWhile Text.isSpace
          ∨ lex.Comes (lex.behindComment (input.dropWhile Text.isSpace)) rest := by
  refine ⟨?_, ?_⟩
  . intro h
    cases h with
    | symbol _ => exact .inl rfl
    | comment _ hrest => exact .inr hrest
  . rintro (rfl | hrest)
    . exact .symbol hcomment.start
    . exact .comment hcomment hrest

theorem readsSymbols_iff_of_comment {result : Except Exception (Token × Bytes)}
    (hcomment : lex.CommentAt (input.dropWhile Text.isSpace))
    : lex.ReadsSymbols input result
        ↔ lex.ReadsSymbols (lex.behindComment (input.dropWhile Text.isSpace)) result := by
  refine ⟨?_, ?_⟩
  . rintro ⟨hlongest, hreads, hfails⟩
    refine ⟨?_, ?_, ?_⟩
    . intro token rest' hok htype
      obtain ⟨rest, hcomes, hnot, hrest⟩ := hlongest token rest' hok htype
      cases (comes_iff_of_comment hcomment).mp hcomes with
      | inl heq => exact absurd (heq ▸ hcomment) hnot
      | inr hcomes => exact ⟨rest, hcomes, hnot, hrest⟩
    . intro rest hcomes
      exact hreads rest (.comment hcomment hcomes)
    . intro rest hcomes
      exact hfails rest (.comment hcomment hcomes)
  . rintro ⟨hlongest, hreads, hfails⟩
    refine ⟨?_, ?_, ?_⟩
    . intro token rest' hok htype
      obtain ⟨rest, hcomes, hrest⟩ := hlongest token rest' hok htype
      exact ⟨rest, .comment hcomment hcomes, hrest⟩
    . intro rest hcomes hnot
      cases (comes_iff_of_comment hcomment).mp hcomes with
      | inl heq => exact absurd (heq ▸ hcomment) hnot
      | inr hcomes => exact hreads rest hcomes hnot
    . intro rest hcomes hno
      cases (comes_iff_of_comment hcomment).mp hcomes with
      | inl heq =>
        subst heq
        exact absurd hcomment.symbol.begins (hno _ hcomment.symbol.mem hcomment.ne_nil)
      | inr hcomes => exact hfails rest hcomes hno

theorem readsSymbols_iff_of_not_comment {result : Except Exception (Token × Bytes)}
    (hstart : isSymbolStart (input.dropWhile Text.isSpace) = true)
    (hcomment : ¬lex.CommentAt (input.dropWhile Text.isSpace))
    : lex.ReadsSymbols input result
        ↔ (∀ token rest', result = .ok (token, rest') → token.type = .symbol
            → Longest lex.symbols (input.dropWhile Text.isSpace) token.value
              ∧ input.dropWhile Text.isSpace = token.value ++ rest')
          ∧ ((∃ s ∈ lex.symbols, s ≠ [] ∧ s <+: input.dropWhile Text.isSpace)
            → ∃ token rest', result = .ok (token, rest') ∧ token.type = .symbol)
          ∧ ((∀ s ∈ lex.symbols, s ≠ [] → ¬s <+: input.dropWhile Text.isSpace) → ∃ e, result = .error e) := by
  refine ⟨?_, ?_⟩
  . rintro ⟨hlongest, hreads, hfails⟩
    refine ⟨?_, hreads _ (.symbol hstart) hcomment, hfails _ (.symbol hstart)⟩
    intro token rest' hok htype
    obtain ⟨rest, hcomes, -, hrest⟩ := hlongest token rest' hok htype
    rwa [hcomes.eq_of_not_comment hcomment] at hrest
  . rintro ⟨hlongest, hreads, hfails⟩
    refine ⟨?_, ?_, ?_⟩
    . intro token rest' hok htype
      exact ⟨_, .symbol hstart, hcomment, hlongest token rest' hok htype⟩
    . intro rest hcomes _
      rw [hcomes.eq_of_not_comment hcomment]
      exact hreads
    . intro rest hcomes
      rw [hcomes.eq_of_not_comment hcomment]
      exact hfails

theorem length_behindComment_lt (h : lex.CommentAt rest) : (lex.behindComment rest).length < rest.length := by
  have hpos := List.length_pos_of_ne_nil h.ne_nil
  have hle := h.symbol.begins.length_le
  have hdrop := ((rest.drop lex.lineCommentSymbol.length).dropWhile_sublist fun c => c ≠ 0 ∧ c ≠ 10).length_le
  unfold behindComment
  rw [List.length_tail]
  rw [List.length_drop] at hdrop
  omega

theorem Comes.length_le (h : lex.Comes input rest) : rest.length ≤ input.length := by
  induction h with
  | symbol _ => exact (List.dropWhile_sublist _).length_le
  | @comment input rest h _ ih =>
    have hlt := length_behindComment_lt h
    have hle := (input.dropWhile_sublist Text.isSpace).length_le
    omega

theorem readTokenLoop_nil (fuel : Nat) : lex.readTokenLoop fuel [] = .ok ({ type := .end_, value := [] }, []) := by
  cases fuel <;> rfl

section Place

variable {fuel : Nat} {c : UInt8}

-- The symbol is there as a whole, or there is none.
theorem readsSymbols_of_completes (hinput : input.dropWhile Text.isSpace = c :: rest)
    (hstart : isSymbolStart (c :: rest) = true) (hcomment : ¬lex.CommentAt (c :: rest))
    (htakes : lex.Takes (c :: rest) n) (hn : lex.readSymbolToken c rest = outcome (c :: rest) n)
    (hcompletes : Completes lex.symbols (c :: rest))
    : lex.ReadsSymbols input (lex.readTokenLoop (fuel + 1) input) := by
  rw [readTokenLoop_of_start hinput hstart fuel, hn]
  rw [← hinput] at hstart hcomment
  rw [readsSymbols_iff_of_not_comment hstart hcomment, hinput]
  rw [hinput] at hstart hcomment
  unfold outcome
  by_cases hzero : n = 0
  . subst hzero
    rw [if_pos rfl]
    refine ⟨?_, ?_, fun _ => ⟨_, rfl⟩⟩
    . intro token rest' hok
      cases hok
    . rintro ⟨s, hs, hne, hbegins⟩
      exact absurd (htakes.not_isPrefix hs hbegins) hne
  . obtain ⟨hmem, hbegins⟩ := (htakes.completes_iff.mp hcompletes).resolve_left hzero
    have hlongest := htakes.longest hmem hbegins
    have hne : seen (c :: rest) n ≠ [] := by
      rw [← List.length_pos_iff, length_seen]
      omega
    have hnot : ¬(c ≠ 45 ∧ c ≠ 46 ∧ seen (c :: rest) n = lex.lineCommentSymbol) := by
      rintro ⟨hminus, hpoint, heq⟩
      apply hcomment
      exact ⟨hstart, ⟨by simpa using hminus, by simpa using hpoint⟩, heq ▸ hlongest, heq ▸ hne⟩
    have hsplit : c :: rest = seen (c :: rest) n ++ (c :: rest).drop n := by
      have h := List.prefix_iff_eq_append.mp hbegins
      rw [length_seen] at h
      exact h.symm
    rw [if_neg hzero]
    dsimp only [pure, Except.pure, Except.bind]
    rw [if_neg fun h => hnot ⟨h.1, h.2.1, h.2.2.2⟩]
    refine ⟨?_, fun _ => ⟨_, _, rfl, rfl⟩, ?_⟩
    . intro token rest' hok _
      cases hok
      exact ⟨hlongest, hsplit⟩
    . intro hno
      exact absurd hbegins (hno _ hmem hne)

-- What is taken for a symbol is only the beginning of one.
theorem not_readsSymbols_of_not_completes (hbuilt : lex.Built) (hinput : input.dropWhile Text.isSpace = c :: rest)
    (hstart : isSymbolStart (c :: rest) = true) (htakes : lex.Takes (c :: rest) n)
    (hn : lex.readSymbolToken c rest = outcome (c :: rest) n) (hcompletes : ¬Completes lex.symbols (c :: rest))
    : ¬lex.ReadsSymbols input (lex.readTokenLoop (fuel + 1) input) := by
  rw [htakes.completes_iff, not_or] at hcompletes
  obtain ⟨hzero, hwrong⟩ := hcompletes
  rw [readTokenLoop_of_start hinput hstart fuel, hn]
  unfold outcome
  rw [if_neg hzero]
  dsimp only [pure, Except.pure, Except.bind]
  split
  . next h =>
    -- Only what is not there can be taken for the symbol of a comment.
    obtain ⟨-, -, -, heq⟩ := h
    have hne : seen (c :: rest) n ≠ [] := by
      rw [← List.length_pos_iff, length_seen]
      omega
    have hmem : seen (c :: rest) n ∈ lex.symbols := by
      rw [heq] at hne ⊢
      exact hbuilt.resolve_left hne
    have hpast : (c :: rest).length < n := by
      rw [← Nat.not_le]
      exact fun hle => hwrong ⟨hmem, isPrefix_seen_of_le hle⟩
    have hcomment : ¬lex.CommentAt (input.dropWhile Text.isSpace) := by
      rintro ⟨-, -, hsymbol, -⟩
      rw [hinput, ← heq] at hsymbol
      exact hwrong ⟨hmem, hsymbol.begins⟩
    rw [List.drop_of_length_le (Nat.le_of_lt hpast), List.dropWhile_nil, List.tail_nil, readTokenLoop_nil,
      readsSymbols_iff_of_not_comment (by rw [hinput]; exact hstart) hcomment]
    rintro ⟨-, hreads, hfails⟩
    by_cases hsome : ∃ s ∈ lex.symbols, s ≠ [] ∧ s <+: input.dropWhile Text.isSpace
    . obtain ⟨token, rest', hok, htype⟩ := hreads hsome
      cases hok
      contradiction
    . obtain ⟨e, he⟩ := hfails fun s hs hne hbegins => hsome ⟨s, hs, hne, hbegins⟩
      contradiction
  . intro h
    obtain ⟨place, hcomes, hnot, hlongest, heq⟩ := h.longest _ _ rfl rfl
    have hplace : place = c :: rest := by
      by_cases hcomment : lex.CommentAt (input.dropWhile Text.isSpace)
      . cases (comes_iff_of_comment hcomment).mp hcomes with
        | inl heq => rw [heq, hinput]
        | inr hcomes =>
          have hlt := length_behindComment_lt hcomment
          have hle := hcomes.length_le
          have hlength := congrArg List.length heq
          rw [List.length_append, length_seen, List.length_drop] at hlength
          rw [hinput] at hlt hle
          omega
      . rw [hcomes.eq_of_not_comment hcomment, hinput]
    rw [hplace] at hlongest
    exact hwrong ⟨hlongest.mem, hlongest.begins⟩

-- The comment is read, and the token behind it.
theorem readTokenLoop_of_comment {rest : Bytes} (hinput : input.dropWhile Text.isSpace = c :: rest)
    (hcomment : lex.CommentAt (c :: rest)) (htakes : lex.Takes (c :: rest) n)
    (hn : lex.readSymbolToken c rest = outcome (c :: rest) n) (hcompletes : Completes lex.symbols (c :: rest))
    : lex.readTokenLoop (fuel + 1) input = lex.readTokenLoop fuel (lex.behindComment (c :: rest)) := by
  have hzero : n ≠ 0 := by
    rintro rfl
    exact hcomment.ne_nil (htakes.not_isPrefix hcomment.symbol.mem hcomment.symbol.begins)
  obtain ⟨hmem, hbegins⟩ := (htakes.completes_iff.mp hcompletes).resolve_left hzero
  have heq := (htakes.longest hmem hbegins).eq_of hcomment.symbol
  have hlength : n = lex.lineCommentSymbol.length := by rw [← heq, length_seen]
  have hsign := hcomment.sign
  rw [List.head?_cons, ne_eq, ne_eq, Option.some.injEq, Option.some.injEq] at hsign
  rw [readTokenLoop_of_start hinput hcomment.start fuel, hn]
  unfold outcome
  rw [if_neg hzero]
  dsimp only [pure, Except.pure, Except.bind]
  rw [if_pos ⟨hsign.1, hsign.2, rfl, heq⟩, hlength]
  rfl

end Place

theorem readTokenLoop_iff (hbuilt : lex.Built) (fuel : Nat) (input : Bytes) (hfuel : input.length < fuel)
    : lex.ReadsSymbols input (lex.readTokenLoop fuel input)
        ↔ ∀ rest, lex.Comes input rest → Completes lex.symbols rest := by
  induction fuel generalizing input with
  | zero => contradiction
  | succ fuel ih =>
    by_cases hstart : isSymbolStart (input.dropWhile Text.isSpace) = true
    . obtain ⟨c, rest, hinput⟩ : ∃ c rest, input.dropWhile Text.isSpace = c :: rest := by
        apply List.exists_cons_of_ne_nil
        intro hnil
        rw [hnil] at hstart
        contradiction
      obtain ⟨n, htakes, hn⟩ := lex.readSymbolToken_eq c rest
      rw [hinput] at hstart
      have hplace : lex.Comes input (c :: rest) := by
        rw [← hinput] at hstart ⊢
        exact .symbol hstart
      by_cases hcompletes : Completes lex.symbols (c :: rest)
      . by_cases hcomment : lex.CommentAt (c :: rest)
        . have hlt := length_behindComment_lt hcomment
          have hle := (input.dropWhile_sublist Text.isSpace).length_le
          rw [hinput] at hle
          rw [readTokenLoop_of_comment hinput hcomment htakes hn hcompletes]
          rw [← hinput] at hcomment hcompletes
          rw [readsSymbols_iff_of_comment hcomment, hinput, ih _ (by omega)]
          refine ⟨?_, ?_⟩
          . intro h rest' hcomes
            cases (comes_iff_of_comment hcomment).mp hcomes with
            | inl heq => rwa [heq]
            | inr hcomes =>
              rw [hinput] at hcomes
              exact h rest' hcomes
          . intro h rest' hcomes
            rw [← hinput] at hcomes
            exact h rest' (.comment hcomment hcomes)
        . refine iff_of_true (readsSymbols_of_completes hinput hstart hcomment htakes hn hcompletes) ?_
          intro rest' hcomes
          rw [← hinput] at hcomment
          rwa [hcomes.eq_of_not_comment hcomment, hinput]
      . refine iff_of_false (not_readsSymbols_of_not_completes hbuilt hinput hstart htakes hn hcompletes) ?_
        exact fun h => hcompletes (h _ hplace)
    . have hnowhere : ∀ rest, ¬lex.Comes input rest := fun rest hcomes => hstart (isSymbolStart_of_comes hcomes)
      refine iff_of_true ⟨?_, ?_, ?_⟩ fun rest hcomes => absurd hcomes (hnowhere rest)
      . intro token rest' hok htype
        exact absurd htype (readTokenLoop_of_not_start (Bool.eq_false_iff.mpr hstart) fuel hok)
      . exact fun rest hcomes => absurd hcomes (hnowhere rest)
      . exact fun rest hcomes => absurd hcomes (hnowhere rest)

/-
What `read_token` does with the input if no token has been put back.
-/
theorem readToken_readsSymbols_iff (lex : Analyser) (hbuilt : lex.Built) (hpending : lex.pendingTokens = [])
    : lex.ReadsSymbols lex.input (lex.readToken.map fun (token, lex') => (token, lex'.input))
        ↔ ∀ rest, lex.Comes lex.input rest → Completes lex.symbols rest := by
  have hread : (lex.readToken.map fun (token, lex') => (token, lex'.input))
      = lex.readTokenLoop (lex.input.length + 1) lex.input := by
    unfold readToken
    rw [hpending]
    cases lex.readTokenLoop (lex.input.length + 1) lex.input <;> rfl
  rw [hread]
  apply readTokenLoop_iff hbuilt
  apply Nat.lt_succ_self

/-
Symbols that can be read a character at a time.
-/
theorem completes_of_take {symbols : List Bytes} (hclosed : ∀ s ∈ symbols, ∀ n, n < s.length → s.take (n + 1) ∈ symbols)
    (hzero : ∀ s ∈ symbols, 0 ∉ s) (rest : Bytes)
    : Completes symbols rest := by
  intro s hs p hp hne hseen
  have hpos := List.length_pos_of_ne_nil hne
  have htake := List.prefix_iff_eq_take.mp hp
  have hmem := hclosed s hs (p.length - 1) (by have := hp.length_le; omega)
  rw [Nat.sub_add_cancel hpos, ← htake] at hmem
  refine ⟨p, hmem, List.prefix_rfl, ?_⟩
  have hle : p.length ≤ rest.length := by
    rw [← Nat.not_lt]
    intro hlt
    have hend : 0 ∈ seen rest p.length := by
      have hpast : List.replicate (p.length - rest.length) 0 <:+ seen rest p.length := by
        unfold seen
        rw [List.take_append, List.take_replicate, Nat.min_eq_left (Nat.sub_le ..)]
        apply List.suffix_append
      apply hpast.subset
      rw [List.mem_replicate]
      exact ⟨by omega, rfl⟩
    rw [← hseen] at hend
    exact hzero s hs (hp.subset hend)
  rw [hseen]
  exact isPrefix_seen_of_le hle

theorem readToken_readsSymbols_plus
    : (((new [32, 43, 43, 43]).addSymbol [43, 43]).addSymbol [43]).ReadsSymbols [32, 43, 43, 43]
        ((((new [32, 43, 43, 43]).addSymbol [43, 43]).addSymbol [43]).readToken.map
          fun (token, lex') => (token, lex'.input)) :=
  (readToken_readsSymbols_iff (((new [32, 43, 43, 43]).addSymbol [43, 43]).addSymbol [43])
    (((built_new _).addSymbol _).addSymbol _) rfl).mpr
    fun rest _ => completes_of_take (by decide) (by decide) rest

-- `<<` is read where there is only `<<=`
theorem not_readToken_readsSymbols
    : ¬((new [60, 60, 32]).addSymbol [60, 60, 61]).ReadsSymbols [60, 60, 32]
        (((new [60, 60, 32]).addSymbol [60, 60, 61]).readToken.map fun (token, lex') => (token, lex'.input)) := by
  intro h
  obtain ⟨rest, -, -, hlongest, -⟩ := h.longest { type := .symbol, value := [60, 60] } [32] rfl rfl
  have hmem := hlongest.mem
  contradiction

end Analyser

end Lex
end ObTools
