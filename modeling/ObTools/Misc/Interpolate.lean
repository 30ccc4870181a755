import ObTools.Misc.PropertyList

/-!
This module contains the model of `PropertyList::interpolate`, and what it makes of every template: the values of its
variables in their places, and the rest of it as it is.
-/

namespace ObTools
namespace Misc
namespace PropertyList

-- `isalnum` or `_`
def isWord (c : UInt8) : Bool :=
  (48 ≤ c && c ≤ 57) || (65 ≤ c && c ≤ 90) || (97 ≤ c && c ≤ 122) || c == 95

-- A known word, or what it is put back as, with the semicolon behind it
def substitute (pl : PropertyList) (var : Bytes) (semicolon : Bool) : Bytes :=
  match SortedMap.find var pl.entries with
  | some v => v
  | none => 36 :: (var ++ if semicolon then [59] else [])

-- What is added for the word behind a `$`, and the text that is left
def interpolateVar (pl : PropertyList) (var : Bytes) : Bytes → Bytes × Bytes
  -- The end of the text, where the character is still 0
  | [] => (if var = [] then [36, 0] else pl.substitute var false, [])
  | d :: rest =>
    if var = [] then
      (if d = 36 ∨ d = 59 then [d] else [36, d], rest)
    else if d = 59 ∨ d = 0 then
      (pl.substitute var (d = 59), rest)
    else
      -- Retry with this character
      (pl.substitute var false, d :: rest)

theorem interpolateVar_cons (pl : PropertyList) (var : Bytes) (d : UInt8) (rest : Bytes)
    : pl.interpolateVar var (d :: rest)
        = if var = [] then
            (if d = 36 ∨ d = 59 then [d] else [36, d], rest)
          else if d = 59 ∨ d = 0 then
            (pl.substitute var (d = 59), rest)
          else
            (pl.substitute var false, d :: rest) :=
  rfl

theorem length_interpolateVar_le (pl : PropertyList) (var rest : Bytes)
    : (pl.interpolateVar var rest).2.length ≤ rest.length := by
  cases rest with
  | nil => exact Nat.le_refl _
  | cons d rest =>
    rw [interpolateVar_cons]
    by_cases hvar : var = []
    . rw [if_pos hvar]
      exact Nat.le_succ _
    . rw [if_neg hvar]
      split
      . exact Nat.le_succ _
      . exact Nat.le_refl _

def interpolate (pl : PropertyList) : Bytes → Bytes
  | [] => []
  | c :: text =>
    if c = 36 then
      let word := pl.interpolateVar (text.takeWhile isWord) (text.dropWhile isWord)
      word.1 ++ pl.interpolate word.2
    else
      c :: pl.interpolate text
termination_by text => text.length
decreasing_by
  . have hword := pl.length_interpolateVar_le (text.takeWhile isWord) (text.dropWhile isWord)
    have hdrop := (List.dropWhile_suffix (l := text) isWord).length_le
    simp only [List.length_cons]
    omega
  . exact Nat.lt_succ_self _

/-
What a template is made of. A variable is closed by a semicolon, or by what is behind it.
-/
inductive Piece where
  | char (c : UInt8)
  | escape (c : UInt8)
  | raw (c : UInt8)
  | var (name : Bytes) (closed : Bool)

namespace Piece

def write : Piece → Bytes
  | char c => [c]
  | escape c => [36, c]
  | raw c => [36, c]
  | var name closed => 36 :: (name ++ if closed then [59] else [])

def value (pl : PropertyList) : Piece → Bytes
  | char c => [c]
  | escape c => [c]
  | raw c => [36, c]
  | var name closed => pl.substitute name closed

-- A character that a word goes on with, or that is dropped behind it
def Joins (c : UInt8) : Prop := isWord c = true ∨ c = 59 ∨ c = 0

def Proper : Piece → Bytes → Prop
  | char c, _ => c ≠ 36
  | escape c, _ => c = 36 ∨ c = 59
  | raw c, _ => isWord c = false ∧ c ≠ 36 ∧ c ≠ 59
  | var name closed, rest =>
    name ≠ [] ∧ (∀ c ∈ name, isWord c = true) ∧ (closed = false → ∀ c ∈ rest.head?, ¬Joins c)

end Piece

def written (pieces : List Piece) : Bytes := pieces.flatMap Piece.write

-- Each piece is proper in front of those behind it, with the text behind them all
def Template (text : Bytes) : List Piece → Prop
  | [] => True
  | p :: pieces => p.Proper (written pieces ++ text) ∧ Template text pieces

variable {c : UInt8} {name rest text : Bytes} {pieces : List Piece}

theorem takeWhile_word (hname : ∀ c ∈ name, isWord c = true) (hrest : ∀ c ∈ rest.head?, isWord c = false)
    : (name ++ rest).takeWhile isWord = name ∧ (name ++ rest).dropWhile isWord = rest := by
  induction name with
  | nil =>
    cases rest with
    | nil => exact ⟨rfl, rfl⟩
    | cons d rest =>
      have hd : isWord d = false := hrest d rfl
      simp [hd]
  | cons c name ih =>
    have hc : isWord c = true := hname c List.mem_cons_self
    obtain ⟨htake, hdrop⟩ := ih fun d hd => hname d (List.mem_cons_of_mem c hd)
    rw [List.cons_append, List.takeWhile_cons, List.dropWhile_cons, hc, if_pos rfl, if_pos rfl, htake]
    exact ⟨rfl, hdrop⟩

theorem interpolate_char (pl : PropertyList) (h : c ≠ 36) (text : Bytes)
    : pl.interpolate (c :: text) = c :: pl.interpolate text := by
  rw [interpolate, if_neg h]

theorem interpolate_dollar (pl : PropertyList) (name rest : Bytes) (hname : ∀ c ∈ name, isWord c = true)
    (hrest : ∀ c ∈ rest.head?, isWord c = false)
    : pl.interpolate (36 :: (name ++ rest))
        = (pl.interpolateVar name rest).1 ++ pl.interpolate (pl.interpolateVar name rest).2 := by
  obtain ⟨htake, hdrop⟩ := takeWhile_word hname hrest
  rw [interpolate, if_pos rfl, htake, hdrop]

theorem interpolate_piece (pl : PropertyList) {p : Piece} (hp : p.Proper rest)
    : pl.interpolate (p.write ++ rest) = p.value pl ++ pl.interpolate rest := by
  cases p with
  | char c => exact interpolate_char pl hp rest
  | escape c =>
    have hc : c = 36 ∨ c = 59 := hp
    have hword : ∀ d ∈ (c :: rest).head?, isWord d = false := by
      rintro d ⟨⟩
      rcases hc with rfl | rfl
      . rfl
      . rfl
    have h := interpolate_dollar pl [] (c :: rest) (List.forall_mem_nil _) hword
    rw [interpolateVar_cons, if_pos rfl, if_pos hc] at h
    exact h
  | raw c =>
    obtain ⟨hword, hdollar, hsemicolon⟩ := hp
    have h := interpolate_dollar pl [] (c :: rest) (List.forall_mem_nil _) (by
      rintro d ⟨⟩
      exact hword)
    rw [interpolateVar_cons, if_pos rfl, if_neg (not_or.mpr ⟨hdollar, hsemicolon⟩)] at h
    exact h
  | var name closed =>
    obtain ⟨hne, hname, hclosed⟩ := hp
    cases closed with
    | true =>
      have h := interpolate_dollar pl name (59 :: rest) hname (by
        rintro d ⟨⟩
        rfl)
      rw [interpolateVar_cons, if_neg hne, if_pos (.inl rfl)] at h
      change pl.interpolate (36 :: (name ++ [59]) ++ rest) = _
      rw [List.cons_append, List.append_assoc]
      exact h
    | false =>
      have hword : ∀ d ∈ rest.head?, isWord d = false := by
        intro d hd
        exact Bool.eq_false_iff.mpr fun hword => hclosed rfl d hd (.inl hword)
      have h := interpolate_dollar pl name rest hname hword
      change pl.interpolate (36 :: (name ++ []) ++ rest) = pl.substitute name false ++ _
      rw [List.append_nil, List.cons_append, h]
      cases rest with
      | nil =>
        unfold interpolateVar
        rw [if_neg hne]
      | cons d rest =>
        have hd : ¬(d = 59 ∨ d = 0) := fun hd => hclosed rfl d rfl (.inr hd)
        rw [interpolateVar_cons, if_neg hne, if_neg hd]

theorem interpolate_template (pl : PropertyList) (h : Template text pieces)
    : pl.interpolate (written pieces ++ text) = pieces.flatMap (Piece.value pl) ++ pl.interpolate text := by
  induction pieces with
  | nil => rfl
  | cons p pieces ih =>
    have hwritten : written (p :: pieces) = p.write ++ written pieces := List.flatMap_cons
    rw [hwritten, List.append_assoc, interpolate_piece pl h.1, ih h.2, List.flatMap_cons, List.append_assoc]

-- What is left at the end: nothing, or a `$`
def Dangling (text : Bytes) : Prop := text = [] ∨ text = [36]

theorem exists_template (text : Bytes) (h : 0 ∉ text)
    : ∃ pieces dangling, text = written pieces ++ dangling ∧ Template dangling pieces ∧ Dangling dangling := by
  -- By the characters that are left: those behind the first piece are a template
  induction hlength : text.length using Nat.strongRecOn generalizing text with
  | ind length ih =>
    have hmore (p : Piece) (rest : Bytes) (htext : text = p.write ++ rest) (hlt : rest.length < text.length)
        (hp : p.Proper rest)
        : ∃ pieces dangling, text = written pieces ++ dangling ∧ Template dangling pieces ∧ Dangling dangling := by
      have hrest : 0 ∉ rest := fun hmem => h (htext ▸ List.mem_append_right _ hmem)
      obtain ⟨pieces, dangling, heq, htemplate, hdangling⟩ := ih rest.length (hlength ▸ hlt) rest hrest rfl
      refine ⟨p :: pieces, dangling, ?_, ⟨heq ▸ hp, htemplate⟩, hdangling⟩
      rw [htext, heq, written, written, List.flatMap_cons, List.append_assoc]
    cases text with
    | nil => exact ⟨[], [], rfl, trivial, .inl rfl⟩
    | cons c text =>
      by_cases hc : c = 36
      . subst hc
        have hsplit := List.takeWhile_append_dropWhile (p := isWord) (l := text)
        have hword : ∀ d ∈ text.takeWhile isWord, isWord d = true := List.all_eq_true.mp List.all_takeWhile
        cases hrest : text.dropWhile isWord with
        | nil =>
          rw [hrest, List.append_nil] at hsplit
          by_cases hname : text = []
          . exact ⟨[], [36], by rw [hname]; rfl, trivial, .inr rfl⟩
          . refine hmore (.var text false) [] ?_ (Nat.succ_pos _) ⟨hname, hsplit ▸ hword, ?_⟩
            . simp [Piece.write]
            . simp
        | cons d more =>
          have hd : isWord d = false := by
            have hnot := List.head_dropWhile_not isWord (l := text) (by rw [hrest]; exact List.cons_ne_nil d more)
            simpa [hrest] using hnot
          have hle : (d :: more).length ≤ text.length := hrest ▸ (List.dropWhile_suffix isWord).length_le
          rw [hrest] at hsplit
          rw [List.length_cons] at hle
          by_cases hname : text.takeWhile isWord = []
          . rw [hname, List.nil_append] at hsplit
            by_cases hescape : d = 36 ∨ d = 59
            . exact hmore (.escape d) more (by rw [← hsplit]; rfl) (by simp only [List.length_cons]; omega) hescape
            . exact hmore (.raw d) more (by rw [← hsplit]; rfl) (by simp only [List.length_cons]; omega)
                ⟨hd, not_or.mp hescape⟩
          . by_cases hclosed : d = 59
            . refine hmore (.var (text.takeWhile isWord) true) more ?_
                (by simp only [List.length_cons]; omega) ⟨hname, hword, fun h => absurd h (Bool.noConfusion)⟩
              conv_lhs => rw [← hsplit, hclosed]
              simp [Piece.write]
            . refine hmore (.var (text.takeWhile isWord) false) (d :: more) ?_
                (by simp only [List.length_cons]; omega) ⟨hname, hword, ?_⟩
              . conv_lhs => rw [← hsplit]
                simp [Piece.write]
              . rintro - e ⟨⟩
                have hzero : d ≠ 0 := by
                  rintro rfl
                  refine h (List.mem_cons_of_mem _ ?_)
                  rw [← hsplit]
                  exact List.mem_append_right _ List.mem_cons_self
                simp [Piece.Joins, hd, hclosed, hzero]
      . exact hmore (.char c) text rfl (Nat.lt_succ_self _) hc

/--
Each text without NULs is a template, with the values of its pieces in their places. A `$` at its end comes with a NUL.
-/
theorem interpolate_of_template (pl : PropertyList) (text : Bytes) (h : 0 ∉ text)
    : (∃ pieces dangling, text = written pieces ++ dangling ∧ Template dangling pieces ∧ Dangling dangling)
      ∧ ∀ pieces dangling, text = written pieces ++ dangling → Template dangling pieces → Dangling dangling →
        pl.interpolate text = pieces.flatMap (Piece.value pl) ++ if dangling = [] then [] else [36, 0] := by
  refine ⟨exists_template text h, ?_⟩
  intro pieces dangling htext htemplate hdangling
  rw [htext, interpolate_template pl htemplate]
  rcases hdangling with rfl | rfl
  . rw [if_pos rfl, interpolate]
  . have hend := interpolate_dollar pl [] [] (List.forall_mem_nil _) (by simp)
    rw [if_neg (List.cons_ne_nil _ _)]
    refine congrArg (_ ++ ·) (hend.trans ?_)
    simp [interpolateVar, interpolate]

-- Without variables, there is only the `$` at the end
theorem interpolate_of_template_dollar
    : ((∃ pieces dangling, [97, 36] = written pieces ++ dangling ∧ Template dangling pieces ∧ Dangling dangling)
      ∧ ∀ pieces dangling, [97, 36] = written pieces ++ dangling → Template dangling pieces → Dangling dangling →
        interpolate empty [97, 36]
          = pieces.flatMap (Piece.value empty) ++ if dangling = [] then [] else [36, 0])
      ∧ interpolate empty [97, 36] = [97, 36, 0] := by
  have h := interpolate_of_template empty [97, 36] (by decide)
  exact ⟨h, h.2 [.char 97] [36] rfl ⟨(by decide : (97 : UInt8) ≠ 36), trivial⟩ (.inr rfl)⟩

end PropertyList
end Misc
end ObTools
