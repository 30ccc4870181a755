import ObTools.Text.PatternCase

/-!
This module contains the language of the patterns of `pattern_match` with sets that are closed and not negated,
and the proof that the matcher decides it.
-/

namespace ObTools
namespace Text
namespace Pattern

open Wildcard

/-
What a pattern stands for.
-/

def isChar (c : UInt8) : Item UInt8 := .one fun d => d = some c

-- A text contains no 0.
def anyChar : Item UInt8 := .one fun d => d.getD 0 ≠ 0

def inSet (ms : List (UInt8 × UInt8)) : Item UInt8 :=
  .one fun d => d.any fun d => ms.any fun m => m.1 ≤ d ∧ d ≤ m.2

-- A character of a set
inductive IsSetChar : Bytes → UInt8 → Prop where
  | plain {c : UInt8} (hc : 0 < c ∧ c < 128) (hescape : c ≠ 92) : IsSetChar [c] c
  | escape {c : UInt8} (hc : 0 < c ∧ c < 128) : IsSetChar [92, c] c

/-
Only the first character of a set is a `]` without a backslash. A `-` without one is between the characters of a
range, unless it is the first one, the last one or behind a range.
-/
inductive IsMembers : Bytes → List (UInt8 × UInt8) → Prop where
  | last {s : Bytes} {c : UInt8} (hs : IsSetChar s c) : IsMembers s [(c, c)]
  | lastRange {s t : Bytes} {c e : UInt8} (hs : IsSetChar s c) (ht : IsSetChar t e) (hend : t ≠ [93])
      : IsMembers (s ++ 45 :: t) [(c, e)]
  | single {s body : Bytes} {c : UInt8} {ms : List (UInt8 × UInt8)} (hs : IsSetChar s c) (h : IsMembers body ms)
      (hend : body.head? ≠ some 93) (hdash : body.head? = some 45 → body = [45])
      : IsMembers (s ++ body) ((c, c) :: ms)
  | range {s t body : Bytes} {c e : UInt8} {ms : List (UInt8 × UInt8)} (hs : IsSetChar s c) (ht : IsSetChar t e)
      (htend : t ≠ [93]) (h : IsMembers body ms) (hend : body.head? ≠ some 93)
      : IsMembers (s ++ 45 :: (t ++ body)) ((c, e) :: ms)

inductive IsGlob : Bytes → List (Item UInt8) → Prop where
  | nil : IsGlob [] []
  | literal {c : UInt8} {p : Bytes} {is : List (Item UInt8)} (hc : c ∉ ([0, 92, 63, 42, 91] : List UInt8))
      (h : IsGlob p is)
      : IsGlob (c :: p) (isChar c :: is)
  | escape {c : UInt8} {p : Bytes} {is : List (Item UInt8)} (hc : c ≠ 0) (h : IsGlob p is)
      : IsGlob (92 :: c :: p) (isChar c :: is)
  | any {p : Bytes} {is : List (Item UInt8)} (h : IsGlob p is) : IsGlob (63 :: p) (anyChar :: is)
  | star {p : Bytes} {is : List (Item UInt8)} (h : IsGlob p is) : IsGlob (42 :: p) (.star :: is)
  | set {body p : Bytes} {ms : List (UInt8 × UInt8)} {is : List (Item UInt8)} (hbody : IsMembers body ms)
      (hinvert : body.head? ≠ some 33) (h : IsGlob p is)
      : IsGlob (91 :: (body ++ 93 :: p)) (inSet ms :: is)

/-
Sets.
-/

section Sets

variable {c : UInt8} {s body rest : Bytes} {ms : List (UInt8 × UInt8)}

theorem IsSetChar.ne_zero (h : IsSetChar s c) : 0 ∉ s := by
  cases h with
  | plain hc => simpa using (UInt8.ne_of_lt hc.1)
  | escape hc => simpa using (UInt8.ne_of_lt hc.1)

theorem IsSetChar.pos (h : IsSetChar s c) : 0 < c ∧ c < 128 := by
  cases h with
  | plain hc => exact hc
  | escape hc => exact hc

theorem IsSetChar.closed (h : IsSetChar s c) (rest : Bytes)
    : isClosed (s ++ rest) = if rest.head? = some 93 then some true else isClosed rest := by
  cases h with
  | plain hc hescape =>
    rw [List.singleton_append, isClosed.eq_def]
    dsimp only
    rw [if_neg (UInt8.ne_of_lt hc.1).symm, if_neg hescape]
  | escape hc =>
    rw [List.cons_append, List.singleton_append, isClosed.eq_def]
    dsimp only
    rw [if_neg (by decide), if_pos rfl]

theorem IsSetChar.member_eq (h : IsSetChar s c) (rest : Bytes) : member (s ++ rest) = range c rest := by
  cases h with
  | plain hc hescape => exact member_plain hescape rest
  | escape hc => rfl

theorem IsSetChar.range_eq {t : Bytes} {e : UInt8} (h : IsSetChar t e) (hend : t ≠ [93]) (c : UInt8) (rest : Bytes)
    : range c (45 :: (t ++ rest)) = some ((c, e), rest) := by
  cases h with
  | plain hc hescape => exact range_plain c (fun h => hend (by rw [h])) hescape rest
  | escape hc => rfl

theorem IsSetChar.exists_cons (h : IsSetChar s c) : ∃ x s', s = x :: s' := by
  cases h with
  | plain => exact ⟨c, [], rfl⟩
  | escape => exact ⟨92, [c], rfl⟩

theorem IsMembers.exists_cons (h : IsMembers body ms) : ∃ x body', body = x :: body' := by
  cases h with
  | last hs => exact hs.exists_cons
  | lastRange hs =>
    obtain ⟨x, s', rfl⟩ := hs.exists_cons
    exact ⟨x, _, rfl⟩
  | single hs =>
    obtain ⟨x, s', rfl⟩ := hs.exists_cons
    exact ⟨x, _, rfl⟩
  | range hs =>
    obtain ⟨x, s', rfl⟩ := hs.exists_cons
    exact ⟨x, _, rfl⟩

theorem IsMembers.ne_zero (h : IsMembers body ms) : 0 ∉ body := by
  induction h with
  | last hs => exact hs.ne_zero
  | lastRange hs ht => simp [hs.ne_zero, ht.ne_zero]
  | single hs _ _ _ ih => simp [hs.ne_zero, ih]
  | range hs ht _ _ _ ih => simp [hs.ne_zero, ht.ne_zero, ih]

theorem isClosed_dash (h : isClosed rest = some true) : isClosed (45 :: rest) = some true := by
  rw [isClosed.eq_def]
  dsimp only
  rw [if_neg (by decide), if_neg (by decide), h, ite_self]

theorem IsSetChar.closed_append (h : IsSetChar s c) (hrest : rest.head? = some 93 ∨ isClosed rest = some true)
    : isClosed (s ++ rest) = some true := by
  rw [h.closed]
  by_cases hend : rest.head? = some 93
  . rw [if_pos hend]
  . rw [if_neg hend, hrest.resolve_left hend]

theorem IsMembers.closed (h : IsMembers body ms) (rest : Bytes)
    : isClosed (body ++ 93 :: rest) = some true := by
  induction h with
  | last hs => exact hs.closed_append (Or.inl rfl)
  | lastRange hs ht =>
    rw [List.append_assoc]
    exact hs.closed_append (Or.inr (isClosed_dash (ht.closed_append (Or.inl rfl))))
  | single hs _ _ _ ih =>
    rw [List.append_assoc]
    exact hs.closed_append (Or.inr ih)
  | range hs ht _ _ _ ih =>
    rw [List.append_assoc, List.cons_append, List.append_assoc]
    exact hs.closed_append (Or.inr (isClosed_dash (ht.closed_append (Or.inr ih))))

theorem member_range {c e : UInt8} {t : Bytes} (hs : IsSetChar s c) (ht : IsSetChar t e)
    (hend : t ≠ [93]) (rest : Bytes)
    : member (s ++ 45 :: (t ++ rest)) = some ((c, e), rest) :=
  (hs.member_eq _).trans (ht.range_eq hend c rest)

theorem members_more {m : UInt8 × UInt8} {p : Bytes} (hbody : IsMembers body ms) (hend : body.head? ≠ some 93)
    (hmember : member p = some (m, body ++ 93 :: rest))
    (hmembers : members (body ++ 93 :: rest) = some (ms, rest))
    : members p = some (m :: ms, rest) := by
  obtain ⟨x, body, rfl⟩ := hbody.exists_cons
  rw [List.cons_append] at hmember hmembers
  have hx : x ≠ 93 := fun h => hend (by rw [h]; rfl)
  rw [members_cons hmember, if_neg hx, hmembers]
  rfl

theorem IsMembers.members_eq (h : IsMembers body ms) (rest : Bytes)
    : members (body ++ 93 :: rest) = some (ms, rest) := by
  induction h with
  | last hs => exact (members_cons ((hs.member_eq _).trans (range_single _ (by decide) rest))).trans (if_pos rfl)
  | lastRange hs ht hend =>
    rw [List.append_assoc, List.cons_append]
    exact (members_cons (member_range hs ht hend (93 :: rest))).trans (if_pos rfl)
  | range hs ht htend hbody hend ih =>
    rw [List.append_assoc, List.cons_append, List.append_assoc]
    exact members_more hbody hend (member_range hs ht htend _) ih
  | @single s body c ms hs hbody hend hdash ih =>
    rw [List.append_assoc]
    refine members_more hbody hend ((hs.member_eq _).trans ?_) ih
    obtain ⟨x, body', rfl⟩ := hbody.exists_cons
    by_cases hx : x = 45
    . subst hx
      rw [hdash rfl]
      rfl
    . exact range_single c hx _

theorem toInt_toInt8 (c : UInt8) : c.toInt8.toInt = if c.toNat < 128 then (c.toNat : Int) else c.toNat - 256 := by
  have hsigned : c.toInt8.toInt = (c.toNat : Int).bmod 256 := BitVec.toInt_eq_toNat_bmod c.toBitVec
  have hc := c.toNat_lt
  rw [hsigned, Int.bmod]
  split <;> split <;> omega

-- The characters of a member have the same order with a sign as without.
theorem inRange_ascii {c d e : UInt8} (hc : c < 128) (he : e < 128) : inRange c d e = decide (c ≤ d ∧ d ≤ e) := by
  unfold inRange
  rw [decide_eq_decide, Int8.le_iff_toInt_le, Int8.le_iff_toInt_le, UInt8.le_iff_toNat_le, UInt8.le_iff_toNat_le,
    toInt_toInt8, toInt_toInt8, toInt_toInt8]
  have hc : c.toNat < 128 := UInt8.lt_iff_toNat_lt.mp hc
  have he : e.toNat < 128 := UInt8.lt_iff_toNat_lt.mp he
  rw [if_pos hc, if_pos he]
  have hd := d.toNat_lt
  split <;> omega

theorem IsMembers.ascii (h : IsMembers body ms) : ∀ m ∈ ms, (0 < m.1 ∧ m.1 < 128) ∧ m.2 < 128 := by
  induction h with
  | last hs =>
    rw [List.forall_mem_singleton]
    exact ⟨hs.pos, hs.pos.2⟩
  | lastRange hs ht =>
    rw [List.forall_mem_singleton]
    exact ⟨hs.pos, ht.pos.2⟩
  | single hs _ _ _ ih =>
    rw [List.forall_mem_cons]
    exact ⟨⟨hs.pos, hs.pos.2⟩, ih⟩
  | range hs ht _ _ _ ih =>
    rw [List.forall_mem_cons]
    exact ⟨⟨hs.pos, ht.pos.2⟩, ih⟩

theorem item_set (h : IsMembers body ms) : (Token.set false ms).item true = inSet ms := by
  have hcontains (d : UInt8) : ms.any (contains true d) = ms.any fun m => m.1 ≤ d ∧ d ≤ m.2 := by
    rw [Bool.eq_iff_iff, List.any_eq_true, List.any_eq_true]
    refine exists_congr fun m => and_congr_right fun hm => ?_
    obtain ⟨hlow, hhigh⟩ := h.ascii m hm
    exact Iff.of_eq (congrArg (· = true) (inRange_ascii hlow.2 hhigh))
  refine congrArg Item.one (funext fun d => ?_)
  cases d with
  | some d =>
    rw [Option.any_some, ← hcontains d]
    exact Bool.bne_false _
  | none =>
    have hnone : ms.any (contains true 0) = false := by
      rw [hcontains, List.any_eq_false]
      intro m hm hzero
      obtain ⟨hlow, -⟩ := h.ascii m hm
      rw [decide_eq_true_eq] at hzero
      exact absurd (UInt8.lt_of_lt_of_le hlow.1 hzero.1) (UInt8.lt_irrefl 0)
    exact (congrArg (· != false) hnone).trans rfl

end Sets

/-
Patterns.
-/

section Globs

variable {p : Bytes} {is : List (Item UInt8)}

theorem IsGlob.ne_zero (h : IsGlob p is) : 0 ∉ p := by
  induction h with
  | nil => exact List.not_mem_nil
  | literal hc _ ih =>
    rw [List.mem_cons, not_or]
    exact ⟨fun h => hc (h ▸ List.mem_cons_self), ih⟩
  | escape hc _ ih => simp [hc.symm, ih]
  | any _ ih => simp [ih]
  | star _ ih => simp [ih]
  | set hbody _ _ ih => simp [hbody.ne_zero, ih]

theorem item_char {c : UInt8} (hc : c ≠ 0) : (Token.char c).item true = isChar c := by
  refine congrArg Item.one (funext fun d => ?_)
  cases d with
  | none => exact decide_eq_decide.mpr ⟨fun h => absurd h.symm hc, fun h => by cases h⟩
  | some d => exact decide_eq_decide.mpr Option.some_inj.symm

theorem IsGlob.items_eq (h : IsGlob p is) : items true (p ++ [0]) = is := by
  induction h with
  | nil =>
    unfold items
    rw [List.nil_append, parse_cons, if_pos rfl]
    rfl
  | @literal c p is hc _ ih =>
    simp only [List.mem_cons, List.not_mem_nil, or_false, not_or] at hc
    unfold items at ih ⊢
    rw [List.cons_append, parse_cons, if_neg hc.1, if_neg hc.2.1, if_neg hc.2.2.1, if_neg hc.2.2.2.1,
      if_neg hc.2.2.2.2, List.map_cons, ih, item_char hc.1]
  | @escape c p is hc _ ih =>
    unfold items at ih ⊢
    rw [List.cons_append, List.cons_append, parse_cons, if_neg (by decide), if_pos rfl, List.map_cons, ih,
      item_char hc]
  | any _ ih =>
    unfold items at ih ⊢
    rw [List.cons_append, parse_cons, if_neg (by decide), if_neg (by decide), if_pos rfl, List.map_cons, ih]
    rfl
  | star _ ih =>
    unfold items at ih ⊢
    rw [List.cons_append, parse_cons, if_neg (by decide), if_neg (by decide), if_neg (by decide), if_pos rfl,
      List.map_cons, ih]
    rfl
  | @set body p ms is hbody hinvert _ ih =>
    unfold items at ih ⊢
    have hfirst : (body ++ 93 :: (p ++ [0])).head? ≠ some 33 := by
      obtain ⟨x, body', rfl⟩ := hbody.exists_cons
      exact hinvert
    rw [List.cons_append, List.append_assoc, List.cons_append, parse_cons, if_neg (by decide), if_neg (by decide),
      if_neg (by decide), if_neg (by decide), if_pos rfl, if_neg hfirst, hbody.closed, hbody.members_eq]
    dsimp only
    rw [decide_eq_false hfirst, List.map_cons, ih, item_set hbody]

theorem IsGlob.isBounded (h : IsGlob p is) : ∀ item ∈ is, item.IsBounded := by
  induction h with
  | nil => exact List.forall_mem_nil _
  | literal _ _ ih => exact List.forall_mem_cons.mpr ⟨rfl, ih⟩
  | escape _ _ ih => exact List.forall_mem_cons.mpr ⟨rfl, ih⟩
  | any _ ih => exact List.forall_mem_cons.mpr ⟨rfl, ih⟩
  | star _ ih => exact List.forall_mem_cons.mpr ⟨trivial, ih⟩
  | set _ _ _ ih => exact List.forall_mem_cons.mpr ⟨rfl, ih⟩

end Globs

end Pattern

open Wildcard Pattern

/--
The matcher says whether a text is in the language of a pattern, and what each `*` of the pattern has been for.
-/
theorem patternMatches_glob (p : List UInt8) (is : List (Item UInt8)) (h : IsGlob p is) (text : CString)
    : (∃ found caps, patternMatches p text.chars [] true = some (found, caps)
          ∧ (found = true ↔ ∃ caps', Fits is caps' text.chars)
          ∧ (found = true → Fits is caps text.chars))
        ∧
      (patternMatches p text.chars [] false).map (fun r => (r.1, r.2.map lower))
        = patternMatches (lower p) (lower text.chars) [] true := by
  refine ⟨?_, patternMatches_lower ⟨p, h.ne_zero⟩ text⟩
  have hsimulates := simulates true ⟨p, h.ne_zero⟩ text []
  dsimp only at hsimulates
  rw [h.items_eq] at hsimulates
  generalize patternMatches p text.chars [] true = result at hsimulates ⊢
  cases hsearch : search is text.chars with
  | overrun => exact absurd hsearch (search_ne_overrun h.isBounded)
  | fail =>
    rw [hsearch] at hsimulates
    cases hsimulates
    exact ⟨false, [], rfl, ⟨fun h => absurd h Bool.false_ne_true, fun h => absurd h (search_fail hsearch)⟩,
      fun h => absurd h Bool.false_ne_true⟩
  | fits caps =>
    rw [hsearch] at hsimulates
    have hfits := search_fits hsearch
    cases hsimulates with
    | fits hcaps =>
      rw [sameCase_true hcaps, List.append_nil]
      exact ⟨true, caps, rfl, ⟨fun _ => ⟨caps, hfits⟩, fun _ => rfl⟩, fun _ => hfits⟩

-- *[b-d]\? for "xxc?"
theorem patternMatches_glob_range
    : (∃ found caps, patternMatches [42, 91, 98, 45, 100, 93, 92, 63] [120, 120, 99, 63] [] true = some (found, caps)
          ∧ (found = true ↔ ∃ caps', Fits [.star, inSet [(98, 100)], isChar 63] caps' [120, 120, 99, 63])
          ∧ (found = true → Fits [.star, inSet [(98, 100)], isChar 63] caps [120, 120, 99, 63]))
        ∧
      (patternMatches [42, 91, 98, 45, 100, 93, 92, 63] [120, 120, 99, 63] [] false).map
          (fun r => (r.1, r.2.map lower))
        = patternMatches (lower [42, 91, 98, 45, 100, 93, 92, 63]) (lower [120, 120, 99, 63]) [] true := by
  have hmembers : IsMembers [98, 45, 100] [(98, 100)] :=
    .lastRange (.plain (by decide) (by decide)) (.plain (by decide) (by decide)) (by decide)
  have hglob : IsGlob [42, 91, 98, 45, 100, 93, 92, 63] [.star, inSet [(98, 100)], isChar 63] :=
    .star (.set hmembers (by decide) (.escape (by decide) .nil))
  exact patternMatches_glob [42, 91, 98, 45, 100, 93, 92, 63] [.star, inSet [(98, 100)], isChar 63] hglob
    ⟨[120, 120, 99, 63], by decide⟩

end Text
end ObTools
