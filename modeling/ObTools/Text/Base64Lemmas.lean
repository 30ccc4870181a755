import ObTools.Lib.Digits
import ObTools.Text.Base64

/-!
This module contains the proof that decoding in base64 undoes encoding, and the bound of what is decoded.
-/

namespace ObTools
namespace Text
namespace Base64

variable {b : Base64} {c : UInt8} {n cn : UInt32} {block : List UInt8} {maxLength : Nat}

/-
The alphabet.
-/

-- The extra and pad characters are distinct from the rest of the alphabet.
structure WellFormed (b : Base64) : Prop where
  extra62 : b.extra62 ∉ base64Chars
  extra63 : b.extra63 ∉ base64Chars
  extras : b.extra62 ≠ b.extra63
  pad : b.pad ≠ 0 → b.pad ∉ base64Chars ∧ b.pad ≠ b.extra62 ∧ b.pad ≠ b.extra63

-- A character that can be in a line end
structure IsOutside (b : Base64) (c : UInt8) : Prop where
  chars : c ∉ base64Chars
  extra62 : c ≠ b.extra62
  extra63 : c ≠ b.extra63
  pad : c ≠ b.pad

-- The index of a letter or digit
def letter (c : UInt8) : Option UInt32 :=
  if 65 ≤ c ∧ c ≤ 90 then
    some (c.toUInt32 - 65)
  else if 97 ≤ c ∧ c ≤ 122 then
    some (26 + c.toUInt32 - 97)
  else if 48 ≤ c ∧ c ≤ 57 then
    some (52 + c.toUInt32 - 48)
  else
    none

theorem look_of_letter (h : letter c = some cn) : b.look c = .index cn := by
  unfold letter at h
  unfold look
  split at h
  . next hrange =>
    rw [if_pos hrange, Option.some.inj h]
  . next hrange =>
    rw [if_neg hrange]
    split at h
    . next hrange =>
      rw [if_pos hrange, Option.some.inj h]
    . next hrange =>
      rw [if_neg hrange]
      split at h
      . next hrange =>
        rw [if_pos hrange, Option.some.inj h]
      . cases h

theorem look_of_not_letter (h : letter c = none)
    : b.look c
        =
      if c = b.extra62 then
        .index 62
      else if c = b.extra63 then
        .index 63
      else if c = b.pad then
        .stop
      else
        .ignore := by
  unfold letter at h
  unfold look
  split at h
  . cases h
  . next hrange =>
    rw [if_neg hrange]
    split at h
    . cases h
    . next hrange =>
      rw [if_neg hrange]
      split at h
      . cases h
      . next hrange =>
        rw [if_neg hrange]

theorem base64Chars_eq
    : base64Chars = (List.range' 65 26 ++ List.range' 97 26 ++ List.range' 48 10).map UInt8.ofNat := by
  decide

theorem letter_base64Chars : ∀ i : Fin 62, letter (base64Chars.getD i 0) = some (UInt32.ofNat i) := by
  rw [base64Chars_eq]
  decide

theorem letter_spec : ∀ c : UInt8, ∀ cn ∈ letter c, cn.toNat < 62 ∧ base64Chars.getD cn.toNat 0 = c := by
  have hall : ∀ c : UInt8,
      (letter c).all (fun cn => decide (cn.toNat < 62 ∧ base64Chars.getD cn.toNat 0 = c)) = true := by
    rw [base64Chars_eq]
    apply Digits.forall_byte
    decide
  intro c cn hcn
  exact of_decide_eq_true ((Option.all_eq_true _ _).mp (hall c) cn hcn)

theorem letter_eq_none (c : UInt8) (hc : c ∉ base64Chars) : letter c = none := by
  cases hletter : letter c with
  | none => rfl
  | some cn =>
    obtain ⟨hlt, heq⟩ := letter_spec c cn hletter
    have hlength : base64Chars.length = 62 := by
      rw [base64Chars_eq]
      rfl
    rw [List.getD_eq_getElem?_getD, List.getElem?_eq_getElem (by omega)] at heq
    rw [← heq] at hc
    exact absurd (List.getElem_mem _) hc

theorem look_lt (h : b.look c = .index cn) : cn.toNat < 64 := by
  cases hletter : letter c with
  | some i =>
    rw [look_of_letter hletter] at h
    cases h
    exact Nat.lt_trans (letter_spec c _ hletter).1 (by decide)
  | none =>
    rw [look_of_not_letter hletter] at h
    split at h
    . cases h
      decide
    . split at h
      . cases h
        decide
      . split at h <;> cases h

theorem WellFormed.look_char (h : b.WellFormed) (hn : n.toNat < 64) : b.look (b.char n) = .index n := by
  have hvalue : n = UInt32.ofNat n.toNat := UInt32.ofNat_toNat.symm
  unfold char
  by_cases h62 : n < 62
  . have hlt : n.toNat < 62 := h62
    rw [if_pos h62]
    apply look_of_letter
    rw [letter_base64Chars ⟨n.toNat, hlt⟩, ← hvalue]
  . rw [if_neg h62]
    have hge : 62 ≤ n.toNat := Nat.le_of_not_lt h62
    by_cases heq : n = 62
    . rw [if_pos heq, look_of_not_letter (letter_eq_none _ h.extra62), if_pos rfl, heq]
    . have h63 : n = 63 := by
        rw [← UInt32.toNat_inj] at heq ⊢
        have h62 : (62 : UInt32).toNat = 62 := rfl
        have h63 : (63 : UInt32).toNat = 63 := rfl
        omega
      rw [if_neg heq, look_of_not_letter (letter_eq_none _ h.extra63), if_neg (Ne.symm h.extras), if_pos rfl, h63]

theorem WellFormed.look_pad (h : b.WellFormed) (hpad : b.pad ≠ 0) : b.look b.pad = .stop := by
  obtain ⟨hchars, h62, h63⟩ := h.pad hpad
  rw [look_of_not_letter (letter_eq_none _ hchars), if_neg h62, if_neg h63, if_pos rfl]

theorem IsOutside.look (h : b.IsOutside c) : b.look c = .ignore := by
  rw [look_of_not_letter (letter_eq_none _ h.chars), if_neg h.extra62, if_neg h.extra63, if_neg h.pad]

/-
The characters that the decoder uses.
-/

variable (b) in
def values : List UInt8 → List UInt32
  | [] => []
  | c :: base64 =>
    match b.look c with
    | .index cn => cn :: values base64
    | .stop => []
    | .ignore => values base64

theorem values_cons (c : UInt8) (base64 : List UInt8)
    : b.values (c :: base64)
        =
      match b.look c with
      | .index cn => cn :: b.values base64
      | .stop => []
      | .ignore => b.values base64 := rfl

theorem values_lt (base64 : List UInt8) : ∀ cn ∈ b.values base64, cn.toNat < 64 := by
  induction base64 with
  | nil => exact nofun
  | cons c base64 ih =>
    unfold values
    split
    . next hlook =>
      rw [List.forall_mem_cons]
      exact ⟨look_lt hlook, ih⟩
    . exact nofun
    . exact ih

theorem length_values_le (base64 : List UInt8) : (b.values base64).length ≤ base64.length := by
  induction base64 with
  | nil => exact Nat.le_refl 0
  | cons c base64 ih =>
    unfold values
    split
    . simp only [List.length_cons]
      omega
    . exact Nat.zero_le _
    . simp only [List.length_cons]
      omega

theorem decodeLoop_eq (base64 : List UInt8) (state : Progress)
    : b.decodeLoop maxLength base64 state = (b.values base64).foldlM (accumulate maxLength) state := by
  induction base64 generalizing state with
  | nil => rfl
  | cons c base64 ih =>
    unfold decodeLoop values
    cases b.look c with
    | index cn =>
      dsimp only
      rw [List.foldlM_cons]
      apply congrArg (accumulate maxLength state cn >>= ·)
      funext state
      exact ih state
    | stop => rfl
    | ignore => exact ih state

/-
The bytes of four characters each.
-/

def quad (v0 v1 v2 v3 : UInt32) : List UInt8 :=
  let n := ((v0.toNat * 64 + v1.toNat) * 64 + v2.toNat) * 64 + v3.toNat
  [UInt8.ofNat (n / 65536), UInt8.ofNat (n / 256), UInt8.ofNat n]

def bytesOf : List UInt32 → List UInt8
  | v0 :: v1 :: v2 :: v3 :: vs => quad v0 v1 v2 v3 ++ bytesOf vs
  | [v0, v1, v2] => (quad v0 v1 v2 0).take 2
  | [v0, v1] => (quad v0 v1 0 0).take 1
  | _ => []

theorem length_bytesOf_le (vs : List UInt32) : 4 * (bytesOf vs).length ≤ 3 * vs.length := by
  induction vs using bytesOf.induct with
  | case1 v0 v1 v2 v3 vs ih =>
    simp only [bytesOf, quad, List.length_append, List.length_cons, List.length_nil]
    omega
  | case2 v0 v1 v2 => simp [bytesOf, quad]
  | case3 v0 v1 => simp [bytesOf, quad]
  | case4 vs => simp [bytesOf]

theorem toNat_accumulate {k : Nat} (hn : n.toNat < 2 ^ k) (hk : k ≤ 26) (hcn : cn.toNat < 64)
    : ((n <<< 6) ||| cn).toNat = n.toNat * 64 + cn.toNat := by
  have hlt : n.toNat < 2 ^ 26 := Nat.lt_of_lt_of_le hn (Nat.pow_le_pow_right (by decide) hk)
  have hshift : (n <<< 6).toNat = n.toNat <<< 6 := by
    rw [UInt32.toNat_shiftLeft]
    apply Nat.mod_eq_of_lt
    change n.toNat <<< 6 < 2 ^ 32
    rw [Nat.shiftLeft_eq]
    omega
  rw [UInt32.toNat_or, hshift, ← Nat.shiftLeft_add_eq_or_of_lt (by omega : cn.toNat < 2 ^ 6), Nat.shiftLeft_eq]

def topBytes : Nat → UInt32 → List UInt8
  | 0, _ => []
  | count + 1, n => (n >>> 16).toUInt8 :: topBytes count (n <<< 8)

-- What there is space for
def put (maxLength : Nat) (block : List UInt8) : Except (List UInt8) (List UInt8) :=
  if block.length ≤ maxLength then .ok block else .error (block.take maxLength)

theorem write_eq (count : Nat) (n : UInt32) (hblock : block.length ≤ maxLength)
    : write maxLength count n block = put maxLength (block ++ topBytes count n) := by
  induction count generalizing n block with
  | zero =>
    unfold write topBytes put
    rw [List.append_nil, if_pos hblock]
  | succ count ih =>
    unfold write topBytes
    split
    . next hlt =>
      rw [ih (n <<< 8) (by rw [List.length_append, List.length_singleton]; omega), List.append_assoc]
      rfl
    . next hge =>
      have hfull : block.length = maxLength := by omega
      unfold put
      rw [if_neg (by rw [List.length_append, List.length_cons]; omega), List.take_left' hfull]

theorem topBytes_eq (hn : n.toNat < 2 ^ 24)
    : topBytes 3 n = [UInt8.ofNat (n.toNat / 65536), UInt8.ofNat (n.toNat / 256), UInt8.ofNat n.toNat] := by
  have h8 : ∀ n : UInt32, (n <<< 8).toNat = n.toNat * 256 % 2 ^ 32 := by
    intro n
    rw [UInt32.toNat_shiftLeft]
    change n.toNat <<< 8 % 2 ^ 32 = _
    rw [Nat.shiftLeft_eq]
  have h16 : ∀ n : UInt32, ((n >>> 16).toUInt8).toNat = n.toNat / 65536 % 256 := by
    intro n
    rw [UInt32.toNat_toUInt8, UInt32.toNat_shiftRight]
    change n.toNat >>> 16 % 256 = _
    rw [Nat.shiftRight_eq_div_pow]
  have hbyte : ∀ (n : UInt32) (k : Nat), n.toNat / 65536 % 256 = k % 256 → (n >>> 16).toUInt8 = UInt8.ofNat k := by
    intro n k h
    rw [← UInt8.toNat_inj, h16, UInt8.toNat_ofNat', h]
  unfold topBytes topBytes topBytes topBytes
  rw [hbyte n (n.toNat / 65536) rfl, hbyte (n <<< 8) (n.toNat / 256) (by rw [h8]; omega),
    hbyte (n <<< 8 <<< 8) n.toNat (by rw [h8, h8]; omega)]

def finish (maxLength : Nat) (state : Progress) : Except (List UInt8) (List UInt8) :=
  if state.i % 4 ≠ 0 then
    write maxLength (state.i % 4 - 1) (state.n <<< (6 * (4 - UInt32.ofNat (state.i % 4)))) state.block
  else
    .ok state.block

theorem put_append (hblock : maxLength < block.length) (rest : List UInt8)
    : put maxLength (block ++ rest) = put maxLength block := by
  unfold put
  rw [if_neg (by rw [List.length_append]; omega), if_neg (by omega), List.take_append_of_le_length (by omega)]

/-
The decoder at the beginning of four characters.
-/

section Group

variable {v0 v1 v2 v3 : UInt32} {i : Nat}

theorem accumulate_pending (cn : UInt32) (hi : (i + 1) % 4 ≠ 0)
    : accumulate maxLength { n := n, i := i, block := block } cn
        = .ok { n := (n <<< 6) ||| cn, i := i + 1, block := block } := if_neg hi

theorem accumulate_group (cn : UInt32) (hi : (i + 1) % 4 = 0)
    : accumulate maxLength { n := n, i := i, block := block } cn
        = (write maxLength 3 ((n <<< 6) ||| cn) block).bind fun block => .ok { n := 0, i := i + 1, block := block } :=
  if_pos hi

theorem ok_bind {α β ε : Type} (a : α) (f : α → Except ε β) : ((Except.ok a : Except ε α) >>= f) = f a := rfl

-- What is in `n` behind one, two, three and four characters
theorem toNat_one : (((0 : UInt32) <<< 6) ||| v0).toNat = v0.toNat := by
  have hzero : ((0 : UInt32) <<< 6) ||| v0 = v0 := by
    have : (0 : UInt32) <<< 6 = 0 := rfl
    rw [this, UInt32.zero_or]
  rw [hzero]

theorem toNat_two (h0 : v0.toNat < 64) (h1 : v1.toNat < 64)
    : (((((0 : UInt32) <<< 6) ||| v0) <<< 6) ||| v1).toNat = v0.toNat * 64 + v1.toNat := by
  rw [toNat_accumulate (k := 6) _ (by decide) h1, toNat_one]
  rw [toNat_one]
  exact h0

theorem toNat_three (h0 : v0.toNat < 64) (h1 : v1.toNat < 64) (h2 : v2.toNat < 64)
    : (((((((0 : UInt32) <<< 6) ||| v0) <<< 6) ||| v1) <<< 6) ||| v2).toNat
        = (v0.toNat * 64 + v1.toNat) * 64 + v2.toNat := by
  rw [toNat_accumulate (k := 12) _ (by decide) h2, toNat_two h0 h1]
  rw [toNat_two h0 h1]
  omega

theorem topBytes_quad (h0 : v0.toNat < 64) (h1 : v1.toNat < 64) (h2 : v2.toNat < 64) (h3 : v3.toNat < 64)
    (hn : n.toNat = ((v0.toNat * 64 + v1.toNat) * 64 + v2.toNat) * 64 + v3.toNat)
    : topBytes 3 n = quad v0 v1 v2 v3 := by
  rw [topBytes_eq (by omega), hn]
  rfl

theorem toNat_four (h0 : v0.toNat < 64) (h1 : v1.toNat < 64) (h2 : v2.toNat < 64) (h3 : v3.toNat < 64)
    : (((((((((0 : UInt32) <<< 6) ||| v0) <<< 6) ||| v1) <<< 6) ||| v2) <<< 6) ||| v3).toNat
        = ((v0.toNat * 64 + v1.toNat) * 64 + v2.toNat) * 64 + v3.toNat := by
  rw [toNat_accumulate (k := 18) _ (by decide) h3, toNat_three h0 h1 h2]
  rw [toNat_three h0 h1 h2]
  omega

theorem toNat_shifted_three (h0 : v0.toNat < 64) (h1 : v1.toNat < 64) (h2 : v2.toNat < 64)
    : ((((((((0 : UInt32) <<< 6) ||| v0) <<< 6) ||| v1) <<< 6) ||| v2) <<< 6).toNat
        = ((v0.toNat * 64 + v1.toNat) * 64 + v2.toNat) * 64 + (0 : UInt32).toNat := by
  have h := toNat_four h0 h1 h2 (show (0 : UInt32).toNat < 64 by decide)
  rw [UInt32.or_zero] at h
  exact h

theorem toNat_shifted_two (h0 : v0.toNat < 64) (h1 : v1.toNat < 64)
    : ((((((0 : UInt32) <<< 6) ||| v0) <<< 6) ||| v1) <<< 12).toNat
        = ((v0.toNat * 64 + v1.toNat) * 64 + (0 : UInt32).toNat) * 64 + (0 : UInt32).toNat := by
  have h := toNat_shifted_three h0 h1 (show (0 : UInt32).toNat < 64 by decide)
  rw [UInt32.or_zero] at h
  rw [← h, ← UInt32.shiftLeft_add (by decide) (by decide) (by decide)]
  rfl

theorem decodeValues_eq (vs : List UInt32) (hvs : ∀ v ∈ vs, v.toNat < 64) (hi : i % 4 = 0)
    (hblock : block.length ≤ maxLength)
    : (vs.foldlM (accumulate maxLength) { n := 0, i := i, block := block } >>= finish maxLength)
        = put maxLength (block ++ bytesOf vs) := by
  induction vs using bytesOf.induct generalizing i block with
  | case1 v0 v1 v2 v3 vs ih =>
    simp only [List.forall_mem_cons] at hvs
    obtain ⟨h0, h1, h2, h3, hvs⟩ := hvs
    rw [List.foldlM_cons, accumulate_pending _ (by omega), ok_bind, List.foldlM_cons, accumulate_pending _ (by omega),
      ok_bind, List.foldlM_cons, accumulate_pending _ (by omega), ok_bind, List.foldlM_cons,
      accumulate_group _ (by omega), write_eq _ _ hblock, topBytes_quad h0 h1 h2 h3 (toNat_four h0 h1 h2 h3), bytesOf,
      ← List.append_assoc]
    by_cases hfits : (block ++ quad v0 v1 v2 v3).length ≤ maxLength
    . have hrest := ih (i := i + 1 + 1 + 1 + 1) hvs (by omega) hfits
      rw [← hrest]
      unfold put
      rw [if_pos hfits]
      rfl
    . have hput := put_append (Nat.lt_of_not_le hfits) (bytesOf vs)
      rw [hput]
      unfold put
      rw [if_neg hfits]
      rfl
  | case2 v0 v1 v2 =>
    simp only [List.forall_mem_cons] at hvs
    obtain ⟨h0, h1, h2, -⟩ := hvs
    rw [List.foldlM_cons, accumulate_pending _ (by omega), ok_bind, List.foldlM_cons, accumulate_pending _ (by omega),
      ok_bind, List.foldlM_cons, accumulate_pending _ (by omega), ok_bind, List.foldlM_nil]
    have hmod : (i + 1 + 1 + 1) % 4 = 3 := by omega
    change finish maxLength _ = _
    unfold finish
    dsimp only
    rw [hmod, if_pos (by decide), write_eq _ _ hblock, bytesOf,
      ← topBytes_quad h0 h1 h2 (by decide) (toNat_shifted_three h0 h1 h2)]
    rfl
  | case3 v0 v1 =>
    simp only [List.forall_mem_cons] at hvs
    obtain ⟨h0, h1, -⟩ := hvs
    rw [List.foldlM_cons, accumulate_pending _ (by omega), ok_bind, List.foldlM_cons, accumulate_pending _ (by omega),
      ok_bind, List.foldlM_nil]
    have hmod : (i + 1 + 1) % 4 = 2 := by omega
    change finish maxLength _ = _
    unfold finish
    dsimp only
    rw [hmod, if_pos (by decide), write_eq _ _ hblock, bytesOf,
      ← topBytes_quad h0 h1 (by decide) (by decide) (toNat_shifted_two h0 h1)]
    rfl
  | case4 vs hfour hthree htwo =>
    have hput : put maxLength block = .ok block := if_pos hblock
    match vs with
    | [] =>
      change finish maxLength _ = _
      unfold finish
      dsimp only
      have hnil : bytesOf [] = [] := by simp [bytesOf]
      rw [hi, if_neg (by decide), hnil, List.append_nil, hput]
    | [v0] =>
      rw [List.foldlM_cons, accumulate_pending _ (by omega), ok_bind, List.foldlM_nil]
      have hmod : (i + 1) % 4 = 1 := by omega
      change finish maxLength _ = _
      unfold finish
      dsimp only
      rw [hmod, if_pos (by decide), write_eq _ _ hblock]
      rfl
    | [v0, v1] => exact absurd rfl (htwo v0 v1)
    | [v0, v1, v2] => exact absurd rfl (hthree v0 v1 v2)
    | v0 :: v1 :: v2 :: v3 :: vs => exact absurd rfl (hfour v0 v1 v2 v3 vs)

end Group

/--
The bytes of all characters up to the end or a padding are decoded, as far as there is space for them.
-/
theorem decodeBlock_eq (base64 : List UInt8) (maxLength : Nat)
    : b.decodeBlock base64 maxLength = put maxLength (bytesOf (b.values base64)) := by
  have h := decodeValues_eq (b.values base64) (values_lt base64) (show 0 % 4 = 0 by rfl)
    (show ([] : List UInt8).length ≤ maxLength from Nat.zero_le _)
  rw [List.nil_append, ← decodeLoop_eq] at h
  exact h

theorem length_bytesOf_values_le (base64 : List UInt8)
    : (bytesOf (b.values base64)).length ≤ binaryLength base64 := by
  have hbytes := length_bytesOf_le (b.values base64)
  have hvalues := length_values_le (b := b) base64
  unfold binaryLength
  omega

theorem decode_eq (base64 binary : List UInt8)
    : b.decode base64 binary = some (binary ++ bytesOf (b.values base64)) := by
  unfold decode
  rw [decodeBlock_eq]
  unfold put
  rw [if_pos (length_bytesOf_values_le base64)]

/-
The encoder.
-/

theorem toNat_index (n : UInt32) : ((n >>> 18) &&& 0x3f).toNat = n.toNat / 2 ^ 18 % 64 := by
  rw [UInt32.toNat_and, UInt32.toNat_shiftRight]
  change n.toNat >>> 18 &&& (2 ^ 6 - 1) = _
  rw [Nat.and_two_pow_sub_one_eq_mod, Nat.shiftRight_eq_div_pow]

theorem toNat_shift (n : UInt32) : (n <<< 6).toNat = n.toNat * 64 % 2 ^ 32 := by
  rw [UInt32.toNat_shiftLeft]
  change n.toNat <<< 6 % 2 ^ 32 = _
  rw [Nat.shiftLeft_eq]

def index (n : UInt32) : UInt32 := (n >>> 18) &&& 0x3f

theorem index_lt (n : UInt32) : (index n).toNat < 64 := by
  unfold index
  rw [toNat_index]
  omega

def indexesOf : Nat → UInt32 → List UInt32
  | 0, _ => []
  | count + 1, n => index n :: indexesOf count (n <<< 6)

theorem values_indexes (h : b.WellFormed) (count : Nat) (n : UInt32) (rest : List UInt8)
    : b.values (b.indexes count n ++ rest) = indexesOf count n ++ b.values rest := by
  induction count generalizing n with
  | zero => rfl
  | succ count ih =>
    have hlook : b.look (b.char ((n >>> 18) &&& 0x3f)) = .index (index n) := h.look_char (index_lt n)
    unfold indexes indexesOf
    rw [List.cons_append, values_cons, hlook]
    exact congrArg (index n :: ·) (ih (n <<< 6))

theorem values_outside {lineEnd : List UInt8} (hend : ∀ c ∈ lineEnd, b.IsOutside c) (rest : List UInt8)
    : b.values (lineEnd ++ rest) = b.values rest := by
  induction lineEnd with
  | nil => rfl
  | cons c lineEnd ih =>
    rw [List.forall_mem_cons] at hend
    rw [List.cons_append, values_cons, hend.1.look]
    exact ih hend.2

-- The number of up to three bytes
def number (block : List UInt8) : UInt32 :=
  (block ++ List.replicate (3 - block.length) 0).foldl (fun n (p : UInt8) => (n <<< 8) ||| p.toUInt32) 0

def digitsOf : List UInt8 → List UInt32
  | [] => []
  | p :: q :: r :: block => indexesOf 4 (number [p, q, r]) ++ digitsOf block
  | block => indexesOf (block.length + 1) (number block)

theorem values_encodeLoop (h : b.WellFormed) {lineEnd : List UInt8} (hend : ∀ c ∈ lineEnd, b.IsOutside c)
    (split : Nat) (block : List UInt8) (chars : Nat) (rest : List UInt8)
    : b.values (b.encodeLoop split lineEnd block chars ++ rest) = digitsOf block ++ b.values rest := by
  have hsplit : ∀ (p : Prop) [Decidable p] (rest : List UInt8),
      b.values ((if p then lineEnd else []) ++ rest) = b.values rest := by
    intro p _ rest
    split
    . exact values_outside hend rest
    . rfl
  induction block using digitsOf.induct generalizing chars with
  | case1 => rfl
  | case2 p q r block ih =>
    unfold encodeLoop digitsOf
    dsimp only
    rw [List.append_assoc, List.append_assoc]
    unfold group
    rw [values_indexes h, hsplit, ih, List.append_assoc]
    rfl
  | case3 block hnil hthree =>
    match block with
    | [] => exact absurd rfl hnil
    | [p] =>
      unfold encodeLoop digitsOf group
      dsimp only
      rw [List.append_assoc, values_indexes h, hsplit]
      rfl
    | [p, q] =>
      unfold encodeLoop digitsOf group
      dsimp only
      rw [List.append_assoc, values_indexes h, hsplit]
      rfl
    | p :: q :: r :: block => exact absurd rfl (hthree p q r block)

theorem toNat_number (p q r : UInt8)
    : (number [p, q, r]).toNat = p.toNat * 65536 + q.toNat * 256 + r.toNat := by
  have hp := p.toNat_lt
  have hq := q.toNat_lt
  have hr := r.toNat_lt
  have hstep : ∀ (n : UInt32) (c : UInt8), n.toNat < 2 ^ 16 → ((n <<< 8) ||| c.toUInt32).toNat = n.toNat * 256 + c.toNat := by
    intro n c hn
    have hc := c.toNat_lt
    have hshift : (n <<< 8).toNat = n.toNat <<< 8 := by
      rw [UInt32.toNat_shiftLeft]
      apply Nat.mod_eq_of_lt
      change n.toNat <<< 8 < 2 ^ 32
      rw [Nat.shiftLeft_eq]
      omega
    rw [UInt32.toNat_or, hshift, UInt8.toNat_toUInt32, ← Nat.shiftLeft_add_eq_or_of_lt hc, Nat.shiftLeft_eq]
  have h1 := hstep 0 p (by decide)
  rw [UInt32.toNat_zero] at h1
  have h2 := hstep _ q (by rw [h1]; omega)
  have h3 := hstep _ r (by rw [h2]; omega)
  change ((((((0 : UInt32) <<< 8) ||| p.toUInt32) <<< 8) ||| q.toUInt32) <<< 8 ||| r.toUInt32).toNat = _
  rw [h3, h2, h1]
  omega

theorem toNat_indexes (hn : n.toNat < 2 ^ 24)
    : (index n).toNat = n.toNat / 2 ^ 18 ∧ (index (n <<< 6)).toNat = n.toNat / 2 ^ 12 % 64
        ∧ (index (n <<< 6 <<< 6)).toNat = n.toNat / 2 ^ 6 % 64
        ∧ (index (n <<< 6 <<< 6 <<< 6)).toNat = n.toNat % 64 := by
  unfold index
  simp only [toNat_index, toNat_shift]
  omega

theorem quad_eq (p q r : UInt8) {v0 v1 v2 v3 : UInt32}
    (h : ((v0.toNat * 64 + v1.toNat) * 64 + v2.toNat) * 64 + v3.toNat = p.toNat * 65536 + q.toNat * 256 + r.toNat)
    : quad v0 v1 v2 v3 = [p, q, r] := by
  have hp := p.toNat_lt
  have hq := q.toNat_lt
  have hr := r.toNat_lt
  have hbyte : ∀ (c : UInt8) (k : Nat), k % 256 = c.toNat → UInt8.ofNat k = c := by
    intro c k h
    rw [← UInt8.toNat_inj, UInt8.toNat_ofNat', h]
  unfold quad
  dsimp only
  rw [h, hbyte p _ (by omega), hbyte q _ (by omega), hbyte r _ (by omega)]

theorem number_spec (p q r : UInt8)
    : (index (number [p, q, r])).toNat = p.toNat / 4
        ∧ (index (number [p, q, r] <<< 6)).toNat = p.toNat % 4 * 16 + q.toNat / 16
        ∧ (index (number [p, q, r] <<< 6 <<< 6)).toNat = q.toNat % 16 * 4 + r.toNat / 64
        ∧ (index (number [p, q, r] <<< 6 <<< 6 <<< 6)).toNat = r.toNat % 64 := by
  have hp := p.toNat_lt
  have hq := q.toNat_lt
  have hr := r.toNat_lt
  have hnumber := toNat_number p q r
  have hindexes := toNat_indexes (show (number [p, q, r]).toNat < 2 ^ 24 by omega)
  rw [hnumber] at hindexes
  omega

theorem bytesOf_digitsOf (block : List UInt8) : bytesOf (digitsOf block) = block := by
  have hzero : (0 : UInt8).toNat = 0 ∧ (0 : UInt32).toNat = 0 := ⟨rfl, rfl⟩
  induction block using digitsOf.induct with
  | case1 => simp [bytesOf, digitsOf]
  | case2 p q r block ih =>
    have hnumber := number_spec p q r
    change quad _ _ _ _ ++ bytesOf (digitsOf block) = _
    rw [quad_eq p q r (by omega), ih]
    rfl
  | case3 block hnil hthree =>
    match block with
    | [] => exact absurd rfl hnil
    | [p] =>
      have hnumber := number_spec p 0 0
      have hquad : quad (index (number [p, 0, 0])) (index (number [p, 0, 0] <<< 6)) 0 0 = [p, 0, 0] :=
        quad_eq p 0 0 (by omega)
      change (quad (index (number [p, 0, 0])) (index (number [p, 0, 0] <<< 6)) 0 0).take 1 = _
      rw [hquad]
      rfl
    | [p, q] =>
      have hnumber := number_spec p q 0
      have hquad : quad (index (number [p, q, 0])) (index (number [p, q, 0] <<< 6))
          (index (number [p, q, 0] <<< 6 <<< 6)) 0 = [p, q, 0] :=
        quad_eq p q 0 (by omega)
      change (quad (index (number [p, q, 0])) (index (number [p, q, 0] <<< 6))
          (index (number [p, q, 0] <<< 6 <<< 6)) 0).take 2 = _
      rw [hquad]
      rfl
    | p :: q :: r :: block => exact absurd rfl (hthree p q r block)

theorem values_padding (h : b.WellFormed) (count : Nat)
    : b.values (if b.pad ≠ 0 then List.replicate count b.pad else []) = [] := by
  split
  . next hpad =>
    cases count with
    | zero => rfl
    | succ count => rw [List.replicate_succ, values_cons, h.look_pad hpad]
  . rfl

theorem values_encode (h : b.WellFormed) {lineEnd : List UInt8} (hend : ∀ c ∈ lineEnd, b.IsOutside c) (split : Nat)
    (block : List UInt8)
    : b.values (b.encode split lineEnd block) = digitsOf block := by
  unfold encode
  dsimp only
  rw [values_encodeLoop h hend, values_padding h, List.append_nil]

/--
Decoding undoes encoding, and what is decoded of any text fits into the length that is given for it.
-/
theorem decode_encode_base64
    : (∀ b : Base64, b.WellFormed → ∀ (split : Nat) (lineEnd : List UInt8), (∀ c ∈ lineEnd, b.IsOutside c) →
          ∀ block binary : List UInt8, b.decode (b.encode split lineEnd block) binary = some (binary ++ block))
        ∧
      ∀ (b : Base64) (base64 : List UInt8) (maxLength : Nat),
        ∃ block : List UInt8, block.length ≤ binaryLength base64
          ∧ (b.decodeBlock base64 maxLength = .ok block ∨ b.decodeBlock base64 maxLength = .error block) := by
  constructor
  . intro b h split lineEnd hend block binary
    rw [decode_eq, values_encode h hend, bytesOf_digitsOf]
  . intro b base64 maxLength
    have hle := length_bytesOf_values_le (b := b) base64
    rw [decodeBlock_eq]
    unfold put
    split
    . exact ⟨_, hle, Or.inl rfl⟩
    . refine ⟨_, ?_, Or.inr rfl⟩
      rw [List.length_take]
      omega

theorem decode_encode_base64_standard
    : standard.decode (standard.encode 4 [13, 10] [79, 98, 84, 111, 111]) [7] = some ([7] ++ [79, 98, 84, 111, 111]) := by
  have hstandard : standard.WellFormed :=
    ⟨by decide, by decide, by decide, fun _ => ⟨by decide, by decide, by decide⟩⟩
  have hend : ∀ c ∈ ([13, 10] : List UInt8), standard.IsOutside c := by
    rw [List.forall_mem_cons, List.forall_mem_singleton]
    exact ⟨⟨by decide, by decide, by decide, by decide⟩, ⟨by decide, by decide, by decide, by decide⟩⟩
  exact decode_encode_base64.1 standard hstandard 4 [13, 10] hend [79, 98, 84, 111, 111] [7]

end Base64
end Text
end ObTools
