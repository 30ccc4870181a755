import Mathlib.Data.List.Induction
import ObTools.Xml.References

/-!
This module contains the proof of what character references stand for. The base of the numbers stays
hexadecimal when it has been so once.
-/

namespace ObTools
namespace Xml
namespace Parser

open ObTools.Lex (chars)

-- A character of up to 16 bits
def utf8 (n : Nat) : Bytes :=
  if n < 0x80 then
    [UInt8.ofNat n]
  else if n < 0x800 then
    [UInt8.ofNat (0xC0 + n / 64), UInt8.ofNat (0x80 + n % 64)]
  else
    [UInt8.ofNat (0xE0 + n / 4096), UInt8.ofNat (0x80 + n / 64 % 64), UInt8.ofNat (0x80 + n % 64)]

def base (hex : Bool) : Nat := if hex then 16 else 10

/-
A character reference after its &.
-/
structure CharRef where
  hex : Bool
  digits : Bytes
  ne_nil : digits ≠ []
  isDigit : ∀ c ∈ digits, Digits.isDigit (base hex) c = true
  one_le : 1 ≤ Digits.ofBytes (base hex) digits
  lt : Digits.ofBytes (base hex) digits < 0x10000

namespace CharRef

def value (r : CharRef) : Nat := Digits.ofBytes (base r.hex) r.digits

def text (r : CharRef) : Bytes := 35 :: (if r.hex then [120] else []) ++ r.digits ++ [59]

end CharRef

-- The reference that comes next stands for its character
def Expands (p : Parser) : Prop :=
  ∀ (r : CharRef) (rest : Bytes), p.rest = r.text ++ rest →
    ∃ hex, readRef p = some (.ok (utf8 r.value, { p with rest := rest, hex := hex }))

-- A decimal reference with a number that is another one if it is hexadecimal
def IsDecimal (p : Parser) : Prop :=
  ∃ (r : CharRef) (rest : Bytes), r.hex = false ∧ 10 ≤ r.value ∧ p.rest = r.text ++ rest

/-
The encoding of a character.
-/

theorem or_low : ∀ x : Fin 16, 0xE0 ||| UInt8.ofNat x = UInt8.ofNat (0xE0 + x) := by
  decide

theorem or_two : ∀ x : Fin 32, 0xC0 ||| UInt8.ofNat x = UInt8.ofNat (0xC0 + x) := by
  decide

theorem or_tail (n : Nat) : 0x80 ||| (UInt8.ofNat n &&& 0x3F) = UInt8.ofNat (0x80 + n % 64) := by
  have h : ∀ x : UInt8, 0x80 ||| (x &&& 0x3F) = UInt8.ofNat (0x80 + x.toNat % 64) := by
    apply Digits.forall_byte
    decide
  rw [h, UInt8.toNat_ofNat', show n % 2 ^ 8 % 64 = n % 64 by omega]

theorem or_lead_mod (n : Nat) : (0xE0 ||| UInt8.ofNat n).toNat % 32 = n % 32 := by
  have h : ∀ x : UInt8, (0xE0 ||| x).toNat % 32 = x.toNat % 32 := by
    apply Digits.forall_byte
    decide
  rw [h, UInt8.toNat_ofNat', show n % 2 ^ 8 % 32 = n % 32 by omega]

theorem ofInt_natCast (n : Nat) : UInt8.ofInt (n : Int) = UInt8.ofNat n := by
  have hmod : ((n : Int) % 2 ^ 8).toNat = n % 2 ^ 8 := by omega
  rw [UInt8.ofInt, hmod, ← UInt8.toNat_inj, UInt8.toNat_ofNat', UInt8.toNat_ofNat', Nat.mod_mod]

theorem encodeChar_one {n : Nat} (h : n < 0x80) : encodeChar n = [UInt8.ofNat n] := by
  unfold encodeChar
  dsimp only
  rw [if_pos (by omega), ofInt_natCast]

theorem encodeChar_two {n : Nat} (h1 : 0x80 ≤ n) (h2 : n < 0x800)
    : encodeChar n = [UInt8.ofNat (0xC0 + n / 64), UInt8.ofNat (0x80 + n % 64)] := by
  unfold encodeChar
  dsimp only
  rw [if_neg (by omega), if_pos (by omega), show (n : Int) / 64 = (n / 64 : Nat) by omega, ofInt_natCast,
    ofInt_natCast, or_tail, or_two ⟨n / 64, by omega⟩]

theorem encodeChar_three {n : Nat} (h : 0x800 ≤ n)
    : encodeChar n
        = [0xE0 ||| UInt8.ofNat (n / 4096), UInt8.ofNat (0x80 + n / 64 % 64), UInt8.ofNat (0x80 + n % 64)] := by
  unfold encodeChar
  dsimp only
  rw [if_neg (by omega), if_neg (by omega), show (n : Int) / 64 = (n / 64 : Nat) by omega,
    show (n : Int) / 4096 = (n / 4096 : Nat) by omega, ofInt_natCast, ofInt_natCast, ofInt_natCast, or_tail,
    or_tail]

theorem encodeChar_eq {n : Nat} (h : n < 0x10000) : encodeChar n = utf8 n := by
  unfold utf8
  split
  case isTrue h1 => exact encodeChar_one h1
  case isFalse h1 =>
    split
    case isTrue h2 => exact encodeChar_two (Nat.le_of_not_lt h1) h2
    case isFalse h2 => rw [encodeChar_three (Nat.le_of_not_lt h2), or_low ⟨n / 4096, by omega⟩]

theorem ofNat_inj {m n : Nat} (hm : m < 256) (hn : n < 256) (h : UInt8.ofNat m = UInt8.ofNat n) : m = n := by
  have := congrArg UInt8.toNat h
  rw [UInt8.toNat_ofNat_of_lt' hm, UInt8.toNat_ofNat_of_lt' hn] at this
  exact this

/-
Decimal digits that are read as hexadecimal ones.
-/

def asHex (n : Nat) : Nat := if n < 10 then n else 16 * asHex (n / 10) + n % 10

theorem asHex_eq (n : Nat) : asHex n = 16 * asHex (n / 10) + n % 10 := by
  rw [asHex]
  split
  case isTrue h => rw [Nat.div_eq_of_lt h, Nat.mod_eq_of_lt h, asHex, if_pos (by decide), Nat.mul_zero, Nat.zero_add]
  case isFalse => rfl

theorem asHex_of_lt {n : Nat} (h : n < 10) : asHex n = n := by
  rw [asHex, if_pos h]

theorem le_asHex (n : Nat) : n ≤ asHex n := by
  induction n using Nat.strongRecOn with
  | ind n ih =>
    rw [asHex]
    split
    case isTrue => exact Nat.le_refl n
    case isFalse h =>
      have := ih (n / 10) (by omega)
      omega

theorem lt_asHex {n : Nat} (h : 10 ≤ n) : n < asHex n := by
  have := le_asHex (n / 10)
  rw [asHex_eq]
  omega

-- Up to five digits
theorem asHex_five {n : Nat} (h : n < 100000)
    : asHex n = 65536 * (n / 10000) + 4096 * (n / 1000 % 10) + 256 * (n / 100 % 10) + 16 * (n / 10 % 10) + n % 10 := by
  rw [asHex_eq n, asHex_eq (n / 10), asHex_eq (n / 10 / 10), asHex_eq (n / 10 / 10 / 10),
    asHex_of_lt (n := n / 10 / 10 / 10 / 10) (by omega)]
  omega

-- The numbers would differ by a multiple of 2 ^ 17, which is divisible by three
theorem not_asHex_mod {n : Nat} (hle : 10 ≤ n) (hlt : n < 0x10000) : asHex n % 131072 ≠ n := by
  have hgt := lt_asHex hle
  have hdigits : n = 10000 * (n / 10000) + 1000 * (n / 1000 % 10) + 100 * (n / 100 % 10) + 10 * (n / 10 % 10)
      + n % 10 := by omega
  have h1 : n / 10000 ≤ 6 := by omega
  have h2 : n / 1000 % 10 ≤ 9 := by omega
  have h3 : n / 100 % 10 ≤ 9 := by omega
  have h4 : n / 10 % 10 ≤ 9 := by omega
  rw [asHex_five (by omega : n < 100000)] at hgt ⊢
  generalize n / 10000 = a at *
  generalize n / 1000 % 10 = b at *
  generalize n / 100 % 10 = c at *
  generalize n / 10 % 10 = d at *
  generalize n % 10 = e at *
  intro hmod
  have hdiv := Nat.div_add_mod (65536 * a + 4096 * b + 256 * c + 16 * d + e) 131072
  rw [hmod] at hdiv
  generalize (65536 * a + 4096 * b + 256 * c + 16 * d + e) / 131072 = k at hdiv
  obtain ⟨x, hx⟩ : ∃ x, x = 9256 * a + 516 * b + 26 * c + d := ⟨_, rfl⟩
  have hdifference : 3 * x = 65536 * k := by
    clear h1 h2 h3 h4 hgt hmod
    omega
  have hpos : 0 < k := by
    clear hdigits hdifference
    omega
  have hmax : x < 65536 := by
    clear hdigits hdiv hgt hdifference
    omega
  clear hx hdigits hdiv hgt
  have hthree : k % 3 = 0 := by omega
  omega

/--
A number from 10 on is encoded as another character when its digits are hexadecimal ones.
-/
theorem encodeChar_asHex_ne {n : Nat} (hle : 10 ≤ n) (hlt : n < 0x10000) : encodeChar (asHex n) ≠ utf8 n := by
  have hfive := asHex_five (by omega : n < 100000)
  have hgt := lt_asHex hle
  intro heq
  rw [← encodeChar_eq hlt] at heq
  by_cases h1 : n < 0x80
  . rw [encodeChar_one h1] at heq
    by_cases h2 : asHex n < 0x80
    . rw [encodeChar_one h2, List.cons.injEq] at heq
      have := ofNat_inj (by omega) (by omega) heq.1
      omega
    . by_cases h3 : asHex n < 0x800
      . rw [encodeChar_two (by omega) h3] at heq
        exact absurd (congrArg List.length heq) (by simp)
      . rw [encodeChar_three (by omega)] at heq
        exact absurd (congrArg List.length heq) (by simp)
  . by_cases h3 : n < 0x800
    . rw [encodeChar_two (by omega) h3] at heq
      by_cases h4 : asHex n < 0x800
      . rw [encodeChar_two (by omega) h4, List.cons.injEq, List.cons.injEq] at heq
        have hlead := ofNat_inj (by omega) (by omega) heq.1
        have htail := ofNat_inj (by omega) (by omega) heq.2.1
        omega
      . rw [encodeChar_three (by omega)] at heq
        exact absurd (congrArg List.length heq) (by simp)
    . rw [encodeChar_three (by omega), encodeChar_three (by omega), List.cons.injEq, List.cons.injEq,
        List.cons.injEq] at heq
      have hlead := congrArg (fun x => x.toNat % 32) heq.1
      have hmid := ofNat_inj (by omega) (by omega) heq.2.1
      have htail := ofNat_inj (by omega) (by omega) heq.2.2.1
      rw [or_lead_mod, or_lead_mod] at hlead
      apply not_asHex_mod hle hlt
      clear hfive
      generalize asHex n = m at *
      omega

/-
Reading the number.
-/

theorem digit_eq (hex : Bool) (c : UInt8)
    : digit hex c = if Digits.isDigit (base hex) c then some (Digits.value c) else none := by
  revert hex
  apply Digits.forall_byte (P := fun c => ∀ hex,
    digit hex c = if Digits.isDigit (base hex) c then some (Digits.value c) else none)
  decide

variable {hex : Bool} {ds rest : Bytes} {p : Parser}

theorem digits_eq (hds : ∀ c ∈ ds, Digits.isDigit (base hex) c = true) (n count : Nat)
    : digits hex (ds ++ 59 :: rest) n count
        = (ds.foldl (fun n c => base hex * n + Digits.value c) n, count + ds.length, 59 :: rest) := by
  induction ds generalizing n count with
  | nil =>
    have hend : digit hex 59 = none := by
      cases hex <;> rfl
    rw [List.nil_append, digits, hend]
    rfl
  | cons c ds ih =>
    rw [List.forall_mem_cons] at hds
    rw [List.cons_append, digits, digit_eq, if_pos hds.1]
    dsimp only
    rw [ih hds.2, List.foldl_cons, List.length_cons, Nat.add_assoc, Nat.add_comm 1]
    rfl

theorem isDigit_spec
    : ∀ c : UInt8, Digits.isDigit 16 c = true → c ≠ 43 ∧ c ≠ 45 ∧ c ≠ 120 ∧ c ≠ 88 := by
  apply Digits.forall_byte
  decide

theorem isDigit_sixteen {c : UInt8} (h : Digits.isDigit (base hex) c = true) : Digits.isDigit 16 c = true := by
  unfold Digits.isDigit at *
  rw [decide_eq_true_iff] at *
  apply Nat.lt_of_lt_of_le h
  cases hex <;> decide

theorem dropHexPrefix_eq (hds : ∀ c ∈ ds, Digits.isDigit 16 c = true)
    : dropHexPrefix hex (ds ++ 59 :: rest) = ds ++ 59 :: rest := by
  have hsecond {c : UInt8} {rest' : Bytes} (heq : ds ++ 59 :: rest = 48 :: c :: rest') : c ≠ 120 ∧ c ≠ 88 := by
    match ds with
    | [] => cases heq
    | [d] =>
      cases heq
      decide
    | d :: e :: ds =>
      cases heq
      have := isDigit_spec c (hds c (List.mem_cons_of_mem _ List.mem_cons_self))
      exact ⟨this.2.2.1, this.2.2.2⟩
  unfold dropHexPrefix
  split
  case h_1 heq => exact absurd rfl (hsecond heq).1
  case h_2 heq => exact absurd rfl (hsecond heq).2
  case h_3 => rfl

theorem readInt_eq (hnil : ds ≠ []) (hds : ∀ c ∈ ds, Digits.isDigit (base hex) c = true)
    (hlt : Digits.ofBytes (base hex) ds < 2147483648)
    : readInt hex (ds ++ 59 :: rest) = some ((Digits.ofBytes (base hex) ds : Int), 59 :: rest) := by
  have hsixteen : ∀ c ∈ ds, Digits.isDigit 16 c = true := fun c hc => isDigit_sixteen (hds c hc)
  have hsign {c : UInt8} {rest' : Bytes} (heq : ds ++ 59 :: rest = c :: rest') : c ≠ 43 ∧ c ≠ 45 := by
    match ds, hnil with
    | d :: ds, _ =>
      cases heq
      have := isDigit_spec c (hsixteen c List.mem_cons_self)
      exact ⟨this.1, this.2.1⟩
  have hlength : 0 + ds.length ≠ 0 := by
    rw [Nat.zero_add, Ne, List.length_eq_zero_iff]
    exact hnil
  unfold readInt
  split
  case h_1 negative rest' heq =>
    split at heq
    case h_1 hplus => exact absurd rfl (hsign hplus).1
    case h_2 hminus => exact absurd rfl (hsign hminus).2
    case h_3 =>
      cases heq
      rw [dropHexPrefix_eq hsixteen, digits_eq hds]
      unfold Digits.ofBytes at *
      simp only [Bool.false_eq_true, if_false]
      rw [if_neg]
      rw [not_or, not_or]
      exact ⟨hlength, by omega, by omega⟩

theorem readNumber_eq (hfailed : p.failed = false) (hnil : ds ≠ [])
    (hds : ∀ c ∈ ds, Digits.isDigit (base p.hex) c = true)
    (hlt : Digits.ofBytes (base p.hex) ds < 2147483648) (hrest : p.rest = ds ++ 59 :: rest)
    : readNumber p = some (.ok (((Digits.ofBytes (base p.hex) ds : Int), 59), { p with rest := rest })) := by
  have hread : (if p.failed then none else readInt p.hex p.rest)
      = some ((Digits.ofBytes (base p.hex) ds : Int), 59 :: rest) := by
    rw [hfailed, if_neg (by simp), hrest, readInt_eq hnil hds hlt]
  have hget := getChar_cons (p := { p with rest := 59 :: rest }) (c := 0) hfailed rfl
  unfold readNumber
  rw [Decoder.get_bind, hread]
  dsimp only
  rw [Decoder.set_bind, Decoder.bind_eq _ hget]
  rfl

theorem ofBytes_asHex (hds : ∀ c ∈ ds, Digits.isDigit 10 c = true)
    : Digits.ofBytes 16 ds = asHex (Digits.ofBytes 10 ds) := by
  induction ds using List.reverseRecOn with
  | nil =>
    rw [asHex_of_lt (by decide)]
    rfl
  | append_singleton ds c ih =>
    rw [List.forall_mem_append, List.forall_mem_singleton] at hds
    have hc : Digits.value c < 10 := of_decide_eq_true hds.2
    rw [Digits.ofBytes_snoc, Digits.ofBytes_snoc, ih hds.1, asHex_eq (10 * _ + _), Nat.mul_add_div (by decide),
      Nat.div_eq_of_lt hc, Nat.add_zero, Nat.mul_add_mod, Nat.mod_eq_of_lt hc]

namespace CharRef

-- What is read in the base of the reference, or as a hexadecimal number
def read (r : CharRef) (hex : Bool) : Nat := Digits.ofBytes (base (hex || r.hex)) r.digits

theorem value_lt (r : CharRef) : r.value < 0x10000 := r.lt

theorem read_eq (r : CharRef) {hex : Bool} (h : hex = false ∨ r.hex = true) : r.read hex = r.value := by
  unfold read value
  rcases h with rfl | h
  . rw [Bool.false_or]
  . rw [h, Bool.or_true]

theorem read_asHex (r : CharRef) (h : r.hex = false) : r.read true = asHex r.value := by
  have hdigits := r.isDigit
  unfold read value
  rw [h] at hdigits ⊢
  exact ofBytes_asHex hdigits

theorem read_lt (r : CharRef) (hex : Bool) : r.read hex < 2147483648 := by
  have hlt := r.lt
  by_cases h : hex = false ∨ r.hex = true
  . rw [r.read_eq h]
    unfold value
    omega
  . rw [not_or, Bool.not_eq_false, Bool.not_eq_true] at h
    have hfive := asHex_five (n := r.value) (by unfold value; omega)
    rw [h.1, r.read_asHex h.2, hfive]
    unfold value
    omega

end CharRef

theorem isDigit_or (hds : ∀ c ∈ ds, Digits.isDigit (base hex) c = true) (b : Bool)
    : ∀ c ∈ ds, Digits.isDigit (base (b || hex)) c = true := by
  intro c hc
  cases b with
  | false => exact hds c hc
  | true => exact isDigit_sixteen (hds c hc)

/--
The base is hexadecimal if it has been so before, or if the reference is hexadecimal.
-/
theorem readRef_charRef (r : CharRef) (hfailed : p.failed = false) (hrest : p.rest = r.text ++ rest)
    : readRef p = some (.ok (encodeChar (r.read p.hex), { p with rest := rest, hex := p.hex || r.hex })) := by
  have hds := isDigit_or r.isDigit p.hex
  -- The number and the semicolon, when the base is as it has to be
  have hnumber (q : Parser) (hq : q.failed = false) (hhex : q.hex = (p.hex || r.hex))
      (hrest : q.rest = r.digits ++ 59 :: rest)
      : (do
          let number ← readNumber
          if number.2 ≠ 59 then
            fatal (chars "Malformed character reference")
          return encodeChar number.1) q = some (.ok (encodeChar (r.read p.hex), { q with rest := rest })) := by
    have hlt := r.read_lt p.hex
    unfold CharRef.read at hlt ⊢
    rw [← hhex] at hds hlt ⊢
    rw [Decoder.bind_eq _ (readNumber_eq hq r.ne_nil hds hlt hrest)]
    rfl
  unfold CharRef.text at hrest
  unfold readRef
  cases hr : r.hex with
  | true =>
    rw [hr] at hnumber hrest
    have hcons : p.rest = 35 :: 120 :: (r.digits ++ 59 :: rest) := by
      rw [hrest]
      simp
    have hsecond : getChar 35 { p with rest := 120 :: (r.digits ++ 59 :: rest) }
        = some (.ok (120, { p with rest := r.digits ++ 59 :: rest })) := getChar_cons hfailed rfl
    rw [Decoder.bind_eq _ (getChar_cons hfailed hcons), if_pos rfl, Decoder.bind_eq _ hsecond]
    dsimp only
    rw [if_pos rfl, Decoder.modify_bind]
    rw [Bool.or_true] at hnumber ⊢
    exact hnumber { p with rest := r.digits ++ 59 :: rest, hex := true } hfailed rfl rfl
  | false =>
    obtain ⟨d, ds, hdigits⟩ := List.exists_cons_of_ne_nil r.ne_nil
    have hd : d ≠ 120 := by
      have := r.isDigit d (by rw [hdigits]; exact List.mem_cons_self)
      exact (isDigit_spec d (isDigit_sixteen this)).2.2.1
    rw [hr] at hnumber hrest
    have hcons : p.rest = 35 :: d :: (ds ++ 59 :: rest) := by
      rw [hrest, hdigits]
      simp
    have hsecond : getChar 35 { p with rest := d :: (ds ++ 59 :: rest) }
        = some (.ok (d, { p with rest := ds ++ 59 :: rest })) := getChar_cons hfailed rfl
    have hunget : unget d { p with rest := ds ++ 59 :: rest }
        = some (.ok ((), { p with rest := d :: (ds ++ 59 :: rest) })) := by
      unfold unget
      rw [if_neg (by simp [hfailed])]
    rw [Decoder.bind_eq _ (getChar_cons hfailed hcons), if_pos rfl, Decoder.bind_eq _ hsecond]
    dsimp only
    rw [if_neg hd, Decoder.bind_eq _ hunget]
    rw [Bool.or_false] at hnumber ⊢
    refine hnumber { p with rest := d :: (ds ++ 59 :: rest) } hfailed rfl ?_
    rw [hdigits, List.cons_append]

/--
A reference stands for its character unless a decimal number from 10 on is read as a hexadecimal one.
-/
theorem expands_iff (hfailed : p.failed = false) : Expands p ↔ (p.hex = true → ¬IsDecimal p) := by
  constructor
  . rintro hexpands hhex ⟨r, rest, hr, hle, hrest⟩
    obtain ⟨hex, hread⟩ := hexpands r rest hrest
    rw [readRef_charRef r hfailed hrest, hhex, r.read_asHex hr] at hread
    have heq := (Prod.mk.inj (Except.ok.inj (Option.some.inj hread))).1
    exact encodeChar_asHex_ne hle r.lt heq
  . intro hno r rest hrest
    refine ⟨p.hex || r.hex, ?_⟩
    rw [readRef_charRef r hfailed hrest, ← encodeChar_eq r.value_lt]
    have hread : r.read p.hex = r.value := by
      by_cases h : p.hex = false ∨ r.hex = true
      . exact r.read_eq h
      . rw [not_or, Bool.not_eq_false, Bool.not_eq_true] at h
        have hlt : r.value < 10 := by
          by_contra hle
          exact hno h.1 ⟨r, rest, h.2, Nat.le_of_not_lt hle, hrest⟩
        rw [h.1, r.read_asHex h.2, asHex_of_lt hlt]
    rw [hread]

/-
The references of a document.
-/

theorem references_tracks (flags : Flags) (userNsMap : List (Bytes × Bytes)) (input : Bytes) (next : Nat)
    : Visits.Ordered (fun hex p => p.failed = false ∧ p.hex = hex) (fun hex p => hex || p.startsHex) false
        (references flags userNsMap input next) := by
  have htracks : TracksHex parseStream (visitsOf stepRefs) (new flags userNsMap input next) :=
    visitsOf_tracks (I := fun _ => True) (fun _ _ _ _ _ => trivial) (fun _ _ _ _ _ => trivial)
      (fun _ _ => parseStep_tracks) trivial (hex_eq fun _ => skipBom_keeps)
  exact htracks.ordered

theorem ordered_expand {hex : Bool} {l : List Parser}
    (h : Visits.Ordered (fun hex p => p.failed = false ∧ p.hex = hex) (fun hex p => hex || p.startsHex) hex l)
    : (∀ p ∈ l, Expands p) ↔
        (hex = true → ∀ p ∈ l, ¬IsDecimal p) ∧ l.Pairwise fun p q => p.startsHex = true → ¬IsDecimal q := by
  induction l generalizing hex with
  | nil => simp
  | cons p l ih =>
    obtain ⟨⟨hfailed, hhex⟩, h⟩ := h
    rw [List.forall_mem_cons, List.pairwise_cons, ih h, expands_iff hfailed, hhex, List.forall_mem_cons]
    dsimp only
    rw [Bool.or_eq_true]
    constructor
    . rintro ⟨hp, hl, hpair⟩
      exact ⟨fun h => ⟨hp h, hl (.inl h)⟩, fun q hq hs => hl (.inr hs) q hq, hpair⟩
    . rintro ⟨hl, hs, hpair⟩
      refine ⟨fun h => (hl h).1, ?_, hpair⟩
      rintro (h | h)
      . exact (hl h).2
      . exact fun q hq => hs q hq h

/--
All character references of a document stand for their characters if and only if no decimal one from 10 on
comes after a hexadecimal one.
-/
theorem references_expand_iff (flags : Flags) (userNsMap : List (Bytes × Bytes)) (input : Bytes) (next : Nat)
    : (∀ p ∈ references flags userNsMap input next, Expands p) ↔
        (references flags userNsMap input next).Pairwise fun p q => p.startsHex = true → ¬IsDecimal q := by
  rw [ordered_expand (references_tracks flags userNsMap input next)]
  simp

-- Two references, a hexadecimal one and a decimal one
def twoRefs : Bytes := chars "<a>&#x41;&#66;</a>"

/--
The second reference stands for `f`, and not for the letter that its number is for.
-/
theorem not_references_expand
    : (¬∀ p ∈ references PARSER_OPTIMISE_CONTENT [] twoRefs 0, Expands p)
        ∧ (readFrom PARSER_OPTIMISE_CONTENT [] twoRefs 0).map Element.content = some (chars "Af") := by
  refine ⟨?_, by decide +kernel⟩
  have hany : (references PARSER_OPTIMISE_CONTENT [] twoRefs 0).any (fun p =>
      !p.failed && p.hex && p.rest == chars "#66;</a>") = true := by
    decide +kernel
  rw [List.any_eq_true] at hany
  obtain ⟨p, hmem, hp⟩ := hany
  simp only [Bool.and_eq_true, Bool.not_eq_true', beq_iff_eq] at hp
  intro h
  refine (expands_iff hp.1.1).mp (h p hmem) hp.1.2 ?_
  refine ⟨⟨false, chars "66", by decide, by decide +kernel, by decide, by decide⟩, chars "</a>", rfl, by decide, ?_⟩
  rw [hp.2]
  rfl

end Parser
end Xml
end ObTools
