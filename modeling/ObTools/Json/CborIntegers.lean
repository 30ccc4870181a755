import ObTools.Json.CborTrees

/-!
This module contains which integers are read as the numbers that they stand for, as values and as the
names of properties.
-/

namespace ObTools
namespace Json

open Channel (BasicRead Lawful)
open Decoder (Reads)

namespace CborReader

variable {σ : Type} {basicRead : BasicRead σ} {data : σ → List UInt8} {b : UInt8} {arg : Bytes}
  {n : UInt64} {fuel : Nat}

-- The bytes of an integer, positive or negative, and the number that they stand for
structure IntegerItem (bytes : Bytes) (v : Int) : Prop where
  spec : ∃ b arg n, bytes = b :: arg ∧ Argument b arg n
    ∧ ((b >>> 5 = 0 ∧ v = n.toNat) ∨ (b >>> 5 = 1 ∧ v = -1 - n.toNat))

theorem toInt64_toInt (n : UInt64) : n.toInt64.toInt = (n.toNat : Int).bmod (2 ^ 64) := by
  rw [Int64.toInt, UInt64.toBitVec_toInt64, BitVec.toInt_eq_toNat_bmod]
  rfl

theorem negative_toInt (n : UInt64) : (-1 - n).toInt64.toInt = (-1 - (n.toNat : Int)).bmod (2 ^ 64) := by
  have hlt := n.toNat_lt
  have hsub : ((-1 - n).toNat : Int) = -1 - n.toNat + (2 ^ 64 : Nat) := by
    rw [UInt64.toNat_sub]
    have hminus : (-1 : UInt64).toNat = 2 ^ 64 - 1 := rfl
    rw [hminus]
    omega
  rw [toInt64_toInt, hsub, Int.add_bmod_right]

-- A number that is cut off is the number itself if it fits
theorem bmod_eq_self_iff {v : Int} {m : Nat} (hm : 0 < m)
    : v.bmod (2 * m) = v ↔ -(m : Int) ≤ v ∧ v < m := by
  rw [Int.bmod_eq_iff (by omega), Int.sub_self]
  have hdvd : ((2 * m : Nat) : Int) ∣ 0 := Int.dvd_zero _
  simp only [hdvd, and_true]
  omega

/--
An integer is read as a number of 64 bits that agrees with the one that it stands for up to a multiple of
`2 ^ 64`.
-/
theorem decode_integerItem {bytes : Bytes} {v : Int} (hitem : IntegerItem bytes v)
    : ∃ k : Int64, k.toInt = v.bmod (2 ^ 64) ∧
        ∀ (σ : Type) (basicRead : BasicRead σ) (data : σ → List UInt8), Lawful basicRead data →
          ∀ fuel, Reads data (decode basicRead (fuel + 1)) bytes (.integer k) := by
  obtain ⟨b, arg, n, rfl, harg, ⟨hb, rfl⟩ | ⟨hb, rfl⟩⟩ := hitem.spec
  . refine ⟨n.toInt64, toInt64_toInt n, ?_⟩
    intro σ basicRead data h fuel
    unfold decode
    apply (readByte_reads h b).bind
    rw [if_pos hb]
    exact (readInt_argument h harg).bind_return fun v => Value.integer v.toInt64
  . refine ⟨(-1 - n).toInt64, negative_toInt n, ?_⟩
    intro σ basicRead data h fuel
    unfold decode
    apply (readByte_reads h b).bind
    rw [if_neg (by rw [hb]; decide), if_pos hb]
    exact (readInt_argument h harg).bind_return fun v => Value.integer (-1 - v).toInt64

/-
Decimal numbers.
-/

def decimal (v : Int) : Bytes := (toString v).toList.map Char.toUInt8

theorem decimal_ofNat (n : Nat) : decimal n = Digits.toBytes 10 n := by
  simp [decimal, Digits.toBytes, toString, Int.repr]

theorem decimal_negSucc (n : Nat) : decimal (Int.negSucc n) = 45 :: Digits.toBytes 10 (n + 1) := by
  simp [decimal, Digits.toBytes, toString, Int.repr]
  rfl

theorem decimal_injective {v w : Int} (h : decimal v = decimal w) : v = w := by
  have hdigits (n m : Nat) (heq : Digits.toBytes 10 n = Digits.toBytes 10 m) : n = m := by
    have hround (n : Nat) : Digits.ofBytes 10 (Digits.toBytes 10 n) = n :=
      Digits.ofBytes_toBytes (by decide) (by decide) n
    rw [← hround n, heq, hround]
  have hsign (n : Nat) (digits : Bytes) : Digits.toBytes 10 n ≠ 45 :: digits := by
    intro heq
    have hmem : (45 : UInt8) ∈ Digits.toBytes 10 n := by
      rw [heq]
      exact List.mem_cons_self
    exact absurd (Digits.isDigit_of_mem_toBytes (by decide) (by decide) hmem) (by decide)
  cases v with
  | ofNat n =>
    cases w with
    | ofNat m =>
      rw [Int.ofNat_eq_natCast, Int.ofNat_eq_natCast, decimal_ofNat, decimal_ofNat] at h
      rw [hdigits n m h]
    | negSucc m =>
      rw [Int.ofNat_eq_natCast, decimal_ofNat, decimal_negSucc] at h
      exact absurd h (hsign n _)
  | negSucc n =>
    cases w with
    | ofNat m =>
      rw [Int.ofNat_eq_natCast, decimal_ofNat, decimal_negSucc] at h
      exact absurd h.symm (hsign m _)
    | negSucc m =>
      rw [decimal_negSucc, decimal_negSucc] at h
      rw [Nat.succ.inj (hdigits _ _ (List.cons.inj h).2)]

theorem itos_eq (i : Int32) : Text.itos i = decimal i.toInt := rfl

/-
Maps with integer keys.
-/

structure Property where
  keyBytes : Bytes
  key : Int
  valueBytes : Bytes
  value : Value
  isKey : IntegerItem keyBytes key
  isValue : Decodes valueBytes value

namespace Property

def bytes (e : Property) : Bytes := e.keyBytes ++ e.valueBytes

-- The name that the key is given
def name (e : Property) : Bytes := decimal (e.key.bmod (2 ^ 32))

end Property

-- A map of a definite size, or one that ends with a break
inductive IsMap (es : List Property) : Bytes → Prop where
  | definite {b : UInt8} {arg : Bytes} {n : UInt64} (hb : b >>> 5 = 5) (harg : Argument b arg n)
      (hn : n.toNat = es.length)
      : IsMap es (b :: (arg ++ es.flatMap Property.bytes))
  | indefinite : IsMap es (0xbf :: (es.flatMap Property.bytes ++ [0xff]))

-- The loop over a map of a definite size can count its properties
def IsCounted (es : List Property) (bytes : Bytes) : Prop :=
  bytes.head? = some 0xbf ∨ es.length < 2 ^ 32

-- The object with the given names for the properties
def objectOf (name : Property → Bytes) (es : List Property) : List (Bytes × Value) :=
  es.foldl (fun o e => mapSet (name e) e.value o) []

theorem mem_keys_mapSet {o : List (Bytes × Value)} {k l : Bytes} {v : Value}
    : l ∈ (mapSet k v o).map Prod.fst ↔ l = k ∨ l ∈ o.map Prod.fst := by
  induction o with
  | nil => simp [mapSet]
  | cons e o ih =>
    obtain ⟨k', w⟩ := e
    unfold mapSet
    split
    . simp
    . split
      . next heq =>
        subst heq
        simp
      . rw [List.map_cons, List.mem_cons, ih, List.map_cons, List.mem_cons]
        tauto

theorem mem_keys_foldl (name : Property → Bytes) (es : List Property) (o : List (Bytes × Value))
    (l : Bytes)
    : l ∈ (es.foldl (fun o e => mapSet (name e) e.value o) o).map Prod.fst
        ↔ (∃ e ∈ es, name e = l) ∨ l ∈ o.map Prod.fst := by
  induction es generalizing o with
  | nil => simp
  | cons e es ih =>
    rw [List.foldl_cons, ih, mem_keys_mapSet, ← or_assoc]
    simp only [List.exists_mem_cons_iff, @eq_comm _ l, or_comm]

theorem mem_keys_objectOf (name : Property → Bytes) (es : List Property) (l : Bytes)
    : l ∈ (objectOf name es).map Prod.fst ↔ ∃ e ∈ es, name e = l := by
  rw [objectOf, mem_keys_foldl]
  simp

theorem objectOf_congr {name name' : Property → Bytes} {es : List Property}
    (h : ∀ e ∈ es, name e = name' e)
    : objectOf name es = objectOf name' es := by
  unfold objectOf
  refine List.foldl_ext _ _ _ ?_
  intro o e he
  rw [h e he]

theorem keyName_integerItem {v : Int} {k : Int64} (hk : k.toInt = v.bmod (2 ^ 64))
    : (keyName (.integer k) : Decode σ Bytes) = pure (decimal (v.bmod (2 ^ 32))) := by
  unfold keyName
  dsimp only
  rw [itos_eq, Int64.toInt_toInt32, hk, Int.bmod_bmod_of_dvd (by decide)]

theorem Property.exists_entry (e : Property)
    : ∃ e' : Entry, e'.bytes = e.bytes ∧ e'.name = e.name ∧ e'.value = e.value := by
  obtain ⟨k, hk, hreads⟩ := decode_integerItem e.isKey
  exact ⟨⟨e.keyBytes, .integer k, e.name, e.valueBytes, e.value, .of_reads hreads,
    fun _ => keyName_integerItem hk, e.isValue⟩, rfl, rfl, rfl⟩

theorem exists_entries (es : List Property)
    : ∃ es' : List Entry, es'.flatMap Entry.bytes = es.flatMap Property.bytes
        ∧ es'.length = es.length
        ∧ ∀ o, es'.foldl Entry.insert o = es.foldl (fun o e => mapSet e.name e.value o) o := by
  induction es with
  | nil => exact ⟨[], rfl, rfl, fun _ => rfl⟩
  | cons e es ih =>
    obtain ⟨es', hbytes, hlength, hfold⟩ := ih
    obtain ⟨e', hbytes', hname, hvalue⟩ := e.exists_entry
    refine ⟨e' :: es', ?_, ?_, ?_⟩
    . rw [List.flatMap_cons, List.flatMap_cons, hbytes, hbytes']
    . rw [List.length_cons, List.length_cons, hlength]
    . intro o
      rw [List.foldl_cons, List.foldl_cons, hfold, Entry.insert, hname, hvalue]

/--
A map is read as the object with the names of its keys, if the loop can count them, and else not at all.
-/
theorem decodes_map {es : List Property} {bytes : Bytes} (hmap : IsMap es bytes)
    : (IsCounted es bytes → Decodes bytes (.object (objectOf Property.name es)))
        ∧ ∀ v, Decodes bytes v → IsCounted es bytes := by
  obtain ⟨es', hbytes, hlength, hfold⟩ := exists_entries es
  cases hmap with
  | @definite b arg n hb harg hn =>
    have hne : b ≠ 0xbf := by
      rintro rfl
      exact argument_ne_break harg (by decide)
    refine ⟨?_, ?_⟩
    . intro hcounted
      have hlt : es.length < 2 ^ 32 := by
        refine hcounted.resolve_left ?_
        simpa using hne
      have hobject := @decodes_object b arg n es' hb harg (hn.trans hlength.symm) (hlength ▸ hlt)
      rw [hbytes, hfold] at hobject
      exact hobject
    . rintro v ⟨enough, hdecodes⟩
      refine Or.inr ?_
      obtain ⟨reader', hdecode, -⟩ := hdecodes enough (Nat.le_refl _) _ _ _
        Channel.StringReader.lawful (Channel.StringReader.new (b :: (arg ++ es.flatMap Property.bytes))) []
        (by rw [Channel.StringReader.rest_new, List.append_nil])
      cases enough with
      | zero =>
        rw [decode] at hdecode
        cases hdecode
      | succ fuel =>
        obtain ⟨reader1, hbyte, hdata1⟩ := readByte_reads Channel.StringReader.lawful b
          (Channel.StringReader.new (b :: (arg ++ es.flatMap Property.bytes))) _
          (Channel.StringReader.rest_new _)
        obtain ⟨reader2, hint, -⟩ := readInt_argument Channel.StringReader.lawful harg reader1 _ hdata1
        unfold decode at hdecode
        rw [Decoder.bind_eq _ hbyte] at hdecode
        simp only [hb, hne] at hdecode
        obtain ⟨o, reader3, hobject, -⟩ := Decoder.bind_ok ((Decoder.bind_eq _ hint).symm.trans hdecode)
        have hlt := ((Item.sound Channel.StringReader.lawful fuel).object (Nat.zero_le _) hobject).1
        omega
  | indefinite =>
    refine ⟨?_, fun _ _ => Or.inl rfl⟩
    intro _
    have hobject := decodes_indefiniteObject es'
    rw [hbytes, hfold] at hobject
    exact hobject

/-
What the numbers are that come out of it.
-/

-- The integer is read as the number that it stands for, or there is an error
def IsFaithful (bytes : Bytes) (v : Int) : Prop :=
  ∀ (σ : Type) (basicRead : BasicRead σ) (data : σ → List UInt8), Lawful basicRead data →
    ∀ fuel reader rest, data reader = bytes ++ rest →
      match decode basicRead (fuel + 1) reader with
      | some (.ok (.integer k, _)) => k.toInt = v
      | some (.error _) => True
      | _ => False

theorem isFaithful_iff {bytes : Bytes} {v : Int} (hitem : IntegerItem bytes v)
    : IsFaithful bytes v ↔ -2 ^ 63 ≤ v ∧ v < 2 ^ 63 := by
  obtain ⟨k, hk, hreads⟩ := decode_integerItem hitem
  have hfits : k.toInt = v ↔ -2 ^ 63 ≤ v ∧ v < 2 ^ 63 := by
    rw [hk]
    exact bmod_eq_self_iff (m := 2 ^ 63) (by decide)
  rw [← hfits]
  refine ⟨?_, ?_⟩
  . intro hfaithful
    have hdata : (Channel.StringReader.new bytes).rest = bytes ++ [] := by
      rw [Channel.StringReader.rest_new, List.append_nil]
    obtain ⟨reader', hdecode, -⟩ := hreads _ _ _ Channel.StringReader.lawful 0 _ _ hdata
    have hresult := hfaithful _ _ _ Channel.StringReader.lawful 0 _ _ hdata
    rw [hdecode] at hresult
    exact hresult
  . intro hv σ basicRead data h fuel reader rest hdata
    obtain ⟨reader', hdecode, -⟩ := hreads σ basicRead data h fuel reader rest hdata
    rw [hdecode]
    exact hv

-- The properties of the object have the keys of the map as their names, and there is one for each key
structure KeepsKeys (es : List Property) (bytes : Bytes) : Prop where
  names : Decodes bytes (.object (objectOf (fun e => decimal e.key) es))
  distinct : (es.map Property.key).Nodup →
    (objectOf (fun e => decimal e.key) es).length = es.length

theorem length_mapSet {o : List (Bytes × Value)} {k : Bytes} (v : Value) (hk : k ∉ o.map Prod.fst)
    : (mapSet k v o).length = o.length + 1 := by
  induction o with
  | nil => rfl
  | cons e o ih =>
    obtain ⟨k', w⟩ := e
    rw [List.map_cons, List.mem_cons, not_or] at hk
    unfold mapSet
    split
    . rfl
    . rw [if_neg hk.1, List.length_cons, ih hk.2, List.length_cons]

theorem length_foldl_mapSet {name : Property → Bytes} {es : List Property} (o : List (Bytes × Value))
    (hnodup : (es.map name).Nodup) (hfresh : ∀ e ∈ es, name e ∉ o.map Prod.fst)
    : (es.foldl (fun o e => mapSet (name e) e.value o) o).length = o.length + es.length := by
  induction es generalizing o with
  | nil => rfl
  | cons e es ih =>
    rw [List.map_cons, List.nodup_cons] at hnodup
    have hrest : ∀ e' ∈ es, name e' ∉ (mapSet (name e) e.value o).map Prod.fst := by
      intro e' he' hmem
      rcases mem_keys_mapSet.mp hmem with heq | hmem
      . exact hnodup.1 (heq ▸ List.mem_map_of_mem he')
      . exact hfresh e' (List.mem_cons_of_mem _ he') hmem
    rw [List.foldl_cons, ih _ hnodup.2 hrest,
      length_mapSet e.value (hfresh e List.mem_cons_self), List.length_cons]
    omega

theorem length_objectOf_decimal {es : List Property} (hnodup : (es.map Property.key).Nodup)
    : (objectOf (fun e => decimal e.key) es).length = es.length := by
  have hnames : (es.map fun e => decimal e.key).Nodup := by
    have hmap : ((es.map Property.key).map decimal).Nodup :=
      List.Pairwise.map decimal (fun v w hne heq => hne (decimal_injective heq)) hnodup
    rwa [List.map_map] at hmap
  rw [objectOf, length_foldl_mapSet [] hnames (fun _ _ => List.not_mem_nil)]
  exact Nat.zero_add _

theorem name_eq_iff (e : Property) : e.name = decimal e.key ↔ -2 ^ 31 ≤ e.key ∧ e.key < 2 ^ 31 := by
  refine Iff.trans ?_ (bmod_eq_self_iff (m := 2 ^ 31) (by decide))
  exact ⟨decimal_injective, congrArg decimal⟩

-- Numbers that are cut off are in range, so that they are the name of some key only if it is in range
theorem key_in_range_of_name {e e' : Property} (h : e'.name = decimal e.key)
    : -2 ^ 31 ≤ e.key ∧ e.key < 2 ^ 31 := by
  have heq : e'.key.bmod (2 ^ 32) = e.key := decimal_injective h
  refine (bmod_eq_self_iff (m := 2 ^ 31) (by decide)).mp ?_
  change e.key.bmod (2 ^ 32) = e.key
  rw [← heq, Int.bmod_bmod]

theorem keepsKeys_iff {es : List Property} {bytes : Bytes} (hmap : IsMap es bytes)
    : KeepsKeys es bytes ↔ (∀ e ∈ es, -2 ^ 31 ≤ e.key ∧ e.key < 2 ^ 31) ∧ IsCounted es bytes := by
  obtain ⟨hdecodes, hcounted⟩ := decodes_map hmap
  refine ⟨?_, ?_⟩
  . intro hkeeps
    have hcounts := hcounted _ hkeeps.names
    have hobject := (Value.object.inj ((hdecodes hcounts).unique hkeeps.names))
    refine ⟨?_, hcounts⟩
    intro e he
    have hmem := (mem_keys_objectOf (fun e => decimal e.key) es (decimal e.key)).mpr ⟨e, he, rfl⟩
    rw [← hobject, mem_keys_objectOf] at hmem
    obtain ⟨e', -, hname⟩ := hmem
    exact key_in_range_of_name hname
  . rintro ⟨hrange, hcounts⟩
    refine ⟨?_, length_objectOf_decimal⟩
    rw [← objectOf_congr fun e he => (name_eq_iff e).mpr (hrange e he)]
    exact hdecodes hcounts

/--
An integer is read as the number that it stands for exactly if that fits into 64 bits with a sign, and the
keys of a map become the names of the properties exactly if they fit into 32 bits with a sign and the loop
over the map can count them.
-/
theorem cbor_integers (bytes : Bytes) (v : Int) (es : List Property) (mapBytes : Bytes)
    : (IntegerItem bytes v → (IsFaithful bytes v ↔ -2 ^ 63 ≤ v ∧ v < 2 ^ 63)) ∧
      (IsMap es mapBytes →
        (KeepsKeys es mapBytes ↔
          (∀ e ∈ es, -2 ^ 31 ≤ e.key ∧ e.key < 2 ^ 31) ∧ IsCounted es mapBytes)) :=
  ⟨isFaithful_iff, keepsKeys_iff⟩

theorem decodes_true : Decodes [0xf5] .true_ :=
  .of_reads fun _ _ _ h _ => (decode_simple_reads h).2.1

-- A key that is set to true
def flag {keyBytes : Bytes} {key : Int} (isKey : IntegerItem keyBytes key) : Property :=
  { keyBytes, key, valueBytes := [0xf5], value := .true_, isKey, isValue := decodes_true }

theorem isKey_one : IntegerItem [0x01] 1 :=
  ⟨0x01, [], 1, rfl, ⟨rfl, rfl⟩, .inl ⟨by decide, rfl⟩⟩

theorem isKey_minusTwo : IntegerItem [0x38, 0x01] (-2) :=
  ⟨0x38, [0x01], 1, rfl, ⟨rfl, rfl⟩, .inr ⟨by decide, rfl⟩⟩

theorem isKey_wide : IntegerItem [0x1b, 0, 0, 0, 1, 0, 0, 0, 1] (2 ^ 32 + 1) :=
  ⟨0x1b, [0, 0, 0, 1, 0, 0, 0, 1], 2 ^ 32 + 1, rfl, ⟨rfl, rfl⟩, .inl ⟨by decide, rfl⟩⟩

theorem cbor_integers_small
    : IsFaithful [0x38, 0x01] (-2)
        ∧ KeepsKeys [flag isKey_one, flag isKey_minusTwo] [0xa2, 0x01, 0xf5, 0x38, 0x01, 0xf5] := by
  refine ⟨((cbor_integers _ _ [] []).1 isKey_minusTwo).mpr (by decide), ?_⟩
  have hmap : IsMap [flag isKey_one, flag isKey_minusTwo] [0xa2, 0x01, 0xf5, 0x38, 0x01, 0xf5] :=
    @IsMap.definite _ 0xa2 [] 2 (by decide) ⟨rfl, rfl⟩ rfl
  refine ((cbor_integers [] 0 _ _).2 hmap).mpr ⟨?_, Or.inr (by decide)⟩
  intro e he
  rcases List.mem_pair.mp he with rfl | rfl
  . exact ⟨by decide, by decide⟩
  . exact ⟨by decide, by decide⟩

-- The greatest number is read as -1, and two different keys get the same name
theorem not_cbor_integers
    : (IntegerItem [0x1b, 0xff, 0xff, 0xff, 0xff, 0xff, 0xff, 0xff, 0xff] (2 ^ 64 - 1)
        ∧ Decodes [0x1b, 0xff, 0xff, 0xff, 0xff, 0xff, 0xff, 0xff, 0xff] (.integer (-1))
        ∧ ¬IsFaithful [0x1b, 0xff, 0xff, 0xff, 0xff, 0xff, 0xff, 0xff, 0xff] (2 ^ 64 - 1))
      ∧ ∃ es, es.map Property.key = [1, 2 ^ 32 + 1]
        ∧ IsMap es [0xa2, 0x01, 0xf5, 0x1b, 0, 0, 0, 1, 0, 0, 0, 1, 0xf5]
        ∧ Decodes [0xa2, 0x01, 0xf5, 0x1b, 0, 0, 0, 1, 0, 0, 0, 1, 0xf5] (.object [([49], .true_)])
        ∧ ¬KeepsKeys es [0xa2, 0x01, 0xf5, 0x1b, 0, 0, 0, 1, 0, 0, 0, 1, 0xf5] := by
  refine ⟨?_, ?_⟩
  . have hitem : IntegerItem [0x1b, 0xff, 0xff, 0xff, 0xff, 0xff, 0xff, 0xff, 0xff] (2 ^ 64 - 1) :=
      ⟨0x1b, [0xff, 0xff, 0xff, 0xff, 0xff, 0xff, 0xff, 0xff], 0xffffffffffffffff, rfl,
        ⟨rfl, by decide⟩, .inl ⟨by decide, by decide⟩⟩
    refine ⟨hitem, ?_, ?_⟩
    . obtain ⟨k, hk, hreads⟩ := decode_integerItem hitem
      have hminus : k = -1 := by
        rw [← Int64.toInt_inj, hk]
        decide
      rw [hminus] at hreads
      exact .of_reads hreads
    . rw [isFaithful_iff hitem]
      decide
  . have hmap : IsMap [flag isKey_one, flag isKey_wide]
        [0xa2, 0x01, 0xf5, 0x1b, 0, 0, 0, 1, 0, 0, 0, 1, 0xf5] :=
      @IsMap.definite _ 0xa2 [] 2 (by decide) ⟨rfl, rfl⟩ rfl
    refine ⟨[flag isKey_one, flag isKey_wide], rfl, hmap, ?_, ?_⟩
    . have hname : (flag isKey_one).name = [49] := by decide
      have hwide : (flag isKey_wide).name = [49] := by decide
      have hobject : objectOf Property.name [flag isKey_one, flag isKey_wide] = [([49], .true_)] := by
        rw [objectOf, List.foldl_cons, List.foldl_cons, List.foldl_nil, hname, hwide]
        rfl
      rw [← hobject]
      exact (decodes_map hmap).1 (Or.inr (by decide))
    . rw [keepsKeys_iff hmap]
      rintro ⟨hrange, -⟩
      have hwide := (hrange (flag isKey_wide) (List.mem_cons_of_mem _ List.mem_cons_self)).2
      exact absurd hwide (by decide)

end CborReader

end Json
end ObTools
