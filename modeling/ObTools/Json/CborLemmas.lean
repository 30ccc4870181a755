import ObTools.Channel.Reader
import ObTools.Json.Cbor

/-!
This module contains the proof that decoding undoes encoding, and that it reads not a byte more than
has been written.
-/

namespace ObTools
namespace Json

open Channel (BasicRead Lawful)
open Decoder (Reads)

namespace CborReader

variable {σ : Type} {basicRead : BasicRead σ} {data : σ → List UInt8}

section Parts

variable (h : Lawful basicRead data)
include h

theorem readByte_reads (b : UInt8) : Reads data (readByte basicRead) [b] b := by
  intro reader rest hdata
  obtain ⟨reader', hread, hrest⟩ := Channel.Reader.readByte_cons h hdata
  refine ⟨reader', ?_, hrest⟩
  unfold readByte Decoder.lift
  rw [hread]

theorem readByte_ok {reader reader' : σ} {b : UInt8}
    (hread : readByte basicRead reader = some (.ok (b, reader')))
    : data reader = b :: data reader' :=
  Channel.Reader.readByte_ok h (Option.some.inj hread)

theorem readNbo16_reads (i : UInt16)
    : Reads data (Decoder.lift (Channel.Reader.readNbo16 (Channel.Reader.tryRead basicRead)))
        (BigEndian.toBytes 2 i.toNat) i := by
  intro reader rest hdata
  obtain ⟨reader', hread, hrest⟩ := Channel.Reader.readNbo16_append h hdata
  refine ⟨reader', ?_, hrest⟩
  unfold Decoder.lift
  rw [hread]

theorem readNbo32_reads (i : UInt32)
    : Reads data (Decoder.lift (Channel.Reader.readNbo32 (Channel.Reader.tryRead basicRead)))
        (BigEndian.toBytes 4 i.toNat) i := by
  intro reader rest hdata
  obtain ⟨reader', hread, hrest⟩ := Channel.Reader.readNbo32_append h hdata
  refine ⟨reader', ?_, hrest⟩
  unfold Decoder.lift
  rw [hread]

theorem readNbo64_reads (i : UInt64)
    : Reads data (Decoder.lift (Channel.Reader.readNbo64 (Channel.Reader.tryRead basicRead)))
        (BigEndian.toBytes 4 (i >>> 32).toUInt32.toNat
          ++ BigEndian.toBytes 4 (i &&& 0xFFFFFFFF).toUInt32.toNat) i := by
  intro reader rest hdata
  rw [List.append_assoc] at hdata
  obtain ⟨reader', hread, hrest⟩ := Channel.Reader.readNbo64_append h hdata
  refine ⟨reader', ?_, hrest⟩
  unfold Decoder.lift
  rw [hread]

theorem readString_reads {s : Bytes} (hs : s.length < 2 ^ 64)
    : Reads data (readString basicRead (UInt64.ofNat s.length)) s s := by
  intro reader rest hdata
  obtain ⟨reader', hread, hrest⟩ := Channel.Reader.readString_append h hdata
  have hlen : (UInt64.ofNat s.length).toNat = s.length := UInt64.toNat_ofNat_of_lt' hs
  refine ⟨reader', ?_, hrest⟩
  unfold readString Decoder.lift
  dsimp only
  rw [hlen, hread]

end Parts

/-
The two parts of an initial byte, with the type in the top three bits.
-/
theorem initialByte_parts
    : ∀ (m : Fin 8) (x : Fin 32),
        (UInt8.ofNat m <<< 5 ||| UInt8.ofNat x) >>> 5 = UInt8.ofNat m
          ∧
        (UInt8.ofNat m <<< 5 ||| UInt8.ofNat x) &&& 0x1f = UInt8.ofNat x := by
  decide

theorem initialByte_spec {m x : UInt8} (hm : m < 8) (hx : x < 32)
    : (m <<< 5 ||| x) >>> 5 = m ∧ (m <<< 5 ||| x) &&& 0x1f = x := by
  have := initialByte_parts ⟨m.toNat, hm⟩ ⟨x.toNat, hx⟩
  simpa using this

section Narrow

variable {v : UInt64}

theorem toUInt8_toUInt64 (h : v < 256) : v.toUInt8.toUInt64 = v := by
  have h : v.toNat < 256 := UInt64.lt_iff_toNat_lt.mp h
  rw [← UInt64.toNat_inj, UInt8.toNat_toUInt64, UInt64.toNat_toUInt8]
  exact Nat.mod_eq_of_lt h

theorem toUInt16_toUInt64 (h : v < 65536) : v.toUInt16.toUInt64 = v := by
  have h : v.toNat < 65536 := UInt64.lt_iff_toNat_lt.mp h
  rw [← UInt64.toNat_inj, UInt16.toNat_toUInt64, UInt64.toNat_toUInt16]
  exact Nat.mod_eq_of_lt h

theorem toUInt32_toUInt64 (h : v < 0x100000000) : v.toUInt32.toUInt64 = v := by
  have h : v.toNat < 0x100000000 := UInt64.lt_iff_toNat_lt.mp h
  rw [← UInt64.toNat_inj, UInt32.toNat_toUInt64, UInt64.toNat_toUInt32]
  exact Nat.mod_eq_of_lt h

end Narrow

/-
A number is written as an initial byte and what `read_int` then finds behind it.
-/
theorem readInt_writeInt (h : Lawful basicRead data) (v : UInt64) {m : UInt8} (hm : m < 8)
    : ∃ b bytes,
        CborWriter.writeInt v m = b :: bytes
          ∧
        b >>> 5 = m ∧ b &&& 0x1f ≠ 31
          ∧
        Reads data (readInt basicRead b) bytes v := by
  unfold CborWriter.writeInt
  dsimp only
  split
  . next hv =>
    have hx : v.toUInt8 < 24 := by
      rw [UInt8.lt_iff_toNat_lt, UInt64.toNat_toUInt8]
      exact Nat.lt_of_le_of_lt (Nat.mod_le _ _) (UInt64.lt_iff_toNat_lt.mp hv)
    have hparts := initialByte_spec hm (UInt8.lt_trans hx (by decide))
    refine ⟨_, _, rfl, hparts.1, ?_, ?_⟩
    . rw [hparts.2]
      intro heq
      rw [heq] at hx
      contradiction
    . unfold readInt
      rw [hparts.2, if_pos hx, toUInt8_toUInt64 (UInt64.lt_trans hv (by decide))]
      exact Reads.pure v
  . split
    . next hv =>
      have hparts := initialByte_spec hm (x := 0x18) (by decide)
      refine ⟨_, _, rfl, hparts.1, by rw [hparts.2]; decide, ?_⟩
      have hread := (readByte_reads h v.toUInt8).bind_return UInt8.toUInt64
      rw [toUInt8_toUInt64 hv] at hread
      unfold readInt
      rw [hparts.2]
      exact hread
    . split
      . next hv =>
        have hparts := initialByte_spec hm (x := 0x19) (by decide)
        refine ⟨_, _, rfl, hparts.1, by rw [hparts.2]; decide, ?_⟩
        have hread := (readNbo16_reads h v.toUInt16).bind_return UInt16.toUInt64
        rw [toUInt16_toUInt64 hv] at hread
        unfold readInt
        rw [hparts.2]
        exact hread
      . split
        . next hv =>
          have hparts := initialByte_spec hm (x := 0x1a) (by decide)
          refine ⟨_, _, rfl, hparts.1, by rw [hparts.2]; decide, ?_⟩
          have hread := (readNbo32_reads h v.toUInt32).bind_return UInt32.toUInt64
          rw [toUInt32_toUInt64 hv] at hread
          unfold readInt
          rw [hparts.2]
          exact hread
        . have hparts := initialByte_spec hm (x := 0x1b) (by decide)
          refine ⟨_, _, rfl, hparts.1, by rw [hparts.2]; decide, ?_⟩
          unfold readInt
          rw [hparts.2]
          exact readNbo64_reads h v

theorem negative_inverse (n : Int64) : (-1 - (-1 - n).toUInt64).toInt64 = n := by
  have hsub : -1 - (-1 - n).toUInt64 = n.toUInt64 := by
    change -1 - (-1 - n.toUInt64) = n.toUInt64
    grind
  rw [hsub]
  rfl

section Decode

-- The equations of `decode` are needed from here on
attribute [local simp] decode

variable (h : Lawful basicRead data) {fuel : Nat} {reader : σ} {rest : Bytes}
include h

theorem decode_integer_reads (n : Int64)
    : Reads data (decode basicRead (fuel + 1)) (CborWriter.encode (.integer n)) (.integer n) := by
  unfold CborWriter.encode decode
  split
  . obtain ⟨b, bytes, heq, hm, -, hread⟩ := readInt_writeInt h n.toUInt64 (m := 0) (by decide)
    rw [heq]
    apply (readByte_reads h b).bind
    simp only [hm, ↓reduceIte]
    exact hread.bind_return fun v => Value.integer v.toInt64
  . obtain ⟨b, bytes, heq, hm, -, hread⟩ :=
      readInt_writeInt h (-1 - n).toUInt64 (m := 1) (by decide)
    rw [heq]
    apply (readByte_reads h b).bind
    simp only [hm, ↓reduceIte]
    have := hread.bind_return fun v => Value.integer (-1 - v).toInt64
    rw [negative_inverse] at this
    exact this

theorem decode_string_reads {s : Bytes} (hs : s.length < 2 ^ 64)
    : Reads data (decode basicRead (fuel + 1)) (CborWriter.encodeString s) (.string s) := by
  unfold CborWriter.encodeString decode
  obtain ⟨b, bytes, heq, hm, -, hread⟩ :=
    readInt_writeInt h (UInt64.ofNat s.length) (m := 3) (by decide)
  rw [heq]
  apply (readByte_reads h b).bind
  simp only [hm]
  exact hread.bind ((readString_reads h hs).bind_return Value.string)

theorem decode_binary_reads {s : Bytes} (hs : s.length < 2 ^ 64)
    : Reads data (decode basicRead (fuel + 1)) (CborWriter.encode (.binary s)) (.binary s) := by
  unfold CborWriter.encode decode
  obtain ⟨b, bytes, heq, hm, -, hread⟩ :=
    readInt_writeInt h (UInt64.ofNat s.length) (m := 2) (by decide)
  rw [heq]
  apply (readByte_reads h b).bind
  simp only [hm]
  exact hread.bind ((readString_reads h hs).bind_return Value.binary)

theorem decode_array_eq {len : Nat}
    (hdata : data reader = CborWriter.writeInt (UInt64.ofNat len) 4 ++ rest)
    : ∃ reader1, data reader1 = rest ∧ decode basicRead (fuel + 1) reader
        = (decodeArray basicRead (UInt64.ofNat len) fuel 0 []
            >>= fun a => pure (Value.array a)) reader1 := by
  obtain ⟨b, bytes, heq, hm, hne, hread⟩ := readInt_writeInt h (UInt64.ofNat len) (m := 4) (by decide)
  have hb : b ≠ 0x9f := by
    rintro rfl
    exact hne (by decide)
  rw [heq, List.cons_append] at hdata
  obtain ⟨reader1, hbyte, hdata1⟩ := readByte_reads h b reader _ hdata
  obtain ⟨reader2, hint, hdata2⟩ := hread reader1 rest hdata1
  refine ⟨reader2, hdata2, ?_⟩
  unfold decode
  rw [Decoder.bind_eq _ hbyte]
  simp only [hm, hb]
  exact Decoder.bind_eq _ hint

theorem decode_object_eq {len : Nat}
    (hdata : data reader = CborWriter.writeInt (UInt64.ofNat len) 5 ++ rest)
    : ∃ reader1, data reader1 = rest ∧ decode basicRead (fuel + 1) reader
        = (decodeObject basicRead (UInt64.ofNat len) fuel 0 []
            >>= fun o => pure (Value.object o)) reader1 := by
  obtain ⟨b, bytes, heq, hm, hne, hread⟩ := readInt_writeInt h (UInt64.ofNat len) (m := 5) (by decide)
  have hb : b ≠ 0xbf := by
    rintro rfl
    exact hne (by decide)
  rw [heq, List.cons_append] at hdata
  obtain ⟨reader1, hbyte, hdata1⟩ := readByte_reads h b reader _ hdata
  obtain ⟨reader2, hint, hdata2⟩ := hread reader1 rest hdata1
  refine ⟨reader2, hdata2, ?_⟩
  unfold decode
  rw [Decoder.bind_eq _ hbyte]
  simp only [hm, hb]
  exact Decoder.bind_eq _ hint

theorem decode_array_reads {a : List Value} {bytes : Bytes}
    (harray : Reads data (decodeArray basicRead (UInt64.ofNat a.length) fuel 0 []) bytes a)
    : Reads data (decode basicRead (fuel + 1))
        (CborWriter.writeInt (UInt64.ofNat a.length) 4 ++ bytes) (.array a) := by
  intro reader rest hdata
  rw [List.append_assoc] at hdata
  obtain ⟨reader1, hdata1, heq⟩ := decode_array_eq h hdata
  rw [heq]
  exact harray.bind_return Value.array reader1 rest hdata1

theorem decode_object_reads {o : List (Bytes × Value)} {bytes : Bytes}
    (hobject : Reads data (decodeObject basicRead (UInt64.ofNat o.length) fuel 0 []) bytes o)
    : Reads data (decode basicRead (fuel + 1))
        (CborWriter.writeInt (UInt64.ofNat o.length) 5 ++ bytes) (.object o) := by
  intro reader rest hdata
  rw [List.append_assoc] at hdata
  obtain ⟨reader1, hdata1, heq⟩ := decode_object_eq h hdata
  rw [heq]
  exact hobject.bind_return Value.object reader1 rest hdata1

end Decode

/-
How much fuel it takes to decode a value.
-/
mutual

def cost : Value → Nat
  | .array a => 1 + costArray a
  | .object o => 1 + costObject o
  | _ => 1

def costArray : List Value → Nat
  | [] => 1
  | v :: a => 1 + (cost v + costArray a)

def costObject : List (Bytes × Value) → Nat
  | [] => 1
  | (_, v) :: o => 1 + (1 + cost v + costObject o)

end

-- One more element, as counted by the loop
theorem counter_lt {i : UInt32} {len : UInt64} {done rest : Nat} (hi : i.toNat = done)
    (hlen : len.toNat = done + rest)
    : i.toUInt64 < len ↔ 0 < rest := by
  rw [UInt64.lt_iff_toNat_lt, UInt32.toNat_toUInt64]
  omega

theorem counter_succ {i : UInt32} {done : Nat} (hi : i.toNat = done) (hlt : done + 1 < 2 ^ 32)
    : (i + 1).toNat = done + 1 := by
  rw [UInt32.toNat_add]
  change (i.toNat + 1) % 2 ^ 32 = _
  omega

-- One more round of a loop, whose counter does not get past `2 ^ 32`
theorem counter_step {i : UInt32} {len : UInt64} (hlt : i.toUInt64 < len)
    : (i + 1).toNat ≤ len.toNat
        ∧ (len.toNat < 2 ^ 32 → (len.toNat : Int) - (i + 1).toNat + 1 = len.toNat - i.toNat) := by
  rw [UInt64.lt_iff_toNat_lt, UInt32.toNat_toUInt64] at hlt
  have hadd : (i + 1).toNat = (i.toNat + 1) % 2 ^ 32 := UInt32.toNat_add i 1
  have hi := i.toNat_lt
  omega

theorem cost_pos (v : Value) : 0 < cost v := by
  cases v with
  | array a => rw [cost]; omega
  | object o => rw [cost]; omega
  | _ => simp [cost]

-- The values that are a byte of their own
theorem decode_simple_reads (h : Lawful basicRead data) {fuel : Nat}
    : Reads data (decode basicRead (fuel + 1)) [0xf4] .false_
        ∧
      Reads data (decode basicRead (fuel + 1)) [0xf5] .true_
        ∧
      Reads data (decode basicRead (fuel + 1)) [0xf6] .null
        ∧
      Reads data (decode basicRead (fuel + 1)) [0xf7] .undefined := by
  unfold decode
  refine ⟨?_, ?_, ?_, ?_⟩
  . exact (readByte_reads h 0xf4).bind (Reads.pure Value.false_)
  . exact (readByte_reads h 0xf5).bind (Reads.pure Value.true_)
  . exact (readByte_reads h 0xf6).bind (Reads.pure Value.null)
  . exact (readByte_reads h 0xf7).bind (Reads.pure Value.undefined)

theorem ofNat_toNat {n : Nat} (hn : n < 2 ^ 32) : (UInt64.ofNat n).toNat = n :=
  UInt64.toNat_ofNat_of_lt' (Nat.lt_trans hn (by decide))

/-
By induction on the value together with the rest of the container it is in. Only the loops keep
account of what has been decoded before.
-/
mutual

theorem decode_reads (h : Lawful basicRead data)
    : (v : Value) → v.Valid → v.plain = true → (fuel : Nat) → cost v ≤ fuel →
        Reads data (decode basicRead fuel) (CborWriter.encode v) v
  | v, _, _, 0, hf => by
    have := cost_pos v
    omega
  | .integer n, _, _, fuel + 1, _ => decode_integer_reads h n
  | .string s, hv, _, fuel + 1, _ => by
    rw [Value.Valid] at hv
    rw [CborWriter.encode]
    exact decode_string_reads h hv
  | .binary s, hv, _, fuel + 1, _ => by
    rw [Value.Valid] at hv
    exact decode_binary_reads h hv
  | .array a, hv, hp, fuel + 1, hf => by
    rw [Value.Valid] at hv
    rw [Value.plain] at hp
    rw [cost] at hf
    rw [CborWriter.encode]
    apply decode_array_reads h
    have hlen := ofNat_toNat hv.1
    exact decodeArray_reads h a [] rfl (by simpa using hlen) (by omega) hv.2 hp fuel (by omega)
  | .object o, hv, hp, fuel + 1, hf => by
    rw [Value.Valid] at hv
    rw [Value.plain] at hp
    rw [cost] at hf
    rw [CborWriter.encode]
    apply decode_object_reads h
    have hlen := ofNat_toNat hv.1
    exact decodeObject_reads h o [] rfl (by simpa using hlen) (by omega) hv.2.1 hv.2.2 hp fuel
      (by omega)
  | .false_, _, _, fuel + 1, _ => by
    rw [CborWriter.encode]
    exact (decode_simple_reads h).1
  | .true_, _, _, fuel + 1, _ => by
    rw [CborWriter.encode]
    exact (decode_simple_reads h).2.1
  | .null, _, _, fuel + 1, _ => by
    rw [CborWriter.encode]
    exact (decode_simple_reads h).2.2.1
  | .undefined, _, _, fuel + 1, _ => by
    rw [CborWriter.encode]
    exact (decode_simple_reads h).2.2.2
  | .number f, _, hp, fuel + 1, _ => by
    rw [Value.plain] at hp
    contradiction
  | .break_, _, hp, fuel + 1, _ => by
    rw [Value.plain] at hp
    contradiction

theorem decodeArray_reads (h : Lawful basicRead data)
    : (a done : List Value) → {len : UInt64} → {i : UInt32} → i.toNat = done.length →
        len.toNat = done.length + a.length → len.toNat < 2 ^ 32 → Value.ValidArray a →
        Value.plainArray a = true → (fuel : Nat) → costArray a ≤ fuel →
        Reads data (decodeArray basicRead len fuel i done) (CborWriter.encodeArray a) (done ++ a)
  | [], done, len, i, hi, hlen, hlt, hv, hp, fuel, hf => by
    cases fuel with
    | zero => simp [costArray] at hf
    | succ fuel =>
      have hstop := counter_lt hi hlen
      rw [decodeArray, if_neg (by rw [hstop]; simp), List.append_nil]
      exact Reads.pure done
  | v :: a, done, len, i, hi, hlen, hlt, hv, hp, fuel, hf => by
    cases fuel with
    | zero => simp [costArray] at hf
    | succ fuel =>
      rw [Value.ValidArray] at hv
      rw [Value.plainArray, Bool.and_eq_true] at hp
      rw [costArray] at hf
      rw [List.length_cons] at hlen
      have hmore := counter_lt hi hlen
      have hi' : (i + 1).toNat = (done ++ [v]).length := by
        rw [counter_succ hi (by omega)]
        simp
      have hlen' : len.toNat = (done ++ [v]).length + a.length := by
        rw [List.length_append, List.length_singleton]
        omega
      have hrest := decodeArray_reads h a (done ++ [v]) hi' hlen' hlt hv.2 hp.2 fuel (by omega)
      rw [List.append_assoc, List.singleton_append] at hrest
      rw [decodeArray, if_pos (by rw [hmore]; simp), CborWriter.encodeArray]
      exact (decode_reads h v hv.1 hp.1 fuel (by omega)).bind hrest

theorem decodeObject_reads (h : Lawful basicRead data)
    : (o done : List (Bytes × Value)) → {len : UInt64} → {i : UInt32} → i.toNat = done.length →
        len.toNat = done.length + o.length → len.toNat < 2 ^ 32 →
        ((done ++ o).map Prod.fst).Pairwise (· < ·) → Value.ValidObject o →
        Value.plainObject o = true → (fuel : Nat) → costObject o ≤ fuel →
        Reads data (decodeObject basicRead len fuel i done) (CborWriter.encodeObject o) (done ++ o)
  | [], done, len, i, hi, hlen, hlt, hs, hv, hp, fuel, hf => by
    cases fuel with
    | zero => simp [costObject] at hf
    | succ fuel =>
      have hstop := counter_lt hi hlen
      rw [decodeObject, if_neg (by rw [hstop]; simp), List.append_nil]
      exact Reads.pure done
  | (k, v) :: o, done, len, i, hi, hlen, hlt, hs, hv, hp, fuel, hf => by
    cases fuel with
    | zero => simp [costObject] at hf
    | succ fuel =>
      rw [Value.ValidObject] at hv
      rw [Value.plainObject, Bool.and_eq_true] at hp
      rw [costObject] at hf
      rw [List.length_cons] at hlen
      have hmore := counter_lt hi hlen
      have hlast : mapSet k v done = done ++ [(k, v)] := by
        apply mapSet_last
        intro l hl
        rw [List.map_append, List.pairwise_append] at hs
        exact hs.2.2 l hl k (by simp)
      have hi' : (i + 1).toNat = (done ++ [(k, v)]).length := by
        rw [counter_succ hi (by omega)]
        simp
      have hlen' : len.toNat = (done ++ [(k, v)]).length + o.length := by
        rw [List.length_append, List.length_singleton]
        omega
      have hrest := decodeObject_reads h o (done ++ [(k, v)]) hi' hlen' hlt (by simpa using hs)
        hv.2.2 hp.2 fuel (by omega)
      rw [List.append_assoc, List.singleton_append, ← hlast] at hrest
      rw [decodeObject, if_pos (by rw [hmore]; simp), CborWriter.encodeObject]
      have hkey : Reads data (decode basicRead fuel) (CborWriter.encodeString k) (.string k) := by
        obtain ⟨fuel', rfl⟩ : ∃ fuel', fuel = fuel' + 1 := ⟨fuel - 1, by omega⟩
        exact decode_string_reads h hv.1
      have hvalue := decode_reads h v hv.2.1 hp.1 fuel (by omega)
      exact hkey.bind ((Reads.pure k).bind (hvalue.bind hrest))

end

/--
What has been encoded is decoded to an equal value by any reader, and the reader is left at the first
byte behind it.
-/
theorem cbor_round_trip (v : Value) (hvalid : v.Valid) (hplain : v.plain = true)
    : ∃ fuel, ∀ fuel' ≥ fuel,
        ∀ (σ : Type) (basicRead : BasicRead σ) (data : σ → List UInt8), Lawful basicRead data →
          ∀ (reader : σ) (rest : List UInt8), data reader = CborWriter.encode v ++ rest →
            ∃ res reader',
              decode basicRead fuel' reader = some (.ok (res, reader'))
                ∧
              res.equals v = true ∧ data reader' = rest := by
  refine ⟨cost v, ?_⟩
  intro fuel' hfuel σ basicRead data h reader rest hdata
  obtain ⟨reader', hdecode, hrest⟩ := decode_reads h v hvalid hplain fuel' hfuel reader rest hdata
  exact ⟨v, reader', hdecode, Value.equals_self v hplain, hrest⟩

theorem cbor_round_trip_nested
    : ∃ fuel, ∀ fuel' ≥ fuel, ∃ res reader',
        decode Channel.StringReader.basicRead fuel'
            (Channel.StringReader.new
              [0xa2, 0x61, 0x61, 0x82, 0x3b, 0x7f, 0xff, 0xff, 0xff, 0xff, 0xff, 0xff, 0xff, 0x18,
                0x18, 0x61, 0x62, 0x41, 0x00, 0xff])
            = some (.ok (res, reader'))
          ∧
        res.equals
            (.object [([0x61], .array [.integer Int64.minValue, .integer 24]),
              ([0x62], .binary [0])])
            = true
          ∧
        reader'.rest = [0xff] := by
  obtain ⟨fuel, hfuel⟩ := cbor_round_trip
    (.object [([0x61], .array [.integer Int64.minValue, .integer 24]), ([0x62], .binary [0])])
    (by simp [Value.Valid, Value.ValidObject, Value.ValidArray]; decide) rfl
  refine ⟨fuel, ?_⟩
  intro fuel' hle
  exact hfuel fuel' hle _ _ _ Channel.StringReader.lawful _ [0xff] (by decide)

end CborReader

end Json
end ObTools
