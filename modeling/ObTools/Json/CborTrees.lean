import ObTools.Json.CborContainers

/-!
This module contains the items that bytes spell, as trees, and that the reader finds exactly these.
-/

namespace ObTools
namespace Json

open Channel (BasicRead Lawful)
open Decoder (Reads)

namespace CborReader

-- An initial byte with its argument
structure Opening where
  byte : UInt8
  arg : Bytes
  n : UInt64
  isArgument : Argument byte arg n

namespace Opening

def bytes (op : Opening) : Bytes := op.byte :: op.arg

def majorType (op : Opening) : UInt8 := op.byte >>> 5

end Opening

-- The items that can be keys
inductive Scalar where
  | integer (op : Opening)
  | string (op : Opening) (s : Bytes)

namespace Scalar

def WellFormed : Scalar → Prop
  | integer op => op.majorType = 0 ∨ op.majorType = 1
  | string op s => op.majorType = 3 ∧ s.length = op.n.toNat

def bytes : Scalar → Bytes
  | integer op => op.bytes
  | string op s => op.bytes ++ s

def number (op : Opening) : Int64 :=
  if op.majorType = 0 then op.n.toInt64 else (-1 - op.n).toInt64

def value : Scalar → Value
  | integer op => .integer (number op)
  | string _ s => .string s

def name : Scalar → Bytes
  | integer op => Text.itos (number op).toInt32
  | string _ s => s

end Scalar

inductive Item where
  | scalar (k : Scalar)
  | binary (op : Opening) (s : Bytes)
  | array (op : Opening) (ts : List Item)
  | indefiniteArray (ts : List Item)
  | object (op : Opening) (es : List (Scalar × Item))
  | indefiniteObject (es : List (Scalar × Item))
  -- An item in an item, behind a tag
  | embedded (byte : UInt8) (t : Item)
  | simple (byte : UInt8)
  | break_

namespace Item

def isBreak : Item → Bool
  | break_ => true
  | _ => false

mutual

def WellFormed : Item → Prop
  | scalar k => k.WellFormed
  | binary op s => op.majorType = 2 ∧ s.length = op.n.toNat
  | array op ts => op.majorType = 4 ∧ op.n.toNat = ts.length ∧ ts.length < 2 ^ 32 ∧ WellFormedArray ts
  | indefiniteArray ts => (∀ t ∈ ts, t.isBreak = false) ∧ WellFormedArray ts
  | object op es => op.majorType = 5 ∧ op.n.toNat = es.length ∧ es.length < 2 ^ 32 ∧ WellFormedObject es
  | indefiniteObject es => WellFormedObject es
  | embedded byte t => byte >>> 5 = 6 ∧ byte &&& 0x1f > 23 ∧ t.WellFormed
  | simple byte => byte = 0xf4 ∨ byte = 0xf5 ∨ byte = 0xf6 ∨ byte = 0xf7
  | break_ => True

def WellFormedArray : List Item → Prop
  | [] => True
  | t :: ts => t.WellFormed ∧ WellFormedArray ts

def WellFormedObject : List (Scalar × Item) → Prop
  | [] => True
  | (k, t) :: es => k.WellFormed ∧ t.WellFormed ∧ WellFormedObject es

end

mutual

def bytes : Item → Bytes
  | scalar k => k.bytes
  | binary op s => op.bytes ++ s
  | array op ts => op.bytes ++ bytesArray ts
  | indefiniteArray ts => 0x9f :: (bytesArray ts ++ [0xff])
  | object op es => op.bytes ++ bytesObject es
  | indefiniteObject es => 0xbf :: (bytesObject es ++ [0xff])
  | embedded byte t => byte :: 24 :: t.bytes
  | simple byte => [byte]
  | break_ => [0xff]

def bytesArray : List Item → Bytes
  | [] => []
  | t :: ts => t.bytes ++ bytesArray ts

def bytesObject : List (Scalar × Item) → Bytes
  | [] => []
  | (k, t) :: es => k.bytes ++ t.bytes ++ bytesObject es

end

mutual

def value : Item → Value
  | scalar k => k.value
  | binary _ s => .binary s
  | array _ ts => .array (valueArray ts)
  | indefiniteArray ts => .array (valueArray ts)
  | object _ es => .object (valueObject es [])
  | indefiniteObject es => .object (valueObject es [])
  | embedded _ t => .binary (CborWriter.encode t.value)
  | simple byte =>
    if byte = 0xf4 then .false_ else if byte = 0xf5 then .true_ else if byte = 0xf6 then .null
    else .undefined
  | break_ => .break_

def valueArray : List Item → List Value
  | [] => []
  | t :: ts => t.value :: valueArray ts

def valueObject : List (Scalar × Item) → List (Bytes × Value) → List (Bytes × Value)
  | [], o => o
  | (k, t) :: es, o => valueObject es (mapSet k.name t.value o)

end

theorem isBreak_iff {t : Item} : t.isBreak = true ↔ t = break_ := by
  cases t with
  | break_ => exact iff_of_true rfl rfl
  | _ => simp [isBreak]

theorem valueArray_eq_map (ts : List Item) : valueArray ts = ts.map value := by
  induction ts with
  | nil => rw [valueArray, List.map_nil]
  | cons t ts ih => rw [valueArray, ih, List.map_cons]

theorem value_eq_break_iff {t : Item} : t.value = .break_ ↔ t.isBreak = true := by
  cases t with
  | scalar k => cases k <;> simp [value, Scalar.value, isBreak]
  | simple byte =>
    simp only [value, isBreak]
    split_ifs <;> simp
  | _ => simp [value, isBreak]

end Item

variable {σ : Type} {basicRead : BasicRead σ} {data : σ → List UInt8}

/-
What is spelt is read.
-/

theorem Scalar.decodes {k : Scalar} (hk : k.WellFormed) : Decodes k.bytes k.value := by
  apply Decodes.of_reads
  intro σ basicRead data h fuel
  cases k with
  | integer op =>
    unfold decode
    apply (readByte_reads h op.byte).bind
    rw [Scalar.WellFormed, Opening.majorType] at hk
    rw [Scalar.value, Scalar.number, Opening.majorType]
    rcases hk with hk | hk
    . simp only [hk, ↓reduceIte]
      exact (readInt_argument h op.isArgument).bind_return fun v => Value.integer v.toInt64
    . rw [hk]
      exact (readInt_argument h op.isArgument).bind_return fun v => Value.integer (-1 - v).toInt64
  | string op s =>
    unfold decode
    apply (readByte_reads h op.byte).bind
    rw [Scalar.WellFormed, Opening.majorType] at hk
    simp only [hk.1]
    exact (readInt_argument h op.isArgument).bind
      ((readString_bytes h hk.2).bind_return Value.string)

theorem Scalar.keyName_value (k : Scalar) : (keyName k.value : Decode σ Bytes) = pure k.name := by
  cases k with
  | integer op => rfl
  | string op s => rfl

namespace Item

theorem decodes_embedded {byte : UInt8} {t : Item} (hbyte : byte >>> 5 = 6) (htag : byte &&& 0x1f > 23)
    (ht : Decodes t.bytes t.value)
    : Decodes (embedded byte t).bytes (embedded byte t).value := by
  obtain ⟨enough, hreads⟩ := ht
  refine ⟨enough + 1, ?_⟩
  intro fuel hfuel σ basicRead data h
  obtain ⟨fuel, rfl⟩ : ∃ n, fuel = n + 1 := ⟨fuel - 1, by omega⟩
  unfold decode
  rw [bytes, value]
  apply (readByte_reads h byte).bind
  simp only [hbyte, htag]
  apply (readByte_reads h 24).bind
  exact (hreads fuel (by omega) σ basicRead data h).bind_return fun v =>
    Value.binary (CborWriter.encode v)

mutual

theorem decodes : (t : Item) → t.WellFormed → Decodes t.bytes t.value
  | scalar k, ht => by
    rw [WellFormed] at ht
    rw [bytes, value]
    exact k.decodes ht
  | binary op s, ht => by
    rw [WellFormed, Opening.majorType] at ht
    apply Decodes.of_reads
    intro σ basicRead data h fuel
    unfold decode
    rw [bytes, value]
    apply (readByte_reads h op.byte).bind
    simp only [ht.1]
    exact (readInt_argument h op.isArgument).bind
      ((readString_bytes h ht.2).bind_return Value.binary)
  | array op ts, ht => by
    rw [WellFormed] at ht
    obtain ⟨es, hbytes, hvalues⟩ := elements ts ht.2.2.2
    have hlength : es.length = ts.length := by
      rw [← List.length_map Element.value, hvalues, valueArray_eq_map, List.length_map]
    rw [bytes, value, ← hbytes, ← hvalues]
    exact decodes_array ht.1 op.isArgument (ht.2.1.trans hlength.symm) (hlength ▸ ht.2.2.1)
  | indefiniteArray ts, ht => by
    rw [WellFormed] at ht
    obtain ⟨es, hbytes, hvalues⟩ := elements ts ht.2
    rw [bytes, value, ← hbytes, ← hvalues]
    apply decodes_indefiniteArray
    intro e he
    have hmem : e.value ∈ es.map Element.value := List.mem_map_of_mem he
    rw [hvalues, valueArray_eq_map] at hmem
    obtain ⟨t, ht', heq⟩ := List.mem_map.mp hmem
    rw [← heq, ne_eq, value_eq_break_iff, ht.1 t ht']
    exact Bool.false_ne_true
  | object op es, ht => by
    rw [WellFormed] at ht
    obtain ⟨es', hlength, hbytes, hvalues⟩ := entries es ht.2.2.2
    rw [bytes, value, ← hbytes, ← hvalues]
    exact decodes_object ht.1 op.isArgument (ht.2.1.trans hlength.symm) (hlength ▸ ht.2.2.1)
  | indefiniteObject es, ht => by
    rw [WellFormed] at ht
    obtain ⟨es', -, hbytes, hvalues⟩ := entries es ht
    rw [bytes, value, ← hbytes, ← hvalues]
    exact decodes_indefiniteObject es'
  | embedded byte t, ht => by
    rw [WellFormed] at ht
    exact decodes_embedded ht.1 ht.2.1 (decodes t ht.2.2)
  | simple byte, ht => by
    rw [WellFormed] at ht
    apply Decodes.of_reads
    intro σ basicRead data h fuel
    obtain ⟨hfalse, htrue, hnull, hundefined⟩ := @decode_simple_reads σ basicRead data h fuel
    rw [bytes, value]
    rcases ht with rfl | rfl | rfl | rfl
    . exact hfalse
    . exact htrue
    . exact hnull
    . exact hundefined
  | break_, _ => by
    rw [bytes, value]
    exact decodes_break

theorem elements
    : (ts : List Item) → WellFormedArray ts →
        ∃ es : List Element, es.flatMap Element.bytes = bytesArray ts
          ∧ es.map Element.value = valueArray ts
  | [], _ => ⟨[], by simp [bytesArray], by simp [valueArray]⟩
  | t :: ts, ht => by
    rw [WellFormedArray] at ht
    obtain ⟨es, hbytes, hvalues⟩ := elements ts ht.2
    refine ⟨⟨t.bytes, t.value, decodes t ht.1⟩ :: es, ?_, ?_⟩
    . rw [List.flatMap_cons, hbytes, bytesArray]
    . rw [List.map_cons, hvalues, valueArray]

theorem entries
    : (es : List (Scalar × Item)) → WellFormedObject es →
        ∃ es' : List Entry, es'.length = es.length ∧ es'.flatMap Entry.bytes = bytesObject es
          ∧ ∀ o, es'.foldl Entry.insert o = valueObject es o
  | [], _ => ⟨[], rfl, by simp [bytesObject], by simp [valueObject]⟩
  | (k, t) :: es, he => by
    rw [WellFormedObject] at he
    obtain ⟨es', hlength, hbytes, hvalues⟩ := entries es he.2.2
    refine ⟨⟨k.bytes, k.value, k.name, t.bytes, t.value, k.decodes he.1, fun _ => k.keyName_value,
      decodes t he.2.1⟩ :: es', ?_, ?_, ?_⟩
    . rw [List.length_cons, List.length_cons, hlength]
    . rw [List.flatMap_cons, hbytes, bytesObject, Entry.bytes]
    . intro o
      rw [List.foldl_cons, hvalues, valueObject, Entry.insert]

end

end Item

/-
What is read is spelt.
-/

namespace Item

-- The bytes in front of a reader have been those of an item with this value
def Spelt (data : σ → List UInt8) (reader reader' : σ) (v : Value) : Prop :=
  ∃ t : Item, t.WellFormed ∧ data reader = t.bytes ++ data reader' ∧ t.value = v

theorem scalar_of_keyName {t : Item} {name : Bytes} {reader reader' : σ} (ht : t.WellFormed)
    (hname : (keyName t.value : Decode σ Bytes) reader = some (.ok (name, reader')))
    : ∃ k : Scalar, k.WellFormed ∧ t.bytes = k.bytes ∧ name = k.name ∧ reader' = reader := by
  cases t with
  | scalar k =>
    rw [WellFormed] at ht
    rw [value, k.keyName_value] at hname
    cases hname
    exact ⟨k, ht, by rw [bytes], rfl, rfl⟩
  | simple byte =>
    rw [value] at hname
    split_ifs at hname <;> cases hname
  | _ =>
    rw [value] at hname
    cases hname

-- The initial bytes of the last major type that are items on their own
theorem simpleByte_spec
    : ∀ b : UInt8, b >>> 5 ∉ ([0, 1, 2, 3, 4, 5, 6] : List UInt8) →
        (b &&& 0x1f = 20 → b = 0xf4) ∧ (b &&& 0x1f = 21 → b = 0xf5) ∧ (b &&& 0x1f = 22 → b = 0xf6)
          ∧ (b &&& 0x1f = 23 → b = 0xf7) ∧ (b &&& 0x1f = 31 → b = 0xff) := by
  apply Digits.forall_byte
  decide

-- What is read with some fuel is spelt
structure Sound (basicRead : BasicRead σ) (data : σ → List UInt8) (fuel : Nat) : Prop where
  item {reader reader' : σ} {v : Value} (hdecode : decode basicRead fuel reader = some (.ok (v, reader')))
    : Spelt data reader reader' v
  indefiniteArray {reader reader' : σ} {a a' : List Value}
    (hdecode : decodeIndefiniteArray basicRead fuel a reader = some (.ok (a', reader')))
    : ∃ ts, (∀ t ∈ ts, t.isBreak = false) ∧ WellFormedArray ts
        ∧ data reader = bytesArray ts ++ 0xff :: data reader' ∧ a' = a ++ valueArray ts
  array {reader reader' : σ} {len : UInt64} {i : UInt32} {a a' : List Value} (hle : i.toNat ≤ len.toNat)
    (hdecode : decodeArray basicRead len fuel i a reader = some (.ok (a', reader')))
    : len.toNat < 2 ^ 32 ∧ ∃ ts, WellFormedArray ts ∧ len.toNat = i.toNat + ts.length
        ∧ data reader = bytesArray ts ++ data reader' ∧ a' = a ++ valueArray ts
  indefiniteObject {reader reader' : σ} {o o' : List (Bytes × Value)}
    (hdecode : decodeIndefiniteObject basicRead fuel o reader = some (.ok (o', reader')))
    : ∃ es, WellFormedObject es ∧ data reader = bytesObject es ++ 0xff :: data reader'
        ∧ o' = valueObject es o
  object {reader reader' : σ} {len : UInt64} {i : UInt32} {o o' : List (Bytes × Value)}
    (hle : i.toNat ≤ len.toNat)
    (hdecode : decodeObject basicRead len fuel i o reader = some (.ok (o', reader')))
    : len.toNat < 2 ^ 32 ∧ ∃ es, WellFormedObject es ∧ len.toNat = i.toNat + es.length
        ∧ data reader = bytesObject es ++ data reader' ∧ o' = valueObject es o

variable {fuel : Nat}

/-
The loops and the items, one call further down.
-/

theorem indefiniteArray_spelt {reader reader' : σ} {a a' : List Value} (hs : Sound basicRead data fuel)
    (hdecode : decodeIndefiniteArray basicRead (fuel + 1) a reader = some (.ok (a', reader')))
    : ∃ ts, (∀ t ∈ ts, t.isBreak = false) ∧ WellFormedArray ts
        ∧ data reader = bytesArray ts ++ 0xff :: data reader' ∧ a' = a ++ valueArray ts := by
  rw [decodeIndefiniteArray] at hdecode
  obtain ⟨v, reader1, hvalue, hdecode⟩ := Decoder.bind_ok hdecode
  obtain ⟨t, ht, hdata, heq⟩ := hs.item hvalue
  split at hdecode
  . cases hdecode
    rw [value_eq_break_iff] at heq
    have hbreak := isBreak_iff.mp heq
    rw [hbreak, bytes] at hdata
    exact ⟨[], by simp, by simp [WellFormedArray], by simpa [bytesArray] using hdata,
      by simp [valueArray]⟩
  . next hne =>
    obtain ⟨ts, hbreak, hts, hdata', rfl⟩ := hs.indefiniteArray hdecode
    refine ⟨t :: ts, ?_, ?_, ?_, ?_⟩
    . rw [List.forall_mem_cons]
      refine ⟨?_, hbreak⟩
      rw [← Bool.not_eq_true, ← value_eq_break_iff, heq]
      exact hne
    . rw [WellFormedArray]
      exact ⟨ht, hts⟩
    . rw [hdata, hdata', bytesArray, List.append_assoc]
    . rw [valueArray, heq]
      exact (List.append_cons ..).symm

theorem array_spelt {reader reader' : σ} {len : UInt64} {i : UInt32} {a a' : List Value}
    (hs : Sound basicRead data fuel) (hle : i.toNat ≤ len.toNat)
    (hdecode : decodeArray basicRead len (fuel + 1) i a reader = some (.ok (a', reader')))
    : len.toNat < 2 ^ 32 ∧ ∃ ts, WellFormedArray ts ∧ len.toNat = i.toNat + ts.length
        ∧ data reader = bytesArray ts ++ data reader' ∧ a' = a ++ valueArray ts := by
  rw [decodeArray] at hdecode
  split at hdecode
  case isTrue hlt =>
    obtain ⟨v, reader1, hvalue, hdecode⟩ := Decoder.bind_ok hdecode
    obtain ⟨t, ht, hdata, rfl⟩ := hs.item hvalue
    obtain ⟨hle', hstep⟩ := counter_step hlt
    obtain ⟨hbound, ts, hts, hlength, hdata', rfl⟩ := hs.array hle' hdecode
    have hnext := hstep hbound
    refine ⟨hbound, t :: ts, ?_, ?_, ?_, ?_⟩
    . rw [WellFormedArray]
      exact ⟨ht, hts⟩
    . rw [List.length_cons]
      omega
    . rw [hdata, hdata', bytesArray, List.append_assoc]
    . rw [valueArray]
      exact (List.append_cons ..).symm
  case isFalse hge =>
    cases hdecode
    rw [UInt64.lt_iff_toNat_lt, UInt32.toNat_toUInt64] at hge
    have hi := i.toNat_lt
    refine ⟨by omega, [], by simp [WellFormedArray], ?_, by simp [bytesArray], by simp [valueArray]⟩
    rw [List.length_nil]
    omega

theorem indefiniteObject_spelt {reader reader' : σ} {o o' : List (Bytes × Value)}
    (hs : Sound basicRead data fuel)
    (hdecode : decodeIndefiniteObject basicRead (fuel + 1) o reader = some (.ok (o', reader')))
    : ∃ es, WellFormedObject es ∧ data reader = bytesObject es ++ 0xff :: data reader'
        ∧ o' = valueObject es o := by
  rw [decodeIndefiniteObject] at hdecode
  obtain ⟨v, reader1, hkey, hdecode⟩ := Decoder.bind_ok hdecode
  obtain ⟨t, ht, hdata, heq⟩ := hs.item hkey
  split at hdecode
  . cases hdecode
    rw [value_eq_break_iff] at heq
    have hbreak := isBreak_iff.mp heq
    rw [hbreak, bytes] at hdata
    exact ⟨[], by simp [WellFormedObject], by simpa [bytesObject] using hdata, by simp [valueObject]⟩
  . obtain ⟨name, reader2, hname, hdecode2⟩ := Decoder.bind_ok hdecode
    rw [← heq] at hname
    obtain ⟨k, hk, hbytes, rfl, rfl⟩ := scalar_of_keyName ht hname
    obtain ⟨w, reader3, hvalue, hdecode3⟩ := Decoder.bind_ok hdecode2
    obtain ⟨t', ht', hdata', rfl⟩ := hs.item hvalue
    obtain ⟨es, hes, hdata'', rfl⟩ := hs.indefiniteObject hdecode3
    refine ⟨(k, t') :: es, ?_, ?_, ?_⟩
    . rw [WellFormedObject]
      exact ⟨hk, ht', hes⟩
    . rw [hdata, hdata', hdata'', hbytes, bytesObject, List.append_assoc, List.append_assoc]
    . rw [valueObject]

theorem object_spelt {reader reader' : σ} {len : UInt64} {i : UInt32} {o o' : List (Bytes × Value)}
    (hs : Sound basicRead data fuel) (hle : i.toNat ≤ len.toNat)
    (hdecode : decodeObject basicRead len (fuel + 1) i o reader = some (.ok (o', reader')))
    : len.toNat < 2 ^ 32 ∧ ∃ es, WellFormedObject es ∧ len.toNat = i.toNat + es.length
        ∧ data reader = bytesObject es ++ data reader' ∧ o' = valueObject es o := by
  rw [decodeObject] at hdecode
  split at hdecode
  case isTrue hlt =>
    obtain ⟨v, reader1, hkey, hdecode1⟩ := Decoder.bind_ok hdecode
    obtain ⟨t, ht, hdata, rfl⟩ := hs.item hkey
    obtain ⟨name, reader2, hname, hdecode2⟩ := Decoder.bind_ok hdecode1
    obtain ⟨k, hk, hbytes, rfl, rfl⟩ := scalar_of_keyName ht hname
    obtain ⟨w, reader3, hvalue, hdecode3⟩ := Decoder.bind_ok hdecode2
    obtain ⟨t', ht', hdata', rfl⟩ := hs.item hvalue
    obtain ⟨hle', hstep⟩ := counter_step hlt
    obtain ⟨hbound, es, hes, hlength, hdata'', rfl⟩ := hs.object hle' hdecode3
    have hnext := hstep hbound
    refine ⟨hbound, (k, t') :: es, ?_, ?_, ?_, ?_⟩
    . rw [WellFormedObject]
      exact ⟨hk, ht', hes⟩
    . rw [List.length_cons]
      omega
    . rw [hdata, hdata', hdata'', hbytes, bytesObject, List.append_assoc, List.append_assoc]
    . rw [valueObject]
  case isFalse hge =>
    cases hdecode
    rw [UInt64.lt_iff_toNat_lt, UInt32.toNat_toUInt64] at hge
    have hi := i.toNat_lt
    refine ⟨by omega, [], by simp [WellFormedObject], ?_, by simp [bytesObject], by simp [valueObject]⟩
    rw [List.length_nil]
    omega

-- What is done with the type of a tag
def decodeTagged (basicRead : BasicRead σ) (fuel : Nat) (type : UInt8) : Decode σ Value :=
  if type = 24 then
    return .binary (CborWriter.encode (← decode basicRead fuel))
  else
    raise 14 s!"Unhandled tag type {type.toNat}"

section Spelt

variable (h : Lawful basicRead data)
include h

theorem readInt_opening {b : UInt8} {reader reader1 reader2 : σ} {n : UInt64}
    (hbyte : data reader = b :: data reader1)
    (hread : readInt basicRead b reader1 = some (.ok (n, reader2)))
    : ∃ op : Opening, op.byte = b ∧ op.n = n ∧ data reader = op.bytes ++ data reader2 := by
  obtain ⟨arg, harg, hdata⟩ := readInt_ok h hread
  refine ⟨⟨b, arg, n, harg⟩, rfl, rfl, ?_⟩
  rw [hbyte, hdata, Opening.bytes, List.cons_append]

variable {b : UInt8} {reader reader1 reader' : σ} {v : Value}

theorem array_of_decode (hs : Sound basicRead data fuel) (hdata : data reader = b :: data reader1)
    (hb : b >>> 5 = 4)
    (hdecode : (if b = 0x9f then
        decodeIndefiniteArray basicRead fuel [] >>= fun a => pure (Value.array a)
      else
        readInt basicRead b >>= fun n => decodeArray basicRead n fuel 0 [] >>= fun a =>
          pure (Value.array a) : Decode σ Value) reader1 = some (.ok (v, reader')))
    : Spelt data reader reader' v := by
  split at hdecode
  case isTrue hbreak =>
    obtain ⟨a, reader2, harray, hpure⟩ := Decoder.bind_ok hdecode
    obtain ⟨ts, hne, hts, hdata', rfl⟩ := hs.indefiniteArray harray
    cases hpure
    refine ⟨.indefiniteArray ts, ?_, ?_, ?_⟩
    . rw [WellFormed]
      exact ⟨hne, hts⟩
    . rw [bytes, hdata, hdata', hbreak, List.cons_append, List.append_assoc, List.singleton_append]
    . rw [value, List.nil_append]
  case isFalse =>
    obtain ⟨n, reader2, hint, hdecode'⟩ := Decoder.bind_ok hdecode
    obtain ⟨op, rfl, rfl, hopening⟩ := readInt_opening h hdata hint
    obtain ⟨a, reader3, harray, hpure⟩ := Decoder.bind_ok hdecode'
    obtain ⟨hlt, ts, hts, hlength, hdata', rfl⟩ := hs.array (Nat.zero_le _) harray
    have hcount : op.n.toNat = ts.length := hlength.trans (Nat.zero_add _)
    cases hpure
    refine ⟨.array op ts, ?_, ?_, ?_⟩
    . rw [WellFormed]
      exact ⟨hb, hcount, hcount ▸ hlt, hts⟩
    . rw [bytes, hopening, hdata', List.append_assoc]
    . rw [value, List.nil_append]

theorem object_of_decode (hs : Sound basicRead data fuel) (hdata : data reader = b :: data reader1)
    (hb : b >>> 5 = 5)
    (hdecode : (if b = 0xbf then
        decodeIndefiniteObject basicRead fuel [] >>= fun o => pure (Value.object o)
      else
        readInt basicRead b >>= fun n => decodeObject basicRead n fuel 0 [] >>= fun o =>
          pure (Value.object o) : Decode σ Value) reader1 = some (.ok (v, reader')))
    : Spelt data reader reader' v := by
  split at hdecode
  case isTrue hbreak =>
    obtain ⟨o, reader2, hobject, hpure⟩ := Decoder.bind_ok hdecode
    obtain ⟨es, hes, hdata', rfl⟩ := hs.indefiniteObject hobject
    cases hpure
    refine ⟨.indefiniteObject es, ?_, ?_, ?_⟩
    . rw [WellFormed]
      exact hes
    . rw [bytes, hdata, hdata', hbreak, List.cons_append, List.append_assoc, List.singleton_append]
    . rw [value]
  case isFalse =>
    obtain ⟨n, reader2, hint, hdecode'⟩ := Decoder.bind_ok hdecode
    obtain ⟨op, rfl, rfl, hopening⟩ := readInt_opening h hdata hint
    obtain ⟨o, reader3, hobject, hpure⟩ := Decoder.bind_ok hdecode'
    obtain ⟨hlt, es, hes, hlength, hdata', rfl⟩ := hs.object (Nat.zero_le _) hobject
    have hcount : op.n.toNat = es.length := hlength.trans (Nat.zero_add _)
    cases hpure
    refine ⟨.object op es, ?_, ?_, ?_⟩
    . rw [WellFormed]
      exact ⟨hb, hcount, hcount ▸ hlt, hes⟩
    . rw [bytes, hopening, hdata', List.append_assoc]
    . rw [value]

omit h in
theorem decodeTagged_ok {type : UInt8}
    (hdecode : decodeTagged basicRead fuel type reader = some (.ok (v, reader')))
    : type = 24 ∧ ∃ w, decode basicRead fuel reader = some (.ok (w, reader'))
        ∧ v = .binary (CborWriter.encode w) := by
  unfold decodeTagged at hdecode
  split at hdecode
  case isTrue htype =>
    obtain ⟨w, reader1, hvalue, hpure⟩ := Decoder.bind_ok hdecode
    cases hpure
    exact ⟨htype, w, hvalue, rfl⟩
  case isFalse => cases hdecode

theorem embedded_of_decode (hs : Sound basicRead data fuel) (hdata : data reader = b :: data reader1)
    (hb : b >>> 5 = 6)
    (hdecode : (if b &&& 0x1f > 23 then
        readByte basicRead >>= decodeTagged basicRead fuel
      else
        pure (b &&& 0x1f) >>= decodeTagged basicRead fuel : Decode σ Value) reader1
          = some (.ok (v, reader')))
    : Spelt data reader reader' v := by
  split at hdecode
  case isTrue htag =>
    obtain ⟨type, reader2, htype, htagged⟩ := Decoder.bind_ok hdecode
    obtain ⟨rfl, w, hvalue, rfl⟩ := decodeTagged_ok htagged
    obtain ⟨t, ht, hdata', rfl⟩ := hs.item hvalue
    refine ⟨.embedded b t, ?_, ?_, ?_⟩
    . rw [WellFormed]
      exact ⟨hb, htag, ht⟩
    . rw [bytes, hdata, readByte_ok h htype, hdata', List.cons_append, List.cons_append]
    . rw [value]
  case isFalse htag =>
    -- A tag in the initial byte itself is never 24
    obtain ⟨type, reader2, htype, htagged⟩ := Decoder.bind_ok hdecode
    obtain ⟨heq, -⟩ := decodeTagged_ok htagged
    obtain ⟨htype, -⟩ := Prod.mk.inj (Except.ok.inj (Option.some.inj htype))
    rw [htype, heq] at htag
    exact absurd (by decide) htag

omit h in
theorem simple_of_decode (hdata : data reader = b :: data reader1)
    (hb : b >>> 5 ∉ ([0, 1, 2, 3, 4, 5, 6] : List UInt8))
    (hdecode : (match (b &&& 0x1f).toNat with
      | 20 => pure .false_
      | 21 => pure .true_
      | 22 => pure .null
      | 23 => pure .undefined
      | 31 => pure .break_
      | type => raise 12 s!"Unhandled float/simple type {type}" : Decode σ Value) reader1
          = some (.ok (v, reader')))
    : Spelt data reader reader' v := by
  obtain ⟨hfalse, htrue, hnull, hundefined, hbreak⟩ := simpleByte_spec _ hb
  obtain ⟨type, htype⟩ : ∃ type, (b &&& 0x1f).toNat = type := ⟨_, rfl⟩
  rw [htype] at hdecode
  split at hdecode
  . cases hdecode
    obtain rfl := hfalse (UInt8.toNat_inj.mp htype)
    exact ⟨.simple 0xf4, by simp [WellFormed], hdata, by simp [value]⟩
  . cases hdecode
    obtain rfl := htrue (UInt8.toNat_inj.mp htype)
    exact ⟨.simple 0xf5, by simp [WellFormed], hdata, by simp [value]⟩
  . cases hdecode
    obtain rfl := hnull (UInt8.toNat_inj.mp htype)
    exact ⟨.simple 0xf6, by simp [WellFormed], hdata, by simp [value]⟩
  . cases hdecode
    obtain rfl := hundefined (UInt8.toNat_inj.mp htype)
    exact ⟨.simple 0xf7, by simp [WellFormed], hdata, by simp [value]⟩
  . cases hdecode
    obtain rfl := hbreak (UInt8.toNat_inj.mp htype)
    exact ⟨.break_, by simp [WellFormed], hdata, by simp [value]⟩
  . cases hdecode

theorem item_spelt (hs : Sound basicRead data fuel)
    (hdecode : decode basicRead (fuel + 1) reader = some (.ok (v, reader')))
    : Spelt data reader reader' v := by
  unfold decode at hdecode
  obtain ⟨b, reader1, hbyte, hdecode1⟩ := Decoder.bind_ok hdecode
  have hdata := readByte_ok h hbyte
  dsimp only at hdecode1
  by_cases hb0 : b >>> 5 = 0
  . rw [if_pos hb0] at hdecode1
    obtain ⟨n, reader2, hint, hpure⟩ := Decoder.bind_ok hdecode1
    obtain ⟨op, rfl, rfl, hopening⟩ := readInt_opening h hdata hint
    cases hpure
    refine ⟨.scalar (.integer op), ?_, ?_, ?_⟩
    . rw [WellFormed]
      exact Or.inl hb0
    . rw [bytes]
      exact hopening
    . rw [value, Scalar.value, Scalar.number]
      exact congrArg Value.integer (if_pos hb0)
  rw [if_neg hb0] at hdecode1
  by_cases hb1 : b >>> 5 = 1
  . rw [if_pos hb1] at hdecode1
    obtain ⟨n, reader2, hint, hpure⟩ := Decoder.bind_ok hdecode1
    obtain ⟨op, rfl, rfl, hopening⟩ := readInt_opening h hdata hint
    cases hpure
    refine ⟨.scalar (.integer op), ?_, ?_, ?_⟩
    . rw [WellFormed]
      exact Or.inr hb1
    . rw [bytes]
      exact hopening
    . rw [value, Scalar.value, Scalar.number]
      exact congrArg Value.integer (if_neg hb0)
  rw [if_neg hb1] at hdecode1
  by_cases hb2 : b >>> 5 = 2
  . rw [if_pos hb2] at hdecode1
    obtain ⟨n, reader2, hint, hdecode2⟩ := Decoder.bind_ok hdecode1
    obtain ⟨op, rfl, rfl, hopening⟩ := readInt_opening h hdata hint
    obtain ⟨s, reader3, hstring, hpure⟩ := Decoder.bind_ok hdecode2
    obtain ⟨hs, hlength⟩ := readString_ok h hstring
    cases hpure
    refine ⟨.binary op s, ?_, ?_, ?_⟩
    . rw [WellFormed]
      exact ⟨hb2, hlength⟩
    . rw [bytes, hopening, hs, List.append_assoc]
    . rw [value]
  rw [if_neg hb2] at hdecode1
  by_cases hb3 : b >>> 5 = 3
  . rw [if_pos hb3] at hdecode1
    obtain ⟨n, reader2, hint, hdecode2⟩ := Decoder.bind_ok hdecode1
    obtain ⟨op, rfl, rfl, hopening⟩ := readInt_opening h hdata hint
    obtain ⟨s, reader3, hstring, hpure⟩ := Decoder.bind_ok hdecode2
    obtain ⟨hs, hlength⟩ := readString_ok h hstring
    cases hpure
    refine ⟨.scalar (.string op s), ?_, ?_, ?_⟩
    . rw [WellFormed]
      exact ⟨hb3, hlength⟩
    . rw [bytes, Scalar.bytes, hopening, hs, List.append_assoc]
    . rw [value, Scalar.value]
  rw [if_neg hb3] at hdecode1
  by_cases hb4 : b >>> 5 = 4
  . rw [if_pos hb4] at hdecode1
    exact array_of_decode h hs hdata hb4 hdecode1
  rw [if_neg hb4] at hdecode1
  by_cases hb5 : b >>> 5 = 5
  . rw [if_pos hb5] at hdecode1
    exact object_of_decode h hs hdata hb5 hdecode1
  rw [if_neg hb5] at hdecode1
  by_cases hb6 : b >>> 5 = 6
  . rw [if_pos hb6] at hdecode1
    exact embedded_of_decode h hs hdata hb6 hdecode1
  rw [if_neg hb6] at hdecode1
  refine simple_of_decode hdata ?_ hdecode1
  simp only [List.mem_cons, hb0, hb1, hb2, hb3, hb4, hb5, hb6, List.not_mem_nil, or_self,
    not_false_eq_true]

/--
Whatever bytes there are, the ones that are read are those of an item, and what is returned is its value.
-/
theorem sound (fuel : Nat) : Sound basicRead data fuel := by
  induction fuel with
  | zero =>
    refine { item := ?_, indefiniteArray := ?_, array := ?_, indefiniteObject := ?_, object := ?_ }
    . intro reader reader' v hdecode
      rw [decode] at hdecode
      cases hdecode
    . intro reader reader' a a' hdecode
      rw [decodeIndefiniteArray] at hdecode
      cases hdecode
    . intro reader reader' len i a a' hle hdecode
      rw [decodeArray] at hdecode
      cases hdecode
    . intro reader reader' o o' hdecode
      rw [decodeIndefiniteObject] at hdecode
      cases hdecode
    . intro reader reader' len i o o' hle hdecode
      rw [decodeObject] at hdecode
      cases hdecode
  | succ fuel ih =>
    exact {
      item := item_spelt h ih
      indefiniteArray := indefiniteArray_spelt ih
      array := array_spelt ih
      indefiniteObject := indefiniteObject_spelt ih
      object := object_spelt ih
    }

end Spelt

end Item

end CborReader

end Json
end ObTools
