import ObTools.Json.CborItems

/-!
This module contains how containers are read from the items in them, whatever these are.
-/

namespace ObTools
namespace Json

open Channel (BasicRead Lawful)
open Decoder (Reads)

namespace CborReader

variable {σ : Type} {basicRead : BasicRead σ} {data : σ → List UInt8} {b : UInt8} {arg : Bytes}
  {n : UInt64}

-- The reader returns the value for these bytes, whatever comes behind them
def Decodes (bytes : Bytes) (v : Value) : Prop :=
  ∃ enough, ∀ fuel ≥ enough, ∀ (σ : Type) (basicRead : BasicRead σ) (data : σ → List UInt8),
    Lawful basicRead data → Reads data (decode basicRead fuel) bytes v

/--
What starts with the same bytes is read as the same value, and ends at the same place.
-/
theorem Decodes.prefix_unique {bytes bytes' rest rest' : Bytes} {v w : Value} (hv : Decodes bytes v)
    (hw : Decodes bytes' w) (happend : bytes ++ rest = bytes' ++ rest')
    : v = w ∧ rest = rest' := by
  obtain ⟨enough, hv⟩ := hv
  obtain ⟨enough', hw⟩ := hw
  have hdata := Channel.StringReader.rest_new (bytes ++ rest)
  obtain ⟨reader', hreadv, hrest⟩ := hv _ (Nat.le_max_left enough enough') _ _ _
    Channel.StringReader.lawful _ _ hdata
  obtain ⟨reader'', hreadw, hrest'⟩ := hw _ (Nat.le_max_right enough enough') _ _ _
    Channel.StringReader.lawful _ _ (hdata.trans happend)
  rw [hreadv] at hreadw
  cases hreadw
  exact ⟨rfl, hrest.symm.trans hrest'⟩

theorem Decodes.unique {bytes : Bytes} {v w : Value} (hv : Decodes bytes v) (hw : Decodes bytes w)
    : v = w := by
  have happend : bytes ++ [] = bytes ++ [] := rfl
  exact (hv.prefix_unique hw happend).1

-- An item that needs no fuel for other items
theorem Decodes.of_reads {bytes : Bytes} {v : Value}
    (hreads : ∀ (σ : Type) (basicRead : BasicRead σ) (data : σ → List UInt8), Lawful basicRead data →
      ∀ fuel, Reads data (decode basicRead (fuel + 1)) bytes v)
    : Decodes bytes v := by
  refine ⟨1, ?_⟩
  intro fuel hfuel σ basicRead data h
  obtain ⟨fuel, rfl⟩ : ∃ n, fuel = n + 1 := ⟨fuel - 1, by omega⟩
  exact hreads σ basicRead data h fuel

theorem decodes_break : Decodes [0xff] .break_ := by
  apply Decodes.of_reads
  intro σ basicRead data h fuel
  unfold decode
  exact (readByte_reads h 0xff).bind (Reads.pure Value.break_)

structure Element where
  bytes : Bytes
  value : Value
  isElement : Decodes bytes value

structure Entry where
  keyBytes : Bytes
  key : Value
  name : Bytes
  valueBytes : Bytes
  value : Value
  isKey : Decodes keyBytes key
  isName : ∀ σ : Type, (keyName key : Decode σ Bytes) = pure name
  isValue : Decodes valueBytes value

namespace Entry

def bytes (e : Entry) : Bytes := e.keyBytes ++ e.valueBytes

def insert (o : List (Bytes × Value)) (e : Entry) : List (Bytes × Value) := mapSet e.name e.value o

end Entry

-- A break is no name
theorem keyName_break {name : Bytes} : ¬∀ σ : Type, (keyName .break_ : Decode σ Bytes) = pure name := by
  intro hname
  have hunit := congrFun (hname Unit) ()
  cases hunit

/-
The loops over what is in a container.
-/

theorem decodeArray_reads_elements (es : List Element)
    : ∃ enough, ∀ fuel ≥ enough, ∀ (σ : Type) (basicRead : BasicRead σ) (data : σ → List UInt8),
        Lawful basicRead data → ∀ (len : UInt64) (i : UInt32) a, len.toNat = i.toNat + es.length →
          len.toNat < 2 ^ 32 →
          Reads data (decodeArray basicRead len fuel i a) (es.flatMap Element.bytes)
            (a ++ es.map Element.value) := by
  induction es with
  | nil =>
    refine ⟨1, ?_⟩
    intro fuel hfuel σ basicRead data h len i a hlen hlt
    obtain ⟨fuel, rfl⟩ : ∃ n, fuel = n + 1 := ⟨fuel - 1, by omega⟩
    rw [decodeArray, if_neg, List.map_nil, List.append_nil]
    . exact Reads.pure a
    . rw [counter_lt rfl hlen]
      exact Nat.lt_irrefl 0
  | cons e es ih =>
    obtain ⟨enough1, helement⟩ := e.isElement
    obtain ⟨enough2, hrest⟩ := ih
    refine ⟨max enough1 enough2 + 1, ?_⟩
    intro fuel hfuel σ basicRead data h len i a hlen hlt
    obtain ⟨fuel, rfl⟩ : ∃ n, fuel = n + 1 := ⟨fuel - 1, by omega⟩
    have hlength : (e :: es).length = es.length + 1 := List.length_cons
    have hsucc := counter_succ (i := i) rfl (by omega)
    rw [decodeArray, if_pos (by rw [counter_lt rfl hlen]; omega), List.flatMap_cons, List.map_cons,
      List.append_cons]
    refine (helement fuel (by omega) σ basicRead data h).bind ?_
    exact hrest fuel (by omega) σ basicRead data h len (i + 1) _ (by omega) hlt

theorem decodeIndefiniteArray_reads_elements {es : List Element} (hbreak : ∀ e ∈ es, e.value ≠ .break_)
    : ∃ enough, ∀ fuel ≥ enough, ∀ (σ : Type) (basicRead : BasicRead σ) (data : σ → List UInt8),
        Lawful basicRead data → ∀ a,
          Reads data (decodeIndefiniteArray basicRead fuel a) (es.flatMap Element.bytes ++ [0xff])
            (a ++ es.map Element.value) := by
  induction es with
  | nil =>
    obtain ⟨enough, hbreak⟩ := decodes_break
    refine ⟨enough + 1, ?_⟩
    intro fuel hfuel σ basicRead data h a
    obtain ⟨fuel, rfl⟩ : ∃ n, fuel = n + 1 := ⟨fuel - 1, by omega⟩
    rw [decodeIndefiniteArray, List.map_nil, List.append_nil]
    exact (hbreak fuel (by omega) σ basicRead data h).bind (Reads.pure a)
  | cons e es ih =>
    rw [List.forall_mem_cons] at hbreak
    obtain ⟨enough1, helement⟩ := e.isElement
    obtain ⟨enough2, hrest⟩ := ih hbreak.2
    refine ⟨max enough1 enough2 + 1, ?_⟩
    intro fuel hfuel σ basicRead data h a
    obtain ⟨fuel, rfl⟩ : ∃ n, fuel = n + 1 := ⟨fuel - 1, by omega⟩
    rw [decodeIndefiniteArray, List.flatMap_cons, List.map_cons, List.append_cons a,
      List.append_assoc]
    refine (helement fuel (by omega) σ basicRead data h).bind ?_
    split
    . next heq => exact absurd heq hbreak.1
    . exact hrest fuel (by omega) σ basicRead data h _

theorem decodeObject_reads_entries (es : List Entry)
    : ∃ enough, ∀ fuel ≥ enough, ∀ (σ : Type) (basicRead : BasicRead σ) (data : σ → List UInt8),
        Lawful basicRead data → ∀ (len : UInt64) (i : UInt32) o, len.toNat = i.toNat + es.length →
          len.toNat < 2 ^ 32 →
          Reads data (decodeObject basicRead len fuel i o) (es.flatMap Entry.bytes)
            (es.foldl Entry.insert o) := by
  induction es with
  | nil =>
    refine ⟨1, ?_⟩
    intro fuel hfuel σ basicRead data h len i o hlen hlt
    obtain ⟨fuel, rfl⟩ : ∃ n, fuel = n + 1 := ⟨fuel - 1, by omega⟩
    rw [decodeObject, if_neg]
    . exact Reads.pure o
    . rw [counter_lt rfl hlen]
      exact Nat.lt_irrefl 0
  | cons e es ih =>
    obtain ⟨enough1, hkey⟩ := e.isKey
    obtain ⟨enough2, hvalue⟩ := e.isValue
    obtain ⟨enough3, hrest⟩ := ih
    refine ⟨max (max enough1 enough2) enough3 + 1, ?_⟩
    intro fuel hfuel σ basicRead data h len i o hlen hlt
    obtain ⟨fuel, rfl⟩ : ∃ n, fuel = n + 1 := ⟨fuel - 1, by omega⟩
    have hlength : (e :: es).length = es.length + 1 := List.length_cons
    have hsucc := counter_succ (i := i) rfl (by omega)
    rw [decodeObject, if_pos (by rw [counter_lt rfl hlen]; omega), List.flatMap_cons, Entry.bytes,
      List.append_assoc, List.foldl_cons]
    refine (hkey fuel (by omega) σ basicRead data h).bind ?_
    rw [e.isName]
    refine (Reads.pure e.name).bind ((hvalue fuel (by omega) σ basicRead data h).bind ?_)
    exact hrest fuel (by omega) σ basicRead data h len (i + 1) _ (by omega) hlt

theorem decodeIndefiniteObject_reads_entries (es : List Entry)
    : ∃ enough, ∀ fuel ≥ enough, ∀ (σ : Type) (basicRead : BasicRead σ) (data : σ → List UInt8),
        Lawful basicRead data → ∀ o,
          Reads data (decodeIndefiniteObject basicRead fuel o) (es.flatMap Entry.bytes ++ [0xff])
            (es.foldl Entry.insert o) := by
  induction es with
  | nil =>
    obtain ⟨enough, hbreak⟩ := decodes_break
    refine ⟨enough + 1, ?_⟩
    intro fuel hfuel σ basicRead data h o
    obtain ⟨fuel, rfl⟩ : ∃ n, fuel = n + 1 := ⟨fuel - 1, by omega⟩
    rw [decodeIndefiniteObject]
    exact (hbreak fuel (by omega) σ basicRead data h).bind (Reads.pure o)
  | cons e es ih =>
    obtain ⟨enough1, hkey⟩ := e.isKey
    obtain ⟨enough2, hvalue⟩ := e.isValue
    obtain ⟨enough3, hrest⟩ := ih
    refine ⟨max (max enough1 enough2) enough3 + 1, ?_⟩
    intro fuel hfuel σ basicRead data h o
    obtain ⟨fuel, rfl⟩ : ∃ n, fuel = n + 1 := ⟨fuel - 1, by omega⟩
    rw [decodeIndefiniteObject, List.flatMap_cons, Entry.bytes, List.append_assoc, List.append_assoc,
      List.foldl_cons]
    refine (hkey fuel (by omega) σ basicRead data h).bind ?_
    split
    . next heq => exact absurd (heq ▸ e.isName) keyName_break
    . rw [e.isName]
      refine (Reads.pure e.name).bind ((hvalue fuel (by omega) σ basicRead data h).bind ?_)
      exact hrest fuel (by omega) σ basicRead data h _

/-
The containers themselves.
-/

theorem argument_ne_break (harg : Argument b arg n) : b &&& 0x1f ≠ 31 := by
  intro heq
  have hwidth := harg.width
  rw [argumentWidth, heq] at hwidth
  cases hwidth

theorem decodes_array {es : List Element} (hb : b >>> 5 = 4) (harg : Argument b arg n)
    (hn : n.toNat = es.length) (hlt : es.length < 2 ^ 32)
    : Decodes (b :: (arg ++ es.flatMap Element.bytes)) (.array (es.map Element.value)) := by
  have hne : b ≠ 0x9f := by
    rintro rfl
    exact argument_ne_break harg (by decide)
  obtain ⟨enough, hreads⟩ := decodeArray_reads_elements es
  refine ⟨enough + 1, ?_⟩
  intro fuel hfuel σ basicRead data h
  obtain ⟨fuel, rfl⟩ : ∃ n, fuel = n + 1 := ⟨fuel - 1, by omega⟩
  unfold decode
  apply (readByte_reads h b).bind
  simp only [hb, hne]
  refine (readInt_argument h harg).bind ?_
  exact (hreads fuel (by omega) σ basicRead data h n 0 [] (by rw [hn]; simp) (by omega)).bind_return
    Value.array

theorem decodes_indefiniteArray {es : List Element} (hbreak : ∀ e ∈ es, e.value ≠ .break_)
    : Decodes (0x9f :: (es.flatMap Element.bytes ++ [0xff])) (.array (es.map Element.value)) := by
  obtain ⟨enough, hreads⟩ := decodeIndefiniteArray_reads_elements hbreak
  refine ⟨enough + 1, ?_⟩
  intro fuel hfuel σ basicRead data h
  obtain ⟨fuel, rfl⟩ : ∃ n, fuel = n + 1 := ⟨fuel - 1, by omega⟩
  unfold decode
  apply (readByte_reads h 0x9f).bind
  exact (hreads fuel (by omega) σ basicRead data h []).bind_return Value.array

theorem decodes_object {es : List Entry} (hb : b >>> 5 = 5) (harg : Argument b arg n)
    (hn : n.toNat = es.length) (hlt : es.length < 2 ^ 32)
    : Decodes (b :: (arg ++ es.flatMap Entry.bytes)) (.object (es.foldl Entry.insert [])) := by
  have hne : b ≠ 0xbf := by
    rintro rfl
    exact argument_ne_break harg (by decide)
  obtain ⟨enough, hreads⟩ := decodeObject_reads_entries es
  refine ⟨enough + 1, ?_⟩
  intro fuel hfuel σ basicRead data h
  obtain ⟨fuel, rfl⟩ : ∃ n, fuel = n + 1 := ⟨fuel - 1, by omega⟩
  unfold decode
  apply (readByte_reads h b).bind
  simp only [hb, hne]
  refine (readInt_argument h harg).bind ?_
  exact (hreads fuel (by omega) σ basicRead data h n 0 [] (by rw [hn]; simp) (by omega)).bind_return
    Value.object

theorem decodes_indefiniteObject (es : List Entry)
    : Decodes (0xbf :: (es.flatMap Entry.bytes ++ [0xff])) (.object (es.foldl Entry.insert [])) := by
  obtain ⟨enough, hreads⟩ := decodeIndefiniteObject_reads_entries es
  refine ⟨enough + 1, ?_⟩
  intro fuel hfuel σ basicRead data h
  obtain ⟨fuel, rfl⟩ : ∃ n, fuel = n + 1 := ⟨fuel - 1, by omega⟩
  unfold decode
  apply (readByte_reads h 0xbf).bind
  exact (hreads fuel (by omega) σ basicRead data h []).bind_return Value.object

end CborReader

end Json
end ObTools
