import ObTools.Json.CborFraming
import ObTools.Json.CborTrees
import ObTools.Lib.SortedMap

/-!
This module contains where a break ends up that is not the end of an indefinite container, and that arrays
of a definite and of an indefinite size are read as the same value.
-/

namespace ObTools
namespace Json

open Channel (BasicRead Lawful)
open Decoder (Reads)

theorem mapSet_eq_set (k : Bytes) (v : Value) (o : List (Bytes × Value))
    : mapSet k v o = SortedMap.set k v o := by
  induction o with
  | nil => rfl
  | cons e o ih => rw [mapSet, SortedMap.set, ih]

theorem mem_mapSet {o : List (Bytes × Value)} {k : Bytes} {v : Value} (ho : SortedMap.Sorted o)
    {e : Bytes × Value}
    : e ∈ mapSet k v o ↔ e = (k, v) ∨ (e ∈ o ∧ e.1 ≠ k) := by
  rw [mapSet_eq_set]
  exact SortedMap.mem_set List.lt_irrefl (fun _ _ _ => List.lt_trans) ho

theorem sorted_mapSet {o : List (Bytes × Value)} {k : Bytes} {v : Value} (ho : SortedMap.Sorted o)
    : SortedMap.Sorted (mapSet k v o) := by
  rw [mapSet_eq_set]
  refine SortedMap.sorted_set List.lt_irrefl (fun _ _ _ => List.lt_trans) ?_ ho
  intro k l hle hne
  refine Decidable.byContradiction fun hge => hne ?_
  exact List.le_antisymm (List.not_lt.mp hge) (List.not_lt.mp hle)

namespace CborReader

namespace Item

/-
Whether no break is where an element of an array or the value of a property should be. What is replaced by
a later property of the same name does not count, and neither does what is embedded.
-/
mutual

def Clean : Item → Prop
  | array _ ts => CleanArray ts
  | indefiniteArray ts => CleanArray ts
  | object _ es => CleanObject es
  | indefiniteObject es => CleanObject es
  | _ => True

def CleanArray : List Item → Prop
  | [] => True
  | t :: ts => (t.isBreak = false ∧ t.Clean) ∧ CleanArray ts

def CleanObject : List (Scalar × Item) → Prop
  | [] => True
  | (k, t) :: es => ((∃ e ∈ es, e.1.name = k.name) ∨ (t.isBreak = false ∧ t.Clean)) ∧ CleanObject es

end

theorem forall_nodesArray {P : Value → Prop} {a : List Value}
    : (∀ w ∈ Value.nodesArray a, P w) ↔ ∀ v ∈ a, ∀ w ∈ v.nodes, P w := by
  induction a with
  | nil => simp [Value.nodesArray]
  | cons v a ih => rw [Value.nodesArray, List.forall_mem_append, ih, List.forall_mem_cons]

theorem forall_nodesObject {P : Value → Prop} {o : List (Bytes × Value)}
    : (∀ w ∈ Value.nodesObject o, P w) ↔ ∀ e ∈ o, ∀ w ∈ e.2.nodes, P w := by
  induction o with
  | nil => simp [Value.nodesObject]
  | cons e o ih => rw [Value.nodesObject, List.forall_mem_append, ih, List.forall_mem_cons]

theorem noBreak_array {a : List Value} : (Value.array a).NoBreak ↔ ∀ v ∈ a, v.NoBreak := by
  rw [Value.NoBreak, Value.nodes, List.forall_mem_cons, forall_nodesArray]
  exact and_iff_right rfl

theorem noBreak_object {o : List (Bytes × Value)} : (Value.object o).NoBreak ↔ ∀ e ∈ o, e.2.NoBreak := by
  rw [Value.NoBreak, Value.nodes, List.forall_mem_cons, forall_nodesObject]
  exact and_iff_right rfl

/-
By induction on the item. For an object, the properties that are there already stay as long as no later
one has their name.
-/
mutual

theorem noBreak_value : (t : Item) → (t.value.NoBreak ↔ t.isBreak = false ∧ t.Clean)
  | scalar k => by
    cases k <;> simp [value, Scalar.value, Value.NoBreak, Value.nodes, Value.isBreak, isBreak, Clean]
  | binary op s => by simp [value, Value.NoBreak, Value.nodes, Value.isBreak, isBreak, Clean]
  | array op ts => by
    rw [value, noBreak_array, noBreak_valueArray ts, Clean]
    exact (and_iff_right rfl).symm
  | indefiniteArray ts => by
    rw [value, noBreak_array, noBreak_valueArray ts, Clean]
    exact (and_iff_right rfl).symm
  | object op es => by
    rw [value, noBreak_object, noBreak_valueObject es List.Pairwise.nil, Clean]
    simp [isBreak]
  | indefiniteObject es => by
    rw [value, noBreak_object, noBreak_valueObject es List.Pairwise.nil, Clean]
    simp [isBreak]
  | embedded byte t => by simp [value, Value.NoBreak, Value.nodes, Value.isBreak, isBreak, Clean]
  | simple byte => by
    rw [value]
    split_ifs <;> simp [Value.NoBreak, Value.nodes, Value.isBreak, isBreak, Clean]
  | break_ => by simp [value, Value.NoBreak, Value.nodes, Value.isBreak, isBreak]

theorem noBreak_valueArray : (ts : List Item) → ((∀ v ∈ valueArray ts, v.NoBreak) ↔ CleanArray ts)
  | [] => by simp [valueArray, CleanArray]
  | t :: ts => by
    rw [valueArray, List.forall_mem_cons, noBreak_value t, noBreak_valueArray ts, CleanArray]

theorem noBreak_valueObject
    : (es : List (Scalar × Item)) → {o : List (Bytes × Value)} → SortedMap.Sorted o →
        ((∀ e ∈ valueObject es o, e.2.NoBreak)
          ↔ (∀ e ∈ o, (∃ e' ∈ es, e'.1.name = e.1) ∨ e.2.NoBreak) ∧ CleanObject es)
  | [], o, ho => by simp [valueObject, CleanObject]
  | (k, t) :: es, o, ho => by
    rw [valueObject, noBreak_valueObject es (sorted_mapSet ho), CleanObject, ← noBreak_value t, ← and_assoc]
    refine and_congr_left' ?_
    simp only [mem_mapSet ho, List.exists_mem_cons_iff]
    refine ⟨?_, ?_⟩
    . intro hall
      refine ⟨?_, hall _ (Or.inl rfl)⟩
      intro e he
      by_cases hkey : e.1 = k.name
      . exact Or.inl (Or.inl hkey.symm)
      . exact (hall e (Or.inr ⟨he, hkey⟩)).imp_left Or.inr
    . rintro ⟨hall, hvalue⟩ e (rfl | ⟨he, hkey⟩)
      . exact hvalue
      . exact (hall e he).imp_left fun hname => hname.resolve_left (Ne.symm hkey)

end

end Item

-- The bytes start with an item that is clean
def IsClean (bytes : Bytes) : Prop :=
  ∃ (t : Item) (rest : Bytes), t.WellFormed ∧ t.Clean ∧ bytes = t.bytes ++ rest

variable {σ : Type} {basicRead : BasicRead σ} {data : σ → List UInt8}

theorem noBreak_iff_isClean (h : Lawful basicRead data) {fuel : Nat} {reader reader' : σ} {v : Value}
    (hdecode : decode basicRead fuel reader = some (.ok (v, reader'))) (hbreak : v ≠ .break_)
    : v.NoBreak ↔ IsClean (data reader) := by
  obtain ⟨t, ht, hdata, rfl⟩ := (Item.sound h fuel).item hdecode
  have hfalse : t.isBreak = false := by
    rw [← Bool.not_eq_true, ← Item.value_eq_break_iff]
    exact hbreak
  rw [Item.noBreak_value]
  refine ⟨?_, ?_⟩
  . rintro ⟨-, hclean⟩
    exact ⟨t, data reader', ht, hclean, hdata⟩
  . rintro ⟨t', rest, ht', hclean, hdata'⟩
    -- Only one item starts there
    have hsame := ((t.decodes ht).prefix_unique (t'.decodes ht') (hdata.symm.trans hdata')).1
    rw [← Item.noBreak_value, hsame, Item.noBreak_value]
    refine ⟨?_, hclean⟩
    rw [← Bool.not_eq_true, ← Item.value_eq_break_iff, ← hsame]
    exact hbreak

/-
Arrays of a definite and of an indefinite size.
-/

-- Both ways to write an array are read, and as the same value
def Agrees (a : List Value) : Prop :=
  ∃ v, Decodes (CborWriter.openIndefiniteArray ++ CborWriter.encodeArray a
          ++ CborWriter.closeIndefiniteArray) v
    ∧ Decodes (CborWriter.encode (.array a)) v

theorem decodes_encode {v : Value} (hv : v.Valid) (hplain : v.plain = true)
    : Decodes (CborWriter.encode v) v := by
  refine ⟨cost v, ?_⟩
  intro fuel hfuel σ basicRead data h
  exact decode_reads h v hv hplain fuel hfuel

theorem elements_encodeArray : (a : List Value) → Value.ValidArray a → Value.plainArray a = true →
    ∃ es : List Element, es.flatMap Element.bytes = CborWriter.encodeArray a ∧ es.map Element.value = a
  | [], _, _ => ⟨[], by simp [CborWriter.encodeArray], rfl⟩
  | v :: a, ha, hplain => by
    rw [Value.ValidArray] at ha
    rw [Value.plainArray, Bool.and_eq_true] at hplain
    obtain ⟨es, hbytes, hvalues⟩ := elements_encodeArray a ha.2 hplain.2
    refine ⟨⟨_, v, decodes_encode ha.1 hplain.1⟩ :: es, ?_, ?_⟩
    . rw [List.flatMap_cons, hbytes, CborWriter.encodeArray]
    . rw [List.map_cons, hvalues]

theorem countable_of_decodes {v w : Value} (hv : v.Representable)
    (hdecodes : Decodes (CborWriter.encode v) w)
    : v.Countable := by
  obtain ⟨enough, hdecodes⟩ := hdecodes
  have hdata := Channel.StringReader.rest_new (CborWriter.encode v)
  obtain ⟨reader', hdecode, hrest⟩ := hdecodes enough (Nat.le_refl _) _ _ _
    Channel.StringReader.lawful _ [] (hdata.trans (List.append_nil _).symm)
  exact (complete_of_decode Channel.StringReader.lawful hv hdata hrest hdecode).2

theorem agrees_iff {a : List Value} (ha : (Value.array a).Representable) (hbreak : (Value.array a).NoBreak)
    (hnumber : (Value.array a).NoNumber)
    : Agrees a ↔ (Value.array a).Countable := by
  refine ⟨?_, ?_⟩
  . rintro ⟨v, -, hdefinite⟩
    exact countable_of_decodes ha hdefinite
  . intro hcount
    have hvalid := Value.valid_of_countable _ ha hcount
    have hplain : (Value.array a).plain = true := by
      apply Value.plain_of_nodes
      intro w hw
      rw [Value.isSilent, hbreak w hw, hnumber w hw]
      rfl
    refine ⟨.array a, ?_, decodes_encode hvalid hplain⟩
    rw [Value.Valid] at hvalid
    rw [Value.plain] at hplain
    obtain ⟨es, hbytes, hvalues⟩ := elements_encodeArray a hvalid.2 hplain
    have hne : ∀ e ∈ es, e.value ≠ .break_ := by
      intro e he heq
      have hmem : e.value ∈ es.map Element.value := List.mem_map_of_mem he
      rw [hvalues, heq] at hmem
      exact absurd (Item.noBreak_array.mp hbreak _ hmem .break_ (by simp [Value.nodes])) Bool.noConfusion
    have hindefinite := decodes_indefiniteArray hne
    rw [hbytes, hvalues] at hindefinite
    exact hindefinite

/--
Arrays of a definite and of an indefinite size agree if and only if the reader can count what is in them,
and what is read has no break in it if and only if no break is where an element or a value should be.
-/
theorem cbor_containers (a : List Value) (σ : Type) (basicRead : BasicRead σ) (data : σ → List UInt8)
    : ((Value.array a).Representable → (Value.array a).NoBreak → (Value.array a).NoNumber →
        (Agrees a ↔ (Value.array a).Countable)) ∧
      (Lawful basicRead data →
        ∀ fuel reader v reader', decode basicRead fuel reader = some (.ok (v, reader')) → v ≠ .break_ →
          (v.NoBreak ↔ IsClean (data reader))) :=
  ⟨agrees_iff, fun h _ _ _ _ => noBreak_iff_isClean h⟩

theorem cbor_containers_nested
    : Agrees [.integer 1, .array [.null]] ∧ IsClean (CborWriter.encode (.array [.integer 1])) := by
  refine ⟨?_, ?_⟩
  . refine ((cbor_containers _ _ Channel.StringReader.basicRead Channel.StringReader.rest).1 ?_ ?_ ?_).mpr ?_
    . simp [Value.Representable, Value.RepresentableArray]
    . simp [Value.NoBreak, Value.nodes, Value.nodesArray, Value.isBreak]
    . simp [Value.NoNumber, Value.nodes, Value.nodesArray, Value.isNumber]
    . simp [Value.Countable, Value.nodes, Value.nodesArray, Value.size]
  . have hdata := Channel.StringReader.rest_new (CborWriter.encode (.array [.integer 1]))
    obtain ⟨reader', hdecode, -⟩ := decode_reads Channel.StringReader.lawful (.array [.integer 1])
      (by simp [Value.Valid, Value.ValidArray]) rfl _ (Nat.le_refl _) _ []
      (hdata.trans (List.append_nil _).symm)
    have hspec := (cbor_containers [] _ _ _).2 Channel.StringReader.lawful _ _ _ _ hdecode Value.noConfusion
    rw [hdata] at hspec
    exact hspec.mp (by simp [Value.NoBreak, Value.nodes, Value.nodesArray, Value.isBreak])

-- The break is stored as the element of an array of one element
theorem not_cbor_containers
    : ∃ fuel reader', decode Channel.StringReader.basicRead fuel (Channel.StringReader.new [0x81, 0xff])
          = some (.ok (.array [.break_], reader'))
        ∧ ¬(Value.array [.break_]).NoBreak := by
  have hbreak : ¬(Value.array [.break_]).NoBreak := by
    simp [Value.NoBreak, Value.nodes, Value.nodesArray, Value.isBreak]
  have harray : Decodes [0x81, 0xff] (.array [.break_]) :=
    @decodes_array 0x81 [] 1 [⟨[0xff], .break_, decodes_break⟩] (by decide) ⟨rfl, rfl⟩ rfl (by decide)
  obtain ⟨fuel, hreads⟩ := harray
  obtain ⟨reader', hdecode, -⟩ := hreads fuel (Nat.le_refl _) _ _ _ Channel.StringReader.lawful _ []
    (Channel.StringReader.rest_new [0x81, 0xff])
  exact ⟨fuel, reader', hdecode, hbreak⟩

end CborReader

end Json
end ObTools
