import Mathlib.Algebra.Order.Ring.Int
import ObTools.Json.CborLemmas

/-!
This module contains the proof that what is written for a value is read as one value of the same shape,
if and only if no element is left out. What is written is a list of heads, each of which makes the
reader wait for as many values as it announces.
-/

namespace ObTools
namespace Json

open Channel (BasicRead Lawful)
open Decoder (Reads)

namespace Value

mutual

-- Containers of the same sizes and with the same keys
def sameShape : Value → Value → Bool
  | array a, array b => sameShapeArray a b
  | object o, object p => sameShapeObject o p
  | array _, _ => false
  | _, array _ => false
  | object _, _ => false
  | _, object _ => false
  | _, _ => true

def sameShapeArray : List Value → List Value → Bool
  | [], [] => true
  | v :: a, w :: b => v.sameShape w && sameShapeArray a b
  | _, _ => false

def sameShapeObject : List (Bytes × Value) → List (Bytes × Value) → Bool
  | [], [] => true
  | (k, v) :: o, (l, w) :: p => k == l && v.sameShape w && sameShapeObject o p
  | _, _ => false

end

mutual

theorem sameShape_self : (v : Value) → v.sameShape v = true
  | array a => by
    rw [sameShape]
    exact sameShapeArray_self a
  | object o => by
    rw [sameShape]
    exact sameShapeObject_self o
  | undefined => rfl
  | null => rfl
  | number _ => rfl
  | integer _ => rfl
  | string _ => rfl
  | true_ => rfl
  | false_ => rfl
  | binary _ => rfl
  | break_ => rfl

theorem sameShapeArray_self : (a : List Value) → sameShapeArray a a = true
  | [] => rfl
  | v :: a => by
    rw [sameShapeArray, sameShape_self v, sameShapeArray_self a]
    rfl

theorem sameShapeObject_self : (o : List (Bytes × Value)) → sameShapeObject o o = true
  | [] => rfl
  | (k, v) :: o => by
    rw [sameShapeObject, sameShape_self v, sameShapeObject_self o, BEq.rfl]
    rfl

end

/-
Values as the program can hold them: sizes are a `size_t`, and the keys of a map are in order.
-/
mutual

def Representable : Value → Prop
  | string s => s.length < 2 ^ 64
  | binary s => s.length < 2 ^ 64
  | array a => a.length < 2 ^ 64 ∧ RepresentableArray a
  | object o => o.length < 2 ^ 64 ∧ (o.map Prod.fst).Pairwise (· < ·) ∧ RepresentableObject o
  | _ => True

def RepresentableArray : List Value → Prop
  | [] => True
  | v :: a => v.Representable ∧ RepresentableArray a

def RepresentableObject : List (Bytes × Value) → Prop
  | [] => True
  | (k, v) :: o => k.length < 2 ^ 64 ∧ v.Representable ∧ RepresentableObject o

end

mutual

-- All the values in a tree
def nodes : Value → List Value
  | array a => .array a :: nodesArray a
  | object o => .object o :: nodesObject o
  | v => [v]

def nodesArray : List Value → List Value
  | [] => []
  | v :: a => v.nodes ++ nodesArray a

def nodesObject : List (Bytes × Value) → List Value
  | [] => []
  | (_, v) :: o => v.nodes ++ nodesObject o

end

def isNumber : Value → Bool
  | number _ => true
  | _ => false

def isBreak : Value → Bool
  | break_ => true
  | _ => false

-- How many values a container has
def size : Value → Nat
  | array a => a.length
  | object o => o.length
  | _ => 0

-- Whether the loop counter, an `unsigned int`, gets to the end of each container
def Countable (v : Value) : Prop := ∀ w ∈ v.nodes, w.size < 2 ^ 32

def NoNumber (v : Value) : Prop := ∀ w ∈ v.nodes, w.isNumber = false

def NoBreak (v : Value) : Prop := ∀ w ∈ v.nodes, w.isBreak = false

mutual

theorem valid_of_countable
    : (v : Value) → v.Representable → v.Countable → v.Valid
  | array a, hv, hcount => by
    rw [Representable] at hv
    rw [Countable, nodes, List.forall_mem_cons] at hcount
    rw [Valid]
    exact ⟨hcount.1, validArray_of_countable a hv.2 hcount.2⟩
  | object o, hv, hcount => by
    rw [Representable] at hv
    rw [Countable, nodes, List.forall_mem_cons] at hcount
    rw [Valid]
    exact ⟨hcount.1, hv.2.1, validObject_of_countable o hv.2.2 hcount.2⟩
  | string s, hv, _ => by
    rw [Representable] at hv
    rw [Valid]
    exact hv
  | binary s, hv, _ => by
    rw [Representable] at hv
    rw [Valid]
    exact hv
  | undefined, _, _ => by simp [Valid]
  | null, _, _ => by simp [Valid]
  | number _, _, _ => by simp [Valid]
  | integer _, _, _ => by simp [Valid]
  | true_, _, _ => by simp [Valid]
  | false_, _, _ => by simp [Valid]
  | break_, _, _ => by simp [Valid]

theorem validArray_of_countable
    : (a : List Value) → RepresentableArray a → (∀ w ∈ nodesArray a, w.size < 2 ^ 32) → ValidArray a
  | [], _, _ => by simp [ValidArray]
  | v :: a, ha, hcount => by
    rw [RepresentableArray] at ha
    rw [nodesArray, List.forall_mem_append] at hcount
    rw [ValidArray]
    exact ⟨valid_of_countable v ha.1 hcount.1, validArray_of_countable a ha.2 hcount.2⟩

theorem validObject_of_countable
    : (o : List (Bytes × Value)) → RepresentableObject o → (∀ w ∈ nodesObject o, w.size < 2 ^ 32) →
        ValidObject o
  | [], _, _ => by simp [ValidObject]
  | (k, v) :: o, ho, hcount => by
    rw [RepresentableObject] at ho
    rw [nodesObject, List.forall_mem_append] at hcount
    rw [ValidObject]
    exact ⟨ho.1, valid_of_countable v ho.2.1 hcount.1, validObject_of_countable o ho.2.2 hcount.2⟩

end

-- The values for which nothing is written
def isSilent (v : Value) : Bool := v.isNumber || v.isBreak

mutual

theorem plain_of_nodes : (v : Value) → (∀ w ∈ v.nodes, w.isSilent = false) → v.plain = true
  | array a, h => by
    rw [nodes, List.forall_mem_cons] at h
    rw [plain]
    exact plainArray_of_nodes a h.2
  | object o, h => by
    rw [nodes, List.forall_mem_cons] at h
    rw [plain]
    exact plainObject_of_nodes o h.2
  | number f, h => by
    have hsilent := h (.number f) (by simp [nodes])
    exact absurd hsilent (by simp [isSilent, isNumber])
  | break_, h => by
    have hsilent := h .break_ (by simp [nodes])
    exact absurd hsilent (by simp [isSilent, isBreak])
  | undefined, _ => rfl
  | null, _ => rfl
  | integer _, _ => rfl
  | string _, _ => rfl
  | binary _, _ => rfl
  | true_, _ => rfl
  | false_, _ => rfl

theorem plainArray_of_nodes
    : (a : List Value) → (∀ w ∈ nodesArray a, w.isSilent = false) → plainArray a = true
  | [], _ => rfl
  | v :: a, h => by
    rw [nodesArray, List.forall_mem_append] at h
    rw [plainArray, plain_of_nodes v h.1, plainArray_of_nodes a h.2]
    rfl

theorem plainObject_of_nodes
    : (o : List (Bytes × Value)) → (∀ w ∈ nodesObject o, w.isSilent = false) → plainObject o = true
  | [], _ => rfl
  | (k, v) :: o, h => by
    rw [nodesObject, List.forall_mem_append] at h
    rw [plainObject, plain_of_nodes v h.1, plainObject_of_nodes o h.2]
    rfl

end

end Value

/-
The heads of the values in what is written.
-/

inductive Head where
  -- A value that has no others in it
  | leaf (v : Value)
  | array (len : Nat)
  | object (len : Nat)

namespace Head

def bytes : Head → Bytes
  | leaf v => CborWriter.encode v
  | array len => CborWriter.writeInt (UInt64.ofNat len) 4
  | object len => CborWriter.writeInt (UInt64.ofNat len) 5

-- One value less to wait for, and those that it announces
def weight : Head → Int
  | leaf _ => 1
  | array len => 1 - len
  | object len => 1 - 2 * len

def size : Head → Nat
  | leaf _ => 0
  | array len => len
  | object len => len

def Valid : Head → Prop
  | leaf v => v.Valid ∧ v.plain = true ∧ CborReader.cost v = 1
  | array len => len < 2 ^ 64
  | object len => len < 2 ^ 64

def total (hs : List Head) : Int := (hs.map weight).sum

theorem total_append (hs hs' : List Head) : total (hs ++ hs') = total hs + total hs' := by
  rw [total, List.map_append, List.sum_append]
  rfl

theorem total_cons (h : Head) (hs : List Head) : total (h :: hs) = h.weight + total hs := by
  rw [total, List.map_cons, List.sum_cons]
  rfl

end Head

namespace Value

mutual

def heads : Value → List Head
  | array a => .array a.length :: headsArray a
  | object o => .object o.length :: headsObject o
  | number _ => []
  | break_ => []
  | v => [.leaf v]

def headsArray : List Value → List Head
  | [] => []
  | v :: a => v.heads ++ headsArray a

def headsObject : List (Bytes × Value) → List Head
  | [] => []
  | (k, v) :: o => .leaf (.string k) :: (v.heads ++ headsObject o)

end

mutual

theorem encode_eq_heads : (v : Value) → CborWriter.encode v = v.heads.flatMap Head.bytes
  | array a => by
    rw [CborWriter.encode, heads, List.flatMap_cons, encodeArray_eq_heads a]
    rfl
  | object o => by
    rw [CborWriter.encode, heads, List.flatMap_cons, encodeObject_eq_heads o]
    rfl
  | number _ => by simp [CborWriter.encode, heads]
  | break_ => by simp [CborWriter.encode, heads]
  | undefined => by simp [heads, Head.bytes]
  | null => by simp [heads, Head.bytes]
  | integer _ => by simp [heads, Head.bytes]
  | string _ => by simp [heads, Head.bytes]
  | binary _ => by simp [heads, Head.bytes]
  | true_ => by simp [heads, Head.bytes]
  | false_ => by simp [heads, Head.bytes]

theorem encodeArray_eq_heads
    : (a : List Value) → CborWriter.encodeArray a = (headsArray a).flatMap Head.bytes
  | [] => by simp [CborWriter.encodeArray, headsArray]
  | v :: a => by
    rw [CborWriter.encodeArray, headsArray, List.flatMap_append, encode_eq_heads v,
      encodeArray_eq_heads a]

theorem encodeObject_eq_heads
    : (o : List (Bytes × Value)) → CborWriter.encodeObject o = (headsObject o).flatMap Head.bytes
  | [] => by simp [CborWriter.encodeObject, headsObject]
  | (k, v) :: o => by
    rw [CborWriter.encodeObject, headsObject, List.flatMap_cons, List.flatMap_append,
      encode_eq_heads v, encodeObject_eq_heads o, Head.bytes, CborWriter.encode]

end

mutual

-- Each value that is not written is one that the reader waits for
theorem total_heads
    : (v : Value) → Head.total v.heads = 1 - (v.nodes.countP isSilent : Nat)
  | array a => by
    rw [heads, nodes, Head.total_cons, total_headsArray a, List.countP_cons_of_neg (by simp [isSilent, isNumber, isBreak]),
      Head.weight]
    omega
  | object o => by
    rw [heads, nodes, Head.total_cons, total_headsObject o, List.countP_cons_of_neg (by simp [isSilent, isNumber, isBreak]),
      Head.weight]
    omega
  | number _ => rfl
  | break_ => rfl
  | undefined => rfl
  | null => rfl
  | integer _ => rfl
  | string _ => rfl
  | binary _ => rfl
  | true_ => rfl
  | false_ => rfl

theorem total_headsArray
    : (a : List Value) →
        Head.total (headsArray a) = a.length - ((nodesArray a).countP isSilent : Nat)
  | [] => rfl
  | v :: a => by
    rw [headsArray, nodesArray, Head.total_append, total_heads v, total_headsArray a,
      List.countP_append, List.length_cons]
    omega

theorem total_headsObject
    : (o : List (Bytes × Value)) →
        Head.total (headsObject o) = 2 * o.length - ((nodesObject o).countP isSilent : Nat)
  | [] => rfl
  | (k, v) :: o => by
    rw [headsObject, nodesObject, Head.total_cons, Head.total_append, total_heads v,
      total_headsObject o, List.countP_append, List.length_cons, Head.weight]
    omega

end

mutual

theorem heads_valid : (v : Value) → v.Representable → ∀ h ∈ v.heads, h.Valid
  | array a, hv => by
    rw [Representable] at hv
    rw [heads, List.forall_mem_cons]
    exact ⟨hv.1, headsArray_valid a hv.2⟩
  | object o, hv => by
    rw [Representable] at hv
    rw [heads, List.forall_mem_cons]
    exact ⟨hv.1, headsObject_valid o hv.2.2⟩
  | number _, _ => by simp [heads]
  | break_, _ => by simp [heads]
  | string s, hv => by
    simp only [heads, List.forall_mem_singleton]
    exact ⟨hv, rfl, rfl⟩
  | binary s, hv => by
    simp only [heads, List.forall_mem_singleton]
    exact ⟨hv, rfl, rfl⟩
  | undefined, _ => by simp [heads, Head.Valid, Valid, plain, CborReader.cost]
  | null, _ => by simp [heads, Head.Valid, Valid, plain, CborReader.cost]
  | integer _, _ => by simp [heads, Head.Valid, Valid, plain, CborReader.cost]
  | true_, _ => by simp [heads, Head.Valid, Valid, plain, CborReader.cost]
  | false_, _ => by simp [heads, Head.Valid, Valid, plain, CborReader.cost]

theorem headsArray_valid
    : (a : List Value) → RepresentableArray a → ∀ h ∈ headsArray a, h.Valid
  | [], _ => by simp [headsArray]
  | v :: a, ha => by
    rw [RepresentableArray] at ha
    rw [headsArray, List.forall_mem_append]
    exact ⟨heads_valid v ha.1, headsArray_valid a ha.2⟩

theorem headsObject_valid
    : (o : List (Bytes × Value)) → RepresentableObject o → ∀ h ∈ headsObject o, h.Valid
  | [], _ => by simp [headsObject]
  | (k, v) :: o, ho => by
    rw [RepresentableObject] at ho
    rw [headsObject, List.forall_mem_cons, List.forall_mem_append]
    exact ⟨⟨ho.1, rfl, rfl⟩, heads_valid v ho.2.1, headsObject_valid o ho.2.2⟩

end

mutual

theorem countable_of_heads
    : (v : Value) → (∀ h ∈ v.heads, h.size < 2 ^ 32) → ∀ w ∈ v.nodes, w.size < 2 ^ 32
  | array a, h => by
    rw [heads, List.forall_mem_cons] at h
    rw [nodes, List.forall_mem_cons]
    exact ⟨h.1, countableArray_of_heads a h.2⟩
  | object o, h => by
    rw [heads, List.forall_mem_cons] at h
    rw [nodes, List.forall_mem_cons]
    exact ⟨h.1, countableObject_of_heads o h.2⟩
  | number _, _ => by simp [nodes, size]
  | break_, _ => by simp [nodes, size]
  | string s, _ => by simp [nodes, size]
  | binary s, _ => by simp [nodes, size]
  | undefined, _ => by simp [nodes, size]
  | null, _ => by simp [nodes, size]
  | integer _, _ => by simp [nodes, size]
  | true_, _ => by simp [nodes, size]
  | false_, _ => by simp [nodes, size]

theorem countableArray_of_heads
    : (a : List Value) → (∀ h ∈ headsArray a, h.size < 2 ^ 32) → ∀ w ∈ nodesArray a, w.size < 2 ^ 32
  | [], _ => by simp [nodesArray]
  | v :: a, h => by
    rw [headsArray, List.forall_mem_append] at h
    rw [nodesArray, List.forall_mem_append]
    exact ⟨countable_of_heads v h.1, countableArray_of_heads a h.2⟩

theorem countableObject_of_heads
    : (o : List (Bytes × Value)) → (∀ h ∈ headsObject o, h.size < 2 ^ 32) →
        ∀ w ∈ nodesObject o, w.size < 2 ^ 32
  | [], _ => by simp [nodesObject]
  | (k, v) :: o, h => by
    rw [headsObject, List.forall_mem_cons, List.forall_mem_append] at h
    rw [nodesObject, List.forall_mem_append]
    exact ⟨countable_of_heads v h.2.1, countableObject_of_heads o h.2.2⟩

end

end Value

namespace CborReader

open CborWriter (encode writeInt)

variable {σ : Type} {basicRead : BasicRead σ} {data : σ → List UInt8}

section Parts

variable (h : Lawful basicRead data) {fuel : Nat} {reader reader' : σ} {rest : Bytes}
include h

-- Nothing is read where there is nothing
theorem not_readByte_nil (hdata : data reader = []) (b : UInt8)
    : readByte basicRead reader ≠ some (.ok (b, reader')) := by
  intro hread
  rw [readByte_ok h hread] at hdata
  cases hdata

end Parts

/-
What the reader has gone through: as many heads as make up the given number of values.
-/
structure Consumed (count : Int) (hs rest : List Head) : Prop where
  split : ∃ used, hs = used ++ rest ∧ Head.total used = count ∧ ∀ x ∈ used, x.size < 2 ^ 32

namespace Consumed

variable {hs rest rest' : List Head} {count count' : Int}

theorem refl (hs : List Head) : Consumed 0 hs hs where
  split := ⟨[], rfl, rfl, fun _ hx => absurd hx List.not_mem_nil⟩

theorem trans (hused : Consumed count hs rest) (hused' : Consumed count' rest rest')
    : Consumed (count + count') hs rest' := by
  obtain ⟨used, rfl, htotal, hsize⟩ := hused.split
  obtain ⟨used', rfl, htotal', hsize'⟩ := hused'.split
  refine ⟨used ++ used', (List.append_assoc ..).symm, ?_, ?_⟩
  . rw [Head.total_append, htotal, htotal']
  . rw [List.forall_mem_append]
    exact ⟨hsize, hsize'⟩

theorem head {x : Head} (hx : x.size < 2 ^ 32) : Consumed x.weight (x :: hs) hs where
  split := by
    refine ⟨[x], rfl, ?_, ?_⟩
    . rw [Head.total_cons]
      exact Int.add_zero _
    . rw [List.forall_mem_singleton]
      exact hx

theorem valid (hused : Consumed count hs rest) (hvalid : ∀ x ∈ hs, x.Valid) : ∀ x ∈ rest, x.Valid := by
  obtain ⟨used, rfl, -, -⟩ := hused.split
  exact (List.forall_mem_append.mp hvalid).2

end Consumed

-- What is left of some heads after a decoder that has read the given number of values
def Left (data : σ → List UInt8) (hs : List Head) (count : Int) (reader : σ) : Prop :=
  ∃ rest, data reader = rest.flatMap Head.bytes ∧ Consumed count hs rest

/--
A value is read from as many heads as make it up. So are the elements that are left in a container,
whose number the loop counter can hold.
-/
theorem decode_left (h : Lawful basicRead data) (fuel : Nat)
    : (∀ hs reader w reader', (∀ x ∈ hs, Head.Valid x) → data reader = hs.flatMap Head.bytes →
          decode basicRead fuel reader = some (.ok (w, reader')) → Left data hs 1 reader')
        ∧ (∀ len i done hs reader a reader', (∀ x ∈ hs, Head.Valid x) →
            data reader = hs.flatMap Head.bytes → i.toNat ≤ len.toNat →
            decodeArray basicRead len fuel i done reader = some (.ok (a, reader')) →
            len.toNat < 2 ^ 32 ∧ Left data hs (len.toNat - i.toNat) reader')
        ∧ ∀ len i done hs reader o reader', (∀ x ∈ hs, Head.Valid x) →
            data reader = hs.flatMap Head.bytes → i.toNat ≤ len.toNat →
            decodeObject basicRead len fuel i done reader = some (.ok (o, reader')) →
            len.toNat < 2 ^ 32 ∧ Left data hs (2 * (len.toNat - i.toNat)) reader' := by
  induction fuel with
  | zero =>
    refine ⟨?_, ?_, ?_⟩
    . intro hs reader w reader' _ _ hdecode
      rw [decode] at hdecode
      cases hdecode
    . intro len i done hs reader a reader' _ _ _ hdecode
      rw [decodeArray] at hdecode
      cases hdecode
    . intro len i done hs reader a reader' _ _ _ hdecode
      rw [decodeObject] at hdecode
      cases hdecode
  | succ fuel ih =>
    obtain ⟨ihValue, ihArray, ihObject⟩ := ih
    refine ⟨?_, ?_, ?_⟩
    . intro hs reader w reader' hvalid hdata hdecode
      cases hs with
      | nil =>
        unfold decode at hdecode
        obtain ⟨b, reader1, hread, -⟩ := Decoder.bind_ok hdecode
        exact absurd hread (not_readByte_nil h hdata b)
      | cons x hs =>
        rw [List.forall_mem_cons] at hvalid
        rw [List.flatMap_cons] at hdata
        cases x with
        | leaf v =>
          obtain ⟨hv, hplain, hcost⟩ := hvalid.1
          obtain ⟨reader1, hread, hdata1⟩ :=
            decode_reads h v hv hplain (fuel + 1) (by omega) reader _ hdata
          rw [hread] at hdecode
          cases hdecode
          have hsize : (Head.leaf w).size < 2 ^ 32 := by
            rw [Head.size]
            decide
          exact ⟨hs, hdata1, .head hsize⟩
        | array len =>
          obtain ⟨reader1, hdata1, heq⟩ := decode_array_eq h hdata
          rw [heq] at hdecode
          obtain ⟨a, reader2, harray, hpure⟩ := Decoder.bind_ok hdecode
          cases hpure
          obtain ⟨hlt, rest, hrest, hused⟩ :=
            ihArray _ 0 [] hs reader1 a _ hvalid.2 hdata1 (Nat.zero_le _) harray
          have hlen : (UInt64.ofNat len).toNat = len := UInt64.toNat_ofNat_of_lt' hvalid.1
          rw [hlen] at hlt hused
          refine ⟨rest, hrest, ?_⟩
          have htrans := (Consumed.head (x := .array len) hlt).trans hused
          rw [Head.weight] at htrans
          convert htrans using 1
          simp
        | object len =>
          obtain ⟨reader1, hdata1, heq⟩ := decode_object_eq h hdata
          rw [heq] at hdecode
          obtain ⟨o, reader2, hobject, hpure⟩ := Decoder.bind_ok hdecode
          cases hpure
          obtain ⟨hlt, rest, hrest, hused⟩ :=
            ihObject _ 0 [] hs reader1 o _ hvalid.2 hdata1 (Nat.zero_le _) hobject
          have hlen : (UInt64.ofNat len).toNat = len := UInt64.toNat_ofNat_of_lt' hvalid.1
          rw [hlen] at hlt hused
          refine ⟨rest, hrest, ?_⟩
          have htrans := (Consumed.head (x := .object len) hlt).trans hused
          rw [Head.weight] at htrans
          convert htrans using 1
          simp
    . intro len i done hs reader a reader' hvalid hdata hle hdecode
      unfold decodeArray at hdecode
      split at hdecode
      case isTrue hlt =>
        obtain ⟨v, reader1, hvalue, hdecode⟩ := Decoder.bind_ok hdecode
        obtain ⟨rest, hrest, hused⟩ := ihValue hs reader v reader1 hvalid hdata hvalue
        obtain ⟨hle', hsub⟩ := counter_step hlt
        obtain ⟨hbound, rest', hrest', hused'⟩ :=
          ihArray len (i + 1) _ rest reader1 a reader' (hused.valid hvalid) hrest hle' hdecode
        refine ⟨hbound, rest', hrest', ?_⟩
        rw [← hsub hbound, Int.add_comm]
        exact hused.trans hused'
      case isFalse hge =>
        cases hdecode
        rw [UInt64.lt_iff_toNat_lt, UInt32.toNat_toUInt64] at hge
        have hi := i.toNat_lt
        refine ⟨by omega, hs, hdata, ?_⟩
        have hzero : (len.toNat : Int) - i.toNat = 0 := by omega
        rw [hzero]
        exact .refl hs
    . intro len i done hs reader o reader' hvalid hdata hle hdecode
      unfold decodeObject at hdecode
      split at hdecode
      case isTrue hlt =>
        obtain ⟨key, reader1, hkey, hdecode⟩ := Decoder.bind_ok hdecode
        obtain ⟨rest1, hrest1, hused1⟩ := ihValue hs reader key reader1 hvalid hdata hkey
        obtain ⟨name, reader2, hname, hdecode⟩ := Decoder.bind_ok hdecode
        have hsame : reader2 = reader1 := by
          unfold keyName at hname
          split at hname
          . cases hname
            rfl
          . cases hname
            rfl
          . cases hname
        rw [hsame] at hdecode
        obtain ⟨v, reader3, hvalue, hdecode⟩ := Decoder.bind_ok hdecode
        have hvalid1 := hused1.valid hvalid
        obtain ⟨rest2, hrest2, hused2⟩ := ihValue rest1 reader1 v reader3 hvalid1 hrest1 hvalue
        obtain ⟨hle', hsub⟩ := counter_step hlt
        obtain ⟨hbound, rest', hrest', hused'⟩ :=
          ihObject len (i + 1) _ rest2 reader3 o reader' (hused2.valid hvalid1) hrest2 hle' hdecode
        refine ⟨hbound, rest', hrest', ?_⟩
        rw [← hsub hbound]
        convert (hused1.trans hused2).trans hused' using 1
        omega
      case isFalse hge =>
        cases hdecode
        rw [UInt64.lt_iff_toNat_lt, UInt32.toNat_toUInt64] at hge
        have hi := i.toNat_lt
        refine ⟨by omega, hs, hdata, ?_⟩
        have hzero : 2 * ((len.toNat : Int) - i.toNat) = 0 := by omega
        rw [hzero]
        exact .refl hs

/-
What the claim on the writer says: the bytes for a value are one item, of the same shape, whatever comes
behind it, and each value in the tree has bytes of its own.
-/

def Framed (v : Value) : Prop :=
  ∃ enough, ∀ fuel ≥ enough, ∀ (σ : Type) (basicRead : BasicRead σ) (data : σ → List UInt8),
    Lawful basicRead data → ∀ reader rest, data reader = encode v ++ rest →
      ∃ w reader', decode basicRead fuel reader = some (.ok (w, reader')) ∧ v.sameShape w = true
        ∧ data reader' = rest

def Emitted (v : Value) : Prop := ∀ w ∈ v.nodes, encode w ≠ []

theorem writeInt_ne_nil (n : UInt64) (m : UInt8) : writeInt n m ≠ [] := by
  unfold writeInt
  dsimp only
  split
  . exact List.cons_ne_nil _ _
  . split
    . exact List.cons_ne_nil _ _
    . split
      . exact List.cons_ne_nil _ _
      . split
        . exact List.cons_ne_nil _ _
        . exact List.cons_ne_nil _ _

theorem encode_ne_nil_iff (v : Value) : encode v ≠ [] ↔ v.isSilent = false := by
  cases v with
  | integer n =>
    rw [encode]
    split
    . exact iff_of_true (writeInt_ne_nil _ _) rfl
    . exact iff_of_true (writeInt_ne_nil _ _) rfl
  | string s =>
    refine iff_of_true ?_ rfl
    rw [encode, CborWriter.encodeString]
    exact fun hnil => writeInt_ne_nil _ _ (List.append_eq_nil_iff.mp hnil).1
  | binary s =>
    refine iff_of_true ?_ rfl
    rw [encode]
    exact fun hnil => writeInt_ne_nil _ _ (List.append_eq_nil_iff.mp hnil).1
  | array a =>
    refine iff_of_true ?_ rfl
    rw [encode]
    exact fun hnil => writeInt_ne_nil _ _ (List.append_eq_nil_iff.mp hnil).1
  | object o =>
    refine iff_of_true ?_ rfl
    rw [encode]
    exact fun hnil => writeInt_ne_nil _ _ (List.append_eq_nil_iff.mp hnil).1
  | undefined => simp [encode, Value.isSilent, Value.isNumber, Value.isBreak]
  | null => simp [encode, Value.isSilent, Value.isNumber, Value.isBreak]
  | number f => simp [encode, Value.isSilent, Value.isNumber, Value.isBreak]
  | true_ => simp [encode, Value.isSilent, Value.isNumber, Value.isBreak]
  | false_ => simp [encode, Value.isSilent, Value.isNumber, Value.isBreak]
  | break_ => simp [encode, Value.isSilent, Value.isNumber, Value.isBreak]

theorem Head.bytes_ne_nil {x : Head} (hx : x.Valid) : x.bytes ≠ [] := by
  cases x with
  | leaf v =>
    rw [Head.bytes, encode_ne_nil_iff]
    cases v with
    | number f => exact absurd hx.2.1 (by simp [Value.plain])
    | break_ => exact absurd hx.2.1 (by simp [Value.plain])
    | _ => rfl
  | array len => exact writeInt_ne_nil _ _
  | object len => exact writeInt_ne_nil _ _

/--
If nothing is left behind a value that has been read, all heads have been used for it.
-/
theorem complete_of_decode (h : Lawful basicRead data) {v w : Value} (hv : v.Representable)
    {reader reader' : σ} {fuel : Nat} (hdata : data reader = encode v) (hdata' : data reader' = [])
    (hdecode : decode basicRead fuel reader = some (.ok (w, reader')))
    : (∀ u ∈ v.nodes, u.isSilent = false) ∧ v.Countable := by
  have hvalid := Value.heads_valid v hv
  rw [Value.encode_eq_heads] at hdata
  obtain ⟨rest, hrest, hused⟩ := (decode_left h fuel).1 _ _ _ _ hvalid hdata hdecode
  have hnil : rest = [] := by
    rw [hdata'] at hrest
    cases rest with
    | nil => rfl
    | cons x rest =>
      rw [List.flatMap_cons] at hrest
      have hx := hused.valid hvalid x List.mem_cons_self
      exact absurd (List.append_eq_nil_iff.mp hrest.symm).1 (Head.bytes_ne_nil hx)
  obtain ⟨used, hsplit, htotal, hsize⟩ := hused.split
  rw [hnil, List.append_nil] at hsplit
  rw [← hsplit] at htotal hsize
  refine ⟨?_, Value.countable_of_heads v hsize⟩
  rw [Value.total_heads] at htotal
  have hcount : v.nodes.countP Value.isSilent = 0 := by omega
  intro u hu
  simpa using List.countP_eq_zero.mp hcount u hu

theorem framed_iff {v : Value} (hv : v.Representable)
    : Framed v ↔ (∀ w ∈ v.nodes, w.isSilent = false) ∧ v.Countable := by
  refine ⟨?_, ?_⟩
  . rintro ⟨enough, hframed⟩
    obtain ⟨w, reader', hdecode, -, hrest⟩ := hframed enough (Nat.le_refl _) _ _ _
      Channel.StringReader.lawful (Channel.StringReader.new (encode v)) []
      (by rw [Channel.StringReader.rest_new, List.append_nil])
    exact complete_of_decode Channel.StringReader.lawful hv (Channel.StringReader.rest_new _) hrest hdecode
  . rintro ⟨hsilent, hcount⟩
    refine ⟨cost v, ?_⟩
    intro fuel hfuel σ basicRead data h reader rest hdata
    obtain ⟨reader', hdecode, hrest⟩ := decode_reads h v (Value.valid_of_countable v hv hcount)
      (Value.plain_of_nodes v hsilent) fuel hfuel reader rest hdata
    exact ⟨v, reader', hdecode, Value.sameShape_self v, hrest⟩

/--
What is written for a value is one item of the same shape, with bytes for each value in it, if and only
if there are no floating point numbers in it, and no container that the reader cannot count.
-/
theorem cbor_framing (v : Value) (hv : v.Representable) (hbreak : v.NoBreak)
    : (Framed v ↔ v.NoNumber ∧ v.Countable) ∧ (Emitted v ↔ v.NoNumber) := by
  have hsilent : (∀ w ∈ v.nodes, w.isSilent = false) ↔ v.NoNumber := by
    refine forall₂_congr ?_
    intro w hw
    rw [Value.isSilent, hbreak w hw, Bool.or_false]
  refine ⟨?_, ?_⟩
  . rw [framed_iff hv, hsilent]
  . rw [← hsilent]
    exact forall₂_congr fun w _ => encode_ne_nil_iff w

theorem cbor_framing_nested
    : Framed (.array [.integer 1, .object [([97], .null)]])
        ∧ Emitted (.array [.integer 1, .object [([97], .null)]]) := by
  have hspec := cbor_framing (.array [.integer 1, .object [([97], .null)]])
    (by simp [Value.Representable, Value.RepresentableArray, Value.RepresentableObject])
    (by simp [Value.NoBreak, Value.nodes, Value.nodesArray, Value.nodesObject, Value.isBreak])
  have hnumber : Value.NoNumber (.array [.integer 1, .object [([97], .null)]]) := by
    simp [Value.NoNumber, Value.nodes, Value.nodesArray, Value.nodesObject, Value.isNumber]
  have hcount : Value.Countable (.array [.integer 1, .object [([97], .null)]]) := by
    simp [Value.Countable, Value.nodes, Value.nodesArray, Value.nodesObject, Value.size]
  exact ⟨hspec.1.mpr ⟨hnumber, hcount⟩, hspec.2.mpr hnumber⟩

-- An array with a number in it is written as its head only, and takes the next item for its element
theorem not_framed_number
    : encode (.array [.number 1.5]) = [0x81] ∧ encode (.number 1.5) = []
        ∧ (∃ fuel reader', decode Channel.StringReader.basicRead fuel
              (Channel.StringReader.new (encode (.array [.number 1.5]) ++ encode .null))
            = some (.ok (.array [.null], reader')) ∧ reader'.rest = [])
        ∧ ¬Framed (.array [.number 1.5]) ∧ ¬Emitted (.array [.number 1.5]) := by
  have hbytes : encode (.array [.number 1.5]) = [0x81] := by
    rw [encode, CborWriter.encodeArray, CborWriter.encodeArray, encode]
    decide
  have hnumber : encode (.number 1.5) = [] := by rw [encode]
  have hmem : Value.number 1.5 ∈ (Value.array [.number 1.5]).nodes := by
    simp [Value.nodes, Value.nodesArray]
  refine ⟨hbytes, hnumber, ?_, ?_, ?_⟩
  . have hone : encode (.array [.number 1.5]) ++ encode .null = encode (.array [.null]) := by
      rw [hbytes]
      decide
    rw [hone]
    obtain ⟨reader', hdecode, hrest⟩ := decode_reads Channel.StringReader.lawful (.array [.null])
      (by simp [Value.Valid, Value.ValidArray]) rfl _ (Nat.le_refl _)
      (Channel.StringReader.new (encode (.array [.null]))) []
      (by rw [Channel.StringReader.rest_new, List.append_nil])
    exact ⟨_, reader', hdecode, hrest⟩
  . intro hframed
    rw [framed_iff (by simp [Value.Representable, Value.RepresentableArray])] at hframed
    exact absurd (hframed.1 _ hmem) (by simp [Value.isSilent, Value.isNumber])
  . intro hemitted
    exact hemitted _ hmem hnumber

end CborReader

end Json
end ObTools
