import Mathlib.Data.List.Induction
import ObTools.Channel.Bits
import ObTools.Lib.BitTrie
import ObTools.Lib.SortedMap

/-!
This module contains the model of `Huffman::Tree` and `Huffman::MultiTree`, which nodes there are in a tree that has been
made from mappings without a common prefix, and what the two ways to look up a value in it have to do with each other. A
mapping is only made with a valid value, so that there is no flag for it here.

The loops over a string run with fuel, there is no result if they are still running when it is used up.
-/

namespace ObTools
namespace Huffman

open Channel (Error BasicRead BitReader)

inductive Special where
  | none
  | start
  | stop
  | escape
deriving DecidableEq, Repr

def Special.toNat : Special → Nat
  | none => 0
  | start => 1
  | stop => 2
  | escape => 3

inductive Value where
  | byte (value : UInt8)
  | special (svalue : Special)
deriving DecidableEq, Repr

def Value.lt : Value → Value → Bool
  | special a, special b => a.toNat < b.toNat
  | special _, byte _ => false
  | byte _, special _ => true
  | byte a, byte b => a < b

instance : LT Value := ⟨fun a b => a.lt b⟩

instance : DecidableLT Value := fun a b => inferInstanceAs (Decidable (a.lt b = true))

-- For the order of the source there are no two values that are equivalent but different.
theorem Value.eq_of_not_lt {a b : Value} (hab : ¬a < b) (hba : ¬b < a) : a = b := by
  cases a with
  | special a =>
    cases b with
    | special b => cases a <;> cases b <;> first | rfl | exact absurd rfl hab | exact absurd rfl hba
    | byte b => exact absurd rfl hba
  | byte a =>
    cases b with
    | special b => exact absurd rfl hab
    | byte b =>
      have hab : ¬a < b := fun h => hab (decide_eq_true h)
      have hba : ¬b < a := fun h => hba (decide_eq_true h)
      rw [UInt8.lt_iff_toNat_lt] at hab hba
      exact congrArg byte (UInt8.toNat_inj.mp (by omega))

structure NodeData where
  leaf : Bool
  value : Value
deriving DecidableEq, Repr

-- Where there is no node, the pointer to it is null.
abbrev Node := BitTrie NodeData

def NodeData.new : NodeData := { leaf := false, value := .byte 0 }

def NodeData.setValue (value : Value) (_ : NodeData) : NodeData := { leaf := true, value }

structure Mapping where
  sequence : List Bool
  value : Value
deriving DecidableEq, Repr

structure Tree where
  root : Node
deriving DecidableEq, Repr

namespace Tree

def new : Tree := { root := .node .new .null .null }

-- `ensure_node` and `set_value`
def addMapping (t : Tree) (m : Mapping) : Tree :=
  { root := t.root.modify .new (.setValue m.value) m.sequence }

def ofMappings (ms : List Mapping) : Tree := ms.foldl addMapping new

section

variable {σ : Type} (basicRead : BasicRead σ)

/-
The loop of `read_value` from the node on that the last bit has led to.
-/
def arrive : Node → BitReader σ → Option (Value × BitReader σ)
  | .null, _ => none
  | .node data zero one, r =>
    if data.leaf then
      some (data.value, r)
    else
      match BitReader.readBit basicRead r with
      | .error _ => none
      | .ok (bit, r) => if bit ≠ 0 then arrive one r else arrive zero r

def readValue (t : Tree) (r : BitReader σ) : Option (Value × BitReader σ) :=
  match BitReader.readBit basicRead r with
  | .error _ => none
  | .ok (bit, r) => arrive basicRead (t.root.child (bit ≠ 0)) r

end

-- `read_value` by sequence
def readSequence (t : Tree) (sequence : List Bool) : Option Value :=
  match t.root.walk sequence with
  | .null => none
  | .node data _ _ => some data.value

end Tree

structure MultiMapping extends Mapping where
  index : Value
deriving DecidableEq, Repr

structure MultiTree where
  trees : List (Value × Tree)
deriving DecidableEq, Repr

namespace MultiTree

-- What `populate_from` does with a mapping
def addMapping (t : MultiTree) (mm : MultiMapping) : MultiTree :=
  { trees :=
      SortedMap.set mm.index (((SortedMap.find mm.index t.trees).getD Tree.new).addMapping mm.toMapping) t.trees }

def ofMappings (mms : List MultiMapping) : MultiTree := mms.foldl addMapping { trees := [] }

section

variable {σ : Type} (basicRead : BasicRead σ)

def readValue (t : MultiTree) (index : Value) (r : BitReader σ) : Option (Value × BitReader σ) :=
  match SortedMap.find index t.trees with
  | none => none
  | some tree => tree.readValue basicRead r

/-
Escaped data up to a character that is ASCII, which is not added to the string yet and not there if the
data runs out.
-/
def readEscaped : Nat → BitReader σ → List UInt8 → Option (Option (UInt8 × BitReader σ) × List UInt8)
  | 0, _, _ => none
  | fuel + 1, r, s =>
    match BitReader.readBits basicRead 8 r with
    | .error _ => some (none, s)
    | .ok (bits, r) =>
      let c := UInt8.ofBitVec (bits.setWidth 8)
      if c &&& 0x80 ≠ 0 then readEscaped fuel r (s ++ [c]) else some (some (c, r), s)

def readStringLoop (t : MultiTree) : Nat → Value → BitReader σ → List UInt8 → Option (Bool × List UInt8)
  | 0, _, _, _ => none
  | fuel + 1, value, r, s =>
    match t.readValue basicRead value r with
    | none => some (true, s)
    | some (.byte b, r) => readStringLoop t fuel (.byte b) r (s ++ [b])
    | some (.special .stop, _) => some (true, s)
    | some (.special .escape, r) =>
      match readEscaped basicRead fuel r s with
      | none => none
      | some (none, s) => some (true, s)
      | some (some (c, r), s) => readStringLoop t fuel (.byte c) r (s ++ [c])
    | some (value, r) => readStringLoop t fuel value r s

-- The characters are added to the string that is given.
def readString (t : MultiTree) (fuel : Nat) (r : BitReader σ) (s : List UInt8) : Option (Bool × List UInt8) :=
  t.readStringLoop basicRead fuel (.special .start) r s

end

end MultiTree

open Channel (BasicRead BitReader Lawful StringReader)

/-
No sequence is empty, or at the start of another one.
-/
structure PrefixFree (ms : List Mapping) : Prop where
  ne_nil : ∀ m ∈ ms, m.sequence ≠ []
  eq_of_prefix : ∀ m ∈ ms, ∀ m' ∈ ms, m.sequence <+: m'.sequence → m = m'

namespace Tree

variable {ms : List Mapping} {m : Mapping} {q : List Bool} {v : Value}

theorem ofMappings_append (ms : List Mapping) (m : Mapping)
    : ofMappings (ms ++ [m]) = (ofMappings ms).addMapping m := by
  unfold ofMappings
  rw [List.foldl_append]
  rfl

theorem find_new (q : List Bool) : new.root.find q = if q = [] then some .new else none := by
  cases q with
  | nil => rfl
  | cons b q =>
    rw [if_neg (List.cons_ne_nil b q), BitTrie.find_cons]
    cases b <;> exact BitTrie.find_null q

/--
There is a leaf for each of the mappings.
-/
theorem find_of_mem (h : PrefixFree ms) (hm : m ∈ ms)
    : (ofMappings ms).root.find m.sequence = some { leaf := true, value := m.value } := by
  induction ms using List.reverseRecOn with
  | nil => contradiction
  | append_singleton ms last ih =>
    have hlast : last ∈ ms ++ [last] := List.mem_append_right _ (List.mem_singleton_self last)
    rw [ofMappings_append]
    unfold addMapping
    dsimp only
    by_cases hstart : m.sequence <+: last.sequence
    . rw [h.eq_of_prefix m hm last hlast hstart, BitTrie.find_modify_self]
      rfl
    . rw [BitTrie.find_modify_of_not_prefix hstart]
      apply ih
      . constructor
        . exact fun m hm => h.ne_nil m (List.mem_append_left _ hm)
        . exact fun m hm m' hm' =>
            h.eq_of_prefix m (List.mem_append_left _ hm) m' (List.mem_append_left _ hm')
      . rcases List.mem_append.mp hm with hm | hm
        . exact hm
        . rw [List.mem_singleton.mp hm] at hstart
          exact absurd List.prefix_rfl hstart

/--
The other nodes are those on the way to a leaf.
-/
theorem find_of_ne (hq : ∀ m ∈ ms, m.sequence ≠ q)
    : (ofMappings ms).root.find q
        =
      if q = [] ∨ ∃ m ∈ ms, q <+: m.sequence then some .new else none := by
  induction ms using List.reverseRecOn with
  | nil =>
    rw [show ofMappings [] = new from rfl, find_new]
    simp
  | append_singleton ms last ih =>
    have hlast : last ∈ ms ++ [last] := List.mem_append_right _ (List.mem_singleton_self last)
    have ih := ih (fun m hm => hq m (List.mem_append_left _ hm))
    rw [ofMappings_append]
    unfold addMapping
    dsimp only
    by_cases hstart : q <+: last.sequence
    . have hway : q = [] ∨ ∃ m ∈ ms ++ [last], q <+: m.sequence := .inr ⟨last, hlast, hstart⟩
      rw [BitTrie.find_modify_of_prefix hstart (fun heq => hq last hlast heq.symm), ih, if_pos hway]
      by_cases hbefore : q = [] ∨ ∃ m ∈ ms, q <+: m.sequence
      . rw [if_pos hbefore]
        rfl
      . rw [if_neg hbefore]
        rfl
    . rw [BitTrie.find_modify_of_not_prefix hstart, ih]
      congr 1
      rw [eq_iff_iff]
      apply or_congr_right
      simp [hstart]

theorem readSequence_eq (t : Tree) (q : List Bool) : t.readSequence q = (t.root.find q).map NodeData.value := by
  unfold readSequence BitTrie.find
  cases t.root.walk q <;> rfl

-- What has a sequence, is none of them, or comes before one
theorem mem_or_ne (ms : List Mapping) (q : List Bool)
    : (∃ m ∈ ms, m.sequence = q) ∨ ∀ m ∈ ms, m.sequence ≠ q := by
  by_cases h : ∃ m ∈ ms, m.sequence = q
  . exact .inl h
  . exact .inr fun m hm heq => h ⟨m, hm, heq⟩

section Read

variable {σ : Type} {basicRead : BasicRead σ} {data : σ → List UInt8} {r r' : BitReader σ} {n : Node}
  {rest : List Bool}

/--
What is read is the value of a leaf, and the bits that are used up are the way to it.
-/
theorem arrive_some (h : Lawful basicRead data) (hr : r.Valid)
    (harrive : arrive basicRead n r = some (v, r'))
    : ∃ q,
        r.pending data = q ++ r'.pending data
          ∧
        n.find q = some { leaf := true, value := v }
          ∧
        r'.Valid := by
  induction n generalizing r with
  | null => contradiction
  | node label zero one ihzero ihone =>
    unfold arrive at harrive
    split at harrive
    . next hleaf =>
      cases harrive
      exact ⟨[], rfl, by rw [← hleaf]; rfl, hr⟩
    . split at harrive
      . contradiction
      . next bit r1 hread =>
        obtain ⟨b, hpending, hbit, hr1⟩ := BitReader.readBit_ok h hr hread
        split at harrive
        . next hone =>
          obtain ⟨q, hq, hfind, hr'⟩ := ihone hr1 harrive
          have hb : b = true := by
            cases b with
            | true => rfl
            | false => exact absurd (hbit.mpr rfl) hone
          exact ⟨b :: q, by rw [hpending, hq]; rfl, by rw [hb]; exact hfind, hr'⟩
        . next hzero =>
          obtain ⟨q, hq, hfind, hr'⟩ := ihzero hr1 harrive
          have hb : b = false := hbit.mp (not_not.mp hzero)
          exact ⟨b :: q, by rw [hpending, hq]; rfl, by rw [hb]; exact hfind, hr'⟩

theorem readValue_some (h : Lawful basicRead data) (hr : r.Valid) {t : Tree}
    (hread : t.readValue basicRead r = some (v, r'))
    : ∃ q,
        q ≠ []
          ∧
        r.pending data = q ++ r'.pending data
          ∧
        t.root.find q = some { leaf := true, value := v } := by
  unfold readValue at hread
  split at hread
  . contradiction
  . next bit r1 hbit =>
    obtain ⟨b, hpending, hzero, hr1⟩ := BitReader.readBit_ok h hr hbit
    obtain ⟨q, hq, hfind, -⟩ := arrive_some h hr1 hread
    rw [BitReader.decide_bit_ne_zero hzero] at hfind
    exact ⟨b :: q, List.cons_ne_nil b q, by rw [hpending, hq]; rfl, hfind⟩

/--
The value of a leaf is read if there are no leaves on the way to it.
-/
theorem arrive_leaf (h : Lawful basicRead data) (hr : r.Valid) (hpending : r.pending data = q ++ rest)
    (hleaf : n.find q = some { leaf := true, value := v })
    (hway : ∀ p, p <+: q → p ≠ q → ∃ data, n.find p = some data ∧ data.leaf = false)
    : ∃ r', arrive basicRead n r = some (v, r') ∧ r'.Valid ∧ r'.pending data = rest := by
  induction q generalizing n r with
  | nil =>
    cases n with
    | null => contradiction
    | node label zero one =>
      have hlabel := Option.some.inj hleaf
      unfold arrive
      rw [hlabel]
      exact ⟨r, rfl, hr, hpending⟩
  | cons b q ih =>
    obtain ⟨label, hlabel, hinner⟩ := hway [] List.nil_prefix (List.cons_ne_nil b q).symm
    obtain ⟨bit, r1, hread, hbit, hr1, hrest⟩ := BitReader.readBit_spec h hr hpending
    have hzero := BitReader.bit_eq_zero_iff hbit
    cases n with
    | null => contradiction
    | node label zero one =>
      cases hlabel
      have hway' : ∀ p, p <+: q → p ≠ q →
          ∃ data, ((BitTrie.node label zero one).child b).find p = some data ∧ data.leaf = false :=
        fun p hp hne => hway (b :: p) (List.cons_prefix_cons.mpr ⟨rfl, hp⟩)
          (fun heq => hne (List.cons.inj heq).2)
      obtain ⟨r', harrive, hr'⟩ := ih hr1 hrest hleaf hway'
      refine ⟨r', ?_, hr'⟩
      unfold arrive
      rw [hinner, if_neg Bool.false_ne_true, hread]
      dsimp only
      cases b with
      | true =>
        rw [if_pos (fun hz => Bool.noConfusion (hzero.mp hz))]
        exact harrive
      | false =>
        rw [if_neg (not_not.mpr (hzero.mpr rfl))]
        exact harrive

/--
A code is decoded, whatever comes behind it.
-/
theorem readValue_of_mem (hfree : PrefixFree ms) (hm : m ∈ ms) (h : Lawful basicRead data) (hr : r.Valid)
    (hpending : r.pending data = m.sequence ++ rest)
    : ∃ r',
        (ofMappings ms).readValue basicRead r = some (m.value, r') ∧ r'.Valid ∧ r'.pending data = rest := by
  have hleaf := find_of_mem hfree hm
  have hway : ∀ p, p <+: m.sequence → p ≠ m.sequence →
      ∃ data, (ofMappings ms).root.find p = some data ∧ data.leaf = false := by
    intro p hp hne
    have hinner : ∀ m' ∈ ms, m'.sequence ≠ p := by
      rintro m' hm' rfl
      exact hne (congrArg Mapping.sequence (hfree.eq_of_prefix m' hm' m hm hp))
    exact ⟨.new, by rw [find_of_ne hinner, if_pos (.inr ⟨m, hm, hp⟩)], rfl⟩
  generalize (ofMappings ms) = t at hleaf hway
  generalize hsequence : m.sequence = q at hpending hleaf hway
  cases q with
  | nil => exact absurd hsequence (hfree.ne_nil m hm)
  | cons b q =>
    obtain ⟨bit, r1, hread, hbit, hr1, hrest⟩ := BitReader.readBit_spec h hr hpending
    unfold readValue
    rw [hread]
    dsimp only
    rw [BitReader.decide_bit_ne_zero (BitReader.bit_eq_zero_iff hbit)]
    exact arrive_leaf h hr1 hrest hleaf fun p hp hne => hway (b :: p)
      (List.cons_prefix_cons.mpr ⟨rfl, hp⟩) (fun heq => hne (List.cons.inj heq).2)

/--
The two lookups agree on a sequence if and only if it is not empty, and does not come before a code.
-/
theorem lookups_agree_iff (hfree : PrefixFree ms) (h : Lawful basicRead data) (hr : r.Valid)
    (hpending : r.pending data = q ++ rest)
    : (∀ v,
        (ofMappings ms).readSequence q = some v
          ↔
        ∃ r', (ofMappings ms).readValue basicRead r = some (v, r') ∧ r'.pending data = rest)
        ↔
      q ≠ [] ∧ ∀ m ∈ ms, q <+: m.sequence → m.sequence = q := by
  -- By bits, only what is at a leaf is read.
  have hbits : ∀ v r', (ofMappings ms).readValue basicRead r = some (v, r') → r'.pending data = rest →
      q ≠ [] ∧ (ofMappings ms).root.find q = some { leaf := true, value := v } := by
    intro v r' hread hrest
    obtain ⟨q', hne, hused, hfind⟩ := readValue_some h hr hread
    rw [hpending, hrest, List.append_cancel_right_eq] at hused
    rw [hused]
    exact ⟨hne, hfind⟩
  rw [show (ofMappings ms).readSequence q = _ from readSequence_eq _ q]
  constructor
  . intro hagree
    by_contra hnot
    have hinner : ∀ m ∈ ms, m.sequence ≠ q := by
      rintro m hm rfl
      apply hnot
      exact ⟨hfree.ne_nil m hm, fun m' hm' hp =>
        congrArg Mapping.sequence (hfree.eq_of_prefix m hm m' hm' hp).symm⟩
    have hbefore : q = [] ∨ ∃ m ∈ ms, q <+: m.sequence := by
      by_contra hnone
      apply hnot
      exact ⟨fun hnil => hnone (.inl hnil), fun m hm hp => absurd ⟨m, hm, hp⟩ fun hex => hnone (.inr hex)⟩
    have hfind := find_of_ne hinner
    rw [if_pos hbefore] at hfind
    rw [hfind] at hagree hbits
    obtain ⟨r', hread, hrest⟩ := (hagree (.byte 0)).mp rfl
    have hleaf := (hbits _ _ hread hrest).2
    contradiction
  . rintro ⟨hne, hcode⟩ v
    constructor
    . intro hvalue
      rcases mem_or_ne ms q with ⟨m, hm, rfl⟩ | hinner
      . rw [find_of_mem hfree hm] at hvalue
        cases hvalue
        obtain ⟨r', hread, -, hrest⟩ := readValue_of_mem hfree hm h hr hpending
        exact ⟨r', hread, hrest⟩
      . rw [find_of_ne hinner, if_neg] at hvalue
        . contradiction
        . rintro (hnil | ⟨m, hm, hp⟩)
          . exact hne hnil
          . exact hinner m hm (hcode m hm hp)
    . rintro ⟨r', hread, hrest⟩
      rw [(hbits v r' hread hrest).2]
      rfl

end Read

theorem prefixFree_two : PrefixFree [⟨[false], .byte 97⟩, ⟨[true, false], .byte 98⟩] := by
  constructor <;> decide

-- The sequence of the second code
theorem lookups_agree_iff_two
    : ∃ r',
        (ofMappings [⟨[false], .byte 97⟩, ⟨[true, false], .byte 98⟩]).readValue StringReader.basicRead
            (BitReader.new (StringReader.new [0x80]))
          = some (.byte 98, r')
          ∧
        r'.pending StringReader.rest = List.replicate 6 false := by
  have hpending : (BitReader.new (StringReader.new [0x80])).pending StringReader.rest
      = [true, false] ++ List.replicate 6 false := by decide
  have hagree := lookups_agree_iff prefixFree_two StringReader.lawful (BitReader.valid_new _) hpending
  exact (hagree.mpr (by decide) (.byte 98)).mp rfl

/--
By sequence there is something at the start of the second code too.
-/
theorem not_lookups_agree
    : (ofMappings [⟨[false], .byte 97⟩, ⟨[true, false], .byte 98⟩]).readSequence [true] = some (.byte 0)
        ∧
      (∀ v r',
        (ofMappings [⟨[false], .byte 97⟩, ⟨[true, false], .byte 98⟩]).readValue StringReader.basicRead
            (BitReader.new (StringReader.new [0x80]))
          = some (v, r') →
        r'.pending StringReader.rest ≠ List.replicate 7 false) := by
  refine ⟨rfl, ?_⟩
  intro v r' hread hrest
  obtain ⟨q, -, hused, hfind⟩ := readValue_some StringReader.lawful (BitReader.valid_new _) hread
  have hpending : (BitReader.new (StringReader.new [0x80])).pending StringReader.rest
      = [true] ++ List.replicate 7 false := by decide
  rw [hpending, hrest, List.append_cancel_right_eq] at hused
  rw [← hused] at hfind
  cases hfind

end Tree

end Huffman
end ObTools
