import ObTools.Huffman.Tree

/-!
This module contains the strings that are encoded with the codes of a `MultiTree`, and the proof that they
are read back.
-/

namespace ObTools
namespace Huffman

open Channel (BasicRead BitReader Lawful StringReader byteBits)

def mappingsOf (mms : List MultiMapping) (index : Value) : List Mapping :=
  (mms.filter fun mm => mm.index = index).map MultiMapping.toMapping

theorem mappingsOf_append (mms : List MultiMapping) (mm : MultiMapping) (index : Value)
    : mappingsOf (mms ++ [mm]) index
        =
      mappingsOf mms index ++ if mm.index = index then [mm.toMapping] else [] := by
  unfold mappingsOf
  rw [List.filter_append, List.map_append]
  split
  . next heq => simp [heq]
  . next hne => simp [hne]

/-
This does not depend on the order of the mappings.
-/
def MultiPrefixFree (mms : List MultiMapping) : Prop := ∀ index, PrefixFree (mappingsOf mms index)

variable {mms : List MultiMapping} {index v : Value} {code bits padding : List Bool} {s : List UInt8}

def HasCode (mms : List MultiMapping) (index v : Value) (code : List Bool) : Prop :=
  { sequence := code, value := v, index := index } ∈ mms

theorem HasCode.mem_mappingsOf (h : HasCode mms index v code) : ⟨code, v⟩ ∈ mappingsOf mms index :=
  List.mem_map.mpr ⟨_, List.mem_filter.mpr ⟨h, decide_eq_true rfl⟩, rfl⟩

/-
A string is encoded by a code for each character, dependent on the one before it, and one for the end. In
between there may be runs of characters that are written as they are, up to one that is ASCII.
-/
inductive Encodes (mms : List MultiMapping) : Value → List UInt8 → List Bool → Prop where
  | stop {index : Value} {code : List Bool} (hcode : HasCode mms index (.special .stop) code)
    : Encodes mms index [] code
  | byte {index : Value} {b : UInt8} {s : List UInt8} {code bits : List Bool}
    (hcode : HasCode mms index (.byte b) code) (hrest : Encodes mms (.byte b) s bits)
    : Encodes mms index (b :: s) (code ++ bits)
  | escape {index : Value} {run s : List UInt8} {last : UInt8} {code bits : List Bool}
    (hcode : HasCode mms index (.special .escape) code) (hrun : ∀ c ∈ run, 0x80 ≤ c) (hlast : last < 0x80)
    (hrest : Encodes mms (.byte last) s bits)
    : Encodes mms index (run ++ last :: s) (code ++ (byteBits (run ++ [last]) ++ bits))

namespace MultiTree

theorem ofMappings_append (mms : List MultiMapping) (mm : MultiMapping)
    : ofMappings (mms ++ [mm]) = (ofMappings mms).addMapping mm := by
  unfold ofMappings
  rw [List.foldl_append]
  rfl

/--
Each index has the tree of its own mappings.
-/
theorem find_trees (mms : List MultiMapping) (index : Value)
    : SortedMap.find index (ofMappings mms).trees
        =
      if mappingsOf mms index = [] then none else some (Tree.ofMappings (mappingsOf mms index)) := by
  induction mms using List.reverseRecOn with
  | nil => rfl
  | append_singleton mms mm ih =>
    rw [ofMappings_append]
    unfold addMapping
    dsimp only
    rw [mappingsOf_append]
    by_cases hindex : mm.index = index
    . rw [hindex, SortedMap.find_set_self, ih, if_pos rfl, Tree.ofMappings_append,
        if_neg (List.append_ne_nil_of_right_ne_nil _ (List.cons_ne_nil _ _))]
      by_cases hnil : mappingsOf mms index = []
      . rw [if_pos hnil, hnil]
        rfl
      . rw [if_neg hnil]
        rfl
    . rw [SortedMap.find_set_of_ne (Ne.symm hindex), ih, if_neg hindex, List.append_nil]

section

variable {σ : Type} {basicRead : BasicRead σ} {data : σ → List UInt8} {r : BitReader σ}
  (h : Lawful basicRead data)
include h

theorem readValue_of_hasCode (hfree : MultiPrefixFree mms) (hr : r.Valid) (hcode : HasCode mms index v code)
    (hpending : r.pending data = code ++ bits)
    : ∃ r',
        (ofMappings mms).readValue basicRead index r = some (v, r') ∧ r'.Valid ∧ r'.pending data = bits := by
  have hm := hcode.mem_mappingsOf
  unfold readValue
  rw [find_trees, if_neg (List.ne_nil_of_mem hm)]
  exact Tree.readValue_of_mem (hfree index) hm h hr hpending

omit h in
theorem top_bit_iff (c : UInt8) : c &&& 0x80 ≠ 0 ↔ 0x80 ≤ c := by
  have hall : ∀ b : BitVec 8, b &&& 0x80#8 ≠ 0#8 ↔ 0x80#8 ≤ b := by decide
  rw [UInt8.le_iff_toBitVec_le, ne_eq, ← UInt8.toBitVec_inj]
  exact hall c.toBitVec

theorem readBits_byte (hr : r.Valid) {c : UInt8} (hpending : r.pending data = Bits.ofNat 8 c.toNat ++ bits)
    : ∃ word r',
        BitReader.readBits basicRead 8 r = .ok (word, r')
          ∧
        UInt8.ofBitVec (word.setWidth 8) = c ∧ r'.Valid ∧ r'.pending data = bits := by
  obtain ⟨word, r', hread, hword, hr', hrest⟩ := BitReader.readBits_spec h hr (by decide) c.toNat hpending
  refine ⟨word, r', hread, ?_, hr', hrest⟩
  have hlt := c.toNat_lt
  rw [← UInt8.toNat_inj, UInt8.toNat_ofBitVec, BitVec.toNat_setWidth, hword]
  omega

theorem readEscaped_run (run : List UInt8) {last : UInt8} (hrun : ∀ c ∈ run, 0x80 ≤ c) (hlast : last < 0x80)
    (hr : r.Valid) (hpending : r.pending data = byteBits (run ++ [last]) ++ bits) {fuel : Nat}
    (hfuel : run.length < fuel) (done : List UInt8)
    : ∃ r',
        readEscaped basicRead fuel r done = some (some (last, r'), done ++ run)
          ∧
        r'.Valid ∧ r'.pending data = bits := by
  induction run generalizing r fuel done with
  | nil =>
    obtain ⟨fuel, rfl⟩ := Nat.exists_eq_add_of_lt hfuel
    rw [List.nil_append, Channel.byteBits_cons, Channel.byteBits_nil, List.append_nil] at hpending
    obtain ⟨word, r', hread, hword, hr', hrest⟩ := readBits_byte h hr hpending
    have hascii : ¬last &&& 0x80 ≠ 0 := by
      rw [top_bit_iff]
      exact UInt8.not_le.mpr hlast
    unfold readEscaped
    rw [hread]
    dsimp only
    rw [hword, if_neg hascii, List.append_nil]
    exact ⟨r', rfl, hr', hrest⟩
  | cons c run ih =>
    rw [List.forall_mem_cons] at hrun
    rw [List.length_cons] at hfuel
    rw [List.cons_append, Channel.byteBits_cons, List.append_assoc] at hpending
    obtain ⟨word, r1, hread, hword, hr1, hrest1⟩ := readBits_byte h hr hpending
    cases fuel with
    | zero => contradiction
    | succ fuel =>
      obtain ⟨r', hescaped, hr', hrest⟩ := ih hrun.2 hr1 hrest1 (Nat.lt_of_succ_lt_succ hfuel) (done ++ [c])
      refine ⟨r', ?_, hr', hrest⟩
      unfold readEscaped
      rw [hread]
      dsimp only
      rw [hword, if_pos ((top_bit_iff c).mpr hrun.1), hescaped, List.append_assoc]
      rfl

omit h in
theorem length_pos_of_hasCode (hfree : MultiPrefixFree mms) (hcode : HasCode mms index v code)
    : 0 < code.length :=
  List.length_pos_of_ne_nil ((hfree index).ne_nil _ hcode.mem_mappingsOf)

theorem readStringLoop_encodes (hfree : MultiPrefixFree mms) (hencodes : Encodes mms index s bits) (hr : r.Valid)
    (hpending : r.pending data = bits ++ padding) {fuel : Nat} (hfuel : bits.length < fuel) (done : List UInt8)
    : (ofMappings mms).readStringLoop basicRead fuel index r done = some (true, done ++ s) := by
  induction hencodes generalizing r fuel done with
  | stop hcode =>
    obtain ⟨fuel, rfl⟩ := Nat.exists_eq_add_of_lt hfuel
    obtain ⟨r', hread, hr', hrest⟩ := readValue_of_hasCode h hfree hr hcode hpending
    dsimp only [readStringLoop]
    rw [hread, List.append_nil]
  | byte hcode hrest' ih =>
    rw [List.append_assoc] at hpending
    rw [List.length_append] at hfuel
    have hpos := length_pos_of_hasCode hfree hcode
    obtain ⟨r', hread, hr', hrest⟩ := readValue_of_hasCode h hfree hr hcode hpending
    cases fuel with
    | zero => contradiction
    | succ fuel =>
      dsimp only [readStringLoop]
      rw [hread]
      dsimp only
      rw [ih hr' hrest (by omega), List.append_assoc]
      rfl
  | @escape index run s last code bits hcode hrun hlast hrest' ih =>
    rw [List.append_assoc, List.append_assoc] at hpending
    rw [List.length_append, List.length_append, Channel.length_byteBits, List.length_append] at hfuel
    have hpos := length_pos_of_hasCode hfree hcode
    obtain ⟨r', hread, hr', hrest⟩ := readValue_of_hasCode h hfree hr hcode hpending
    cases fuel with
    | zero => contradiction
    | succ fuel =>
      have hfuel' : run.length < fuel := by omega
      obtain ⟨r'', hescaped, hr'', hrest''⟩ := readEscaped_run h run hrun hlast hr' hrest hfuel' done
      dsimp only [readStringLoop]
      rw [hread]
      dsimp only
      rw [hescaped]
      dsimp only
      rw [ih hr'' hrest'' (by omega), List.append_assoc, List.append_assoc]
      rfl

/--
What has been encoded with codes of which none is the start of another one is read back exactly, however
the last byte is filled up.
-/
theorem readString_encodes (hfree : MultiPrefixFree mms) (hencodes : Encodes mms (.special .start) s bits)
    (hr : r.Valid) (hpending : r.pending data = bits ++ padding) {fuel : Nat} (hfuel : bits.length < fuel)
    (done : List UInt8)
    : (ofMappings mms).readString basicRead fuel r done = some (true, done ++ s) :=
  readStringLoop_encodes h hfree hencodes hr hpending hfuel done

end

def exampleMappings : List MultiMapping :=
  [⟨⟨[false, true], .byte 97⟩, .special .start⟩, ⟨⟨[true], .special .escape⟩, .byte 97⟩,
    ⟨⟨[false], .special .stop⟩, .byte 102⟩]

theorem exampleMappings_free : MultiPrefixFree exampleMappings := by
  intro index
  have hall : ∀ m ∈ exampleMappings, ∀ m' ∈ exampleMappings,
      m.sequence ≠ [] ∧ (m.index = m'.index → m.toMapping = m'.toMapping) := by decide
  have hmem : ∀ m ∈ mappingsOf exampleMappings index,
      ∃ mm ∈ exampleMappings, mm.index = index ∧ mm.toMapping = m := by
    intro m hm
    obtain ⟨mm, hmm, rfl⟩ := List.mem_map.mp hm
    obtain ⟨hmm, hindex⟩ := List.mem_filter.mp hmm
    exact ⟨mm, hmm, of_decide_eq_true hindex, rfl⟩
  constructor
  . intro m hm
    obtain ⟨mm, hmm, -, rfl⟩ := hmem m hm
    exact (hall mm hmm mm hmm).1
  . intro m hm m' hm' _
    obtain ⟨mm, hmm, hindex, rfl⟩ := hmem m hm
    obtain ⟨mm', hmm', hindex', rfl⟩ := hmem m' hm'
    exact (hall mm hmm mm' hmm').2 (hindex.trans hindex'.symm)

-- A character, an escaped one outside of ASCII and one in it, and the end
theorem readString_encodes_escaped
    : (ofMappings exampleMappings).readString StringReader.basicRead 30
          (BitReader.new (StringReader.new [0x78, 0x6C, 0xC0])) []
        =
      some (true, [97, 0xC3, 102]) := by
  have hstop : Encodes exampleMappings (.byte 102) [] [false] := .stop (by unfold HasCode; decide)
  have hescape := @Encodes.escape exampleMappings (.byte 97) [0xC3] [] 102 [true] [false]
    (by unfold HasCode; decide) (by decide +kernel) (by decide) hstop
  have hencodes := @Encodes.byte exampleMappings (.special .start) 97 _ [false, true] _
    (by unfold HasCode; decide) hescape
  have hpending : (BitReader.new (StringReader.new [0x78, 0x6C, 0xC0])).pending StringReader.rest
      = ([false, true] ++ ([true] ++ (byteBits [0xC3, 102] ++ [false]))) ++ List.replicate 4 false := by decide
  exact readString_encodes StringReader.lawful exampleMappings_free hencodes (BitReader.valid_new _) hpending
    (by decide) []

end MultiTree
end Huffman
end ObTools
