import ObTools.Json.CborLemmas

/-!
This module contains what the reader makes of the argument of an item, in any of its forms.
-/

namespace ObTools
namespace Json

open Channel (BasicRead Lawful)
open Decoder (Reads)

namespace CborReader

-- How many bytes the argument takes behind an initial byte
def argumentWidth (b : UInt8) : Option Nat :=
  let ai := b &&& 0x1f
  if ai < 24 then
    some 0
  else if ai = 24 then
    some 1
  else if ai = 25 then
    some 2
  else if ai = 26 then
    some 4
  else if ai = 27 then
    some 8
  else
    none

structure Argument (b : UInt8) (arg : Bytes) (n : UInt64) : Prop where
  width : argumentWidth b = some arg.length
  value : n.toNat = if arg = [] then (b &&& 0x1f).toNat else BigEndian.ofBytes arg

variable {σ : Type} {basicRead : BasicRead σ} {data : σ → List UInt8} {b : UInt8} {arg : Bytes}
  {n : UInt64} {reader reader' : σ}

theorem Argument.unique {arg' rest rest' : Bytes} {n' : UInt64} (harg : Argument b arg n)
    (harg' : Argument b arg' n') (happend : arg ++ rest = arg' ++ rest')
    : arg = arg' ∧ n = n' ∧ rest = rest' := by
  have hlength : arg.length = arg'.length := by
    have hwidth := harg.width
    rw [harg'.width] at hwidth
    exact (Option.some.inj hwidth).symm
  obtain ⟨rfl, hrest⟩ := List.append_inj happend hlength
  refine ⟨rfl, ?_, hrest⟩
  rw [← UInt64.toNat_inj, harg.value, harg'.value]

/-
The numbers that are read are the ones that the bytes stand for.
-/

theorem nbo16_value (hlength : arg.length = 2)
    : (UInt16.ofNat (BigEndian.ofBytes arg)).toUInt64.toNat = BigEndian.ofBytes arg := by
  have hlt := BigEndian.ofBytes_lt arg
  rw [hlength] at hlt
  rw [UInt16.toNat_toUInt64]
  exact UInt16.toNat_ofNat_of_lt' hlt

theorem nbo32_value (hlength : arg.length = 4)
    : (UInt32.ofNat (BigEndian.ofBytes arg)).toUInt64.toNat = BigEndian.ofBytes arg := by
  have hlt := BigEndian.ofBytes_lt arg
  rw [hlength] at hlt
  rw [UInt32.toNat_toUInt64]
  exact UInt32.toNat_ofNat_of_lt' hlt

theorem nbo64_value {high low : Bytes} (hhigh : high.length = 4) (hlow : low.length = 4)
    : (((UInt32.ofNat (BigEndian.ofBytes high)).toUInt64 <<< 32)
        + (UInt32.ofNat (BigEndian.ofBytes low)).toUInt64).toNat = BigEndian.ofBytes (high ++ low) := by
  have hlt := BigEndian.ofBytes_lt high
  have hlt' := BigEndian.ofBytes_lt low
  rw [hhigh] at hlt
  rw [hlow] at hlt'
  rw [BigEndian.ofBytes_append, hlow, UInt64.toNat_add, UInt64.toNat_shiftLeft, nbo32_value hhigh,
    nbo32_value hlow]
  simp only [UInt64.reduceToNat, Nat.reduceMod, Nat.shiftLeft_eq]
  omega

section Reads

variable (h : Lawful basicRead data)
include h

theorem readNbo16_ok {i : UInt16}
    (hread : Channel.Reader.readNbo16 (Channel.Reader.tryRead basicRead) reader = .ok (i, reader'))
    : ∃ bytes, data reader = bytes ++ data reader' ∧ bytes.length = 2
        ∧ i = UInt16.ofNat (BigEndian.ofBytes bytes) := by
  unfold Channel.Reader.readNbo16 at hread
  cases hnbo : Channel.Reader.readNbo (Channel.Reader.tryRead basicRead) 2 reader with
  | error e =>
    rw [hnbo] at hread
    cases hread
  | ok res =>
    rw [hnbo] at hread
    cases hread
    obtain ⟨bytes, hdata, hlength, hvalue⟩ := Channel.Reader.readNbo_ok h hnbo
    exact ⟨bytes, hdata, hlength, congrArg UInt16.ofNat hvalue⟩

theorem readNbo32_ok {i : UInt32}
    (hread : Channel.Reader.readNbo32 (Channel.Reader.tryRead basicRead) reader = .ok (i, reader'))
    : ∃ bytes, data reader = bytes ++ data reader' ∧ bytes.length = 4
        ∧ i = UInt32.ofNat (BigEndian.ofBytes bytes) := by
  unfold Channel.Reader.readNbo32 at hread
  cases hnbo : Channel.Reader.readNbo (Channel.Reader.tryRead basicRead) 4 reader with
  | error e =>
    rw [hnbo] at hread
    cases hread
  | ok res =>
    rw [hnbo] at hread
    cases hread
    obtain ⟨bytes, hdata, hlength, hvalue⟩ := Channel.Reader.readNbo_ok h hnbo
    exact ⟨bytes, hdata, hlength, congrArg UInt32.ofNat hvalue⟩

theorem readNbo64_ok
    (hread : Channel.Reader.readNbo64 (Channel.Reader.tryRead basicRead) reader = .ok (n, reader'))
    : ∃ bytes, data reader = bytes ++ data reader' ∧ bytes.length = 8
        ∧ n.toNat = BigEndian.ofBytes bytes := by
  unfold Channel.Reader.readNbo64 at hread
  cases hhigh : Channel.Reader.readNbo32 (Channel.Reader.tryRead basicRead) reader with
  | error e =>
    rw [hhigh] at hread
    cases hread
  | ok res =>
    obtain ⟨i, reader1⟩ := res
    rw [hhigh] at hread
    simp only [bind, Except.bind] at hread
    cases hlow : Channel.Reader.readNbo32 (Channel.Reader.tryRead basicRead) reader1 with
    | error e =>
      rw [hlow] at hread
      cases hread
    | ok res =>
      rw [hlow] at hread
      cases hread
      obtain ⟨high, hdata, hlength, rfl⟩ := readNbo32_ok h hhigh
      obtain ⟨low, hdata', hlength', heq⟩ := readNbo32_ok h hlow
      refine ⟨high ++ low, ?_, ?_, ?_⟩
      . rw [hdata, hdata', List.append_assoc]
      . rw [List.length_append, hlength, hlength']
      . rw [heq]
        exact nbo64_value hlength hlength'

/--
Behind an initial byte the argument is found, in as many bytes as the initial byte says.
-/
theorem readInt_ok (hread : readInt basicRead b reader = some (.ok (n, reader')))
    : ∃ arg, Argument b arg n ∧ data reader = arg ++ data reader' := by
  unfold readInt at hread
  split at hread
  case isTrue hsmall =>
    cases hread
    refine ⟨[], ⟨?_, ?_⟩, rfl⟩
    . rw [argumentWidth]
      exact if_pos hsmall
    . rw [if_pos rfl, UInt8.toNat_toUInt64]
  case isFalse hsmall =>
    split at hread
    case isTrue hone =>
      obtain ⟨c, reader1, hbyte, hpure⟩ := Decoder.bind_ok hread
      cases hpure
      refine ⟨[c], ⟨?_, ?_⟩, readByte_ok h hbyte⟩
      . rw [argumentWidth, if_neg hsmall, if_pos hone]
        rfl
      . rw [if_neg (List.cons_ne_nil _ _), UInt8.toNat_toUInt64]
        simp [BigEndian.ofBytes]
    case isFalse hone =>
      split at hread
      case isTrue htwo =>
        obtain ⟨i, reader1, hnbo, hpure⟩ := Decoder.bind_ok hread
        cases hpure
        obtain ⟨bytes, hdata, hlength, rfl⟩ := readNbo16_ok h (Option.some.inj hnbo)
        refine ⟨bytes, ⟨?_, ?_⟩, hdata⟩
        . rw [argumentWidth, if_neg hsmall, if_neg hone, if_pos htwo, hlength]
        . rw [if_neg (List.ne_nil_of_length_pos (by omega)), nbo16_value hlength]
      case isFalse htwo =>
        split at hread
        case isTrue hfour =>
          obtain ⟨i, reader1, hnbo, hpure⟩ := Decoder.bind_ok hread
          cases hpure
          obtain ⟨bytes, hdata, hlength, rfl⟩ := readNbo32_ok h (Option.some.inj hnbo)
          refine ⟨bytes, ⟨?_, ?_⟩, hdata⟩
          . rw [argumentWidth, if_neg hsmall, if_neg hone, if_neg htwo, if_pos hfour, hlength]
          . rw [if_neg (List.ne_nil_of_length_pos (by omega)), nbo32_value hlength]
        case isFalse hfour =>
          split at hread
          case isTrue height =>
            obtain ⟨bytes, hdata, hlength, hvalue⟩ := readNbo64_ok h (Option.some.inj hread)
            refine ⟨bytes, ⟨?_, ?_⟩, hdata⟩
            . rw [argumentWidth, if_neg hsmall, if_neg hone, if_neg htwo, if_neg hfour,
                if_pos height, hlength]
            . rw [if_neg (List.ne_nil_of_length_pos (by omega)), hvalue]
          case isFalse => cases hread

theorem readNbo16_argument {bytes rest : Bytes} (hdata : data reader = bytes ++ rest)
    (hlength : bytes.length = 2)
    : ∃ reader', Channel.Reader.readNbo16 (Channel.Reader.tryRead basicRead) reader
          = .ok (UInt16.ofNat (BigEndian.ofBytes bytes), reader')
        ∧ data reader' = rest := by
  obtain ⟨reader', hread, hrest⟩ := Channel.Reader.readNbo_bytes h hdata
  rw [hlength] at hread
  refine ⟨reader', ?_, hrest⟩
  unfold Channel.Reader.readNbo16
  rw [hread]
  rfl

theorem readNbo32_argument {bytes rest : Bytes} (hdata : data reader = bytes ++ rest)
    (hlength : bytes.length = 4)
    : ∃ reader', Channel.Reader.readNbo32 (Channel.Reader.tryRead basicRead) reader
          = .ok (UInt32.ofNat (BigEndian.ofBytes bytes), reader')
        ∧ data reader' = rest := by
  obtain ⟨reader', hread, hrest⟩ := Channel.Reader.readNbo_bytes h hdata
  rw [hlength] at hread
  refine ⟨reader', ?_, hrest⟩
  unfold Channel.Reader.readNbo32
  rw [hread]
  rfl

theorem readNbo64_argument {bytes rest : Bytes} (hdata : data reader = bytes ++ rest)
    (hlength : bytes.length = 8)
    : ∃ n reader', Channel.Reader.readNbo64 (Channel.Reader.tryRead basicRead) reader = .ok (n, reader')
        ∧ data reader' = rest := by
  rw [← List.take_append_drop 4 bytes, List.append_assoc] at hdata
  obtain ⟨reader1, hread1, hrest1⟩ := readNbo32_argument h hdata (by rw [List.length_take]; omega)
  obtain ⟨reader2, hread2, hrest2⟩ := readNbo32_argument h hrest1 (by rw [List.length_drop]; omega)
  refine ⟨((UInt32.ofNat (BigEndian.ofBytes (bytes.take 4))).toUInt64 <<< 32)
    + (UInt32.ofNat (BigEndian.ofBytes (bytes.drop 4))).toUInt64, reader2, ?_, hrest2⟩
  unfold Channel.Reader.readNbo64
  rw [hread1]
  simp only [bind, Except.bind]
  rw [hread2]
  rfl

theorem readInt_isOk (harg : argumentWidth b = some arg.length) {rest : Bytes}
    (hdata : data reader = arg ++ rest)
    : ∃ n reader', readInt basicRead b reader = some (.ok (n, reader')) ∧ data reader' = rest := by
  unfold argumentWidth at harg
  unfold readInt
  dsimp only at harg ⊢
  split at harg
  case isTrue hsmall =>
    rw [if_pos hsmall]
    rw [List.eq_nil_of_length_eq_zero (Option.some.inj harg).symm] at hdata
    exact ⟨_, reader, rfl, hdata⟩
  case isFalse hsmall =>
    rw [if_neg hsmall]
    split at harg
    case isTrue hone =>
      rw [if_pos hone]
      obtain ⟨c, rfl⟩ := List.length_eq_one_iff.mp (Option.some.inj harg).symm
      obtain ⟨reader', hread, hrest⟩ := (readByte_reads h c).bind_return UInt8.toUInt64 reader rest hdata
      exact ⟨_, reader', hread, hrest⟩
    case isFalse hone =>
      rw [if_neg hone]
      split at harg
      case isTrue htwo =>
        rw [if_pos htwo]
        obtain ⟨reader', hread, hrest⟩ := readNbo16_argument h hdata (Option.some.inj harg).symm
        exact ⟨_, reader', Decoder.bind_eq _ (congrArg some hread), hrest⟩
      case isFalse htwo =>
        rw [if_neg htwo]
        split at harg
        case isTrue hfour =>
          rw [if_pos hfour]
          obtain ⟨reader', hread, hrest⟩ := readNbo32_argument h hdata (Option.some.inj harg).symm
          exact ⟨_, reader', Decoder.bind_eq _ (congrArg some hread), hrest⟩
        case isFalse hfour =>
          rw [if_neg hfour]
          split at harg
          case isTrue height =>
            rw [if_pos height]
            obtain ⟨n, reader', hread, hrest⟩ := readNbo64_argument h hdata (Option.some.inj harg).symm
            exact ⟨n, reader', congrArg some hread, hrest⟩
          case isFalse => cases harg

theorem readInt_argument (harg : Argument b arg n) : Reads data (readInt basicRead b) arg n := by
  intro reader rest hdata
  obtain ⟨n', reader', hread, hrest⟩ := readInt_isOk h harg.width hdata
  obtain ⟨arg', harg', hdata'⟩ := readInt_ok h hread
  rw [hdata] at hdata'
  obtain ⟨-, rfl, -⟩ := harg.unique harg' hdata'
  exact ⟨reader', hread, hrest⟩

theorem readString_ok {s : Bytes} {len : UInt64}
    (hread : readString basicRead len reader = some (.ok (s, reader')))
    : data reader = s ++ data reader' ∧ s.length = len.toNat := by
  unfold readString Decoder.lift at hread
  dsimp only at hread
  split at hread
  . cases hread
  . next hok =>
    cases hread
    exact Channel.Reader.readString_ok h hok

theorem readString_bytes {s : Bytes} {len : UInt64} (hlength : s.length = len.toNat)
    : Reads data (readString basicRead len) s s := by
  have hlen : len = UInt64.ofNat s.length := by
    rw [hlength, UInt64.ofNat_toNat]
  have hlt := len.toNat_lt
  rw [hlen]
  exact readString_reads h (by omega)

end Reads

end CborReader

end Json
end ObTools
