import Mathlib.Algebra.Group.Nat.Defs
import ObTools.Lib.ShiftRegister

/-!
This module contains the models of `CRC` and `CRC32`, and the proof that with their tables they compute what a
shift register does with the bits of the message.

The value is an unsigned integer of 16 or 32 bits, both classes do the same with it otherwise.
-/

namespace ObTools
namespace Misc

variable {w : Nat}

-- The step of the loop for the bits of an entry
def combine (poly : BitVec w) (reflected : Bool) (crc : BitVec w) : BitVec w :=
  if reflected then
    if crc &&& BitVec.twoPow w 0 ≠ 0#w then (crc >>> 1) ^^^ poly else crc >>> 1
  else
    if crc &&& BitVec.twoPow w (w - 1) ≠ 0#w then (crc <<< 1) ^^^ poly else crc <<< 1

-- Generate combination table
def combinations (poly : BitVec w) (reflected : Bool) : List (BitVec w) :=
  (List.range 256).map fun i =>
    let crc := if reflected then BitVec.ofNat w i else BitVec.ofNat w i <<< (w - 8)
    (combine poly reflected)^[8] crc

def consumeByte (combinations : List (BitVec w)) (reflected : Bool) (crc : BitVec w) (byte : UInt8) : BitVec w :=
  if reflected then
    let combiner := (crc &&& 0xff#w) ^^^ byte.toBitVec.setWidth w
    (crc >>> 8) ^^^ combinations.getD combiner.toNat 0#w
  else
    let combiner := (crc >>> (w - 8)) ^^^ byte.toBitVec.setWidth w
    (crc <<< 8) ^^^ combinations.getD combiner.toNat 0#w

-- Run each byte through table
def consume (combinations : List (BitVec w)) (reflected : Bool) (crc : BitVec w) (data : List UInt8) : BitVec w :=
  data.foldl (consumeByte combinations reflected) crc

def flipIf (flip : Bool) (crc : BitVec w) : BitVec w := if flip then crc ^^^ BitVec.allOnes w else crc

inductive CRC.Algorithm where
  | crc16
  | ccitt
  | ccittZero
  | ccittMod
deriving DecidableEq, Repr

structure CRC where
  combinations : List (BitVec 16)
  algorithm : CRC.Algorithm
  reflected : Bool
  flip : Bool

namespace CRC

def crcCcitt : BitVec 16 := (1#16 <<< 12) + (1#16 <<< 5) + 1#16

def crc16 : BitVec 16 := (1#16 <<< 15) + (1#16 <<< 2) + 1#16

def crcCcittRev : BitVec 16 := (1#16 <<< 15) + (1#16 <<< 10) + (1#16 <<< 3)

def crc16Rev : BitVec 16 := (1#16 <<< 15) + (1#16 <<< 13) + 1#16

-- Select polynomial
def poly (alg : Algorithm) (reflected : Bool) : BitVec 16 :=
  if reflected then
    if alg = .crc16 then crc16Rev else crcCcittRev
  else
    if alg = .crc16 then crc16 else crcCcitt

def new (alg : Algorithm) (reflected flip : Bool) : CRC where
  combinations := Misc.combinations (poly alg reflected) reflected
  algorithm := alg
  reflected := reflected
  flip := flip

-- Select starting point
def start (alg : Algorithm) (reflected : Bool) : BitVec 16 :=
  match alg with
  | .ccitt => 0xffff#16
  | .ccittZero => 0#16
  | .crc16 => 0#16
  | .ccittMod => if reflected then 0xf0b8#16 else 0x1d0f#16

def calculate (c : CRC) (data : List UInt8) : BitVec 16 :=
  flipIf c.flip (consume c.combinations c.reflected (start c.algorithm c.reflected) data)

end CRC

inductive CRC32.Algorithm where
  | crc32
  | crc32c
deriving DecidableEq, Repr

structure CRC32 where
  combinations : List (BitVec 32)
  algorithm : CRC32.Algorithm
  reflected : Bool
  flip : Bool

namespace CRC32

def polyCrc32 : BitVec 32 :=
  (1#32 <<< 26) + (1#32 <<< 23) + (1#32 <<< 22) + (1#32 <<< 16) + (1#32 <<< 12) + (1#32 <<< 11) + (1#32 <<< 10)
    + (1#32 <<< 8) + (1#32 <<< 7) + (1#32 <<< 5) + (1#32 <<< 4) + (1#32 <<< 2) + (1#32 <<< 1) + 1#32

def polyCrc32c : BitVec 32 :=
  (1#32 <<< 28) + (1#32 <<< 27) + (1#32 <<< 26) + (1#32 <<< 25) + (1#32 <<< 23) + (1#32 <<< 22) + (1#32 <<< 20)
    + (1#32 <<< 19) + (1#32 <<< 18) + (1#32 <<< 14) + (1#32 <<< 13) + (1#32 <<< 11) + (1#32 <<< 10) + (1#32 <<< 9)
    + (1#32 <<< 8) + (1#32 <<< 6) + 1#32

def polyCrc32Rev : BitVec 32 :=
  (1#32 <<< 31) + (1#32 <<< 30) + (1#32 <<< 29) + (1#32 <<< 27) + (1#32 <<< 26) + (1#32 <<< 24) + (1#32 <<< 23)
    + (1#32 <<< 21) + (1#32 <<< 20) + (1#32 <<< 19) + (1#32 <<< 15) + (1#32 <<< 9) + (1#32 <<< 8) + (1#32 <<< 5)

def polyCrc32cRev : BitVec 32 :=
  (1#32 <<< 31) + (1#32 <<< 25) + (1#32 <<< 23) + (1#32 <<< 22) + (1#32 <<< 21) + (1#32 <<< 20) + (1#32 <<< 18)
    + (1#32 <<< 17) + (1#32 <<< 13) + (1#32 <<< 12) + (1#32 <<< 11) + (1#32 <<< 9) + (1#32 <<< 8) + (1#32 <<< 6)
    + (1#32 <<< 5) + (1#32 <<< 4) + (1#32 <<< 3)

def poly (alg : Algorithm) (reflected : Bool) : BitVec 32 :=
  if reflected then
    if alg = .crc32c then polyCrc32cRev else polyCrc32Rev
  else
    if alg = .crc32c then polyCrc32c else polyCrc32

def new (alg : Algorithm) (reflected flip : Bool) : CRC32 where
  combinations := Misc.combinations (poly alg reflected) reflected
  algorithm := alg
  reflected := reflected
  flip := flip

-- All ones for each algorithm
def initialiser (_ : CRC32) : BitVec 32 := 0xffffffff#32

def consume (c : CRC32) (data : List UInt8) (crc : BitVec 32) : BitVec 32 :=
  Misc.consume c.combinations c.reflected crc data

def finalise (c : CRC32) (crc : BitVec 32) : BitVec 32 := flipIf c.flip crc

def calculate (c : CRC32) (data : List UInt8) : BitVec 32 := c.finalise (c.consume data c.initialiser)

end CRC32

/-
What the tables are for.
-/

def serial (poly crc : BitVec w) (reflected : Bool) (data : List UInt8) : BitVec w :=
  if reflected then
    ShiftRegister.crc poly crc (data.map UInt8.toBitVec)
  else
    ShiftRegister.crcTop poly crc (data.map UInt8.toBitVec)

def reverseByte (byte : UInt8) : UInt8 := UInt8.ofBitVec byte.toBitVec.reverse

structure Serial (w : Nat) : Prop where
  table : ∀ (poly crc : BitVec w) (reflected : Bool) (data : List UInt8),
    consume (combinations poly reflected) reflected crc data = serial poly crc reflected data
  pieces : ∀ (poly crc : BitVec w) (reflected : Bool) (pieces : List (List UInt8)),
    pieces.foldl (consume (combinations poly reflected) reflected) crc
      = consume (combinations poly reflected) reflected crc pieces.flatten
  mirror : ∀ (poly crc : BitVec w) (data : List UInt8),
    consume (combinations poly.reverse true) true crc.reverse data
      = (consume (combinations poly false) false crc (data.map reverseByte)).reverse

theorem and_twoPow_ne_zero_iff {i : Nat} (hi : i < w) (x : BitVec w)
    : x &&& BitVec.twoPow w i ≠ 0#w ↔ x.getLsbD i = true := by
  rw [BitVec.and_twoPow]
  split
  . next hx =>
    refine iff_of_true ?_ hx
    intro hzero
    have hbit := congrArg (·.getLsbD i) hzero
    simp [hi] at hbit
  . next hx => exact iff_of_false (fun h => h rfl) hx

theorem combine_true (hw : 0 < w) (poly : BitVec w) : combine poly true = ShiftRegister.turn poly := by
  funext crc
  unfold combine ShiftRegister.turn
  rw [if_pos rfl]
  simp only [and_twoPow_ne_zero_iff hw]

theorem combine_false (hw : 0 < w) (poly : BitVec w) : combine poly false = ShiftRegister.turnTop poly := by
  have hlast : w - 1 < w := Nat.sub_one_lt_of_lt hw
  funext crc
  unfold combine ShiftRegister.turnTop
  rw [if_neg Bool.false_ne_true, BitVec.msb_eq_getLsbD_last]
  simp only [and_twoPow_ne_zero_iff hlast]

theorem getD_combinations (poly : BitVec w) (reflected : Bool) {combiner : BitVec w} (h : combiner.toNat < 256)
    : (combinations poly reflected).getD combiner.toNat 0#w
        = (combine poly reflected)^[8] (if reflected then combiner else combiner <<< (w - 8)) := by
  unfold combinations
  rw [List.getD_eq_getElem?_getD, List.getElem?_map, List.getElem?_range h, Option.map_some, Option.getD_some,
    BitVec.ofNat_toNat, BitVec.setWidth_eq]

theorem toNat_setWidth_lt (byte : UInt8) : (byte.toBitVec.setWidth w).toNat < 2 ^ 8 := by
  rw [BitVec.toNat_setWidth]
  have hmod := Nat.mod_le byte.toBitVec.toNat (2 ^ w)
  have hbyte := byte.toBitVec.isLt
  omega

-- All accesses are within the table
theorem combiner_lt (crc : BitVec w) (byte : UInt8)
    : ((crc &&& 0xff#w) ^^^ byte.toBitVec.setWidth w).toNat < 256
        ∧ ((crc >>> (w - 8)) ^^^ byte.toBitVec.setWidth w).toNat < 256 := by
  rw [BitVec.toNat_xor, BitVec.toNat_xor, BitVec.toNat_and, BitVec.toNat_ushiftRight, BitVec.toNat_ofNat]
  refine ⟨?_, ?_⟩
  . apply Nat.xor_lt_two_pow _ (toNat_setWidth_lt byte)
    have hmod := Nat.mod_le 255 (2 ^ w)
    exact Nat.and_lt_two_pow _ (by omega)
  . apply Nat.xor_lt_two_pow _ (toNat_setWidth_lt byte)
    rw [Nat.shiftRight_eq_div_pow]
    apply Nat.div_lt_of_lt_mul
    rw [← Nat.pow_add]
    apply Nat.lt_of_lt_of_le crc.isLt
    apply Nat.pow_le_pow_right (by decide)
    omega

theorem consumeByte_eq (hw : 8 ≤ w) (poly crc : BitVec w) (reflected : Bool) (byte : UInt8)
    : consumeByte (combinations poly reflected) reflected crc byte = serial poly crc reflected [byte] := by
  obtain ⟨hlow, htop⟩ := combiner_lt crc byte
  have hpos : 0 < w := by omega
  unfold consumeByte serial
  cases reflected with
  | true =>
    rw [if_pos rfl, if_pos rfl]
    dsimp only
    rw [getD_combinations poly true hlow, if_pos rfl, combine_true hpos, List.map_singleton,
      ShiftRegister.crc_byte hw, BitVec.xor_comm]
  | false =>
    rw [if_neg Bool.false_ne_true, if_neg Bool.false_ne_true]
    dsimp only
    rw [getD_combinations poly false htop, if_neg Bool.false_ne_true, combine_false hpos, List.map_singleton,
      ShiftRegister.crcTop_byte hw, BitVec.xor_comm]

theorem serial_append (poly crc : BitVec w) (reflected : Bool) (data data' : List UInt8)
    : serial poly crc reflected (data ++ data') = serial poly (serial poly crc reflected data) reflected data' := by
  unfold serial
  rw [List.map_append]
  cases reflected with
  | true => exact ShiftRegister.crc_append poly crc _ _
  | false => exact ShiftRegister.crcTop_append poly crc _ _

theorem serial_nil (poly crc : BitVec w) (reflected : Bool) : serial poly crc reflected [] = crc := by
  cases reflected <;> rfl

theorem consume_eq_serial (hw : 8 ≤ w) (poly crc : BitVec w) (reflected : Bool) (data : List UInt8)
    : consume (combinations poly reflected) reflected crc data = serial poly crc reflected data := by
  induction data generalizing crc with
  | nil => rw [serial_nil]; rfl
  | cons byte data ih =>
    have hrest : consume (combinations poly reflected) reflected crc (byte :: data)
        = consume (combinations poly reflected) reflected
            (consumeByte (combinations poly reflected) reflected crc byte) data := rfl
    rw [hrest, ih, consumeByte_eq hw, ← serial_append]
    rfl

theorem foldl_consume (table : List (BitVec w)) (reflected : Bool) (crc : BitVec w) (pieces : List (List UInt8))
    : pieces.foldl (consume table reflected) crc = consume table reflected crc pieces.flatten := by
  induction pieces generalizing crc with
  | nil => rfl
  | cons piece pieces ih =>
    rw [List.foldl_cons, ih, List.flatten_cons]
    unfold consume
    rw [List.foldl_append]

theorem serial_mirror (poly crc : BitVec w) (data : List UInt8)
    : serial poly.reverse crc.reverse true data = (serial poly crc false (data.map reverseByte)).reverse := by
  have hbytes : (data.map reverseByte).map UInt8.toBitVec = (data.map UInt8.toBitVec).map BitVec.reverse := by
    rw [List.map_map, List.map_map]
    rfl
  have htwice : ((data.map UInt8.toBitVec).map BitVec.reverse).map BitVec.reverse = data.map UInt8.toBitVec := by
    rw [List.map_map]
    apply List.map_id''
    intro byte
    exact BitVec.reverse_reverse_eq
  unfold serial
  rw [if_pos rfl, if_neg Bool.false_ne_true, hbytes, ShiftRegister.crcTop_eq, htwice, BitVec.reverse_reverse_eq]

theorem serial_of_le (hw : 8 ≤ w) : Serial w where
  table := consume_eq_serial hw
  pieces poly crc reflected := foldl_consume _ reflected crc
  mirror poly crc data := by rw [consume_eq_serial hw, consume_eq_serial hw, serial_mirror]

theorem reverse_eq_of_getLsbD {x y : BitVec w} (h : ∀ i < w, x.getLsbD (w - 1 - i) = y.getLsbD i) : x.reverse = y := by
  apply BitVec.eq_of_getLsbD_eq
  intro i hi
  rw [BitVec.getLsbD_reverse, BitVec.getMsbD_eq_getLsbD, h i hi]
  simp [hi]

theorem reverse_allOnes : (BitVec.allOnes w).reverse = BitVec.allOnes w := by
  apply reverse_eq_of_getLsbD
  intro i hi
  have hin : w - 1 - i < w := by omega
  rw [BitVec.getLsbD_allOnes, BitVec.getLsbD_allOnes, decide_eq_true hin, decide_eq_true hi]

theorem reverse_flipIf (flip : Bool) (crc : BitVec w) : (flipIf flip crc).reverse = flipIf flip crc.reverse := by
  unfold flipIf
  split
  . rw [ShiftRegister.reverse_xor, reverse_allOnes]
  . rfl

-- The polynomials for the low bit first are the others reversed, and so are the starting points.
theorem CRC.reverse_poly (alg : CRC.Algorithm)
    : (CRC.poly alg false).reverse = CRC.poly alg true ∧ (CRC.start alg false).reverse = CRC.start alg true := by
  cases alg <;> exact ⟨reverse_eq_of_getLsbD (by decide), reverse_eq_of_getLsbD (by decide)⟩

theorem CRC32.reverse_poly (alg : CRC32.Algorithm) : (CRC32.poly alg false).reverse = CRC32.poly alg true := by
  cases alg <;> exact reverse_eq_of_getLsbD (by decide)

/-
Both classes for all their algorithms, and for any polynomial and value to start with.
-/
theorem crc_serial
    : Serial 16 ∧ Serial 32
      ∧ (∀ alg reflected flip data, (CRC.new alg reflected flip).calculate data
          = flipIf flip (serial (CRC.poly alg reflected) (CRC.start alg reflected) reflected data))
      ∧ (∀ alg flip data, (CRC.new alg true flip).calculate data
          = ((CRC.new alg false flip).calculate (data.map reverseByte)).reverse)
      ∧ (∀ alg reflected flip data, (CRC32.new alg reflected flip).calculate data
          = flipIf flip (serial (CRC32.poly alg reflected) 0xffffffff#32 reflected data))
      ∧ (∀ alg flip data, (CRC32.new alg true flip).calculate data
          = ((CRC32.new alg false flip).calculate (data.map reverseByte)).reverse)
      ∧ ∀ (c : CRC32) (pieces : List (List UInt8)),
          c.finalise (pieces.foldl (fun crc piece => c.consume piece crc) c.initialiser)
            = c.calculate pieces.flatten := by
  have h16 : Serial 16 := serial_of_le (by decide)
  have h32 : Serial 32 := serial_of_le (by decide)
  refine ⟨h16, h32, ?_, ?_, ?_, ?_, ?_⟩
  . intro alg reflected flip data
    exact congrArg (flipIf flip) (h16.table _ _ reflected data)
  . intro alg flip data
    obtain ⟨hpoly, hstart⟩ := CRC.reverse_poly alg
    have hmirror := h16.mirror (CRC.poly alg false) (CRC.start alg false) data
    rw [hpoly, hstart] at hmirror
    exact (congrArg (flipIf flip) hmirror).trans (reverse_flipIf flip _).symm
  . intro alg reflected flip data
    exact congrArg (flipIf flip) (h32.table _ _ reflected data)
  . intro alg flip data
    have hones : (0xffffffff#32).reverse = 0xffffffff#32 := reverse_allOnes
    have hmirror := h32.mirror (CRC32.poly alg false) 0xffffffff#32 data
    rw [CRC32.reverse_poly, hones] at hmirror
    exact (congrArg (flipIf flip) hmirror).trans (reverse_flipIf flip _).symm
  . intro c pieces
    exact congrArg c.finalise (foldl_consume c.combinations c.reflected c.initialiser pieces)

end Misc
end ObTools
