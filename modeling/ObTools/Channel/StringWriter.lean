import ObTools.Channel.Reader

/-!
This module contains the model of `Channel::StringWriter`, and what a rewind leaves of the string.
-/

namespace ObTools
namespace Channel

/-
The string is the caller's own, there may be something in it before anything is written.
-/
structure StringWriter where
  data : List UInt8
  offset : Nat
deriving Repr, DecidableEq

namespace StringWriter

inductive Exception where
  | error (e : Error)
  -- `std::length_error` of a string that would be too long
  | lengthError
deriving DecidableEq, Repr

-- `max_size()` of a string
def maxSize : Nat := 2 ^ 63 - 1

def new (data : List UInt8) : StringWriter := { data, offset := 0 }

def append (w : StringWriter) (bytes : List UInt8) : Except Exception StringWriter :=
  if w.data.length + bytes.length ≤ maxSize then
    .ok { data := w.data ++ bytes, offset := (w.offset + bytes.length) % 2 ^ 64 }
  else
    .error .lengthError

def basicWrite (w : StringWriter) (bytes : List UInt8) : Except Exception StringWriter := w.append bytes

def skip (w : StringWriter) (n : Nat) : Except Exception StringWriter := w.append (List.replicate n 0)

def rewind (w : StringWriter) (n : Nat) : Except Exception StringWriter :=
  if n ≤ w.offset then
    -- Truncate to offset
    .ok { data := w.data.take (w.offset - n), offset := w.offset - n }
  else
    .error (.error { error := 1, text := "Rewound too far" })

inductive Call where
  | basicWrite (bytes : List UInt8)
  | skip (n : UInt64)

def Call.bytes : Call → List UInt8
  | .basicWrite bytes => bytes
  | .skip n => List.replicate n.toNat 0

def apply (w : StringWriter) : Call → Except Exception StringWriter
  | .basicWrite bytes => w.basicWrite bytes
  | .skip n => w.skip n.toNat

def run (w : StringWriter) (calls : List Call) : Except Exception StringWriter :=
  calls.foldlM apply w

def written (calls : List Call) : List UInt8 := calls.flatMap Call.bytes

/-
The offset only counts what has been written.
-/
structure After (initial bytes : List UInt8) (w : StringWriter) : Prop where
  data : w.data = initial ++ bytes
  offset : w.offset = bytes.length
  length_le : bytes.length ≤ maxSize

variable {initial bytes : List UInt8} {w w' : StringWriter} {call : Call} {calls : List Call} {r : Nat}

theorem after_new (initial : List UInt8) : After initial [] (new initial) :=
  ⟨(List.append_nil initial).symm, rfl, Nat.zero_le _⟩

theorem After.append {more : List UInt8} (h : After initial bytes w) (happend : w.append more = .ok w')
    : After initial (bytes ++ more) w' := by
  unfold StringWriter.append at happend
  split at happend
  . next hle =>
    rw [h.data, List.length_append] at hle
    have hlength : (bytes ++ more).length ≤ maxSize := by
      rw [List.length_append]
      omega
    have hlt : (bytes ++ more).length < 2 ^ 64 := Nat.lt_of_le_of_lt hlength (by decide)
    cases happend
    constructor
    . dsimp only
      rw [h.data, List.append_assoc]
    . dsimp only
      rw [h.offset, ← List.length_append, Nat.mod_eq_of_lt hlt]
    . exact hlength
  . contradiction

theorem After.apply (h : After initial bytes w) (happly : w.apply call = .ok w')
    : After initial (bytes ++ call.bytes) w' := by
  cases call with
  | basicWrite more => exact h.append happly
  | skip n => exact h.append happly

theorem After.run (h : After initial bytes w) (hrun : w.run calls = .ok w')
    : After initial (bytes ++ written calls) w' := by
  induction calls generalizing w bytes with
  | nil =>
    cases hrun
    unfold written
    rw [List.flatMap_nil, List.append_nil]
    exact h
  | cons call calls ih =>
    unfold StringWriter.run at hrun
    rw [List.foldlM_cons] at hrun
    cases happly : w.apply call with
    | error e =>
      rw [happly] at hrun
      contradiction
    | ok next =>
      rw [happly] at hrun
      unfold written
      rw [List.flatMap_cons, ← List.append_assoc]
      exact ih (h.apply happly) hrun

theorem After.rewind (h : After initial bytes w) (hr : r ≤ bytes.length)
    : w.rewind r = .ok { data := (initial ++ bytes).take (bytes.length - r), offset := bytes.length - r } := by
  unfold StringWriter.rewind
  rw [h.offset, h.data, if_pos hr]

/--
A rewind undoes what has been written if and only if the string has been empty before. Otherwise the
length of what was in it is missing at the end, already with nothing to rewind.
-/
theorem rewind_iff (hrun : (new initial).run calls = .ok w) (hr : r ≤ (written calls).length)
    : w.rewind r
        = .ok
            { data := initial ++ (written calls).take ((written calls).length - r),
              offset := (written calls).length - r }
        ↔
      initial = [] := by
  have hafter : After initial (written calls) w := (after_new initial).run hrun
  rw [hafter.rewind hr]
  constructor
  . intro heq
    have hdata := congrArg List.length (congrArg StringWriter.data (Except.ok.inj heq))
    dsimp only at hdata
    rw [List.length_take, List.length_append, List.length_append, List.length_take] at hdata
    rw [← List.length_eq_zero_iff]
    omega
  . intro hnil
    rw [hnil, List.nil_append, List.nil_append]

theorem rewind_iff_two
    : (⟨[97, 0], 2⟩ : StringWriter).rewind 1 = .ok { data := [97], offset := 1 } ↔ ([] : List UInt8) = [] := by
  have hrun : (new []).run [.basicWrite [97], .skip 1] = .ok ⟨[97, 0], 2⟩ := by decide
  exact rewind_iff hrun (by decide : 1 ≤ 2)

/--
With something in the string, the rewind of nothing takes away what was written.
-/
theorem not_rewind
    : (new [120]).run [.basicWrite [97]] = .ok { data := [120, 97], offset := 1 }
        ∧
      (⟨[120, 97], 1⟩ : StringWriter).rewind 0 = .ok { data := [120], offset := 1 } := by
  decide

end StringWriter
end Channel
end ObTools
