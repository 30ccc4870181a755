import ObTools.Text.Convert

/-!
This module contains the model of the filter that suppresses repeated log messages, and the proof that no message is
lost by it: each is passed on, or is one of those that a report counts, or is still held.
-/

namespace ObTools
namespace Log

abbrev Bytes := List UInt8

structure Message (Stamp : Type) where
  level : Int32
  timestamp : Stamp
  text : Bytes
deriving DecidableEq

def reportText (repeats : Int32) : Bytes :=
  40 :: (Text.itos repeats ++ " identical messages suppressed)".toList.map Char.toUInt8)

/-
The filter, where `withinHoldTime now last` is whether the difference of the timestamps, as a `double`, is less than the
hold time.
-/
structure RepeatedMessageFilter (Stamp : Type) where
  withinHoldTime : Stamp → Stamp → Bool
  lastMsg : Message Stamp
  repeats : Int32
  lastRepeatTimestamp : Stamp

namespace RepeatedMessageFilter

variable {Stamp : Type}

-- With default messages and timestamps
def new (zero : Stamp) (withinHoldTime : Stamp → Stamp → Bool) : RepeatedMessageFilter Stamp where
  withinHoldTime := withinHoldTime
  lastMsg := { level := 0, timestamp := zero, text := [] }
  repeats := 0
  lastRepeatTimestamp := zero

-- What is sent for the repeats, as a message with the level comes
def report (filter : RepeatedMessageFilter Stamp) (level : Int32) : List (Message Stamp) :=
  if 1 < filter.repeats then
    [{ level := level, timestamp := filter.lastRepeatTimestamp, text := reportText filter.repeats }]
  else if filter.repeats = 1 then
    -- Just re-output the last message, with timestamp fixed
    [{ level := filter.lastMsg.level, timestamp := filter.lastRepeatTimestamp, text := filter.lastMsg.text }]
  else
    []

-- The messages that go to the next channel
def log (filter : RepeatedMessageFilter Stamp) (msg : Message Stamp)
    : RepeatedMessageFilter Stamp × List (Message Stamp) :=
  let same := msg.text = filter.lastMsg.text
  let withinHoldTime := filter.withinHoldTime msg.timestamp filter.lastMsg.timestamp
  let filter :=
    if same then { filter with repeats := filter.repeats + 1, lastRepeatTimestamp := msg.timestamp } else filter
  if ¬same ∨ ¬withinHoldTime then
    ({ filter with lastMsg := msg, repeats := if 1 ≤ filter.repeats then 0 else filter.repeats },
      filter.report msg.level ++ if same then [] else [msg])
  else
    (filter, [])

def logAll (filter : RepeatedMessageFilter Stamp) : List (Message Stamp)
    → RepeatedMessageFilter Stamp × List (Message Stamp)
  | [] => (filter, [])
  | msg :: msgs =>
    let r := filter.log msg
    let rs := logAll r.1 msgs
    (rs.1, r.2 ++ rs.2)

end RepeatedMessageFilter

/-
What becomes of the messages: one is passed on, or those of the same text as the one before are reported.
-/
inductive Segment (Stamp : Type) where
  | passed (msg : Message Stamp)
  | reported (msgs : List (Message Stamp)) (report : Message Stamp)

namespace Segment

variable {Stamp : Type}

def received : Segment Stamp → List (Message Stamp)
  | passed msg => [msg]
  | reported msgs _ => msgs

def sent : Segment Stamp → Message Stamp
  | passed msg => msg
  | reported _ report => report

-- The text of the last message, behind one with the given text
def lastText : Bytes → List (Segment Stamp) → Bytes
  | text, [] => text
  | _, passed msg :: segments => lastText msg.text segments
  | text, reported _ _ :: segments => lastText text segments

-- A report is that of a single message, or counts the messages. It has the timestamp of the last of them
def Reports (text : Bytes) (msgs : List (Message Stamp)) (report : Message Stamp) : Prop :=
  (∀ msg ∈ msgs, msg.text = text)
    ∧ (∃ last, msgs.getLast? = some last ∧ report.timestamp = last.timestamp)
    ∧ report.text = if msgs.length = 1 then text else reportText (Int32.ofNat msgs.length)

def Follows : Bytes → List (Segment Stamp) → Prop
  | _, [] => True
  | text, passed msg :: segments => msg.text ≠ text ∧ Follows msg.text segments
  | text, reported msgs report :: segments => Reports text msgs report ∧ Follows text segments

end Segment

namespace Segment

variable {Stamp : Type} {text : Bytes} {first second : List (Segment Stamp)}

theorem lastText_append (text : Bytes) (first second : List (Segment Stamp))
    : lastText text (first ++ second) = lastText (lastText text first) second := by
  induction first generalizing text with
  | nil => rfl
  | cons segment first ih =>
    cases segment with
    | passed msg => exact ih msg.text
    | reported msgs report => exact ih text

theorem Follows.append (hfirst : Follows text first) (hsecond : Follows (lastText text first) second)
    : Follows text (first ++ second) := by
  induction first generalizing text with
  | nil => exact hsecond
  | cons segment first ih =>
    cases segment with
    | passed msg => exact ⟨hfirst.1, ih hfirst.2 hsecond⟩
    | reported msgs report => exact ⟨hfirst.1, ih hfirst.2 hsecond⟩

end Segment

/-
The messages that are counted, and those that are held: they came within the hold time of the last one.
-/
structure Counted {Stamp : Type} (filter : RepeatedMessageFilter Stamp) (msgs : List (Message Stamp)) : Prop where
  length : msgs.length < 2 ^ 31
  repeats : filter.repeats = Int32.ofNat msgs.length
  text : ∀ msg ∈ msgs, msg.text = filter.lastMsg.text
  timestamp : ∀ msg ∈ msgs.getLast?, filter.lastRepeatTimestamp = msg.timestamp

structure Held {Stamp : Type} (filter : RepeatedMessageFilter Stamp) (msgs : List (Message Stamp)) : Prop
    extends Counted filter msgs where
  within : ∀ msg ∈ msgs, filter.withinHoldTime msg.timestamp filter.lastMsg.timestamp = true

namespace RepeatedMessageFilter

open Segment

variable {Stamp : Type} {filter : RepeatedMessageFilter Stamp} {held msgs : List (Message Stamp)} {msg : Message Stamp}
  {n : Nat}

theorem held_nil (hrepeats : filter.repeats = 0) : Held filter [] where
  length := Nat.two_pow_pos 31
  repeats := hrepeats
  text := List.forall_mem_nil _
  timestamp := nofun
  within := List.forall_mem_nil _

theorem one_lt_ofNat_iff (h : n < 2 ^ 31) : 1 < Int32.ofNat n ↔ 1 < n := by
  rw [Int32.lt_iff_toInt_lt, Int32.toInt_ofNat_of_lt h, Int32.toInt_one]
  omega

theorem one_le_ofNat_iff (h : n < 2 ^ 31) : 1 ≤ Int32.ofNat n ↔ 1 ≤ n := by
  rw [Int32.le_iff_toInt_le, Int32.toInt_ofNat_of_lt h, Int32.toInt_one]
  omega

theorem ofNat_eq_one_iff (h : n < 2 ^ 31) : Int32.ofNat n = 1 ↔ n = 1 := by
  rw [← Int32.toInt_inj, Int32.toInt_ofNat_of_lt h, Int32.toInt_one]
  omega

/--
Nothing is sent for no messages, and else their report.
-/
theorem exists_report (h : Counted filter msgs) (level : Int32)
    : ∃ segments, msgs = segments.flatMap received ∧ filter.report level = segments.map sent
        ∧ Follows filter.lastMsg.text segments ∧ lastText filter.lastMsg.text segments = filter.lastMsg.text := by
  unfold report
  have hlt := one_lt_ofNat_iff h.length
  have hone := ofNat_eq_one_iff h.length
  rw [h.repeats]
  by_cases hnil : msgs = []
  . refine ⟨[], hnil, ?_, trivial, rfl⟩
    rw [hnil]
    rfl
  . obtain ⟨last, hlast⟩ := Option.ne_none_iff_exists'.mp (mt List.getLast?_eq_none_iff.mp hnil)
    have hpos : 0 < msgs.length := List.length_pos_iff.mpr hnil
    have htimestamp := h.timestamp last hlast
    by_cases hsingle : msgs.length = 1
    . rw [if_neg (by rw [hlt]; omega), if_pos (hone.mpr hsingle)]
      refine ⟨[.reported msgs _], (List.append_nil _).symm, rfl, ⟨⟨h.text, ⟨last, hlast, htimestamp⟩, ?_⟩, trivial⟩,
        rfl⟩
      rw [if_pos hsingle]
    . rw [if_pos (by rw [hlt]; omega)]
      refine ⟨[.reported msgs _], (List.append_nil _).symm, rfl, ⟨⟨h.text, ⟨last, hlast, htimestamp⟩, ?_⟩, trivial⟩,
        rfl⟩
      rw [if_neg hsingle]

theorem repeats_eq_zero (h : Counted filter msgs)
    : (if 1 ≤ filter.repeats then 0 else filter.repeats) = 0 := by
  have hle := one_le_ofNat_iff h.length
  rw [h.repeats]
  by_cases hnil : 1 ≤ msgs.length
  . rw [if_pos (hle.mpr hnil)]
  . have hzero : msgs.length = 0 := by omega
    rw [hzero]
    rfl

theorem log_spec (h : Held filter held) (hlength : held.length + 1 < 2 ^ 31) (msg : Message Stamp)
    : ∃ segments held', held ++ [msg] = segments.flatMap received ++ held'
        ∧ (filter.log msg).2 = segments.map sent
        ∧ Follows filter.lastMsg.text segments
        ∧ (filter.log msg).1.lastMsg.text = lastText filter.lastMsg.text segments
        ∧ Held (filter.log msg).1 held' := by
  unfold log
  dsimp only
  by_cases hsame : msg.text = filter.lastMsg.text
  . have hcounted : Counted { filter with repeats := filter.repeats + 1, lastRepeatTimestamp := msg.timestamp }
        (held ++ [msg]) := by
      refine ⟨by simpa using hlength, ?_, ?_, ?_⟩
      . rw [List.length_append, Int32.ofNat_add, ← h.repeats]
        rfl
      . intro m hm
        rcases List.mem_append.mp hm with hm | hm
        . exact h.text m hm
        . rw [List.mem_singleton.mp hm]
          exact hsame
      . intro m hm
        rw [List.getLast?_append_of_ne_nil _ (List.cons_ne_nil msg [])] at hm
        cases hm
        rfl
    simp only [hsame, if_true, not_true, false_or]
    by_cases hwithin : filter.withinHoldTime msg.timestamp filter.lastMsg.timestamp = true
    . rw [if_neg (by simpa using hwithin)]
      refine ⟨[], held ++ [msg], rfl, rfl, trivial, rfl, { hcounted with within := ?_ }⟩
      intro m hm
      rcases List.mem_append.mp hm with hm | hm
      . exact h.within m hm
      . rw [List.mem_singleton.mp hm]
        exact hwithin
    . rw [if_pos (by simpa using hwithin)]
      obtain ⟨segments, hreceived, hsent, hfollows, htext⟩ := exists_report hcounted msg.level
      refine ⟨segments, [], ?_, ?_, hfollows, ?_, held_nil ?_⟩
      . rw [List.append_nil, hreceived]
      . rw [List.append_nil]
        exact hsent
      . exact hsame.trans htext.symm
      . have hzero := repeats_eq_zero hcounted
        dsimp only at hzero ⊢
        exact hzero
  . have hcounted := h.toCounted
    obtain ⟨segments, hreceived, hsent, hfollows, htext⟩ := exists_report hcounted msg.level
    simp only [hsame, if_false, not_false_eq_true, true_or, if_true]
    have hpassed : Follows (lastText filter.lastMsg.text segments) [.passed msg] := by
      rw [htext]
      exact ⟨hsame, trivial⟩
    refine ⟨segments ++ [.passed msg], [], ?_, ?_, hfollows.append hpassed, ?_, held_nil ?_⟩
    . rw [List.append_nil, List.flatMap_append, ← hreceived]
      rfl
    . rw [hsent, List.map_append]
      rfl
    . rw [lastText_append]
      rfl
    . have hzero := repeats_eq_zero hcounted
      dsimp only at hzero ⊢
      exact hzero

theorem logAll_of_held (msgs : List (Message Stamp)) (h : Held filter held)
    (hlength : held.length + msgs.length < 2 ^ 31)
    : ∃ segments held', held ++ msgs = segments.flatMap received ++ held'
        ∧ (filter.logAll msgs).2 = segments.map sent
        ∧ Follows filter.lastMsg.text segments
        ∧ (filter.logAll msgs).1.lastMsg.text = lastText filter.lastMsg.text segments
        ∧ Held (filter.logAll msgs).1 held' := by
  induction msgs generalizing filter held with
  | nil => exact ⟨[], held, List.append_nil held, rfl, trivial, rfl, h⟩
  | cons msg msgs ih =>
    rw [List.length_cons] at hlength
    obtain ⟨segments, held', hreceived, hsent, hfollows, htext, hheld⟩ := log_spec h (by omega) msg
    have hle : held'.length ≤ held.length + 1 := by
      have := congrArg List.length hreceived
      simp only [List.length_append, List.length_singleton] at this
      omega
    obtain ⟨more, held'', hreceived', hsent', hfollows', htext', hheld'⟩ := ih hheld (by omega)
    rw [htext] at hfollows' htext'
    refine ⟨segments ++ more, held'', ?_, ?_, hfollows.append hfollows', ?_, hheld'⟩
    . rw [List.append_cons, hreceived, List.append_assoc, hreceived', List.flatMap_append, List.append_assoc]
    . unfold logAll
      dsimp only
      rw [hsent, hsent', List.map_append]
    . rw [lastText_append]
      exact htext'

/--
Whatever is logged, each message is passed on or counted by one report, in order, or else it is one of those with the
last text that are still held.
-/
theorem logAll_spec (zero : Stamp) (withinHoldTime : Stamp → Stamp → Bool) (msgs : List (Message Stamp))
    (h : msgs.length < 2 ^ 31)
    : ∃ segments held, msgs = segments.flatMap received ++ held
        ∧ ((new zero withinHoldTime).logAll msgs).2 = segments.map sent
        ∧ Follows [] segments
        ∧ (∀ msg ∈ held, msg.text = lastText [] segments)
        ∧ Held ((new zero withinHoldTime).logAll msgs).1 held := by
  have hnew : Held (new zero withinHoldTime) [] := held_nil rfl
  obtain ⟨segments, held, hreceived, hsent, hfollows, htext, hheld⟩ := logAll_of_held msgs hnew (by simpa using h)
  exact ⟨segments, held, hreceived, hsent, hfollows, fun msg hmsg => (hheld.text msg hmsg).trans htext, hheld⟩

-- The third message is too late to be held, and is counted with the second
theorem logAll_spec_late
    : ∃ segments held,
        [⟨2, 0, [97]⟩, ⟨2, 1, [97]⟩, ⟨2, 20, [97]⟩, ⟨1, 21, [98]⟩]
            = segments.flatMap received ++ held
          ∧ ((new 0 fun now last : Nat => now - last < 10).logAll
              [⟨2, 0, [97]⟩, ⟨2, 1, [97]⟩, ⟨2, 20, [97]⟩, ⟨1, 21, [98]⟩]).2 = segments.map sent
          ∧ Follows [] segments
          ∧ (∀ msg ∈ held, msg.text = lastText [] segments)
          ∧ Held ((new 0 fun now last : Nat => now - last < 10).logAll
              [⟨2, 0, [97]⟩, ⟨2, 1, [97]⟩, ⟨2, 20, [97]⟩, ⟨1, 21, [98]⟩]).1 held :=
  logAll_spec 0 (fun now last : Nat => now - last < 10) [⟨2, 0, [97]⟩, ⟨2, 1, [97]⟩, ⟨2, 20, [97]⟩, ⟨1, 21, [98]⟩]
    (by decide)

end RepeatedMessageFilter
end Log
end ObTools
