import ObTools.Channel.Block

/-!
This module contains the model of how `DNS::Resolver` finds its result in the message that comes back from the
resolver, and the proof that it never leaves the message and finds the first answer of its type.
-/

namespace ObTools
namespace DNS

open Channel (Error)
open Channel.BlockReader (readByte readNbo16 readString skipBytes)
open Gather (BlockReader)

abbrev Bytes := List UInt8

abbrev Parse (α : Type) := Decoder BlockReader Error α

/-
What the resolver has put into the buffer, its length is an `int`.
-/
structure Response where
  bytes : Bytes
  length_lt : bytes.length < 2 ^ 31

namespace Resolver

-- Skip a DNS name
def skipName : Nat → Parse Unit
  | 0 => Decoder.outOfFuel
  | fuel + 1 => do
    -- Get length / pointer
    let len ← readByte
    if len = 0 then
      return ()
    else if len &&& 0xc0 = 0xc0 then
      -- Skip second byte of pointer and stop
      skipBytes 1
    else do
      skipBytes len.toNat
      skipName fuel

variable (fuel : Nat)

def skipQuestions : Nat → Parse Unit
  | 0 => return ()
  | qdcount + 1 => do
    skipName fuel
    skipBytes 4
    skipQuestions qdcount

-- Check each answer for the right type
def findAnswer (type : UInt16) : Nat → Parse Bytes
  | 0 => return []
  | ancount + 1 => do
    skipName fuel
    let atype ← readNbo16
    skipBytes 6
    let rdlen ← readNbo16
    if atype = type then
      readString rdlen.toNat
    else do
      skipBytes rdlen.toNat
      findAnswer type ancount

def parse (type : UInt16) : Parse Bytes := do
  skipBytes 2
  let flags ← readNbo16
  if flags &&& 15 ≠ 0 then
    return []
  else do
    let qdcount ← readNbo16
    let ancount ← readNbo16
    skipBytes 4
    skipQuestions fuel qdcount.toNat
    findAnswer fuel type ancount.toNat

/-
There is no response if the lookup fails, and no result if memory outside of the response is read.
-/
def query (type : UInt16) (response : Option Response) : Option Bytes :=
  match response with
  | none => some []
  | some response =>
    match parse fuel type (.new response.bytes) with
    | none => none
    | some (.error _) => some []
    | some (.ok (rdata, _)) => some rdata

/-
The parse stays within the response, as each name that is skipped has a byte at least.
-/

section Runs

open Channel.BlockReader (Within readByte_runs readNbo16_runs readString_runs skipBytes_runs)

variable {fuel start : Nat} (response : Response)

theorem skipBytes_stays (start : Nat) {n : Nat} (hn : n < 2 ^ 16)
    : Decoder.Runs (Within response.bytes start) (Within response.bytes start) (skipBytes n) := by
  have hlt := response.length_lt
  exact (skipBytes_runs (by omega)).weaken (Within.of_le (Nat.le_add_right _ _))

theorem readNbo16_stays : Decoder.Runs (Within response.bytes 0) (Within response.bytes 0) readNbo16 := by
  have hlt := response.length_lt
  exact (readNbo16_runs (by omega)).weaken (Within.of_le (Nat.zero_le _))

theorem skipName_stays (hfuel : response.bytes.length < fuel + start)
    : Decoder.Runs (Within response.bytes start) (Within response.bytes start) (skipName fuel) := by
  have hlt := response.length_lt
  induction fuel generalizing start with
  | zero =>
    rintro r ⟨offset, hstart, hoffset, -⟩
    omega
  | succ fuel ih =>
    have hbyte := @readByte_runs response.bytes start (by omega)
    have hone (r : BlockReader) (hr : Within response.bytes (start + 1) r) : Within response.bytes start r :=
      Within.of_le (Nat.le_add_right start 1) r hr
    apply hbyte.bind
    intro len
    split
    . exact (Decoder.Runs.pure ()).weaken hone
    . split
      . exact (skipBytes_stays response (start + 1) (by decide)).weaken hone
      . have hlen : len.toNat < 2 ^ 16 := Nat.lt_trans len.toNat_lt (by decide)
        apply (skipBytes_stays response (start + 1) hlen).bind
        intro _
        exact (ih (by omega)).weaken hone

variable (hfuel : response.bytes.length < fuel)

include hfuel

theorem skipQuestions_stays (qdcount : Nat)
    : Decoder.Runs (Within response.bytes 0) (Within response.bytes 0) (skipQuestions fuel qdcount) := by
  induction qdcount with
  | zero => exact Decoder.Runs.pure ()
  | succ qdcount ih =>
    apply (skipName_stays response hfuel).bind
    intro _
    apply (skipBytes_stays response 0 (by decide)).bind
    intro _
    exact ih

theorem findAnswer_stays (type : UInt16) (ancount : Nat)
    : Decoder.Runs (Within response.bytes 0) (Within response.bytes 0) (findAnswer fuel type ancount) := by
  have hlt := response.length_lt
  induction ancount with
  | zero => exact Decoder.Runs.pure []
  | succ ancount ih =>
    apply (skipName_stays response hfuel).bind
    intro _
    apply (readNbo16_stays response).bind
    intro atype
    apply (skipBytes_stays response 0 (by decide)).bind
    intro _
    apply (readNbo16_stays response).bind
    intro rdlen
    split
    . exact (readString_runs (by omega) rdlen.toNat).weaken (Within.of_le (Nat.zero_le _))
    . apply (skipBytes_stays response 0 rdlen.toNat_lt).bind
      intro _
      exact ih

theorem parse_stays (type : UInt16)
    : Decoder.Runs (Within response.bytes 0) (Within response.bytes 0) (parse fuel type) := by
  apply (skipBytes_stays response 0 (by decide)).bind
  intro _
  apply (readNbo16_stays response).bind
  intro flags
  split
  . exact Decoder.Runs.pure []
  . apply (readNbo16_stays response).bind
    intro qdcount
    apply (readNbo16_stays response).bind
    intro ancount
    apply (skipBytes_stays response 0 (by decide)).bind
    intro _
    apply (skipQuestions_stays response hfuel qdcount.toNat).bind
    intro _
    exact findAnswer_stays response hfuel type ancount.toNat

end Runs

end Resolver

/-
The messages that a resolver sends, of which nothing is said from the authority section on.
-/
structure Label where
  bytes : Bytes
  pos : 0 < bytes.length
  le : bytes.length ≤ 63

inductive Ending where
  | root
  | pointer (first second : UInt8) (marked : first &&& 0xc0 = 0xc0)

structure Name where
  labels : List Label
  ending : Ending

structure Question where
  name : Name
  type : UInt16
  qclass : UInt16

structure Answer where
  name : Name
  type : UInt16
  rclass : UInt16
  ttl : UInt32
  rdata : Bytes
  length_lt : rdata.length < 2 ^ 16

structure Message where
  id : UInt16
  flags : UInt16
  questions : List Question
  questions_lt : questions.length < 2 ^ 16
  answers : List Answer
  answers_lt : answers.length < 2 ^ 16
  nscount : UInt16
  arcount : UInt16
  rest : Bytes

open Channel.Writer (writeNbo16 writeNbo32)

def Label.wire (label : Label) : Bytes := UInt8.ofNat label.bytes.length :: label.bytes

def Ending.wire : Ending → Bytes
  | .root => [0]
  | .pointer first second _ => [first, second]

def Name.wire (name : Name) : Bytes := name.labels.flatMap Label.wire ++ name.ending.wire

def Question.wire (q : Question) : Bytes := q.name.wire ++ (writeNbo16 q.type ++ writeNbo16 q.qclass)

def Answer.wire (a : Answer) : Bytes :=
  a.name.wire ++ (writeNbo16 a.type ++ ((writeNbo16 a.rclass ++ writeNbo32 a.ttl)
    ++ (writeNbo16 (UInt16.ofNat a.rdata.length) ++ a.rdata)))

namespace Message

def wire (m : Message) : Bytes :=
  writeNbo16 m.id ++ (writeNbo16 m.flags ++ (writeNbo16 (UInt16.ofNat m.questions.length)
    ++ (writeNbo16 (UInt16.ofNat m.answers.length) ++ ((writeNbo16 m.nscount ++ writeNbo16 m.arcount)
      ++ (m.questions.flatMap Question.wire ++ (m.answers.flatMap Answer.wire ++ m.rest))))))

def rcode (m : Message) : UInt16 := m.flags &&& 15

-- The first answer of a type
def rdata (m : Message) (type : UInt16) : Bytes :=
  match m.answers.find? (·.type = type) with
  | some a => a.rdata
  | none => []

end Message

namespace Resolver

section Reads

open Channel.BlockReader (Reads)

variable {fuel : Nat}

theorem label_length (label : Label)
    : (UInt8.ofNat label.bytes.length).toNat = label.bytes.length ∧ UInt8.ofNat label.bytes.length ≠ 0
        ∧ ¬UInt8.ofNat label.bytes.length &&& 0xc0 = 0xc0 := by
  have hall : ∀ n : Fin 64, 0 < n.val → (UInt8.ofNat n.val).toNat = n.val ∧ UInt8.ofNat n.val ≠ 0
      ∧ ¬UInt8.ofNat n.val &&& 0xc0 = 0xc0 := by
    decide
  exact hall ⟨label.bytes.length, Nat.lt_succ_of_le label.le⟩ label.pos

theorem ending_reads (ending : Ending) (fuel : Nat) : Reads (skipName (fuel + 1)) ending.wire () := by
  cases ending with
  | root => exact (Reads.readByte 0).bind (Reads.pure ())
  | pointer first second marked =>
    refine (Reads.readByte first).bind ?_
    have hne : first ≠ 0 := by
      rintro rfl
      contradiction
    rw [if_neg hne, if_pos marked]
    exact Reads.skipBytes [second]

theorem skipName_reads (name : Name) (hfuel : name.wire.length ≤ fuel) : Reads (skipName fuel) name.wire () := by
  obtain ⟨labels, ending⟩ := name
  unfold Name.wire at *
  dsimp only at *
  induction labels generalizing fuel with
  | nil =>
    cases fuel with
    | zero => cases ending <;> contradiction
    | succ fuel => exact ending_reads ending fuel
  | cons label labels ih =>
    have hpos : 0 < label.wire.length := Nat.succ_pos _
    rw [List.flatMap_cons, List.append_assoc, List.length_append] at hfuel
    rw [List.flatMap_cons, List.append_assoc]
    cases fuel with
    | zero => omega
    | succ fuel =>
      obtain ⟨hlength, hne, hplain⟩ := label_length label
      have hread := ih (by omega : _ ≤ fuel)
      have hsplit : label.wire ++ (labels.flatMap Label.wire ++ ending.wire)
          = [UInt8.ofNat label.bytes.length] ++ (label.bytes ++ (labels.flatMap Label.wire ++ ending.wire)) := rfl
      rw [hsplit]
      refine (Reads.readByte _).bind ?_
      rw [if_neg hne, if_neg hplain, hlength]
      exact (Reads.skipBytes label.bytes).bind hread

theorem skipQuestions_reads (questions : List Question) (hfuel : (questions.flatMap Question.wire).length ≤ fuel)
    : Reads (skipQuestions fuel questions.length) (questions.flatMap Question.wire) () := by
  induction questions with
  | nil => exact Reads.pure ()
  | cons q questions ih =>
    rw [List.flatMap_cons, List.length_append, Question.wire, List.length_append] at hfuel
    rw [List.flatMap_cons, Question.wire, List.append_assoc]
    refine (skipName_reads q.name (by omega)).bind ?_
    exact (Reads.skipBytes (writeNbo16 q.type ++ writeNbo16 q.qclass)).bind (ih (by omega))

-- It does not look at what is behind an answer of the type
theorem findAnswer_reads (type : UInt16) (answers : List Answer) (hfuel : (answers.flatMap Answer.wire).length ≤ fuel)
    : ∃ wire rest, answers.flatMap Answer.wire = wire ++ rest
        ∧ Reads (findAnswer fuel type answers.length) wire
            (match answers.find? (·.type = type) with
              | some a => a.rdata
              | none => []) := by
  induction answers with
  | nil => exact ⟨[], [], rfl, Reads.pure []⟩
  | cons a answers ih =>
    rw [List.flatMap_cons, List.length_append, Answer.wire, List.length_append] at hfuel
    obtain ⟨wire, rest, heq, hread⟩ := ih (by omega)
    have hname := skipName_reads a.name (by omega : a.name.wire.length ≤ fuel)
    have hlength : (UInt16.ofNat a.rdata.length).toNat = a.rdata.length := UInt16.toNat_ofNat_of_lt a.length_lt
    rw [List.flatMap_cons, Answer.wire, List.length_cons]
    by_cases htype : a.type = type
    . refine ⟨_, answers.flatMap Answer.wire, rfl, ?_⟩
      rw [List.find?_cons_of_pos (by simpa using htype)]
      refine hname.bind ((Reads.readNbo16 a.type).bind ?_)
      refine (Reads.skipBytes (writeNbo16 a.rclass ++ writeNbo32 a.ttl)).bind ((Reads.readNbo16 _).bind ?_)
      rw [if_pos htype, hlength]
      exact Reads.readString a.rdata
    . refine ⟨a.name.wire ++ (writeNbo16 a.type ++ ((writeNbo16 a.rclass ++ writeNbo32 a.ttl)
        ++ (writeNbo16 (UInt16.ofNat a.rdata.length) ++ (a.rdata ++ wire)))), rest, ?_, ?_⟩
      . rw [heq]
        simp only [List.append_assoc]
      . rw [List.find?_cons_of_neg (by simpa using htype)]
        refine hname.bind ((Reads.readNbo16 a.type).bind ?_)
        refine (Reads.skipBytes (writeNbo16 a.rclass ++ writeNbo32 a.ttl)).bind ((Reads.readNbo16 _).bind ?_)
        rw [if_neg htype, hlength]
        exact (Reads.skipBytes a.rdata).bind hread

theorem parse_reads (type : UInt16) (m : Message) (hrcode : m.rcode = 0) (hfuel : m.wire.length ≤ fuel)
    : ∃ wire rest, m.wire = wire ++ rest ∧ Reads (parse fuel type) wire (m.rdata type) := by
  have hparts := hfuel
  unfold Message.wire at hparts
  simp only [List.length_append] at hparts
  obtain ⟨wire, rest, heq, hread⟩ := findAnswer_reads type m.answers (by omega : _ ≤ fuel)
  have hquestions : (UInt16.ofNat m.questions.length).toNat = m.questions.length :=
    UInt16.toNat_ofNat_of_lt m.questions_lt
  have hanswers : (UInt16.ofNat m.answers.length).toNat = m.answers.length := UInt16.toNat_ofNat_of_lt m.answers_lt
  refine ⟨writeNbo16 m.id ++ (writeNbo16 m.flags ++ (writeNbo16 (UInt16.ofNat m.questions.length)
    ++ (writeNbo16 (UInt16.ofNat m.answers.length) ++ ((writeNbo16 m.nscount ++ writeNbo16 m.arcount)
      ++ (m.questions.flatMap Question.wire ++ wire))))), rest ++ m.rest, ?_, ?_⟩
  . unfold Message.wire
    rw [heq]
    simp only [List.append_assoc]
  . refine (Reads.skipBytes (writeNbo16 m.id)).bind ((Reads.readNbo16 m.flags).bind ?_)
    have hplain : ¬(m.flags &&& 15 ≠ 0) := not_not_intro hrcode
    rw [if_neg hplain]
    refine (Reads.readNbo16 _).bind ((Reads.readNbo16 _).bind ?_)
    rw [hquestions, hanswers]
    refine (Reads.skipBytes (writeNbo16 m.nscount ++ writeNbo16 m.arcount)).bind ?_
    exact (skipQuestions_reads m.questions (by omega)).bind hread

end Reads

-- A question and an answer whose name is that of the question
def sampleMessage : Message where
  id := 1
  flags := 0x8180
  questions :=
    [{ name := { labels := [{ bytes := [97], pos := by decide, le := by decide }], ending := .root }
       type := 16
       qclass := 1 }]
  questions_lt := by decide
  answers :=
    [{ name := { labels := [], ending := .pointer 0xc0 12 (by decide) }
       type := 16
       rclass := 1
       ttl := 60
       rdata := [1, 120]
       length_lt := by decide }]
  answers_lt := by decide
  nscount := 0
  arcount := 0
  rest := []

end Resolver

end DNS
end ObTools
