import ObTools.Text.Convert
import ObTools.Web.HTTPMessage
import ObTools.Web.MIMEHeadersLemmas

/-!
This module contains the proof of which messages delimit themselves on a stream.
-/

namespace ObTools
namespace Web

open ObTools.Lex (chars)
open MIMEHeaders (IsHeader writeHeader)

namespace HTTPMessage

-- What a first line is for
inductive StartLine where
  | request (method url version : List UInt8)
  | response (version : List UInt8) (code : Int32) (reason : List UInt8)
deriving DecidableEq, Repr

def startLine (m : HTTPMessage) : StartLine :=
  if m.method ≠ [] then .request m.method m.url m.version else .response m.version m.code m.reason

-- The first line, without its end
def StartLine.text : StartLine → List UInt8
  | request method url version => method ++ 32 :: (url ++ 32 :: version)
  | response version code reason => version ++ 32 :: (showInt code ++ 32 :: reason)

def StartLine.WellFormed : StartLine → Prop
  | request method url version =>
    method ≠ [] ∧ 47 ∉ method ∧ 32 ∉ method ∧ method.head? ≠ some 36 ∧ 32 ∉ url
      ∧ IsLine method ∧ IsLine url ∧ IsLine version
  | response version _ reason =>
    47 ∈ version ∧ 32 ∉ version ∧ version.head? ≠ some 36 ∧ IsLine version ∧ IsLine reason

/-
A message that can be written, with headers that are not about the body.
-/
structure Canonical (m : HTTPMessage) : Prop where
  start : m.startLine.WellFormed
  start_lt : m.startLine.text.length < MAX_FIRST_LINE
  header : ∀ e ∈ m.headers.xml, IsHeader e
  noLength : ∀ e ∈ m.headers.xml, e.1 ≠ chars "content-length" ∧ e.1 ≠ chars "transfer-encoding"
  body_lt : m.body.length < 2 ^ 31

-- The header that the writer adds
def lengthHeader (m : HTTPMessage) : List UInt8 × List UInt8 :=
  (chars "content-length", Digits.toBytes 10 m.body.length)

structure Recovers (r m : HTTPMessage) : Prop where
  start : r.startLine = m.startLine
  headers : r.headers.xml = m.lengthHeader :: m.headers.xml
  body : r.body = m.body

-- The messages that are read until there is nothing more or that are allowed to
def OpenEnded (m : HTTPMessage) : Prop := m.body = [] ∧ (m.method = [] ∨ m.method = chars "POST")

instance (m : HTTPMessage) : Decidable m.OpenEnded := inferInstanceAs (Decidable (_ ∧ _))

-- One after another
def readMessages (m : HTTPMessage) (readToEof : Bool) : Nat → List UInt8 → Option (List HTTPMessage × List UInt8)
  | 0, input => some ([], input)
  | n + 1, input => do
    let (r, input) ← m.read input readToEof
    let (rs, input) ← readMessages m readToEof n input
    some (r :: rs, input)

section ReadBody

theorem wanted_spec {length count : Int} (hlength : length ≠ 0) (h : count < length)
    : 0 < wanted length count ∧ (wanted length count : Int) ≤ length - count := by
  refine ⟨wanted_pos (Or.inr h), ?_⟩
  unfold wanted
  split
  . omega
  . omega

theorem readBody_counted {length count : Int} {body b rest : List UInt8} (hlength : length ≠ 0)
    (hb : length - count = b.length)
    : readBody length count body (b ++ rest) = (body ++ b, rest) := by
  induction hn : b.length using Nat.strongRecOn generalizing count body b with
  | ind n ih =>
    by_cases hlt : count < length
    . obtain ⟨hpos, hle⟩ := wanted_spec hlength hlt
      have hw : wanted length count ≤ b.length := by omega
      have hinput : ¬((b ++ rest).length < wanted length count) := by
        rw [List.length_append]
        omega
      have hdrop : (b.drop (wanted length count)).length = b.length - wanted length count := List.length_drop
      rw [readBody, if_pos (Or.inr hlt), if_neg hinput, List.take_append_of_le_length hw,
        List.drop_append_of_le_length hw, ih (b.length - wanted length count) (by omega) (by omega) hdrop,
        List.append_assoc, List.take_append_drop]
    . have hnil : b = [] := List.eq_nil_of_length_eq_zero (by omega)
      rw [readBody, if_neg (by omega), hnil, List.nil_append, List.append_nil]

theorem readBody_toEof (count : Int) (body input : List UInt8) : readBody 0 count body input = (body ++ input, []) := by
  induction count, body, input using readBody.induct 0 with
  | case1 count body input h hlt => rw [readBody, if_pos h, if_pos hlt]
  | case2 count body input h hle ih =>
    rw [readBody, if_pos h, if_neg hle, ih, List.append_assoc, List.take_append_drop]
  | case3 count body input h => exact absurd (Or.inl rfl) h

end ReadBody

theorem splitWord_append {word : List UInt8} (h : 32 ∉ word) (rest : List UInt8)
    : splitWord (word ++ 32 :: rest) = some (word, rest) := by
  obtain ⟨hword, hrest⟩ := Delimiter.takeWhile_ne h rest
  have hmem : 32 ∈ word ++ 32 :: rest := List.mem_append_right _ List.mem_cons_self
  unfold splitWord
  rw [if_pos hmem, hword, hrest]
  rfl

theorem atoi_showInt (i : Int32) : Text.atoi (showInt i) = i := by
  have hle := i.le_toInt
  have hlt := i.toInt_lt
  have hdigits : ∀ c ∈ Digits.toBytes 10 i.toInt.natAbs, Digits.isDigit 10 c = true := by
    intro c hc
    exact Digits.isDigit_of_mem_toBytes (by decide) (by decide) hc
  have hall : (Digits.toBytes 10 i.toInt.natAbs).takeWhile (Digits.isDigit 10) = Digits.toBytes 10 i.toInt.natAbs :=
    List.takeWhile_eq_self_iff.mpr hdigits
  unfold showInt
  split
  . next hneg =>
    have hneg : i.toInt < 0 := by simpa using Int32.lt_iff_toInt_lt.mp hneg
    unfold Text.atoi
    have hsign : Text.scanSign ((45 :: Digits.toBytes 10 i.toInt.natAbs).dropWhile Text.isSpace)
        = (true, Digits.toBytes 10 i.toInt.natAbs) := rfl
    rw [hsign]
    dsimp only
    rw [hall, Digits.ofBytes_toBytes (by decide) (by decide), if_pos rfl]
    have hvalue : max (-((i.toInt.natAbs : Nat) : Int)) (-2 ^ 63) = i.toInt := by omega
    rw [hvalue, Int32.ofInt_toInt]
  . next hpos =>
    have hpos : ¬(i.toInt < 0) := by
      intro hneg
      exact hpos (Int32.lt_iff_toInt_lt.mpr (by simpa using hneg))
    have hstoi := Text.stoi_decimal i.toInt.natAbs
    unfold Text.stoi at hstoi
    have hvalue : min ((i.toInt.natAbs : Nat) : Int) (2 ^ 63 - 1) = i.toInt := by omega
    rw [hstoi, hvalue, Int32.ofInt_toInt]

section Start

variable {start : StartLine} {m : HTTPMessage}

theorem showInt_spec (i : Int32) : IsLine (showInt i) ∧ 32 ∉ showInt i := by
  have hdigits : ∀ c ∈ Digits.toBytes 10 i.toInt.natAbs, c ≠ 13 ∧ c ≠ 10 ∧ c ≠ 32 := by
    intro c hc
    have hdigit : Digits.isDigit 10 c = true := Digits.isDigit_of_mem_toBytes (by decide) (by decide) hc
    refine ⟨?_, ?_, ?_⟩
    . rintro rfl
      exact absurd hdigit (by decide)
    . rintro rfl
      exact absurd hdigit (by decide)
    . rintro rfl
      exact absurd hdigit (by decide)
  have hall : ∀ c ∈ showInt i, c ≠ 13 ∧ c ≠ 10 ∧ c ≠ 32 := by
    unfold showInt
    split
    . exact List.forall_mem_cons.mpr ⟨by decide, hdigits⟩
    . exact hdigits
  exact ⟨fun c hc => ⟨(hall c hc).1, (hall c hc).2.1⟩, fun hc => (hall 32 hc).2.2 rfl⟩

theorem StartLine.WellFormed.text_spec (h : start.WellFormed)
    : IsLine start.text ∧ start.text.head? ≠ some 36 ∧ start.text ≠ [] := by
  have hspace : IsLine [32] := by decide
  cases start with
  | request method url version =>
    obtain ⟨hne, -, -, hdollar, -, hmethod, hurl, hversion⟩ := h
    refine ⟨hmethod.append (hspace.append (hurl.append (hspace.append hversion))), ?_, ?_⟩
    . cases method with
      | nil => contradiction
      | cons c method => exact hdollar
    . exact List.append_ne_nil_of_left_ne_nil hne _
  | response version code reason =>
    obtain ⟨hslash, -, hdollar, hversion, hreason⟩ := h
    refine ⟨hversion.append (hspace.append ((showInt_spec code).1.append (hspace.append hreason))), ?_, ?_⟩
    . cases version with
      | nil => contradiction
      | cons c version => exact hdollar
    . exact List.append_ne_nil_of_left_ne_nil (List.ne_nil_of_mem hslash) _

theorem readFirstLine_start (h : start.WellFormed) (hlt : start.text.length < MAX_FIRST_LINE) (rest : List UInt8)
    : readFirstLine (start.text ++ 13 :: 10 :: rest) = { ok := true, s := start.text, rest } := by
  obtain ⟨hline, hdollar, hne⟩ := h.text_spec
  have hget : getFirstLine (start.text ++ 13 :: 10 :: rest) = { ok := true, s := start.text, rest } := by
    unfold getFirstLine
    rw [getlineLoop_line hline (fun _ _ => hdollar) (by omega)]
    rfl
  rw [readFirstLine, hget]
  dsimp only
  rw [if_neg (fun hblank => hne hblank.2)]

-- A message with a start line read into it
def setStart (m : HTTPMessage) : StartLine → HTTPMessage
  | .request method url version => { m with method, url, version, code := 0, reason := [] }
  | .response version code reason => { m with version, code, reason, method := [], url := [] }

theorem startLine_setStart (h : start.WellFormed) (m : HTTPMessage) : (m.setStart start).startLine = start := by
  cases start with
  | request method url version => exact if_pos h.1
  | response version code reason => rfl

theorem writeStartLine_eq (m : HTTPMessage) : m.writeStartLine = m.startLine.text ++ [13, 10] := by
  unfold writeStartLine startLine
  split
  . simp [StartLine.text]
  . simp [StartLine.text]

/--
A start line and the headers behind it are read.
-/
theorem readHeaders_start (h : start.WellFormed) (hlt : start.text.length < MAX_FIRST_LINE) {r : HTTPMessage}
    {headers : MIMEHeaders} {input rest : List UInt8}
    (hread : r.headers.read input false = { ok := true, headers, rest })
    : r.readHeaders (start.text ++ 13 :: 10 :: input) = some ({ r.setStart start with headers }, rest) := by
  obtain ⟨-, hdollar, -⟩ := h.text_spec
  have hplain : start.text ≠ chars "$" := by
    intro heq
    rw [heq] at hdollar
    exact hdollar (by decide)
  unfold readHeaders
  rw [readFirstLine_start h hlt]
  dsimp only
  rw [if_neg (by simp), if_neg hplain]
  cases start with
  | request method url version =>
    obtain ⟨-, hslash, hmethod, -, hurl, -⟩ := h
    unfold StartLine.text
    dsimp only
    rw [splitWord_append hmethod]
    dsimp only [Option.bind_eq_bind, Option.bind_some]
    rw [splitWord_append hurl]
    dsimp only [Option.bind_some]
    rw [if_neg hslash, hread]
    rfl
  | response version code reason =>
    obtain ⟨hslash, hversion, -⟩ := h
    unfold StartLine.text
    dsimp only
    rw [splitWord_append hversion]
    dsimp only [Option.bind_eq_bind, Option.bind_some]
    rw [splitWord_append (showInt_spec code).2]
    dsimp only [Option.bind_some]
    rw [if_pos hslash, hread, atoi_showInt]
    rfl

end Start

section Headers

variable {m : HTTPMessage}

theorem lengthHeader_isHeader (h : m.body.length < 2 ^ 31) : IsHeader m.lengthHeader := by
  have hdigits : ∀ c ∈ Digits.toBytes 10 m.body.length, ¬(c = 32 ∨ c = 9 ∨ c = 13 ∨ c = 10) := by
    intro c hc
    have hdigit : Digits.isDigit 10 c = true := Digits.isDigit_of_mem_toBytes (by decide) (by decide) hc
    rintro (rfl | rfl | rfl | rfl)
    . exact absurd hdigit (by decide)
    . exact absurd hdigit (by decide)
    . exact absurd hdigit (by decide)
    . exact absurd hdigit (by decide)
  have hlen : (Digits.toBytes 10 m.body.length).length ≤ 10 := Digits.length_toBytes_le (by decide) (by decide) (by omega)
  constructor
  . show chars "content-length" ≠ []
    decide
  . show (chars "content-length").map Text.Pattern.tolower = chars "content-length"
    decide
  . show IsLine (chars "content-length")
    decide
  . show 58 ∉ chars "content-length"
    decide
  . show NoSpace (chars "content-length")
    decide
  . exact Digits.toBytes_ne_nil
  . exact Text.canonicaliseSpace_eq_self hdigits
  . show 14 + 2 + (Digits.toBytes 10 m.body.length).length < 8000
    omega

-- No name with an upper case letter is kept.
theorem Canonical.ne_of_upper (h : m.Canonical) {name : List UInt8} (hname : name.map Text.Pattern.tolower ≠ name)
    : ∀ e ∈ m.headers.xml, e.1 ≠ name := by
  intro e he heq
  apply hname
  rw [← heq]
  exact (h.header e he).lower

theorem Canonical.writeHeaders_eq (h : m.Canonical)
    : m.writeHeaders = m.startLine.text ++ 13 :: 10 :: (writeHeader 0 m.lengthHeader ++ m.headers.write) := by
  have hupper := MIMEHeaders.has_of_forall_ne (h.ne_of_upper
    (show (chars "Content-Length").map Text.Pattern.tolower ≠ chars "Content-Length" by decide))
  have hlower := MIMEHeaders.has_of_forall_ne fun e he => (h.noLength e he).1
  have hencoding := MIMEHeaders.get_of_forall_ne (h.ne_of_upper
    (show (chars "Transfer-Encoding").map Text.Pattern.tolower ≠ chars "Transfer-Encoding" by decide))
  have hnone : ¬([] = chars "chunked") := by decide
  have hname : MIMEHeaders.capitalise true (chars "content-length") ++ [58, 32] = chars "Content-Length: " := by decide
  have hlength : writeHeader 0 m.lengthHeader = chars "Content-Length: " ++ Digits.toBytes 10 m.body.length ++ [13, 10] := by
    unfold writeHeader lengthHeader
    rw [MIMEHeaders.writeValue, if_neg (fun h => h.1 rfl), ← List.append_assoc, hname]
  unfold writeHeaders
  rw [hupper, hlower, hencoding, if_pos ⟨rfl, rfl, hnone⟩, ← hlength, writeStartLine_eq, List.append_assoc,
    List.append_assoc]
  rfl

-- The headers that are read behind the start line
def readBack (r m : HTTPMessage) : HTTPMessage :=
  { r.setStart m.startLine with
    headers := { r.headers with xml := m.lengthHeader :: m.headers.xml }
    body := m.body }

theorem Canonical.read_headers (h : m.Canonical) (headers : MIMEHeaders) (rest : List UInt8)
    : headers.read (writeHeader 0 m.lengthHeader ++ m.headers.write ++ rest) false
        =
      { ok := true, headers := { headers with xml := m.lengthHeader :: m.headers.xml }, rest } := by
  have hlength := lengthHeader_isHeader h.body_lt
  have hnext : NoSpace (m.headers.write ++ rest) := MIMEHeaders.noSpace_write h.header rest
  unfold MIMEHeaders.read
  rw [if_neg (by simp), List.append_assoc, MIMEHeaders.readLoop_header hlength hnext]
  unfold MIMEHeaders.write
  rw [List.append_assoc]
  exact MIMEHeaders.readLoop_write h.header _ rest

theorem Canonical.readHeaders_eq (h : m.Canonical) (r : HTTPMessage) (rest : List UInt8)
    : r.readHeaders (m.writeHeaders ++ rest)
        = some ({ r.setStart m.startLine with
            headers := { r.headers with xml := m.lengthHeader :: m.headers.xml } }, rest) := by
  have hinput : m.writeHeaders ++ rest
      = m.startLine.text ++ 13 :: 10 :: (writeHeader 0 m.lengthHeader ++ m.headers.write ++ rest) := by
    rw [h.writeHeaders_eq, List.append_assoc]
    rfl
  rw [hinput]
  exact readHeaders_start h.start h.start_lt (h.read_headers r.headers rest)

end Headers

section Read

variable {m : HTTPMessage}

theorem Canonical.recovers (h : m.Canonical) (r : HTTPMessage) : (r.readBack m).Recovers m := by
  refine ⟨?_, rfl, rfl⟩
  have hstart := startLine_setStart h.start r
  exact hstart

theorem setStart_method (r m : HTTPMessage) : (r.setStart m.startLine).method = m.method := by
  unfold startLine
  split
  . rfl
  . next hne => exact (not_not.mp hne).symm

theorem Canonical.method_ne (h : m.Canonical) : m.method ≠ chars "$" := by
  have hstart := h.start
  unfold startLine at hstart
  split at hstart
  . intro heq
    apply hstart.2.2.2.1
    rw [heq]
    decide
  . next hne =>
    rw [not_not.mp hne]
    decide

theorem Canonical.write_eq (h : m.Canonical) : m.write false = m.writeHeaders ++ m.body := by
  unfold write
  rw [if_neg (by simp), if_neg h.method_ne]

/--
A message is read back, except that one without a body takes all the rest of the stream for it where that
is allowed to be read to its end.
-/
theorem Canonical.read_write (h : m.Canonical) (r : HTTPMessage) (rest : List UInt8) (readToEof : Bool)
    : r.read (m.write false ++ rest) readToEof
        =
      if readToEof = true ∧ m.OpenEnded then
        some ({ r.readBack m with body := rest }, [])
      else
        some (r.readBack m, rest) := by
  have hmethod := setStart_method r m
  have hlength : ((Text.stoi (Digits.toBytes 10 m.body.length)).toInt) = m.body.length := by
    have hlt := h.body_lt
    have hmin : min ((m.body.length : Nat) : Int) (2 ^ 63 - 1) = m.body.length := by omega
    rw [Text.stoi_decimal, hmin, Int32.toInt_ofInt_of_le (by omega) (by omega)]
  have hget : MIMEHeaders.get { r.headers with xml := m.lengthHeader :: m.headers.xml } (chars "content-length")
      = Digits.toBytes 10 m.body.length := rfl
  have hencoding : MIMEHeaders.get { r.headers with xml := m.lengthHeader :: m.headers.xml } (chars "transfer-encoding")
      = [] := by
    apply MIMEHeaders.get_of_forall_ne
    exact List.forall_mem_cons.mpr ⟨by show chars "content-length" ≠ _; decide, fun e he => (h.noLength e he).2⟩
  have hchunked : ¬(([] : List UInt8).map Text.Pattern.tolower = chars "chunked") := by decide
  have hback (body : List UInt8)
      : ({ r.readBack m with method := m.method, body } : HTTPMessage) = { r.readBack m with body } := by
    rw [← hmethod]
    rfl
  unfold read
  rw [h.write_eq, List.append_assoc, h.readHeaders_eq]
  dsimp only [Option.bind_eq_bind, Option.bind_some]
  rw [hmethod, if_neg h.method_ne, hget, hencoding, if_neg hchunked, hlength]
  by_cases hbody : m.body = []
  . by_cases hopen : readToEof = true ∧ (m.method = [] ∨ m.method = chars "POST")
    . have hallowed : ¬(m.method ≠ chars "POST" ∧ m.method ≠ []) := by
        rintro ⟨hpost, hne⟩
        exact hopen.2.elim hne hpost
      have hboth : readToEof = true ∧ m.OpenEnded := ⟨hopen.1, hbody, hopen.2⟩
      rw [hbody, List.length_nil, if_neg hallowed, if_pos (Or.inr hopen.1), if_pos hboth]
      have hall : readBody ((0 : Nat) : Int) 0 [] ([] ++ rest) = (rest, []) := readBody_toEof 0 [] rest
      rw [hall]
      exact congrArg (fun m => some (m, [])) (hback rest)
    . have hnot : ¬(readToEof = true ∧ m.OpenEnded) := fun hboth => hopen ⟨hboth.1, hboth.2.2⟩
      have hstop : ¬(((0 : Nat) : Int) ≠ 0
          ∨ (if m.method ≠ chars "POST" ∧ m.method ≠ [] then false else readToEof) = true) := by
        rintro (hzero | htrue)
        . exact hzero rfl
        . by_cases hmethods : m.method ≠ chars "POST" ∧ m.method ≠ []
          . rw [if_pos hmethods] at htrue
            contradiction
          . rw [if_neg hmethods] at htrue
            rw [not_and_or, not_not, not_not] at hmethods
            exact hopen ⟨htrue, hmethods.symm⟩
      rw [hbody, List.length_nil, if_neg hstop, if_neg hnot]
      have hsame : ({ r.readBack m with body := [] } : HTTPMessage) = r.readBack m := by
        rw [← hbody]
        rfl
      exact congrArg (fun m => some (m, rest)) ((hback []).trans hsame)
  . have hlen : ((m.body.length : Nat) : Int) ≠ 0 := by
      intro hzero
      exact hbody (List.eq_nil_of_length_eq_zero (by omega))
    have hnot : ¬(readToEof = true ∧ m.OpenEnded) := fun hopen => hbody hopen.2.1
    rw [if_pos (Or.inl hlen), readBody_counted hlen (Int.sub_zero _), if_neg hnot]
    exact congrArg (fun m => some (m, rest)) (hback m.body)

theorem Canonical.write_ne_nil (h : m.Canonical) : m.write false ≠ [] := by
  rw [h.write_eq, h.writeHeaders_eq, List.append_assoc]
  exact List.append_ne_nil_of_left_ne_nil h.start.text_spec.2.2 _

theorem readMessages_succ {r r' : HTTPMessage} {readToEof : Bool} {input rest : List UInt8}
    (h : r.read input readToEof = some (r', rest)) (n : Nat) (rs : List HTTPMessage)
    : readMessages r readToEof (n + 1) input = some (rs, [])
        ↔
      ∃ rs', rs = r' :: rs' ∧ readMessages r readToEof n rest = some (rs', []) := by
  rw [readMessages, h]
  dsimp only [Option.bind_eq_bind, Option.bind_some]
  cases readMessages r readToEof n rest with
  | none => simp
  | some result =>
    obtain ⟨rs', left⟩ := result
    simp only [Option.bind_some, Option.some.injEq, Prod.mk.injEq]
    constructor
    . rintro ⟨rfl, rfl⟩
      exact ⟨rs', rfl, rfl, rfl⟩
    . rintro ⟨rs'', rfl, rfl, rfl⟩
      exact ⟨rfl, rfl⟩

-- What is behind the message is its body.
theorem Canonical.readMessages_openEnded (h : m.Canonical) (hopen : m.OpenEnded) {ms : List HTTPMessage}
    (hms : ∀ m ∈ ms, m.Canonical) (hne : ms ≠ []) (r : HTTPMessage)
    : ¬∃ rs, readMessages r true (ms.length + 1) (m.write false ++ ms.flatMap (write · false)) = some (rs, [])
        ∧ List.Forall₂ Recovers rs (m :: ms) := by
  rintro ⟨rs, hread, hrecovers⟩
  have hfirst := h.read_write r (ms.flatMap (write · false)) true
  rw [if_pos ⟨rfl, hopen⟩] at hfirst
  obtain ⟨rs', rfl, -⟩ := (readMessages_succ hfirst _ _).mp hread
  rw [List.forall₂_cons] at hrecovers
  have hbody : ms.flatMap (write · false) = m.body := hrecovers.1.body
  rw [hopen.1] at hbody
  cases ms with
  | nil => contradiction
  | cons m' ms =>
    rw [List.flatMap_cons, List.append_eq_nil_iff] at hbody
    exact (hms m' List.mem_cons_self).write_ne_nil hbody.1

/--
The messages come back one after another if and only if none of those with another one behind it is read
to the end of the stream.
-/
theorem readMessages_iff (r : HTTPMessage) (readToEof : Bool) (ms : List HTTPMessage) (h : ∀ m ∈ ms, m.Canonical)
    : (∃ rs, readMessages r readToEof ms.length (ms.flatMap (write · false)) = some (rs, [])
          ∧ List.Forall₂ Recovers rs ms)
        ↔
      (readToEof = false ∨ ∀ m ∈ ms.dropLast, ¬m.OpenEnded) := by
  induction ms with
  | nil =>
    constructor
    . intro _
      right
      intro m hm
      exact absurd hm List.not_mem_nil
    . intro _
      exact ⟨[], rfl, List.Forall₂.nil⟩
  | cons m ms ih =>
    have hm := h m List.mem_cons_self
    have hms : ∀ m ∈ ms, m.Canonical := fun m' hm' => h m' (List.mem_cons_of_mem _ hm')
    have hfirst := hm.read_write r (ms.flatMap (write · false)) readToEof
    rw [List.length_cons, List.flatMap_cons]
    by_cases hnil : ms = []
    . -- The last one may take what is left, which is nothing.
      subst hnil
      constructor
      . intro _
        right
        intro m' hm'
        exact absurd hm' List.not_mem_nil
      . intro _
        have hlast : ∃ r', r.read (m.write false ++ [].flatMap (write · false)) readToEof = some (r', [])
            ∧ r'.Recovers m := by
          by_cases hopen : readToEof = true ∧ m.OpenEnded
          . rw [if_pos hopen] at hfirst
            have hback := hm.recovers r
            exact ⟨_, hfirst, ⟨hback.start, hback.headers, hopen.2.1.symm⟩⟩
          . rw [if_neg hopen] at hfirst
            exact ⟨_, hfirst, hm.recovers r⟩
        obtain ⟨r', hread, hrecovers⟩ := hlast
        exact ⟨[r'], (readMessages_succ hread _ _).mpr ⟨[], rfl, rfl⟩, List.forall₂_cons.mpr ⟨hrecovers, List.Forall₂.nil⟩⟩
    . have hdrop : (m :: ms).dropLast = m :: ms.dropLast := List.dropLast_cons_of_ne_nil hnil
      rw [hdrop, List.forall_mem_cons]
      by_cases hopen : readToEof = true ∧ m.OpenEnded
      . obtain ⟨rfl, hopen⟩ := hopen
        constructor
        . intro hread
          exact absurd hread (hm.readMessages_openEnded hopen hms hnil r)
        . rintro (hfalse | ⟨hclosed, -⟩)
          . contradiction
          . exact absurd hopen hclosed
      . rw [if_neg hopen] at hfirst
        constructor
        . rintro ⟨rs, hread, hrecovers⟩
          obtain ⟨rs', rfl, hrest⟩ := (readMessages_succ hfirst _ _).mp hread
          rw [List.forall₂_cons] at hrecovers
          rcases (ih hms).mp ⟨rs', hrest, hrecovers.2⟩ with hfalse | hclosed
          . exact Or.inl hfalse
          . by_cases htrue : readToEof = true
            . exact Or.inr ⟨fun hm => hopen ⟨htrue, hm⟩, hclosed⟩
            . exact Or.inl (Bool.eq_false_iff.mpr htrue)
        . intro hclosed
          obtain ⟨rs, hread, hrecovers⟩ := (ih hms).mpr (hclosed.imp_right And.right)
          exact ⟨_, (readMessages_succ hfirst _ _).mpr ⟨rs, rfl, hread⟩, List.forall₂_cons.mpr ⟨hm.recovers r, hrecovers⟩⟩

end Read

def sampleBlank : HTTPMessage :=
  { method := [], url := [], code := 0, reason := [], version := [], headers := .new, body := [] }

def sampleGet : HTTPMessage :=
  { sampleBlank with
    method := chars "GET"
    url := chars "/"
    version := chars "HTTP/1.1"
    headers := { maxLine := 0, xml := [(chars "host", chars "a")] } }

def sampleFound : HTTPMessage :=
  { sampleBlank with
    version := chars "HTTP/1.1"
    code := 200
    reason := chars "OK"
    headers := { maxLine := 3, xml := [(chars "server", chars "a, b c")] }
    body := chars "a" }

def sampleEmpty : HTTPMessage := { sampleBlank with version := chars "HTTP/1.1", code := 404 }

theorem sampleGet_canonical : sampleGet.Canonical := by
  constructor
  . show chars "GET" ≠ [] ∧ 47 ∉ chars "GET" ∧ 32 ∉ chars "GET" ∧ (chars "GET").head? ≠ some 36 ∧ 32 ∉ chars "/"
      ∧ IsLine (chars "GET") ∧ IsLine (chars "/") ∧ IsLine (chars "HTTP/1.1")
    decide
  . decide
  . intro e he
    rw [List.mem_singleton.mp he]
    exact ⟨by decide, by decide, by decide, by decide, by decide, by decide, by decide,
      by decide⟩
  . decide
  . decide

theorem sampleFound_canonical : sampleFound.Canonical := by
  constructor
  . show 47 ∈ chars "HTTP/1.1" ∧ 32 ∉ chars "HTTP/1.1" ∧ (chars "HTTP/1.1").head? ≠ some 36
      ∧ IsLine (chars "HTTP/1.1") ∧ IsLine (chars "OK")
    decide
  . decide
  . intro e he
    rw [List.mem_singleton.mp he]
    exact ⟨by decide, by decide, by decide, by decide, by decide, by decide, by decide,
      by decide⟩
  . decide
  . decide

theorem sampleEmpty_canonical : sampleEmpty.Canonical := by
  constructor
  . show 47 ∈ chars "HTTP/1.1" ∧ 32 ∉ chars "HTTP/1.1" ∧ (chars "HTTP/1.1").head? ≠ some 36
      ∧ IsLine (chars "HTTP/1.1") ∧ IsLine []
    decide
  . decide
  . intro e he
    exact absurd he List.not_mem_nil
  . decide
  . decide

-- A request without a body and two responses, of which the last one is without
theorem readMessages_iff_three
    : ∃ rs,
        readMessages sampleBlank true 3 ([sampleGet, sampleFound, sampleEmpty].flatMap (write · false)) = some (rs, [])
          ∧ List.Forall₂ Recovers rs [sampleGet, sampleFound, sampleEmpty] := by
  apply (readMessages_iff sampleBlank true [sampleGet, sampleFound, sampleEmpty] _).mpr
  . right
    decide
  . intro m hm
    rw [List.mem_cons, List.mem_cons, List.mem_singleton] at hm
    rcases hm with rfl | rfl | rfl
    . exact sampleGet_canonical
    . exact sampleFound_canonical
    . exact sampleEmpty_canonical

/--
The first of two responses without a body takes the second one for its body.
-/
theorem not_readMessages
    : ¬(∀ r readToEof ms, (∀ m ∈ ms, m.Canonical) →
        ∃ rs, readMessages r readToEof ms.length (ms.flatMap (write · false)) = some (rs, [])
          ∧ List.Forall₂ Recovers rs ms) := by
  intro h
  have hms : ∀ m ∈ [sampleEmpty], m.Canonical := List.forall_mem_singleton.mpr sampleEmpty_canonical
  apply sampleEmpty_canonical.readMessages_openEnded (by decide) hms (List.cons_ne_nil _ _) sampleBlank
  exact h sampleBlank true [sampleEmpty, sampleEmpty] (List.forall_mem_cons.mpr ⟨sampleEmpty_canonical, hms⟩)

end HTTPMessage

end Web
end ObTools
