import ObTools.Web.HTTPMessageLemmas

/-!
This module contains the proof that a body is read from its chunks, however it has been cut, as long as
the lines before them are not too long.
-/

namespace ObTools
namespace Web

open ObTools.Lex (chars)
open MIMEHeaders (MAX_HEADER IsHeader getline writeHeader)

namespace HTTPMessage

-- The line before a chunk, without its end
structure SizeLine where
  size : List UInt8
  extension : List UInt8
deriving DecidableEq, Repr

def SizeLine.text (line : SizeLine) : List UInt8 := line.size ++ line.extension

structure SizeLine.WellFormed (line : SizeLine) (n : Nat) : Prop where
  size_ne : line.size ≠ []
  digits : ∀ c ∈ line.size, Digits.isDigit 16 c = true
  value : Digits.ofBytes 16 line.size = n
  extension : line.extension = [] ∨ line.extension.head? = some 59
  line : IsLine line.extension

structure Chunk where
  line : SizeLine
  data : List UInt8
deriving DecidableEq, Repr

def Chunk.text (chunk : Chunk) : List UInt8 := chunk.line.text ++ 13 :: 10 :: (chunk.data ++ [13, 10])

structure Chunk.WellFormed (chunk : Chunk) : Prop where
  line : chunk.line.WellFormed chunk.data.length
  data_ne : chunk.data ≠ []
  data_lt : chunk.data.length < 2 ^ 31

/-
A message with its body in chunks, of which the last one is empty.
-/
structure Chunked where
  start : StartLine
  headers : MIMEHeaders
  chunks : List Chunk
  last : SizeLine
  trailers : MIMEHeaders
deriving DecidableEq, Repr

namespace Chunked

def text (m : Chunked) : List UInt8 :=
  m.start.text ++ 13 :: 10 :: (m.headers.write ++ m.chunks.flatMap Chunk.text ++ m.last.text ++ 13 :: 10 :: m.trailers.write)

def body (m : Chunked) : List UInt8 := m.chunks.flatMap (·.data)

structure WellFormed (m : Chunked) : Prop where
  start : m.start.WellFormed
  start_lt : m.start.text.length < MAX_FIRST_LINE
  header : ∀ e ∈ m.headers.xml, IsHeader e
  chunked : (m.headers.get (chars "transfer-encoding")).map Text.Pattern.tolower = chars "chunked"
  chunk : ∀ chunk ∈ m.chunks, chunk.WellFormed
  last : m.last.WellFormed 0
  trailer : ∀ e ∈ m.trailers.xml, IsHeader e

-- Whether no line is too long for the reader
def InLimit (m : Chunked) : Prop :=
  (∀ chunk ∈ m.chunks, chunk.line.text.length < MAX_HEADER) ∧ m.last.text.length < MAX_HEADER

instance (m : Chunked) : Decidable m.InLimit := inferInstanceAs (Decidable (_ ∧ _))

end Chunked

section Line

variable {line : SizeLine} {n : Nat}

theorem isLine_of_digits {digits : List UInt8} (h : ∀ c ∈ digits, Digits.isDigit 16 c = true) : IsLine digits := by
  intro c hc
  have hdigit := h c hc
  constructor
  . rintro rfl
    exact absurd hdigit (by decide)
  . rintro rfl
    exact absurd hdigit (by decide)

theorem splitFields_size (h : line.WellFormed n) : (Text.splitFields line.text 59).headD [] = line.size := by
  have hspace : ∀ c ∈ line.size, ¬(c = 32 ∨ c = 9 ∨ c = 13 ∨ c = 10) := by
    intro c hc
    have hdigit := h.digits c hc
    rintro (rfl | rfl | rfl | rfl)
    all_goals exact absurd hdigit (by decide)
  have hdelim : 59 ∉ line.size := by
    intro hc
    exact absurd (h.digits 59 hc) (by decide)
  unfold Text.splitFields Text.split SizeLine.text
  cases hext : line.extension with
  | nil =>
    rw [List.append_nil, Text.splitLoop_of_not_mem hdelim, if_pos rfl]
    exact Text.canonicaliseSpace_eq_self hspace
  | cons c rest =>
    have hc : c = 59 := by
      have hhead := h.extension.resolve_left (by simp [hext])
      rw [hext] at hhead
      exact Option.some.inj hhead
    rw [hc, Text.splitLoop_append (.inl rfl) hdelim, if_pos rfl]
    exact Text.canonicaliseSpace_eq_self hspace

theorem length_eq (h : line.WellFormed n) (hn : n < 2 ^ 31)
    : (Text.xtoi ((Text.splitFields line.text 59).headD [])).toInt32.toInt = n := by
  have hvalue := h.value
  have hscan := Text.scan_digits (Nat.le_refl 16) h.digits (by omega)
  rw [splitFields_size h]
  unfold Text.xtoi
  rw [hscan, hvalue, UInt64.toUInt32_ofNat', UInt32.toInt32_ofNat', Int32.toInt_ofNat_of_lt hn]

theorem getlineLoop_long {max count : Nat} {s : List UInt8} (hs : IsLine s) (hcount : count < max)
    (hlong : max ≤ count + s.length) (t rest : List UInt8)
    : (getlineLoop max false count t (s ++ rest)).ok = false := by
  induction s generalizing count t with
  | nil =>
    rw [List.length_nil] at hlong
    omega
  | cons c s ih =>
    obtain ⟨hc, hs⟩ := List.forall_mem_cons.mp hs
    rw [List.length_cons] at hlong
    rw [List.cons_append, getlineLoop, if_neg hc.1, if_neg hc.2, if_neg (by simp)]
    split
    . next hlt => exact ih hs hlt (by omega) _
    . rfl

theorem getline_text (h : line.WellFormed n) (rest : List UInt8)
    : if line.text.length < MAX_HEADER then
        getline (line.text ++ 13 :: 10 :: rest) = { ok := true, s := line.text, rest }
      else
        (getline (line.text ++ 13 :: 10 :: rest)).ok = false := by
  have hline : IsLine line.text := (isLine_of_digits h.digits).append h.line
  split
  . next hlt => exact MIMEHeaders.getline_line hline hlt rest
  . next hle => exact getlineLoop_long hline (by decide) (by omega) [] _

-- What there is between a chunk and the next one
def Between (s : List UInt8) : Prop := s = [] ∨ s = [13, 10]

theorem getChunkLine_between {blank : List UInt8} (hblank : Between blank) {input : List UInt8}
    (h : (getline input).ok = true → (getline input).s ≠ [])
    : getChunkLine (blank ++ input) = getline input := by
  unfold getChunkLine
  rcases hblank with rfl | rfl
  . rw [List.nil_append]
    exact if_neg fun hline => h hline.1 hline.2
  . have hnil : IsLine [] := fun c hc => absurd hc List.not_mem_nil
    have hline := MIMEHeaders.getline_line hnil (by decide) input
    rw [List.nil_append] at hline
    have hinput : [13, 10] ++ input = 13 :: 10 :: input := rfl
    rw [hinput, hline]
    exact if_pos ⟨rfl, rfl⟩

theorem getChunkLine_text (h : line.WellFormed n) {blank : List UInt8} (hblank : Between blank) (rest : List UInt8)
    : if line.text.length < MAX_HEADER then
        getChunkLine (blank ++ (line.text ++ 13 :: 10 :: rest)) = { ok := true, s := line.text, rest }
      else
        (getChunkLine (blank ++ (line.text ++ 13 :: 10 :: rest))).ok = false := by
  have hget := getline_text h rest
  split at hget
  . next hlt =>
    rw [if_pos hlt, getChunkLine_between hblank, hget]
    rw [hget]
    exact fun _ => List.append_ne_nil_of_left_ne_nil h.size_ne _
  . next hle =>
    rw [if_neg hle, getChunkLine_between hblank, hget]
    rw [hget]
    exact fun hok => absurd hok Bool.false_ne_true

end Line

section Chunks

variable {input s rest : List UInt8} (body : List UInt8)

theorem readChunks_of_not_ok (h : (getChunkLine input).ok = false) : readChunks body input = none := by
  rw [readChunks]
  dsimp only
  rw [h]
  rfl

theorem readChunks_of_zero (h : getChunkLine input = { ok := true, s, rest })
    (hzero : (Text.xtoi ((Text.splitFields s 59).headD [])).toInt32.toInt = 0)
    : readChunks body input = some (body, rest) := by
  rw [readChunks, h]
  dsimp only
  rw [hzero]
  rfl

theorem readChunks_of_length (h : getChunkLine input = { ok := true, s, rest }) {data : List UInt8} (hne : data ≠ [])
    (hlength : (Text.xtoi ((Text.splitFields s 59).headD [])).toInt32.toInt = data.length) {rest' : List UInt8}
    (hrest : rest = data ++ rest')
    : readChunks body input = readChunks (body ++ data) rest' := by
  have hpos := List.length_pos_of_ne_nil hne
  have hlen : (data.length : Int) ≠ 0 := by omega
  rw [readChunks, h]
  dsimp only
  rw [hlength, if_neg hlen, hrest, readBody_counted hlen (Int.sub_zero _)]
  rfl

end Chunks

/--
Each chunk is read up to the end of its data, so that its last line end is seen before the next one.
-/
theorem readChunks_chunks {chunks : List Chunk} (h : ∀ chunk ∈ chunks, chunk.WellFormed) {last : SizeLine}
    (hlast : last.WellFormed 0) {blank : List UInt8} (hblank : Between blank) (body rest : List UInt8)
    : readChunks body (blank ++ (chunks.flatMap Chunk.text ++ (last.text ++ 13 :: 10 :: rest)))
        =
      if (∀ chunk ∈ chunks, chunk.line.text.length < MAX_HEADER) ∧ last.text.length < MAX_HEADER then
        some (body ++ chunks.flatMap (·.data), rest)
      else
        none := by
  induction chunks generalizing body blank with
  | nil =>
    have hline := getChunkLine_text hlast hblank rest
    rw [List.flatMap_nil, List.nil_append, List.flatMap_nil, List.append_nil]
    split at hline
    . next hlt =>
      rw [if_pos ⟨fun _ hc => absurd hc List.not_mem_nil, hlt⟩]
      exact readChunks_of_zero body hline (length_eq hlast (by decide))
    . next hle =>
      rw [if_neg fun hlimit => hle hlimit.2]
      exact readChunks_of_not_ok body hline
  | cons chunk chunks ih =>
    obtain ⟨hchunk, hchunks⟩ := List.forall_mem_cons.mp h
    have hinput : (chunk :: chunks).flatMap Chunk.text ++ (last.text ++ 13 :: 10 :: rest)
        = chunk.line.text ++ 13 :: 10 ::
            (chunk.data ++ ([13, 10] ++ (chunks.flatMap Chunk.text ++ (last.text ++ 13 :: 10 :: rest)))) := by
      simp [Chunk.text]
    have hline := getChunkLine_text hchunk.line hblank
      (chunk.data ++ ([13, 10] ++ (chunks.flatMap Chunk.text ++ (last.text ++ 13 :: 10 :: rest))))
    rw [hinput]
    split at hline
    . next hlt =>
      have hlimit : (∀ c ∈ chunk :: chunks, c.line.text.length < MAX_HEADER)
          ↔ ∀ c ∈ chunks, c.line.text.length < MAX_HEADER := by
        rw [List.forall_mem_cons]
        exact and_iff_right hlt
      have hlength := length_eq hchunk.line hchunk.data_lt
      rw [readChunks_of_length body hline hchunk.data_ne hlength rfl, ih hchunks (Or.inr rfl)]
      simp only [hlimit, List.flatMap_cons, List.append_assoc]
    . next hle =>
      rw [if_neg fun hlimit => hle (hlimit.1 chunk List.mem_cons_self)]
      exact readChunks_of_not_ok body hline

variable {m : Chunked}

-- The message with its body and all its headers
def readBackChunked (r : HTTPMessage) (m : Chunked) : HTTPMessage :=
  { r.setStart m.start with
    headers := { r.headers with xml := m.headers.xml ++ m.trailers.xml }
    body := m.body }

theorem StartLine.WellFormed.setStart_method {start : StartLine} (h : start.WellFormed) (r : HTTPMessage)
    : (r.setStart start).method ≠ chars "$" := by
  cases start with
  | request method url version =>
    intro heq
    apply h.2.2.2.1
    have heq : method = chars "$" := heq
    rw [heq]
    decide
  | response version code reason => exact fun heq => absurd heq.symm (List.cons_ne_nil _ _)

theorem read_text (h : m.WellFormed) (r : HTTPMessage) (rest : List UInt8) (readToEof : Bool)
    : r.read (m.text ++ rest) readToEof = if m.InLimit then some (r.readBackChunked m, rest) else none := by
  have hinput : m.text ++ rest
      = m.start.text ++ 13 :: 10 :: (m.headers.write
          ++ (m.chunks.flatMap Chunk.text ++ (m.last.text ++ 13 :: 10 :: (m.trailers.write ++ rest)))) := by
    simp [Chunked.text]
  have hread := MIMEHeaders.read_folded h.header r.headers
    (m.chunks.flatMap Chunk.text ++ (m.last.text ++ 13 :: 10 :: (m.trailers.write ++ rest)))
  have hchunked : (MIMEHeaders.get { r.headers with xml := m.headers.xml } (chars "transfer-encoding")).map
      Text.Pattern.tolower = chars "chunked" := h.chunked
  have hchunks : readChunks [] (m.chunks.flatMap Chunk.text ++ (m.last.text ++ 13 :: 10 :: (m.trailers.write ++ rest)))
      = if m.InLimit then some (m.body, m.trailers.write ++ rest) else none :=
    readChunks_chunks h.chunk h.last (Or.inl rfl) [] (m.trailers.write ++ rest)
  have htrailers : MIMEHeaders.read { r.headers with xml := m.headers.xml } (m.trailers.write ++ rest) true
      = { ok := true, headers := { r.headers with xml := m.headers.xml ++ m.trailers.xml }, rest } := by
    unfold MIMEHeaders.read MIMEHeaders.write
    rw [if_pos rfl, List.append_assoc]
    exact MIMEHeaders.readLoop_write h.trailer _ rest
  unfold read
  rw [hinput, readHeaders_start h.start h.start_lt hread]
  dsimp only [Option.bind_eq_bind, Option.bind_some]
  rw [if_neg (h.start.setStart_method r), if_pos hchunked, hchunks]
  by_cases hlimit : m.InLimit
  . rw [if_pos hlimit, if_pos hlimit]
    dsimp only [Option.bind_some]
    rw [htrailers]
    rfl
  . rw [if_neg hlimit, if_neg hlimit]
    rfl

/--
A body in chunks is read with the trailers behind it, and what follows is left, if and only if the lines before the
chunks are in the limit.
-/
theorem read_chunked_iff (h : m.WellFormed) (r : HTTPMessage) (rest : List UInt8) (readToEof : Bool)
    : r.read (m.text ++ rest) readToEof = some (r.readBackChunked m, rest) ↔ m.InLimit := by
  rw [read_text h]
  split
  . next hlimit => exact iff_of_true rfl hlimit
  . next hlimit => exact iff_of_false (Option.some_ne_none _).symm hlimit

-- The data of the first chunk ends in a line, and the second chunk looks like a size.
def sampleChunked (extension : List UInt8) : Chunked where
  start := .response (chars "HTTP/1.1") 200 (chars "OK")
  headers := { maxLine := 0, xml := [(chars "transfer-encoding", chars "Chunked")] }
  chunks :=
    [{ line := { size := chars "003", extension }, data := chars "a\r\n" },
      { line := { size := chars "2", extension := [] }, data := chars "10" }]
  last := { size := chars "0", extension := [] }
  trailers := { maxLine := 0, xml := [(chars "digest", chars "b c")] }

theorem plainSize_wellFormed {size : List UInt8} {n : Nat} (hne : size ≠ []) (hall : size.all (Digits.isDigit 16) = true)
    (hvalue : Digits.ofBytes 16 size = n)
    : SizeLine.WellFormed { size, extension := [] } n :=
  ⟨hne, List.all_eq_true.mp hall, hvalue, Or.inl rfl, show IsLine [] by decide⟩

theorem sampleChunked_wellFormed {extension : List UInt8} (hhead : extension.head? = some 59) (hline : IsLine extension)
    : (sampleChunked extension).WellFormed := by
  constructor
  . show 47 ∈ chars "HTTP/1.1" ∧ 32 ∉ chars "HTTP/1.1" ∧ (chars "HTTP/1.1").head? ≠ some 36
      ∧ IsLine (chars "HTTP/1.1") ∧ IsLine (chars "OK")
    decide
  . show (StartLine.response (chars "HTTP/1.1") 200 (chars "OK")).text.length < MAX_FIRST_LINE
    decide
  . refine List.forall_mem_singleton.mpr ?_
    constructor
    all_goals decide
  . show (chars "Chunked").map Text.Pattern.tolower = chars "chunked"
    decide
  . refine List.forall_mem_cons.mpr ⟨⟨⟨?_, ?_, ?_, Or.inr hhead, hline⟩, ?_, ?_⟩, List.forall_mem_singleton.mpr ?_⟩
    . show chars "003" ≠ []
      decide
    . exact List.all_eq_true.mp rfl
    . show Digits.ofBytes 16 (chars "003") = 3
      decide
    . show chars "a\r\n" ≠ []
      decide
    . show (chars "a\r\n").length < 2 ^ 31
      decide
    . exact ⟨plainSize_wellFormed (by decide) rfl rfl, by decide, by decide⟩
  . exact plainSize_wellFormed (by decide) rfl rfl
  . refine List.forall_mem_singleton.mpr ?_
    constructor
    all_goals decide

theorem read_chunked_iff_sample
    : sampleBlank.read ((sampleChunked (chars ";a=b")).text ++ chars "HTTP") false
        = some (sampleBlank.readBackChunked (sampleChunked (chars ";a=b")), chars "HTTP") := by
  apply (read_chunked_iff (sampleChunked_wellFormed (by decide) (by decide)) sampleBlank (chars "HTTP") false).mpr
  decide

theorem sampleChunked_long {extension : List UInt8} (h : MAX_HEADER ≤ extension.length)
    : ¬(sampleChunked extension).InLimit := by
  intro hlimit
  have hlt : (chars "003" ++ extension).length < MAX_HEADER := hlimit.1 _ List.mem_cons_self
  rw [List.length_append] at hlt
  omega

-- The reader gives up on the line of the first chunk.
theorem not_read_chunked
    : ¬∀ m : Chunked, m.WellFormed → ∀ (r : HTTPMessage) (rest : List UInt8) (readToEof : Bool),
        r.read (m.text ++ rest) readToEof = some (r.readBackChunked m, rest) := by
  intro h
  have hline : IsLine (59 :: List.replicate MAX_HEADER 97) := by
    refine List.forall_mem_cons.mpr ⟨by decide, ?_⟩
    intro c hc
    rw [List.eq_of_mem_replicate hc]
    decide
  have hlong : MAX_HEADER ≤ (59 :: List.replicate MAX_HEADER 97 : List UInt8).length := by
    rw [List.length_cons, List.length_replicate]
    exact Nat.le_succ _
  have hwf := sampleChunked_wellFormed (List.head?_cons ..) hline
  have hread := h _ hwf sampleBlank [] false
  rw [read_text hwf, if_neg (sampleChunked_long hlong)] at hread
  exact absurd hread (Option.some_ne_none _).symm

end HTTPMessage

end Web
end ObTools
