import ObTools.Channel.Reader

/-!
This module contains the model of `Channel::LimitedReader`, of a program that uses one as a sequence of calls on it, and
the proof that it keeps to its limit. All of its functions get at the underlying reader through `basic_read`, except for
`skip_to_eof`, which skips behind the back of the counters and must therefore come too late to skip anything.
-/

namespace ObTools
namespace Channel

/-
What a `LimitedReader` uses of the reader it is wrapped around.
-/
structure Underlying (σ : Type) where
  basicRead : BasicRead σ
  skip : Nat → σ → Except Error Unit × σ

-- A reader that has nothing to override but `basic_read`
def Underlying.ofBasicRead {σ : Type} (basicRead : BasicRead σ) : Underlying σ where
  basicRead
  skip n reader :=
    let res := Reader.skip (Reader.tryRead basicRead) n reader
    (res.outcome.map fun _ => (), res.reader)

def StringReader.underlying : Underlying StringReader where
  basicRead := basicRead
  skip := skip

structure LimitedReader (σ : Type) where
  reader : σ
  left : Nat
  offset : Nat

namespace LimitedReader

variable {σ : Type} (U : Underlying σ)

def new (reader : σ) (limit : Nat) : LimitedReader σ := { reader, left := limit, offset := 0 }

def basicRead : BasicRead (LimitedReader σ) := fun count lr =>
  let count := if count > lr.left then lr.left else count
  let (bytes, reader) := U.basicRead count lr.reader
  (bytes, { reader, left := lr.left - bytes.length, offset := lr.offset + bytes.length })

def tryRead (count : Nat) (lr : LimitedReader σ) : ReadResult (LimitedReader σ) :=
  if lr.left = 0 then
    { outcome := .ok false, data := [], reader := lr }
  else
    Reader.tryRead (basicRead U) count lr

def tryReadString (count : Nat) (lr : LimitedReader σ) : ReadResult (LimitedReader σ) :=
  if lr.left = 0 then
    { outcome := .ok false, data := [], reader := lr }
  else
    Reader.tryReadString (basicRead U) count lr

def readToEofLimit (limit : Nat) (lr : LimitedReader σ) : List UInt8 × LimitedReader σ :=
  Reader.readToEof (basicRead U) (min lr.left limit) lr

def readToEof (lr : LimitedReader σ) : List UInt8 × LimitedReader σ :=
  Reader.readToEof (basicRead U) lr.left lr

def tryReadByte (lr : LimitedReader σ) : ReadResult (LimitedReader σ) :=
  if lr.left = 0 then
    { outcome := .ok false, data := [], reader := lr }
  else
    Reader.tryReadByte (tryRead U) lr

def skipToEof (lr : LimitedReader σ) : Except Error Unit × LimitedReader σ :=
  if lr.left ≠ 0 then
    let (outcome, reader) := U.skip lr.left lr.reader
    (outcome, { lr with reader })
  else
    (.ok (), lr)

-- `read`, `skip` and `align` are inherited
def read (count : Nat) (lr : LimitedReader σ) : ReadResult (LimitedReader σ) :=
  Reader.read (tryRead U) count lr

def readString (count : Nat) (lr : LimitedReader σ) : ReadResult (LimitedReader σ) :=
  Reader.readString (tryReadString U) count lr

def skip (n : Nat) (lr : LimitedReader σ) : ReadResult (LimitedReader σ) :=
  Reader.skip (tryRead U) n lr

-- There is no multiple of zero to align to, the division fails
def align (n : Nat) (lr : LimitedReader σ) : Option (ReadResult (LimitedReader σ)) :=
  if n = 0 then none else some (skip U (Reader.alignment lr.offset n) lr)

end LimitedReader

inductive LimitedOp where
  | basicRead (count : Nat)
  | tryRead (count : Nat)
  | tryReadString (count : Nat)
  | read (count : Nat)
  | readString (count : Nat)
  | readToEof
  | readToEofLimit (limit : Nat)
  -- The variant for a plain buffer, which is not overridden
  | readToEofBuffer (limit : Nat)
  | tryReadByte
  | skip (n : Nat)
  | align (n : Nat)
  | skipToEof
  deriving DecidableEq, Repr

-- What the caller gets to see
inductive Response where
  | count (n : Nat)
  | outcome (o : Except Error Bool)
  | data (l : List UInt8)
  | skipped (o : Except Error Unit)

def Response.ReportsEof : Response → Prop
  | count n => n = 0
  | outcome o => o = .ok false ∨ ∃ text, o = .error { error := 0, text }
  | data l => l = []
  | skipped _ => True

namespace LimitedOp

variable {σ : Type} (U : Underlying σ)

def ofResult (res : ReadResult (LimitedReader σ)) : Response × LimitedReader σ :=
  (.outcome res.outcome, res.reader)

def ofData (res : List UInt8 × LimitedReader σ) : Response × LimitedReader σ :=
  (.data res.1, res.2)

def apply (lr : LimitedReader σ) : LimitedOp → Option (Response × LimitedReader σ)
  | basicRead count =>
    let (bytes, lr) := lr.basicRead U count
    some (.count bytes.length, lr)
  | tryRead count => some (ofResult (lr.tryRead U count))
  | tryReadString count => some (ofResult (lr.tryReadString U count))
  | read count => some (ofResult (lr.read U count))
  | readString count => some (ofResult (lr.readString U count))
  | readToEof => some (ofData (lr.readToEof U))
  | readToEofLimit limit => some (ofData (lr.readToEofLimit U limit))
  | readToEofBuffer limit => some (ofData (Reader.readToEof (LimitedReader.basicRead U) limit lr))
  | tryReadByte => some (ofResult (lr.tryReadByte U))
  | skip n => some (ofResult (lr.skip U n))
  | align n => (lr.align U n).map ofResult
  | skipToEof =>
    let (outcome, lr) := lr.skipToEof U
    some (.skipped outcome, lr)

def run (lr : LimitedReader σ) (ops : List LimitedOp) : Option (LimitedReader σ) :=
  ops.foldlM (fun lr op => (op.apply U lr).map (·.2)) lr

-- Whether a call asks for anything at all
def asks (lr : LimitedReader σ) : LimitedOp → Prop
  | tryRead count | tryReadString count | read count | readString count | skip count => 0 < count
  | align n => 0 < Reader.alignment lr.offset n
  | _ => True

end LimitedOp

variable {σ : Type} {U : Underlying σ}

/-
A reader that keeps account of the bytes that have been taken from it, and that has nothing more to
give once it has reached its end.
-/
structure Underlying.Metered (U : Underlying σ) (taken : σ → Nat) (eof : σ → Prop) : Prop where
  taken_eq : ∀ n reader,
    taken (U.basicRead n reader).2 = taken reader + (U.basicRead n reader).1.length
  length_le : ∀ n reader, (U.basicRead n reader).1.length ≤ n
  progress : ∀ n reader, 0 < n → ¬eof reader → (U.basicRead n reader).1 ≠ []
  nil_of_eof : ∀ n reader, eof reader → (U.basicRead n reader).1 = []
  eof_of_eof : ∀ n reader, eof reader → eof (U.basicRead n reader).2
  skip_of_eof : ∀ n reader, 0 < n → eof reader →
    taken (U.skip n reader).2 = taken reader ∧ eof (U.skip n reader).2

namespace LimitedOp

/--
What `basic_read` preserves is preserved by every call that does not skip to the end.
-/
theorem apply_preserves {P : LimitedReader σ → Prop}
    (h : ∀ n lr, P lr → P (LimitedReader.basicRead U n lr).2) {lr : LimitedReader σ}
    {op : LimitedOp} {res : Response × LimitedReader σ} (hop : op ≠ .skipToEof)
    (happly : op.apply U lr = some res) (hlr : P lr)
    : P res.2 := by
  have hread : ∀ n, P (LimitedReader.tryRead U n lr).reader := by
    intro n
    unfold LimitedReader.tryRead
    split
    . exact hlr
    . exact Reader.tryReadLoop_preserves h _ _ _ _ _ hlr
  have hstring : ∀ n, P (LimitedReader.tryReadString U n lr).reader := by
    intro n
    unfold LimitedReader.tryReadString
    split
    . exact hlr
    . exact Reader.tryReadLoop_preserves h _ _ _ _ _ hlr
  have heof : ∀ n, P (Reader.readToEof (LimitedReader.basicRead U) n lr).2 := by
    intro n
    exact Reader.readToEofLoop_preserves h _ _ _ hlr
  have hreadOf : ∀ n, P (LimitedReader.read U n lr).reader := by
    intro n
    unfold LimitedReader.read Reader.read
    rw [Reader.readOf_reader]
    exact hread n
  unfold apply at happly
  cases op with
  | basicRead count =>
    injection happly with happly
    rw [← happly]
    exact h count lr hlr
  | tryRead count =>
    injection happly with happly
    rw [← happly]
    exact hread count
  | tryReadString count =>
    injection happly with happly
    rw [← happly]
    exact hstring count
  | read count =>
    injection happly with happly
    rw [← happly]
    exact hreadOf count
  | readString count =>
    injection happly with happly
    rw [← happly]
    unfold ofResult LimitedReader.readString Reader.readString
    rw [Reader.readOf_reader]
    exact hstring count
  | readToEof =>
    injection happly with happly
    rw [← happly]
    exact heof _
  | readToEofLimit limit =>
    injection happly with happly
    rw [← happly]
    exact heof _
  | readToEofBuffer limit =>
    injection happly with happly
    rw [← happly]
    exact heof _
  | tryReadByte =>
    injection happly with happly
    rw [← happly]
    unfold ofResult LimitedReader.tryReadByte
    split
    . exact hlr
    . exact hread 1
  | skip n =>
    injection happly with happly
    rw [← happly]
    exact hreadOf n
  | align n =>
    change (LimitedReader.align U n lr).map ofResult = some res at happly
    unfold LimitedReader.align at happly
    split at happly
    . contradiction
    . injection happly with happly
      rw [← happly]
      exact hreadOf _
  | skipToEof => exact absurd rfl hop

end LimitedOp

namespace LimitedReader

variable {taken : σ → Nat} {eof : σ → Prop}

/-
The counters agree with what has been taken from the underlying reader since the start.
-/
structure Counted (taken : σ → Nat) (start limit : Nat) (lr : LimitedReader σ) : Prop where
  taken_eq : taken lr.reader = start + lr.offset
  total : lr.offset + lr.left = limit

def Drained (eof : σ → Prop) (lr : LimitedReader σ) : Prop := lr.left = 0 ∨ eof lr.reader

variable {lr : LimitedReader σ}

theorem basicRead_length_le (h : U.Metered taken eof) (n : Nat)
    : (basicRead U n lr).1.length ≤ lr.left := by
  have hle := h.length_le (if n > lr.left then lr.left else n) lr.reader
  have hmin : (if n > lr.left then lr.left else n) ≤ lr.left := by
    split <;> omega
  exact Nat.le_trans hle hmin

theorem basicRead_taken (h : U.Metered taken eof) (n : Nat)
    : taken (basicRead U n lr).2.reader = taken lr.reader + (basicRead U n lr).1.length :=
  h.taken_eq _ _

theorem basicRead_left (n : Nat)
    : (basicRead U n lr).2.left = lr.left - (basicRead U n lr).1.length := rfl

theorem basicRead_offset (n : Nat)
    : (basicRead U n lr).2.offset = lr.offset + (basicRead U n lr).1.length := rfl

theorem basicRead_counted (h : U.Metered taken eof) {start limit : Nat} (n : Nat)
    (hlr : lr.Counted taken start limit)
    : (basicRead U n lr).2.Counted taken start limit := by
  have hle : (basicRead U n lr).1.length ≤ lr.left := basicRead_length_le h n
  have h1 := hlr.taken_eq
  have h2 := hlr.total
  constructor
  . rw [basicRead_taken h, basicRead_offset]
    omega
  . rw [basicRead_left, basicRead_offset]
    omega

theorem basicRead_drained (h : U.Metered taken eof) (n : Nat) (hlr : lr.Drained eof)
    : (basicRead U n lr).1 = [] ∧ (basicRead U n lr).2.Drained eof := by
  have hle : (basicRead U n lr).1.length ≤ lr.left := basicRead_length_le h n
  cases hlr with
  | inl hleft =>
    rw [hleft] at hle
    refine ⟨List.eq_nil_of_length_eq_zero (by omega), Or.inl ?_⟩
    rw [basicRead_left]
    omega
  | inr heof =>
    refine ⟨?_, Or.inr ?_⟩
    . exact h.nil_of_eof _ _ heof
    . exact h.eof_of_eof _ _ heof

variable (h : U.Metered taken eof) (hlr : lr.Drained eof)
include h hlr

theorem skipToEof_eq_of_drained
    : taken (skipToEof U lr).2.reader = taken lr.reader
        ∧
      (skipToEof U lr).2.left = lr.left
        ∧
      (skipToEof U lr).2.offset = lr.offset
        ∧
      (skipToEof U lr).2.Drained eof := by
  unfold skipToEof
  split
  . next hleft =>
    have heof : eof lr.reader := by
      cases hlr with
      | inl hzero => exact absurd hzero hleft
      | inr heof => exact heof
    have hskip := h.skip_of_eof lr.left lr.reader (by omega) heof
    exact ⟨hskip.1, rfl, rfl, Or.inr hskip.2⟩
  . exact ⟨rfl, rfl, rfl, hlr⟩

theorem tryReadLoop_drained {size : Nat → Nat} {text : String} {count : Nat} (hcount : 0 < count)
    : (Reader.tryReadLoop (basicRead U) size text count [] lr).outcome = .ok false := by
  have hnil := (basicRead_drained h (size count) hlr).1
  unfold Reader.tryReadLoop
  simp [hcount, hnil]

theorem tryRead_drained {count : Nat} (hcount : 0 < count ∨ lr.left = 0)
    : (tryRead U count lr).outcome = .ok false := by
  unfold tryRead
  split
  . rfl
  . next hleft =>
    apply tryReadLoop_drained h hlr
    omega

theorem tryReadString_drained {count : Nat} (hcount : 0 < count ∨ lr.left = 0)
    : (tryReadString U count lr).outcome = .ok false := by
  unfold tryReadString
  split
  . rfl
  . next hleft =>
    apply tryReadLoop_drained h hlr
    omega

theorem readToEof_drained (limit : Nat) : (Reader.readToEof (basicRead U) limit lr).1 = [] := by
  have hnil := (basicRead_drained h (min Reader.channelBufferSize limit) hlr).1
  unfold Reader.readToEof Reader.readToEofLoop
  split
  . simp [hnil]
  . rfl

end LimitedReader

theorem Reader.readOf_eof {tryRead : Nat → σ → ReadResult σ} {text : String} {count : Nat}
    {reader : σ} (h : (tryRead count reader).outcome = .ok false)
    : (readOf tryRead text count reader).outcome = .error { error := 0, text } := by
  unfold readOf
  dsimp only
  rw [h]

namespace LimitedOp

variable {taken : σ → Nat} {eof : σ → Prop} {lr : LimitedReader σ}

theorem apply_drained (h : U.Metered taken eof) (hlr : lr.Drained eof) {op : LimitedOp}
    {res : Response × LimitedReader σ} (happly : op.apply U lr = some res)
    (hasks : op.asks lr ∨ lr.left = 0)
    : res.1.ReportsEof := by
  have hread : ∀ n, 0 < n ∨ lr.left = 0 →
      (LimitedReader.read U n lr).outcome = .error { error := 0, text := "EOF" } := by
    intro n hn
    exact Reader.readOf_eof (LimitedReader.tryRead_drained h hlr hn)
  unfold apply at happly
  cases op with
  | basicRead count =>
    injection happly with happly
    rw [← happly]
    exact congrArg List.length (LimitedReader.basicRead_drained h count hlr).1
  | tryRead count =>
    injection happly with happly
    rw [← happly]
    exact Or.inl (LimitedReader.tryRead_drained h hlr hasks)
  | tryReadString count =>
    injection happly with happly
    rw [← happly]
    exact Or.inl (LimitedReader.tryReadString_drained h hlr hasks)
  | read count =>
    injection happly with happly
    rw [← happly]
    exact Or.inr ⟨_, hread count hasks⟩
  | readString count =>
    injection happly with happly
    rw [← happly]
    exact Or.inr ⟨_, Reader.readOf_eof (LimitedReader.tryReadString_drained h hlr hasks)⟩
  | readToEof =>
    injection happly with happly
    rw [← happly]
    exact LimitedReader.readToEof_drained h hlr _
  | readToEofLimit limit =>
    injection happly with happly
    rw [← happly]
    exact LimitedReader.readToEof_drained h hlr _
  | readToEofBuffer limit =>
    injection happly with happly
    rw [← happly]
    exact LimitedReader.readToEof_drained h hlr _
  | tryReadByte =>
    injection happly with happly
    rw [← happly]
    unfold ofResult LimitedReader.tryReadByte
    split
    . exact Or.inl rfl
    . exact Or.inl (LimitedReader.tryRead_drained h hlr (Or.inl Nat.one_pos))
  | skip n =>
    injection happly with happly
    rw [← happly]
    exact Or.inr ⟨_, hread n hasks⟩
  | align n =>
    change (LimitedReader.align U n lr).map ofResult = some res at happly
    unfold LimitedReader.align at happly
    split at happly
    . contradiction
    . injection happly with happly
      rw [← happly]
      exact Or.inr ⟨_, hread _ hasks⟩
  | skipToEof =>
    injection happly with happly
    rw [← happly]
    trivial

-- Every `skip_to_eof` of a run comes when there is nothing to skip any more.
def SkipsDrained (U : Underlying σ) (eof : σ → Prop) : LimitedReader σ → List LimitedOp → Prop
  | _, [] => True
  | lr, op :: ops =>
    (op = .skipToEof → lr.Drained eof)
      ∧
    ∀ res, op.apply U lr = some res → SkipsDrained U eof res.2 ops

theorem apply_skipToEof (lr : LimitedReader σ)
    : apply U lr .skipToEof
        =
      some (.skipped (LimitedReader.skipToEof U lr).1, (LimitedReader.skipToEof U lr).2) := rfl

theorem apply_counted (h : U.Metered taken eof) {start limit : Nat} {op : LimitedOp}
    {res : Response × LimitedReader σ} (hop : op = .skipToEof → lr.Drained eof)
    (happly : op.apply U lr = some res) (hlr : lr.Counted taken start limit)
    : res.2.Counted taken start limit := by
  by_cases heq : op = .skipToEof
  . rw [heq, apply_skipToEof, Option.some_inj] at happly
    rw [← happly]
    obtain ⟨htaken, hleft, hoffset, _⟩ := LimitedReader.skipToEof_eq_of_drained h (hop heq)
    have h1 := hlr.taken_eq
    have h2 := hlr.total
    constructor
    . dsimp only
      omega
    . dsimp only
      omega
  . exact apply_preserves (fun n lr => LimitedReader.basicRead_counted h n) heq happly hlr

theorem apply_remains_drained (h : U.Metered taken eof) {op : LimitedOp}
    {res : Response × LimitedReader σ} (happly : op.apply U lr = some res)
    (hlr : lr.Drained eof)
    : res.2.Drained eof := by
  by_cases heq : op = .skipToEof
  . rw [heq, apply_skipToEof, Option.some_inj] at happly
    rw [← happly]
    exact (LimitedReader.skipToEof_eq_of_drained h hlr).2.2.2
  . apply apply_preserves _ heq happly hlr
    intro n lr hlr
    exact (LimitedReader.basicRead_drained h n hlr).2

theorem run_spec (h : U.Metered taken eof) {start limit : Nat} {ops : List LimitedOp}
    {lr' : LimitedReader σ} (hok : SkipsDrained U eof lr ops) (hrun : run U lr ops = some lr')
    (hlr : lr.Counted taken start limit)
    : lr'.Counted taken start limit
        ∧
      (lr.Drained eof ∨ .skipToEof ∈ ops → lr'.Drained eof) := by
  induction ops generalizing lr with
  | nil =>
    injection hrun with hrun
    rw [← hrun]
    refine ⟨hlr, ?_⟩
    intro hor
    simpa using hor
  | cons op ops ih =>
    unfold run at hrun
    rw [List.foldlM_cons] at hrun
    cases happly : op.apply U lr with
    | none => simp [happly] at hrun
    | some res =>
      rw [happly] at hrun
      have ih := ih (hok.2 res happly) hrun (apply_counted h hok.1 happly hlr)
      refine ⟨ih.1, ?_⟩
      intro hor
      apply ih.2
      rw [List.mem_cons] at hor
      rcases hor with hdrained | heq | hmem
      . exact Or.inl (apply_remains_drained h happly hdrained)
      . exact Or.inl (apply_remains_drained h happly (hok.1 heq.symm))
      . exact Or.inr hmem

end LimitedOp

namespace StringReader

theorem basicRead_offset_eq (n : Nat) (r : StringReader)
    : (basicRead n r).2.offset = r.offset + (basicRead n r).1.length := by
  have hle := r.offset_add_available_le n
  have hlen : (basicRead n r).1.length = r.available n := by
    unfold basicRead rest
    rw [List.length_take, List.length_drop]
    omega
  rw [hlen]
  rfl

theorem basicRead_of_rest_nil (n : Nat) {r : StringReader} (hr : r.rest = [])
    : (basicRead n r).1 = [] ∧ (basicRead n r).2.rest = [] := by
  rw [basicRead_fst, basicRead_snd, hr]
  simp

theorem metered : (Underlying.ofBasicRead basicRead).Metered offset (fun r => r.rest = []) where
  taken_eq := basicRead_offset_eq
  length_le := lawful.length_le
  progress := lawful.progress
  nil_of_eof n _ hr := (basicRead_of_rest_nil n hr).1
  eof_of_eof n _ hr := (basicRead_of_rest_nil n hr).2
  skip_of_eof := by
    intro n r hn hr
    have hread := basicRead_of_rest_nil n hr
    have hoffset := basicRead_offset_eq n r
    rw [hread.1] at hoffset
    unfold Underlying.ofBasicRead Reader.skip Reader.read
    dsimp only
    rw [Reader.readOf_reader]
    unfold Reader.tryRead Reader.tryReadLoop
    simp only [List.length_nil, hn, Nat.sub_zero, id_eq, hread.1, ↓reduceIte, ne_eq,
      not_true_eq_false]
    exact ⟨hoffset, hread.2⟩

end StringReader

namespace LimitedOp

end LimitedOp

end Channel
end ObTools
