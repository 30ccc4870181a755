import ObTools.Json.Tokens

/-!
This module contains the proof that the text of a value is read as its tokens, provided that the
names of all properties can be written as they are.
-/

namespace ObTools
namespace Json

open ObTools.Lex (Token Analyser chars)

-- A code point of the Basic Multilingual Plane, other than 0 and the surrogates
def IsCodePoint (u : UInt32) : Prop :=
  1 ≤ u.toNat ∧ u.toNat ≤ 0xFFFF ∧ ¬(0xD800 ≤ u.toNat ∧ u.toNat ≤ 0xDFFF)

def IsText (s : Bytes) : Prop := ∃ l : List UInt32, (∀ u ∈ l, IsCodePoint u) ∧ s = Text.Utf8.encode l

section Strings

variable {u : UInt32}

theorem showHex_spec (h : u.toNat < 0x10000)
    : ∃ h1 h2 h3 h4,
        Value.showHex u = [h1, h2, h3, h4]
          ∧
        (h1 ≠ 0 ∧ h2 ≠ 0 ∧ h3 ≠ 0 ∧ h4 ≠ 0) ∧ Text.xtoi [h1, h2, h3, h4] = u := by
  have hle : (Digits.toBytes 16 u.toNat).length ≤ 4 :=
    Digits.length_toBytes_le (by decide) (by decide) (by omega)
  have hlen : (Value.showHex u).length = 4 := by
    unfold Value.showHex
    rw [List.length_append, List.length_replicate]
    omega
  have hdigit : ∀ c ∈ Value.showHex u, c ≠ 0 := by
    intro c hc
    unfold Value.showHex at hc
    rw [List.mem_append] at hc
    cases hc with
    | inl hzero =>
      rw [List.eq_of_mem_replicate hzero]
      decide
    | inr hdigit =>
      have := of_decide_eq_true (Digits.isDigit_of_mem_toBytes (by decide) (by decide) hdigit)
      exact (Text.isDigit_spec c this).2.2.2.2.2
  have hvalue : Text.xtoi (Value.showHex u) = u := by
    unfold Value.showHex
    rw [Text.xtoi_hex u.toNat_lt, UInt32.ofNat_toNat]
  generalize Value.showHex u = s at *
  match s, hlen with
  | [h1, h2, h3, h4], _ =>
    exact ⟨h1, h2, h3, h4, rfl, ⟨hdigit _ (by simp), hdigit _ (by simp), hdigit _ (by simp),
      hdigit _ (by simp)⟩, hvalue⟩

theorem escapes_spec
    : ∀ e ∈ Value.escapes, Analyser.escape e.2 = some e.1.toUInt8 ∧
        Text.Utf8.append e.1 = [e.1.toUInt8] := by
  have hall : Value.escapes.all (fun e => decide (Analyser.escape e.2 = some e.1.toUInt8 ∧
      Text.Utf8.append e.1 = [e.1.toUInt8])) = true := by
    decide
  intro e he
  exact of_decide_eq_true (List.all_eq_true.mp hall e he)

/--
What is written for a character is read as the character.
-/
theorem readStringLoop_writeChar (value input : Bytes) (hpos : 1 ≤ u.toNat) (hlt : u.toNat < 0x10000)
    : Analyser.readStringLoop value (Value.writeChar u ++ input)
        = Analyser.readStringLoop (value ++ Text.Utf8.append u) input := by
  have h31 : u.toNat < 2 ^ 31 := by omega
  unfold Value.writeChar
  split
  . next e hfind =>
    have heq : e.1 = u := by simpa using List.find?_some hfind
    obtain ⟨hescape, happend⟩ := escapes_spec e (List.mem_of_find?_eq_some hfind)
    rw [← heq, happend]
    exact Analyser.readStringLoop_escape value input hescape
  . next hfind =>
    have hne : ∀ e ∈ Value.escapes, e.1 ≠ u := by
      simpa [List.find?_eq_none] using hfind
    have h7f : u.toInt32 > 0x7f ↔ 0x7f < u.toNat := Text.Utf8.lt_toInt32_iff h31 (by decide)
    have hffff : u.toInt32 < 0x10000 := (Text.Utf8.toInt32_lt_iff h31 (by decide)).mpr hlt
    split
    . next hgt =>
      obtain ⟨h1, h2, h3, h4, hhex, hne, hvalue⟩ := showHex_spec hlt
      rw [hhex]
      have := Analyser.readStringLoop_unicode value input hne
      rw [hvalue] at this
      exact this
    . next hle =>
      have hsmall : u.toNat < 0x80 := by
        rw [h7f] at hle
        omega
      have hbyte : u.toUInt8.toNat = u.toNat := by
        rw [UInt32.toNat_toUInt8]
        exact Nat.mod_eq_of_lt (by omega)
      have hplain : ∀ c : UInt8, u.toUInt8 = c → u = c.toUInt32 := by
        intro c hc
        rw [← UInt32.toNat_inj, UInt8.toNat_toUInt32, ← hc, hbyte]
      rw [Text.Utf8.append_one hsmall, List.singleton_append]
      apply Analyser.readStringLoop_plain
      unfold Analyser.isPlain
      simp only [ne_eq, Bool.and_eq_true, decide_eq_true_eq]
      refine ⟨⟨?_, ?_⟩, ?_⟩
      . intro hzero
        rw [hplain 0 hzero] at hpos
        contradiction
      . intro hquote
        exact hne (34, 34) (by decide) (hplain 34 hquote).symm
      . intro hbackslash
        exact hne (92, 92) (by decide) (hplain 92 hbackslash).symm

theorem readStringLoop_writeChars (value rest : Bytes) {l : List UInt32}
    (h : ∀ u ∈ l, IsCodePoint u)
    : Analyser.readStringLoop value (l.flatMap Value.writeChar ++ 34 :: rest)
        = .ok (value ++ Text.Utf8.encode l, rest) := by
  unfold Text.Utf8.encode
  induction l generalizing value with
  | nil =>
    rw [List.flatMap_nil, List.flatMap_nil, List.nil_append, List.append_nil]
    exact Analyser.readStringLoop_quote value rest
  | cons u l ih =>
    have hu := h u (by simp)
    rw [List.flatMap_cons, List.flatMap_cons, List.append_assoc,
      readStringLoop_writeChar _ _ hu.1 (by have := hu.2.1; omega),
      ih _ (fun v hv => h v (by simp [hv])), List.append_assoc]

theorem readsToken_writeStringTo {s : Bytes} (hs : IsText s) (rest : Bytes)
    : ReadsToken (Value.writeStringTo s ++ rest) (quoted s) rest := by
  obtain ⟨l, hl, rfl⟩ := hs
  have hdecode : Text.Utf8.decode (Text.Utf8.encode l) = l := by
    have happend := Text.Utf8.decode_encode_append (fun u hu => Nat.lt_of_le_of_lt (hl u hu).2.1 (by decide)) []
    rw [List.append_nil, Text.Utf8.decode, List.append_nil] at happend
    exact happend
  unfold Value.writeStringTo
  rw [hdecode, List.append_assoc, List.cons_append]
  exact readsToken_string (readStringLoop_writeChars [] rest hl)

-- A name that can be written as it is
def IsPlainName (s : Bytes) : Prop := ∀ c ∈ s, c ≠ 34 ∧ c ≠ 92

theorem append_ne_zero (hpos : 1 ≤ u.toNat) (hlt : u.toNat < 0x10000)
    : ∀ c ∈ Text.Utf8.append u, c ≠ 0 := by
  intro c hc hzero
  have hzero : c.toNat = 0 := by rw [hzero]; rfl
  by_cases h1 : u.toNat < 0x80
  . rw [Text.Utf8.append_one h1, List.mem_singleton] at hc
    rw [hc, UInt8.toNat_ofNat'] at hzero
    omega
  . by_cases h2 : u.toNat < 0x800
    . rw [Text.Utf8.append_two (by omega) h2] at hc
      simp only [List.mem_cons, List.not_mem_nil, or_false] at hc
      rcases hc with rfl | rfl
      . rw [UInt8.toNat_ofNat'] at hzero
        omega
      . rw [UInt8.toNat_ofNat'] at hzero
        omega
    . rw [Text.Utf8.append_three (by omega) hlt] at hc
      simp only [List.mem_cons, List.not_mem_nil, or_false] at hc
      rcases hc with rfl | rfl | rfl
      . rw [UInt8.toNat_ofNat'] at hzero
        omega
      . rw [UInt8.toNat_ofNat'] at hzero
        omega
      . rw [UInt8.toNat_ofNat'] at hzero
        omega

theorem IsText.ne_zero {s : Bytes} (hs : IsText s) : ∀ c ∈ s, c ≠ 0 := by
  obtain ⟨l, hl, rfl⟩ := hs
  intro c hc
  unfold Text.Utf8.encode at hc
  rw [List.mem_flatMap] at hc
  obtain ⟨u, hu, hc⟩ := hc
  have := hl u hu
  exact append_ne_zero this.1 (by have := this.2.1; omega) c hc

theorem readsToken_propertyName {s : Bytes} (hs : IsText s) (hplain : IsPlainName s) (rest : Bytes)
    : ReadsToken (34 :: (s ++ 34 :: rest)) (quoted s) rest := by
  apply readsToken_string
  rw [Analyser.readStringLoop_plains, Analyser.readStringLoop_quote, List.nil_append]
  intro c hc
  simp [Analyser.isPlain, hs.ne_zero c hc, hplain c hc]

end Strings

theorem isDigit_of_value : ∀ c : UInt8, Digits.isDigit 10 c = true → Lex.isDigit c = true := by
  apply Digits.forall_byte
  decide

theorem readsToken_showInteger (n : Int64) {rest : Bytes} (hrest : Stops rest)
    : ReadsToken (Value.showInteger n ++ rest) { type := .number, value := Value.showInteger n } rest := by
  have hdigits : ∀ c ∈ Digits.toBytes 10 n.toInt.natAbs, Lex.isDigit c = true := by
    intro c hc
    exact isDigit_of_value c (Digits.isDigit_of_mem_toBytes (by decide) (by decide) hc)
  have hne : Digits.toBytes 10 n.toInt.natAbs ≠ [] := Digits.toBytes_ne_nil
  unfold Value.showInteger
  generalize Digits.toBytes 10 n.toInt.natAbs = s at *
  split
  . exact readsToken_negative hne hdigits hrest
  . cases s with
    | nil => exact absurd rfl hne
    | cons d s =>
      exact readsToken_number (hdigits d (by simp)) (fun c hc => hdigits c (by simp [hc])) hrest

namespace Value

mutual

def tokens : Value → List Token
  | null => [bare "null"]
  | integer n => [{ type := .number, value := showInteger n }]
  | string s => [quoted s]
  | object o => symbol 123 :: (propertyTokens o ++ [symbol 125])
  | array a => symbol 91 :: (elementTokens a ++ [symbol 93])
  | true_ => [bare "true"]
  | false_ => [bare "false"]
  | _ => []

def propertyTokens : List (Bytes × Value) → List Token
  | [] => []
  | (name, v) :: o =>
    quoted name :: symbol 58
      :: (tokens v ++ ((if o.isEmpty then [] else [symbol 44]) ++ propertyTokens o))

def elementTokens : List Value → List Token
  | [] => []
  | v :: a => tokens v ++ ((if a.isEmpty then [] else [symbol 44]) ++ elementTokens a)

end

/-
Values that have a text in JSON, with the keys of maps in order.
-/
mutual

def Textual : Value → Prop
  | null => True
  | integer _ => True
  | string s => IsText s
  | object o => (o.map Prod.fst).Pairwise (· < ·) ∧ TextualProperties o
  | array a => TextualElements a
  | true_ => True
  | false_ => True
  | undefined => False
  | number _ => False
  | binary _ => False
  | break_ => False

def TextualProperties : List (Bytes × Value) → Prop
  | [] => True
  | (name, v) :: o => IsText name ∧ v.Textual ∧ TextualProperties o

def TextualElements : List Value → Prop
  | [] => True
  | v :: a => v.Textual ∧ TextualElements a

end

-- Whether all names of properties can be written as they are
mutual

def PlainNames : Value → Prop
  | object o => PlainNamesProperties o
  | array a => PlainNamesElements a
  | _ => True

def PlainNamesProperties : List (Bytes × Value) → Prop
  | [] => True
  | (name, v) :: o => IsPlainName name ∧ v.PlainNames ∧ PlainNamesProperties o

def PlainNamesElements : List Value → Prop
  | [] => True
  | v :: a => v.PlainNames ∧ PlainNamesElements a

end

theorem tokens_ne_nil {v : Value} (h : v.Textual) : v.tokens ≠ [] := by
  cases v with
  | undefined => exact absurd h (by simp [Textual])
  | number f => exact absurd h (by simp [Textual])
  | binary s => exact absurd h (by simp [Textual])
  | break_ => exact absurd h (by simp [Textual])
  | _ => simp [tokens]

mutual

theorem Textual.plain : {v : Value} → v.Textual → v.plain = true
  | null, _ => rfl
  | integer _, _ => rfl
  | string _, _ => rfl
  | object o, h => by
    rw [Textual] at h
    rw [Value.plain]
    exact TextualProperties.plain h.2
  | array a, h => by
    rw [Textual] at h
    rw [Value.plain]
    exact TextualElements.plain h
  | true_, _ => rfl
  | false_, _ => rfl
  | undefined, _ => rfl
  | binary _, _ => rfl
  | number f, h => by
    rw [Textual] at h
    contradiction
  | break_, h => by
    rw [Textual] at h
    contradiction

theorem TextualProperties.plain
    : {o : List (Bytes × Value)} → TextualProperties o → plainObject o = true
  | [], _ => rfl
  | (name, v) :: o, h => by
    rw [TextualProperties] at h
    rw [plainObject, Textual.plain h.2.1, TextualProperties.plain h.2.2]
    rfl

theorem TextualElements.plain : {a : List Value} → TextualElements a → plainArray a = true
  | [], _ => rfl
  | v :: a, h => by
    rw [TextualElements] at h
    rw [plainArray, Textual.plain h.1, TextualElements.plain h.2]
    rfl

end

theorem elementTokens_ne_nil {a : List Value} (h : TextualElements a) (hne : a.isEmpty = false)
    : elementTokens a ≠ [] := by
  cases a with
  | nil => contradiction
  | cons v a =>
    rw [TextualElements] at h
    simp [elementTokens, tokens_ne_nil h.1]

variable (showDouble : Float → Bytes)

def IsSpaces (ws : Bytes) : Prop := ∀ c ∈ ws, Text.isSpace c = true

theorem isSpaces_nil : IsSpaces [] := by simp [IsSpaces]

theorem isSpaces_spaces (n : Nat) : IsSpaces (spaces n) := by
  intro c hc
  rw [List.eq_of_mem_replicate hc]
  decide

theorem IsSpaces.append {ws ws' : Bytes} (h : IsSpaces ws) (h' : IsSpaces ws')
    : IsSpaces (ws ++ ws') := by
  intro c hc
  rw [List.mem_append] at hc
  cases hc with
  | inl hc => exact h c hc
  | inr hc => exact h' c hc

theorem isSpaces_if {p : Bool} {ws ws' : Bytes} (h : IsSpaces ws) (h' : IsSpaces ws')
    : IsSpaces (if p then ws else ws') := by
  split
  . exact h
  . exact h'

theorem isSpaces_newline : IsSpaces [10] := by
  intro c hc
  rw [List.mem_singleton.mp hc]
  decide

theorem isSpaces_space : IsSpaces [32] := by
  intro c hc
  rw [List.mem_singleton.mp hc]
  decide

-- The spaces that are written in front of something
theorem stops_append {ws rest : Bytes} (hws : ∀ c ∈ ws.head?, c = 32 ∨ c = 10) (hrest : Stops rest)
    : Stops (ws ++ rest) := by
  cases ws with
  | nil => exact hrest
  | cons c ws =>
    intro d hd
    have hd : c = d := by simpa using hd
    rcases hws c (by simp) with h | h
    . exact hd ▸ .inr (.inr (.inr (.inl h)))
    . exact hd ▸ .inr (.inr (.inr (.inr h)))

theorem stops_cons {c : UInt8} (hc : c = 44 ∨ c = 93 ∨ c = 125) (rest : Bytes)
    : Stops (c :: rest) := by
  intro d hd
  have hd : c = d := by simpa using hd
  rcases hc with h | h | h
  . exact hd ▸ .inl h
  . exact hd ▸ .inr (.inl h)
  . exact hd ▸ .inr (.inr (.inl h))

theorem head_spaces (n : Nat) : ∀ c ∈ (spaces n).head?, c = 32 ∨ c = 10 := by
  intro c hc
  have := List.eq_of_mem_replicate (List.mem_of_mem_head? hc)
  exact .inl this

/-
The text of something, whatever follows it.
-/
def LexesTo (text : Bytes) (tokens : List Token) : Prop :=
  ∀ rest, Stops rest → ∃ ws, IsSpaces ws ∧ Lexes (text ++ rest) tokens (ws ++ rest)

section LexesTo

variable {text more : Bytes} {toks moreToks : List Token}

theorem LexesTo.of_token {token : Token} (h : ∀ rest, Stops rest → ReadsToken (text ++ rest) token rest)
    : LexesTo text [token] := by
  intro rest hrest
  exact ⟨[], isSpaces_nil, .token (h rest hrest)⟩

theorem LexesTo.indented (h : LexesTo text toks) (ws : Bytes) (hws : IsSpaces ws) (hne : toks ≠ [])
    : LexesTo (ws ++ text) toks := by
  intro rest hrest
  obtain ⟨ws', hws', hlex⟩ := h rest hrest
  rw [List.append_assoc]
  exact ⟨ws', hws', hlex.spaces hws hne⟩

theorem LexesTo.property (h : LexesTo text toks) {name : Bytes} (hname : IsText name)
    (hplain : IsPlainName name) (hne : toks ≠ []) (lead gap : Bytes) (hlead : IsSpaces lead) (hgap : IsSpaces gap)
    : LexesTo (lead ++ 34 :: (name ++ 34 :: 58 :: (gap ++ text)))
        (quoted name :: symbol 58 :: toks) := by
  intro rest hrest
  obtain ⟨ws, hws, hlex⟩ := h rest hrest
  refine ⟨ws, hws, ?_⟩
  have hvalue : Lexes (58 :: (gap ++ (text ++ rest))) (symbol 58 :: toks) (ws ++ rest) :=
    ⟨_, readsToken_symbol (by decide) _, hlex.spaces hgap hne⟩
  have hproperty : Lexes (34 :: (name ++ 34 :: 58 :: (gap ++ (text ++ rest))))
      (quoted name :: symbol 58 :: toks) (ws ++ rest) :=
    ⟨_, readsToken_propertyName hname hplain _, hvalue⟩
  simpa [List.append_assoc] using hproperty.spaces hlead (by simp)

/--
One item of a list that is separated by commas.
-/
theorem LexesTo.item (h : LexesTo text toks) (hmore : LexesTo more moreToks) (isLast : Bool)
    (sep : Bytes) (hsep : IsSpaces sep) (hhead : ∀ c ∈ sep.head?, c = 32 ∨ c = 10)
    (hlast : isLast = true → more = [] ∧ moreToks = []) (hne : isLast = false → moreToks ≠ [])
    : LexesTo (text ++ ((if isLast then [] else [44]) ++ (sep ++ more)))
        (toks ++ ((if isLast then [] else [symbol 44]) ++ moreToks)) := by
  intro rest hrest
  cases isLast with
  | true =>
    obtain ⟨hmore, htoks⟩ := hlast rfl
    obtain ⟨ws, hws, hlex⟩ := h (sep ++ rest) (stops_append hhead hrest)
    subst hmore htoks
    refine ⟨ws ++ sep, hws.append hsep, ?_⟩
    simpa [List.append_assoc] using hlex
  | false =>
    obtain ⟨ws', hws', hlex'⟩ := hmore rest hrest
    obtain ⟨ws, hws, hlex⟩ := h (44 :: (sep ++ (more ++ rest))) (stops_cons (.inl rfl) _)
    have hcomma : Lexes (44 :: (sep ++ (more ++ rest))) (symbol 44 :: moreToks) (ws' ++ rest) :=
      ⟨_, readsToken_symbol (by decide) _, hlex'.spaces hsep (hne rfl)⟩
    refine ⟨ws', hws', ?_⟩
    have := hlex.append (hcomma.spaces hws (by simp))
    simpa [List.append_assoc] using this

/--
A list in brackets. There can be a line end behind the last one.
-/
theorem LexesTo.brackets (h : LexesTo text toks) (open_ close : UInt8) (n : Nat)
    (hopen : isSymbolChar open_ = true) (hclose : close = 93 ∨ close = 125) (multiline : Bool)
    (lineEnd : Bytes) (hend : IsSpaces lineEnd)
    : LexesTo
        (open_ :: ((if multiline then [10] else []) ++ (text
          ++ ((if multiline then spaces n else []) ++ close :: lineEnd))))
        (symbol open_ :: (toks ++ [symbol close])) := by
  intro rest hrest
  have hsym : isSymbolChar close = true := by
    rcases hclose with rfl | rfl <;> decide
  have hstops : Stops ((if multiline then spaces n else []) ++ close :: (lineEnd ++ rest)) := by
    apply stops_append
    . split
      . exact head_spaces n
      . simp
    . exact stops_cons (.inr hclose) _
  obtain ⟨ws, hws, hlex⟩ := h _ hstops
  have hindent : IsSpaces (ws ++ if multiline then spaces n else []) :=
    hws.append (isSpaces_if (isSpaces_spaces n) isSpaces_nil)
  have htoken : Lexes (close :: (lineEnd ++ rest)) [symbol close] (lineEnd ++ rest) :=
    .token (readsToken_symbol hsym _)
  have hbody := htoken.spaces hindent (by simp)
  rw [List.append_assoc] at hbody
  have hall := (hlex.append hbody).spaces
    (isSpaces_if (p := multiline) isSpaces_newline isSpaces_nil) (by simp)
  refine ⟨lineEnd, hend, _, readsToken_symbol hopen _, ?_⟩
  simpa [List.append_assoc] using hall

end LexesTo

mutual

theorem writeTo_lexes (pretty : Bool)
    : (v : Value) → v.Textual → v.PlainNames → (indent : Nat) →
        LexesTo (writeTo showDouble pretty indent v) v.tokens
  | null, _, _, indent => by
    rw [writeTo, tokens]
    exact .of_token fun rest hrest => readsToken_name (by decide) (by decide) hrest
  | true_, _, _, indent => by
    rw [writeTo, tokens]
    exact .of_token fun rest hrest => readsToken_name (by decide) (by decide) hrest
  | false_, _, _, indent => by
    rw [writeTo, tokens]
    exact .of_token fun rest hrest => readsToken_name (by decide) (by decide) hrest
  | integer n, _, _, indent => by
    rw [writeTo, tokens]
    exact .of_token fun rest hrest => readsToken_showInteger n hrest
  | string s, ht, _, indent => by
    rw [Textual] at ht
    rw [writeTo, tokens]
    exact .of_token fun rest _ => readsToken_writeStringTo ht rest
  | object o, ht, hn, indent => by
    rw [Textual] at ht
    rw [PlainNames] at hn
    rw [writeTo, tokens]
    have := LexesTo.brackets (writeProperties_lexes pretty o ht.2 hn indent) 123 125 indent
      (by decide) (.inr rfl) (pretty && !o.isEmpty)
      (if (pretty && !o.isEmpty) && indent == 0 then [10] else [])
      (isSpaces_if isSpaces_newline isSpaces_nil)
    simpa [List.append_assoc] using this
  | array a, ht, hn, indent => by
    rw [Textual] at ht
    rw [PlainNames] at hn
    rw [writeTo, tokens]
    have := LexesTo.brackets (writeElements_lexes pretty (pretty && a.any isMultiline) a ht hn indent)
      91 93 indent (by decide) (.inl rfl) (pretty && a.any isMultiline)
      (if (pretty && a.any isMultiline) && indent == 0 then [10] else [])
      (isSpaces_if isSpaces_newline isSpaces_nil)
    simpa [List.append_assoc] using this
  | undefined, ht, _, _ => by
    rw [Textual] at ht
    contradiction
  | number f, ht, _, _ => by
    rw [Textual] at ht
    contradiction
  | binary s, ht, _, _ => by
    rw [Textual] at ht
    contradiction
  | break_, ht, _, _ => by
    rw [Textual] at ht
    contradiction

theorem writeProperties_lexes (pretty : Bool)
    : (o : List (Bytes × Value)) → TextualProperties o → PlainNamesProperties o → (indent : Nat) →
        LexesTo (writeProperties showDouble pretty indent o) (propertyTokens o)
  | [], _, _, indent => by
    intro rest hrest
    rw [writeProperties, propertyTokens]
    exact ⟨[], isSpaces_nil, rfl⟩
  | (name, v) :: o, ht, hn, indent => by
    rw [TextualProperties] at ht
    rw [PlainNamesProperties] at hn
    rw [writeProperties, propertyTokens]
    have hv := LexesTo.property (writeTo_lexes pretty v ht.2.1 hn.2.1 (indent + 2)) ht.1 hn.1
      (tokens_ne_nil ht.2.1) (if pretty then spaces (indent + 2) else [])
      (if pretty then if v.isMultiline then 10 :: spaces (indent + 2) else [32] else [])
      (isSpaces_if (isSpaces_spaces _) isSpaces_nil)
      (isSpaces_if (isSpaces_if (isSpaces_newline.append (isSpaces_spaces _)) isSpaces_space)
        isSpaces_nil)
    have := LexesTo.item hv (writeProperties_lexes pretty o ht.2.2 hn.2.2 indent) o.isEmpty
      (if pretty then [10] else []) (isSpaces_if isSpaces_newline isSpaces_nil)
      (by split <;> simp)
      (by cases o <;> simp [writeProperties, propertyTokens])
      (by cases o <;> simp [propertyTokens])
    simpa [List.append_assoc] using this

theorem writeElements_lexes (pretty multiline : Bool)
    : (a : List Value) → TextualElements a → PlainNamesElements a → (indent : Nat) →
        LexesTo (writeElements showDouble pretty multiline indent a) (elementTokens a)
  | [], _, _, indent => by
    intro rest hrest
    rw [writeElements, elementTokens]
    exact ⟨[], isSpaces_nil, rfl⟩
  | v :: a, ht, hn, indent => by
    rw [TextualElements] at ht
    rw [PlainNamesElements] at hn
    rw [writeElements, elementTokens]
    have hv := LexesTo.indented (writeTo_lexes pretty v ht.1 hn.1 (indent + 2))
      (if multiline then spaces (indent + 2) else if pretty then [32] else [])
      (isSpaces_if (isSpaces_spaces _) (isSpaces_if isSpaces_space isSpaces_nil))
      (tokens_ne_nil ht.1)
    have := LexesTo.item hv (writeElements_lexes pretty multiline a ht.2 hn.2 indent) a.isEmpty
      (if multiline then [10] else if pretty && a.isEmpty then [32] else [])
      (isSpaces_if isSpaces_newline (isSpaces_if isSpaces_space isSpaces_nil))
      (by split <;> [skip; split] <;> simp)
      (by cases a <;> simp [writeElements, elementTokens])
      (elementTokens_ne_nil ht.2)
    simpa [List.append_assoc] using this

end

end Value

end Json
end ObTools
