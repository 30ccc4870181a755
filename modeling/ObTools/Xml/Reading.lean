import ObTools.Lib.Digits
import ObTools.Xml.Parser

/-!
This module contains what the parts of the parser read: names, references, values and attributes as
`Element` writes them.
-/

namespace ObTools
namespace Xml
namespace Parser

open ObTools.Lex (chars isAlpha isDigit)

variable {α β : Type}

/-
With the default flags, from a stream that has not failed, a part of the parser reads all of a text.
It leaves everything alone but the stream and the number of the line.
-/
def Consumes (x : Parse α) (text : Bytes) (a : α) : Prop :=
  ∀ p rest, p.flags = PARSER_OPTIMISE_CONTENT → p.failed = false → p.rest = text ++ rest
    → ∃ line, x p = some (.ok (a, { p with rest := rest, line := line }))

namespace Consumes

variable {x : Parse α} {text text1 text2 : Bytes} {a : α} {b : β}

theorem pure (a : α) : Consumes (Pure.pure a : Parse α) [] a := by
  intro p rest _ _ hrest
  refine ⟨p.line, ?_⟩
  rw [List.nil_append] at hrest
  rw [← hrest]
  rfl

theorem bind {f : α → Parse β} (hx : Consumes x text1 a) (hf : Consumes (f a) text2 b)
    : Consumes (x >>= f) (text1 ++ text2) b := by
  intro p rest hflags hfailed hrest
  rw [List.append_assoc] at hrest
  obtain ⟨line1, hx⟩ := hx p _ hflags hfailed hrest
  obtain ⟨line2, hf⟩ := hf { p with rest := text2 ++ rest, line := line1 } rest hflags hfailed rfl
  refine ⟨line2, ?_⟩
  rw [Decoder.bind_eq f hx]
  exact hf

theorem bind_nil {f : α → Parse β} (hx : Consumes x text a) (hf : Consumes (f a) [] b)
    : Consumes (x >>= f) text b := by
  have := hx.bind hf
  rw [List.append_nil] at this
  exact this

theorem map (f : α → β) (hx : Consumes x text a)
    : Consumes (x >>= fun a => Pure.pure (f a) : Parse β) text (f a) :=
  hx.bind_nil (pure (f a))

theorem withFuel {loop : Nat → Parse α} (h : ∀ fuel, text.length < fuel → Consumes (loop fuel) text a)
    : Consumes (withFuel loop) text a := by
  intro p rest hflags hfailed hrest
  refine h (p.rest.length + 1) ?_ p rest hflags hfailed hrest
  rw [hrest, List.length_append]
  omega

end Consumes

theorem getChar_consumes (c d : UInt8) : Consumes (getChar c) [d] d := by
  intro p rest _ hfailed hrest
  refine ⟨p.line, ?_⟩
  unfold getChar
  rw [hfailed, hrest]
  rfl

theorem getChar_bind (c d : UInt8) {f : UInt8 → Parse β} {text : Bytes} {b : β}
    (hf : Consumes (f d) text b)
    : Consumes (getChar c >>= f) (d :: text) b :=
  (getChar_consumes c d).bind hf

theorem dropSpaces_append {ws : Bytes} (hws : ∀ c ∈ ws, isAsciiSpace c = true) (line : Nat) {d : UInt8}
    (hd : isAsciiSpace d = false) (rest : Bytes)
    : ∃ line', dropSpaces line (ws ++ d :: rest) = (d :: rest, line') := by
  induction ws generalizing line with
  | nil =>
    refine ⟨line, ?_⟩
    rw [List.nil_append, dropSpaces, if_neg (by simp [hd])]
  | cons c ws ih =>
    rw [List.forall_mem_cons] at hws
    rw [List.cons_append, dropSpaces, if_pos hws.1]
    exact ih hws.2 _

theorem skipWs_consumes (c : UInt8) (ws : Bytes) (hws : ∀ c ∈ ws, isAsciiSpace c = true) {d : UInt8}
    (hd : isAsciiSpace d = false)
    : Consumes (skipWs c) (ws ++ [d]) d := by
  intro p rest hflags hfailed hrest
  rw [List.append_assoc, List.singleton_append] at hrest
  obtain ⟨line, hdrop⟩ := dropSpaces_append hws (if c = 10 then p.line + 1 else p.line) hd rest
  have hskip : skipWs c p = getChar 0 { p with rest := d :: rest, line := line } := by
    have : skipWs c p = getChar 0
        { p with
          rest := (if p.failed then (p.rest, if c = 10 then p.line + 1 else p.line)
            else dropSpaces (if c = 10 then p.line + 1 else p.line) p.rest).1
          line := (if p.failed then (p.rest, if c = 10 then p.line + 1 else p.line)
            else dropSpaces (if c = 10 then p.line + 1 else p.line) p.rest).2 } := rfl
    rw [this, if_neg (by simp [hfailed]), hrest, hdrop]
  obtain ⟨line', hget⟩ := getChar_consumes 0 d { p with rest := d :: rest, line := line } rest hflags
    hfailed rfl
  exact ⟨line', hskip.trans hget⟩

theorem takeWhile_name {name : Bytes} (hname : ∀ c ∈ name, isNameChar c = true) {d : UInt8}
    (hd : isNameChar d = false) (rest : Bytes)
    : (name ++ d :: rest).takeWhile isNameChar = name := by
  rw [List.takeWhile_append_of_pos hname, List.takeWhile_cons_of_neg (by simp [hd]), List.append_nil]

theorem readRestOfName_consumes (c : UInt8) {name : Bytes} (hname : ∀ c ∈ name, isNameChar c = true)
    {d : UInt8} (hd : isNameChar d = false)
    : Consumes (readRestOfName c) (name ++ [d]) (c :: name, d) := by
  intro p rest hflags hfailed hrest
  rw [List.append_assoc, List.singleton_append] at hrest
  have hread : readRestOfName c p
      = (getChar 0 >>= fun d => Pure.pure (c :: name, d)) { p with rest := d :: rest } := by
    have : readRestOfName c p
        = (getChar 0 >>= fun d => Pure.pure (c :: (if p.failed then [] else
            p.rest.takeWhile isNameChar), d))
          { p with rest := p.rest.drop (if p.failed then [] else
            p.rest.takeWhile isNameChar).length } := rfl
    rw [this, if_neg (by simp [hfailed]), hrest, takeWhile_name hname hd, List.drop_left]
  rw [hread]
  exact (getChar_consumes 0 d).map (fun d => (c :: name, d)) _ rest hflags hfailed rfl

/-
References.
-/

theorem readRef_consumes (c : UInt8) (name : Bytes) (hc : isAlpha c = true)
    (hname : name.all isNameChar = true) {d : UInt8} (hentity : entity (c :: name) = some d)
    : Consumes readRef (c :: (name ++ [59])) [d] := by
  have hhash : ¬c = 35 := by
    intro heq
    rw [heq] at hc
    exact absurd hc (by decide)
  have hread : readRef = getChar 0 >>= fun c => _ := rfl
  rw [hread]
  refine getChar_bind 0 c ?_
  rw [if_neg hhash, if_pos hc]
  refine (readRestOfName_consumes c (List.all_eq_true.mp hname) (d := 59) (by decide)).bind_nil ?_
  dsimp only
  rw [if_neg (by decide), hentity]
  exact Consumes.pure [d]

/--
A character is written as it is, or as a reference that is read as that character.
-/
theorem escape_char (c : UInt8) (escquote : Bool)
    : (Element.escape [c] escquote = [c] ∧ c ≠ 60 ∧ c ≠ 38 ∧ (c = 34 → escquote = false))
        ∨ ∃ text, Element.escape [c] escquote = 38 :: text ∧ Consumes readRef text [c] := by
  unfold Element.escape
  rw [List.flatMap_singleton]
  split
  case isTrue heq =>
    refine Or.inr ⟨chars "lt;", rfl, ?_⟩
    exact readRef_consumes 108 [116] (by decide) (by decide) (by rw [heq]; rfl)
  case isFalse hlt =>
    split
    case isTrue heq =>
      refine Or.inr ⟨chars "gt;", rfl, ?_⟩
      exact readRef_consumes 103 [116] (by decide) (by decide) (by rw [heq]; rfl)
    case isFalse =>
      split
      case isTrue heq =>
        refine Or.inr ⟨chars "amp;", rfl, ?_⟩
        exact readRef_consumes 97 [109, 112] (by decide) (by decide)
          (by rw [heq]; rfl)
      case isFalse hamp =>
        split
        case isTrue heq =>
          refine Or.inr ⟨chars "quot;", rfl, ?_⟩
          exact readRef_consumes 113 [117, 111, 116] (by decide) (by decide)
            (by rw [heq.1]; rfl)
        case isFalse hquot =>
          refine Or.inl ⟨rfl, hlt, hamp, ?_⟩
          intro heq
          simpa [heq] using hquot

theorem escape_cons (c : UInt8) (v : Bytes) (escquote : Bool)
    : Element.escape (c :: v) escquote = Element.escape [c] escquote ++ Element.escape v escquote := by
  unfold Element.escape
  rw [List.flatMap_cons, List.flatMap_singleton]

theorem length_le_escape (v : Bytes) (escquote : Bool)
    : v.length ≤ (Element.escape v escquote).length := by
  induction v with
  | nil => exact Nat.zero_le _
  | cons c v ih =>
    have hpos : 0 < (Element.escape [c] escquote).length := by
      obtain ⟨heq, -⟩ | ⟨text, heq, -⟩ := escape_char c escquote
      all_goals
        rw [heq]
        exact Nat.zero_lt_succ _
    rw [escape_cons, List.length_append, List.length_cons]
    omega

/-
Attributes.
-/

theorem readValueLoop_consumes {quote : UInt8} (hquote : quote = 34 ∨ quote = 39) {escquote : Bool}
    {v : Bytes} (hv : 0 ∉ v) (hesc : quote ∈ v → quote = 34 ∧ escquote = true) (aval : Bytes)
    {fuel : Nat} (hfuel : v.length < fuel)
    : Consumes (readValueLoop quote aval fuel) (Element.escape v escquote ++ [quote])
        (aval ++ v) := by
  have hamp : quote ≠ 38 := by
    rcases hquote with heq | heq <;> rw [heq] <;> decide
  have hzero : quote ≠ 0 := by
    rcases hquote with heq | heq <;> rw [heq] <;> decide
  induction v generalizing aval fuel with
  | nil =>
    obtain ⟨fuel, rfl⟩ : ∃ n, fuel = n + 1 := ⟨fuel - 1, by omega⟩
    refine getChar_bind 0 quote ?_
    rw [if_neg hzero, if_pos rfl, List.append_nil]
    exact Consumes.pure aval
  | cons c v ih =>
    obtain ⟨fuel, rfl⟩ : ∃ n, fuel = n + 1 := ⟨fuel - 1, by omega⟩
    rw [List.mem_cons, not_or] at hv
    rw [List.length_cons, Nat.add_lt_add_iff_right] at hfuel
    have hstep := ih hv.2 (fun hmem => hesc (List.mem_cons_of_mem c hmem)) (aval ++ [c]) hfuel
    rw [List.append_assoc, List.singleton_append] at hstep
    rw [escape_cons, List.append_assoc]
    obtain ⟨heq, -, hc, hq⟩ | ⟨text, heq, href⟩ := escape_char c escquote
    . rw [heq]
      have hne : ¬c = quote := by
        rintro rfl
        have := hesc List.mem_cons_self
        exact absurd (hq this.1) (by simp [this.2])
      refine getChar_bind 0 c ?_
      rw [if_neg (Ne.symm hv.1), if_neg hne, if_neg hc]
      exact hstep
    . rw [heq, List.cons_append]
      refine getChar_bind 0 38 ?_
      rw [if_neg (by decide), if_neg (Ne.symm hamp), if_pos rfl]
      exact href.bind hstep

theorem escape_simple {v : Bytes} (hv : ∀ c ∈ v, c ∉ chars "<>&\"") : Element.escape v false = v := by
  have hchars : chars "<>&\"" = [60, 62, 38, 34] := rfl
  rw [hchars] at hv
  induction v with
  | nil => rfl
  | cons c v ih =>
    rw [List.forall_mem_cons] at hv
    rw [escape_cons, ih hv.2]
    have hc := hv.1
    simp only [List.mem_cons, not_or] at hc
    unfold Element.escape
    rw [List.flatMap_singleton, if_neg hc.1, if_neg hc.2.1, if_neg hc.2.2.1, if_neg (by simp)]
    rfl

/--
The value of an attribute is written between quotes that are not in what is written for it.
-/
theorem writeAttr_eq (name v : Bytes)
    : ∃ quote escquote,
        Element.writeAttr name v
          = 32 :: (name ++ 61 :: quote :: (Element.escape v escquote ++ [quote]))
        ∧ (quote = 34 ∨ quote = 39)
        ∧ (quote ∈ v → quote = 34 ∧ escquote = true) := by
  have hlayout (quote : UInt8) (text : Bytes)
      : chars " " ++ name ++ chars "=" ++ [quote] ++ text ++ [quote]
        = 32 :: (name ++ 61 :: quote :: (text ++ [quote])) := by
    have hspace : chars " " = [32] := rfl
    have hequals : chars "=" = [61] := rfl
    rw [hspace, hequals]
    simp only [List.append_assoc, List.cons_append, List.nil_append]
  unfold Element.writeAttr
  split
  case isTrue hsimple =>
    have hv : ∀ c ∈ v, c ∉ chars "<>&\"" := by
      simpa using hsimple
    refine ⟨34, false, ?_, Or.inl rfl, ?_⟩
    . rw [escape_simple hv, ← hlayout]
      simp only [List.append_assoc]
      rfl
    . intro hmem
      exact absurd (by decide) (hv 34 hmem)
  case isFalse =>
    dsimp only
    split
    case isTrue hquot =>
      refine ⟨39, _, hlayout _ _, Or.inr rfl, ?_⟩
      simp only [Bool.and_eq_true, Bool.not_eq_true', List.contains_eq_mem, decide_eq_true_eq,
        decide_eq_false_iff_not] at hquot
      intro hmem
      exact absurd hmem hquot.2
    case isFalse hquot =>
      refine ⟨34, _, hlayout _ _, Or.inl rfl, ?_⟩
      simp only [Bool.and_eq_true, Bool.not_eq_true', List.contains_eq_mem, decide_eq_true_eq,
        decide_eq_false_iff_not, not_and, not_not] at hquot
      intro hmem
      simp [hmem, hquot hmem]

-- What comes after the attributes of a tag
def tagEnd (empty : Bool) : Bytes := if empty then [47, 62] else [62]

def isName : Bytes → Bool
  | [] => false
  | c :: name => isNameStart c && name.all isNameChar

theorem isNameStart_spec
    : ∀ c : UInt8, isNameStart c = true →
        isAsciiSpace c = false ∧ c ≠ 47 ∧ c ≠ 62 ∧ c ≠ 33 ∧ c ≠ 63 := by
  apply Digits.forall_byte
  decide

-- The end of the name of a tag
theorem writeAttrs_head (attrs : List (Bytes × Bytes)) (empty : Bool)
    : ∃ d text, Element.writeAttrs attrs ++ tagEnd empty = d :: text ∧ isNameChar d = false := by
  cases attrs with
  | nil =>
    cases empty
    . exact ⟨62, [], rfl, by decide⟩
    . exact ⟨47, [62], rfl, by decide⟩
  | cons attr attrs =>
    obtain ⟨quote, escquote, hwrite, -⟩ := writeAttr_eq attr.1 attr.2
    have hcons : Element.writeAttrs (attr :: attrs)
        = Element.writeAttr attr.1 attr.2 ++ Element.writeAttrs attrs := List.flatMap_cons
    rw [hcons, hwrite]
    exact ⟨32, _, rfl, by decide⟩

theorem length_le_writeAttrs (attrs : List (Bytes × Bytes))
    : attrs.length ≤ (Element.writeAttrs attrs).length := by
  induction attrs with
  | nil => exact Nat.zero_le _
  | cons attr attrs ih =>
    obtain ⟨quote, escquote, hwrite, -⟩ := writeAttr_eq attr.1 attr.2
    have hcons : Element.writeAttrs (attr :: attrs)
        = Element.writeAttr attr.1 attr.2 ++ Element.writeAttrs attrs := List.flatMap_cons
    rw [hcons, hwrite, List.length_append, List.length_cons, List.length_cons]
    omega

theorem readAttrsLoop_consumes (empty : Bool) {attrs : List (Bytes × Bytes)}
    (hattrs : ∀ attr ∈ attrs, isName attr.1 = true ∧ 0 ∉ attr.2) {seen : List (Bytes × Bytes)}
    (hsorted : SortedMap.Sorted (seen ++ attrs)) {c : UInt8} {text : Bytes} {fuel : Nat}
    (htext : c :: text = Element.writeAttrs attrs ++ tagEnd empty) (hfuel : attrs.length < fuel)
    : Consumes (readAttrsLoop seen c fuel) text (seen ++ attrs, empty) := by
  induction attrs generalizing seen c text fuel with
  | nil =>
    obtain ⟨fuel, rfl⟩ : ∃ n, fuel = n + 1 := ⟨fuel - 1, by omega⟩
    rw [List.append_nil]
    unfold readAttrsLoop
    cases empty with
    | false =>
      cases htext
      rw [if_neg (by decide), if_neg (by decide)]
      exact Consumes.pure (seen, false)
    | true =>
      cases htext
      rw [if_neg (by decide), if_neg (by decide)]
      dsimp only
      rw [pure_bind, if_pos rfl]
      refine getChar_bind 47 62 ?_
      exact Consumes.pure (seen, true)
  | cons attr attrs ih =>
    obtain ⟨fuel, rfl⟩ : ∃ n, fuel = n + 1 := ⟨fuel - 1, by omega⟩
    obtain ⟨aname, v⟩ := attr
    rw [List.forall_mem_cons] at hattrs
    obtain ⟨⟨hname, hv⟩, hattrs⟩ := hattrs
    match aname, hname with
    | c0 :: aname, hname =>
    simp only [isName, Bool.and_eq_true, List.all_eq_true] at hname
    obtain ⟨hc0, hname⟩ := hname
    obtain ⟨hspace, hslash, hgt, -⟩ := isNameStart_spec c0 hc0
    obtain ⟨quote, escquote, hwrite, hquote, hesc⟩ := writeAttr_eq (c0 :: aname) v
    obtain ⟨d, text', hnext, -⟩ := writeAttrs_head attrs empty
    have htext : c = 32 ∧ text = [c0] ++ ((aname ++ [61]) ++ ([quote]
        ++ ((Element.escape v escquote ++ [quote]) ++ ([d] ++ text')))) := by
      have hcons : Element.writeAttrs ((c0 :: aname, v) :: attrs)
          = Element.writeAttr (c0 :: aname) v ++ Element.writeAttrs attrs := List.flatMap_cons
      rw [hcons, hwrite, List.append_assoc, hnext] at htext
      simpa using htext
    obtain ⟨rfl, rfl⟩ := htext
    unfold readAttrsLoop
    rw [if_neg (by decide), if_pos (by decide)]
    refine (skipWs_consumes 32 [] (by simp) hspace).bind ?_
    dsimp only
    rw [if_neg hslash, if_neg hgt, if_neg (by simp [hc0])]
    refine (readRestOfName_consumes c0 hname (d := 61) (by decide)).bind ?_
    dsimp only
    have hbefore : ∀ e ∈ seen, e.1 < c0 :: aname := by
      intro e he
      exact (List.pairwise_append.mp hsorted).2.2 e he _ List.mem_cons_self
    rw [SortedMap.find_eq_none List.lt_irrefl hbefore]
    rw [if_neg (by decide), if_neg (by decide), pure_bind, if_neg (by decide)]
    have hskip : isAsciiSpace quote = false := by
      rcases hquote with heq | heq <;> rw [heq] <;> decide
    refine (skipWs_consumes 0 [] (by simp) hskip).bind ?_
    rw [if_neg (by rcases hquote with heq | heq <;> rw [heq] <;> decide)]
    refine Consumes.bind (a := v) (Consumes.withFuel ?_) ?_
    . intro fuel hfuel
      have hlength := length_le_escape v escquote
      rw [List.length_append] at hfuel
      have hvfuel : v.length < fuel := by omega
      exact readValueLoop_consumes hquote hv hesc [] hvfuel
    . refine getChar_bind 0 d ?_
      rw [SortedMap.set_last List.lt_irrefl (fun _ _ => List.lt_asymm) hbefore]
      rw [List.append_cons seen _ attrs] at hsorted ⊢
      exact ih hattrs hsorted hnext.symm (by simpa using hfuel)

/-
Content.
-/

-- White space is single spaces before other characters
def singleSpaces : Bytes → Bool
  | [] => true
  | [c] => !isAsciiSpace c
  | c :: d :: text => (!isAsciiSpace c || (c = 32 && !isAsciiSpace d)) && singleSpaces (d :: text)

theorem singleSpaces_tail {c : UInt8} {text : Bytes} (h : singleSpaces (c :: text) = true)
    : singleSpaces text = true := by
  cases text with
  | nil => rfl
  | cons d text =>
    unfold singleSpaces at h
    rw [Bool.and_eq_true] at h
    exact h.2

theorem singleSpaces_space {c : UInt8} {text : Bytes} (h : singleSpaces (c :: text) = true)
    (hc : isAsciiSpace c = true)
    : c = 32 ∧ ∃ d text', text = d :: text' ∧ isAsciiSpace d = false := by
  cases text with
  | nil => simp [singleSpaces, hc] at h
  | cons d text =>
    simp only [singleSpaces, hc, Bool.not_true, Bool.false_or, Bool.and_eq_true, decide_eq_true_eq,
      Bool.not_eq_true'] at h
    exact ⟨h.1.1, d, text, rfl, h.1.2⟩

theorem countLine_consumes (c : UInt8) : Consumes (countLine c) [] () := by
  intro p rest _ _ hrest
  rw [List.nil_append] at hrest
  have hcount : countLine c p
      = some (.ok ((), if c = 10 then { p with line := p.line + 1 } else p)) := rfl
  rw [hcount, ← hrest]
  split
  . exact ⟨p.line + 1, rfl⟩
  . exact ⟨p.line, rfl⟩

-- The first character that is written for one that is not a space
theorem escape_head {d : UInt8} (hd : isAsciiSpace d = false) (text : Bytes)
    : ∃ c input, Element.escape (d :: text) false = c :: input ∧ isAsciiSpace c = false ∧ c ≠ 60
        ∧ (d ≠ 0 → c ≠ 0) := by
  rw [escape_cons]
  obtain ⟨heq, hlt, -⟩ | ⟨input, heq, -⟩ := escape_char d false
  . rw [heq]
    exact ⟨d, _, rfl, hd, hlt, id⟩
  . rw [heq]
    exact ⟨38, _, rfl, by decide, by decide, fun _ => by decide⟩

theorem readContentLoop_space (content : Bytes) (first : Bool) (fuel : Nat) {c : UInt8}
    (hc : isAsciiSpace c = false) (hlt : c ≠ 60) {p : Parser}
    (hflags : p.flags = PARSER_OPTIMISE_CONTENT) (hfailed : p.failed = false) {rest : Bytes}
    (hrest : p.rest = c :: rest)
    : ∃ line, readContentLoop content first 32 (fuel + 1) p
        = readContentLoop (content ++ [32]) false c (fuel + 1) { p with rest := rest, line := line } := by
  obtain ⟨line, hskip⟩ := skipWs_consumes 32 [] (by simp) hc p rest hflags hfailed hrest
  refine ⟨line, ?_⟩
  have hpreserve : p.flags.preserveWhitespace = false := by
    rw [hflags]
    rfl
  rw [readContentLoop, readContentLoop, Decoder.get_bind, Decoder.get_bind]
  rw [if_pos (by simp [hpreserve]; decide), if_neg (by simp [hc]), pure_bind]
  rw [Decoder.bind_eq _ hskip, pure_bind, if_pos hlt]

theorem readContentLoop_char (content : Bytes) (first : Bool) (fuel : Nat) {t : UInt8}
    (ht : isAsciiSpace t = false) (hzero : t ≠ 0) {p : Parser}
    (hflags : p.flags = PARSER_OPTIMISE_CONTENT) (hfailed : p.failed = false) {c d : UInt8}
    {rest : Bytes} (hrest : c :: p.rest = Element.escape [t] false ++ d :: rest)
    : ∃ line, readContentLoop content first c (fuel + 1) p
        = readContentLoop (content ++ [t]) false d fuel { p with rest := rest, line := line } := by
  rw [readContentLoop, Decoder.get_bind]
  obtain ⟨heq, hlt, hamp, -⟩ | ⟨ref, heq, href⟩ := escape_char t false
  . obtain ⟨rfl, hp⟩ : c = t ∧ p.rest = d :: rest := by
      rw [heq] at hrest
      exact List.cons.inj hrest
    rw [if_neg (by simp [ht]), pure_bind]
    dsimp only
    rw [if_neg (by simp [hlt]), if_neg hamp, if_neg hzero]
    obtain ⟨line1, hcount⟩ := countLine_consumes c p _ hflags hfailed rfl
    rw [Decoder.bind_eq _ hcount]
    obtain ⟨line2, hget⟩ := getChar_consumes 0 d { p with line := line1 } rest hflags hfailed hp
    exact ⟨line2, Decoder.bind_eq _ hget⟩
  . obtain ⟨rfl, hp⟩ : c = 38 ∧ p.rest = ref ++ (d :: rest) := by
      rw [heq] at hrest
      exact List.cons.inj hrest
    have hspace : isAsciiSpace 38 = false := by decide
    rw [if_neg (by simp [hspace]), pure_bind]
    dsimp only
    rw [if_neg (by simp), if_pos rfl]
    obtain ⟨line1, href⟩ := href p (d :: rest) hflags hfailed hp
    rw [Decoder.bind_eq _ href]
    obtain ⟨line2, hget⟩ := getChar_consumes 0 d { p with rest := d :: rest, line := line1 } rest
      hflags hfailed rfl
    exact ⟨line2, Decoder.bind_eq _ hget⟩

theorem readContentLoop_end (content : Bytes) (fuel : Nat) {p : Parser} (hfailed : p.failed = false)
    : readContentLoop content false 60 (fuel + 1) p
        = some (.ok (content, { p with rest := 60 :: p.rest })) := by
  have hspace : isAsciiSpace 60 = false := by decide
  have hunget : unget 60 p = some (.ok ((), { p with rest := 60 :: p.rest })) := by
    unfold unget
    rw [if_neg (by simp [hfailed])]
  rw [readContentLoop, Decoder.get_bind, if_neg (by simp [hspace]), pure_bind]
  dsimp only
  rw [if_pos (by decide), Decoder.bind_eq _ hunget, Decoder.pure_eq]

/--
The content of an element is read back up to the next tag.
-/
theorem readContentLoop_eq {text : Bytes} (hspaces : singleSpaces text = true) (hzero : 0 ∉ text)
    (content : Bytes) {first : Bool} (hfirst : text = [] → first = false) {c : UInt8} {fuel : Nat}
    (hfuel : text.length < fuel) {p : Parser} (hflags : p.flags = PARSER_OPTIMISE_CONTENT)
    (hfailed : p.failed = false) {rest : Bytes}
    (hrest : c :: p.rest = Element.escape text false ++ 60 :: rest)
    : ∃ line, readContentLoop content first c fuel p
        = some (.ok (content ++ text, { p with rest := 60 :: rest, line := line })) := by
  induction text generalizing content first c fuel p with
  | nil =>
    obtain ⟨fuel, rfl⟩ : ∃ n, fuel = n + 1 := ⟨fuel - 1, by omega⟩
    obtain ⟨rfl, rfl⟩ : c = 60 ∧ p.rest = rest := List.cons.inj hrest
    rw [hfirst rfl, readContentLoop_end content fuel hfailed, List.append_nil]
    exact ⟨p.line, rfl⟩
  | cons t text ih =>
    obtain ⟨fuel, rfl⟩ : ∃ n, fuel = n + 1 := ⟨fuel - 1, by omega⟩
    rw [List.mem_cons, not_or] at hzero
    rw [List.length_cons, Nat.add_lt_add_iff_right] at hfuel
    have hspaces' := singleSpaces_tail hspaces
    rw [escape_cons, List.append_assoc] at hrest
    rw [List.append_cons]
    by_cases ht : isAsciiSpace t = true
    . -- A space is passed over together with the character after it
      obtain ⟨rfl, d, text', rfl, hd⟩ := singleSpaces_space hspaces ht
      obtain ⟨c', input, hescape, hc', hlt, -⟩ := escape_head hd text'
      rw [hescape] at hrest ih
      obtain ⟨rfl, hp⟩ : c = 32 ∧ p.rest = c' :: (input ++ 60 :: rest) := List.cons.inj hrest
      obtain ⟨line, hspace⟩ := readContentLoop_space content first fuel hc' hlt hflags hfailed hp
      rw [hspace]
      refine ih hspaces' hzero.2 (content ++ [32]) ?_ ?_ ?_ ?_ ?_
      . exact fun _ => rfl
      . omega
      . exact hflags
      . exact hfailed
      . exact (List.cons_append ..).symm
    . obtain ⟨d, input, hnext⟩ := List.exists_cons_of_ne_nil
        (List.append_ne_nil_of_right_ne_nil (Element.escape text false) (List.cons_ne_nil 60 rest))
      rw [hnext] at hrest ih
      obtain ⟨line, hchar⟩ := readContentLoop_char content first fuel (by simpa using ht)
        (Ne.symm hzero.1) hflags hfailed hrest
      rw [hchar]
      exact ih hspaces' hzero.2 (content ++ [t]) (fun _ => rfl) hfuel hflags hfailed rfl

end Parser
end Xml
end ObTools
