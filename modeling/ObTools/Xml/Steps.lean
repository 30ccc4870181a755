import ObTools.Xml.Reading

/-!
This module contains what the steps of the parser do with tags and content as `Element` writes them.
-/

namespace ObTools
namespace Xml
namespace Parser

open ObTools.Lex (chars)

variable {p : Parser} {rest : Bytes} {attrs : List (Bytes × Bytes)}

-- The parser after the end of an element
def closed (e : Element) (p : Parser) : Parser :=
  match p.elements with
  | [] => { p with root := some e }
  | top :: elements => { p with elements := top.add e :: elements }

-- The parser after the start tag of an element
def tagged (empty : Bool) (e : Element) (p : Parser) : Parser :=
  if empty then closed e p else { p with elements := e :: p.elements }

theorem initialProcessing_eq (hflags : p.flags = PARSER_OPTIMISE_CONTENT) (e : Element)
    : initialProcessing e p = some (.ok ((), p)) := by
  unfold initialProcessing
  rw [Decoder.get_bind, hflags]
  rfl

theorem finalProcessing_eq (hflags : p.flags = PARSER_OPTIMISE_CONTENT) (e : Element)
    : finalProcessing e p = some (.ok (e.optimise, p)) := by
  unfold finalProcessing
  rw [Decoder.get_bind, hflags]
  rfl

theorem closeElement_eq (e : Element) : closeElement e p = some (.ok ((), closed e p)) := rfl

/--
A start tag opens a new element with its name and attributes, or adds it if it is empty.
-/
theorem readTag_eq (hflags : p.flags = PARSER_OPTIMISE_CONTENT) (hfailed : p.failed = false)
    {c : UInt8} {name : Bytes} (hname : ∀ c ∈ name, isNameChar c = true)
    (hattrs : ∀ attr ∈ attrs, isName attr.1 = true ∧ 0 ∉ attr.2) (hsorted : SortedMap.Sorted attrs)
    {empty : Bool} (hrest : p.rest = name ++ (Element.writeAttrs attrs ++ tagEnd empty) ++ rest)
    : ∃ l line, readTag c p = some (.ok (empty, tagged empty
        { Element.new p.next (c :: name) [] with attrs := attrs, line := l }
        { p with rest := rest, line := line, next := p.next + 1, hasRoot := true })) := by
  obtain ⟨d, text, hd, hchar⟩ := writeAttrs_head attrs empty
  have hfuel : attrs.length ≤ text.length := by
    have hle := length_le_writeAttrs attrs
    have hlength := congrArg List.length hd
    have : 0 < (tagEnd empty).length := by
      cases empty <;> decide
    rw [List.length_append, List.length_cons] at hlength
    omega
  have hread : Consumes (withFuel (readAttrsLoop [] d)) text (attrs, empty) := by
    apply Consumes.withFuel
    intro fuel hlt
    rw [← List.nil_append attrs] at hsorted
    exact readAttrsLoop_consumes empty hattrs hsorted hd.symm (by omega)
  have hp : p.rest = (name ++ [d]) ++ (text ++ rest) := by
    rw [hrest, hd]
    simp
  obtain ⟨line1, h1⟩ := readRestOfName_consumes c hname hchar { p with next := p.next + 1 } _ hflags
    hfailed hp
  obtain ⟨line2, h2⟩ := hread
    { p with rest := text ++ rest, line := line1, next := p.next + 1 } rest hflags hfailed rfl
  refine ⟨line1, line2, ?_⟩
  have hnew : newElement [] [] p = some (.ok (Element.new p.next [] [], { p with next := p.next + 1 })) :=
    rfl
  unfold readTag
  rw [Decoder.bind_eq _ hnew, Decoder.bind_eq _ h1]
  dsimp only
  rw [Decoder.get_bind, Decoder.bind_eq _ h2]
  dsimp only
  have hinitial (e : Element) := initialProcessing_eq
    (p := { p with rest := rest, line := line2, next := p.next + 1 }) hflags e
  have hfinal (e : Element) := finalProcessing_eq
    (p := { p with rest := rest, line := line2, next := p.next + 1, hasRoot := true }) hflags e
  rw [Decoder.bind_eq _ (hinitial _), Decoder.modify_bind]
  cases empty with
  | true =>
    rw [if_pos rfl, Decoder.bind_eq _ (hfinal _)]
    rfl
  | false => rfl

/--
An end tag ends the innermost open element.
-/
theorem readEndTag_eq (hflags : p.flags = PARSER_OPTIMISE_CONTENT) (hfailed : p.failed = false)
    {c : UInt8} {name : Bytes} (hname : ∀ c ∈ name, isNameChar c = true)
    {e : Element} {elements : List Element} (helements : p.elements = e :: elements)
    (he : e.name = c :: name) (hrest : p.rest = name ++ 62 :: rest)
    : ∃ line, readEndTag c p
        = some (.ok ((), closed e.optimise
            { p with rest := rest, line := line, elements := elements })) := by
  rw [List.append_cons] at hrest
  obtain ⟨line, h⟩ := readRestOfName_consumes c hname (by decide) p rest hflags hfailed hrest
  refine ⟨line, ?_⟩
  have hspace : isAsciiSpace 62 = false := by decide
  unfold readEndTag
  rw [Decoder.bind_eq _ h]
  dsimp only
  rw [if_neg (by simp [hspace]), pure_bind, if_neg (by simp), Decoder.get_bind]
  dsimp only
  rw [helements]
  dsimp only
  have hfinal := finalProcessing_eq
    (p := { p with rest := rest, line := line, elements := elements }) hflags e
  rw [if_pos he.symm, Decoder.set_bind, Decoder.bind_eq _ hfinal]
  rfl

/-
White space is canonical if it is single spaces between other characters.
-/
structure IsText (text : Bytes) : Prop where
  zero : 0 ∉ text
  head : ∃ c input, text = c :: input ∧ isAsciiSpace c = false
  spaces : singleSpaces text = true

/--
The content of an element without children is added to it.
-/
theorem readContent_eq (hflags : p.flags = PARSER_OPTIMISE_CONTENT) (hfailed : p.failed = false)
    {text : Bytes} (htext : IsText text) {e : Element} {elements : List Element}
    (helements : p.elements = e :: elements) (hchildren : e.children = []) {c : UInt8}
    (hrest : c :: p.rest = Element.escape text false ++ 60 :: rest)
    : ∃ line, readContent c p
        = some (.ok ((),
            { p with
              rest := 60 :: rest
              line := line
              next := p.next + 1
              elements := e.add (Element.new p.next [] text) :: elements })) := by
  have hfuel : text.length < p.rest.length + 1 := by
    have hle := length_le_escape text false
    have hlength := congrArg List.length hrest
    rw [List.length_append, List.length_cons, List.length_cons] at hlength
    omega
  have hfirst : text = [] → true = false := by
    obtain ⟨c, input, rfl, -⟩ := htext.head
    simp
  obtain ⟨line, h⟩ := readContentLoop_eq htext.spaces htext.zero [] hfirst hfuel hflags hfailed hrest
  refine ⟨line, ?_⟩
  have hread : withFuel (readContentLoop [] true c) p
      = some (.ok (text, { p with rest := 60 :: rest, line := line })) := h
  unfold readContent
  rw [Decoder.bind_eq _ hread, Decoder.get_bind]
  dsimp only
  rw [helements]
  dsimp only
  have hadd : addContent p.flags.preserveWhitespace text (Element.new p.next [] text) e
      = e.add (Element.new p.next [] text) := by
    unfold addContent
    rw [hchildren]
    rfl
  rw [← hadd]
  rfl

/-
The steps at the document level.
-/

-- The parser goes on while there are open elements
def finish (fuel : Nat) (p : Parser) : Option (Except (Option Bytes) (Unit × Parser)) :=
  if p.elements.isEmpty then some (.ok ((), p)) else parseLoop fuel p

-- Some steps of the parser, with elements open before the last one
def Steps (n : Nat) (p p' : Parser) : Prop := ∀ fuel, parseLoop (fuel + n) p = finish fuel p'

namespace Steps

theorem one {p' : Parser} (h : parseStep p = some (.ok (p'.elements.isEmpty, p'))) : Steps 1 p p' := by
  intro fuel
  rw [parseLoop, Decoder.bind_eq _ h]
  unfold finish
  split <;> rfl

theorem trans {m n : Nat} {p1 p2 : Parser} (h1 : Steps m p p1) (helements : p1.elements.isEmpty = false)
    (h2 : Steps n p1 p2)
    : Steps (n + m) p p2 := by
  intro fuel
  rw [← Nat.add_assoc, h1, finish, if_neg (by simp [helements])]
  exact h2 fuel

end Steps

def Blank (ws : Bytes) : Prop := ∀ c ∈ ws, isAsciiSpace c = true

variable {ws : Bytes}

-- White space before a tag is not content
theorem not_preserveWhitespace (hflags : p.flags = PARSER_OPTIMISE_CONTENT)
    : ¬(p.hasRoot = true ∧ p.flags.preserveWhitespace = true) := by
  rw [hflags]
  intro h
  exact absurd h.2 (by decide)

theorem parseStep_tag (hflags : p.flags = PARSER_OPTIMISE_CONTENT) (hfailed : p.failed = false)
    (hws : Blank ws) {c : UInt8} (hc : isNameStart c = true) {name : Bytes}
    (hname : ∀ c ∈ name, isNameChar c = true)
    (hattrs : ∀ attr ∈ attrs, isName attr.1 = true ∧ 0 ∉ attr.2) (hsorted : SortedMap.Sorted attrs)
    {empty : Bool}
    (hrest : p.rest = ws ++ 60 :: c :: (name ++ (Element.writeAttrs attrs ++ tagEnd empty) ++ rest))
    : ∃ l line, Steps 1 p (tagged empty
        { Element.new p.next (c :: name) [] with attrs := attrs, line := l }
        { p with rest := rest, line := line, next := p.next + 1, hasRoot := true }) := by
  rw [List.append_cons] at hrest
  obtain ⟨line1, h1⟩ := skipWs_consumes 0 ws hws (by decide) p _ hflags hfailed hrest
  obtain ⟨line2, h2⟩ := getChar_consumes 60 c
    { p with
      rest := c :: (name ++ (Element.writeAttrs attrs ++ tagEnd empty) ++ rest)
      line := line1 } (name ++ (Element.writeAttrs attrs ++ tagEnd empty) ++ rest) hflags hfailed rfl
  obtain ⟨l, line3, h3⟩ := readTag_eq (c := c)
    (p := { p with
            rest := name ++ (Element.writeAttrs attrs ++ tagEnd empty) ++ rest
            line := line2 }) hflags hfailed hname hattrs hsorted rfl
  obtain ⟨-, hslash, -, hbang, hquery⟩ := isNameStart_spec c hc
  refine ⟨l, line3, Steps.one ?_⟩
  unfold parseStep
  rw [Decoder.get_bind, if_neg (not_preserveWhitespace hflags), Decoder.bind_eq _ h1]
  dsimp only
  rw [if_neg (by decide), if_pos rfl, Decoder.bind_eq _ h2]
  rw [if_neg hbang, if_neg hquery, if_neg hslash, if_pos hc, Decoder.bind_eq _ h3, Decoder.get_bind]
  rw [Decoder.pure_eq]
  cases empty <;> rfl

theorem parseStep_endTag (hflags : p.flags = PARSER_OPTIMISE_CONTENT) (hfailed : p.failed = false)
    (hws : Blank ws) {c : UInt8} (hc : isNameStart c = true) {name : Bytes}
    (hname : ∀ c ∈ name, isNameChar c = true) {e : Element} {elements : List Element}
    (helements : p.elements = e :: elements) (he : e.name = c :: name)
    (hrest : p.rest = ws ++ 60 :: 47 :: c :: (name ++ 62 :: rest))
    : ∃ line, Steps 1 p (closed e.optimise { p with rest := rest, line := line, elements := elements }) := by
  rw [List.append_cons] at hrest
  obtain ⟨line1, h1⟩ := skipWs_consumes 0 ws hws (by decide) p _ hflags hfailed hrest
  obtain ⟨line2, h2⟩ := getChar_consumes 60 47
    { p with rest := 47 :: c :: (name ++ 62 :: rest), line := line1 } (c :: (name ++ 62 :: rest)) hflags
    hfailed rfl
  obtain ⟨line3, h3⟩ := getChar_consumes 47 c
    { p with rest := c :: (name ++ 62 :: rest), line := line2 } (name ++ 62 :: rest) hflags hfailed rfl
  obtain ⟨line4, h4⟩ := readEndTag_eq (p := { p with rest := name ++ 62 :: rest, line := line3 }) hflags
    hfailed hname helements he rfl
  refine ⟨line4, Steps.one ?_⟩
  unfold parseStep
  rw [Decoder.get_bind, if_neg (not_preserveWhitespace hflags), Decoder.bind_eq _ h1]
  dsimp only
  rw [if_neg (by decide), if_pos rfl, Decoder.bind_eq _ h2]
  rw [if_neg (by decide), if_neg (by decide), if_pos rfl, Decoder.bind_eq _ h3, if_pos hc]
  rw [Decoder.bind_eq _ h4, Decoder.get_bind, Decoder.pure_eq]

theorem parseStep_content (hflags : p.flags = PARSER_OPTIMISE_CONTENT) (hfailed : p.failed = false)
    (hroot : p.hasRoot = true) {text : Bytes} (htext : IsText text) {e : Element}
    {elements : List Element} (helements : p.elements = e :: elements) (hchildren : e.children = [])
    (hrest : p.rest = Element.escape text false ++ 60 :: rest)
    : ∃ line, Steps 1 p
        { p with
          rest := 60 :: rest
          line := line
          next := p.next + 1
          elements := e.add (Element.new p.next [] text) :: elements } := by
  obtain ⟨t, input, rfl, ht⟩ := htext.head
  obtain ⟨c, input', hescape, hc, hlt, hzero⟩ := escape_head ht input
  have ht0 : t ≠ 0 := by
    rintro rfl
    exact htext.zero List.mem_cons_self
  have hp : p.rest = [c] ++ (input' ++ 60 :: rest) := by
    rw [hrest, hescape]
    rfl
  obtain ⟨line1, h1⟩ := skipWs_consumes 0 [] (by simp) hc p _ hflags hfailed hp
  have hnext : c :: (input' ++ 60 :: rest) = Element.escape (t :: input) false ++ 60 :: rest := by
    rw [hescape, List.cons_append]
  obtain ⟨line2, h2⟩ := readContent_eq (p := { p with rest := input' ++ 60 :: rest, line := line1 }) hflags
    hfailed htext helements hchildren hnext
  refine ⟨line2, Steps.one ?_⟩
  unfold parseStep
  rw [Decoder.get_bind, if_neg (not_preserveWhitespace hflags), Decoder.bind_eq _ h1]
  dsimp only
  rw [if_neg (hzero ht0), if_neg hlt, if_pos hroot, Decoder.bind_eq _ h2]
  rfl

end Parser
end Xml
end ObTools
