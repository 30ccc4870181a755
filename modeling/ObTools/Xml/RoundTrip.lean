import ObTools.Xml.Steps

/-!
This module contains the proof that an element is read back from the text that is written for it.
-/

namespace ObTools
namespace Xml

open ObTools.Lex (chars)

namespace Element

mutual

-- An element without the places that it and its children are at
def erase (e : Element) : Element :=
  match e with
  | { name, content, attrs, children, .. } =>
    { this := 0, name, content, attrs, children := eraseAll children, parent := none, line := 0 }

def eraseAll : List Element → List Element
  | [] => []
  | child :: children => erase child :: eraseAll children

end

/-
The attributes are a map, and names consist of the characters that the parser takes for names.
-/
structure ValidTag (e : Element) : Prop where
  name : Parser.isName e.name = true
  attrs : ∀ attr ∈ e.attrs, Parser.isName attr.1 = true ∧ 0 ∉ attr.2
  sorted : SortedMap.Sorted e.attrs

/-
An element has child elements or text, or it is empty.
-/
inductive Printable : Element → Prop
  | empty {e : Element} (tag : ValidTag e) (children : e.children = []) (content : e.content = [])
    : Printable e
  | text {e : Element} (tag : ValidTag e) (children : e.children = [])
      (content : Parser.IsText e.content)
    : Printable e
  | children {e : Element} (tag : ValidTag e) (nonempty : e.children ≠ []) (content : e.content = [])
      (children : ∀ child ∈ e.children, Printable child)
    : Printable e

theorem erase_name (e : Element) : e.erase.name = e.name := by
  cases e
  rfl

theorem eraseAll_eq_map (children : List Element) : eraseAll children = children.map erase := by
  induction children with
  | nil => rfl
  | cons child children ih => rw [eraseAll, ih, List.map_cons]

theorem erase_eq (e : Element)
    : e.erase = { Element.new 0 e.name e.content with
        attrs := e.attrs, children := e.children.map erase } := by
  cases e
  rw [erase, eraseAll_eq_map]
  rfl

theorem Printable.tag {e : Element} (he : Printable e) : e.ValidTag := by
  cases he with
  | empty htag => exact htag
  | text htag => exact htag
  | children htag => exact htag

theorem Printable.name_ne_nil {e : Element} (he : Printable e) : e.name ≠ [] := by
  intro hname
  have := he.tag.name
  rw [hname] at this
  exact absurd this (by decide)

theorem optimise_eq {e : Element} (h : ∀ child ∈ e.children, child.name ≠ []) : e.optimise = e := by
  unfold optimise
  split
  case h_1 child hchildren =>
    rw [hchildren] at h
    rw [if_neg (h child List.mem_cons_self)]
  case h_2 => rfl

/-
What is written for an element.
-/

theorem writeIndented_empty (indent : Nat) {e : Element} (hname : e.name ≠ [])
    (hchildren : e.children = []) (hcontent : e.content = [])
    : writeIndented indent e
        = spaces indent ++ 60 :: (e.name ++ (writeAttrs e.attrs ++ [47, 62]) ++ [10]) := by
  cases e
  cases hchildren
  cases hcontent
  rw [writeIndented, if_pos hname, if_pos List.isEmpty_nil, if_neg (by simp)]
  have hlt : chars "<" = [60] := rfl
  have hend : chars "/>\n" = [47, 62] ++ [10] := rfl
  rw [hlt, hend]
  simp only [List.append_assoc, List.cons_append, List.nil_append]

theorem writeIndented_text (indent : Nat) {e : Element} (hname : e.name ≠ [])
    (hchildren : e.children = []) (hcontent : e.content ≠ [])
    : writeIndented indent e
        = spaces indent ++ 60 :: (e.name ++ (writeAttrs e.attrs ++ [62])
            ++ (escape e.content false ++ 60 :: 47 :: (e.name ++ 62 :: [10]))) := by
  cases e
  cases hchildren
  rw [writeIndented, if_pos hname, if_pos List.isEmpty_nil, if_pos hcontent]
  have hlt : chars "<" = [60] := rfl
  have hgt : chars ">" = [62] := rfl
  have hopen : chars "</" = [60, 47] := rfl
  have hend : chars ">\n" = [62, 10] := rfl
  rw [hlt, hgt, hopen, hend]
  simp only [List.append_assoc, List.cons_append, List.nil_append]

theorem writeIndented_children (indent : Nat) {e : Element} (hname : e.name ≠ [])
    (hchildren : e.children ≠ [])
    : writeIndented indent e
        = spaces indent ++ 60 :: (e.name ++ (writeAttrs e.attrs ++ [62])
            ++ (10 :: (writeChildren (indent + 2) e.children
              ++ (spaces indent ++ 60 :: 47 :: (e.name ++ 62 :: [10]))))) := by
  cases e
  rw [writeIndented, if_pos hname, if_neg (by simpa using hchildren)]
  have hlt : chars "<" = [60] := rfl
  have hopen : chars "</" = [60, 47] := rfl
  have hend : chars ">\n" = [62, 10] := rfl
  rw [hlt, hopen, hend]
  simp only [List.append_assoc, List.cons_append, List.nil_append]

theorem Printable.writeIndented_head {e : Element} (he : Printable e)
    : ∃ text, writeIndented 0 e = 60 :: text := by
  cases e
  rw [writeIndented, if_pos he.name_ne_nil]
  exact ⟨_, rfl⟩

end Element

namespace Parser

open Element (Printable)

/-
The parser reads an element back from what is written for it, and ends it.
-/
def Parses (e : Element) : Prop :=
  ∀ (indent : Nat) {ws rest : Bytes} {p : Parser}, p.flags = PARSER_OPTIMISE_CONTENT → p.failed = false
    → Blank ws → p.rest = ws ++ (e.writeIndented indent ++ rest)
    → ∃ n e' line next, n ≤ (e.writeIndented indent).length ∧ e'.erase = e.erase
        ∧ Steps n p
            (closed e' { p with rest := 10 :: rest, line := line, next := next, hasRoot := true })

theorem blank_nil : Blank [] := by
  intro c hc
  exact absurd hc List.not_mem_nil

theorem blank_append {ws ws' : Bytes} (h : Blank ws) (h' : Blank ws') : Blank (ws ++ ws') := by
  intro c hc
  rw [List.mem_append] at hc
  exact hc.elim (h c) (h' c)

theorem blank_spaces (indent : Nat) : Blank (Element.spaces indent) := by
  intro c hc
  rw [List.eq_of_mem_replicate hc]
  decide

theorem blank_newline : Blank [10] := by
  intro c hc
  rw [List.mem_singleton.mp hc]
  decide

theorem isName_cons {name : Bytes} (h : isName name = true)
    : ∃ c rest, name = c :: rest ∧ isNameStart c = true ∧ ∀ d ∈ rest, isNameChar d = true := by
  cases name with
  | nil => exact absurd h (by decide)
  | cons c name =>
    simp only [isName, Bool.and_eq_true, List.all_eq_true] at h
    exact ⟨c, name, rfl, h.1, h.2⟩

theorem parses_empty {e : Element} (htag : e.ValidTag) (hchildren : e.children = [])
    (hcontent : e.content = [])
    : Parses e := by
  intro indent ws rest p hflags hfailed hws hrest
  obtain ⟨c, name, hname, hc, hchars⟩ := isName_cons htag.name
  have hwrite := Element.writeIndented_empty indent (by simp [hname]) hchildren hcontent
  rw [hwrite, hname] at hrest
  have hp : p.rest = (ws ++ Element.spaces indent)
      ++ 60 :: c :: (name ++ (Element.writeAttrs e.attrs ++ tagEnd true) ++ 10 :: rest) := by
    rw [hrest]
    simp [tagEnd]
  obtain ⟨l, line, hstep⟩ := parseStep_tag hflags hfailed (blank_append hws (blank_spaces indent)) hc
    hchars htag.attrs htag.sorted hp
  refine ⟨1, _, line, p.next + 1, ?_, ?_, hstep⟩
  . rw [hwrite]
    simp
    omega
  . rw [Element.erase_eq, Element.erase_eq, hchildren, hcontent, hname]
    rfl

theorem parses_text {e : Element} (htag : e.ValidTag) (hchildren : e.children = [])
    (hcontent : IsText e.content)
    : Parses e := by
  intro indent ws rest p hflags hfailed hws hrest
  obtain ⟨c, name, hname, hc, hchars⟩ := isName_cons htag.name
  have hne : e.content ≠ [] := by
    obtain ⟨t, input, heq, -⟩ := hcontent.head
    simp [heq]
  have hwrite := Element.writeIndented_text indent (by simp [hname]) hchildren hne
  rw [hwrite, hname] at hrest
  have hp : p.rest = (ws ++ Element.spaces indent)
      ++ 60 :: c :: (name ++ (Element.writeAttrs e.attrs ++ tagEnd false)
        ++ (Element.escape e.content false ++ 60 :: 47 :: c :: (name ++ 62 :: 10 :: rest))) := by
    rw [hrest]
    simp [tagEnd]
  obtain ⟨l, line1, h1⟩ := parseStep_tag hflags hfailed (blank_append hws (blank_spaces indent)) hc
    hchars htag.attrs htag.sorted hp
  generalize hp1 : tagged false _ _ = p1 at h1
  obtain ⟨line2, h2⟩ := parseStep_content (p := p1) (by rw [← hp1]; exact hflags)
    (by rw [← hp1]; exact hfailed) (by rw [← hp1]; rfl) hcontent (by rw [← hp1]; rfl) rfl
    (by rw [← hp1]; rfl)
  generalize hp2 : Parser.mk .. = p2 at h2
  obtain ⟨line3, h3⟩ := parseStep_endTag (p := p2) (by rw [← hp2, ← hp1]; exact hflags)
    (by rw [← hp2, ← hp1]; exact hfailed) blank_nil hc hchars (by rw [← hp2]) rfl
    (by rw [← hp2]; rfl)
  have hsteps := (h1.trans (by rw [← hp1]; rfl) h2).trans (by rw [← hp2]; rfl) h3
  subst hp2 hp1
  refine ⟨3, _, line3, _, ?_, ?_, hsteps⟩
  . rw [hwrite]
    simp
    omega
  . rw [Element.erase_eq, Element.erase_eq, hchildren, hname]
    rfl

theorem steps_zero {top : Element} {elements : List Element} {p : Parser}
    (helements : p.elements = top :: elements)
    : Steps 0 p p := by
  intro fuel
  unfold finish
  rw [helements]
  rfl

theorem parses_writeChildren {children : List Element} (hparses : ∀ child ∈ children, Parses child)
    (indent : Nat) {ws rest : Bytes} {p : Parser} (hflags : p.flags = PARSER_OPTIMISE_CONTENT)
    (hfailed : p.failed = false) (hroot : p.hasRoot = true) (hws : Blank ws) {top : Element}
    {elements : List Element} (helements : p.elements = top :: elements)
    (hrest : p.rest = ws ++ (Element.writeChildren indent children ++ rest))
    : ∃ n children' ws' line next,
        n ≤ (Element.writeChildren indent children).length
        ∧ children'.map Element.erase = children.map Element.erase
        ∧ Blank ws'
        ∧ Steps n p
            { p with
              rest := ws' ++ rest
              line := line
              next := next
              hasRoot := true
              elements := { top with children := top.children ++ children' } :: elements } := by
  induction children generalizing ws p top with
  | nil =>
    refine ⟨0, [], ws, p.line, p.next, Nat.zero_le _, rfl, hws, ?_⟩
    have hp : p.rest = ws ++ rest := hrest
    have htop : { top with children := top.children ++ [] } = top := by
      cases top
      simp
    rw [htop, ← helements, ← hp, ← hroot]
    exact steps_zero helements
  | cons child children ih =>
    rw [List.forall_mem_cons] at hparses
    rw [Element.writeChildren, List.append_assoc] at hrest
    obtain ⟨n, child', line1, next1, hn, herase, h1⟩ := hparses.1 indent hflags hfailed hws hrest
    generalize hp1 : closed child' _ = p1 at h1
    unfold closed at hp1
    simp only [helements] at hp1
    have helements1 : p1.elements = top.add child' :: elements := by
      rw [← hp1]
    obtain ⟨m, children', ws', line2, next2, hm, herases, hws', h2⟩ := ih hparses.2 (p := p1)
      (by rw [← hp1]; exact hflags) (by rw [← hp1]; exact hfailed) (by rw [← hp1]) blank_newline
      helements1 (by rw [← hp1]; rfl)
    have hsteps := h1.trans (by rw [helements1]; rfl) h2
    subst hp1
    refine ⟨m + n, { child' with parent := some top.this } :: children', ws', line2, next2, ?_, ?_, hws',
      ?_⟩
    . rw [Element.writeChildren, List.length_append]
      omega
    . rw [List.map_cons, List.map_cons, herases, ← herase, Element.erase_eq, Element.erase_eq child']
    . rw [List.append_cons]
      exact hsteps

theorem parses_children {e : Element} (htag : e.ValidTag) (hne : e.children ≠ [])
    (hcontent : e.content = []) (hprintable : ∀ child ∈ e.children, Printable child)
    (hparses : ∀ child ∈ e.children, Parses child)
    : Parses e := by
  intro indent ws rest p hflags hfailed hws hrest
  obtain ⟨c, name, hname, hc, hchars⟩ := isName_cons htag.name
  have hwrite := Element.writeIndented_children indent (by simp [hname]) hne
  rw [hwrite, hname] at hrest
  have hp : p.rest = (ws ++ Element.spaces indent)
      ++ 60 :: c :: (name ++ (Element.writeAttrs e.attrs ++ tagEnd false)
        ++ ([10] ++ (Element.writeChildren (indent + 2) e.children
          ++ (Element.spaces indent ++ 60 :: 47 :: c :: (name ++ 62 :: 10 :: rest))))) := by
    rw [hrest]
    simp [tagEnd]
  obtain ⟨l, line1, h1⟩ := parseStep_tag hflags hfailed (blank_append hws (blank_spaces indent)) hc
    hchars htag.attrs htag.sorted hp
  generalize hp1 : tagged false _ _ = p1 at h1
  obtain ⟨n, children, ws', line2, next, hn, herase, hws', h2⟩ := parses_writeChildren (p := p1) hparses
    (indent + 2) (by rw [← hp1]; exact hflags) (by rw [← hp1]; exact hfailed) (by rw [← hp1]; rfl)
    blank_newline (by rw [← hp1]; rfl) (by rw [← hp1]; rfl)
  generalize hp2 : Parser.mk .. = p2 at h2
  obtain ⟨line3, h3⟩ := parseStep_endTag (p := p2) (by rw [← hp2, ← hp1]; exact hflags)
    (by rw [← hp2, ← hp1]; exact hfailed) (blank_append hws' (blank_spaces indent)) hc hchars
    (by rw [← hp2]) rfl (by rw [← hp2, List.append_assoc])
  have hsteps := (h1.trans (by rw [← hp1]; rfl) h2).trans (by rw [← hp2]; rfl) h3
  rw [Element.optimise_eq] at hsteps
  . subst hp2 hp1
    refine ⟨_, _, line3, _, ?_, ?_, hsteps⟩
    . rw [hwrite]
      simp
      omega
    . rw [Element.erase_eq, Element.erase_eq e, hcontent, hname, ← herase]
      rfl
  . -- A child that is read has the name of an element, so it is not taken for text
    intro child' hchild'
    have hmem : child'.erase ∈ e.children.map Element.erase := by
      rw [← herase]
      exact List.mem_map_of_mem hchild'
    obtain ⟨child, hchild, heq⟩ := List.mem_map.mp hmem
    rw [← Element.erase_name, ← heq, Element.erase_name]
    exact (hprintable child hchild).name_ne_nil

theorem parses_of_printable {e : Element} (he : Printable e) : Parses e := by
  induction he with
  | empty htag hchildren hcontent => exact parses_empty htag hchildren hcontent
  | text htag hchildren hcontent => exact parses_text htag hchildren hcontent
  | children htag hne hcontent hprintable ih => exact parses_children htag hne hcontent hprintable ih

theorem skipBom_eq {p : Parser} (hfailed : p.failed = false) {rest : Bytes} (hrest : p.rest = 60 :: rest)
    : skipBom p = some (.ok ((), p)) := by
  have hget : getChar 0 p = some (.ok (60, { p with rest := rest })) := by
    unfold getChar
    rw [hfailed, hrest]
  have hunget : unget 60 { p with rest := rest } = some (.ok ((), p)) := by
    unfold unget
    rw [if_neg (by simp [hfailed]), ← hrest]
  unfold skipBom
  rw [Decoder.bind_eq _ hget, if_pos (by decide)]
  exact hunget

/--
Reading what is written for an element gives the element again: the same names, attributes and texts,
with the children in the same order.
-/
theorem readFrom_toString {e : Element} (he : Printable e) (userNsMap : List (Bytes × Bytes))
    (next : Nat)
    : ∃ root, readFrom PARSER_OPTIMISE_CONTENT userNsMap (e.toString false) next = some root
        ∧ root.erase = e.erase := by
  obtain ⟨text, htext⟩ := he.writeIndented_head
  obtain ⟨n, root, line, next', hn, herase, hsteps⟩ := parses_of_printable he 0
    (p := new PARSER_OPTIMISE_CONTENT userNsMap (e.toString false) next) rfl rfl blank_nil
    (List.append_nil _).symm
  refine ⟨root, ?_, herase⟩
  have hfuel : (e.writeIndented 0).length + 1 = ((e.writeIndented 0).length + 1 - n) + n := by
    omega
  have hparse : parseStream (new PARSER_OPTIMISE_CONTENT userNsMap (e.toString false) next)
      = parseLoop ((e.writeIndented 0).length + 1)
          (new PARSER_OPTIMISE_CONTENT userNsMap (e.toString false) next) :=
    Decoder.bind_eq _ (skipBom_eq rfl htext)
  unfold readFrom
  rw [hparse, hfuel, hsteps]
  rfl

def sample : Element :=
  let b : Element :=
    { Element.new 2 (chars "b") (chars "x < \"y\" & z") with parent := some 1 }
  { Element.new 1 (chars "a") [] with
    attrs := [(chars "id", chars "'&'"), (chars "q", chars "<\"'>")]
    children := [b, { Element.new 3 (chars "c") [] with parent := some 1 }] }

theorem readFrom_toString_sample
    : ∃ root, readFrom PARSER_OPTIMISE_CONTENT [] (sample.toString false) 10 = some root
        ∧ root.erase = sample.erase := by
  have hb : Printable { Element.new 2 (chars "b") (chars "x < \"y\" & z") with parent := some 1 } := by
    refine .text ⟨rfl, by simp [Element.new], ?_⟩ rfl ⟨by decide, ⟨120, _, rfl, rfl⟩, rfl⟩
    exact List.Pairwise.nil
  have hc : Printable { Element.new 3 (chars "c") [] with parent := some 1 } := by
    refine .empty ⟨rfl, by simp [Element.new], ?_⟩ rfl rfl
    exact List.Pairwise.nil
  have htag : sample.ValidTag := by
    refine ⟨rfl, by decide, ?_⟩
    unfold SortedMap.Sorted
    decide
  have hchildren : ∀ child ∈ sample.children, Printable child := by
    intro child hchild
    simp only [sample, List.mem_cons, List.not_mem_nil, or_false] at hchild
    rcases hchild with rfl | rfl
    . exact hb
    . exact hc
  exact readFrom_toString (.children htag (by simp [sample]) rfl hchildren) [] 10

end Parser

end Xml
end ObTools
