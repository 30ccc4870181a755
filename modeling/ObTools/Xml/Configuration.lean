import ObTools.Xml.Complete

/-!
This module contains the model of `XML::Configuration`, and the proof of which sequences of reloads go as
they should.
-/

namespace ObTools
namespace Xml

open ObTools.Lex (chars)

-- The contents of the files that can be opened
abbrev Files := Bytes → Option Bytes

namespace Parser

-- The parser before the step in which it throws, if it does
def thrownLoop : Nat → Parser → Option Parser
  | 0, _ => none
  | fuel + 1, p =>
    match parseStep p with
    | some (.ok (done, p')) => if done then none else thrownLoop fuel p'
    | some (.error _) => some p
    | none => none

def thrown (p : Parser) : Option Parser :=
  match skipBom p with
  | some (.ok (_, p')) => thrownLoop (p'.rest.length + 1) p'
  | _ => none

-- The tree of the elements that are open, the innermost one first
def openTree : List Element → Option Element
  | [] => none
  | e :: elements => some (elements.foldl (fun child e => e.add child) e)

end Parser

/-
A configuration with what its parser keeps from one file to the next.
-/
structure Configuration where
  filenames : List Bytes
  flags : Flags
  userNsMap : List (Bytes × Bytes)
  -- The root that the parser holds
  root : Option Element
  next : Nat

namespace Parser

variable {fuel : Nat} {p q : Parser} {before : List Tag}

theorem openTree_name (elements : List Element)
    : (openTree elements).map Element.name = (elements.map Element.name).getLast? := by
  cases elements with
  | nil => rfl
  | cons e elements =>
    have hfold (child : Element)
        : (elements.foldl (fun child e => e.add child) child).name
          = ((elements.map Element.name).getLast?).getD child.name := by
      induction elements generalizing child with
      | nil => rfl
      | cons e elements ih =>
        rw [List.foldl_cons, ih, List.map_cons, List.getLast?_cons]
        rfl
    rw [openTree, Option.map_some, hfold, List.map_cons, List.getLast?_cons]

theorem thrownLoop_reading (h : Reading p before) (hthrown : thrownLoop fuel p = some q)
    : ∃ tags', Reading q (before ++ tags') ∧ tags' <+: visits stepTags fuel p := by
  induction fuel generalizing p before with
  | zero => cases hthrown
  | succ fuel ih =>
    unfold thrownLoop at hthrown
    split at hthrown
    case h_1 done p' hstep =>
      cases done with
      | true => cases hthrown
      | false =>
        have h' := h.step hstep (unmatchedTags_go_on hstep rfl)
        obtain ⟨tags', hreading, hprefix⟩ := ih h' hthrown
        refine ⟨stepTags p ++ tags', ?_, ?_⟩
        . rw [← List.append_assoc]
          exact hreading
        . rw [visits, Visits.after_eq hstep]
          exact List.prefix_append_right_inj _ |>.mpr hprefix
    case h_2 =>
      cases hthrown
      refine ⟨[], ?_, List.nil_prefix⟩
      rw [List.append_nil]
      exact h
    case h_3 => cases hthrown

/--
What is left of a document that does not parse is nothing, or a root with the name in the first tag.
-/
theorem thrown_root {flags : Flags} {userNsMap : List (Bytes × Bytes)} {input : Bytes} {next : Nat}
    (hthrown : thrown (new flags userNsMap input next) = some q)
    : q.elements = [] ∨ ∃ name, (tags flags userNsMap input next).head? = some (.start name)
        ∧ (openTree q.elements).map Element.name = some name := by
  unfold thrown at hthrown
  split at hthrown
  case h_1 u p hbom =>
    have hread : Reading p [] :=
      (reading_new flags userNsMap input next).move (skipBom_keeps _ u p (Moved.refl _) hbom)
    obtain ⟨tags', hreading, hprefix⟩ := thrownLoop_reading hread hthrown
    rcases hreading.names.head with hnil | ⟨name, hlast, hhead⟩
    . exact Or.inl (List.map_eq_nil_iff.mp hnil)
    . refine Or.inr ⟨name, ?_, (openTree_name _).trans hlast⟩
      obtain ⟨rest, hrest⟩ := hprefix
      unfold tags visitsOf
      rw [List.nil_append] at hhead
      rw [Visits.after_eq hbom, ← hrest, List.head?_append, hhead]
      rfl
  case h_2 => cases hthrown

-- `<a><b` has one element at its end
theorem thrown_root_open
    : ∃ q, thrown (new PARSER_OPTIMISE_CONTENT [] [60, 97, 62, 60, 98] 0) = some q
        ∧ (q.elements = []
          ∨ ∃ name, (tags PARSER_OPTIMISE_CONTENT [] [60, 97, 62, 60, 98] 0).head? = some (.start name)
            ∧ (openTree q.elements).map Element.name = some name) :=
  (Option.isSome_iff_exists.mp (by decide +kernel)).imp fun _ hthrown => ⟨hthrown, thrown_root hthrown⟩

end Parser

namespace Configuration

open Xml.Parser (parseStream thrown openTree)

-- The name of `Element::none`
def noneName : Bytes := chars "!NONE!"

-- The name of `get_root()`
def nameOf (root : Option Element) : Bytes := (root.map Element.name).getD noneName

def parser (text : Bytes) (c : Configuration) : Parser := Parser.new c.flags c.userNsMap text c.next

-- `f >> parser`, and whether it has not thrown; a part of the tree is left if it has
def parse (text : Bytes) (c : Configuration) : Bool × Configuration :=
  match parseStream (c.parser text), thrown (c.parser text) with
  | some (.ok (_, p)), _ => (true, { c with root := p.root, next := p.next })
  | _, some p => (false, { c with root := openTree p.elements, next := p.next })
  | _, none => (false, { c with root := none })

-- Run through list of filenames to find one that will open
def text (files : Files) (c : Configuration) : Option Bytes := c.filenames.findSome? files

def read (ename : Bytes) (files : Files) (c : Configuration) : Bool × Configuration :=
  match c.text files with
  | some text =>
    let (parsed, c) := c.parse text
    if parsed then
      (ename.isEmpty || nameOf c.root == ename, c)
    else
      (false, c)
  | none => (false, c)

-- Reload configuration file as the same element as before
def reload (files : Files) (c : Configuration) : Bool × Configuration := c.read (nameOf c.root) files

-- A sequence of reloads, each with the files at its time
def reloads : List Files → Configuration → List (Files × Configuration)
  | [], _ => []
  | files :: sequence, c => (files, c) :: reloads sequence (c.reload files).2

/-
The file parses and has a root element of the name.
-/
def Has (name : Bytes) (files : Files) (c : Configuration) : Prop :=
  ∃ text root, c.text files = some text ∧ (c.parse text).1 = true ∧ (c.parse text).2.root = some root ∧ root.name = name

/-
After a successful read all reloads in a sequence succeed if the file has the same root as that one had, and
otherwise fail.
-/
def Recovers (ename : Bytes) (files : Files) (sequence : List Files) (c : Configuration) : Prop :=
  ∀ root, (c.read ename files).1 = true → (c.read ename files).2.root = some root →
    ∀ r ∈ reloads sequence (c.read ename files).2, (r.2.reload r.1).1 = true ↔ Has root.name r.1 r.2

/-
What the root that is left has to be if the file has a document with the second one.
-/
def Recalls (name : Bytes) (left root : Option Element) : Prop :=
  if nameOf left = [] then
    root.map Element.name = some name
  else if nameOf left = name then
    -- No root in a document has the name of `Element::none`
    name = noneName → root.isSome = true
  else
    nameOf root ≠ nameOf left ∧ root.map Element.name ≠ some name

/-
The same with a condition on the root that is left before each reload.
-/
def Remembers (ename : Bytes) (files : Files) (sequence : List Files) (c : Configuration) : Prop :=
  ∀ root, (c.read ename files).1 = true → (c.read ename files).2.root = some root →
    ∀ r ∈ reloads sequence (c.read ename files).2, ∀ text, r.2.text r.1 = some text → (r.2.parse text).1 = true →
      Recalls root.name r.2.root (r.2.parse text).2.root

variable {name : Bytes} {files : Files} {c : Configuration} {left root : Option Element}

theorem nameOf_eq_iff
    : nameOf root = name ↔ root.map Element.name = some name ∨ root.isSome = false ∧ name = noneName := by
  unfold nameOf
  cases root with
  | none => simp [eq_comm]
  | some e => simp

/-
The test of a root against the one that is left.
-/
theorem recalls_iff
    : (((nameOf left).isEmpty || nameOf root == nameOf left) = true ↔ root.map Element.name = some name)
        ↔ Recalls name left root := by
  unfold Recalls
  rw [Bool.or_eq_true, List.isEmpty_iff, beq_iff_eq]
  split
  . next hleft => simp [hleft]
  . next hleft =>
    rw [or_iff_right hleft]
    split
    . next hname =>
      rw [hname, nameOf_eq_iff]
      cases root with
      | none => simp
      | some e => simp
    . next hname =>
      constructor
      . intro h
        have hroot : nameOf root ≠ nameOf left := by
          intro heq
          have hsome := h.mp heq
          rw [nameOf_eq_iff.mpr (Or.inl hsome)] at heq
          exact hname heq.symm
        exact ⟨hroot, fun hsome => hroot (h.mpr hsome)⟩
      . rintro ⟨hroot, hsome⟩
        exact iff_of_false hroot hsome

theorem reload_iff
    : ((c.reload files).1 = true ↔ Has name files c)
        ↔ ∀ text, c.text files = some text → (c.parse text).1 = true →
            Recalls name c.root (c.parse text).2.root := by
  unfold reload read Has
  cases htext : c.text files with
  | none => simp
  | some text =>
    cases hparsed : (c.parse text).1 with
    | false => simp [hparsed]
    | true =>
      have hroot : (∃ text' root, some text = some text' ∧ (c.parse text').1 = true
          ∧ (c.parse text').2.root = some root ∧ root.name = name)
          ↔ (c.parse text).2.root.map Element.name = some name := by
        rw [Option.map_eq_some_iff]
        constructor
        . rintro ⟨text', root, heq, -, hroot⟩
          cases heq
          exact ⟨root, hroot⟩
        . rintro ⟨root, hroot⟩
          exact ⟨text, root, rfl, hparsed, hroot⟩
      rw [hroot]
      dsimp only
      rw [hparsed, if_pos rfl, recalls_iff]
      constructor
      . intro h text' heq _
        cases heq
        exact h
      . intro h
        exact h text rfl hparsed

/--
All reloads go as they should if and only if the root that is left before each of them allows it.
-/
theorem recovers_iff (ename : Bytes) (files : Files) (sequence : List Files) (c : Configuration)
    : Recovers ename files sequence c ↔ Remembers ename files sequence c := by
  unfold Recovers Remembers
  simp only [reload_iff]

-- A file with a text
def fileOf (text : Bytes) : Files := fun _ => some text

def single : Configuration where
  filenames := [chars "config.xml"]
  flags := PARSER_OPTIMISE_CONTENT
  userNsMap := []
  root := none
  next := 0

theorem second_reload (files1 files2 : Files) (c : Configuration)
    : (files2, (c.reload files1).2) ∈ reloads [files1, files2] c :=
  List.mem_cons_of_mem _ List.mem_cons_self

/--
After the reload of an empty file has failed, that of the first file fails as well.
-/
theorem not_recovers
    : ¬Recovers (chars "a") (fileOf (chars "<a/>")) [fileOf [], fileOf (chars "<a/>")] single := by
  intro h
  have hread : (single.read (chars "a") (fileOf (chars "<a/>"))).1 = true := by
    decide +kernel
  have hname : (single.read (chars "a") (fileOf (chars "<a/>"))).2.root.map Element.name = some (chars "a") := by
    decide +kernel
  have htext : ((single.read (chars "a") (fileOf (chars "<a/>"))).2.reload (fileOf [])).2.text
      (fileOf (chars "<a/>")) = some (chars "<a/>") := by
    decide +kernel
  have hparsed : (((single.read (chars "a") (fileOf (chars "<a/>"))).2.reload (fileOf [])).2.parse
      (chars "<a/>")).1 = true := by
    decide +kernel
  have hagain : (((single.read (chars "a") (fileOf (chars "<a/>"))).2.reload (fileOf [])).2.parse
      (chars "<a/>")).2.root.map Element.name = some (chars "a") := by
    decide +kernel
  have hreload : (((single.read (chars "a") (fileOf (chars "<a/>"))).2.reload (fileOf [])).2.reload
      (fileOf (chars "<a/>"))).1 = false := by
    decide +kernel
  obtain ⟨root, hroot, hname⟩ := Option.map_eq_some_iff.mp hname
  obtain ⟨root', hroot', hname'⟩ := Option.map_eq_some_iff.mp hagain
  have hright := h root hread hroot _ (second_reload _ _ _)
  dsimp only at hright
  have hsucceeds := hright.mpr ⟨_, root', htext, hparsed, hroot', hname'.trans hname.symm⟩
  rw [hreload] at hsucceeds
  cases hsucceeds

end Configuration
end Xml
end ObTools
