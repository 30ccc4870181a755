import Mathlib.Logic.Function.Basic
import ObTools.Xml.Parser

/-!
This module contains the model of the operations that change the trees of elements. An element points
to its children and to its parent, so the elements are nodes of a heap at their addresses. An
operation is `none` if it uses a pointer to an element that has been deleted, or if it runs out of
fuel.
-/

namespace ObTools
namespace Xml

structure Node where
  name : Bytes
  content : Bytes
  attrs : List (Bytes × Bytes)
  children : List Nat
  parent : Option Nat
  line : Nat
deriving Repr, DecidableEq

structure Heap where
  nodes : Nat → Option Node
  -- The address of the next element
  next : Nat

namespace Heap

def empty : Heap where
  nodes := fun _ => none
  next := 0

def write (e : Nat) (f : Node → Node) (h : Heap) : Option Heap := do
  let n ← h.nodes e
  return { h with nodes := Function.update h.nodes e (some (f n)) }

-- `new Element(...)`
def create (name content : Bytes) (attrs : List (Bytes × Bytes)) (h : Heap) : Nat × Heap :=
  let n : Node :=
    { name := name, content := content, attrs := attrs, children := [], parent := none, line := 0 }
  (h.next, { nodes := Function.update h.nodes h.next (some n), next := h.next + 1 })

-- The destructor deletes the children first
def delete : Nat → Nat → Heap → Option Heap
  | 0, _, _ => none
  | fuel + 1, e, h => do
    let n ← h.nodes e
    let h ← n.children.foldlM (fun h child => delete fuel child h) h
    return { h with nodes := Function.update h.nodes e none }

-- Add a child element, taking ownership
def add (e child : Nat) (h : Heap) : Option Heap := do
  let h ← h.write e fun n => { n with children := n.children ++ [child] }
  h.write child fun n => { n with parent := some e }

def deepCopy : Nat → Nat → Heap → Option (Nat × Heap)
  | 0, _, _ => none
  | fuel + 1, e, h => do
    let n ← h.nodes e
    let (dest, h) := h.create n.name n.content n.attrs
    let h ← n.children.foldlM (fun h child => do
      let (copy, h) ← deepCopy fuel child h
      h.add dest copy) h
    return (dest, h)

-- Add a child element from a reference, copying
def addCopy (fuel e child : Nat) (h : Heap) : Option Heap := do
  let _ ← h.nodes e
  let (copy, h) ← h.deepCopy fuel child
  h.add e copy

def addNew (e : Nat) (name content : Bytes) (attrs : List (Bytes × Bytes)) (h : Heap)
    : Option Heap := do
  let _ ← h.nodes e
  let (child, h) := h.create name content attrs
  h.add e child

def copyAttrs (source attrs : List (Bytes × Bytes)) : List (Bytes × Bytes) :=
  source.foldl (fun attrs attr => SortedMap.set attr.1 attr.2 attrs) attrs

-- Goes through the children of the source as they are while copies are added
def mergeLoop (e source : Nat) : Nat → Nat → Heap → Option Heap
  | 0, _, _ => none
  | fuel + 1, i, h => do
    let s ← h.nodes source
    match s.children[i]? with
    | none => some h
    | some child =>
      let h ← h.addCopy fuel e child
      mergeLoop e source fuel (i + 1) h

def merge (fuel e source : Nat) (h : Heap) : Option Heap := do
  let s ← h.nodes source
  let h ← h.write e fun n => { n with attrs := copyAttrs s.attrs n.attrs }
  h.mergeLoop e source fuel 0

-- What an element is known by: the value of an attribute, or its name
def ident (identifier : Bytes) (n : Node) : Bytes := (SortedMap.find identifier n.attrs).getD n.name

def findIdent (h : Heap) (identifier pid : Bytes) : List Nat → Option (Option Nat)
  | [] => some none
  | q :: children => do
    let n ← h.nodes q
    if pid = ident identifier n then
      some (some q)
    else
      findIdent h identifier pid children

mutual

def superimpose (identifier : Bytes) : Nat → Nat → Nat → Heap → Option Heap
  | 0, _, _, _ => none
  | fuel + 1, e, source, h => do
    let s ← h.nodes source
    let h ← h.write e fun n =>
      { n with
        attrs := copyAttrs s.attrs n.attrs
        content := if s.content ≠ [] then s.content else n.content }
    superimposeLoop identifier fuel e source 0 h

-- Adds the children that are not present, and superimposes the others
def superimposeLoop (identifier : Bytes) : Nat → Nat → Nat → Nat → Heap → Option Heap
  | 0, _, _, _, _ => none
  | fuel + 1, e, source, i, h => do
    let s ← h.nodes source
    match s.children[i]? with
    | none => some h
    | some p =>
      let child ← h.nodes p
      let n ← h.nodes e
      match ← h.findIdent identifier (ident identifier child) n.children with
      | some q =>
        let h ← superimpose identifier fuel q p h
        superimposeLoop identifier fuel e source (i + 1) h
      | none =>
        let h ← h.addCopy fuel e p
        superimposeLoop identifier fuel e source (i + 1) h

end

-- A single content child element becomes a simple content string, and is deleted
def optimise (fuel e : Nat) (h : Heap) : Option Heap := do
  let n ← h.nodes e
  match n.children with
  | [child] =>
    let m ← h.nodes child
    if m.name = [] then
      let h ← h.write e fun n => { n with content := m.content }
      let h ← h.delete fuel child
      h.write e fun n => { n with children := n.children.dropLast }
    else
      some h
  | _ => some h

mutual

-- Whether to keep the element, and the heap with its new names
def translate (transMap : List (Bytes × Bytes)) : Nat → Nat → Heap → Option (Bool × Heap)
  | 0, _, _ => none
  | fuel + 1, e, h => do
    let n ← h.nodes e
    -- Ignore (and keep) data elements
    if n.name = [] then
      return (true, h)
    else
      match SortedMap.find n.name transMap with
      | none =>
        let h ← translateLoop transMap fuel e 0 h
        return (true, h)
      | some [] => return (false, h)
      | some name =>
        let h ← translateLoop transMap fuel e 0 h
        let h ← h.write e fun n => { n with name := name }
        return (true, h)

-- The position is that of the iterator, which is not valid any more if its child has gone
def translateLoop (transMap : List (Bytes × Bytes)) : Nat → Nat → Nat → Heap → Option Heap
  | 0, _, _, _ => none
  | fuel + 1, e, i, h => do
    let n ← h.nodes e
    match n.children[i]? with
    | none => some h
    | some child =>
      let (keep, h) ← translate transMap fuel child h
      let n ← h.nodes e
      if n.children[i]? ≠ some child then
        none
      else if keep then
        translateLoop transMap fuel e (i + 1) h
      else
        let h ← h.delete fuel child
        let h ← h.write e fun n => { n with children := n.children.eraseIdx i }
        translateLoop transMap fuel e i h

end

def detach (e : Nat) (h : Heap) : Option Heap := do
  let n ← h.nodes e
  let h ← match n.parent with
    | some parent => h.write parent fun m => { m with children := m.children.filter (· ≠ e) }
    | none => some h
  h.write e fun n => { n with parent := none }

-- Replace with the given element at same position in parent
def replaceWith (this e : Nat) (h : Heap) : Option Heap := do
  let n ← h.nodes this
  match n.parent with
  | none => some h
  | some parent =>
    let m ← h.nodes parent
    if m.children.contains this then
      let h ← h.write parent fun m => { m with children := m.children.replace this e }
      let h ← h.write e fun n => { n with parent := some parent }
      h.write this fun n => { n with parent := none }
    else
      some h

/-
Elements that have been parsed.
-/

mutual

-- An element with all that are below it
def flatten (e : Element) : List Element :=
  match e with
  | { this, name, content, attrs, children, parent, line } =>
    { this, name, content, attrs, children, parent, line } :: flattenAll children

def flattenAll : List Element → List Element
  | [] => []
  | child :: children => flatten child ++ flattenAll children

end

def node (e : Element) : Node where
  name := e.name
  content := e.content
  attrs := e.attrs
  children := e.children.map Element.this
  parent := e.parent
  line := e.line

def load (root : Element) (next : Nat) (h : Heap) : Heap where
  nodes := fun a => (h.nodes a).or (((flatten root).find? fun e => e.this = a).map node)
  next := next

-- The root that a parser has read and detached, or `none` if the parse has failed
def parse (flags : Flags) (userNsMap : List (Bytes × Bytes)) (xml : Bytes) (h : Heap)
    : Option (Nat × Heap) :=
  match Parser.parseStream (Parser.new flags userNsMap xml h.next) with
  | some (.ok (_, p)) => p.root.map fun root => (root.this, h.load root p.next)
  | _ => none

-- Add child elements from XML text
def addXml (e : Nat) (xml : Bytes) (flags : Flags) (h : Heap) : Option Heap := do
  let _ ← h.nodes e
  match h.parse flags [] xml with
  | some (root, h) => h.write e fun n => { n with children := n.children ++ [root] }
  | none => some h

end Heap

end Xml
end ObTools
