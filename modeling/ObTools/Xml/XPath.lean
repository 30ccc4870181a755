import ObTools.Xml.Heap

/-!
This module contains the model of the elements that `XPathProcessor` finds, makes and deletes, and of the
path of an element.
-/

namespace ObTools
namespace Xml
namespace Heap

-- The children of the given name
def named (h : Heap) (name : Bytes) : List Nat → Option (List Nat)
  | [] => some []
  | child :: children => do
    let n ← h.nodes child
    let l ← named h name children
    return if n.name = name then child :: l else l

def getChildren (e : Nat) (name : Bytes) (h : Heap) : Option (List Nat) := do
  let n ← h.nodes e
  h.named name n.children

-- The name of a step, and the count from zero that comes after it in brackets, or a negative number
def readStep (step : Bytes) : Bytes × Int :=
  if step.contains 91 then
    let name := step.takeWhile (· ≠ 91)
    let count := step.drop (name.length + 1)
    let digits := count.takeWhile (· ≠ 93)
    (name, if count.contains 93 ∧ digits ≠ [] then (Text.atoi digits - 1).toInt else -1)
  else
    (step, -1)

-- Goes down from the current element along what is left of the path
def getElementsLoop (h : Heap) : Nat → Nat → Bytes → Option (List Nat)
  | 0, _, _ => none
  | fuel + 1, current, path =>
    let path := if path.head? = some 47 then path.tail else path
    -- If it stops here, it's the element they want
    if path = [] then
      some [current]
    else do
      let step := path.takeWhile (· ≠ 47)
      let (name, count) := readStep step
      let l ← h.getChildren current name
      if step.length = path.length ∧ count < 0 then
        -- Last step - get all children of this name
        return l
      else
        match l[count.toNat]? with
        | none => return []
        | some child =>
          if step.length = path.length then
            return [child]
          else
            getElementsLoop h fuel child (path.drop (step.length + 1))

def getElements (root : Nat) (path : Bytes) (h : Heap) : Option (List Nat) :=
  h.getElementsLoop (path.length + 1) root path

-- Each element is detached, and deleted
def deleteAll (fuel : Nat) (els : List Nat) (h : Heap) : Option Heap :=
  els.foldlM (fun h e => do
    let h ← h.detach e
    h.delete fuel e) h

-- Delete the element(s) at the given path; whether any such element existed
def deleteElements (fuel root : Nat) (path : Bytes) (h : Heap) : Option (Bool × Heap) := do
  let els ← h.getElements root path
  let h ← h.deleteAll fuel els
  return (!els.isEmpty, h)

-- Single element fetch - first of list, if any
def getElement (root : Nat) (path : Bytes) (h : Heap) : Option (Option Nat) :=
  (h.getElements root path).map List.head?

/-
The number of siblings with the same name, and where an element is among them. The counts are of type `int`,
so they must not get too large.
-/
def countSiblings (h : Heap) (current : Nat) (name : Bytes) : List Nat → Nat → Nat → Option (Nat × Nat)
  | [], count, mycount => some (count, mycount)
  | p :: sibs, count, mycount => do
    let n ← h.nodes p
    let mycount := if p = current then count else mycount
    if n.name = name then
      if count + 1 < 2 ^ 31 then
        countSiblings h current name sibs (count + 1) mycount
      else
        none
    else
      countSiblings h current name sibs count mycount

-- Loop up through parents, stop at root
def getXpathLoop (h : Heap) : Nat → Nat → Bytes → Option Bytes
  | 0, _, _ => none
  | fuel + 1, current, xpath => do
    let n ← h.nodes current
    match n.parent with
    | none => return xpath
    | some parent =>
      let p ← h.nodes parent
      -- Check where we are in the list of siblings with the same name
      let (count, mycount) ← h.countSiblings current n.name p.children 0 0
      let part := if count > 1 then [91] ++ Digits.toBytes 10 (mycount + 1) ++ [93] else []
      getXpathLoop h fuel parent ([47] ++ n.name ++ part ++ xpath)

-- Get XPath position relative to root (not including the root itself)
def getXpath (fuel e : Nat) (h : Heap) : Option Bytes := h.getXpathLoop fuel e []

-- Where a character is last
def rfind (c : UInt8) : Bytes → Option Nat
  | [] => none
  | d :: s =>
    match rfind c s with
    | some i => some (i + 1)
    | none => if d = c then some 0 else none

def ensurePathLoop (root : Nat) : Nat → Bytes → Heap → Option (Nat × Heap)
  | 0, _, _ => none
  | fuel + 1, path, h => do
    -- See if it already exists
    match ← h.getElement root path with
    | some e => return (e, h)
    | none =>
      -- Then we must create it - first make sure the parent path exists
      let delim := rfind 47 path
      let (parent, h) ← match delim with
        | some (delim + 1) => ensurePathLoop root fuel (path.take (delim + 1)) h
        -- Ignore leading /
        | _ => some (root, h)
      let childName := match delim with
        | some delim => path.drop (delim + 1)
        | none => path
      let (child, h) := h.create childName [] []
      let h ← h.add parent child
      return (child, h)

-- Ensure the given element path exists
def ensurePath (root : Nat) (path : Bytes) (h : Heap) : Option (Nat × Heap) :=
  ensurePathLoop root (path.length + 1) path h

end Heap
end Xml
end ObTools
