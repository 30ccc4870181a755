import ObTools.Lex.Analyser
import ObTools.Lib.SortedMap

/-!
This module contains the model of `XML::Element` and of how elements are written.
-/

namespace ObTools
namespace Xml

open ObTools.Lex (chars)

abbrev Bytes := List UInt8

/-
An element with the address that it is at. The parent is given by its address.
-/
structure Element where
  this : Nat
  -- Empty for data elements
  name : Bytes
  content : Bytes
  attrs : List (Bytes × Bytes)
  children : List Element
  parent : Option Nat
  line : Nat
deriving Repr

namespace Element

def new (this : Nat) (name content : Bytes) : Element where
  this := this
  name := name
  content := content
  attrs := []
  children := []
  parent := none
  line := 0

def add (e child : Element) : Element :=
  { e with children := e.children ++ [{ child with parent := some e.this }] }

-- A single content child element becomes a simple content string
def optimise (e : Element) : Element :=
  match e.children with
  | [child] =>
    if child.name = [] then
      { e with content := child.content, children := [] }
    else
      e
  | _ => e

-- Escape a string for &, < and >, and optionally "
def escape (v : Bytes) (escquote : Bool) : Bytes :=
  v.flatMap fun c =>
    if c = 60 then
      chars "&lt;"
    else if c = 62 then
      chars "&gt;"
    else if c = 38 then
      chars "&amp;"
    else if c = 34 ∧ escquote then
      chars "&quot;"
    else
      [c]

def writeAttr (name v : Bytes) : Bytes :=
  -- Fast path for simple values
  if v.all fun c => !(chars "<>&\"").contains c then
    chars " " ++ name ++ chars "=\"" ++ v ++ chars "\""
  else
    -- Decide whether value contains ' or " or both
    let escquote := v.contains 34 && v.contains 39
    let delim := if v.contains 34 && !v.contains 39 then [39] else [34]
    chars " " ++ name ++ chars "=" ++ delim ++ escape v escquote ++ delim

def writeAttrs (attrs : List (Bytes × Bytes)) : Bytes :=
  attrs.flatMap fun attr => writeAttr attr.1 attr.2

def spaces (indent : Nat) : Bytes := List.replicate indent 32

mutual

def writeIndented (indent : Nat) (e : Element) : Bytes :=
  match e with
  | { name, content, attrs, children, .. } =>
    spaces indent ++
      -- Name indicates true element
      if name ≠ [] then
        chars "<" ++ name ++ writeAttrs attrs ++
          if children.isEmpty then
            -- Could have an 'optimised' content string, though
            if content ≠ [] then
              chars ">" ++ escape content false ++ chars "</" ++ name ++ chars ">\n"
            else
              chars "/>\n"
          else
            chars ">\n" ++ writeChildren (indent + 2) children ++ spaces indent ++ chars "</" ++ name
              ++ chars ">\n"
      else
        escape content false ++ chars "\n"

def writeChildren (indent : Nat) : List Element → Bytes
  | [] => []
  | child :: children => writeIndented indent child ++ writeChildren indent children

end

def toString (e : Element) (withPi : Bool) : Bytes :=
  (if withPi then chars "<?xml version=\"1.0\"?>\n" else []) ++ writeIndented 0 e

end Element

end Xml
end ObTools
