import ObTools.Lib.Decoder
import ObTools.Xml.Element

/-!
This module contains the model of `XML::Parser`. The loops run with fuel that is as long as what has
not been read yet.
-/

namespace ObTools
namespace Xml

open ObTools.Lex (chars isAlpha isDigit)

structure Flags where
  optimiseContent : Bool
  preserveWhitespace : Bool
  fixNamespaces : Bool
  beLenient : Bool
deriving Repr, DecidableEq

-- The default of the constructor
def PARSER_OPTIMISE_CONTENT : Flags where
  optimiseContent := true
  preserveWhitespace := false
  fixNamespaces := false
  beLenient := false

/-
The state of a parser and of the stream that it reads from. A stream fails if it is read at its end,
and keeps the base of the numbers that have been read.
-/
structure Parser where
  rest : Bytes
  failed : Bool
  hex : Bool
  flags : Flags
  -- Map of full name to prefix
  userNsMap : List (Bytes × Bytes)
  -- The open elements, the innermost one first; each becomes a child of the next one when it ends
  elements : List Element
  -- The root element when it has ended, and whether there is a root
  root : Option Element
  hasRoot : Bool
  -- Maps of prefix to full name, the innermost one first
  nsMaps : List (List (Bytes × Bytes))
  line : Nat
  errors : List Bytes
  -- The address of the next element
  next : Nat
deriving Repr

namespace Parser

-- The message of a fatal error, if there is one
abbrev Parse (α : Type) := Decoder Parser (Option Bytes) α

def isNameStart (c : UInt8) : Bool := isAlpha c || isDigit c || c = 58 || c = 95

def isNameChar (c : UInt8) : Bool :=
  isAlpha c || isDigit c || c = 58 || c = 45 || c = 95 || c = 46

def isAsciiSpace (c : UInt8) : Bool := c = 32 || (9 ≤ c && c ≤ 13)

def showLine (line : Nat) : Bytes := chars (toString line)

def error (message : Bytes) : Parse Unit := do
  let p ← get
  set { p with errors := p.errors ++ [chars "XML Error: " ++ message ++ chars " at line "
                                        ++ showLine p.line] }

def fatal {α : Type} (message : Bytes) : Parse α := do
  let p ← get
  Decoder.raise (some (chars "XML Fatal Error: " ++ message ++ chars " at line " ++ showLine p.line))

-- `s.get(c)`, which leaves the character alone if there is no other
def getChar (c : UInt8) : Parse UInt8 := fun p =>
  match p.failed, p.rest with
  | false, d :: rest => some (.ok (d, { p with rest := rest }))
  | _, _ => some (.ok (c, { p with failed := true }))

-- `s.unget()` for the character that has been read last
def unget (c : UInt8) : Parse Unit := fun p =>
  some (.ok ((), if p.failed then p else { p with rest := c :: p.rest }))

-- What is left after some white space, and the lines of it
def dropSpaces (line : Nat) : Bytes → Bytes × Nat
  | [] => ([], line)
  | c :: rest =>
    if isAsciiSpace c then
      dropSpaces (if c = 10 then line + 1 else line) rest
    else
      (c :: rest, line)

-- Read a character, skipping initial whitespace, and counting lines
def skipWs (c : UInt8) : Parse UInt8 := do
  let p ← get
  let line := if c = 10 then p.line + 1 else p.line
  let (rest, line) := if p.failed then (p.rest, line) else dropSpaces line p.rest
  set { p with rest := rest, line := line }
  getChar 0

-- The name, and the first non-name character
def readRestOfName (c : UInt8) : Parse (Bytes × UInt8) := do
  let p ← get
  let name := if p.failed then [] else p.rest.takeWhile isNameChar
  set { p with rest := p.rest.drop name.length }
  let d ← getChar 0
  return (c :: name, d)

-- Goes on with a loop, with enough fuel for what is left
def withFuel {α : Type} (loop : Nat → Parse α) : Parse α := fun p => loop (p.rest.length + 1) p

def skipToGtLoop : Nat → Parse Unit
  | 0 => Decoder.outOfFuel
  | fuel + 1 => do
    let c ← getChar 0
    if c = 62 then
      return
    else if c = 10 then
      modify fun p => { p with line := p.line + 1 }
      skipToGtLoop fuel
    else if c = 0 then
      fatal (chars "Unexpected end-of-file")
    else
      skipToGtLoop fuel

-- Read to end of !DOCTYPE etc - just look for '>'
def skipToGt : Parse Unit := withFuel skipToGtLoop

def countLine (c : UInt8) : Parse Unit :=
  modify fun p => if c = 10 then { p with line := p.line + 1 } else p

def skipCommentLoop : Nat → Parse Unit
  | 0 => Decoder.outOfFuel
  | fuel + 1 => do
    let c ← getChar 0
    if c = 45 then
      let c ← getChar 0
      if c = 45 then
        let c ← getChar 0
        if c = 62 then
          return
        else
          countLine c
          skipCommentLoop fuel
      else
        countLine c
        skipCommentLoop fuel
    else if c = 0 then
      fatal (chars "Unexpected end-of-file in comment")
    else
      countLine c
      skipCommentLoop fuel

-- Read to end of comment - look for -->
def skipComment : Parse Unit := withFuel skipCommentLoop

def skipPiLoop : Nat → Parse Unit
  | 0 => Decoder.outOfFuel
  | fuel + 1 => do
    let c ← getChar 0
    if c = 63 then
      let c ← getChar 0
      countLine c
      if c = 62 then
        return
      else if c = 0 then
        fatal (chars "Unexpected end-of-file in PI")
      else
        skipPiLoop fuel
    else if c = 0 then
      fatal (chars "Unexpected end-of-file in PI")
    else
      skipPiLoop fuel

-- Read to end of PI - look for ?>
def skipPi : Parse Unit := withFuel skipPiLoop

-- Check for and skip a BOM
def skipBom : Parse Unit := do
  let c ← getChar 0
  if c ≠ 0xEF then
    unget c
  else
    let c ← getChar c
    if c ≠ 0xBB then
      unget c
    else
      let c ← getChar c
      if c ≠ 0xBF then
        unget c

def hexDigit (c : UInt8) : Option Nat :=
  if isDigit c then
    some (c - 48).toNat
  else if 97 ≤ c ∧ c ≤ 102 then
    some (c - 87).toNat
  else if 65 ≤ c ∧ c ≤ 70 then
    some (c - 55).toNat
  else
    none

def digit (hex : Bool) (c : UInt8) : Option Nat :=
  match hexDigit c with
  | some d => if hex ∨ d < 10 then some d else none
  | none => none

-- The digits of a number that come first, their value, and what is left
def digits (hex : Bool) : Bytes → Nat → Nat → Nat × Nat × Bytes
  | [], n, count => (n, count, [])
  | c :: rest, n, count =>
    match digit hex c with
    | some d => digits hex rest ((if hex then 16 else 10) * n + d) (count + 1)
    | none => (n, count, c :: rest)

-- The digits may come after 0x
def dropHexPrefix (hex : Bool) (rest : Bytes) : Bytes :=
  match hex, rest with
  | true, 48 :: 120 :: rest | true, 48 :: 88 :: rest => rest
  | _, rest => rest

/-
`s >> n` for an `int`, without whitespace before it: its value, or `none` if there is no number or if
it is too large.
-/
def readInt (hex : Bool) (rest : Bytes) : Option (Int × Bytes) :=
  let (negative, rest) := match rest with
    | 43 :: rest => (false, rest)
    | 45 :: rest => (true, rest)
    | rest => (false, rest)
  let (n, count, rest) := digits hex (dropHexPrefix hex rest) 0 0
  let value : Int := if negative then -n else n
  if count = 0 ∨ value < -2147483648 ∨ 2147483647 < value then
    none
  else
    some (value, rest)

-- The number, and the character after it or 0
def readNumber : Parse (Int × UInt8) := do
  let p ← get
  match if p.failed then none else readInt p.hex p.rest with
  | some (n, rest) =>
    set { p with rest := rest }
    let c ← getChar 0
    return (n, c)
  | none =>
    set { p with failed := true }
    return (0, 0)

def encodeChar (n : Int) : Bytes :=
  let byte (n : Int) : UInt8 := UInt8.ofInt n
  if n < 0x80 then
    [byte n]
  else if n < 0x800 then
    [0xC0 ||| byte (n / 64), 0x80 ||| (byte n &&& 0x3F)]
  else
    [0xE0 ||| byte (n / 4096), 0x80 ||| (byte (n / 64) &&& 0x3F), 0x80 ||| (byte n &&& 0x3F)]

-- What a reference stands for
def entity (name : Bytes) : Option UInt8 :=
  if name = chars "lt" then
    some 60
  else if name = chars "gt" then
    some 62
  else if name = chars "amp" then
    some 38
  else if name = chars "apos" then
    some 39
  else if name = chars "quot" then
    some 34
  else
    none

-- The text of a reference, after the &
def readRef : Parse Bytes := do
  let c ← getChar 0
  if c = 35 then
    let c ← getChar c
    if c = 120 then
      modify fun p => { p with hex := true }
    else
      unget c
    let (n, c) ← readNumber
    if c ≠ 59 then
      fatal (chars "Malformed character reference")
    return encodeChar n
  else if isAlpha c then
    let (name, c) ← readRestOfName c
    if c ≠ 59 then
      fatal (chars "Malformed entity reference")
    match entity name with
    | some c => return [c]
    | none => fatal (chars "Unrecognised entity name")
  else
    let p ← get
    if p.flags.beLenient then
      unget c
      return chars "&"
    else
      fatal (chars "Weird reference - unescaped '&'?")

-- The value of an attribute, up to the matching quote
def readValueLoop (quote : UInt8) (aval : Bytes) : Nat → Parse Bytes
  | 0 => Decoder.outOfFuel
  | fuel + 1 => do
    let c ← getChar 0
    if c = 0 then
      fatal (chars "Document ended in attribute value")
    else if c = quote then
      return aval
    else if c = 38 then
      let text ← readRef
      readValueLoop quote (aval ++ text) fuel
    else
      readValueLoop quote (aval ++ [c]) fuel

-- The attributes, and whether the tag is an empty one
def readAttrsLoop (attrs : List (Bytes × Bytes)) (c : UInt8)
    : Nat → Parse (List (Bytes × Bytes) × Bool)
  | 0 => Decoder.outOfFuel
  | fuel + 1 => do
    -- Next must be / > or whitespace, or it's an error
    if !isAsciiSpace c ∧ c ≠ 47 ∧ c ≠ 62 then
      fatal (chars "Illegal start tag")
    let c ← if c ≠ 47 ∧ c ≠ 62 then skipWs c else pure c
    if c = 47 then
      let c ← getChar c
      if c ≠ 62 then
        fatal (chars "Illegal empty close")
      return (attrs, true)
    else if c = 62 then
      return (attrs, false)
    else if !isNameStart c then
      fatal (chars "Illegal attribute name")
    else
      let (aname, c) ← readRestOfName c
      if (SortedMap.find aname attrs).isSome then
        fatal (chars "Duplicate attribute name")
      let c ← if isAsciiSpace c then skipWs c else pure c
      if c ≠ 61 then
        fatal (chars "No = given for attribute")
      let quote ← skipWs 0
      if quote ≠ 34 ∧ quote ≠ 39 then
        fatal (chars "Attribute value not quoted")
      let aval ← withFuel (readValueLoop quote [])
      let c ← getChar 0
      readAttrsLoop (SortedMap.set aname aval attrs) c fuel

/-
Namespaces.
-/

-- The prefix that an attribute defines a namespace for
def nsPrefix (aname : Bytes) : Option Bytes :=
  if aname = chars "xmlns" then
    some []
  else if (chars "xmlns:").isPrefixOf aname then
    some (aname.drop 6)
  else
    none

def initialProcessing (e : Element) : Parse Unit := do
  let p ← get
  if p.flags.fixNamespaces then
    -- Open a new nsmap level and look for xmlns:* attributes
    let nsMap := e.attrs.foldl (fun nsMap attr =>
      match nsPrefix attr.1 with
      | some pre => SortedMap.set pre attr.2 nsMap
      | none => nsMap) (p.nsMaps.headD [])
    set { p with nsMaps := nsMap :: p.nsMaps }

def substituteName (userNsMap topMap : List (Bytes × Bytes)) (name : Bytes) (usedef : Bool) : Bytes :=
  let (pre, tail) := if name.contains 58 then
      (name.takeWhile (· ≠ 58), name.drop ((name.takeWhile (· ≠ 58)).length + 1))
    else
      ([], name)
  if !name.contains 58 ∧ !usedef then
    name
  else
    -- Look up the prefix, and the name of the namespace in the map of the user
    match (SortedMap.find pre topMap).bind fun nsname => SortedMap.find nsname userNsMap with
    | some [] => tail
    | some newprefix => newprefix ++ chars ":" ++ tail
    | none => name

def finalProcessing (e : Element) : Parse Element := do
  let p ← get
  let e := if p.flags.optimiseContent then e.optimise else e
  match p.flags.fixNamespaces, p.nsMaps with
  | true, topMap :: nsMaps =>
    set { p with nsMaps := nsMaps }
    let attrs := e.attrs.foldl (fun attrs attr =>
      SortedMap.set (substituteName p.userNsMap topMap attr.1 false) attr.2 attrs) []
    return { e with name := substituteName p.userNsMap topMap e.name true, attrs := attrs }
  | _, _ => return e

-- A new element at the next address
def newElement (name content : Bytes) : Parse Element := do
  let p ← get
  set { p with next := p.next + 1 }
  return Element.new p.next name content

-- An element that has ended becomes a child of the last open element, or the root
def closeElement (e : Element) : Parse Unit :=
  modify fun p =>
    match p.elements with
    | [] => { p with root := some e }
    | top :: elements => { p with elements := top.add e :: elements }

-- Returns whether element read is empty
def readTag (c : UInt8) : Parse Bool := do
  let e ← newElement [] []
  let (name, c) ← readRestOfName c
  let p ← get
  let line := p.line
  let (attrs, empty) ← withFuel (readAttrsLoop [] c)
  let e := { e with name := name, line := line, attrs := attrs }
  initialProcessing e
  modify fun p => { p with hasRoot := true }
  if empty then
    let e ← finalProcessing e
    closeElement e
  else
    modify fun p => { p with elements := e :: p.elements }
  return empty

def readEndTag (c : UInt8) : Parse Unit := do
  let (name, c) ← readRestOfName c
  let c ← if isAsciiSpace c then skipWs c else pure c
  if c ≠ 62 then
    Decoder.raise none
  let p ← get
  match p.elements with
  | e :: elements =>
    if name = e.name then
      set { p with elements := elements }
      let e ← finalProcessing e
      closeElement e
    else
      fatal (chars "Mis-nested tags - expected </" ++ e.name ++ chars ">, opened at line "
        ++ showLine e.line ++ chars ", but got </" ++ name ++ chars ">")
  | [] => error (chars "End-tag found but no elements open")

-- The text of the content, up to the next tag
def readContentLoop (content : Bytes) (first : Bool) (c : UInt8) : Nat → Parse Bytes
  | 0 => Decoder.outOfFuel
  | fuel + 1 => do
    let p ← get
    -- Keep a single space unless we are about to end
    let (c, content, first) ← if !p.flags.preserveWhitespace ∧ isAsciiSpace c then do
        let c ← skipWs c
        pure (c, if c ≠ 60 then content ++ [32] else content, false)
      else
        pure (c, content, first)
    if c = 60 ∧ !first then
      -- New tag - push this back and stop
      unget c
      return content
    else if c = 38 then
      let text ← readRef
      let c ← getChar 0
      readContentLoop (content ++ text) false c fuel
    else if c = 0 then
      fatal (chars "Unexpected end of stream")
    else
      countLine c
      let d ← getChar 0
      readContentLoop (content ++ [c]) false d fuel

-- Content is added to the last thing we read if that was also a content element
def addContent (preserveWhitespace : Bool) (content : Bytes) (text e : Element) : Element :=
  match e.children.getLast? with
  | some last =>
    if last.name = [] then
      let sep := if preserveWhitespace then [] else [32]
      { e with children :=
          e.children.dropLast ++ [{ last with content := last.content ++ sep ++ content }] }
    else
      e.add text
  | none => e.add text

def readContent (c : UInt8) : Parse Unit := do
  let content ← withFuel (readContentLoop [] true c)
  let p ← get
  match p.elements with
  | e :: elements =>
    let text ← newElement [] content
    modify fun p =>
      { p with elements := addContent p.flags.preserveWhitespace content text e :: elements }
  | [] => return

-- A step of the document-level parser, and whether it is done
def parseStep : Parse Bool := do
  let p ← get
  let c ← if p.hasRoot ∧ p.flags.preserveWhitespace then getChar 0 else skipWs 0
  if c = 0 then
    fatal (if p.hasRoot then chars "Input stream failed unexpectedly"
      else chars "Empty or unreadable document")
  else if c = 60 then
    let c ← getChar c
    if c = 33 then
      let c ← getChar c
      if c = 45 then
        let c ← getChar c
        if c = 45 then
          skipComment
        else
          error (chars "Weird comment")
          skipToGt
      else
        skipToGt
      return false
    else if c = 63 then
      skipPi
      return false
    else if c = 47 then
      let c ← getChar c
      if isNameStart c then
        readEndTag c
      else
        fatal (chars "Illegal end tag")
      let p ← get
      return p.elements.isEmpty
    else if isNameStart c then
      let empty ← readTag c
      let p ← get
      return empty && p.elements.isEmpty
    else if p.flags.beLenient then
      unget c
      readContent 60
      return false
    else
      fatal (chars "Illegal tag")
  else if p.hasRoot then
    readContent c
    return false
  else
    fatal (chars "Non-tag data at start of document")

def parseLoop : Nat → Parse Unit
  | 0 => Decoder.outOfFuel
  | fuel + 1 => do
    let done ← parseStep
    if done then
      return
    else
      parseLoop fuel

def parseStream : Parse Unit := do
  skipBom
  withFuel parseLoop

def new (flags : Flags) (userNsMap : List (Bytes × Bytes)) (input : Bytes) (next : Nat) : Parser where
  rest := input
  failed := false
  hex := false
  flags := flags
  userNsMap := userNsMap
  elements := []
  root := none
  hasRoot := false
  nsMaps := []
  line := 1
  errors := []
  next := next

/-
The root of a document, whose elements are at the addresses from `next` on, or `none` if the parse has
failed.
-/
def readFrom (flags : Flags) (userNsMap : List (Bytes × Bytes)) (input : Bytes) (next : Nat)
    : Option Element :=
  match parseStream (new flags userNsMap input next) with
  | some (.ok (_, p)) => p.root
  | _ => none

end Parser

end Xml
end ObTools
