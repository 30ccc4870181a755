import Mathlib.Data.List.DropRight
import ObTools.Lib.Lines

/-!
This module contains the model of `ReGen::MarkedFile` and `ReGen::MasterFile`. A file is only ever read on
with `read_line`, so that the loops over a file run over the list of the lines that it returns.
-/

namespace ObTools
namespace ReGen

open Lines (Bytes Stream)

inductive LineType where
  -- Ordinary unmarked line
  | normal
  -- Block open, with tag
  | open_
  | close
  | userStart
  | userEnd
  deriving DecidableEq, Repr

-- `find` of a string in another
def find (marker : Bytes) : Bytes → Option Nat
  | [] => if marker = [] then some 0 else none
  | c :: line => if marker.isPrefixOf (c :: line) then some 0 else (find marker line).map (· + 1)

def isSpace (c : UInt8) : Bool := c = 32 || c = 9

structure MarkedFile where
  sin : Stream
  marker : Bytes
  -- Last line read, not including EOL
  line : Bytes

namespace MarkedFile

def new (text marker : Bytes) : MarkedFile := { sin := Stream.new text, marker, line := [] }

def readLine (file : MarkedFile) : Bool × MarkedFile :=
  if file.sin.fail then
    (false, file)
  else
    let (line, sin) := file.sin.getline file.line
    let file := { file with sin, line }
    -- Double check, to prevent bogus empty last line
    if sin.fail && line.isEmpty then (false, file) else (true, file)

-- The lines that `read_line` returns, and the text that is left in the file when it returns false
def lines : Nat → MarkedFile → List Bytes × Bytes
  | 0, file => ([], file.line)
  | fuel + 1, file =>
    match file.readLine with
    | (false, file) => ([], file.line)
    | (true, file) =>
      let (ls, last) := lines fuel file
      (file.line :: ls, last)

def allLines (file : MarkedFile) : List Bytes × Bytes := file.lines (file.sin.rest.length + 2)

end MarkedFile

def lineType (marker line : Bytes) : LineType :=
  match find marker line with
  | none => .normal
  | some pos =>
    match line.drop (pos + 3) with
    | [] => .normal
    | c :: _ =>
      if c = 91 then .open_
      else if c = 93 then .close
      else if c = 94 then .userStart
      else if c = 118 then .userEnd
      -- Ignore unrecognised
      else .normal

-- A tag of one character is none
def lineTag (marker line : Bytes) : Bytes :=
  match find marker line with
  | none => []
  | some pos =>
    let tag := ((line.drop (pos + 4)).dropWhile isSpace).rdropWhile isSpace
    if tag.length ≤ 1 then [] else tag

structure BlockLine where
  type : LineType
  text : Bytes
  deriving DecidableEq, Repr

structure Block where
  used : Bool
  lines : List BlockLine
  deriving DecidableEq, Repr

namespace Block

def addLine (type : LineType) (text : Bytes) (b : Block) : Block :=
  { b with lines := b.lines ++ [{ type, text }] }

end Block

-- A block is given by its place in the list of blocks
structure MasterFile where
  blocks : List Block
  blockmap : List (Bytes × Nat)
  deriving DecidableEq, Repr

namespace MasterFile

-- The state of the constructor, with the current block
structure Scan where
  blocks : List Block
  blockmap : List (Bytes × Nat)
  currentBlock : Option Nat
  deriving DecidableEq, Repr

def scanLine (marker : Bytes) (s : Scan) (line : Bytes) : Scan :=
  let lt := lineType marker line
  -- Open new blocks before adding, to include open
  let s :=
    if lt = .open_ ∧ lineTag marker line ≠ [] then
      { blocks := s.blocks ++ [{ used := false, lines := [] }]
        blockmap := (lineTag marker line, s.blocks.length) :: s.blockmap
        currentBlock := some s.blocks.length }
    else
      s
  let s :=
    match s.currentBlock with
    | some b => { s with blocks := s.blocks.modify b (Block.addLine lt line) }
    | none => s
  -- Close old blocks after adding, to include close
  if lt = .close then { s with currentBlock := none } else s

def new (text marker : Bytes) : MasterFile :=
  let s := (MarkedFile.new text marker).allLines.1.foldl (scanLine marker)
    { blocks := [], blockmap := [], currentBlock := none }
  { blocks := s.blocks, blockmap := s.blockmap }

def findBlock (tag : Bytes) (master : MasterFile) : Option Nat := master.blockmap.lookup tag

structure Merge where
  -- The lines that have been put out
  out : List Bytes
  useLines : Bool
  -- Current master block (if any)
  b : Option Nat
  -- Current line within master block, with those behind it
  bp : List BlockLine
  blocks : List Block
  -- Whether an orphan block is being copied out
  orphan : Bool
  deriving DecidableEq, Repr

namespace Merge

def print (line : Bytes) (s : Merge) : Merge := { s with out := s.out ++ [line] }

def printLines (ls : List BlockLine) (s : Merge) : Merge :=
  { s with out := s.out ++ ls.map BlockLine.text }

def notUserStart (bl : BlockLine) : Bool := bl.type ≠ .userStart

def notUserEnd (bl : BlockLine) : Bool := bl.type ≠ .userEnd

-- Dump out all lines until a USTART or end
def openBlock (b : Nat) (s : Merge) : Merge :=
  let ls := ((s.blocks[b]?).map Block.lines).getD []
  let s := s.printLines (ls.takeWhile notUserStart)
  { s with
    b := some b
    bp := ls.dropWhile notUserStart
    blocks := s.blocks.modify b fun block => { block with used := true }
    useLines := false }

def closeBlock (s : Merge) : Merge :=
  match s.b with
  | some _ => { s.printLines s.bp with bp := [], b := none, useLines := true }
  | none => { s with b := none, useLines := true }

-- Skip over lines in master until USER_END, and that too
def userStart (line : Bytes) (s : Merge) : Merge :=
  match s.b with
  | some _ => { s with bp := (s.bp.dropWhile notUserEnd).tail, useLines := true }.print line
  | none => s

-- Dump out all lines until a USTART or end, and that USTART too
def userEnd (line : Bytes) (s : Merge) : Merge :=
  match s.b with
  | some _ =>
    let bp := s.bp.dropWhile notUserStart
    let s := (s.print line).printLines (s.bp.takeWhile notUserStart ++ bp.take 1)
    { s with bp, useLines := false }
  | none => s

end Merge

-- What is done with a line of the user file
def mergeLine (master : MasterFile) (marker : Bytes) (deleteOrphans : Bool) (s : Merge) (line : Bytes)
    : Merge :=
  let lt := lineType marker line
  if s.orphan then
    -- The loop in the branch for OPEN goes on until CLOSE
    { s.print line with orphan := lt ≠ .close }
  else
    match lt with
    | .normal => if s.useLines then s.print line else s
    | .open_ =>
      let tag := lineTag marker line
      if tag = [] then
        s
      else
        match master.findBlock tag with
        | some b => s.openBlock b
        | none =>
          if deleteOrphans then
            { s with b := none, useLines := false }
          else
            { s.print line with b := none, orphan := true }
    | .close => s.closeBlock
    | .userStart => s.userStart line
    | .userEnd => s.userEnd line

-- Append any remaining unused blocks from the master
def unusedLines (blocks : List Block) : List Bytes :=
  blocks.flatMap fun b => if b.used then [] else [] :: b.lines.map BlockLine.text

-- `MERGE_DELETE_ORPHANS` and `MERGE_SUPPRESS_NEW`
def deleteOrphansFlag : Nat := 1

def suppressNewFlag : Nat := 2

-- The text that is written, and the master file with the blocks that are marked as used
def merge (master : MasterFile) (ufile : MarkedFile) (flags : Nat) : Bytes × MasterFile :=
  let (ls, last) := ufile.allLines
  let s := ls.foldl (master.mergeLine ufile.marker (flags &&& deleteOrphansFlag ≠ 0))
    { out := [], useLines := true, b := none, bp := [], blocks := master.blocks, orphan := false }
  -- The file has ended before the orphan has
  let s := if s.orphan then s.print last else s
  if flags &&& suppressNewFlag = 0 then
    (Lines.textOf (s.out ++ unusedLines s.blocks),
      { master with blocks := s.blocks.map fun b => { b with used := false } })
  else
    (Lines.textOf s.out, { master with blocks := s.blocks })

end MasterFile

end ReGen
end ObTools
