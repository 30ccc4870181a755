import ObTools.Lib.Ticks
import ObTools.Misc.Interpolate
import ObTools.Text.Convert
import ObTools.Xml.Element

/-!
This module contains the model of the script engine: the actions that are made from the elements of a script, how they
are started, and how they are ticked until they end.

An action is made when its turn comes, so that fuel is for the depth of the elements. Stopping and deleting actions does
nothing else. Actions that draw random numbers or run threads are left out.
-/

namespace ObTools
namespace Script

open ObTools.Lex (chars)
open Misc (PropertyList)
open Xml (Element)

abbrev Bytes := List UInt8

abbrev Stamp := UInt64

/-
Durations, which are `double`s in the source: what is asked of them.
-/
structure Durations where
  Duration : Type
  parse : Bytes → Duration
  nonzero : Duration → Bool
  between : Stamp → Stamp → Duration
  lt : Duration → Duration → Bool
  ge : Duration → Duration → Bool
  -- No time is between a stamp and itself
  ge_of_zero : ∀ now d, nonzero d = false → ge (between now now) d = true

/-
Elements.
-/

def getAttr (e : Element) (name default : Bytes) : Bytes := (SortedMap.find name e.attrs).getD default

def getAttrInt (e : Element) (name : Bytes) (default : Int32) : Int32 :=
  match SortedMap.find name e.attrs with
  | some v => Text.atoi v
  | none => default

-- All direct child text content, each with a line feed
def getContent (e : Element) : Bytes :=
  if e.content ≠ [] then
    e.content
  else
    e.children.flatMap fun child => if child.name = [] ∧ child.content ≠ [] then child.content ++ [10] else []

/-
Languages.
-/

inductive Kind where
  | sequenceAction
  | repeatAction
  | groupAction
  | raceAction
  | replicatedAction
  | logAction
  | delayAction
  | scopeAction
  | setAction
deriving DecidableEq, Repr

structure Language where
  registry : List (Bytes × Kind)

namespace Language

def registerAction (lang : Language) (name : Bytes) (kind : Kind) : Language where
  registry := SortedMap.set name kind lang.registry

-- `BaseLanguage`, less its thread and random actions
def base : Language :=
  [ (chars "sequence", .sequenceAction),
    (chars "repeat", .repeatAction),
    (chars "group", .groupAction),
    (chars "race", .raceAction),
    (chars "replicate", .replicatedAction),
    (chars "log", .logAction),
    (chars "delay", .delayAction),
    (chars "scope", .scopeAction),
    (chars "set", .setAction) ].foldl (fun lang e => lang.registerAction e.1 e.2) { registry := [] }

end Language

/-
Actions.
-/

-- What is done by a script, with the element that it is done for
inductive Effect where
  | message (xml : Element) (level : Int32) (text : Bytes)
  | assigned (xml : Element) (var text : Bytes)
  -- Unknown action, which is logged
  | unknown (xml : Element)

def Effect.xml : Effect → Element
  | message xml _ _ => xml
  | assigned xml _ _ => xml
  | unknown xml => xml

structure Sequence (α : Type) where
  xml : Element
  it : List Element
  current : Option α

namespace Sequence

def new {α : Type} (xml : Element) : Sequence α where
  xml := xml
  it := xml.children
  current := none

def restart {α : Type} (seq : Sequence α) : Sequence α where
  xml := seq.xml
  it := seq.xml.children
  current := none

end Sequence

inductive Action (D : Type) where
  | sequenceAction (seq : Sequence (Action D))
  | repeatAction (seq : Sequence (Action D)) (index times : Int32)
  | parallelAction (race : Bool) (xml : Element) (actions : List (Action D))
  | replicatedAction (xml : Element) (copies : Int32) (spread : D) (started : Int32) (lastStart : Stamp)
    (actions : List (Int32 × Sequence (Action D)))
  | logAction (xml : Element)
  | delayAction (start : Stamp) (time : D)
  | scopeAction (seq : Sequence (Action D)) (context : PropertyList) (ticked : Bool)
  | setAction (xml : Element)

abbrev Result (σ : Type) := Ticked Effect PropertyList σ

variable (T : Durations) (lang : Language)

-- `none` if it fails. The time is that of the tick
def createAction (now : Stamp) (xml : Element) : Option (Action T.Duration) :=
  (SortedMap.find xml.name lang.registry).map fun
    | .sequenceAction => .sequenceAction (.new xml)
    | .repeatAction => .repeatAction (.new xml) 0 (getAttrInt xml (chars "times") 0)
    | .groupAction => .parallelAction false xml []
    | .raceAction => .parallelAction true xml []
    | .replicatedAction =>
      .replicatedAction xml (getAttrInt xml (chars "copies") 1) (T.parse (getAttr xml (chars "spread") (chars "0"))) 0 0
        []
    | .logAction => .logAction xml
    | .delayAction => .delayAction now (T.parse (getAttr xml (chars "time") (chars "0")))
    | .scopeAction => .scopeAction (.new xml) .empty false
    | .setAction => .setAction xml

-- The default level is `summary`
def runLog {σ : Type} (con : PropertyList) (xml : Element) (a : σ) : Result σ where
  active := true
  out := [.message xml (getAttrInt xml (chars "level") 2) (con.interpolate (getContent xml))]
  env := con
  state := a

def runSet {σ : Type} (con : PropertyList) (xml : Element) (a : σ) : Result σ :=
  let var := getAttr xml (chars "var") []
  if var ≠ [] then
    let text := con.interpolate (getContent xml)
    { active := true, out := [.assigned xml var text], env := con.add var text, state := a }
  else
    { active := true, out := [], env := con, state := a }

-- Start all children actions simultaneously, of those that can be created
def startChildren (start : PropertyList → Action T.Duration → Result (Action T.Duration)) (now : Stamp)
    (con : PropertyList) : List Element → Result (List (Action T.Duration))
  | [] => { active := true, out := [], env := con, state := [] }
  | child :: children =>
    match createAction T lang now child with
    | none =>
      let others := startChildren start now con children
      { others with out := .unknown child :: others.out }
    | some a =>
      let s := start con a
      let others := startChildren start now s.env children
      { active := true, out := s.out ++ others.out, env := others.env, state := s.state :: others.state }

-- Whether it is runnable
def start (now : Stamp) : Nat → PropertyList → Action T.Duration → Result (Action T.Duration)
  | _, con, .logAction xml => runLog con xml (.logAction xml)
  | _, con, .setAction xml => runSet con xml (.setAction xml)
  | fuel + 1, con, .parallelAction race xml actions =>
    (startChildren T lang (start now fuel) now con xml.children).lift fun started =>
      .parallelAction race xml (actions ++ started)
  | _, con, a => { active := true, out := [], env := con, state := a }

/-
Ticks of a sequence, with how its actions are started and ticked.
-/
section

variable {T} (startAction tickAction : PropertyList → Action T.Duration → Result (Action T.Duration)) (now : Stamp)

namespace Sequence

def tickCurrent (con : PropertyList) (seq : Sequence (Action T.Duration)) (a : Action T.Duration)
    : Result (Sequence (Action T.Duration)) :=
  let t := tickAction con a
  if t.active then
    t.lift fun a => { seq with current := some a }
  else
    -- Only ask to continue if there are any more
    { active := !seq.it.isEmpty, out := t.out, env := t.env, state := { seq with current := none } }

def tick (con : PropertyList) (seq : Sequence (Action T.Duration)) : Result (Sequence (Action T.Duration)) :=
  match seq.current, seq.it with
  | some a, _ => tickCurrent tickAction con seq a
  | none, [] => { active := false, out := [], env := con, state := seq }
  | none, xml :: it =>
    match createAction T lang now xml with
    | none => { active := false, out := [.unknown xml], env := con, state := seq }
    | some a =>
      let s := startAction con a
      if s.active then
        let t := tickCurrent tickAction s.env { seq with it := it } s.state
        { t with out := s.out ++ t.out }
      else
        { s with active := false, state := { seq with current := some s.state } }

end Sequence

end

-- The copies that were started, when the last of them was, and those that are running
structure Copies (D : Type) where
  started : Int32
  lastStart : Stamp
  actions : List (Int32 × Sequence (Action D))

-- If less started than wanted, start some. As many are wanted as there is fuel for
def startCopies (now : Stamp) (xml : Element) (copies : Int32) (spread : T.Duration)
    : Nat → Copies T.Duration → Copies T.Duration
  | 0, c => c
  | fuel + 1, c =>
    if c.started < copies then
      let c :=
        -- Check we're allowed to
        if c.started = 0 || (c.lastStart ≤ now && T.ge (T.between now c.lastStart) spread) then
          { started := c.started + 1, lastStart := now, actions := c.actions ++ [(c.started, .new xml)] }
        else
          c
      -- See if we need to wait
      if T.nonzero spread then c else startCopies now xml copies spread fuel c
    else
      c

def tick (now : Stamp) : Nat → PropertyList → Action T.Duration → Result (Action T.Duration)
  | 0, con, a => { active := false, out := [], env := con, state := a }
  | fuel + 1, con, .sequenceAction seq =>
    (seq.tick lang (start T lang now fuel) (tick now fuel) now con).lift .sequenceAction
  | fuel + 1, con, .repeatAction seq index times =>
    let t := seq.tick lang (start T lang now fuel) (tick now fuel) now (con.add (chars "index") (Text.itos index))
    if t.active then
      t.lift fun seq => .repeatAction seq index times
    else if times = 0 then
      { t.lift (fun seq => .repeatAction seq.restart index times) with active := true }
    else if times ≤ index + 1 then
      t.lift fun seq => .repeatAction seq (index + 1) times
    else
      { t.lift (fun seq => .repeatAction seq.restart (index + 1) times) with active := true }
  | fuel + 1, con, .parallelAction race xml actions =>
    let t := Ticks.tickAll (tick now fuel) con actions
    { t.lift (.parallelAction race xml) with
      active := if race then t.state.length = xml.children.length else !t.state.isEmpty }
  | fuel + 1, con, .replicatedAction xml copies spread started lastStart actions =>
    let c := startCopies T now xml copies spread (copies.toInt - started.toInt).toNat
      { started := started, lastStart := lastStart, actions := actions }
    let t := Ticks.tickAll (fun con copy =>
        (copy.2.tick lang (start T lang now fuel) (tick now fuel) now (con.add (chars "copy") (Text.itos copy.1))).lift
          (Prod.mk copy.1))
      con c.actions
    { t.lift (.replicatedAction xml copies spread c.started c.lastStart) with
      active := c.started < copies || !t.state.isEmpty }
  | _ + 1, con, .logAction xml => { active := false, out := [], env := con, state := .logAction xml }
  | _ + 1, con, .setAction xml => { active := false, out := [], env := con, state := .setAction xml }
  | _ + 1, con, .delayAction start time =>
    { active := now ≤ start || T.lt (T.between now start) time,
      out := [],
      env := con,
      state := .delayAction start time }
  -- The outer context is captured by the first tick, and is left as it is
  | fuel + 1, con, .scopeAction seq context ticked =>
    let t := seq.tick lang (start T lang now fuel) (tick now fuel) now (if ticked then context else con)
    { active := t.active, out := t.out, env := con, state := .scopeAction t.state t.env true }

/-
Scripts.
-/

mutual

def depth : Element → Nat
  | ⟨_, _, _, _, children, _, _⟩ => depthAll children + 1

def depthAll : List Element → Nat
  | [] => 0
  | child :: children => max (depth child) (depthAll children)

end

def tickScript (fuel : Nat) (now : Stamp) (con : PropertyList) (script : Sequence (Action T.Duration))
    : Result (Sequence (Action T.Duration)) :=
  script.tick lang (start T lang now fuel) (tick T lang now fuel) now con

-- Run the script, for as many ticks, each at the time that the clock has for it and with a context of its own
def run (clock : Nat → Stamp) (xml : Element) (ticks : Nat) : Ticks Effect :=
  Ticks.run (fun con n => tickScript T lang (depth xml) (clock n) con) .empty ticks 0 (.new xml)

end Script
end ObTools
