import ObTools.Lib.Runs

/-!
This module contains the model of the correlator of the XMLMesh server, with the messages that are
routed through the server and tell the correlator when they are copied, forwarded and destroyed.
-/

namespace ObTools
namespace XMLMesh

/-
The parts of a message that the correlator reads, and the rest of its text.
-/
structure Message where
  id : String
  ref : String
  rsvp : Bool
  text : String
deriving DecidableEq, Repr

-- The fault has a random ID, which nobody looks at
def FaultMessage (ref reason : String) : Message where
  id := ""
  ref := ref
  rsvp := false
  text := reason

inductive RoutingMessage.Kind where
  | connection
  | message
  | disconnection
deriving DecidableEq, Repr

/-
The path is in the form of a string here, and a tracker is given by the ID of its correlation.
-/
structure RoutingMessage where
  type : RoutingMessage.Kind
  message : Message
  reversing : Bool
  path : String
  tracker : Option String
deriving DecidableEq, Repr

-- Inbound messages
def RoutingMessage.inbound (message : Message) (path : String) : RoutingMessage where
  type := .message
  message := message
  reversing := false
  path := path
  tracker := none

-- Returned messages, with reverse path
def RoutingMessage.returned (message : Message) (path : String) : RoutingMessage where
  type := .message
  message := message
  reversing := true
  path := path
  tracker := none

def RoutingMessage.disconnection (path : String) : RoutingMessage where
  type := .disconnection
  message := { id := "", ref := "", rsvp := false, text := "" }
  reversing := false
  path := path
  tracker := none

/-
The copies are given by their addresses. The time of the last use is that of the cache.
-/
structure Correlation where
  id : String
  sourcePath : String
  copies : List Nat
  forwarded : Bool
  replied : Bool
  useTime : Int
deriving DecidableEq, Repr

def Correlation.new (id sourcePath : String) (now : Int) : Correlation where
  id := id
  sourcePath := sourcePath
  copies := []
  forwarded := false
  replied := false
  useTime := now

structure Correlator where
  timeout : Int
  requestCache : List Correlation
  -- The messages that exist, at their addresses
  messages : Nat → Option RoutingMessage
  -- What the correlator has originated, with the path it is for
  originated : List (Message × String)
  -- The requests that correlations have been opened for, with their source paths
  opened : List (String × String)
  -- The IDs of the messages that external clients have got
  delivered : List String

namespace Correlator

def new (timeout : Int) : Correlator where
  timeout := timeout
  requestCache := []
  messages := fun _ => none
  originated := []
  opened := []
  delivered := []

variable (s : Correlator)

def originate (message : Message) (path : String) : Correlator :=
  { s with originated := s.originated ++ [(message, path)] }

-- Handle orphan messages (messages that cannot now be replied to)
def handleOrphan (cr : Correlation) : Correlator :=
  s.originate (FaultMessage cr.id "Nothing to handle this request") cr.sourcePath

def update (id : String) (f : Correlation → Correlation) : Correlator :=
  { s with requestCache := s.requestCache.map fun cr => if cr.id = id then f cr else cr }

def lookup (id : String) : Option Correlation := s.requestCache.find? (fun cr => cr.id = id)

/-
The functions of the tracker.
-/

def notifyForwarded (id : String) : Correlator := s.update id fun cr => { cr with forwarded := true }

def attach (id : String) (msg : Nat) : Correlator :=
  s.update id fun cr => { cr with copies := cr.copies ++ [msg] }

def detach (id : String) (msg : Nat) : Correlator :=
  match s.lookup id with
  | some cr =>
    let copies := cr.copies.filter (· ≠ msg)
    -- If now empty, and not forwarded or replied, there will be no response
    if copies = [] ∧ cr.forwarded = false ∧ cr.replied = false then
      (s.handleOrphan cr).update id fun cr => { cr with copies := copies, replied := true }
    else
      s.update id fun cr => { cr with copies := copies }
  | none => s

-- Cuts a correlation loose from the messages which are still being tracked by it
def release (copies : List Nat) (msg : Nat) : Option RoutingMessage :=
  if msg ∈ copies then
    (s.messages msg).map fun m => { m with tracker := none }
  else
    s.messages msg

-- The destructor of a correlation
def destroy (cr : Correlation) : Correlator :=
  let s := { s with messages := s.release cr.copies }
  if cr.replied then s else s.handleOrphan cr

-- Takes correlations out of the cache and deletes them, in the order of the map
def removeAll (p : Correlation → Bool) : Correlator :=
  (s.requestCache.filter p).foldl destroy
    { s with requestCache := s.requestCache.filter fun cr => !p cr }

-- There is one correlation with an ID at most
def remove (id : String) : Correlator := s.removeAll fun cr => cr.id = id

def insert (cr : Correlation) : List Correlation → List Correlation
  | [] => [cr]
  | c :: cs => if cr.id < c.id then cr :: c :: cs else c :: insert cr cs

def add (cr : Correlation) : Correlator :=
  let s := s.remove cr.id
  { s with requestCache := insert cr s.requestCache }

/-
The functions of the routing messages.
-/

def setMessage (msg : Nat) (m : RoutingMessage) : Correlator :=
  { s with messages := Function.update s.messages msg (some m) }

def untrack (msg : Nat) (m : RoutingMessage) : Correlator :=
  match m.tracker with
  | some id => (s.detach id msg).setMessage msg { m with tracker := none }
  | none => s

def track (msg : Nat) (m : RoutingMessage) (id : String) : Correlator :=
  ((s.untrack msg m).setMessage msg { m with tracker := some id }).attach id msg

-- The copy constructor
def copy (m : RoutingMessage) (dest : Nat) : Correlator :=
  match m.tracker with
  | some id => (s.setMessage dest m).attach id dest
  | none => s.setMessage dest m

-- The destructor
def destroyMessage (msg : Nat) (m : RoutingMessage) : Correlator :=
  let s := match m.tracker with
    | some id => s.detach id msg
    | none => s
  { s with messages := Function.update s.messages msg none }

-- Creates a correlated request and enters it in the cache
def openCorrelation (id path : String) (now : Int) : Correlator :=
  let s := s.add (.new id path now)
  { s with opened := s.opened ++ [(id, path)] }

def openRequest (msg : Nat) (m : RoutingMessage) (now : Int) : Correlator :=
  let s := s.openCorrelation m.message.id m.path now
  -- The correlation that has tracked the message up to now may be deleted
  match s.messages msg with
  | some m' => s.track msg m' m.message.id
  | none => s

-- A response for a correlation, which is then deleted
def reply (m : RoutingMessage) (cr : Correlation) : Correlator :=
  let s := { s with requestCache := s.requestCache.filter fun c => c.id ≠ cr.id }
  (s.originate m.message cr.sourcePath).destroy { cr with replied := true }

/-
The state and whether the message is forwarded or reversed.
-/
def handle (msg : Nat) (m : RoutingMessage) (now : Int) : Correlator × Bool :=
  match m.type with
  | .connection => (s, true)
  | .message =>
    if m.message.ref ≠ "" then
      -- It's a response
      match s.lookup m.message.ref with
      | some cr => (s.reply m cr, false)
      | none => (s, false)
    else if m.reversing = false ∧ m.message.rsvp = true then
      (s.openRequest msg m now, true)
    else
      (s, true)
  | .disconnection => (s.removeAll fun cr => m.path = cr.sourcePath, true)

def keepEntry (cr : Correlation) (now : Int) : Bool :=
  s.timeout = 0 || now - cr.useTime < s.timeout

-- Times out correlations
def tick (now : Int) : Correlator := s.removeAll fun cr => !s.keepEntry cr now

end Correlator

inductive Action where
  -- A message of an external client; it can only be a response to a message that a client has got
  | receive (msg : Nat) (message : Message) (path : String)
  | disconnect (msg : Nat) (path : String)
  -- A service that handles a message responds to it
  | respond (msg : Nat) (dest : Nat) (text : String)
  | copy (msg : Nat) (dest : Nat)
  -- The publisher sends a message to a subscriber
  | publish (msg : Nat) (dest : Nat) (path : String)
  | handle (msg : Nat) (now : Int)
  -- The OTMP services forward a message to an external client
  | forwardOTMP (msg : Nat)
  -- The HTTP service queues a message for an external client
  | forwardHTTP (msg : Nat)
  | destroy (msg : Nat)
  | tick (now : Int)
deriving DecidableEq, Repr

namespace Correlator

-- A new message is made at a free address
def create (s : Correlator) (msg : Nat) (m : RoutingMessage) : Option Correlator :=
  if s.messages msg = none then some (s.setMessage msg m) else none

def step (s : Correlator) : Action → Option Correlator
  | .receive msg message path =>
    if message.ref = "" ∨ message.ref ∈ s.delivered then
      s.create msg (.inbound message path)
    else
      none
  | .disconnect msg path => s.create msg (.disconnection path)
  | .respond msg dest text =>
    match s.messages msg with
    | some m => s.create dest (.returned { id := "", ref := m.message.id, rsvp := false, text := text } m.path)
    | none => none
  | .copy msg dest =>
    match s.messages msg with
    | some m => if s.messages dest = none then some (s.copy m dest) else none
    | none => none
  | .publish msg dest path =>
    match s.messages msg with
    | some m =>
      (s.create dest (.returned m.message path)).map fun s =>
        -- If old message was being tracked, attach new one as well
        match m.tracker with
        | some id => s.track dest (.returned m.message path) id
        | none => s
    | none => none
  | .handle msg now =>
    match s.messages msg with
    | some m => some (s.handle msg m now).1
    | none => none
  | .forwardOTMP msg =>
    match s.messages msg with
    | some m =>
      let s := { s with delivered := s.delivered ++ [m.message.id] }
      match m.tracker with
      | some id => some (s.notifyForwarded id)
      | none => some s
    | none => none
  | .forwardHTTP msg =>
    match s.messages msg with
    | some m =>
      if m.reversing ∧ m.message.ref = "" then
        some { s with delivered := s.delivered ++ [m.message.id] }
      else
        none
    | none => none
  | .destroy msg =>
    match s.messages msg with
    | some m => some (s.destroyMessage msg m)
    | none => none
  | .tick now => some (s.tick now)

def run (timeout : Int) (actions : List Action) : Option Correlator :=
  Runs.run step (new timeout) actions

end Correlator

end XMLMesh
end ObTools
