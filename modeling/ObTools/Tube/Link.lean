import ObTools.Lib.BigEndian
import ObTools.Lib.Fifo
import ObTools.Tube.BiSyncServer

/-!
This module contains the model of how messages get from a `Tube::Client` to a `Tube::Server`: the queue and the thread
that sends, the connections it makes one after another, and the loop of the server that reads each of them. Both sides
and the network take their steps in any order, a read gives as little as it likes, and a connection can break anywhere.

It then contains the verification that on each connection the server handles the messages that were sent on it, in
their order, and that at most the last of them is missing when all has been read.
-/

namespace ObTools

namespace Net.TCPSocket

def SOCKET_BUFFER_SIZE : Nat := 1024

-- `htonl`, as it lies in memory
def htonl (i : UInt32) : List UInt8 := BigEndian.toBytes 4 i.toNat

def ntohl (buf : List UInt8) : UInt32 := UInt32.ofNat (BigEndian.ofBytes buf)

theorem length_htonl (i : UInt32) : (htonl i).length = 4 := BigEndian.length_toBytes 4 i.toNat

theorem ntohl_htonl (i : UInt32) : ntohl (htonl i) = i := by
  unfold ntohl htonl
  rw [BigEndian.ofBytes_toBytes i.toNat_lt]
  exact UInt32.ofNat_toNat

theorem htonl_ntohl {buf : List UInt8} (h : buf.length = 4) : htonl (ntohl buf) = buf := by
  have hlt := BigEndian.ofBytes_lt buf
  rw [h] at hlt
  unfold ntohl htonl
  rw [UInt32.toNat_ofNat_of_lt' hlt, ← h]
  exact BigEndian.toBytes_ofBytes buf

end Net.TCPSocket

namespace Tube

open Net.TCPSocket

-- What is written to the socket for a message
def Message.writes (msg : Message) : List (List UInt8) :=
  [htonl msg.tag, htonl (UInt32.ofNat msg.data.length), htonl msg.flags, msg.data]

inductive Obit where
  | ended
  | died
  | killedByServer
  | unsynced
  | failed
deriving DecidableEq, Repr

/-
Where `process` is in the server, with what it has of the chunk that it reads.
-/
inductive Process where
  | start
  | loop
  | readTag (buf : List UInt8)
  | readLength (tag : UInt32) (buf : List UInt8)
  | readFlags (tag len : UInt32) (buf : List UInt8)
  | readData (msg : Message) (len : UInt32)
  | handle (msg : Message)
  | stopped (obit : Obit)
  | gone (obit : Obit)
deriving DecidableEq, Repr

namespace Process

-- `read(msg.data, len)`, which goes on as long as there is something left to read
def readOn (msg : Message) (len : UInt32) : Process :=
  if msg.data.length < len.toNat then .readData msg len else .handle msg

-- How much the next read of the socket asks for
def count : Process → Nat
  | .readTag buf | .readLength _ buf | .readFlags _ _ buf => 4 - buf.length
  | .readData msg len => min SOCKET_BUFFER_SIZE (len.toNat - msg.data.length)
  | _ => 0

-- A read that finds the end of the stream
def atEnd : Process → Process
  | .readTag _ => .stopped .ended
  | .readLength _ _ | .readFlags _ _ _ => .stopped .failed
  | .readData _ _ => .stopped .died
  | p => p

-- What a read has given, where the server may have been shut down meanwhile
def got (tagRecognised : UInt32 → Bool) (alive : Bool) (bytes : List UInt8) : Process → Process
  | .readTag buf =>
    let buf := buf ++ bytes
    if buf.length < 4 then
      .readTag buf
    else if !alive then
      .stopped .ended
    else if tagRecognised (ntohl buf) then
      .readLength (ntohl buf) []
    else
      .stopped .unsynced
  | .readLength tag buf =>
    let buf := buf ++ bytes
    if buf.length < 4 then .readLength tag buf else .readFlags tag (ntohl buf) []
  | .readFlags tag len buf =>
    let buf := buf ++ bytes
    if buf.length < 4 then .readFlags tag len buf else readOn { tag, flags := ntohl buf, data := [] } len
  | .readData msg len => readOn { msg with data := msg.data ++ bytes } len
  | p => p

end Process

/-
A connection, as the server sees it. What has been written to it is in `inFlight` until the server reads it.
-/
structure Connection (EndPoint : Type) where
  client : EndPoint
  inFlight : List UInt8
  -- Whether the client has closed its side
  closed : Bool
  process : Process
  -- Whether the thread that sends to this client is there
  sendThread : Bool
  handled : List (ClientMessage EndPoint)
  -- All that has been written, and whether a read has found the end
  written : List UInt8
  eof : Bool
deriving DecidableEq, Repr

inductive Event where
  | start
  | loop
  | read (k : Nat)
  | eof
  | error
  | handle (ok : Bool)
  | finish
  | sendThreadEnds
deriving DecidableEq, Repr

namespace Connection

variable {EndPoint : Type}

def new (client : EndPoint) : Connection EndPoint where
  client := client
  inFlight := []
  closed := false
  process := .start
  sendThread := true
  handled := []
  written := []
  eof := false

def write (c : Connection EndPoint) (bytes : List UInt8) : Connection EndPoint :=
  { c with inFlight := c.inFlight ++ bytes, written := c.written ++ bytes }

-- `handle_message` of the server, with a message or without one
def handleMessage (c : Connection EndPoint) (msg : Message) (action : ClientMessage.Action) (process : Process)
    : Connection EndPoint :=
  { c with process := process, handled := c.handled ++ [{ client := c.client, msg := msg, action := action }] }

variable (tagRecognised : UInt32 → Bool) (alive : Bool)

def step (c : Connection EndPoint) : Event → Option (Connection EndPoint)
  -- Tell the queue the client has arrived
  | .start => if c.process = .start then some (c.handleMessage .none .started .loop) else none
  -- Stop if send thread unhappy, too
  | .loop =>
    if c.process = .loop then
      some { c with process := if alive && c.sendThread then .readTag [] else .stopped .ended }
    else
      none
  | .read k =>
    if 0 < k ∧ k ≤ c.process.count ∧ k ≤ c.inFlight.length then
      some { c with
        inFlight := c.inFlight.drop k
        process := c.process.got tagRecognised alive (c.inFlight.take k) }
    else
      none
  | .eof =>
    if 0 < c.process.count ∧ c.inFlight = [] ∧ c.closed then
      some { c with process := c.process.atEnd, eof := true }
    else
      none
  | .error => if 0 < c.process.count then some { c with process := .stopped .failed } else none
  | .handle ok =>
    match c.process with
    | .handle msg => some (c.handleMessage msg .messageData (if ok then .loop else .stopped .killedByServer))
    | _ => none
  -- Tell the server the client has gone
  | .finish =>
    match c.process with
    | .stopped obit => some (c.handleMessage .none .finished (.gone obit))
    | _ => none
  | .sendThreadEnds => some { c with sendThread := false }

end Connection

/-
Where the thread of the client is that sends. It has the mutex of the socket while it is at `write`, with what it
still has to write.
-/
inductive Sender where
  | loop
  | wait
  | popped (msg : Message)
  | check (msg : Message)
  | lock (msg : Message)
  | write (msg : Message) (left : List (List UInt8))
  | recover
  | exited
deriving DecidableEq, Repr

structure Link (EndPoint : Type) where
  -- The client
  alive : Bool
  failOnNoConn : Bool
  sendQ : List Message
  sender : Sender
  -- The number of the connection, if the socket is happy
  socket : Option Nat
  -- The connections that have been made
  count : Nat
  connections : Nat → Option (Connection EndPoint)
  serverAlive : Bool
  -- All that has been put in the queue, and all that has been taken out, with the connection it was written to
  sent : List Message
  popped : List (Message × Option Nat)

inductive Link.Action (EndPoint : Type) where
  | send (msg : Message)
  | shutdown
  -- The receive thread restarts the socket, with a new address if the server can be reached
  | restart (client : Option EndPoint)
  -- The send thread, whose write fails after some bytes or who restarts the socket itself
  | sender
  | senderFails (k : Nat)
  | senderRestarts (client : Option EndPoint)
  | connection (i : Nat) (event : Event)
  | serverShutdown
deriving DecidableEq, Repr

namespace Link

variable {EndPoint : Type}

-- The constructor's own restart of the socket is the first one
def new (failOnNoConn : Bool) : Link EndPoint where
  alive := true
  failOnNoConn := failOnNoConn
  sendQ := []
  sender := .loop
  socket := none
  count := 0
  connections := fun _ => none
  serverAlive := true
  sent := []
  popped := []

def enqueue (s : Link EndPoint) (msg : Message) : Link EndPoint :=
  { s with sendQ := s.sendQ ++ [msg], sent := s.sent ++ [msg] }

-- What is done with the connection of the socket
def withSocket (s : Link EndPoint) (f : Connection EndPoint → Connection EndPoint) : Link EndPoint :=
  match s.socket with
  | some i => { s with connections := Function.update s.connections i ((s.connections i).map f) }
  | none => s

def close (s : Link EndPoint) : Link EndPoint := s.withSocket fun c => { c with closed := true }

/-
A thread that finds too many messages in the queue waits before it gets here.
-/
def send (s : Link EndPoint) (msg : Message) : Link EndPoint :=
  if s.failOnNoConn && s.socket.isNone then s else s.enqueue msg

def shutdown (s : Link EndPoint) : Link EndPoint :=
  if s.alive then { s.close with alive := false }.enqueue .none else s

def restartSocket (s : Link EndPoint) (client : Option EndPoint) : Link EndPoint :=
  let s := s.close
  match client with
  | some client =>
    { s with
      socket := some s.count
      count := s.count + 1
      connections := Function.update s.connections s.count (some (.new client)) }
  | none => { s with socket := none }

def lose (s : Link EndPoint) (msg : Message) (sender : Sender) : Link EndPoint :=
  { s with sender := sender, popped := s.popped ++ [(msg, none)] }

def holdsMutex (s : Link EndPoint) : Bool :=
  match s.sender with
  | .write _ _ => true
  | _ => false

def closed (s : Link EndPoint) : Bool :=
  match s.socket.bind s.connections with
  | some c => c.closed
  | none => true

def stepSender (s : Link EndPoint) : Option (Link EndPoint) :=
  match s.sender with
  | .loop => some { s with sender := if s.alive then .wait else .exited }
  | .wait =>
    match s.sendQ with
    | [] => none
    | msg :: sendQ => some { s with sendQ := sendQ, sender := .popped msg }
  | .popped msg => some (if s.alive then { s with sender := .check msg } else s.lose msg .loop)
  | .check msg =>
    if s.socket.isSome then
      some { s with sender := .lock msg }
    else if s.alive then
      -- Sleeps, hoping the receive thread can reanimate the socket
      none
    else
      some (s.lose msg .loop)
  | .lock msg =>
    match s.socket with
    | some i => some { s with sender := .write msg msg.writes, popped := s.popped ++ [(msg, some i)] }
    -- The first write fails
    | none => some (s.lose msg .recover)
  | .write msg (bytes :: left) =>
    if s.closed then none else some { s.withSocket fun c => c.write bytes with sender := .write msg left }
  | .write _ [] => some { s with sender := .loop }
  -- Shut down while it slept
  | .recover => if s.alive then none else some { s with sender := .loop }
  | .exited => none

-- Some of the bytes may have gone out, but none after a shutdown
def failSender (s : Link EndPoint) (k : Nat) : Option (Link EndPoint) :=
  match s.sender with
  | .write _ (bytes :: _) =>
    if k = 0 ∨ k < bytes.length ∧ s.closed = false then
      some { s.withSocket fun c => c.write (bytes.take k) with sender := .recover }
    else
      none
  | _ => none

def setConnection (s : Link EndPoint) (i : Nat) (c : Connection EndPoint) : Link EndPoint :=
  { s with connections := Function.update s.connections i (some c) }

def step (tagRecognised : UInt32 → Bool) (s : Link EndPoint) : Action EndPoint → Option (Link EndPoint)
  | .send msg => some (s.send msg)
  | .shutdown => some s.shutdown
  | .restart client => if s.holdsMutex then none else some (s.restartSocket client)
  | .sender => s.stepSender
  | .senderFails k => s.failSender k
  | .senderRestarts client =>
    if s.sender = .recover ∧ s.alive then some { s.restartSocket client with sender := .loop } else none
  | .connection i event =>
    match s.connections i with
    | some c => (c.step tagRecognised s.serverAlive event).map (s.setConnection i)
    | none => none
  | .serverShutdown => some { s with serverAlive := false }

end Link

namespace Message

/-
A message as it lies in the stream, if its length fits into its field.
-/

def chunk (msg : Message) : List UInt8 := msg.writes.flatten

def Fits (msg : Message) : Prop := msg.data.length < 2 ^ 32

instance (msg : Message) : Decidable msg.Fits := inferInstanceAs (Decidable (_ < _))

def header (tag len flags : UInt32) : List UInt8 := htonl tag ++ (htonl len ++ htonl flags)

theorem chunk_eq (msg : Message)
    : msg.chunk = header msg.tag (UInt32.ofNat msg.data.length) msg.flags ++ msg.data := by
  unfold chunk writes header
  simp only [List.flatten_cons, List.flatten_nil, List.append_nil, List.append_assoc]

theorem length_header (tag len flags : UInt32) : (header tag len flags).length = 12 := by
  unfold header
  rw [List.length_append, List.length_append, length_htonl, length_htonl, length_htonl]

theorem htonl_inj {a b : UInt32} (h : htonl a = htonl b) : a = b := by
  rw [← ntohl_htonl a, h, ntohl_htonl]

theorem header_prefix {tag len flags tag' len' flags' : UInt32} {data data' : List UInt8}
    (h : header tag len flags ++ data <+: header tag' len' flags' ++ data')
    : tag = tag' ∧ len = len' ∧ flags = flags' ∧ data <+: data' := by
  obtain ⟨rest, h⟩ := h
  rw [List.append_assoc] at h
  obtain ⟨hheader, hdata⟩ := List.append_inj h (by rw [length_header, length_header])
  obtain ⟨htag, hfields⟩ := List.append_inj hheader (by rw [length_htonl, length_htonl])
  obtain ⟨hlen, hflags⟩ := List.append_inj hfields (by rw [length_htonl, length_htonl])
  exact ⟨htonl_inj htag, htonl_inj hlen, htonl_inj hflags, rest, hdata⟩

theorem ofNat_inj {a b : Nat} (ha : a < 2 ^ 32) (hb : b < 2 ^ 32) (h : UInt32.ofNat a = UInt32.ofNat b) : a = b := by
  rw [← UInt32.toNat_ofNat_of_lt' ha, h, UInt32.toNat_ofNat_of_lt' hb]

theorem prefixFree : Frames.PrefixFree Fits chunk where
  ne_nil := by
    intro msg _ hnil
    have hlength := congrArg List.length hnil
    rw [chunk_eq, List.length_append, length_header, List.length_nil] at hlength
    omega
  eq_of_prefix := by
    intro a b ha hb hbegins
    rw [chunk_eq, chunk_eq] at hbegins
    obtain ⟨htag, hlen, hflags, hdata⟩ := header_prefix hbegins
    have hlength := ofNat_inj ha hb hlen
    have hdata := hdata.eq_of_length hlength
    cases a
    cases b
    simp_all only

end Message

open Message (Fits chunk header chunk_eq length_header header_prefix)
open Frames (Incomplete)

namespace Process

variable {p : Process}

-- What has been read of the chunk
def held : Process → List UInt8
  | .readTag buf => buf
  | .readLength tag buf => htonl tag ++ buf
  | .readFlags tag len buf => htonl tag ++ (htonl len ++ buf)
  | .readData msg len => header msg.tag len msg.flags ++ msg.data
  | .handle msg => msg.chunk
  | _ => []

def WF : Process → Prop
  | .readTag buf | .readLength _ buf | .readFlags _ _ buf => buf.length < 4
  | .readData msg len => msg.data.length < len.toNat
  | .handle msg => msg.Fits
  | _ => True

def isStart : Process → Bool
  | .start => true
  | _ => false

def isGone : Process → Bool
  | .gone _ => true
  | _ => false

def isDone : Process → Bool
  | .stopped _ | .gone _ => true
  | _ => false

-- Whether there is more to be read
def reads : Process → Bool
  | .handle _ | .stopped _ | .gone _ => false
  | _ => true

theorem incomplete (h : p.WF) (hreads : p.reads = true) : Incomplete Fits chunk p.held := by
  intro msg hfits hchunk
  rw [chunk_eq] at hchunk
  have hlength := hchunk.length_le
  rw [List.length_append, length_header] at hlength
  cases p with
  | start | loop => exact absurd hlength (by simp [held])
  | readTag buf =>
    change _ ≤ buf.length at hlength
    have hbuf : buf.length < 4 := h
    omega
  | readLength tag buf =>
    change _ ≤ (htonl tag ++ buf).length at hlength
    have hbuf : buf.length < 4 := h
    rw [List.length_append, length_htonl] at hlength
    omega
  | readFlags tag len buf =>
    change _ ≤ (htonl tag ++ (htonl len ++ buf)).length at hlength
    have hbuf : buf.length < 4 := h
    rw [List.length_append, List.length_append, length_htonl, length_htonl] at hlength
    omega
  | readData read len =>
    obtain ⟨-, hlen, -, hdata⟩ := header_prefix hchunk
    have hless : read.data.length < len.toNat := h
    rw [← hlen, UInt32.toNat_ofNat_of_lt' hfits] at hless
    exact absurd hdata.length_le (Nat.not_le_of_lt hless)
  | handle _ | stopped _ | gone _ => cases hreads

theorem readOn_spec (msg : Message) (len : UInt32) (h : msg.data.length ≤ len.toNat)
    : (readOn msg len).WF ∧ (readOn msg len).held = header msg.tag len msg.flags ++ msg.data := by
  unfold readOn
  split
  . next hlt => exact ⟨hlt, rfl⟩
  . next hge =>
    have heq : msg.data.length = len.toNat := Nat.le_antisymm h (Nat.le_of_not_lt hge)
    have hfits : msg.data.length < 2 ^ 32 := by
      rw [heq]
      exact len.toNat_lt
    refine ⟨hfits, ?_⟩
    change msg.chunk = _
    rw [chunk_eq, heq, UInt32.ofNat_toNat]

theorem readOn_frame (msg : Message) (len : UInt32)
    : (readOn msg len).isStart = false ∧ (readOn msg len).isGone = false := by
  unfold readOn
  split <;> exact ⟨rfl, rfl⟩

theorem got_frame (tagRecognised : UInt32 → Bool) (alive : Bool) (bytes : List UInt8) (p : Process)
    : (p.got tagRecognised alive bytes).isStart = p.isStart ∧ (p.got tagRecognised alive bytes).isGone = p.isGone := by
  cases p with
  | start | loop | handle _ | stopped _ | gone _ => exact ⟨rfl, rfl⟩
  | readTag buf =>
    unfold got
    dsimp only
    split
    . exact ⟨rfl, rfl⟩
    . split
      . exact ⟨rfl, rfl⟩
      . split <;> exact ⟨rfl, rfl⟩
  | readLength tag buf =>
    unfold got
    dsimp only
    split <;> exact ⟨rfl, rfl⟩
  | readFlags tag len buf =>
    unfold got
    dsimp only
    split
    . exact ⟨rfl, rfl⟩
    . exact readOn_frame _ len
  | readData msg len => exact readOn_frame _ len

theorem atEnd_frame (p : Process) : p.atEnd.isStart = p.isStart ∧ p.atEnd.isGone = p.isGone := by
  cases p <;> exact ⟨rfl, rfl⟩

/--
Nothing that is read is lost or changed, unless the session is over with it.
-/
theorem got_spec (tagRecognised : UInt32 → Bool) (alive : Bool) {bytes : List UInt8} (h : p.WF) (hpos : 0 < p.count)
    (hcount : bytes.length ≤ p.count)
    : (p.got tagRecognised alive bytes).WF
      ∧ ((p.got tagRecognised alive bytes).held = p.held ++ bytes
        ∨ ∃ obit, p.got tagRecognised alive bytes = .stopped obit) := by
  have hfour (buf : List UInt8) (hbuf : buf.length < 4) (hcount : bytes.length ≤ 4 - buf.length)
      (hge : ¬(buf ++ bytes).length < 4) : htonl (ntohl (buf ++ bytes)) = buf ++ bytes := by
    apply htonl_ntohl
    rw [List.length_append] at hge ⊢
    omega
  cases p with
  | start | loop | handle _ | stopped _ | gone _ => cases hpos
  | readTag buf =>
    unfold got
    dsimp only
    split
    . next hlt => exact ⟨hlt, .inl rfl⟩
    . next hge =>
      split
      . exact ⟨trivial, .inr ⟨_, rfl⟩⟩
      . split
        . refine ⟨Nat.zero_lt_succ 3, .inl ?_⟩
          change htonl _ ++ [] = buf ++ bytes
          rw [List.append_nil, hfour buf h hcount hge]
        . exact ⟨trivial, .inr ⟨_, rfl⟩⟩
  | readLength tag buf =>
    unfold got
    dsimp only
    split
    . next hlt => exact ⟨hlt, .inl (List.append_assoc _ _ _).symm⟩
    . next hge =>
      refine ⟨Nat.zero_lt_succ 3, .inl ?_⟩
      change htonl tag ++ (htonl _ ++ []) = (htonl tag ++ buf) ++ bytes
      rw [List.append_nil, hfour buf h hcount hge, List.append_assoc]
  | readFlags tag len buf =>
    unfold got
    dsimp only
    split
    . next hlt => exact ⟨hlt, .inl (by simp only [held, List.append_assoc])⟩
    . next hge =>
      obtain ⟨hwf, hheld⟩ := readOn_spec { tag, flags := ntohl (buf ++ bytes), data := [] } len (Nat.zero_le _)
      refine ⟨hwf, .inl ?_⟩
      rw [hheld]
      change (htonl tag ++ (htonl len ++ htonl _)) ++ [] = (htonl tag ++ (htonl len ++ buf)) ++ bytes
      rw [List.append_nil, hfour buf h hcount hge, List.append_assoc, List.append_assoc]
  | readData msg len =>
    have hless : msg.data.length < len.toNat := h
    have hle : bytes.length ≤ len.toNat - msg.data.length := Nat.le_trans hcount (Nat.min_le_right _ _)
    obtain ⟨hwf, hheld⟩ := readOn_spec { msg with data := msg.data ++ bytes } len
      (by rw [List.length_append]; omega)
    refine ⟨hwf, .inl ?_⟩
    change (readOn _ len).held = (header msg.tag len msg.flags ++ msg.data) ++ bytes
    rw [hheld, List.append_assoc]

end Process

namespace Connection

variable {EndPoint : Type} {c c' : Connection EndPoint}

-- The messages that the server has handled
def data (c : Connection EndPoint) : List Message :=
  c.handled.filterMap fun m => if m.action = .messageData then some m.msg else none

def told (c : Connection EndPoint) (action : ClientMessage.Action) (msg : Message) : ClientMessage EndPoint :=
  { client := c.client, msg := msg, action := action }

-- The server is told of the session before all messages, and after them
def log (c : Connection EndPoint) : List (ClientMessage EndPoint) :=
  if c.process.isStart then
    []
  else
    c.told .started .none :: c.data.map (c.told .messageData)
      ++ if c.process.isGone then [c.told .finished .none] else []

/-
What has been taken from the stream behind the messages.
-/
structure Rest (c : Connection EndPoint) (rest : List UInt8) : Prop where
  held : c.process.isDone = false → c.eof = false ∧ c.process.WF ∧ rest = c.process.held
  atEnd : c.eof = true → c.inFlight = [] ∧ Incomplete Fits chunk rest

structure Reads (c : Connection EndPoint) : Prop where
  fits : ∀ msg ∈ c.data, msg.Fits
  handled : c.handled = c.log
  stream : ∃ rest, c.Rest rest ∧ c.written = c.data.flatMap chunk ++ (rest ++ c.inFlight)
  closed : c.eof = true → c.closed = true

theorem reads_new (client : EndPoint) : (new client).Reads where
  fits := fun _ h => nomatch h
  handled := rfl
  stream := ⟨[], ⟨fun _ => ⟨rfl, trivial, rfl⟩, nofun⟩, rfl⟩
  closed := nofun

theorem Reads.close (h : c.Reads) : Reads { c with closed := true } where
  fits := h.fits
  handled := h.handled
  stream := by
    obtain ⟨rest, hrest, hwritten⟩ := h.stream
    exact ⟨rest, ⟨hrest.held, hrest.atEnd⟩, hwritten⟩
  closed := fun _ => rfl

-- The client has not closed its side as long as it writes, and no read has found the end then
theorem Reads.write (h : c.Reads) (hclosed : c.closed = false) (bytes : List UInt8) : (c.write bytes).Reads where
  fits := h.fits
  handled := h.handled
  stream := by
    obtain ⟨rest, hrest, hwritten⟩ := h.stream
    refine ⟨rest, ⟨hrest.held, ?_⟩, ?_⟩
    . intro heof
      have hclosed' := h.closed heof
      rw [hclosed] at hclosed'
      cases hclosed'
    . change c.written ++ bytes = c.data.flatMap chunk ++ (rest ++ (c.inFlight ++ bytes))
      rw [hwritten, List.append_assoc, List.append_assoc]
  closed := h.closed

section Step

variable {tagRecognised : UInt32 → Bool} {alive : Bool} {event : Event}

-- What goes on in the session without the handler
theorem Reads.advance (h : c.Reads) {process : Process} {inFlight : List UInt8} {eof : Bool}
    (hlog : log { c with process := process } = c.log) (hclosed : eof = true → c.closed = true)
    (hstream : ∀ rest, c.Rest rest → c.written = c.data.flatMap chunk ++ (rest ++ c.inFlight)
      → ∃ rest', Rest { c with process := process, inFlight := inFlight, eof := eof } rest'
        ∧ rest' ++ inFlight = rest ++ c.inFlight)
    : Reads { c with process := process, inFlight := inFlight, eof := eof } where
  fits := h.fits
  handled := h.handled.trans hlog.symm
  stream := by
    obtain ⟨rest, hrest, hwritten⟩ := h.stream
    obtain ⟨rest', hrest', heq⟩ := hstream rest hrest hwritten
    refine ⟨rest', hrest', ?_⟩
    change c.written = c.data.flatMap chunk ++ (rest' ++ inFlight)
    rw [heq]
    exact hwritten
  closed := hclosed

theorem log_congr {process : Process}
    (hframe : process.isStart = c.process.isStart ∧ process.isGone = c.process.isGone)
    : log { c with process := process } = c.log := by
  unfold log
  dsimp only
  rw [hframe.1, hframe.2]
  rfl

theorem count_held {p : Process} (h : 0 < p.count) : p.isDone = false ∧ p.reads = true := by
  cases p with
  | start | loop | handle _ | stopped _ | gone _ => cases h
  | readTag _ | readLength _ _ | readFlags _ _ _ | readData _ _ => exact ⟨rfl, rfl⟩

theorem count_frame {p : Process} (h : 0 < p.count) : p.isStart = false ∧ p.isGone = false := by
  cases p with
  | start | loop | handle _ | stopped _ | gone _ => cases h
  | readTag _ | readLength _ _ | readFlags _ _ _ | readData _ _ => exact ⟨rfl, rfl⟩

theorem atEnd_isDone {p : Process} (h : 0 < p.count) : p.atEnd.isDone = true := by
  cases p with
  | start | loop | handle _ | stopped _ | gone _ => cases h
  | readTag _ | readLength _ _ | readFlags _ _ _ | readData _ _ => rfl

theorem Reads.read (h : c.Reads) {k : Nat} (hpos : 0 < k) (hcount : k ≤ c.process.count) (hk : k ≤ c.inFlight.length)
    : Reads { c with
        inFlight := c.inFlight.drop k
        process := c.process.got tagRecognised alive (c.inFlight.take k) } := by
  have hreading := count_held (Nat.lt_of_lt_of_le hpos hcount)
  refine h.advance (log_congr (Process.got_frame _ _ _ _)) h.closed ?_
  intro rest hrest _
  obtain ⟨heof, hwf, rfl⟩ := hrest.held hreading.1
  have hlength : (c.inFlight.take k).length = k := List.length_take_of_le hk
  obtain ⟨hwf', hheld⟩ := Process.got_spec tagRecognised alive hwf (Nat.lt_of_lt_of_le hpos hcount)
    (Nat.le_trans (Nat.le_of_eq hlength) hcount)
  refine ⟨c.process.held ++ c.inFlight.take k, ⟨?_, ?_⟩, ?_⟩
  . intro hdone
    refine ⟨heof, hwf', ?_⟩
    rcases hheld with hheld | ⟨obit, hobit⟩
    . exact hheld.symm
    . dsimp only at hdone
      rw [hobit] at hdone
      cases hdone
  . intro htrue
    dsimp only at htrue
    rw [heof] at htrue
    cases htrue
  . rw [List.append_assoc, List.take_append_drop]

theorem written_step (hstep : c.step tagRecognised alive event = some c') : c'.written = c.written := by
  cases event with
  | start | loop | read _ | eof | error | handle _ | finish =>
    simp only [step] at hstep
    split at hstep
    . cases hstep
      rfl
    . cases hstep
  | sendThreadEnds =>
    cases hstep
    rfl

theorem Reads.end (h : c.Reads) (hcount : 0 < c.process.count) (hempty : c.inFlight = []) (hclosed : c.closed = true)
    : Reads { c with process := c.process.atEnd, eof := true } := by
  have hreading := count_held hcount
  refine h.advance (log_congr (Process.atEnd_frame _)) (fun _ => hclosed) ?_
  intro rest hrest _
  obtain ⟨-, hwf, rfl⟩ := hrest.held hreading.1
  refine ⟨c.process.held, ⟨?_, fun _ => ⟨hempty, Process.incomplete hwf hreading.2⟩⟩, rfl⟩
  intro hdone
  dsimp only at hdone
  rw [atEnd_isDone hcount] at hdone
  cases hdone

-- The loop is left, or entered
theorem Reads.loop (h : c.Reads) (hloop : c.process = .loop) (more : Bool)
    : Reads { c with process := if more then .readTag [] else .stopped .ended } := by
  have hheld (rest : List UInt8) (hrest : c.Rest rest) : c.eof = false ∧ rest = [] := by
    obtain ⟨heof, -, heq⟩ := hrest.held (by rw [hloop]; rfl)
    rw [hloop] at heq
    exact ⟨heof, heq⟩
  refine h.advance (log_congr ?_) h.closed ?_
  . rw [hloop]
    split <;> exact ⟨rfl, rfl⟩
  . intro rest hrest _
    obtain ⟨heof, rfl⟩ := hheld rest hrest
    refine ⟨[], ⟨?_, hrest.atEnd⟩, rfl⟩
    intro hdone
    refine ⟨heof, ?_⟩
    cases more with
    | true => exact ⟨Nat.zero_lt_succ 3, rfl⟩
    | false => cases hdone

theorem Reads.error (h : c.Reads) (hcount : 0 < c.process.count) : Reads { c with process := .stopped .failed } := by
  refine h.advance (log_congr ?_) h.closed ?_
  . rw [(count_frame hcount).1, (count_frame hcount).2]
    exact ⟨rfl, rfl⟩
  . intro rest hrest _
    exact ⟨rest, ⟨nofun, hrest.atEnd⟩, rfl⟩

/-
The messages for the handler.
-/

theorem log_running (hframe : c.process.isStart = false ∧ c.process.isGone = false)
    : c.log = c.told .started .none :: c.data.map (c.told .messageData) := by
  unfold log
  rw [hframe.1, hframe.2]
  exact List.append_nil _

theorem data_handleMessage (c : Connection EndPoint) (msg : Message) (action : ClientMessage.Action) (process : Process)
    : (c.handleMessage msg action process).data = c.data ++ if action = .messageData then [msg] else [] := by
  unfold data handleMessage
  rw [List.filterMap_append]
  cases action <;> rfl

theorem Reads.start (h : c.Reads) (hstart : c.process = .start) : (c.handleMessage .none .started .loop).Reads := by
  have hnone : c.handled = [] := by
    rw [h.handled]
    unfold log
    rw [hstart]
    rfl
  have hdata : c.data = [] := by
    unfold data
    rw [hnone]
    rfl
  have hdata' : (c.handleMessage .none .started .loop).data = [] := by
    rw [data_handleMessage, hdata]
    rfl
  refine ⟨?_, ?_, ?_, h.closed⟩
  . rw [hdata']
    exact fun _ hmem => nomatch hmem
  . unfold log
    rw [hdata']
    change c.handled ++ _ = _
    rw [hnone]
    rfl
  . obtain ⟨rest, hrest, hwritten⟩ := h.stream
    obtain ⟨heof, -, heq⟩ := hrest.held (by rw [hstart]; rfl)
    rw [hstart] at heq
    refine ⟨[], ⟨fun _ => ⟨heof, trivial, rfl⟩, ?_⟩, ?_⟩
    . rw [heq] at hrest
      exact hrest.atEnd
    . rw [hdata']
      rw [hdata, heq] at hwritten
      exact hwritten

theorem Reads.handle (h : c.Reads) {msg : Message} (hhandle : c.process = .handle msg) {process : Process}
    (hprocess : process = .loop ∨ ∃ obit, process = .stopped obit)
    : (c.handleMessage msg .messageData process).Reads := by
  have hdata' : (c.handleMessage msg .messageData process).data = c.data ++ [msg] :=
    data_handleMessage c msg .messageData process
  obtain ⟨rest, hrest, hwritten⟩ := h.stream
  obtain ⟨heof, hwf, heq⟩ := hrest.held (by rw [hhandle]; rfl)
  rw [hhandle] at hwf heq
  refine ⟨?_, ?_, ?_, h.closed⟩
  . rw [hdata']
    intro m hm
    rcases List.mem_append.mp hm with hm | hm
    . exact h.fits m hm
    . rw [List.mem_singleton.mp hm]
      exact hwf
  . have hlog : c.log = _ := log_running (by rw [hhandle]; exact ⟨rfl, rfl⟩)
    have hframe : process.isStart = false ∧ process.isGone = false := by
      rcases hprocess with rfl | ⟨obit, rfl⟩ <;> exact ⟨rfl, rfl⟩
    have hlog' : (c.handleMessage msg .messageData process).log = _ := log_running hframe
    rw [hlog', hdata', List.map_append]
    change c.handled ++ _ = _
    rw [h.handled, hlog]
    rfl
  . refine ⟨[], ⟨?_, ?_⟩, ?_⟩
    . intro hdone
      rcases hprocess with rfl | ⟨obit, rfl⟩
      . exact ⟨heof, trivial, rfl⟩
      . cases hdone
    . intro htrue
      change c.eof = true at htrue
      rw [heof] at htrue
      cases htrue
    . rw [hdata', List.flatMap_append, List.flatMap_singleton]
      change c.written = _ ++ ([] ++ c.inFlight)
      rw [hwritten, heq, List.nil_append, List.append_assoc]
      rfl

theorem Reads.finish (h : c.Reads) {obit : Obit} (hdone : c.process = .stopped obit)
    : (c.handleMessage .none .finished (.gone obit)).Reads := by
  have hdata' : (c.handleMessage .none .finished (.gone obit)).data = c.data := by
    rw [data_handleMessage]
    exact List.append_nil _
  refine ⟨?_, ?_, ?_, h.closed⟩
  . rw [hdata']
    exact h.fits
  . have hlog : c.log = _ := log_running (by rw [hdone]; exact ⟨rfl, rfl⟩)
    unfold log
    rw [hdata']
    change c.handled ++ _ = _
    rw [h.handled, hlog]
    rfl
  . obtain ⟨rest, hrest, hwritten⟩ := h.stream
    refine ⟨rest, ⟨nofun, hrest.atEnd⟩, ?_⟩
    rw [hdata']
    exact hwritten

theorem Reads.step (h : c.Reads) (hstep : c.step tagRecognised alive event = some c') : c'.Reads := by
  cases event with
  | start =>
    simp only [Connection.step] at hstep
    split at hstep
    . next hstart =>
      cases hstep
      exact h.start hstart
    . cases hstep
  | loop =>
    simp only [Connection.step] at hstep
    split at hstep
    . next hloop =>
      cases hstep
      exact h.loop hloop _
    . cases hstep
  | read k =>
    simp only [Connection.step] at hstep
    split at hstep
    . next hk =>
      cases hstep
      exact h.read hk.1 hk.2.1 hk.2.2
    . cases hstep
  | eof =>
    simp only [Connection.step] at hstep
    split at hstep
    . next hend =>
      cases hstep
      exact h.end hend.1 hend.2.1 hend.2.2
    . cases hstep
  | error =>
    simp only [Connection.step] at hstep
    split at hstep
    . next hcount =>
      cases hstep
      exact h.error hcount
    . cases hstep
  | handle ok =>
    simp only [Connection.step] at hstep
    split at hstep
    . next msg hhandle =>
      cases hstep
      apply h.handle hhandle
      cases ok with
      | true => exact .inl rfl
      | false => exact .inr ⟨_, rfl⟩
    . cases hstep
  | finish =>
    simp only [Connection.step] at hstep
    split at hstep
    . next obit hdone =>
      cases hstep
      exact h.finish hdone
    . cases hstep
  | sendThreadEnds =>
    cases hstep
    obtain ⟨rest, hrest, hwritten⟩ := h.stream
    exact ⟨h.fits, h.handled, ⟨rest, ⟨hrest.held, hrest.atEnd⟩, hwritten⟩, h.closed⟩

end Step

end Connection

/-
What has been written to a connection, given the messages whose sending has begun on it.
-/

-- All but the last of them have been written whole
def Sent (begun : List Message) (written : List UInt8) : Prop :=
  ∃ whole part, written = whole.flatMap chunk ++ part
    ∧ (begun = whole ∧ part = [] ∨ ∃ msg, begun = whole ++ [msg] ∧ part <+: msg.chunk ∧ part ≠ msg.chunk)

-- The last of them is being written, with what is left of it
def Writing (msg : Message) (left : List (List UInt8)) (begun : List Message) (written : List UInt8) : Prop :=
  ∃ whole part, begun = whole ++ [msg] ∧ written = whole.flatMap chunk ++ part ∧ part ++ left.flatten = msg.chunk

section Writing

variable {msg : Message} {bytes : List UInt8} {left : List (List UInt8)} {begun : List Message} {written : List UInt8}

theorem Sent.of_whole (h : written = begun.flatMap chunk) : Sent begun written :=
  ⟨begun, [], by rw [h, List.append_nil], .inl ⟨rfl, rfl⟩⟩

theorem Writing.sent (h : Writing msg left begun written) : Sent begun written := by
  obtain ⟨whole, part, hbegun, hwritten, hpart⟩ := h
  by_cases heq : part = msg.chunk
  . refine Sent.of_whole ?_
    rw [hwritten, hbegun, heq, List.flatMap_append, List.flatMap_singleton]
  . exact ⟨whole, part, hwritten, .inr ⟨msg, hbegun, ⟨_, hpart⟩, heq⟩⟩

theorem Writing.begin (h : written = begun.flatMap chunk) (msg : Message)
    : Writing msg msg.writes (begun ++ [msg]) written :=
  ⟨begun, [], rfl, by rw [h, List.append_nil], rfl⟩

theorem Writing.next (h : Writing msg (bytes :: left) begun written) : Writing msg left begun (written ++ bytes) := by
  obtain ⟨whole, part, hbegun, hwritten, hpart⟩ := h
  refine ⟨whole, part ++ bytes, hbegun, ?_, ?_⟩
  . rw [hwritten, List.append_assoc]
  . rw [← hpart, List.flatten_cons, List.append_assoc]

theorem Writing.fail (h : Writing msg (bytes :: left) begun written) (k : Nat)
    : Sent begun (written ++ bytes.take k) := by
  have hsplit : Writing msg (bytes.take k :: bytes.drop k :: left) begun written := by
    obtain ⟨whole, part, hbegun, hwritten, hpart⟩ := h
    refine ⟨whole, part, hbegun, hwritten, ?_⟩
    rw [← hpart, List.flatten_cons, List.flatten_cons, List.flatten_cons, ← List.append_assoc (bytes.take k),
      List.take_append_drop]
  exact hsplit.next.sent

theorem Writing.done (h : Writing msg [] begun written) : written = begun.flatMap chunk := by
  obtain ⟨whole, part, hbegun, hwritten, hpart⟩ := h
  rw [List.flatten_nil, List.append_nil] at hpart
  rw [hwritten, hbegun, hpart, List.flatMap_append, List.flatMap_singleton]

end Writing

namespace Connection

variable {EndPoint : Type} {c : Connection EndPoint} {begun : List Message}

-- All that came has been read
def caughtUp (c : Connection EndPoint) : Bool := c.eof || c.process.reads && c.inFlight.isEmpty

theorem incomplete_of_sent {whole : List Message} {part : List UInt8}
    (h : begun = whole ∧ part = [] ∨ ∃ msg, begun = whole ++ [msg] ∧ part <+: msg.chunk ∧ part ≠ msg.chunk)
    (hfits : ∀ msg ∈ begun, msg.Fits)
    : (∀ msg ∈ whole, msg.Fits) ∧ Incomplete Fits chunk part ∧ (begun = whole ∨ begun.dropLast = whole)
      ∧ whole <+: begun := by
  rcases h with ⟨rfl, rfl⟩ | ⟨msg, rfl, hbegins, hne⟩
  . exact ⟨hfits, Message.prefixFree.incomplete_nil, .inl rfl, List.prefix_rfl⟩
  . have hmsg : msg.Fits := hfits msg (List.mem_append_right _ (List.mem_singleton_self msg))
    refine ⟨fun m hm => hfits m (List.mem_append_left _ hm), ?_, .inr List.dropLast_concat, List.prefix_append _ _⟩
    exact Message.prefixFree.incomplete_of_part hmsg hbegins hne

theorem Reads.data_prefix (h : c.Reads) (hsent : Sent begun c.written) (hfits : ∀ msg ∈ begun, msg.Fits)
    : c.data <+: begun := by
  obtain ⟨whole, part, hwritten, hwhole⟩ := hsent
  obtain ⟨hall, hpart, -, hbegins⟩ := incomplete_of_sent hwhole hfits
  obtain ⟨rest, -, hstream⟩ := h.stream
  rw [hwritten] at hstream
  exact (Message.prefixFree.prefix_of_append h.fits hall hpart hstream.symm).trans hbegins

theorem Reads.data_of_caughtUp (h : c.Reads) (hup : c.caughtUp = true) {whole : List Message} {part : List UInt8}
    (hwritten : c.written = whole.flatMap chunk ++ part) (hall : ∀ msg ∈ whole, msg.Fits)
    (hpart : Incomplete Fits chunk part)
    : c.data = whole := by
  obtain ⟨rest, hrest, hstream⟩ := h.stream
  have hend : c.inFlight = [] ∧ Incomplete Fits chunk rest := by
    unfold caughtUp at hup
    rw [Bool.or_eq_true, Bool.and_eq_true] at hup
    rcases hup with heof | ⟨hreads, hempty⟩
    . exact hrest.atEnd heof
    . have hdone : c.process.isDone = false := by
        cases hp : c.process with
        | start | loop | readTag _ | readLength _ _ | readFlags _ _ _ | readData _ _ | handle _ => rfl
        | stopped _ | gone _ =>
          rw [hp] at hreads
          cases hreads
      obtain ⟨-, hwf, rfl⟩ := hrest.held hdone
      exact ⟨List.isEmpty_iff.mp hempty, Process.incomplete hwf hreads⟩
  rw [hwritten, hend.1, List.append_nil] at hstream
  exact Message.prefixFree.eq_of_append h.fits hall hend.2 hpart hstream.symm

theorem Reads.data_of_sent (h : c.Reads) (hsent : Sent begun c.written) (hfits : ∀ msg ∈ begun, msg.Fits)
    (hup : c.caughtUp = true)
    : c.data = begun ∨ c.data = begun.dropLast := by
  obtain ⟨whole, part, hwritten, hwhole⟩ := hsent
  obtain ⟨hall, hpart, hbegun, -⟩ := incomplete_of_sent hwhole hfits
  rw [h.data_of_caughtUp hup hwritten hall hpart]
  rcases hbegun with heq | heq
  . exact .inl heq.symm
  . exact .inr heq.symm

end Connection

namespace Link

variable {EndPoint : Type} {s s' : Link EndPoint}

-- The messages whose sending has begun on a connection
def begunOn (popped : List (Message × Option Nat)) (i : Nat) : List Message :=
  (popped.filter fun p => p.2 = some i).map Prod.fst

-- The message that the send thread has taken, but not begun to send
def holding (s : Link EndPoint) : List Message :=
  match s.sender with
  | .popped msg | .check msg | .lock msg => [msg]
  | _ => []

theorem begunOn_append (popped : List (Message × Option Nat)) (msg : Message) (i j : Nat)
    : begunOn (popped ++ [(msg, some i)]) j = begunOn popped j ++ if i = j then [msg] else [] := by
  unfold begunOn
  rw [List.filter_append, List.map_append]
  by_cases h : i = j <;> simp [h]

theorem begunOn_lose (popped : List (Message × Option Nat)) (msg : Message) (j : Nat)
    : begunOn (popped ++ [(msg, none)]) j = begunOn popped j := by
  unfold begunOn
  rw [List.filter_append, List.map_append]
  simp

-- All that has been written to the socket is whole messages
def Clean (s : Link EndPoint) : Prop :=
  ∀ i c, s.socket = some i → s.connections i = some c → c.written = (begunOn s.popped i).flatMap chunk

-- Whether the send thread goes on to write to the socket that there is
def mayWrite (s : Link EndPoint) : Bool :=
  match s.sender with
  | .write _ _ | .recover | .exited => false
  | .loop => s.alive
  | _ => true

/-
After a write that has failed, the socket is not written to again.
-/
structure SenderInv (s : Link EndPoint) : Prop where
  writing : ∀ msg left, s.sender = .write msg left
    → ∃ i c, s.socket = some i ∧ s.connections i = some c ∧ Writing msg left (begunOn s.popped i) c.written
  clean : s.mayWrite = true → s.Clean

-- What has been put in the queue has come out in order, and has been sent on one connection after another
structure Ledger (s : Link EndPoint) : Prop where
  sent : s.sent = s.popped.map Prod.fst ++ s.holding ++ s.sendQ
  fits : ∀ msg ∈ s.sent, msg.Fits
  order : (s.popped.filterMap Prod.snd).Pairwise (· ≤ ·)
  before : ∀ i ∈ s.popped.filterMap Prod.snd, i < s.count

structure Connected (s : Link EndPoint) : Prop where
  connection : ∀ i c, s.connections i = some c → c.Reads ∧ Sent (begunOn s.popped i) c.written
  socket : ∀ i, s.socket = some i → i + 1 = s.count ∧ (s.connections i).isSome = true
  fresh : ∀ i, s.count ≤ i → s.connections i = none

structure Inv (s : Link EndPoint) : Prop where
  ledger : s.Ledger
  connected : s.Connected
  sender : s.SenderInv

theorem inv_new (failOnNoConn : Bool) : (new failOnNoConn : Link EndPoint).Inv where
  ledger := ⟨rfl, nofun, List.Pairwise.nil, nofun⟩
  connected := ⟨nofun, nofun, fun _ _ => rfl⟩
  sender := ⟨nofun, fun _ => nofun⟩

/-
What each part of the invariant is about: the rest of the state may change.
-/

theorem Ledger.frame (h : s.Ledger) (hsent : s'.sent = s.sent) (hpopped : s'.popped = s.popped)
    (hcount : s'.count = s.count) (hqueue : s'.holding ++ s'.sendQ = s.holding ++ s.sendQ)
    : s'.Ledger := by
  constructor
  . rw [hsent, hpopped, List.append_assoc, hqueue, ← List.append_assoc]
    exact h.sent
  . rw [hsent]
    exact h.fits
  . rw [hpopped]
    exact h.order
  . rw [hpopped, hcount]
    exact h.before

theorem Connected.frame (h : s.Connected) (hconnections : s'.connections = s.connections)
    (hpopped : s'.popped = s.popped) (hsocket : s'.socket = s.socket) (hcount : s'.count = s.count)
    : s'.Connected := by
  constructor
  . rw [hconnections, hpopped]
    exact h.connection
  . rw [hconnections, hsocket, hcount]
    exact h.socket
  . rw [hconnections, hcount]
    exact h.fresh

theorem holding_of_sender {sender : Sender} (hsender : s.sender = sender)
    : s.holding = holding { s with sender := sender } := by
  subst hsender
  rfl

theorem SenderInv.clean_of_sender (h : s.SenderInv) {sender : Sender} (hsender : s.sender = sender)
    (hmay : mayWrite { s with sender := sender } = true)
    : s.Clean := by
  subst hsender
  exact h.clean hmay

theorem withSocket_connections (s : Link EndPoint) (f : Connection EndPoint → Connection EndPoint) (i : Nat)
    : (s.withSocket f).connections i = if s.socket = some i then (s.connections i).map f else s.connections i := by
  unfold withSocket
  cases hsocket : s.socket with
  | none => rfl
  | some j =>
    dsimp only
    by_cases h : j = i
    . rw [h, Function.update_self, if_pos rfl]
    . rw [Function.update_of_ne (Ne.symm h), if_neg (fun heq => h (Option.some.inj heq))]

theorem withSocket_frame (s : Link EndPoint) (f : Connection EndPoint → Connection EndPoint)
    : (s.withSocket f).alive = s.alive ∧ (s.withSocket f).sendQ = s.sendQ ∧ (s.withSocket f).sender = s.sender
      ∧ (s.withSocket f).socket = s.socket ∧ (s.withSocket f).count = s.count ∧ (s.withSocket f).sent = s.sent
      ∧ (s.withSocket f).popped = s.popped := by
  unfold withSocket
  split <;> exact ⟨rfl, rfl, rfl, rfl, rfl, rfl, rfl⟩

theorem Connected.withSocket (h : s.Connected) {f : Connection EndPoint → Connection EndPoint}
    (hf : ∀ i c, s.socket = some i → s.connections i = some c → (f c).Reads ∧ Sent (begunOn s.popped i) (f c).written)
    : (s.withSocket f).Connected := by
  obtain ⟨-, -, -, hsocket, hcount, -, hpopped⟩ := withSocket_frame s f
  constructor
  . intro i c hc
    rw [withSocket_connections] at hc
    rw [hpopped]
    split at hc
    . next heq =>
      obtain ⟨d, hd, rfl⟩ := Option.map_eq_some_iff.mp hc
      exact hf i d heq hd
    . exact h.connection i c hc
  . intro i hi
    rw [hsocket] at hi
    rw [hcount, withSocket_connections, if_pos hi, Option.isSome_map]
    exact h.socket i hi
  . intro i hi
    rw [hcount] at hi
    rw [withSocket_connections, h.fresh i hi]
    split <;> rfl

theorem Connected.close (h : s.Connected) : s.close.Connected :=
  h.withSocket fun i c _ hc => ⟨(h.connection i c hc).1.close, (h.connection i c hc).2⟩

theorem Clean.close (h : s.Clean) : s.close.Clean := by
  intro i c hsocket hc
  obtain ⟨-, -, -, heq, -, -, hpopped⟩ := withSocket_frame s fun c => { c with closed := true }
  unfold Link.close at hsocket hc ⊢
  rw [heq] at hsocket
  rw [withSocket_connections, if_pos hsocket] at hc
  obtain ⟨d, hd, rfl⟩ := Option.map_eq_some_iff.mp hc
  rw [hpopped]
  exact h i d hsocket hd

theorem SenderInv.close (h : s.SenderInv) : s.close.SenderInv := by
  obtain ⟨halive, -, hsender, hsocket, -, -, hpopped⟩ := withSocket_frame s fun c => { c with closed := true }
  constructor
  . intro msg left hwrite
    obtain ⟨i, c, hi, hc, hwriting⟩ := h.writing msg left (hsender.symm.trans hwrite)
    refine ⟨i, { c with closed := true }, hsocket.trans hi, ?_, ?_⟩
    . unfold Link.close
      rw [withSocket_connections, if_pos hi, hc]
      rfl
    . unfold Link.close
      rw [hpopped]
      exact hwriting
  . intro hmay
    apply Clean.close
    apply h.clean
    unfold mayWrite at hmay ⊢
    unfold Link.close at hmay
    rw [hsender, halive] at hmay
    exact hmay

theorem Ledger.close (h : s.Ledger) : s.close.Ledger := by
  obtain ⟨-, hsendQ, hsender, -, hcount, hsent, hpopped⟩ := withSocket_frame s fun c => { c with closed := true }
  refine h.frame hsent hpopped hcount ?_
  unfold holding Link.close
  rw [hsender, hsendQ]

theorem Inv.close (h : s.Inv) : s.close.Inv := ⟨h.ledger.close, h.connected.close, h.sender.close⟩

theorem Inv.enqueue (h : s.Inv) {msg : Message} (hfits : msg.Fits) : (s.enqueue msg).Inv where
  ledger := by
    refine ⟨?_, ?_, h.ledger.order, h.ledger.before⟩
    . change s.sent ++ [msg] = s.popped.map Prod.fst ++ s.holding ++ (s.sendQ ++ [msg])
      rw [h.ledger.sent, List.append_assoc]
    . intro m hm
      rcases List.mem_append.mp hm with hm | hm
      . exact h.ledger.fits m hm
      . rw [List.mem_singleton.mp hm]
        exact hfits
  connected := h.connected.frame rfl rfl rfl rfl
  sender := ⟨h.sender.writing, h.sender.clean⟩

theorem Inv.send (h : s.Inv) {msg : Message} (hfits : msg.Fits) : (s.send msg).Inv := by
  unfold Link.send
  split
  . exact h
  . exact h.enqueue hfits

theorem Inv.shutdown (h : s.Inv) : s.shutdown.Inv := by
  unfold Link.shutdown
  split
  . next halive =>
    have hclose := h.close
    have hfits : Message.none.Fits := Nat.two_pow_pos 32
    refine Inv.enqueue ?_ hfits
    refine ⟨hclose.ledger.frame rfl rfl rfl rfl, hclose.connected.frame rfl rfl rfl rfl, hclose.sender.writing, ?_⟩
    intro hmay
    apply hclose.sender.clean
    unfold mayWrite at hmay ⊢
    dsimp only at hmay
    split at hmay <;> first | rfl | cases hmay
  . exact h

/-
The new connection is there with nothing written to it.
-/
theorem restartSocket_spec (h : s.Inv) (client : Option EndPoint)
    : (s.restartSocket client).Ledger ∧ (s.restartSocket client).Connected ∧ (s.restartSocket client).Clean := by
  have hclose := h.close
  unfold restartSocket
  generalize s.close = t at hclose
  cases client with
  | none =>
    refine ⟨hclose.ledger.frame rfl rfl rfl rfl, ⟨hclose.connected.connection, nofun, hclose.connected.fresh⟩, nofun⟩
  | some client =>
    have hnone : begunOn t.popped t.count = [] := by
      unfold begunOn
      rw [List.map_eq_nil_iff, List.filter_eq_nil_iff]
      intro p hp heq
      have hlt := hclose.ledger.before t.count (List.mem_filterMap.mpr ⟨p, hp, of_decide_eq_true heq⟩)
      exact absurd hlt (Nat.lt_irrefl _)
    refine ⟨⟨hclose.ledger.sent, hclose.ledger.fits, hclose.ledger.order, ?_⟩, ⟨?_, ?_, ?_⟩, ?_⟩
    . intro i hi
      exact Nat.lt_succ_of_lt (hclose.ledger.before i hi)
    . refine Runs.forall_update
        (P := fun i o => ∀ c : Connection EndPoint, o = some c → c.Reads ∧ Sent (begunOn t.popped i) c.written) ?_ ?_
      . intro c hc
        cases hc
        refine ⟨Connection.reads_new client, Sent.of_whole ?_⟩
        rw [hnone]
        rfl
      . intro i _ c hc
        exact hclose.connected.connection i c hc
    . intro i hi
      cases hi
      refine ⟨rfl, ?_⟩
      dsimp only
      rw [Function.update_self]
      rfl
    . intro i hi
      dsimp only at hi ⊢
      rw [Function.update_of_ne (Nat.ne_of_gt hi)]
      exact hclose.connected.fresh i (Nat.le_of_lt hi)
    . intro i c hi hc
      cases hi
      dsimp only at hc ⊢
      rw [Function.update_self] at hc
      cases hc
      rw [hnone]
      rfl

/-
The steps of the send thread.
-/

theorem sender_ne_write (hmutex : s.holdsMutex = false) (msg : Message) (left : List (List UInt8))
    : s.sender ≠ .write msg left := by
  intro hwrite
  unfold holdsMutex at hmutex
  rw [hwrite] at hmutex
  cases hmutex

theorem SenderInv.of_clean (hclean : s.Clean) (hmutex : s.holdsMutex = false) : s.SenderInv :=
  ⟨fun msg left hwrite => absurd hwrite (sender_ne_write hmutex msg left), fun _ => hclean⟩

-- Nothing is asked of a thread that does not write
theorem SenderInv.of_idle (hmutex : s.holdsMutex = false) (hmay : s.mayWrite = false) : s.SenderInv := by
  constructor
  . intro msg left hwrite
    exact absurd hwrite (sender_ne_write hmutex msg left)
  . intro htrue
    rw [hmay] at htrue
    cases htrue

theorem restartSocket_sender (s : Link EndPoint) (client : Option EndPoint)
    : (s.restartSocket client).sender = s.sender := by
  obtain ⟨-, -, hsender, -⟩ := withSocket_frame s fun c => { c with closed := true }
  unfold restartSocket
  cases client <;> exact hsender

theorem Inv.restart (h : s.Inv) (hmutex : s.holdsMutex = false) (client : Option EndPoint)
    : (s.restartSocket client).Inv := by
  obtain ⟨hledger, hconnected, hclean⟩ := restartSocket_spec h client
  refine ⟨hledger, hconnected, SenderInv.of_clean hclean ?_⟩
  unfold holdsMutex at hmutex ⊢
  rw [restartSocket_sender]
  exact hmutex

theorem Inv.senderRestarts (h : s.Inv) (hrecover : s.sender = .recover) (client : Option EndPoint)
    : Inv { s.restartSocket client with sender := .loop } := by
  obtain ⟨hledger, hconnected, hclean⟩ := restartSocket_spec h client
  have hholding : (s.restartSocket client).holding = [] :=
    holding_of_sender ((restartSocket_sender s client).trans hrecover)
  refine ⟨hledger.frame rfl rfl rfl ?_, hconnected.frame rfl rfl rfl rfl, SenderInv.of_clean hclean rfl⟩
  rw [hholding]
  rfl

-- Only where the send thread is changes, with the same message in its hands
theorem Inv.goOn (h : s.Inv) {sender : Sender} (hholding : holding { s with sender := sender } = s.holding)
    (hsender : SenderInv { s with sender := sender })
    : Inv { s with sender := sender } where
  ledger := h.ledger.frame rfl rfl rfl (congrArg (· ++ s.sendQ) hholding)
  connected := h.connected.frame rfl rfl rfl rfl
  sender := hsender

-- The next message is taken
theorem Inv.pop (h : s.Inv) (hwait : s.sender = .wait) {msg : Message} {sendQ : List Message}
    (hsendQ : s.sendQ = msg :: sendQ)
    : Inv { s with sendQ := sendQ, sender := .popped msg } := by
  have hholding : s.holding = [] := holding_of_sender hwait
  have hclean : s.Clean := h.sender.clean_of_sender hwait rfl
  refine ⟨h.ledger.frame rfl rfl rfl ?_, h.connected.frame rfl rfl rfl rfl, SenderInv.of_clean hclean rfl⟩
  rw [hholding, hsendQ]
  rfl

theorem Inv.lose (h : s.Inv) {msg : Message} (hholding : s.holding = [msg]) {sender : Sender}
    (hnone : holding { s with sender := sender } = []) (hsender : SenderInv (s.lose msg sender))
    : (s.lose msg sender).Inv := by
  have hfates : (s.popped ++ [(msg, none)]).filterMap Prod.snd = s.popped.filterMap Prod.snd := by
    rw [List.filterMap_append]
    exact List.append_nil _
  refine ⟨⟨?_, h.ledger.fits, ?_, ?_⟩, ⟨?_, h.connected.socket, h.connected.fresh⟩, hsender⟩
  . change s.sent = (s.popped ++ [(msg, none)]).map Prod.fst ++ holding { s with sender := sender } ++ s.sendQ
    rw [hnone, h.ledger.sent, hholding, List.map_append, List.append_nil]
    rfl
  . change ((s.popped ++ [(msg, none)]).filterMap Prod.snd).Pairwise _
    rw [hfates]
    exact h.ledger.order
  . intro i hi
    change i ∈ (s.popped ++ [(msg, none)]).filterMap Prod.snd at hi
    rw [hfates] at hi
    exact h.ledger.before i hi
  . intro i c hc
    change c.Reads ∧ Sent (begunOn (s.popped ++ [(msg, none)]) i) c.written
    rw [begunOn_lose]
    exact h.connected.connection i c hc

theorem Inv.begin (h : s.Inv) {msg : Message} (hlock : s.sender = .lock msg) {i : Nat} (hsocket : s.socket = some i)
    : Inv { s with sender := .write msg msg.writes, popped := s.popped ++ [(msg, some i)] } := by
  obtain ⟨hcount, hsome⟩ := h.connected.socket i hsocket
  obtain ⟨c, hc⟩ := Option.isSome_iff_exists.mp hsome
  have hclean : c.written = (begunOn s.popped i).flatMap chunk := by
    exact h.sender.clean_of_sender hlock rfl i c hsocket hc
  have hwriting : Writing msg msg.writes (begunOn (s.popped ++ [(msg, some i)]) i) c.written := by
    rw [begunOn_append, if_pos rfl]
    exact Writing.begin hclean msg
  refine ⟨⟨?_, h.ledger.fits, ?_, ?_⟩, ⟨?_, h.connected.socket, h.connected.fresh⟩, ⟨?_, nofun⟩⟩
  . have hholding : s.holding = [msg] := holding_of_sender hlock
    change s.sent = (s.popped ++ [(msg, some i)]).map Prod.fst ++ [] ++ s.sendQ
    rw [h.ledger.sent, hholding, List.map_append, List.append_nil]
    rfl
  . change ((s.popped ++ [(msg, some i)]).filterMap Prod.snd).Pairwise _
    rw [List.filterMap_append, List.pairwise_append]
    refine ⟨h.ledger.order, List.pairwise_singleton _ i, ?_⟩
    intro j hj k hk
    have hlt := h.ledger.before j hj
    rw [List.mem_singleton.mp hk]
    omega
  . intro j hj
    change j ∈ (s.popped ++ [(msg, some i)]).filterMap Prod.snd at hj
    rw [List.filterMap_append] at hj
    rcases List.mem_append.mp hj with hj | hj
    . exact h.ledger.before j hj
    . rw [List.mem_singleton.mp hj]
      exact Nat.lt_of_succ_le (Nat.le_of_eq hcount)
  . intro j d hd
    dsimp only at hd ⊢
    by_cases heq : i = j
    . subst heq
      rw [hc] at hd
      cases hd
      exact ⟨(h.connected.connection i c hc).1, hwriting.sent⟩
    . rw [begunOn_append, if_neg heq, List.append_nil]
      exact h.connected.connection j d hd
  . intro m left hm
    cases hm
    exact ⟨i, c, hsocket, hc, hwriting⟩

theorem closed_of_socket {i : Nat} {c : Connection EndPoint} (hsocket : s.socket = some i)
    (hc : s.connections i = some c)
    : s.closed = c.closed := by
  unfold closed
  rw [hsocket, Option.bind_some, hc]

-- Some bytes are written to the socket
theorem Inv.write (h : s.Inv) {msg : Message} {left : List (List UInt8)} (hwrite : s.sender = .write msg left)
    {bytes : List UInt8} (hclosed : s.closed = false) {sender : Sender}
    (hnone : holding { s with sender := sender } = [])
    (hsent : ∀ begun written, Writing msg left begun written → Sent begun (written ++ bytes))
    (hsender : ∀ i c, s.socket = some i → s.connections i = some c → Writing msg left (begunOn s.popped i) c.written
      → SenderInv { s.withSocket fun c => c.write bytes with sender := sender })
    : Inv { s.withSocket fun c => c.write bytes with sender := sender } := by
  obtain ⟨i, c, hsocket, hc, hwriting⟩ := h.sender.writing msg left hwrite
  obtain ⟨-, hsendQ, -, -, hcount, hsent', hpopped⟩ := withSocket_frame s fun c => c.write bytes
  have hconnected : (s.withSocket fun c => c.write bytes).Connected := by
    apply h.connected.withSocket
    intro j d hj hd
    rw [hsocket] at hj
    cases hj
    rw [hc] at hd
    cases hd
    rw [closed_of_socket hsocket hc] at hclosed
    exact ⟨(h.connected.connection i c hc).1.write hclosed bytes, hsent _ _ hwriting⟩
  have hholding : s.holding = [] := holding_of_sender hwrite
  have heq : holding { s.withSocket fun c => c.write bytes with sender := sender } = [] := hnone
  refine ⟨h.ledger.frame hsent' hpopped hcount ?_, hconnected.frame rfl rfl rfl rfl, hsender i c hsocket hc hwriting⟩
  rw [heq, hholding]
  exact congrArg ([] ++ ·) hsendQ

theorem Inv.writeNext (h : s.Inv) {msg : Message} {bytes : List UInt8} {left : List (List UInt8)}
    (hwrite : s.sender = .write msg (bytes :: left)) (hclosed : s.closed = false)
    : Inv { s.withSocket fun c => c.write bytes with sender := .write msg left } := by
  apply h.write hwrite hclosed rfl
  . intro begun written hwriting
    exact hwriting.next.sent
  . intro i c hsocket hc hwriting
    obtain ⟨-, -, -, hsocket', -, -, hpopped⟩ := withSocket_frame s fun c => c.write bytes
    refine ⟨?_, nofun⟩
    intro m l heq
    cases heq
    refine ⟨i, c.write bytes, hsocket'.trans hsocket, ?_, ?_⟩
    . dsimp only
      rw [withSocket_connections, if_pos hsocket, hc]
      rfl
    . dsimp only
      rw [hpopped]
      exact hwriting.next

-- The message has been written whole
theorem Inv.written (h : s.Inv) {msg : Message} (hwrite : s.sender = .write msg [])
    : Inv { s with sender := .loop } := by
  refine h.goOn (holding_of_sender hwrite).symm (SenderInv.of_clean ?_ rfl)
  obtain ⟨i, c, hsocket, hc, hwriting⟩ := h.sender.writing msg [] hwrite
  intro j d hj hd
  dsimp only at hj hd
  rw [hsocket] at hj
  cases hj
  rw [hc] at hd
  cases hd
  exact hwriting.done

theorem withSocket_eq_self (s : Link EndPoint) {f : Connection EndPoint → Connection EndPoint} (hf : ∀ c, f c = c)
    : s.withSocket f = s := by
  unfold withSocket
  split
  . rw [funext hf, Option.map_id', Function.update_eq_self]
  . rfl

theorem Inv.failSender (h : s.Inv) {k : Nat} (hfail : s.failSender k = some s') : s'.Inv := by
  unfold Link.failSender at hfail
  split at hfail
  . next msg bytes left hwrite =>
    split at hfail
    . next hk =>
      cases hfail
      by_cases hclosed : s.closed = false
      . apply h.write hwrite hclosed rfl
        . intro begun written hwriting
          exact hwriting.fail k
        . intro i c _ _ _
          exact SenderInv.of_idle rfl rfl
      . -- Nothing has gone out
        have hzero : k = 0 := hk.resolve_right fun hk => hclosed hk.2
        have hframe (c : Connection EndPoint) : c.write (bytes.take k) = c := by
          rw [hzero, List.take_zero]
          unfold Connection.write
          rw [List.append_nil, List.append_nil]
        rw [withSocket_eq_self s hframe]
        exact h.goOn (holding_of_sender hwrite).symm (SenderInv.of_idle rfl rfl)
    . cases hfail
  . cases hfail

theorem Inv.stepSender (h : s.Inv) (hstep : s.stepSender = some s') : s'.Inv := by
  unfold Link.stepSender at hstep
  cases hsender : s.sender with
  | loop =>
    rw [hsender] at hstep
    cases hstep
    have hholding : s.holding = [] := holding_of_sender hsender
    split
    . next halive =>
      have hclean : s.Clean := h.sender.clean_of_sender hsender halive
      exact h.goOn hholding.symm (SenderInv.of_clean hclean rfl)
    . exact h.goOn hholding.symm (SenderInv.of_idle rfl rfl)
  | wait =>
    rw [hsender] at hstep
    cases hsendQ : s.sendQ with
    | nil =>
      rw [hsendQ] at hstep
      cases hstep
    | cons msg sendQ =>
      rw [hsendQ] at hstep
      cases hstep
      exact h.pop hsender hsendQ
  | popped msg =>
    rw [hsender] at hstep
    have hclean : s.Clean := h.sender.clean_of_sender hsender rfl
    have hholding : s.holding = [msg] := holding_of_sender hsender
    cases hstep
    split
    . exact h.goOn hholding.symm (SenderInv.of_clean hclean rfl)
    . next hdead =>
      exact h.lose hholding rfl (SenderInv.of_idle rfl (Bool.eq_false_iff.mpr hdead))
  | check msg =>
    rw [hsender] at hstep
    have hclean : s.Clean := h.sender.clean_of_sender hsender rfl
    have hholding : s.holding = [msg] := holding_of_sender hsender
    dsimp only at hstep
    split at hstep
    . cases hstep
      exact h.goOn hholding.symm (SenderInv.of_clean hclean rfl)
    . split at hstep
      . cases hstep
      . next hdead =>
        cases hstep
        exact h.lose hholding rfl (SenderInv.of_idle rfl (Bool.eq_false_iff.mpr hdead))
  | lock msg =>
    rw [hsender] at hstep
    have hholding : s.holding = [msg] := holding_of_sender hsender
    dsimp only at hstep
    split at hstep
    . next i hsocket =>
      cases hstep
      exact h.begin hsender hsocket
    . cases hstep
      exact h.lose hholding rfl (SenderInv.of_idle rfl rfl)
  | write msg left =>
    rw [hsender] at hstep
    cases left with
    | nil =>
      cases hstep
      exact h.written hsender
    | cons bytes left =>
      dsimp only at hstep
      split at hstep
      . cases hstep
      . next hopen =>
        cases hstep
        exact h.writeNext hsender (Bool.eq_false_iff.mpr hopen)
  | recover =>
    rw [hsender] at hstep
    dsimp only at hstep
    split at hstep
    . cases hstep
    . next hdead =>
      cases hstep
      exact h.goOn (holding_of_sender hsender).symm (SenderInv.of_idle rfl (Bool.eq_false_iff.mpr hdead))
  | exited =>
    rw [hsender] at hstep
    cases hstep

section Run

variable {tagRecognised : UInt32 → Bool}

-- A step of the server changes nothing of what has been written
theorem Inv.setConnection (h : s.Inv) {i : Nat} {c c' : Connection EndPoint} {event : Event}
    (hc : s.connections i = some c) (hstep : c.step tagRecognised s.serverAlive event = some c')
    : (s.setConnection i c').Inv := by
  have hwritten := Connection.written_step hstep
  have hset (j : Nat) (d : Connection EndPoint) (hd : (s.setConnection i c').connections j = some d)
      : ∃ d', s.connections j = some d' ∧ d.written = d'.written ∧ (d'.Reads → d.Reads) := by
    unfold Link.setConnection at hd
    dsimp only at hd
    by_cases heq : j = i
    . rw [heq, Function.update_self] at hd
      cases hd
      exact ⟨c, by rw [heq, hc], hwritten, fun hreads => hreads.step hstep⟩
    . rw [Function.update_of_ne heq] at hd
      exact ⟨d, hd, rfl, id⟩
  refine ⟨h.ledger.frame rfl rfl rfl rfl, ⟨?_, ?_, ?_⟩, ⟨?_, ?_⟩⟩
  . intro j d hd
    obtain ⟨d', hd', heq, hreads⟩ := hset j d hd
    obtain ⟨hreads', hsent⟩ := h.connected.connection j d' hd'
    refine ⟨hreads hreads', ?_⟩
    rw [heq]
    exact hsent
  . intro j hj
    obtain ⟨hcount, hsome⟩ := h.connected.socket j hj
    refine ⟨hcount, ?_⟩
    unfold Link.setConnection
    dsimp only
    by_cases heq : j = i
    . rw [heq, Function.update_self]
      rfl
    . rw [Function.update_of_ne heq]
      exact hsome
  . intro j hj
    have hnone := h.connected.fresh j hj
    have hne : j ≠ i := by
      intro heq
      rw [heq, hc] at hnone
      cases hnone
    unfold Link.setConnection
    dsimp only
    rw [Function.update_of_ne hne]
    exact hnone
  . intro msg left hwrite
    obtain ⟨j, d, hj, hd, hwriting⟩ := h.sender.writing msg left hwrite
    by_cases heq : j = i
    . refine ⟨j, c', hj, ?_, ?_⟩
      . unfold Link.setConnection
        dsimp only
        rw [heq, Function.update_self]
      . rw [heq, hc] at hd
        cases hd
        rw [hwritten]
        exact hwriting
    . refine ⟨j, d, hj, ?_, hwriting⟩
      unfold Link.setConnection
      dsimp only
      rw [Function.update_of_ne heq]
      exact hd
  . intro hmay j d hj hd
    obtain ⟨d', hd', heq, -⟩ := hset j d hd
    rw [heq]
    exact h.sender.clean hmay j d' hj hd'

theorem Inv.step (h : s.Inv) {a : Action EndPoint} (hfits : ∀ msg, a = .send msg → msg.Fits)
    (hstep : s.step tagRecognised a = some s')
    : s'.Inv := by
  cases a with
  | send msg =>
    cases hstep
    exact h.send (hfits msg rfl)
  | shutdown =>
    cases hstep
    exact h.shutdown
  | restart client =>
    simp only [Link.step] at hstep
    split at hstep
    . cases hstep
    . next hmutex =>
      cases hstep
      exact h.restart (Bool.eq_false_iff.mpr hmutex) client
  | sender => exact h.stepSender hstep
  | senderFails k => exact h.failSender hstep
  | senderRestarts client =>
    simp only [Link.step] at hstep
    split at hstep
    . next hrecover =>
      cases hstep
      exact h.senderRestarts hrecover.1 client
    . cases hstep
  | connection i event =>
    simp only [Link.step] at hstep
    split at hstep
    . next c hc =>
      obtain ⟨c', hc', rfl⟩ := Option.map_eq_some_iff.mp hstep
      exact h.setConnection hc hc'
    . cases hstep
  | serverShutdown =>
    cases hstep
    exact ⟨h.ledger.frame rfl rfl rfl rfl, h.connected.frame rfl rfl rfl rfl, ⟨h.sender.writing, h.sender.clean⟩⟩

theorem inv_run {failOnNoConn : Bool} {actions : List (Action EndPoint)}
    (hfits : ∀ msg, .send msg ∈ actions → msg.Fits)
    (hrun : Runs.run (Link.step tagRecognised) (new failOnNoConn) actions = some s)
    : s.Inv := by
  refine @Runs.run_history _ _ _ (fun as s => (∀ msg, .send msg ∈ as → msg.Fits) → s.Inv) ?_ _ _ [] actions
    (fun _ => inv_new failOnNoConn) hrun hfits
  intro as s a s' h hstep hall
  have hinv := h fun msg hmem => hall msg (List.mem_append_left _ hmem)
  refine hinv.step ?_ hstep
  intro msg heq
  exact hall msg (List.mem_append_right _ (heq ▸ List.mem_singleton_self _))

theorem Inv.fits_begunOn (h : s.Inv) (i : Nat) : ∀ msg ∈ begunOn s.popped i, msg.Fits := by
  intro msg hmem
  obtain ⟨p, hp, rfl⟩ := List.mem_map.mp hmem
  apply h.ledger.fits
  rw [h.ledger.sent]
  exact List.mem_append_left _ (List.mem_append_left _ (List.mem_map_of_mem (List.mem_of_mem_filter hp)))

/--
Whatever the order of the steps, and wherever reads stop and connections break, the messages come out of the queue as
they were sent, and go to one connection after another. On each of them the server is told of the session, then it
handles some of the messages that were sent on it, from the first one on, and then it is told of the end. If it has
read all there is, at most the last message is missing, and none on the connection in use between two messages.
-/
theorem delivered_run {failOnNoConn : Bool} {actions : List (Action EndPoint)}
    (hfits : ∀ msg, .send msg ∈ actions → msg.Fits)
    (hrun : Runs.run (Link.step tagRecognised) (new failOnNoConn) actions = some s)
    : s.sent = s.popped.map Prod.fst ++ s.holding ++ s.sendQ
      ∧ (s.popped.filterMap Prod.snd).Pairwise (· ≤ ·)
      ∧ ∀ i c, s.connections i = some c
        → c.handled = c.log
          ∧ c.data <+: begunOn s.popped i
          ∧ (c.caughtUp = true → c.data = begunOn s.popped i ∨ c.data = (begunOn s.popped i).dropLast)
          ∧ (c.caughtUp = true → s.socket = some i → s.mayWrite = true → c.data = begunOn s.popped i) := by
  have h := inv_run hfits hrun
  refine ⟨h.ledger.sent, h.ledger.order, ?_⟩
  intro i c hc
  obtain ⟨hreads, hsent⟩ := h.connected.connection i c hc
  have hbegun := h.fits_begunOn i
  refine ⟨hreads.handled, hreads.data_prefix hsent hbegun, hreads.data_of_sent hsent hbegun, ?_⟩
  intro hup hsocket hmay
  have hclean := h.sender.clean hmay i c hsocket hc
  rw [← List.append_nil (List.flatMap _ _)] at hclean
  exact hreads.data_of_caughtUp hup hclean hbegun Message.prefixFree.incomplete_nil

-- The second message is cut off in its tag, and is not sent again on the second connection
def cutOff : List (Action Nat) :=
  [.restart (some 20), .send { tag := 5, flags := 0, data := [7, 8] }, .send { tag := 6, flags := 0, data := [] }]
    ++ List.replicate 15 .sender ++ [.senderFails 2, .senderRestarts (some 21), .connection 0 .start]
    ++ [.loop, .read 3, .read 1, .read 4, .read 4, .read 2, .handle true, .loop, .read 2, .eof, .finish].map
      (.connection 0)

theorem delivered_run_cutOff : ∃ s : Link Nat, ∃ c : Connection Nat,
    s.connections 0 = some c ∧ c.process = .gone .ended ∧ c.data = [{ tag := 5, flags := 0, data := [7, 8] }]
      ∧ begunOn s.popped 0 = [{ tag := 5, flags := 0, data := [7, 8] }, { tag := 6, flags := 0, data := [] }]
      ∧ c.data <+: begunOn s.popped 0 :=
  have hrun : Runs.run (Link.step fun _ => true) (new false) cutOff = some _ := rfl
  have hfits (msg : Message) (hmem : .send msg ∈ cutOff) : msg.Fits := by
    have hcases : msg = { tag := 5, flags := 0, data := [7, 8] } ∨ msg = { tag := 6, flags := 0, data := [] } := by
      simpa [cutOff] using hmem
    rcases hcases with rfl | rfl <;> decide
  ⟨_, _, rfl, rfl, rfl, rfl, ((delivered_run hfits hrun).2.2 0 _ rfl).2.1⟩

end Run

end Link

end Tube
end ObTools
