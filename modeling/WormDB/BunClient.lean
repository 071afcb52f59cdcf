import WormDB.ClientWire

/-! # The managed client of `apps/bun/src/lib/wormdb.ts`

The client keeps one connection and matches responses to requests by their order: the queue of
pending requests is shared by the caller's commands, the re-AUTH and the re-SUB of a reconnect.
A step is one callback of the socket, one timer, one call of the application or one turn of a
promise; the socket's callbacks carry no mark of the connection they belong to.

A callback of the socket or a timer runs when no promise waits for its turn.  Two callbacks may
also run in the middle of application code: a dial can open at once, and a handler that calls
the client cuts the chunk it is called from in two.  The clock is not modelled: a timer may fire
whenever it is set.  The liveness ping is a command like any other.

The server is left open: it answers the frames of a connection in their order, with any
responses, and pushes any events in between. -/
namespace WormDB.BunClient
open ByteCodec FrameStream ClientWire

abbrev SocketId := Nat

/-- An event handler is known by its identity. -/
abbrev Handler := Nat

/-! ## Commands -/

/-- A channel whose name goes into a frame. -/
structure Channel where
  name : Bytes
  fits : 4 + name.length ≤ maxPayload
  deriving DecidableEq

/-- An empty filter is not sent. -/
def filterField : Option Bytes → Bytes
  | none => []
  | some filter => if filter = [] then [] else beBytes 4 filter.length ++ filter

def subPayload (channel : Bytes) (filter : Option Bytes) : Bytes :=
  beBytes 4 channel.length ++ channel ++ filterField filter

/-- What a subscription asks for. -/
structure Topic where
  channel : Channel
  filter : Option Bytes
  fits : (subPayload channel.name filter).length ≤ maxPayload
  deriving DecidableEq

structure Token where
  bytes : Bytes
  fits : 4 + bytes.length ≤ maxPayload
  deriving DecidableEq

inductive Command where
  | auth (token : Token)
  | sub (topic : Topic)
  | unsub (channel : Channel)
  | send (frame : CommandFrame)
  deriving DecidableEq

theorem lenField_fits {bytes : Bytes} (h : 4 + bytes.length ≤ maxPayload) :
    (beBytes 4 bytes.length ++ bytes).length ≤ maxPayload := by
  rw [List.length_append, beBytes_length]
  exact h

namespace Command

def frame : Command → CommandFrame
  | auth token => ⟨.auth, beBytes 4 token.bytes.length ++ token.bytes, lenField_fits token.fits⟩
  | sub topic => ⟨.sub, subPayload topic.channel.name topic.filter, topic.fits⟩
  | unsub channel =>
      ⟨.unsub, beBytes 4 channel.name.length ++ channel.name, lenField_fits channel.fits⟩
  | send frame => frame

end Command

/-! ## States -/

/-- What runs when the response is there. -/
inductive Awaiter where
  | caller
  | auth
  | subscribe (handler : Handler) (entry : Nat)
  | nobody
  deriving DecidableEq

/-- One request promise. -/
structure Call where
  id : Nat
  command : Command
  awaiter : Awaiter
  deriving DecidableEq

def Call.bytes (call : Call) : Bytes := call.command.frame.bytes

structure Pending where
  call : Call
  generation : Nat

structure SubEntry where
  topic : Topic
  handlers : List Handler
  wireSubscribed : Bool

inductive WormDBState where
  | idle | connecting | ready | reconnecting | closed
  deriving DecidableEq

/-- One connection, as it is between the client and the server. -/
structure Conn where
  /-- The bytes the socket has taken. -/
  received : Bytes
  /-- The requests in the order their frames were put on the connection. -/
  requests : List Call
  /-- The responses in the order of the frames they answer. -/
  replies : List Frame
  /-- What the server has sent and the client has not been given. -/
  stream : Bytes
  /-- Ended or closed: the socket takes no more. -/
  closed : Bool

def Conn.fresh : Conn := ⟨[], [], [], [], false⟩

/-- The frames the server has read, behind the handshake. -/
def Conn.frames (conn : Conn) : List Frame :=
  if conn.received.take 2 = wireMagic then (framing.split (conn.received.drop 2)).1 else []

structure WormEvent where
  channel : Bytes
  message : Bytes

structure State where
  stateValue : WormDBState
  socket : Option SocketId
  inbound : Bytes
  pendingQueue : List Pending
  writeBacklog : List Bytes
  /-- Who waits for a connection: a request, or a bare `connect`. -/
  readyWaiters : List (Option Call)
  subs : List (Channel × Nat)
  entries : Nat → SubEntry
  authToken : Option Token
  reconnectAttempts : Nat
  reconnectTimer : Bool
  connecting : Bool
  generation : Nat
  /-- Requests that hold their socket and write in a coming turn, in this order. -/
  calls : List (Call × SocketId)
  /-- Waiters that look for the connection again in a coming turn. -/
  retries : List (Option Call)
  /-- Requests that are settled, with their response, and go on in a coming turn. -/
  settled : List (Call × Option Frame)
  /-- The subscriptions the application holds. -/
  handles : List (Channel × Handler)
  /-- The events the handlers were called with. -/
  delivered : List (Handler × WormEvent)
  conns : SocketId → Conn
  nextConn : Nat
  nextCall : Nat
  nextEntry : Nat
  /-- The promises that were resolved, each with its response. -/
  log : List (Call × Frame)

def noEntry : SubEntry :=
  ⟨⟨⟨[], by decide⟩, none, by decide⟩, [], false⟩

def State.init : State :=
  ⟨.idle, none, [], [], [], [], [], fun _ => noEntry, none, 0, false, false, 0, [], [], [], [], [],
    fun _ => Conn.fresh, 0, 0, 0, []⟩

/-- `ReconnectOptions`; the delays are the clock's. -/
structure ReconnectOptions where
  enabled : Bool
  /-- No number stands for `Infinity`. -/
  maxAttempts : Option Nat

namespace State

/-- The connection with what happens to it. -/
def atConn (s : State) (k : SocketId) (f : Conn → Conn) : State :=
  { s with conns := Function.update s.conns k (f (s.conns k)) }

/-! ## Settling -/

def resolve (s : State) (call : Call) (frame : Frame) : State :=
  { s with settled := s.settled ++ [(call, some frame)], log := s.log ++ [(call, frame)] }

def reject (s : State) (calls : List Call) : State :=
  { s with settled := s.settled ++ calls.map (fun call => (call, none)) }

def rejectAllPending (s : State) : State :=
  { s.reject (s.pendingQueue.map Pending.call) with pendingQueue := [] }

def rejectReadyWaiters (s : State) : State :=
  { s.reject (s.readyWaiters.filterMap id) with readyWaiters := [] }

/-! ## Writing -/

def enqueuePending (s : State) (call : Call) : State :=
  { s with pendingQueue := s.pendingQueue ++ [⟨call, s.generation⟩] }

/-- The frame of a request that is put on a connection. -/
def commit (s : State) (k : SocketId) (call : Call) (taken : Bytes) : State :=
  s.atConn k (fun conn =>
    { conn with received := conn.received ++ taken, requests := conn.requests ++ [call] })

/-- `accept` is how much the socket would take.  A backlog is that of the current socket. -/
def writeOrQueue (s : State) (k : SocketId) (call : Call) (accept : Nat) : Option State :=
  if s.writeBacklog.length > 0 then
    let queued := { s with writeBacklog := s.writeBacklog ++ [call.bytes] }
    match s.socket with
    | none => some queued
    | some current => some (queued.commit current call [])
  else if (s.conns k).closed then none
  else
    let written := min accept call.bytes.length
    let wrote := s.commit k call (call.bytes.take written)
    if written < call.bytes.length then
      some { wrote with writeBacklog := s.writeBacklog ++ [call.bytes.drop written] }
    else some wrote

/-- The loop over the backlog: the bytes the socket takes, and the backlog it leaves.  A closed
socket drops each chunk. -/
def flush (closed : Bool) : List Bytes → List Nat → Bytes × List Bytes
  | [], _ => ([], [])
  | chunk :: rest, accepts =>
      if closed then flush closed rest accepts
      else
        let written := min (accepts.headD 0) chunk.length
        if written < chunk.length then (chunk.take written, chunk.drop written :: rest)
        else
          let r := flush closed rest accepts.tail
          (chunk ++ r.1, r.2)

def flushBacklog (s : State) (k : SocketId) (accepts : List Nat) : State :=
  let r := flush (s.conns k).closed s.writeBacklog accepts
  { s.atConn k (fun conn => { conn with received := conn.received ++ r.1 }) with
    writeBacklog := r.2 }

/-- The turn of a request that has its socket.  A write that fails takes its entry off again. -/
def requestRaw (s : State) (call : Call) (k : SocketId) (accept : Nat) : State :=
  let s := s.enqueuePending call
  match s.writeOrQueue k call accept with
  | some s => s
  | none =>
      match s.pendingQueue.getLast? with
      | none => s
      | some pending => { s with pendingQueue := s.pendingQueue.dropLast }.reject [pending.call]

/-! ## The connection -/

def openSocket (s : State) : State :=
  if s.connecting = true ∨ s.stateValue = .closed then s else { s with connecting := true }

/-- The loop of `ensureReady`, up to where it waits or has its socket. -/
def ensureReady (s : State) (who : Option Call) : State :=
  if s.stateValue = .closed then s.reject who.toList
  else
    match s.socket, s.stateValue with
    | some k, .ready => { s with calls := s.calls ++ who.toList.map (fun call => (call, k)) }
    | _, _ =>
        let s :=
          if s.connecting = false ∧ s.reconnectTimer = false then
            State.openSocket { s with stateValue :=
              if s.stateValue = WormDBState.idle then WormDBState.connecting else s.stateValue }
          else s
        { s with readyWaiters := s.readyWaiters ++ [who] }

def scheduleReconnect (s : State) (cfg : ReconnectOptions) : State :=
  if s.reconnectTimer = true ∨ s.connecting = true ∨ s.stateValue = .closed then s
  else if cfg.maxAttempts.any (fun limit => decide (s.reconnectAttempts ≥ limit)) then
    { s with stateValue := .closed }.rejectReadyWaiters
  else { s with reconnectAttempts := s.reconnectAttempts + 1, reconnectTimer := true }

def handleDisconnect (s : State) (cfg : ReconnectOptions) : State :=
  let s := { s with socket := none, inbound := [], writeBacklog := [] }.rejectAllPending
  if s.stateValue = .closed then s
  else if cfg.enabled = false then { s with stateValue := .idle }.rejectReadyWaiters
  else { s with stateValue := .reconnecting }.scheduleReconnect cfg

/-- `socket.end()`. -/
def endSocket (s : State) (k : SocketId) : State :=
  s.atConn k (fun conn => { conn with closed := true })

def failConnection (s : State) (cfg : ReconnectOptions) : State :=
  let s := s.rejectAllPending
  match s.socket with
  | none => s
  | some k => ({ s with socket := none }.endSocket k).handleDisconnect cfg

/-- What the client sends first: the token, and each subscription that was live. -/
def openingCommands (s : State) : List Command :=
  (s.authToken.toList.map Command.auth) ++
    (s.subs.filter (fun sub => (s.entries sub.2).wireSubscribed)).map
      (fun sub => .sub (s.entries sub.2).topic)

/-- A socket that has just opened takes writes. -/
def sendOpening (k : SocketId) : State → List Command → List Nat → State
  | s, [], _ => s
  | s, command :: commands, accepts =>
      let call : Call := ⟨s.nextCall, command, .nobody⟩
      let queued := { s with nextCall := s.nextCall + 1 }.enqueuePending call
      match queued.writeOrQueue k call (accepts.headD 0) with
      | none => queued
      | some s => sendOpening k s commands accepts.tail

/-- The rest of a handshake that the socket does not take at once is lost. -/
def onOpen (s : State) (accepts : List Nat) : State :=
  let k := s.nextConn
  let s := { s with generation := s.generation + 1, socket := some k, inbound := [],
                    writeBacklog := [], connecting := false, nextConn := k + 1 }.atConn k
    (fun _ => { Conn.fresh with received := wireMagic.take (accepts.headD 0) })
  let s := sendOpening k s s.openingCommands accepts.tail
  { s with stateValue := .ready, reconnectAttempts := 0, readyWaiters := [],
           retries := s.retries ++ s.readyWaiters }

/-! ## Receiving -/

/-- The handlers of the channels that the event's channel starts with. -/
def eventHandlers (s : State) (channel : Bytes) : List Handler :=
  (s.subs.filter (fun sub => sub.1.name.isPrefixOf channel)).flatMap
    (fun sub => (s.entries sub.2).handlers)

def dispatchEvent (s : State) (event : WormEvent) : State :=
  { s with delivered := s.delivered ++ (s.eventHandlers event.channel).map (fun h => (h, event)) }

def onFrame (s : State) (frame : Frame) : State :=
  if isEventCode frame.code then
    match decodeResponse frame.code frame.payload with
    | .event channel message => s.dispatchEvent ⟨channel, message⟩
    | _ => s
  else
    match s.pendingQueue with
    | [] => s
    | pending :: rest => { s with pendingQueue := rest }.resolve pending.call frame

def onData (s : State) (chunk : Bytes) : State :=
  let r := framing.split (s.inbound ++ chunk)
  r.1.foldl onFrame { s with inbound := r.2 }

/-! ## Subscriptions -/

def lookup (s : State) (channel : Channel) : Option Nat := s.subs.lookup channel

def atEntry (s : State) (e : Nat) (f : SubEntry → SubEntry) : State :=
  { s with entries := Function.update s.entries e (f (s.entries e)) }

/-- `Set.add`. -/
def addHandler (handler : Handler) (handlers : List Handler) : List Handler :=
  if handler ∈ handlers then handlers else handlers ++ [handler]

/-- A call of the application or of the client itself, up to its first wait. -/
def request (s : State) (command : Command) (awaiter : Awaiter) : State :=
  { s with nextCall := s.nextCall + 1 }.ensureReady (some ⟨s.nextCall, command, awaiter⟩)

def subscribe (s : State) (topic : Topic) (handler : Handler) : State :=
  match s.lookup topic.channel with
  | some e =>
      let s := s.atEntry e (fun entry => { entry with handlers := addHandler handler entry.handlers })
      { s with handles := s.handles ++ [(topic.channel, handler)] }
  | none =>
      let e := s.nextEntry
      let s := { s with subs := s.subs ++ [(topic.channel, e)], nextEntry := e + 1 }.atEntry e
        (fun _ => ⟨topic, [handler], false⟩)
      s.request (.sub topic) (.subscribe handler e)

def deleteSub (s : State) (channel : Channel) : State :=
  { s with subs := s.subs.filter (fun sub => decide (sub.1 ≠ channel)) }

def removeHandler (s : State) (channel : Channel) (handler : Handler) : State :=
  match s.lookup channel with
  | none => s
  | some e =>
      let s := s.atEntry e (fun entry => { entry with handlers := entry.handlers.erase handler })
      if (s.entries e).handlers.length > 0 then s
      else
        let s := s.deleteSub channel
        if s.socket.isSome ∧ s.stateValue = .ready then s.request (.unsub channel) .nobody else s

/-- What `subscribe` does when its SUB has been refused or was lost. -/
def subscribeFailed (s : State) (channel : Channel) (handler : Handler) (e : Nat) : State :=
  let s := s.atEntry e (fun entry => { entry with handlers := entry.handlers.erase handler })
  if (s.entries e).handlers.length = 0 then s.deleteSub channel else s

def isErrorFrame (frame : Frame) : Bool := (decodeResponse frame.code frame.payload).isError

/-- The turn behind a request that is settled. -/
def resume (s : State) (call : Call) (response : Option Frame) : State :=
  match call.awaiter, call.command with
  | .auth, .auth token =>
      match response with
      | none => s
      | some frame => if isErrorFrame frame then s else { s with authToken := some token }
  | .subscribe handler e, .sub topic =>
      match response with
      | none => s.subscribeFailed topic.channel handler e
      | some frame =>
          if isErrorFrame frame then s.subscribeFailed topic.channel handler e
          else
            let s := s.atEntry e (fun entry => { entry with wireSubscribed := true })
            { s with handles := s.handles ++ [(topic.channel, handler)] }
  | _, _ => s

def close (s : State) : State :=
  let s := { s with stateValue := .closed, reconnectTimer := false }
  let s := s.rejectAllPending.rejectReadyWaiters
  let s := match s.socket with
    | none => s
    | some k => { s with socket := none }.endSocket k
  { s with inbound := [], writeBacklog := [] }

end State

/-! ## Steps -/

inductive Act where
  /-- The application. -/
  | send (frame : CommandFrame) | auth (token : Token) | connect | close
  | subscribe (topic : Topic) (handler : Handler)
  | unsubscribe (channel : Channel) (handler : Handler)
  /-- The dial in flight. -/
  | opened (accepts : List Nat) | connectFailed
  /-- Callbacks of a socket. -/
  | data (k : SocketId) (len : Nat) | drain (k : SocketId) (accepts : List Nat)
  | closed (k : SocketId) | failed (k : SocketId)
  /-- Timers. -/
  | timeout (i : Nat) | reconnect
  /-- Turns of promises. -/
  | call (accept : Nat) | retry (i : Nat) | resume (i : Nat)
  /-- The server. -/
  | reply (k : SocketId) (frame : Frame) | event (k : SocketId) (frame : Frame)

namespace State

/-- No promise waits for its turn. -/
def Quiet (s : State) : Prop := s.calls = [] ∧ s.retries = [] ∧ s.settled = []

instance (s : State) : Decidable s.Quiet := inferInstanceAs (Decidable (_ ∧ _ ∧ _))

def step (cfg : ReconnectOptions) (s : State) : Act → Option State
  | .send frame => some (s.request (.send frame) .caller)
  | .auth token => some (s.request (.auth token) .auth)
  | .connect => some (s.ensureReady none)
  | .close => some s.close
  | .subscribe topic handler => some (s.subscribe topic handler)
  | .unsubscribe channel handler =>
      if (channel, handler) ∈ s.handles then
        some ({ s with handles := s.handles.erase (channel, handler) }.removeHandler channel handler)
      else none
  | .opened accepts => if s.connecting = true then some (s.onOpen accepts) else none
  | .connectFailed =>
      if s.connecting = true ∧ s.Quiet then
        some ({ s with connecting := false }.handleDisconnect cfg)
      else none
  | .data k len =>
      if k < s.nextConn then
        some ((s.atConn k (fun conn => { conn with stream := conn.stream.drop len })).onData
          ((s.conns k).stream.take len))
      else none
  | .drain k accepts =>
      if k < s.nextConn ∧ s.Quiet then some (s.flushBacklog k accepts) else none
  | .closed k =>
      if k < s.nextConn ∧ s.Quiet then some ((s.endSocket k).handleDisconnect cfg) else none
  | .failed k => if k < s.nextConn ∧ s.Quiet then some (s.handleDisconnect cfg) else none
  | .timeout i =>
      match s.pendingQueue[i]? with
      | none => none
      | some pending =>
          if ¬ s.Quiet then none
          else if s.generation = pending.generation then some (s.failConnection cfg)
          else some s
  | .reconnect =>
      if s.reconnectTimer = true ∧ s.Quiet then
        some { s with reconnectTimer := false }.openSocket
      else none
  | .call accept =>
      match s.calls with
      | [] => none
      | (call, k) :: rest => some ({ s with calls := rest }.requestRaw call k accept)
  | .retry i =>
      match s.retries[i]? with
      | none => none
      | some who => some ({ s with retries := s.retries.eraseIdx i }.ensureReady who)
  | .resume i =>
      match s.settled[i]? with
      | none => none
      | some (call, response) =>
          some ({ s with settled := s.settled.eraseIdx i }.resume call response)
  | .reply k frame =>
      if k < s.nextConn ∧ isEventCode frame.code = false ∧
          (s.conns k).replies.length < (s.conns k).frames.length then
        some (s.atConn k (fun conn =>
          { conn with stream := conn.stream ++ frame.bytes, replies := conn.replies ++ [frame] }))
      else none
  | .event k frame =>
      if k < s.nextConn ∧ isEventCode frame.code = true then
        some (s.atConn k (fun conn => { conn with stream := conn.stream ++ frame.bytes }))
      else none

def run (cfg : ReconnectOptions) : State → List Act → Option State
  | s, [] => some s
  | s, act :: acts =>
      match s.step cfg act with
      | none => none
      | some s => run cfg s acts

end State
end WormDB.BunClient
