import WormDB.BunCorrelation
import WormDB.FifoMatch

/-! # Clients that keep their connection after a timeout

`WormClient` of `apps/bun/src/lib/client.ts` and the browser's `WormDB` of
`apps/browser/src/client.ts` take a request that timed out out of the queue and keep the
connection: `WormClient` rejects the whole queue, the browser the one request.  The response
still comes, and is given to whoever is at the head of the queue then
(`late_reply_resolves_another`).

Each client is right as long as its queue is the first part of the requests that are owed a
response (`correlated_after_timeouts`). -/
namespace WormDB.TimedOutReplies
open List ByteCodec FrameStream ClientWire FifoMatch
open BunClient (Conn Call Answered isReply frames_isPrefix)

/-! ## The kept-alive connection of `WormClient` -/

namespace KeepAlive

structure Client where
  inbound : Bytes
  pendingQueue : List Call
  writeBacklog : List Bytes
  conn : Conn
  /-- How many responses came off the connection. -/
  taken : Nat
  nextCall : Nat
  log : List (Call × Frame)

/-- A connection of which the socket took `accept` bytes of the handshake. -/
def Client.opened (accept : Nat) : Client :=
  ⟨[], [], [], { Conn.fresh with received := wireMagic.take accept }, 0, 0, []⟩

namespace Client

def commit (s : Client) (call : Call) (taken : Bytes) (backlog : List Bytes) : Client :=
  { s with
    conn := { s.conn with received := s.conn.received ++ taken, requests := s.conn.requests ++ [call] },
    writeBacklog := backlog }

/-- `sendPersistent`.  A write that fails takes its entry off again. -/
def sendPersistent (s : Client) (frame : CommandFrame) (accept : Nat) : Client :=
  let call : Call := ⟨s.nextCall, .send frame, .caller⟩
  let s := { s with pendingQueue := s.pendingQueue ++ [call], nextCall := s.nextCall + 1 }
  if s.writeBacklog.length > 0 then s.commit call [] (s.writeBacklog ++ [call.bytes])
  else if s.conn.closed then { s with pendingQueue := s.pendingQueue.dropLast }
  else
    let written := min accept call.bytes.length
    if written < call.bytes.length then
      s.commit call (call.bytes.take written) (s.writeBacklog ++ [call.bytes.drop written])
    else s.commit call (call.bytes.take written) s.writeBacklog

def rejectAllPending (s : Client) : Client := { s with pendingQueue := [] }

def onFrame (s : Client) (frame : Frame) : Client :=
  if isEventCode frame.code then s
  else
    match s.pendingQueue with
    | [] => { s with taken := s.taken + 1 }
    | call :: rest =>
        { s with taken := s.taken + 1, pendingQueue := rest, log := s.log ++ [(call, frame)] }

def onData (s : Client) (chunk : Bytes) : Client :=
  let r := framing.split (s.inbound ++ chunk)
  r.1.foldl onFrame { s with inbound := r.2 }

def flushBacklog (s : Client) (accepts : List Nat) : Client :=
  let r := BunClient.State.flush s.conn.closed s.writeBacklog accepts
  { s with conn := { s.conn with received := s.conn.received ++ r.1 }, writeBacklog := r.2 }

def onClose (s : Client) : Client :=
  { s with writeBacklog := [], conn := { s.conn with closed := true } }.rejectAllPending

end Client

inductive Act where
  | send (frame : CommandFrame) (accept : Nat)
  | timeout (i : Nat)
  | data (len : Nat) | drain (accepts : List Nat) | closed
  | reply (frame : Frame) | event (frame : Frame)

namespace Client

def step (s : Client) : Act → Option Client
  | .send frame accept => some (s.sendPersistent frame accept)
  | .timeout i => if i < s.pendingQueue.length then some s.rejectAllPending else none
  | .data len =>
      some ({ s with conn := { s.conn with stream := s.conn.stream.drop len } }.onData
        (s.conn.stream.take len))
  | .drain accepts => some (s.flushBacklog accepts)
  | .closed => some s.onClose
  | .reply frame =>
      if isEventCode frame.code = false ∧ s.conn.replies.length < s.conn.frames.length then
        some { s with conn := { s.conn with stream := s.conn.stream ++ frame.bytes,
                                            replies := s.conn.replies ++ [frame] } }
      else none
  | .event frame =>
      if isEventCode frame.code = true then
        some { s with conn := { s.conn with stream := s.conn.stream ++ frame.bytes } }
      else none

def run : Client → List Act → Option Client
  | s, [] => some s
  | s, act :: acts =>
      match s.step act with
      | none => none
      | some s => run s acts

/-- **Every resolved promise holds its own response.** -/
def Correlated (s : Client) : Prop :=
  ∀ call frame, (call, frame) ∈ s.log → Answered s.conn call frame

def ledger (s : Client) : Ledger Call Frame :=
  ⟨s.conn.requests, s.conn.replies, s.taken, s.pendingQueue, s.log⟩

/-- No request goes out while the response to one that timed out is still owed. -/
def Prompt (s : Client) : Act → Prop
  | .send _ _ => s.conn.closed = false → s.ledger.Settled
  | _ => True

def AllPrompt : Client → List Act → Prop
  | _, [] => True
  | s, act :: acts =>
      s.Prompt act ∧
        match s.step act with
        | none => True
        | some s' => AllPrompt s' acts

/-! ### The invariant -/

structure Inv (s : Client) : Prop where
  sent : ∃ n rest, s.conn.received ++ rest =
    wireMagic.take n ++ framing.encodeAll (s.conn.requests.map Call.frame) ∧
      (s.conn.closed = false → rest = s.writeBacklog.flatten)
  ended : s.conn.closed = true → s.writeBacklog = []
  stream : ∃ outs, s.inbound ++ s.conn.stream = framing.encodeAll outs ∧
    outs.filter isReply = s.conn.replies.drop s.taken
  replied : s.conn.replies.length ≤ s.conn.frames.length
  matched : s.ledger.Matched

variable {s : Client}

theorem Inv.correlated (h : Inv s) : s.Correlated := by
  intro call frame hmem
  obtain ⟨i, hcall, hreply⟩ := h.matched.log call frame hmem
  obtain ⟨n, rest, hsent, -⟩ := h.sent
  have hlt : i < s.conn.frames.length :=
    Nat.lt_of_lt_of_le (List.getElem?_eq_some_iff.mp hreply).1 h.replied
  have hread := getElem?_eq_getElem hlt
  -- what the server read there is the request's frame
  have hmap := BunClient.getElem?_of_prefix (frames_isPrefix hsent) hread
  rw [getElem?_map, show s.conn.requests[i]? = some call from hcall] at hmap
  refine ⟨i, hcall, ?_, hreply⟩
  rw [hread, ← hmap]
  rfl

theorem inv_opened (accept : Nat) : Inv (Client.opened accept) where
  sent := ⟨accept, [], rfl, fun _ => rfl⟩
  ended h := by cases h
  stream := ⟨[], rfl, rfl⟩
  replied := Nat.zero_le _
  matched := ⟨ nil_prefix, Nat.zero_le _, Nat.zero_le _, fun _ _ h => nomatch h⟩

theorem Inv.commit (h : Inv s) (hopen : s.conn.closed = false) (hall : s.ledger.Settled)
    {call : Call} {taken : Bytes} {backlog : List Bytes}
    (htaken : taken ++ backlog.flatten = s.writeBacklog.flatten ++ call.bytes) (next : Nat) :
    Inv ({ s with pendingQueue := s.pendingQueue ++ [call], nextCall := next }.commit call taken
      backlog) where
  sent := by
    obtain ⟨n, rest, hsent, hrest⟩ := h.sent
    refine ⟨n, backlog.flatten, ?_, fun _ => rfl⟩
    rw [hrest hopen] at hsent
    rw [Client.commit]
    dsimp only
    rw [append_assoc, htaken, ← append_assoc, hsent, map_append,
      Framing.encodeAll_append, append_assoc, map_singleton]
    rw [call.bytes_eq, Framing.encodeAll, Framing.encodeAll, flatMap_singleton]
  ended hclosed := by cases hopen.symm.trans hclosed
  stream := h.stream
  replied := by
    have hgrows : s.conn.Grows { s.conn with
        received := s.conn.received ++ taken, requests := s.conn.requests ++ [call] } :=
      ⟨prefix_append _ _, prefix_append _ _, prefix_refl _⟩
    exact Nat.le_trans h.replied hgrows.frames.length_le
  matched := h.matched.send hall call

theorem Inv.sendPersistent (h : Inv s) (hall : s.conn.closed = false → s.ledger.Settled)
    (frame : CommandFrame) (accept : Nat) : Inv (s.sendPersistent frame accept) := by
  rw [Client.sendPersistent]
  dsimp only
  split
  · rename_i hpos
    have hopen : s.conn.closed = false := by
      refine Bool.eq_false_iff.mpr (fun hclosed => ?_)
      rw [h.ended hclosed] at hpos
      exact absurd hpos (Nat.lt_irrefl 0)
    refine h.commit hopen (hall hopen) ?_ _
    rw [nil_append, flatten_append, flatten_singleton]
  rename_i hempty
  have hbacklog : s.writeBacklog = [] :=
    length_eq_zero_iff.mp (Nat.eq_zero_of_not_pos hempty)
  split
  · rw [dropLast_concat]
    exact ⟨h.sent, h.ended, h.stream, h.replied, h.matched⟩
  rename_i hclosed
  have hopen : s.conn.closed = false := Bool.eq_false_iff.mpr hclosed
  split
  · refine h.commit hopen (hall hopen) ?_ _
    rw [hbacklog, nil_append, flatten_singleton, flatten_nil, nil_append,
      take_append_drop]
  · rename_i hwhole
    refine h.commit hopen (hall hopen) ?_ _
    rw [take_of_length_le (Nat.not_lt.mp hwhole), hbacklog, flatten_nil, append_nil,
      nil_append]

theorem onFrame_reply {frame : Frame} (s : Client) (h : isEventCode frame.code = false) :
    (s.onFrame frame).ledger = s.ledger.take frame := by
  rw [Client.onFrame, if_neg (by rw [h]; exact Bool.false_ne_true)]
  rcases hqueue : s.pendingQueue with _ | ⟨call, rest⟩
  · rw [Client.ledger, Client.ledger, Ledger.take]
    dsimp only
    rw [hqueue]
    exact congrArg _ (append_nil _).symm
  · rw [Client.ledger, Client.ledger, Ledger.take]
    dsimp only
    rw [hqueue]
    rfl

/-- The parts a frame does not touch. -/
theorem foldl_onFrame_frame (frames : List Frame) (s : Client) :
    (frames.foldl Client.onFrame s).conn = s.conn ∧
      (frames.foldl Client.onFrame s).inbound = s.inbound ∧
      (frames.foldl Client.onFrame s).writeBacklog = s.writeBacklog := by
  induction frames generalizing s with
  | nil => exact ⟨rfl, rfl, rfl⟩
  | cons frame frames ih =>
    obtain ⟨hconn, hinbound, hbacklog⟩ := ih (s.onFrame frame)
    have hframe : (s.onFrame frame).conn = s.conn ∧ (s.onFrame frame).inbound = s.inbound ∧
        (s.onFrame frame).writeBacklog = s.writeBacklog := by
      rw [Client.onFrame]
      split
      · exact ⟨rfl, rfl, rfl⟩
      · split <;> exact ⟨rfl, rfl, rfl⟩
    exact ⟨hconn.trans hframe.1, hinbound.trans hframe.2.1, hbacklog.trans hframe.2.2⟩

theorem foldl_onFrame_matched {outs : List Frame} (frames : List Frame) {s : Client}
    (h : s.ledger.Matched)
    (hreplies : (frames ++ outs).filter isReply = s.ledger.replies.drop s.ledger.taken) :
    (frames.foldl Client.onFrame s).ledger.Matched ∧
      outs.filter isReply = (frames.foldl Client.onFrame s).ledger.replies.drop
        (frames.foldl Client.onFrame s).ledger.taken := by
  induction frames generalizing s with
  | nil => exact ⟨h, hreplies⟩
  | cons frame frames ih =>
    rw [foldl_cons]
    rcases hevent : isEventCode frame.code with _ | _
    · have hreply : isReply frame = true := by rw [isReply, hevent]; rfl
      rw [cons_append, filter_cons_of_pos hreply] at hreplies
      have hnext : s.ledger.replies[s.ledger.taken]? = some frame := by
        rw [← head?_drop, ← hreplies]
        rfl
      refine ih ?_ ?_
      · rw [onFrame_reply s hevent]
        exact h.take hnext
      · rw [onFrame_reply s hevent, Ledger.take]
        dsimp only
        rw [← drop_drop, ← hreplies, drop_one, tail_cons]
    · have hreply : ¬ isReply frame = true := by
        rw [isReply, hevent]
        exact Bool.false_ne_true
      rw [cons_append, filter_cons_of_neg hreply] at hreplies
      have hsame : s.onFrame frame = s := if_pos hevent
      rw [hsame]
      exact ih h hreplies

theorem Inv.data (h : Inv s) (len : Nat) :
    Inv ({ s with conn := { s.conn with stream := s.conn.stream.drop len } }.onData
      (s.conn.stream.take len)) := by
  obtain ⟨outs, hstream, hreplies⟩ := h.stream
  have hcut : (s.inbound ++ s.conn.stream.take len) ++ s.conn.stream.drop len =
      framing.encodeAll outs := by
    rw [append_assoc, take_append_drop, hstream]
  obtain ⟨rest, rfl, hrest⟩ := Framing.split_isPrefix hcut
  rw [Client.onData]
  dsimp only
  have hmatched : Client.ledger
      { s with conn := { s.conn with stream := s.conn.stream.drop len },
               inbound := (framing.split (s.inbound ++ s.conn.stream.take len)).2 } |>.Matched :=
    h.matched
  obtain ⟨hconn, hinbound, hbacklog⟩ := foldl_onFrame_frame
    (framing.split (s.inbound ++ s.conn.stream.take len)).1
    { s with conn := { s.conn with stream := s.conn.stream.drop len },
             inbound := (framing.split (s.inbound ++ s.conn.stream.take len)).2 }
  obtain ⟨hledger, hleft⟩ := foldl_onFrame_matched _ hmatched hreplies
  refine ⟨?_, ?_, ⟨rest, ?_, hleft⟩, ?_, hledger⟩
  · rw [hconn, hbacklog]
    exact h.sent
  · rw [hconn, hbacklog]
    exact h.ended
  · rw [hconn, hinbound]
    exact hrest
  · rw [hconn]
    exact h.replied

theorem Inv.drain (h : Inv s) (accepts : List Nat) : Inv (s.flushBacklog accepts) := by
  rcases hclosed : s.conn.closed with _ | _
  · have hflush := BunClient.flush_open s.writeBacklog accepts
    rw [← hclosed] at hflush
    refine ⟨?_, ?_, h.stream, ?_, h.matched⟩
    · obtain ⟨n, rest, hsent, hrest⟩ := h.sent
      rw [hrest hclosed, ← hflush, ← append_assoc] at hsent
      exact ⟨n, _, hsent, fun _ => rfl⟩
    · intro hended
      cases hclosed.symm.trans hended
    · have hgrows : s.conn.Grows (s.flushBacklog accepts).conn :=
        ⟨prefix_append _ _, prefix_refl _, prefix_refl _⟩
      exact Nat.le_trans h.replied hgrows.frames.length_le
  · -- a closed connection has no backlog
    have hsame : s.flushBacklog accepts = s := by
      rw [Client.flushBacklog, h.ended hclosed]
      dsimp only [BunClient.State.flush]
      rw [append_nil]
      have hbacklog := h.ended hclosed
      cases s
      cases hbacklog
      rfl
    rw [hsame]
    exact h

variable {s' : Client}

theorem Inv.step (h : Inv s) {act : Act} (hprompt : s.Prompt act)
    (hstep : s.step act = some s') : Inv s' := by
  cases act with
  | send frame accept =>
    cases hstep
    exact h.sendPersistent hprompt frame accept
  | timeout i =>
    obtain ⟨-, ⟨⟩⟩ := Option.ite_none_right_eq_some.mp hstep
    exact ⟨h.sent, h.ended, h.stream, h.replied, h.matched.leave nil_prefix⟩
  | data len =>
    cases hstep
    exact h.data len
  | drain accepts =>
    cases hstep
    exact h.drain accepts
  | closed =>
    cases hstep
    obtain ⟨n, rest, hsent, -⟩ := h.sent
    -- what was sent stays sent, and nobody waits any more
    exact ⟨⟨n, rest, hsent, fun hopen => by cases hopen⟩, fun _ => rfl, h.stream, h.replied,
      h.matched.leave nil_prefix⟩
  | reply frame =>
    obtain ⟨hguard, hstep⟩ := Option.ite_none_right_eq_some.mp hstep
    obtain ⟨hframe, hlt⟩ := hguard
    cases hstep
    obtain ⟨n, rest, hsent, -⟩ := h.sent
    -- a reply answers a frame that has gone out
    have hle : s.conn.frames.length ≤ s.conn.requests.length := by
      have hle := (frames_isPrefix hsent).length_le
      rw [length_map] at hle
      exact hle
    refine ⟨h.sent, h.ended, ?_, ?_, h.matched.reply (Nat.lt_of_lt_of_le hlt hle) frame⟩
    · obtain ⟨outs, hstream, hreplies⟩ := h.stream
      have hreply : isReply frame = true := by rw [isReply, hframe]; rfl
      refine ⟨outs ++ [frame], ?_, ?_⟩
      · dsimp only
        rw [← append_assoc, hstream, Framing.encodeAll_append, Framing.encodeAll,
          Framing.encodeAll, flatMap_singleton]
        rfl
      · have htaken : s.taken ≤ s.conn.replies.length := h.matched.taken
        dsimp only
        rw [filter_append, hreplies, drop_append_of_le_length htaken,
          filter_cons_of_pos hreply, filter_nil]
    · dsimp only
      rw [length_append]
      exact hlt
  | event frame =>
    obtain ⟨hframe, ⟨⟩⟩ := Option.ite_none_right_eq_some.mp hstep
    refine ⟨h.sent, h.ended, ?_, h.replied, h.matched⟩
    obtain ⟨outs, hstream, hreplies⟩ := h.stream
    -- an event adds to the stream and not to the replies
    have hevent : ¬ isReply frame = true := by rw [isReply, hframe]; exact Bool.false_ne_true
    refine ⟨outs ++ [frame], ?_, ?_⟩
    · dsimp only
      rw [← append_assoc, hstream, Framing.encodeAll_append, Framing.encodeAll,
        Framing.encodeAll, flatMap_singleton]
      rfl
    · rw [filter_append, hreplies, filter_cons_of_neg hevent, filter_nil,
        append_nil]

theorem Inv.run {acts : List Act} {s : Client} (h : Inv s) (hprompt : AllPrompt s acts)
    (hrun : run s acts = some s') : Inv s' := by
  induction acts generalizing s with
  | nil =>
    cases hrun
    exact h
  | cons act acts ih =>
    rw [Client.run] at hrun
    rw [AllPrompt] at hprompt
    obtain ⟨hact, hacts⟩ := hprompt
    rcases hstep : s.step act with _ | t
    · rw [hstep] at hrun
      cases hrun
    · rw [hstep] at hrun hacts
      exact ih (h.step hact hstep) hacts hrun

end Client
end KeepAlive

/-! ## The connection of the browser's `WormDB` -/

namespace Browser

structure Request where
  id : Nat
  frame : Bytes
  deriving DecidableEq

structure Client where
  connected : Bool
  pendingQueue : List Request
  /-- The messages in the order they were sent. -/
  requests : List Request
  /-- The answers in the order of the messages they answer. -/
  replies : List Bytes
  /-- What the server has sent and the client has not been given. -/
  incoming : List Bytes
  /-- How many answers the client was given. -/
  taken : Nat
  nextRequest : Nat
  log : List (Request × Bytes)

def Client.opened : Client := ⟨true, [], [], [], [], 0, 0, []⟩

def isAnswer (data : Bytes) : Bool := !(Browser.decodeResponse data).isEvent

namespace Client

/-- Rejected at once when there is no connection. -/
def request (s : Client) (frame : Bytes) : Client :=
  if s.connected = false then s
  else
    let request : Request := ⟨s.nextRequest, frame⟩
    { s with pendingQueue := s.pendingQueue ++ [request], requests := s.requests ++ [request],
             nextRequest := s.nextRequest + 1 }

def onmessage (s : Client) (data : Bytes) : Client :=
  match isAnswer data, s.pendingQueue with
  | false, _ => s
  | true, [] => { s with taken := s.taken + 1 }
  | true, request :: rest =>
      { s with taken := s.taken + 1, pendingQueue := rest, log := s.log ++ [(request, data)] }

end Client

inductive Act where
  | request (frame : Bytes)
  | timeout (i : Nat)
  | message | close
  | reply (data : Bytes) | event (data : Bytes)

namespace Client

def step (s : Client) : Act → Option Client
  | .request frame => some (s.request frame)
  | .timeout i =>
      if i < s.pendingQueue.length then
        some { s with pendingQueue := s.pendingQueue.eraseIdx i }
      else none
  | .message =>
      match s.incoming with
      | [] => none
      | data :: rest => some ({ s with incoming := rest }.onmessage data)
  | .close => some { s with connected := false, pendingQueue := [] }
  | .reply data =>
      if isAnswer data = true ∧ s.replies.length < s.requests.length then
        some { s with incoming := s.incoming ++ [data], replies := s.replies ++ [data] }
      else none
  | .event data =>
      if isAnswer data = false then some { s with incoming := s.incoming ++ [data] } else none

def run : Client → List Act → Option Client
  | s, [] => some s
  | s, act :: acts =>
      match s.step act with
      | none => none
      | some s => run s acts

def ledger (s : Client) : Ledger Request Bytes :=
  ⟨s.requests, s.replies, s.taken, s.pendingQueue, s.log⟩

/-- **Every resolved promise holds its own answer.** -/
def Correlated (s : Client) : Prop :=
  ∀ request data, (request, data) ∈ s.log → s.ledger.Answered request data

/-- No request goes out while the answer to one that timed out is still owed, and none times out
with another behind it. -/
def Prompt (s : Client) : Act → Prop
  | .request _ => s.connected = true → s.ledger.Settled
  | .timeout i => i + 1 = s.pendingQueue.length
  | _ => True

def AllPrompt : Client → List Act → Prop
  | _, [] => True
  | s, act :: acts =>
      s.Prompt act ∧
        match s.step act with
        | none => True
        | some s' => AllPrompt s' acts

/-! ### The invariant -/

structure Inv (s : Client) : Prop where
  owed : s.incoming.filter isAnswer = s.replies.drop s.taken
  matched : s.ledger.Matched

variable {s : Client}

theorem inv_opened : Inv Client.opened :=
  ⟨rfl, ⟨ nil_prefix, Nat.zero_le _, Nat.zero_le _, fun _ _ h => nomatch h⟩⟩

theorem onmessage_answer {data : Bytes} (s : Client) (h : isAnswer data = true) :
    (s.onmessage data).ledger = s.ledger.take data := by
  rw [Client.onmessage, h, Client.ledger, Client.ledger, Ledger.take]
  rcases hqueue : s.pendingQueue with _ | ⟨request, rest⟩
  · exact congrArg _ (append_nil _).symm
  · rfl

theorem Inv.message (h : Inv s) {data : Bytes} {rest : List Bytes}
    (hincoming : s.incoming = data :: rest) :
    Inv ({ s with incoming := rest }.onmessage data) := by
  have howed := h.owed
  rw [hincoming] at howed
  rcases hanswer : isAnswer data with _ | _
  · rw [filter_cons_of_neg (by rw [hanswer]; exact Bool.false_ne_true)] at howed
    rw [Client.onmessage, hanswer]
    exact ⟨howed, h.matched⟩
  · rw [filter_cons_of_pos hanswer] at howed
    have hnext : s.replies[s.taken]? = some data := by
      rw [← head?_drop, ← howed]
      rfl
    have hledger := onmessage_answer { s with incoming := rest } hanswer
    refine ⟨?_, ?_⟩
    · have hleft : (({ s with incoming := rest } : Client).onmessage data).incoming = rest := by
        rw [Client.onmessage, hanswer]
        split <;> rfl
      have hreplies := congrArg Ledger.replies hledger
      have htaken := congrArg Ledger.taken hledger
      change (Client.onmessage _ data).replies = s.replies at hreplies
      change (Client.onmessage _ data).taken = s.taken + 1 at htaken
      rw [hleft, hreplies, htaken, ← drop_drop, ← howed, drop_one, tail_cons]
    · rw [hledger]
      exact Ledger.Matched.take h.matched hnext

variable {s' : Client}

theorem Inv.step (h : Inv s) {act : Act} (hprompt : s.Prompt act)
    (hstep : s.step act = some s') : Inv s' := by
  cases act with
  | request frame =>
    cases hstep
    rw [Client.request]
    split
    · exact h
    · rename_i hconnected
      exact ⟨h.owed, h.matched.send (hprompt (Bool.not_eq_false _ ▸ hconnected)) _⟩
  | timeout i =>
    obtain ⟨-, ⟨⟩⟩ := Option.ite_none_right_eq_some.mp hstep
    -- the last of the queue leaves
    have hlast : s.pendingQueue.eraseIdx i = s.pendingQueue.dropLast := by
      rw [← eraseIdx_length_sub_one, ← show i + 1 = s.pendingQueue.length from hprompt,
        Nat.add_sub_cancel]
    rw [hlast]
    exact ⟨h.owed, h.matched.leave ( dropLast_prefix _)⟩
  | message =>
    rw [Client.step] at hstep
    split at hstep
    · cases hstep
    · rename_i hincoming
      cases hstep
      exact h.message hincoming
  | close =>
    cases hstep
    exact ⟨h.owed, h.matched.leave nil_prefix⟩
  | reply data =>
    obtain ⟨hguard, ⟨⟩⟩ := Option.ite_none_right_eq_some.mp hstep
    have htaken : s.taken ≤ s.replies.length := h.matched.taken
    refine ⟨?_, h.matched.reply hguard.2 data⟩
    dsimp only
    rw [filter_append, h.owed, drop_append_of_le_length htaken,
      filter_cons_of_pos hguard.1, filter_nil]
  | event data =>
    obtain ⟨hevent, ⟨⟩⟩ := Option.ite_none_right_eq_some.mp hstep
    refine ⟨?_, h.matched⟩
    dsimp only
    rw [filter_append, h.owed,
      filter_cons_of_neg (by rw [hevent]; exact Bool.false_ne_true), filter_nil,
      append_nil]

theorem Inv.run {acts : List Act} {s : Client} (h : Inv s) (hprompt : AllPrompt s acts)
    (hrun : run s acts = some s') : Inv s' := by
  induction acts generalizing s with
  | nil =>
    cases hrun
    exact h
  | cons act acts ih =>
    rw [Client.run] at hrun
    rw [AllPrompt] at hprompt
    obtain ⟨hact, hacts⟩ := hprompt
    rcases hstep : s.step act with _ | t
    · rw [hstep] at hrun
      cases hrun
    · rw [hstep] at hrun hacts
      exact ih (h.step hact hstep) hacts hrun

end Client
end Browser

/-! ## Both clients -/

/-- **After timeouts each client still gives a response to its own request, as long as nothing
is sent while a response to a request that timed out is owed and, in the browser, the request
that times out is the last of the queue.** -/
theorem correlated_after_timeouts (accept : Nat) :
    (∀ (acts : List KeepAlive.Act) (s : KeepAlive.Client),
      KeepAlive.Client.run (.opened accept) acts = some s →
      KeepAlive.Client.AllPrompt (.opened accept) acts → s.Correlated) ∧
    (∀ (acts : List Browser.Act) (s : Browser.Client),
      Browser.Client.run .opened acts = some s →
      Browser.Client.AllPrompt .opened acts → s.Correlated) := by
  refine ⟨fun acts s hrun hprompt => ?_, fun acts s hrun hprompt => ?_⟩
  · exact ((KeepAlive.Client.inv_opened accept).run hprompt hrun).correlated
  · exact (Browser.Client.inv_opened.run hprompt hrun).matched.log

open BunClient (statusFrame saveFrame statusReply okReply)

/-- A request that timed out is answered before the next one is sent. -/
def answeredInTime : List KeepAlive.Act :=
  [.send statusFrame 5, .timeout 0, .reply statusReply, .data 7, .send saveFrame 5, .reply okReply,
    .data 5]

def answeredInTimeBrowser : List Browser.Act :=
  [.request statusFrame.bytes, .timeout 0, .reply statusReply.bytes, .message,
    .request saveFrame.bytes, .reply okReply.bytes, .message]

theorem answered_in_time_correlated :
    (∃ s, KeepAlive.Client.run (.opened 2) answeredInTime = some s ∧
      s.log = [(⟨1, .send saveFrame, .caller⟩, okReply)] ∧ s.Correlated) ∧
    (∃ s, Browser.Client.run .opened answeredInTimeBrowser = some s ∧
      s.log = [(⟨1, saveFrame.bytes⟩, okReply.bytes)] ∧ s.Correlated) := by
  have hprompt : KeepAlive.Client.AllPrompt (.opened 2) answeredInTime :=
    ⟨fun _ => rfl, trivial, trivial, trivial, fun _ => rfl, trivial, trivial, trivial⟩
  have hbrowser : Browser.Client.AllPrompt .opened answeredInTimeBrowser :=
    ⟨fun _ => rfl, rfl, trivial, trivial, fun _ => rfl, trivial, trivial, trivial⟩
  refine ⟨⟨_, rfl, by decide, ?_⟩, ⟨_, rfl, by decide, ?_⟩⟩
  · exact (correlated_after_timeouts 2).1 answeredInTime _ rfl hprompt
  · exact (correlated_after_timeouts 2).2 answeredInTimeBrowser _ rfl hbrowser

/-- The next request is sent before the response to the one that timed out is there. -/
def lateReply : List KeepAlive.Act :=
  [.send statusFrame 5, .timeout 0, .send saveFrame 5, .reply statusReply, .data 7]

def lateReplyBrowser : List Browser.Act :=
  [.request statusFrame.bytes, .timeout 0, .request saveFrame.bytes, .reply statusReply.bytes,
    .message]

theorem late_reply_resolves_another :
    (∃ s, KeepAlive.Client.run (.opened 2) lateReply = some s ∧
      (⟨1, .send saveFrame, .caller⟩, statusReply) ∈ s.log ∧ ¬ s.Correlated) ∧
    (∃ s, Browser.Client.run .opened lateReplyBrowser = some s ∧
      (⟨1, saveFrame.bytes⟩, statusReply.bytes) ∈ s.log ∧ ¬ s.Correlated) := by
  refine ⟨⟨_, rfl, by decide, fun hcorrelated => ?_⟩, ⟨_, rfl, by decide, fun hcorrelated => ?_⟩⟩
  · obtain ⟨i, hrequest, -, hreply⟩ :=
      hcorrelated ⟨1, .send saveFrame, .caller⟩ statusReply (by decide)
    -- the only response there is answers the first request
    rcases i with _ | i
    · exact absurd hrequest (by decide)
    · cases hreply
  · obtain ⟨i, hrequest, hreply⟩ :=
      hcorrelated ⟨1, saveFrame.bytes⟩ statusReply.bytes (by decide)
    rcases i with _ | i
    · exact absurd hrequest (by decide)
    · cases hreply

end WormDB.TimedOutReplies
