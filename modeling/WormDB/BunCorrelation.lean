import WormDB.BunClient

/-! # Which response a request gets

A promise that is resolved should hold the response to its own command on its own connection
(`Correlated`).  A chunk of a socket that has been given up goes into the buffer of the
connection that replaced it, and a drain of such a socket takes the other's backlog: then it
does not hold (`late_chunk_resolves_another`).  As long as these callbacks are of the current
socket it holds in every run (`correlated_of_own_sockets`).

The invariant is about the current connection alone (`Live`): the frames put on it are those of
the answered and of the pending requests, in order, and what is on the way back are the
responses to the pending ones. -/
namespace WormDB.BunClient
open List ByteCodec FrameStream ClientWire

def Call.frame (call : Call) : Frame := call.command.frame.frame

theorem Call.bytes_eq (call : Call) : call.bytes = framing.encode call.frame := rfl

/-! ## What a connection answers -/

/-- The frame is the response to the request: the server read the request's frame as its `i`th
and answered it with its `i`th response. -/
def Answered (conn : Conn) (call : Call) (frame : Frame) : Prop :=
  ∃ i : Nat, conn.requests[i]? = some call ∧ conn.frames[i]? = some call.frame ∧
    conn.replies[i]? = some frame

/-- **Every resolved promise holds its own response.** -/
def Correlated (s : State) : Prop :=
  ∀ call frame, (call, frame) ∈ s.log → ∃ k, Answered (s.conns k) call frame

/-- A connection only gets more. -/
structure Conn.Grows (conn conn' : Conn) : Prop where
  received : conn.received <+: conn'.received
  requests : conn.requests <+: conn'.requests
  replies : conn.replies <+: conn'.replies

theorem Conn.Grows.refl (conn : Conn) : conn.Grows conn :=
  ⟨prefix_refl _, prefix_refl _, prefix_refl _⟩

theorem Conn.frames_append (received more : Bytes) (requests : List Call) (replies : List Frame)
    (stream : Bytes) (closed : Bool) :
    (Conn.mk received requests replies stream closed).frames <+:
      (Conn.mk (received ++ more) requests replies stream closed).frames := by
  rw [Conn.frames, Conn.frames]
  dsimp only
  by_cases hmagic : received.take 2 = wireMagic
  · have hlen : 2 ≤ received.length := by
      have hlen := congrArg List.length hmagic
      rw [length_take] at hlen
      change min 2 received.length = 2 at hlen
      omega
    rw [if_pos hmagic, take_append_of_le_length hlen, if_pos hmagic,
      drop_append_of_le_length hlen]
    exact Framing.split_append _ _
  · rw [if_neg hmagic]
    exact nil_prefix

variable {conn conn' : Conn}

theorem Conn.Grows.frames (h : conn.Grows conn') : conn.frames <+: conn'.frames := by
  obtain ⟨more, hmore⟩ := h.received
  have happend := Conn.frames_append conn.received more conn'.requests conn'.replies conn'.stream
    conn'.closed
  rw [hmore] at happend
  exact happend

theorem getElem?_of_prefix {α : Type} {xs ys : List α} (h : xs <+: ys) {i : Nat} {x : α}
    (hx : xs[i]? = some x) : ys[i]? = some x := by
  obtain ⟨zs, rfl⟩ := h
  rw [getElem?_append_left (List.getElem?_eq_some_iff.mp hx).1]
  exact hx

theorem Answered.mono (h : conn.Grows conn') {call : Call} {frame : Frame}
    (ha : Answered conn call frame) : Answered conn' call frame := by
  obtain ⟨i, hrequest, hframe, hreply⟩ := ha
  exact ⟨i, getElem?_of_prefix h.requests hrequest, getElem?_of_prefix h.frames hframe,
    getElem?_of_prefix h.replies hreply⟩

variable {s s' : State}

theorem Correlated.mono (h : Correlated s) (hlog : s'.log = s.log)
    (hgrows : ∀ k, (s.conns k).Grows (s'.conns k)) : Correlated s' := by
  intro call frame hmem
  rw [hlog] at hmem
  obtain ⟨k, hk⟩ := h call frame hmem
  exact ⟨k, hk.mono (hgrows k)⟩

/-! ## The current connection -/

def isReply (frame : Frame) : Bool := !isEventCode frame.code

/-- What holds of the connection, the requests that are pending on it, the buffer of what came
back and the backlog of what goes out. -/
structure Live (conn : Conn) (pending : List Call) (inbound : Bytes) (backlog : List Bytes) :
    Prop where
  isOpen : conn.closed = false
  sent : ∃ n, conn.received ++ backlog.flatten =
    wireMagic.take n ++ framing.encodeAll (conn.requests.map Call.frame)
  owed : ∃ done outs, conn.requests = done ++ pending ∧ done.length ≤ conn.replies.length ∧
    inbound ++ conn.stream = framing.encodeAll outs ∧
    outs.filter isReply = conn.replies.drop done.length
  replied : conn.replies.length ≤ conn.frames.length

/-- No command has the code of the handshake. -/
theorem CommandCode.toByte_ne (code : CommandCode) : code.toByte ≠ 0x57 := by
  cases code <;> decide

theorem encodeAll_ne_magic (calls : List Call) (b : UInt8) (rest : Bytes)
    (h : framing.encodeAll (calls.map Call.frame) = b :: rest) : b ≠ 0x57 := by
  rcases calls with _ | ⟨call, calls⟩
  · cases h
  · rw [map_cons, Framing.encodeAll, flatMap_cons] at h
    have hhead : call.frame.code = b := (cons.inj h).1
    rw [← hhead]
    exact CommandCode.toByte_ne _

/-- The frames the server has read are the first of those put on the connection. -/
theorem frames_isPrefix {n : Nat} {rest : Bytes} (hsent : conn.received ++ rest =
      wireMagic.take n ++ framing.encodeAll (conn.requests.map Call.frame)) :
    conn.frames <+: conn.requests.map Call.frame := by
  rw [Conn.frames]
  by_cases hmagic : conn.received.take 2 = wireMagic
  · rw [if_pos hmagic]
    obtain ⟨tail, htail⟩ : ∃ tail, conn.received = 0x57 :: 0x57 :: tail := by
      rcases hreceived : conn.received with _ | ⟨a, _ | ⟨b, tail⟩⟩
      · rw [hreceived] at hmagic
        cases hmagic
      · rw [hreceived] at hmagic
        cases hmagic
      · rw [hreceived] at hmagic
        obtain ⟨rfl, hb⟩ := cons.inj hmagic
        obtain ⟨rfl, -⟩ := cons.inj hb
        exact ⟨tail, rfl⟩
    rw [htail] at hsent ⊢
    -- a handshake that was cut off would have a command's code in its place
    rcases n with _ | _ | n
    · exact absurd rfl (encodeAll_ne_magic _ _ _ hsent.symm)
    · exact absurd rfl (encodeAll_ne_magic _ _ _ (cons.inj hsent).2.symm)
    · have hframes : tail ++ rest = framing.encodeAll (conn.requests.map Call.frame) := by
        have hrest := (cons.inj (cons.inj hsent).2).2
        simpa only [List.append_eq, take_nil, nil_append] using hrest
      obtain ⟨zs, hzs, -⟩ := Framing.split_isPrefix hframes
      exact ⟨zs, hzs.symm⟩
  · rw [if_neg hmagic]
    exact nil_prefix

variable {pending : List Call} {inbound : Bytes} {backlog : List Bytes}

theorem Live.frames_isPrefix (h : Live conn pending inbound backlog) :
    conn.frames <+: conn.requests.map Call.frame := by
  obtain ⟨n, hsent⟩ := h.sent
  exact BunClient.frames_isPrefix hsent

variable {taken : Bytes} {backlog' : List Bytes}

section
variable (h : Live conn pending inbound backlog)
include h

/-- A request's frame that is put on the connection, as far as the socket takes it. -/
theorem Live.commit (call : Call)
    (htaken : taken ++ backlog'.flatten = backlog.flatten ++ call.bytes) :
    Live { conn with received := conn.received ++ taken, requests := conn.requests ++ [call] }
      (pending ++ [call]) inbound backlog' := by
  refine ⟨h.isOpen, ?_, ?_, ?_⟩
  · obtain ⟨n, hsent⟩ := h.sent
    refine ⟨n, ?_⟩
    dsimp only
    rw [append_assoc, htaken, ← append_assoc, hsent, map_append,
      Framing.encodeAll_append, append_assoc, map_singleton]
    rw [call.bytes_eq, Framing.encodeAll, Framing.encodeAll, flatMap_singleton]
  · obtain ⟨done, outs, hrequests, hle, hstream, hreplies⟩ := h.owed
    refine ⟨done, outs, ?_, hle, hstream, hreplies⟩
    dsimp only
    rw [hrequests, append_assoc]
  · have hgrows : conn.Grows { conn with
        received := conn.received ++ taken, requests := conn.requests ++ [call] } :=
      ⟨prefix_append _ _, prefix_append _ _, prefix_refl _⟩
    exact Nat.le_trans h.replied hgrows.frames.length_le

/-- A backlog that is written out. -/
theorem Live.flushed (htaken : taken ++ backlog'.flatten = backlog.flatten) :
    Live { conn with received := conn.received ++ taken } pending inbound backlog' := by
  refine ⟨h.isOpen, ?_, h.owed, ?_⟩
  · obtain ⟨n, hsent⟩ := h.sent
    refine ⟨n, ?_⟩
    dsimp only
    rw [append_assoc, htaken, hsent]
  · have hgrows : conn.Grows { conn with received := conn.received ++ taken } :=
      ⟨prefix_append _ _, prefix_refl _, prefix_refl _⟩
    exact Nat.le_trans h.replied hgrows.frames.length_le

theorem Live.reply {frame : Frame} (hframe : isEventCode frame.code = false)
    (hlt : conn.replies.length < conn.frames.length) :
    Live { conn with stream := conn.stream ++ frame.bytes, replies := conn.replies ++ [frame] }
      pending inbound backlog := by
  refine ⟨h.isOpen, h.sent, ?_, ?_⟩
  · obtain ⟨done, outs, hrequests, hle, hstream, hreplies⟩ := h.owed
    refine ⟨done, outs ++ [frame], hrequests, ?_, ?_, ?_⟩
    · dsimp only
      rw [length_append]
      exact Nat.le_trans hle (Nat.le_add_right _ _)
    · dsimp only
      rw [← append_assoc, hstream, Framing.encodeAll_append, Framing.encodeAll,
        Framing.encodeAll, flatMap_singleton]
      rfl
    · have hreply : isReply frame = true := by rw [isReply, hframe]; rfl
      rw [filter_append, hreplies, drop_append_of_le_length hle,
        filter_cons_of_pos hreply, filter_nil]
  · dsimp only
    rw [length_append]
    exact hlt

theorem Live.event {frame : Frame} (hframe : isEventCode frame.code = true) :
    Live { conn with stream := conn.stream ++ frame.bytes } pending inbound backlog := by
  refine ⟨h.isOpen, h.sent, ?_, h.replied⟩
  obtain ⟨done, outs, hrequests, hle, hstream, hreplies⟩ := h.owed
  refine ⟨done, outs ++ [frame], hrequests, hle, ?_, ?_⟩
  · dsimp only
    rw [← append_assoc, hstream, Framing.encodeAll_append, Framing.encodeAll,
      Framing.encodeAll, flatMap_singleton]
    rfl
  · have hevent : ¬ isReply frame = true := by rw [isReply, hframe]; exact Bool.false_ne_true
    rw [filter_append, hreplies, filter_cons_of_neg hevent, filter_nil,
      append_nil]

end

/-- The connection a dial opens. -/
theorem Live.opened (n : Nat) :
    Live { Conn.fresh with received := wireMagic.take n } [] [] [] := by
  refine ⟨rfl, ⟨n, rfl⟩, ⟨[], [], rfl, Nat.le_refl _, rfl, rfl⟩, Nat.zero_le _⟩

/-- The next response is that of the first pending request. -/
theorem Live.answered
    (h : Live conn pending inbound backlog) {done rest : List Call} {frame : Frame}
    {frames : List Frame} (hrequests : conn.requests = done ++ rest)
    (hreplies : frame :: frames = conn.replies.drop done.length) :
    ∃ call calls, rest = call :: calls ∧ Answered conn call frame := by
  have hreply : conn.replies[done.length]? = some frame := by
    rw [← head?_drop, ← hreplies]
    rfl
  have hlt : done.length < conn.frames.length :=
    Nat.lt_of_lt_of_le (List.getElem?_eq_some_iff.mp hreply).1 h.replied
  rcases rest with _ | ⟨call, calls⟩
  · -- a response with no request would answer a frame that was never sent
    have hle := h.frames_isPrefix.length_le
    rw [hrequests, append_nil, length_map] at hle
    omega
  · have hcall : conn.requests[done.length]? = some call := by
      rw [hrequests, getElem?_append_right (Nat.le_refl _), Nat.sub_self]
      rfl
    refine ⟨call, calls, rfl, done.length, hcall, ?_, hreply⟩
    have hread := getElem?_eq_getElem hlt
    have hmap := getElem?_of_prefix h.frames_isPrefix hread
    rw [getElem?_map, hcall] at hmap
    rw [hread, ← hmap]
    rfl

/-! ## The invariant -/

/-- The part of the state the invariant is about. -/
structure Core where
  socket : Option SocketId
  connecting : Bool
  reconnectTimer : Bool
  inbound : Bytes
  writeBacklog : List Bytes
  calls : List (Call × SocketId)
  conns : SocketId → Conn
  nextConn : Nat

def State.core (s : State) : Core :=
  ⟨s.socket, s.connecting, s.reconnectTimer, s.inbound, s.writeBacklog, s.calls, s.conns, s.nextConn⟩

structure CoreLinked (c : Core) (pending : List Call) (log : List (Call × Frame)) : Prop where
  offline : c.socket = none → pending = [] ∧ c.writeBacklog = []
  dialing : c.connecting = true → c.socket = none ∧ c.reconnectTimer = false
  waiting : c.reconnectTimer = true → c.socket = none
  holds : ∀ call k, (call, k) ∈ c.calls → c.socket = some k ∨ (c.conns k).closed = true
  live : ∀ k, c.socket = some k → Live (c.conns k) pending c.inbound c.writeBacklog
  known : ∀ k, c.socket = some k → k < c.nextConn
  unopened : ∀ k, c.nextConn ≤ k → c.conns k = Conn.fresh
  log : ∀ call frame, (call, frame) ∈ log → ∃ k, Answered (c.conns k) call frame

def State.pendingCalls (s : State) : List Call := s.pendingQueue.map Pending.call

def Linked (s : State) : Prop := CoreLinked s.core s.pendingCalls s.log

/-- A client with a socket is ready. -/
def Online (s : State) : Prop := ∀ k, s.socket = some k → s.stateValue = .ready

theorem Linked.correlated (h : Linked s) : Correlated s := h.log

theorem Linked.congr (h : Linked s) (hcore : s'.core = s.core)
    (hpending : s'.pendingQueue = s.pendingQueue) (hlog : s'.log = s.log) : Linked s' := by
  rw [Linked, State.pendingCalls, hcore, hpending, hlog]
  exact h

theorem linked_init : Linked State.init := by
  refine ⟨fun _ => ⟨rfl, rfl⟩, fun h => ?_, fun h => ?_, fun _ _ h => ?_, fun _ h => ?_,
    fun _ h => ?_, fun _ _ => rfl, fun _ _ h => ?_⟩
  all_goals cases h

/-- What a lost connection leaves. -/
theorem Linked.disconnected (h : Linked s) (hsocket : s'.socket = none)
    (hpending : s'.pendingQueue = []) (hbacklog : s'.writeBacklog = [])
    (htimer : s'.connecting = true → s'.reconnectTimer = false) (hlog : s'.log = s.log)
    (hconns : ∀ k, (s.conns k).Grows (s'.conns k))
    (hunopened : ∀ k, s'.nextConn ≤ k → s'.conns k = Conn.fresh)
    (hcalls : ∀ call k, (call, k) ∈ s'.calls → (s'.conns k).closed = true) : Linked s' where
  offline _ := ⟨by rw [State.pendingCalls, hpending]; rfl, hbacklog⟩
  dialing hdial := ⟨hsocket, htimer hdial⟩
  waiting _ := hsocket
  holds call k hmem := .inr (hcalls call k hmem)
  live k hk := by cases hsocket.symm.trans hk
  known k hk := by cases hsocket.symm.trans hk
  unopened := hunopened
  log := h.correlated.mono hlog hconns

variable {k : SocketId}

/-- **One connection changes, and with it what the client holds of it.** -/
theorem Linked.update (h : Linked s) (hk : k < s.nextConn)
    (hcore : s'.core = { s.core with conns := Function.update s.conns k conn, inbound := inbound,
                                     writeBacklog := backlog })
    (hgrows : (s.conns k).Grows conn) (hclosed : conn.closed = (s.conns k).closed)
    (hnone : s.socket = none → s'.pendingCalls = [] ∧ backlog = [])
    (hother : ∀ k', s.socket = some k' → k' ≠ k →
      s'.pendingCalls = s.pendingCalls ∧ inbound = s.inbound ∧ backlog = s.writeBacklog)
    (hself : s.socket = some k → Live conn s'.pendingCalls inbound backlog)
    (hlog : ∀ call frame, (call, frame) ∈ s'.log →
      (call, frame) ∈ s.log ∨ Answered conn call frame) : Linked s' := by
  have hconn : Function.update s.conns k conn k = conn := Function.update_self ..
  have hconns : ∀ k', k' ≠ k → Function.update s.conns k conn k' = s.conns k' :=
    fun k' hne => Function.update_of_ne hne ..
  rw [Linked, hcore]
  refine ⟨hnone, h.dialing, h.waiting, fun call k' hmem => ?_, fun k' hk' => ?_, h.known,
    fun k' hk' => ?_, fun call frame hmem => ?_⟩
  · rcases h.holds call k' hmem with hsocket | hold
    · exact .inl hsocket
    · refine .inr ?_
      by_cases heq : k' = k
      · subst heq
        exact (congrArg Conn.closed hconn).trans (hclosed.trans hold)
      · exact (congrArg Conn.closed (hconns k' heq)).trans hold
  · dsimp only
    by_cases heq : k' = k
    · subst heq
      rw [hconn]
      exact hself hk'
    · obtain ⟨hpending, rfl, rfl⟩ := hother k' hk' heq
      rw [hconns k' heq, hpending]
      exact h.live k' hk'
  · have hne : k' ≠ k := fun heq => absurd hk (Nat.not_lt.mpr (heq ▸ hk'))
    exact (hconns k' hne).trans (h.unopened k' hk')
  · rcases hlog call frame hmem with hold | hnew
    · obtain ⟨k', hk'⟩ := h.log call frame hold
      by_cases heq : k' = k
      · subst heq
        refine ⟨k', ?_⟩
        dsimp only
        rw [hconn]
        exact hk'.mono hgrows
      · refine ⟨k', ?_⟩
        dsimp only
        rw [hconns k' heq]
        exact hk'
    · refine ⟨k, ?_⟩
      dsimp only
      rw [hconn]
      exact hnew

/-- A connection that changes while the client stays as it is. -/
theorem Linked.atConn (h : Linked s) (hk : k < s.nextConn)
    (f : Conn → Conn) (hgrows : (s.conns k).Grows (f (s.conns k)))
    (hclosed : (f (s.conns k)).closed = (s.conns k).closed)
    (hlive : s.socket = some k → Live (s.conns k) s.pendingCalls s.inbound s.writeBacklog →
      Live (f (s.conns k)) s.pendingCalls s.inbound s.writeBacklog) : Linked (s.atConn k f) := by
  refine h.update hk rfl hgrows hclosed h.offline (fun _ _ _ => ⟨rfl, rfl, rfl⟩) ?_
    (fun _ _ => .inl)
  exact fun hsocket => hlive hsocket (h.live k hsocket)

/-! ## Steps that keep it -/

section
variable {s : State} {cfg : ReconnectOptions}

theorem socket_none (honline : Online s)
    (hne : ∀ k, s.socket = some k → s.stateValue ≠ .ready) : s.socket = none := by
  rcases hsocket : s.socket with _ | k
  · rfl
  · exact absurd (honline k hsocket) (hne k hsocket)

theorem Linked.openSocket (h : Linked s) (hsocket : s.socket = none) (htimer : s.reconnectTimer = false) :
    Linked s.openSocket := by
  rw [State.openSocket]
  split
  · exact h
  · exact ⟨h.offline, fun _ => ⟨hsocket, htimer⟩, h.waiting, h.holds, h.live, h.known,
      h.unopened, h.log⟩

theorem Linked.ensureReady (h : Linked s) (honline : Online s) (who : Option Call) : Linked (s.ensureReady who) := by
  rw [State.ensureReady]
  split
  · exact h.congr rfl rfl rfl
  split
  · rename_i k hsocket hready
    refine ⟨h.offline, h.dialing, h.waiting, ?_, h.live, h.known, h.unopened, h.log⟩
    intro call k' hmem
    rcases mem_append.mp hmem with hmem | hmem
    · exact h.holds call k' hmem
    · obtain ⟨_, -, heq⟩ := mem_map.mp hmem
      cases heq
      exact .inl hsocket
  · rename_i hnot
    have hsocket := socket_none honline (fun k hk hready => hnot k hk hready)
    dsimp only
    split
    · rename_i hidle
      have hnamed : Linked { s with stateValue := if s.stateValue = WormDBState.idle then
          WormDBState.connecting else s.stateValue } := h.congr rfl rfl rfl
      exact (hnamed.openSocket hsocket hidle.2).congr rfl rfl rfl
    · exact h.congr rfl rfl rfl

/-- What a disconnect does to a state. -/
structure Disconnected (s s' : State) : Prop where
  socket : s'.socket = none
  pending : s'.pendingQueue = []
  backlog : s'.writeBacklog = []
  connecting : s'.connecting = s.connecting
  timer : s'.connecting = true → s'.reconnectTimer = s.reconnectTimer
  log : s'.log = s.log
  conns : s'.conns = s.conns
  calls : s'.calls = s.calls
  nextConn : s'.nextConn = s.nextConn

theorem handleDisconnect_spec (s : State) (cfg : ReconnectOptions) :
    Disconnected s (s.handleDisconnect cfg) := by
  rw [State.handleDisconnect]
  split
  · exact ⟨rfl, rfl, rfl, rfl, fun _ => rfl, rfl, rfl, rfl, rfl⟩
  split
  · exact ⟨rfl, rfl, rfl, rfl, fun _ => rfl, rfl, rfl, rfl, rfl⟩
  rw [State.scheduleReconnect]
  split
  · exact ⟨rfl, rfl, rfl, rfl, fun _ => rfl, rfl, rfl, rfl, rfl⟩
  rename_i hfree
  split
  · exact ⟨rfl, rfl, rfl, rfl, fun _ => rfl, rfl, rfl, rfl, rfl⟩
  · refine ⟨rfl, rfl, rfl, rfl, fun hdial => ?_, rfl, rfl, rfl, rfl⟩
    exact absurd (.inr (.inl hdial)) hfree

theorem endSocket_grows (s : State) (k k' : SocketId) :
    (s.conns k').Grows ((s.endSocket k).conns k') := by
  by_cases heq : k' = k
  · subst heq
    rw [show (s.endSocket k').conns k' = { s.conns k' with closed := true } from
      Function.update_self ..]
    exact ⟨prefix_refl _, prefix_refl _, prefix_refl _⟩
  · rw [show (s.endSocket k).conns k' = s.conns k' from Function.update_of_ne heq ..]
    exact Conn.Grows.refl _

variable {k : SocketId}

theorem endSocket_unopened (hk : k < s.nextConn)
    (h : ∀ k', s.nextConn ≤ k' → s.conns k' = Conn.fresh) (k' : SocketId) (hk' : s.nextConn ≤ k') :
    (s.endSocket k).conns k' = Conn.fresh := by
  have hne : k' ≠ k := fun heq => absurd hk (Nat.not_lt.mpr (heq ▸ hk'))
  exact (Function.update_of_ne hne ..).trans (h k' hk')

/-- A callback or a timer that ends in a disconnect, when no promise waits. -/
theorem Linked.handleDisconnect {t : State} (h : Linked s) (hcalls : t.calls = [])
    (htimer : t.connecting = true → t.reconnectTimer = false) (hlog : t.log = s.log)
    (hconns : ∀ k, (s.conns k).Grows (t.conns k))
    (hunopened : ∀ k, t.nextConn ≤ k → t.conns k = Conn.fresh) :
    Linked (t.handleDisconnect cfg) := by
  have hspec := handleDisconnect_spec t cfg
  refine h.disconnected hspec.socket hspec.pending hspec.backlog ?_ (hspec.log.trans hlog) ?_ ?_ ?_
  · intro hdial
    rw [hspec.timer hdial]
    exact htimer (hspec.connecting.symm.trans hdial)
  · intro k
    rw [hspec.conns]
    exact hconns k
  · rw [hspec.conns, hspec.nextConn]
    exact hunopened
  · intro call k hmem
    rw [hspec.calls, hcalls] at hmem
    cases hmem

theorem Linked.failConnection (h : Linked s) (hcalls : s.calls = []) : Linked (s.failConnection cfg) := by
  rw [State.failConnection]
  split
  · rename_i hsocket
    have hoff := h.offline hsocket
    refine h.disconnected hsocket rfl hoff.2 (fun hdial => (h.dialing hdial).2) rfl
      (fun _ => Conn.Grows.refl _) h.unopened ?_
    intro call k hmem
    rw [show s.rejectAllPending.calls = s.calls from rfl, hcalls] at hmem
    cases hmem
  · rename_i k hsocket
    refine h.handleDisconnect hcalls (fun hdial => (h.dialing hdial).2) rfl ?_ ?_
    · exact fun k' => endSocket_grows _ k k'
    · exact endSocket_unopened (h.known k hsocket) h.unopened

theorem Linked.close (h : Linked s) : Linked s.close := by
  rw [State.close]
  split
  · rename_i hsocket
    refine h.disconnected hsocket rfl rfl (fun _ => rfl) rfl (fun _ => Conn.Grows.refl _)
      h.unopened ?_
    intro call k hmem
    rcases h.holds call k hmem with hk | hclosed
    · cases hsocket.symm.trans hk
    · exact hclosed
  · rename_i k hsocket
    refine h.disconnected rfl rfl rfl (fun _ => rfl) rfl (fun k' => endSocket_grows s k k')
      (endSocket_unopened (h.known k hsocket) h.unopened) ?_
    intro call k' hmem
    -- the socket a request holds was the current one and is ended with it, or had been closed
    by_cases heq : k' = k
    · subst heq
      have hself : (s.endSocket k').conns k' = { s.conns k' with closed := true } :=
        Function.update_self ..
      exact congrArg Conn.closed hself
    · have hother : (s.endSocket k).conns k' = s.conns k' := Function.update_of_ne heq ..
      refine (congrArg Conn.closed hother).trans ?_
      rcases h.holds call k' hmem with hk | hclosed
      · exact absurd (Option.some.inj (hk.symm.trans hsocket)) heq
      · exact hclosed

/-! ## Writing -/

variable {backlog : List Bytes}

/-- A request's frame that goes onto the current connection. -/
theorem Linked.commit (h : Linked s) (hsocket : s.socket = some k) (call : Call)
    (htaken : taken ++ backlog.flatten = s.writeBacklog.flatten ++ call.bytes) :
    Linked { (s.enqueuePending call).commit k call taken with writeBacklog := backlog } := by
  refine h.update (h.known k hsocket) rfl ?_ rfl ?_ ?_ ?_ (fun _ _ => .inl)
  · exact ⟨prefix_append _ _, prefix_append _ _, prefix_refl _⟩
  · intro hnone
    cases hsocket.symm.trans hnone
  · intro k' hk' hne
    exact absurd (Option.some.inj (hk'.symm.trans hsocket)) hne
  · intro _
    have hpending : ({ (s.enqueuePending call).commit k call taken with
        writeBacklog := backlog } : State).pendingCalls = s.pendingCalls ++ [call] :=
      map_append
    rw [hpending]
    exact (h.live k hsocket).commit call htaken

variable {call : Call} {accept : Nat} {s' : State}

/-- A write that the socket or the backlog takes. -/
theorem Linked.writeOrQueue (h : Linked s) {current : SocketId} (hsocket : s.socket = some current)
    (hk : s.writeBacklog = [] → (s.conns k).closed = false → k = current)
    (hwrite : (s.enqueuePending call).writeOrQueue k call accept = some s') : Linked s' := by
  rw [State.writeOrQueue] at hwrite
  split at hwrite
  · have htaken : [] ++ (s.writeBacklog ++ [call.bytes]).flatten =
        s.writeBacklog.flatten ++ call.bytes := by
      rw [nil_append, flatten_append, flatten_singleton]
    split at hwrite
    · rename_i hnone
      cases hsocket.symm.trans hnone
    · rename_i k' hk'
      cases hsocket.symm.trans hk'
      cases hwrite
      exact h.commit hsocket call htaken
  · rename_i hempty
    have hbacklog : s.writeBacklog = [] :=
      length_eq_zero_iff.mp (Nat.eq_zero_of_not_pos hempty)
    split at hwrite
    · cases hwrite
    rename_i hopen
    obtain rfl := hk hbacklog (Bool.eq_false_iff.mpr hopen)
    dsimp only at hwrite
    split at hwrite
    · have htaken : call.bytes.take (min accept call.bytes.length) ++
          (s.writeBacklog ++ [call.bytes.drop (min accept call.bytes.length)]).flatten =
          s.writeBacklog.flatten ++ call.bytes := by
        rw [hbacklog, nil_append, flatten_singleton, flatten_nil, nil_append,
          take_append_drop]
      cases hwrite
      exact h.commit hsocket call htaken
    · rename_i hall
      have htaken : call.bytes.take (min accept call.bytes.length) ++ s.writeBacklog.flatten =
          s.writeBacklog.flatten ++ call.bytes := by
        rw [take_of_length_le (Nat.not_lt.mp hall), hbacklog, flatten_nil,
          append_nil, nil_append]
      cases hwrite
      exact h.commit hsocket call htaken

theorem writeOrQueue_fails (hbacklog : s.writeBacklog = []) (hclosed : (s.conns k).closed = true) :
    (s.enqueuePending call).writeOrQueue k call accept = none := by
  have hempty : ¬ (s.enqueuePending call).writeBacklog.length > 0 := by
    rw [show (s.enqueuePending call).writeBacklog = [] from hbacklog]
    exact Nat.lt_irrefl 0
  rw [State.writeOrQueue, if_neg hempty]
  exact if_pos hclosed

/-- The turn of a request with its socket.  The socket is the current one or takes nothing. -/
theorem Linked.requestRaw (h : Linked s)
    (hk : s.socket = some k ∨ (s.conns k).closed = true) (accept : Nat) :
    Linked (s.requestRaw call k accept) := by
  rw [State.requestRaw]
  split
  · rename_i s' hwrite
    rcases hsocket : s.socket with _ | current
    · -- out of a connection there is no backlog to go into, and the socket takes nothing
      rcases hk with hk | hclosed
      · cases hsocket.symm.trans hk
      · cases (writeOrQueue_fails (h.offline hsocket).2 hclosed).symm.trans hwrite
    · refine h.writeOrQueue hsocket ?_ hwrite
      intro hbacklog hopen
      rcases hk with hk | hclosed
      · exact Option.some.inj (hk.symm.trans hsocket)
      · cases hopen.symm.trans hclosed
  · -- the entry that was put last is taken off again
    have hlast : (s.enqueuePending call).pendingQueue.getLast? = some ⟨call, s.generation⟩ :=
      getLast?_concat
    rw [hlast]
    have hdrop : (s.enqueuePending call).pendingQueue.dropLast = s.pendingQueue :=
      dropLast_concat
    exact h.congr rfl hdrop rfl

/-- A write leaves the rest of the client. -/
theorem writeOrQueue_frame (hwrite : s.writeOrQueue k call accept = some s') :
    s'.socket = s.socket ∧ s'.stateValue = s.stateValue := by
  rw [State.writeOrQueue] at hwrite
  split at hwrite
  · split at hwrite
    · cases hwrite
      exact ⟨rfl, rfl⟩
    · cases hwrite
      exact ⟨rfl, rfl⟩
  split at hwrite
  · cases hwrite
  dsimp only at hwrite
  split at hwrite
  · cases hwrite
    exact ⟨rfl, rfl⟩
  · cases hwrite
    exact ⟨rfl, rfl⟩

theorem closed_of_writeOrQueue
    (hwrite : s.writeOrQueue k call accept = none) : (s.conns k).closed = true := by
  rw [State.writeOrQueue] at hwrite
  split at hwrite
  · split at hwrite <;> cases hwrite
  split at hwrite
  · rename_i hclosed
    exact hclosed
  · dsimp only at hwrite
    split at hwrite <;> cases hwrite

theorem Linked.sendOpening (h : Linked s) (hsocket : s.socket = some k)
    (commands : List Command) (accepts : List Nat) :
    Linked (State.sendOpening k s commands accepts) := by
  induction commands generalizing s accepts with
  | nil => exact h
  | cons command commands ih =>
    have hnext : Linked { s with nextCall := s.nextCall + 1 } := h.congr rfl rfl rfl
    rw [State.sendOpening]
    split
    · rename_i hwrite
      -- the current socket is open
      have hclosed := closed_of_writeOrQueue hwrite
      have hopen : (s.conns k).closed = false := (h.live k hsocket).isOpen
      cases hopen.symm.trans hclosed
    · rename_i s' hwrite
      have hs' := hnext.writeOrQueue hsocket (fun _ _ => rfl) hwrite
      exact ih hs' ((writeOrQueue_frame hwrite).1.trans hsocket) accepts.tail

/-- A dial that opens. -/
theorem Linked.onOpen (h : Linked s) (hdial : s.connecting = true) (accepts : List Nat) :
    Linked (s.onOpen accepts) := by
  obtain ⟨hsocket, htimer⟩ := h.dialing hdial
  obtain ⟨hpending, -⟩ := h.offline hsocket
  -- the new connection, before anything is sent on it
  have hopened : Linked ({ s with
      generation := s.generation + 1, socket := some s.nextConn, inbound := [], writeBacklog := [],
      connecting := false, nextConn := s.nextConn + 1 }.atConn s.nextConn
        (fun _ => { Conn.fresh with received := wireMagic.take (accepts.headD 0) })) := by
    have hfresh := h.unopened s.nextConn (Nat.le_refl _)
    have hself : Function.update s.conns s.nextConn
        { Conn.fresh with received := wireMagic.take (accepts.headD 0) } s.nextConn =
        { Conn.fresh with received := wireMagic.take (accepts.headD 0) } := Function.update_self ..
    have hother : ∀ k, k ≠ s.nextConn → Function.update s.conns s.nextConn
        { Conn.fresh with received := wireMagic.take (accepts.headD 0) } k = s.conns k :=
      fun k hk => Function.update_of_ne hk ..
    refine ⟨fun hnone => ?_, fun hdial => ?_, fun hset => ?_, fun call k hmem => ?_, fun k hk => ?_,
      fun k hk => ?_, fun k hk => ?_, ?_⟩
    · cases hnone
    · cases hdial
    · cases htimer.symm.trans hset
    · rcases h.holds call k hmem with hk | hclosed
      · cases hsocket.symm.trans hk
      · have hne : k ≠ s.nextConn := by
          rintro rfl
          cases (congrArg Conn.closed hfresh).symm.trans hclosed
        exact .inr ((congrArg Conn.closed (hother k hne)).trans hclosed)
    · cases hk
      change Live (Function.update s.conns s.nextConn _ s.nextConn) s.pendingCalls [] []
      rw [hself, show s.pendingCalls = [] from hpending]
      exact Live.opened _
    · cases hk
      exact Nat.lt_succ_self _
    · have hne : k ≠ s.nextConn := Nat.ne_of_gt hk
      exact (hother k hne).trans (h.unopened k (Nat.le_of_succ_le hk))
    · intro call frame hmem
      obtain ⟨k, hk⟩ := h.log call frame hmem
      refine ⟨k, hk.mono ?_⟩
      change (s.conns k).Grows (Function.update s.conns s.nextConn _ k)
      by_cases heq : k = s.nextConn
      · subst heq
        rw [hself, show s.conns s.nextConn = Conn.fresh from hfresh]
        exact ⟨ nil_prefix, prefix_refl _, prefix_refl _⟩
      · rw [hother k heq]
        exact Conn.Grows.refl _
  exact (hopened.sendOpening rfl _ accepts.tail).congr rfl rfl rfl

/-! ## Receiving -/

theorem onFrame_core (s : State) (frame : Frame) : (s.onFrame frame).core = s.core := by
  rw [State.onFrame]
  split
  · split <;> rfl
  · split <;> rfl

theorem foldl_onFrame_core (frames : List Frame) (s : State) :
    (frames.foldl State.onFrame s).core = s.core := by
  induction frames generalizing s with
  | nil => rfl
  | cons frame frames ih => exact (ih _).trans (onFrame_core s frame)

theorem onFrame_event {frame : Frame} (s : State) (h : isEventCode frame.code = true) :
    (s.onFrame frame).pendingQueue = s.pendingQueue ∧ (s.onFrame frame).log = s.log := by
  rw [State.onFrame, if_pos h]
  split <;> exact ⟨rfl, rfl⟩

theorem onFrame_reply {frame : Frame} (s : State) (h : isEventCode frame.code = false) :
    (s.onFrame frame).pendingQueue = s.pendingQueue.tail ∧
      (s.onFrame frame).log = s.log ++ s.pendingQueue.head?.toList.map (fun p => (p.call, frame)) := by
  rw [State.onFrame, if_neg (by rw [h]; exact Bool.false_ne_true)]
  rcases hqueue : s.pendingQueue with _ | ⟨pending, rest⟩
  · exact ⟨hqueue, (append_nil _).symm⟩
  · exact ⟨rfl, rfl⟩

/-- **A chunk takes as many pending requests as it has responses in it; events take none.** -/
theorem foldl_onFrame_pending (frames : List Frame) (s : State) :
    (frames.foldl State.onFrame s).pendingQueue =
      s.pendingQueue.drop (frames.filter isReply).length := by
  induction frames generalizing s with
  | nil => rfl
  | cons frame frames ih =>
    rw [foldl_cons, ih]
    rcases hevent : isEventCode frame.code with _ | _
    · have hreply : isReply frame = true := by rw [isReply, hevent]; rfl
      rw [(onFrame_reply s hevent).1, filter_cons_of_pos hreply, length_cons,
        drop_tail]
    · have hreply : ¬ isReply frame = true := by
        rw [isReply, hevent]
        exact Bool.false_ne_true
      rw [(onFrame_event s hevent).1, filter_cons_of_neg hreply]

/-- Without pending requests nothing is resolved. -/
theorem foldl_onFrame_idle (frames : List Frame) {s : State} (h : s.pendingQueue = []) :
    (frames.foldl State.onFrame s).log = s.log := by
  induction frames generalizing s with
  | nil => rfl
  | cons frame frames ih =>
    rw [foldl_cons]
    rcases hevent : isEventCode frame.code with _ | _
    · obtain ⟨hpending, hlog⟩ := onFrame_reply s hevent
      rw [h] at hpending hlog
      rw [ih hpending, hlog]
      exact append_nil _
    · obtain ⟨hpending, hlog⟩ := onFrame_event s hevent
      rw [ih (hpending.trans h), hlog]

/-- The responses of a chunk go to the requests they answer. -/
theorem foldl_onFrame_answered (h : Live conn pending inbound backlog) {outs : List Frame}
    (frames : List Frame) {s : State} {done : List Call}
    (hrequests : conn.requests = done ++ s.pendingCalls) (hle : done.length ≤ conn.replies.length)
    (hreplies : (frames ++ outs).filter isReply = conn.replies.drop done.length) :
    (∃ done', conn.requests = done' ++ (frames.foldl State.onFrame s).pendingCalls ∧
      done'.length ≤ conn.replies.length ∧
      outs.filter isReply = conn.replies.drop done'.length) ∧
    ∀ call frame, (call, frame) ∈ (frames.foldl State.onFrame s).log →
      (call, frame) ∈ s.log ∨ Answered conn call frame := by
  induction frames generalizing s done with
  | nil => exact ⟨⟨done, hrequests, hle, hreplies⟩, fun _ _ hmem => .inl hmem⟩
  | cons frame frames ih =>
    rw [foldl_cons]
    rcases hevent : isEventCode frame.code with _ | _
    · -- a reply goes to the oldest call that waits
      have hreply : isReply frame = true := by rw [isReply, hevent]; rfl
      rw [cons_append, filter_cons_of_pos hreply] at hreplies
      obtain ⟨call, calls, hcalls, hanswered⟩ := h.answered hrequests hreplies
      obtain ⟨first, rest, hqueue, hfirst, hrest⟩ :
          ∃ first rest, s.pendingQueue = first :: rest ∧ first.call = call ∧
            rest.map Pending.call = calls := by
        rw [State.pendingCalls] at hcalls
        rcases hqueue : s.pendingQueue with _ | ⟨first, rest⟩
        · rw [hqueue] at hcalls
          cases hcalls
        · rw [hqueue] at hcalls
          obtain ⟨hfirst, hrest⟩ := cons.inj hcalls
          exact ⟨first, rest, rfl, hfirst, hrest⟩
      obtain ⟨hpending, hlog⟩ := onFrame_reply s hevent
      rw [hqueue] at hpending hlog
      have hlt : done.length < conn.replies.length := by
        have hpos := congrArg List.length hreplies
        rw [length_cons, length_drop] at hpos
        omega
      have hdone : (done ++ [call]).length = done.length + 1 := by
        rw [length_append, length_singleton]
      obtain ⟨hnext, hmem⟩ := @ih (s.onFrame frame) (done ++ [call])
        (by rw [hrequests, hcalls, append_assoc, State.pendingCalls, hpending, tail_cons,
              hrest, singleton_append])
        (by rw [hdone]; exact hlt)
        (by rw [hdone, ← drop_drop, ← hreplies, drop_one, tail_cons])
      refine ⟨hnext, fun call' frame' hin => ?_⟩
      rcases hmem call' frame' hin with hin | hin
      · rw [hlog] at hin
        rcases mem_append.mp hin with hin | hin
        · exact .inl hin
        · cases mem_singleton.mp hin
          rw [hfirst]
          exact .inr hanswered
      · exact .inr hin
    · have hreply : ¬ isReply frame = true := by
        rw [isReply, hevent]
        exact Bool.false_ne_true
      -- an event takes no call off the queue
      rw [cons_append, filter_cons_of_neg hreply] at hreplies
      obtain ⟨hpending, hlog⟩ := onFrame_event s hevent
      obtain ⟨hnext, hmem⟩ := @ih (s.onFrame frame) done
        (by rw [hrequests, State.pendingCalls, State.pendingCalls, hpending]) hle hreplies
      rw [hlog] at hmem
      exact ⟨hnext, hmem⟩

/-- A chunk of the current socket. -/
theorem Linked.data_own (h : Linked s) (hsocket : s.socket = some k) (len : Nat) :
    Linked ((s.atConn k (fun conn => { conn with stream := conn.stream.drop len })).onData
      ((s.conns k).stream.take len)) := by
  have hlive := h.live k hsocket
  obtain ⟨done, outs, hrequests, hle, hstream, hreplies⟩ := hlive.owed
  have hcut : (s.inbound ++ (s.conns k).stream.take len) ++ (s.conns k).stream.drop len =
      framing.encodeAll outs := by
    rw [append_assoc, take_append_drop]
    exact hstream
  obtain ⟨rest, rfl, hrest⟩ := Framing.split_isPrefix hcut
  rw [State.onData]
  obtain ⟨⟨done', hrequests', hle', hreplies'⟩, hlog⟩ := foldl_onFrame_answered hlive
    (framing.split (s.inbound ++ (s.conns k).stream.take len)).1
    (s := { s.atConn k (fun conn => { conn with stream := conn.stream.drop len }) with
      inbound := (framing.split (s.inbound ++ (s.conns k).stream.take len)).2 })
    hrequests hle hreplies
  refine h.update (h.known k hsocket) (foldl_onFrame_core _ _) ?_ rfl ?_ ?_ ?_ hlog
  · exact ⟨prefix_refl _, prefix_refl _, prefix_refl _⟩
  · intro hnone
    cases hsocket.symm.trans hnone
  · intro k' hk' hne
    exact absurd (Option.some.inj (hk'.symm.trans hsocket)) hne
  · exact fun _ => ⟨hlive.isOpen, hlive.sent, ⟨done', rest, hrequests', hle', hrest, hreplies'⟩,
      hlive.replied⟩

/-- A chunk that comes when there is no connection. -/
theorem Linked.data_offline (h : Linked s) (hk : k < s.nextConn)
    (hsocket : s.socket = none) (len : Nat) :
    Linked ((s.atConn k (fun conn => { conn with stream := conn.stream.drop len })).onData
      ((s.conns k).stream.take len)) := by
  obtain ⟨hpending, hbacklog⟩ := h.offline hsocket
  have hqueue : s.pendingQueue = [] := map_eq_nil_iff.mp hpending
  rw [State.onData]
  refine h.update hk (foldl_onFrame_core _ _) ?_ rfl ?_ ?_ ?_ ?_
  · exact ⟨prefix_refl _, prefix_refl _, prefix_refl _⟩
  · refine fun _ => ⟨?_, hbacklog⟩
    rw [State.pendingCalls, foldl_onFrame_pending]
    rw [show State.pendingQueue { s.atConn k _ with inbound := _ } = [] from hqueue, drop_nil]
    rfl
  · intro k' hk'
    cases hsocket.symm.trans hk'
  · intro hk'
    cases hsocket.symm.trans hk'
  · intro call frame hmem
    rw [foldl_onFrame_idle] at hmem
    · exact .inl hmem
    · exact hqueue

theorem flush_open (backlog : List Bytes) (accepts : List Nat) :
    (State.flush false backlog accepts).1 ++ (State.flush false backlog accepts).2.flatten =
      backlog.flatten := by
  induction backlog generalizing accepts with
  | nil => rfl
  | cons chunk rest ih =>
    rw [State.flush, if_neg Bool.false_ne_true]
    dsimp only
    split
    · rw [flatten_cons, ← append_assoc, take_append_drop]
      rfl
    · rw [append_assoc, ih]
      rfl

/-- A drain of the current socket, or of any when there is no backlog. -/
theorem Linked.drain (h : Linked s) (hk : k < s.nextConn)
    (hown : s.writeBacklog = [] ∨ s.socket = some k) (accepts : List Nat) :
    Linked (s.flushBacklog k accepts) := by
  by_cases hsocket : s.socket = some k
  · have hlive := h.live k hsocket
    refine h.update hk rfl ?_ rfl ?_ ?_ ?_ (fun _ _ => .inl)
    · exact ⟨prefix_append _ _, prefix_refl _, prefix_refl _⟩
    · intro hnone
      cases hsocket.symm.trans hnone
    · intro k' hk' hne
      exact absurd (Option.some.inj (hk'.symm.trans hsocket)) hne
    · have hflush := flush_open s.writeBacklog accepts
      rw [← show (s.conns k).closed = false from hlive.isOpen] at hflush
      exact fun _ => hlive.flushed hflush
  · have hbacklog : s.writeBacklog = [] := hown.resolve_right hsocket
    have hflush : State.flush (s.conns k).closed s.writeBacklog accepts = ([], []) := by
      rw [hbacklog]
      rfl
    have hcore : (s.flushBacklog k accepts).core = { s.core with
        conns := Function.update s.conns k
          { s.conns k with received := (s.conns k).received ++ [] },
        inbound := s.inbound, writeBacklog := [] } := by
      rw [State.flushBacklog, hflush]
      rfl
    refine h.update hk hcore ?_ rfl ?_ ?_ ?_ (fun _ _ => .inl)
    · exact ⟨prefix_append _ _, prefix_refl _, prefix_refl _⟩
    · exact fun hnone => ⟨(h.offline hnone).1, rfl⟩
    · exact fun k' _ _ => ⟨rfl, rfl, hbacklog.symm⟩
    · exact fun hk' => absurd hk' hsocket

/-! ## Whole steps -/

theorem Online.offline (hsocket : s'.socket = none) : Online s' := by
  intro k hk
  cases hsocket.symm.trans hk

theorem Online.congr (h : Online s) (hsocket : s'.socket = s.socket)
    (hvalue : s'.stateValue = s.stateValue) : Online s' := by
  intro k hk
  rw [hvalue]
  exact h k (hsocket.symm.trans hk)

/-- The invariant of the client and its connections. -/
structure Inv (s : State) : Prop where
  linked : Linked s
  online : Online s

/-- What a step touches is not what the invariant is about. -/
theorem Inv.congr (h : Inv s) (hcore : s'.core = s.core)
    (hvalue : s'.stateValue = s.stateValue) (hpending : s'.pendingQueue = s.pendingQueue)
    (hlog : s'.log = s.log) : Inv s' :=
  ⟨h.linked.congr hcore hpending hlog, h.online.congr (congrArg Core.socket hcore) hvalue⟩

theorem openSocket_socket (s : State) : s.openSocket.socket = s.socket := by
  rw [State.openSocket]
  split <;> rfl

theorem ensureReady_online (h : Online s) (who : Option Call) : Online (s.ensureReady who) := by
  rw [State.ensureReady]
  split
  · exact h.congr rfl rfl
  split
  · exact h.congr rfl rfl
  · rename_i hnot
    have hsocket := socket_none h (fun k hk hready => hnot k hk hready)
    dsimp only
    split
    · exact Online.offline ((openSocket_socket _).trans hsocket)
    · exact h.congr rfl rfl

theorem Inv.ensureReady (h : Inv s) (who : Option Call) : Inv (s.ensureReady who) :=
  ⟨h.linked.ensureReady h.online who, ensureReady_online h.online who⟩

theorem Inv.request (h : Inv s) (command : Command) (awaiter : Awaiter) :
    Inv (s.request command awaiter) := by
  have hnext : Inv { s with nextCall := s.nextCall + 1 } := h.congr rfl rfl rfl rfl
  exact hnext.ensureReady _

theorem Inv.subscribe (h : Inv s) (topic : Topic) (handler : Handler) :
    Inv (s.subscribe topic handler) := by
  rw [State.subscribe]
  split
  · exact h.congr rfl rfl rfl rfl
  · refine Inv.request ?_ _ _
    exact h.congr rfl rfl rfl rfl

theorem Inv.removeHandler (h : Inv s) (channel : Channel) (handler : Handler) :
    Inv (s.removeHandler channel handler) := by
  rw [State.removeHandler]
  split
  · exact h
  dsimp only
  split
  · exact h.congr rfl rfl rfl rfl
  split
  · refine Inv.request ?_ _ _
    exact h.congr rfl rfl rfl rfl
  · exact h.congr rfl rfl rfl rfl

theorem Inv.subscribeFailed (h : Inv s) (channel : Channel) (handler : Handler) (e : Nat) :
    Inv (s.subscribeFailed channel handler e) := by
  rw [State.subscribeFailed]
  split <;> exact h.congr rfl rfl rfl rfl

theorem Inv.resume (h : Inv s) (call : Call) (response : Option Frame) :
    Inv (s.resume call response) := by
  rw [State.resume.eq_def]
  split
  · split
    · exact h
    · split
      · exact h
      · exact h.congr rfl rfl rfl rfl
  · split
    · exact h.subscribeFailed _ _ _
    · split
      · exact h.subscribeFailed _ _ _
      · exact h.congr rfl rfl rfl rfl
  · exact h

theorem requestRaw_online (h : Online s) (call : Call) (k : SocketId) (accept : Nat) :
    Online (s.requestRaw call k accept) := by
  rw [State.requestRaw]
  split
  · rename_i hwrite
    obtain ⟨hsocket, hvalue⟩ := writeOrQueue_frame hwrite
    exact h.congr hsocket hvalue
  · split <;> exact h.congr rfl rfl

theorem foldl_onFrame_stateValue (frames : List Frame) (s : State) :
    (frames.foldl State.onFrame s).stateValue = s.stateValue := by
  induction frames generalizing s with
  | nil => rfl
  | cons frame frames ih =>
    refine (ih _).trans ?_
    rw [State.onFrame]
    split
    · split <;> rfl
    · split <;> rfl

/-- The callback is of the current socket, or finds nothing it could spoil. -/
def OwnSocket (s : State) : Act → Prop
  | .data k _ => s.socket = none ∨ s.socket = some k
  | .drain k _ => s.writeBacklog = [] ∨ s.socket = some k
  | _ => True

theorem Inv.data {len : Nat} (h : Inv s) (hown : OwnSocket s (.data k len))
    (hstep : s.step cfg (.data k len) = some s') : Inv s' := by
  obtain ⟨hk, ⟨⟩⟩ := Option.ite_none_right_eq_some.mp hstep
  refine ⟨?_, h.online.congr ?_ ?_⟩
  · rcases hown with hnone | hsocket
    · exact h.linked.data_offline hk hnone len
    · exact h.linked.data_own hsocket len
  · rw [State.onData]
    exact congrArg Core.socket (foldl_onFrame_core _ _)
  · rw [State.onData]
    exact foldl_onFrame_stateValue _ _

/-- A call whose time is up fails its connection, if it has one. -/
theorem Inv.timeout {i : Nat} (h : Inv s) (hstep : s.step cfg (.timeout i) = some s') : Inv s' := by
  rw [State.step] at hstep
  split at hstep
  · cases hstep
  split at hstep
  · cases hstep
  rename_i hquiet
  split at hstep
  · cases hstep
    refine ⟨h.linked.failConnection (not_not.mp hquiet).1, Online.offline ?_⟩
    rw [State.failConnection]
    split
    · rename_i hsocket
      exact hsocket
    · exact (handleDisconnect_spec _ cfg).socket
  · cases hstep
    exact h

theorem Inv.reconnect (h : Inv s) (hstep : s.step cfg .reconnect = some s') : Inv s' := by
  obtain ⟨hguard, ⟨⟩⟩ := Option.ite_none_right_eq_some.mp hstep
  have hsocket : s.socket = none := h.linked.waiting hguard.1
  -- the timer that fires is not set any more
  have hfired : Linked { s with reconnectTimer := false } :=
    ⟨h.linked.offline, fun _ => ⟨hsocket, rfl⟩, fun _ => hsocket, h.linked.holds, h.linked.live,
      h.linked.known, h.linked.unopened, h.linked.log⟩
  exact ⟨hfired.openSocket hsocket rfl, Online.offline ((openSocket_socket _).trans hsocket)⟩

/-- The call at the head of the list is sent. -/
theorem Inv.firstCall (h : Inv s) (hstep : s.step cfg (.call accept) = some s') : Inv s' := by
  rw [State.step] at hstep
  split at hstep
  · cases hstep
  rename_i call k rest hcalls
  cases hstep
  have hmem : ∀ entry, entry ∈ rest → entry ∈ s.calls := by
    intro entry hentry
    rw [hcalls]
    exact mem_cons_of_mem _ hentry
  have hrest : Linked { s with calls := rest } :=
    ⟨h.linked.offline, h.linked.dialing, h.linked.waiting,
      fun call' k' hin => h.linked.holds call' k' (hmem _ hin), h.linked.live, h.linked.known,
      h.linked.unopened, h.linked.log⟩
  have hk := h.linked.holds call k (by
    rw [show s.core.calls = s.calls from rfl, hcalls]
    exact mem_cons_self)
  refine ⟨hrest.requestRaw hk accept, requestRaw_online ?_ _ _ _⟩
  exact h.online.congr rfl rfl

/-- **One step.** -/
theorem Inv.step {act : Act} (h : Inv s) (hown : OwnSocket s act)
    (hstep : s.step cfg act = some s') : Inv s' := by
  cases act with
  | send frame =>
    cases hstep
    exact h.request _ _
  | auth token =>
    cases hstep
    exact h.request _ _
  | connect =>
    cases hstep
    exact h.ensureReady none
  | close =>
    cases hstep
    refine ⟨h.linked.close, Online.offline ?_⟩
    rw [State.close]
    split
    · rename_i hsocket
      exact hsocket
    · rfl
  | subscribe topic handler =>
    cases hstep
    exact h.subscribe _ _
  | unsubscribe channel handler =>
    obtain ⟨-, ⟨⟩⟩ := Option.ite_none_right_eq_some.mp hstep
    refine Inv.removeHandler ?_ _ _
    exact h.congr rfl rfl rfl rfl
  | opened accepts =>
    obtain ⟨hdial, ⟨⟩⟩ := Option.ite_none_right_eq_some.mp hstep
    exact ⟨h.linked.onOpen hdial accepts, fun _ _ => rfl⟩
  | connectFailed =>
    obtain ⟨hguard, ⟨⟩⟩ := Option.ite_none_right_eq_some.mp hstep
    refine ⟨?_, Online.offline (handleDisconnect_spec _ cfg).socket⟩
    refine h.linked.handleDisconnect hguard.2.1 (fun hdial => by cases hdial) rfl
      (fun _ => Conn.Grows.refl _) h.linked.unopened
  | data k len => exact h.data hown hstep
  | drain k accepts =>
    obtain ⟨hguard, ⟨⟩⟩ := Option.ite_none_right_eq_some.mp hstep
    exact ⟨h.linked.drain hguard.1 hown accepts, h.online.congr rfl rfl⟩
  | closed k =>
    obtain ⟨hguard, ⟨⟩⟩ := Option.ite_none_right_eq_some.mp hstep
    refine ⟨?_, Online.offline (handleDisconnect_spec _ cfg).socket⟩
    exact h.linked.handleDisconnect hguard.2.1 (fun hdial => (h.linked.dialing hdial).2) rfl
      (fun k' => endSocket_grows s k k') (endSocket_unopened hguard.1 h.linked.unopened)
  | failed k =>
    obtain ⟨hguard, ⟨⟩⟩ := Option.ite_none_right_eq_some.mp hstep
    refine ⟨?_, Online.offline (handleDisconnect_spec _ cfg).socket⟩
    exact h.linked.handleDisconnect hguard.2.1 (fun hdial => (h.linked.dialing hdial).2) rfl
      (fun _ => Conn.Grows.refl _) h.linked.unopened
  | timeout i => exact h.timeout hstep
  | reconnect => exact h.reconnect hstep
  | call accept => exact h.firstCall hstep
  | retry i =>
    rw [State.step] at hstep
    split at hstep
    · cases hstep
    cases hstep
    refine Inv.ensureReady ?_ _
    exact h.congr rfl rfl rfl rfl
  | resume i =>
    rw [State.step] at hstep
    split at hstep
    · cases hstep
    cases hstep
    refine Inv.resume ?_ _ _
    exact h.congr rfl rfl rfl rfl
  | reply k frame =>
    obtain ⟨hguard, hstep⟩ := Option.ite_none_right_eq_some.mp hstep
    obtain ⟨hk, hframe, hlt⟩ := hguard
    cases hstep
    refine ⟨h.linked.atConn hk _ ?_ rfl ?_, h.online.congr rfl rfl⟩
    · exact ⟨prefix_refl _, prefix_refl _, prefix_append _ _⟩
    · exact fun _ hlive => hlive.reply hframe hlt
  | event k frame =>
    obtain ⟨hguard, ⟨⟩⟩ := Option.ite_none_right_eq_some.mp hstep
    refine ⟨h.linked.atConn hguard.1 _ ?_ rfl ?_, h.online.congr rfl rfl⟩
    · exact ⟨prefix_refl _, prefix_refl _, prefix_refl _⟩
    · exact fun _ hlive => hlive.event hguard.2

end

/-! ## Whole runs -/

/-- In the run every chunk and every drain is of the current socket, or harmless. -/
def OwnSockets (cfg : ReconnectOptions) : State → List Act → Prop
  | _, [] => True
  | s, act :: acts =>
      OwnSocket s act ∧
        match s.step cfg act with
        | none => True
        | some s' => OwnSockets cfg s' acts

theorem Inv.run {cfg : ReconnectOptions} {acts : List Act} (h : Inv s)
    (hown : OwnSockets cfg s acts) (hrun : State.run cfg s acts = some s') : Inv s' := by
  induction acts generalizing s with
  | nil =>
    cases hrun
    exact h
  | cons act acts ih =>
    rw [State.run] at hrun
    rw [OwnSockets] at hown
    obtain ⟨hact, hacts⟩ := hown
    rcases hstep : s.step cfg act with _ | t
    · rw [hstep] at hrun
      cases hrun
    · rw [hstep] at hrun hacts
      exact ih (h.step hact hstep) hacts hrun

theorem inv_init : Inv State.init := ⟨linked_init, Online.offline rfl⟩

/-- **Responses are correlated as long as no chunk and no drain of a socket that was given up
reaches another connection; and an event takes no pending request in any state.** -/
theorem correlated_of_own_sockets (s : State) :
    (∀ (cfg : ReconnectOptions) (acts : List Act),
      State.run cfg State.init acts = some s → OwnSockets cfg State.init acts → Correlated s) ∧
    (∀ chunk : Bytes, (s.onData chunk).pendingQueue =
      s.pendingQueue.drop ((framing.split (s.inbound ++ chunk)).1.filter isReply).length) := by
  refine ⟨fun cfg acts hrun hown => ?_, fun chunk => ?_⟩
  · exact (inv_init.run hown hrun).linked.correlated
  · rw [State.onData, foldl_onFrame_pending]

/-! ### One connection, with its frames cut -/

def statusFrame : CommandFrame := ⟨.status, [], by decide⟩

def saveFrame : CommandFrame := ⟨.save, [], by decide⟩

def reconnecting : ReconnectOptions := ⟨true, none⟩

def okReply : Frame := ⟨0x00, [], by decide⟩

def statusReply : Frame := ⟨0x01, ascii "up", by decide⟩

def pushedEvent : Frame := ⟨0x04, [], by decide⟩

/-- Two requests on one connection, one of them written in two parts; the responses and an event
come in three chunks. -/
def cutFrames : List Act :=
  [.send statusFrame, .opened [2], .retry 0, .call 3, .send saveFrame, .call 0, .drain 0 [9, 9],
    .reply 0 statusReply, .event 0 pushedEvent, .reply 0 okReply, .data 0 3, .data 0 10, .data 0 9]

theorem cut_frames_correlated :
    ∃ s, State.run reconnecting State.init cutFrames = some s ∧
      s.log = [(⟨0, .send statusFrame, .caller⟩, statusReply),
        (⟨1, .send saveFrame, .caller⟩, okReply)] ∧ Correlated s := by
  have hown : OwnSockets reconnecting State.init cutFrames :=
    ⟨trivial, trivial, trivial, trivial, trivial, trivial, .inr rfl, trivial, trivial, trivial,
      .inr rfl, .inr rfl, .inr rfl, trivial⟩
  refine ⟨_, rfl, by decide, ?_⟩
  exact (correlated_of_own_sockets _).1 reconnecting cutFrames rfl hown

/-! ### A chunk that comes late -/

/-- The first request times out; its response comes on the old socket while the second request
is pending on the new one. -/
def lateChunk : List Act :=
  [.send statusFrame, .opened [2], .retry 0, .call 5, .timeout 0, .resume 0, .reconnect,
    .opened [2], .send saveFrame, .call 5, .reply 0 statusReply, .data 0 7]

theorem late_chunk_resolves_another :
    ∃ s, State.run reconnecting State.init lateChunk = some s ∧
      (⟨1, .send saveFrame, .caller⟩, statusReply) ∈ s.log ∧ ¬ Correlated s := by
  refine ⟨_, rfl, by decide, fun hcorrelated => ?_⟩
  obtain ⟨k, i, hrequest, -, hreply⟩ :=
    hcorrelated ⟨1, .send saveFrame, .caller⟩ statusReply (by decide)
  rcases k with _ | _ | k
  · -- the old connection has the request that timed out alone
    rcases i with _ | i
    · exact absurd hrequest (by decide)
    · cases hrequest
  · -- the new connection has no response yet
    cases hreply
  · cases hreply

end WormDB.BunClient
