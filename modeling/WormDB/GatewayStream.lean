import WormDB.ReadUntil
import WormDB.WebSocket
import Mathlib.Data.List.Infix

/-! # The gateway's input and the pieces in which it arrives

A connection of `server/gateway.zig` begins with the headers of a request.  The reader of
headers takes what the socket gives until the blank line is in its buffer, and returns the
buffer; the next reader starts at the socket again.  So the bytes that come with the end of
the headers become part of that request, and are missing in front of the next request or
frame.  `messages` is what stands in the stream; a connection handles that exactly when no
read goes beyond the end of headers (`handled_iff`). -/
namespace WormDB.Gateway
open List ByteCodec ChunkedStream WebSocket

/-! ## Requests -/

/-- The size of the buffer for headers. -/
def requestBufLen : Nat := 4096

def blankLine : Bytes := [0x0D, 0x0A, 0x0D, 0x0A]

/-- `std.mem.indexOf(u8, buf, "\r\n\r\n") != null` -/
def endsHeaders (buf : Bytes) : Bool := decide (blankLine <:+: buf)

def readHttpRequest (stream : Stream) : Option (Bytes × Stream) :=
  readUntil endsHeaders requestBufLen stream

/-- `std.mem.splitSequence(u8, request, "\r\n")` -/
def lines : Bytes → List Bytes
  | [] => [[]]
  | 0x0D :: 0x0A :: rest => [] :: lines rest
  | c :: rest =>
      match lines rest with
      | [] => [[c]]
      | line :: rest => (c :: line) :: rest

def asciiLower (c : UInt8) : UInt8 := if 0x41 ≤ c && c ≤ 0x5A then c + 32 else c

def asciiEqlIgnoreCase (a b : Bytes) : Bool := a.map asciiLower == b.map asciiLower

def extractWebSocketKey (request : Bytes) : Option Bytes :=
  ((lines request).find? fun line =>
      decide (line.length > 19) && asciiEqlIgnoreCase (line.take 19) (ascii "Sec-WebSocket-Key: ")).map
    fun line => (((line.drop 19).dropWhile isBlank).reverse.dropWhile isBlank).reverse

/-- What the gateway depends on beside its input, at every turn of its loop: whether it
runs, whether its answer is sent, and which buffers there is memory for. -/
structure Env where
  running : Nat → Bool
  sent : Nat → Bool
  upgraded : Bool
  allocates : Nat → Bool

/-- The connection is kept: the request is no GET, or has a path, and is answered. -/
def handleHttpRequest (env : Env) (turn : Nat) (request : Bytes) : Bool :=
  match lines request with
  | [] => false
  | line :: _ =>
      if (ascii "GET ").isPrefixOf line = false then env.sent turn
      else if (line.drop 4).contains 0x20 = false then false
      else env.sent turn

/-! ## Connections -/

/-- What a connection hands to its handlers: the text of its first request to the handshake,
the text of a request to the routes, or a frame to the session. -/
inductive Message where
  | handshake (request : Bytes)
  | http (request : Bytes)
  | frame (frame : WsFrame)
  deriving DecidableEq

def serveHttp (env : Env) : Nat → Nat → Stream → Bytes → List Message
  | 0, _, _, _ => []
  | fuel + 1, turn, stream, current =>
      if env.running turn = false then []
      else
        .http current ::
          if handleHttpRequest env turn current = false then []
          else
            match readHttpRequest stream with
            | none => []
            | some (current, stream) => serveHttp env fuel (turn + 1) stream current

/-- The session goes on behind the frame.  Only the answer to a command has to be sent. -/
def sessionContinues (env : Env) (turn : Nat) (opcode : UInt8) : Bool :=
  if opcode = 0x08 then false
  else if opcode = 0x09 ∨ opcode = 0x0A ∨ opcode = 0x01 then true
  else if opcode = 0x02 then env.sent turn
  else false

def serveFrames (env : Env) : Nat → Nat → Stream → List Message
  | 0, _, _ => []
  | fuel + 1, turn, stream =>
      if env.running turn = false then []
      else
        match readWsFrame env.allocates stream with
        | none => []
        | some (frame, stream) =>
            .frame frame ::
              if sessionContinues env turn frame.opcode = true then
                serveFrames env fuel (turn + 1) stream
              else []

/-- Every turn of the loops takes bytes off the stream. -/
def handleConnection (env : Env) (stream : Stream) : List Message :=
  match readHttpRequest stream with
  | none => []
  | some (request, stream) =>
      .handshake request ::
        match extractWebSocketKey request with
        | none => serveHttp env (stream.bytes.length + 1) 0 stream request
        | some _ =>
            if env.upgraded = true then serveFrames env (stream.bytes.length + 1) 0 stream else []

/-! ## What stands in the stream -/

def httpMessages (env : Env) : Nat → Nat → Bytes → Bytes → List Message
  | 0, _, _, _ => []
  | fuel + 1, turn, current, bytes =>
      if env.running turn = false then []
      else
        .http current ::
          if handleHttpRequest env turn current = false then []
          else
            match cut endsHeaders requestBufLen bytes with
            | none => []
            | some n => httpMessages env fuel (turn + 1) (bytes.take n) (bytes.drop n)

/-- The requests of the stream, each up to its blank line, or an upgrade and the frames
behind it. -/
def messages (env : Env) (bytes : Bytes) : List Message :=
  match cut endsHeaders requestBufLen bytes with
  | none => []
  | some n =>
      .handshake (bytes.take n) ::
        match extractWebSocketKey (bytes.take n) with
        | none => httpMessages env ((bytes.drop n).length + 1) 0 (bytes.take n) (bytes.drop n)
        | some _ =>
            if env.upgraded = true then
              serveFrames env ((bytes.drop n).length + 1) 0 ⟨bytes.drop n, fun _ => 0⟩
            else []

/-- No read brings bytes behind the blank line of a request that the connection gets to. -/
def HttpAligned (env : Env) : Nat → Nat → Bytes → Bytes → (Nat → Nat) → Prop
  | 0, _, _, _, _ => True
  | fuel + 1, turn, current, bytes, grants =>
      env.running turn = true → handleHttpRequest env turn current = true →
        env.running (turn + 1) = true →
        ∀ n, cut endsHeaders requestBufLen bytes = some n →
          overrun requestBufLen bytes grants n = 0 ∧
          HttpAligned env fuel (turn + 1) (bytes.take n) (bytes.drop n) (arrive n grants n).2

/-- The pieces of a stream end where its requests do. -/
def Aligned (env : Env) (bytes : Bytes) (grants : Nat → Nat) : Prop :=
  ∀ n, cut endsHeaders requestBufLen bytes = some n →
    overrun requestBufLen bytes grants n = 0 ∧
    (extractWebSocketKey (bytes.take n) = none →
      HttpAligned env ((bytes.drop n).length + 1) 0 (bytes.take n) (bytes.drop n) (arrive n grants n).2)

section
variable {env : Env} {bytes : Bytes} {grants : Nat → Nat} {n : Nat} {s s' : Stream}

theorem endsHeaders_append (xs ys : Bytes) (h : endsHeaders xs = true) :
    endsHeaders (xs ++ ys) = true :=
  decide_eq_true ((of_decide_eq_true h).trans (prefix_append xs ys).isInfix)

theorem readHttpRequest_some (h : cut endsHeaders requestBufLen bytes = some n) :
    readHttpRequest ⟨bytes, grants⟩ =
      some (bytes.take (n + overrun requestBufLen bytes grants n),
        ⟨bytes.drop (n + overrun requestBufLen bytes grants n), (arrive n grants n).2⟩) :=
  readUntil_some endsHeaders_append (by decide) h

theorem readHttpRequest_none (h : cut endsHeaders requestBufLen bytes = none) :
    readHttpRequest ⟨bytes, grants⟩ = none :=
  readUntil_none h

/-! ## Frames -/

theorem readPayload_sameRead (allocates : Nat → Bool) (masked : Bool) (payloadLen : Nat)
    (h : s.bytes = s'.bytes) :
    SameRead (readPayload allocates masked payloadLen s) (readPayload allocates masked payloadLen s') := by
  have hrest : ∀ (maskKey : Bytes) (s s' : Stream), s.bytes = s'.bytes →
      SameRead (if allocates payloadLen = false then none
        else s.readExact payloadLen >>= fun r => some (if masked then unmask maskKey r.1 else r.1, r.2))
        (if allocates payloadLen = false then none
        else s'.readExact payloadLen >>= fun r => some (if masked then unmask maskKey r.1 else r.1, r.2)) := by
    intro maskKey s s' h
    split
    · exact .none
    · exact (SameRead.readExact h payloadLen).bind fun buf s s' h => .some _ h
  rw [readPayload, readPayload]
  split
  · exact .none
  cases masked with
  | false => exact hrest [] s s' h
  | true => exact (SameRead.readExact h 4).bind hrest

/-- A frame does not depend on the pieces. -/
theorem readWsFrame_sameRead (allocates : Nat → Bool) (h : s.bytes = s'.bytes) :
    SameRead (readWsFrame allocates s) (readWsFrame allocates s') := by
  refine (SameRead.readExact h 2).bind fun header s s' h => ?_
  refine SameRead.bind ?_ fun payloadLen s s' h => ?_
  · rw [readPayloadLen, readPayloadLen]
    split
    · exact (SameRead.readExact h 2).map beNat
    split
    · exact (SameRead.readExact h 8).map beNat
    · exact .some _ h
  · exact (readPayload_sameRead allocates _ payloadLen h).bind fun payload s s' h => .some _ h

theorem serveFrames_sameRead (fuel turn : Nat) (h : s.bytes = s'.bytes) :
    serveFrames env fuel turn s = serveFrames env fuel turn s' := by
  induction fuel generalizing turn s s' with
  | zero => rfl
  | succ fuel ih =>
    rw [serveFrames, serveFrames]
    have hsame := readWsFrame_sameRead env.allocates h
    generalize readWsFrame env.allocates s = r at hsame
    generalize readWsFrame env.allocates s' = r' at hsame
    cases hsame with
    | none => rfl
    | some frame h =>
      dsimp only
      rw [ih (turn + 1) h]

/-- What is read is gone from the stream. -/
def Shortens {α : Type} (r : Option (α × Stream)) (n : Nat) : Prop :=
  ∀ x s', r = some (x, s') → s'.bytes.length < n

variable {α β : Type} {r : Option (α × Stream)}

theorem Shortens.bind (h : Shortens r n) {f : α × Stream → Option (β × Stream)}
    (hf : ∀ x (s : Stream), s.bytes.length < n → Shortens (f (x, s)) n) : Shortens (r >>= f) n := by
  intro y s' hrun
  obtain ⟨⟨x, t⟩, hr, hrest⟩ := Option.bind_eq_some_iff.mp hrun
  exact hf x t (h x t hr) y s' hrest

theorem Shortens.map (h : Shortens r n) (f : α → β) : Shortens (r.map fun x => (f x.1, x.2)) n := by
  intro y s' hrun
  obtain ⟨⟨x, t⟩, hr, hpair⟩ := Option.map_eq_some_iff.mp hrun
  cases hpair
  exact h x _ hr

theorem shortens_readExact (k : Nat) (h : s.bytes.length < n + k) : Shortens (s.readExact k) n := by
  intro x s' hread
  obtain ⟨hok, hshort⟩ := readExact_spec s k
  by_cases hlen : k ≤ s.bytes.length
  · obtain ⟨t, hread', ht⟩ := hok hlen
    cases hread.symm.trans hread'
    rw [ht, length_drop]
    omega
  · rw [hshort (by omega)] at hread
    cases hread

theorem shortens_some (x : α) (h : s.bytes.length < n) : Shortens (some (x, s)) n := by
  intro y s' hrun
  cases hrun
  exact h

theorem shortens_none : Shortens (none : Option (α × Stream)) n := by
  intro x s' hrun
  cases hrun

theorem shortens_readPayload (allocates : Nat → Bool) (masked : Bool) (payloadLen : Nat)
    (h : s.bytes.length < n) : Shortens (readPayload allocates masked payloadLen s) n := by
  have hrest : ∀ (maskKey : Bytes) (s : Stream), s.bytes.length < n →
      Shortens (if allocates payloadLen = false then none
        else s.readExact payloadLen >>= fun r =>
          some (if masked then unmask maskKey r.1 else r.1, r.2)) n := by
    intro maskKey s h
    split
    · exact shortens_none
    · exact (shortens_readExact payloadLen (by omega)).bind fun buf s h => shortens_some _ h
  rw [readPayload]
  split
  · exact shortens_none
  cases masked with
  | false => exact hrest [] s h
  | true => exact (shortens_readExact 4 (by omega)).bind hrest

/-- A frame takes bytes off the stream. -/
theorem shortens_readWsFrame (allocates : Nat → Bool) (s : Stream) :
    Shortens (readWsFrame allocates s) s.bytes.length := by
  refine (shortens_readExact 2 (by omega)).bind fun header s h => ?_
  refine Shortens.bind ?_ fun payloadLen s h => ?_
  · rw [readPayloadLen]
    split
    · exact (shortens_readExact 2 (by omega)).map beNat
    split
    · exact (shortens_readExact 8 (by omega)).map beNat
    · exact shortens_some _ h
  · exact (shortens_readPayload allocates _ payloadLen h).bind fun payload s h => shortens_some _ h

variable {fuel fuel' : Nat}

/-- A turn for every byte is enough. -/
theorem serveFrames_fuel (turn : Nat) (h : s.bytes.length < fuel)
    (h' : s.bytes.length < fuel') : serveFrames env fuel turn s = serveFrames env fuel' turn s := by
  induction fuel generalizing fuel' turn s with
  | zero => omega
  | succ fuel ih =>
    cases fuel' with
    | zero => omega
    | succ fuel' =>
      rw [serveFrames, serveFrames]
      cases hread : readWsFrame env.allocates s with
      | none => rfl
      | some r =>
        have hshort := shortens_readWsFrame env.allocates s r.1 r.2 hread
        dsimp only
        rw [@ih r.2 fuel' (turn + 1) (by omega) (by omega)]

/-! ## Requests -/

theorem cut_pos (h : cut endsHeaders requestBufLen bytes = some n) : 0 < n := by
  rcases Nat.eq_zero_or_pos n with rfl | hpos
  · have hp := (cut_eq_some_iff.mp h).2.2.1
    rw [take_zero] at hp
    cases hp
  · exact hpos

/-- A text that is longer than the headers is not theirs. -/
theorem take_ne (h : cut endsHeaders requestBufLen bytes = some n)
    (hover : overrun requestBufLen bytes grants n ≠ 0) :
    bytes.take (n + overrun requestBufLen bytes grants n) ≠ bytes.take n := by
  intro htake
  have hlen := congrArg List.length htake
  have hle : overrun requestBufLen bytes grants n ≤ bytes.length - n :=
    le_trans (min_le_right _ _) (min_le_left _ _)
  have hn := (cut_eq_some_iff.mp h).2.1
  rw [length_take, length_take] at hlen
  omega

/-- A turn for every byte is enough for requests, too. -/
theorem serveHttp_fuel (turn : Nat) (current : Bytes)
    (h : s.bytes.length < fuel) (h' : s.bytes.length < fuel') :
    serveHttp env fuel turn s current = serveHttp env fuel' turn s current := by
  induction fuel generalizing fuel' turn s current with
  | zero => omega
  | succ fuel ih =>
    cases fuel' with
    | zero => omega
    | succ fuel' =>
      rw [serveHttp, serveHttp]
      cases hcut : cut endsHeaders requestBufLen s.bytes with
      | none => rw [@readHttpRequest_none s.bytes s.grants hcut]
      | some n =>
        have hpos := cut_pos hcut
        have hlen := (cut_eq_some_iff.mp hcut).2.1
        rw [@readHttpRequest_some s.bytes s.grants n hcut]
        dsimp only
        rw [@ih _ fuel' (turn + 1) _ (by rw [length_drop]; omega) (by rw [length_drop]; omega)]

/-- **The turns of a connection suffice:** with more of them its loops hand over the same. -/
theorem turns_suffice (env : Env) (turn extra : Nat) (s : Stream) (current : Bytes) :
    let turns := s.bytes.length + 1
    serveHttp env (turns + extra) turn s current = serveHttp env turns turn s current ∧
      serveFrames env (turns + extra) turn s = serveFrames env turns turn s :=
  ⟨serveHttp_fuel turn current (by omega) (by omega), serveFrames_fuel turn (by omega) (by omega)⟩

/-- The requests behind one that is handled are those of the stream, if and only if the
pieces are aligned. -/
theorem serveHttp_iff (fuel turn : Nat) (current bytes : Bytes) (grants : Nat → Nat)
    (hfuel : bytes.length < fuel) :
    serveHttp env fuel turn ⟨bytes, grants⟩ current = httpMessages env fuel turn current bytes ↔
      HttpAligned env fuel turn current bytes grants := by
  induction fuel generalizing turn current bytes grants with
  | zero => omega
  | succ fuel ih =>
    rw [serveHttp, httpMessages, HttpAligned]
    cases hrun : env.running turn with
    | false => simp
    | true =>
      cases hkeep : handleHttpRequest env turn current with
      | false => simp
      | true =>
        cases hcut : cut endsHeaders requestBufLen bytes with
        | none => simp [readHttpRequest_none hcut]
        | some n =>
          have hpos := cut_pos hcut
          have hlen := (cut_eq_some_iff.mp hcut).2.1
          rw [readHttpRequest_some hcut]
          simp only [Bool.true_eq_false, reduceIte, List.cons.injEq, true_and, true_implies,
            Option.some.injEq, forall_eq']
          cases fuel with
          | zero => omega
          | succ fuel =>
            cases hnext : env.running (turn + 1) with
            | false => simp [serveHttp, httpMessages, hnext]
            | true =>
              simp only [true_implies]
              by_cases hover : overrun requestBufLen bytes grants n = 0
              · rw [hover, add_zero]
                simp only [true_and]
                exact ih (turn + 1) _ _ _ (by rw [length_drop]; omega)
              · simp only [hover, false_and, iff_false]
                intro hsame
                rw [serveHttp, httpMessages, hnext] at hsame
                simp only [Bool.true_eq_false, reduceIte, List.cons.injEq, Message.http.injEq] at hsame
                exact take_ne hcut hover hsame.1

/-! ## Connections -/

/-- **When a connection handles what stands in its stream**: when no read goes beyond the
end of headers. -/
theorem handled_iff (env : Env) (bytes : Bytes) (grants : Nat → Nat) :
    handleConnection env ⟨bytes, grants⟩ = messages env bytes ↔ Aligned env bytes grants := by
  rw [handleConnection, messages, Aligned]
  cases hcut : cut endsHeaders requestBufLen bytes with
  | none => simp [readHttpRequest_none hcut]
  | some n =>
    rw [readHttpRequest_some hcut]
    simp only [Option.some.injEq, forall_eq', List.cons.injEq, Message.handshake.injEq]
    by_cases hover : overrun requestBufLen bytes grants n = 0
    · rw [hover, add_zero]
      cases hkey : extractWebSocketKey (bytes.take n) with
      | none =>
        simp only [true_and, true_implies]
        exact serveHttp_iff _ 0 _ _ _ (Nat.lt_succ_self _)
      | some key =>
        have hframes : serveFrames env ((bytes.drop n).length + 1) 0
            ⟨bytes.drop n, (arrive n grants n).2⟩ =
            serveFrames env ((bytes.drop n).length + 1) 0 ⟨bytes.drop n, fun _ => 0⟩ :=
          serveFrames_sameRead _ _ rfl
        simp only [true_and, reduceCtorEq, false_implies, iff_true]
        rw [hframes]
    · simp only [hover, false_and, iff_false]
      exact fun hsame => take_ne hcut hover hsame.1

theorem arrive_bytewise (fuel : Nat) (h : n ≤ fuel) (hpos : 0 < n) :
    arrive fuel (fun _ => 0) n = (0, fun _ => 0) := by
  induction fuel generalizing n with
  | zero => omega
  | succ fuel ih =>
    rw [arrive]
    split
    · congr 1
      omega
    · exact ih (by omega) (by omega)

theorem httpAligned_bytewise (fuel turn : Nat) (current bytes : Bytes) :
    HttpAligned env fuel turn current bytes (fun _ => 0) := by
  induction fuel generalizing turn current bytes with
  | zero => trivial
  | succ fuel ih =>
    intro _ _ _ n hcut
    rw [overrun, arrive_bytewise n (le_refl n) (cut_pos hcut)]
    exact ⟨Nat.zero_min _, ih _ _ _⟩

/-- Single bytes are never too many. -/
theorem aligned_bytewise (env : Env) (bytes : Bytes) : Aligned env bytes (fun _ => 0) := by
  intro n hcut
  rw [overrun, arrive_bytewise n (le_refl n) (cut_pos hcut)]
  exact ⟨Nat.zero_min _, fun _ => httpAligned_bytewise _ _ _ _⟩

/-- **What the pieces of a stream decide.**  A connection handles what stands in the stream
exactly when the pieces are aligned with the requests; so all ways of splitting a stream
come to the same exactly when all are aligned. -/
theorem segmentation_iff (env : Env) (bytes : Bytes) :
    (∀ grants, handleConnection env ⟨bytes, grants⟩ = messages env bytes ↔
      Aligned env bytes grants) ∧
    ((∀ grants grants', handleConnection env ⟨bytes, grants⟩ = handleConnection env ⟨bytes, grants'⟩) ↔
      ∀ grants, Aligned env bytes grants) := by
  refine ⟨handled_iff env bytes, fun h grants => ?_, fun h grants grants' => ?_⟩
  · rw [← handled_iff, h grants (fun _ => 0), handled_iff]
    exact aligned_bytewise env bytes
  · rw [(handled_iff env bytes grants).mpr (h grants), (handled_iff env bytes grants').mpr (h grants')]

end

/-- An upgrade and a ping. -/
def upgradeAndPing : Bytes :=
  ascii "GET / HTTP/1.1\r\nSec-WebSocket-Key: x\r\n\r\n" ++ [0x89, 0x80, 0, 0, 0, 0]

def openEnv : Env := ⟨fun _ => true, fun _ => true, true, fun _ => true⟩

/-- **A ping that comes with the headers** is lost. -/
theorem ping_lost :
    (handleConnection openEnv ⟨upgradeAndPing, fun _ => 0⟩).length = 2 ∧
    handleConnection openEnv ⟨upgradeAndPing, fun _ => 100⟩ = [.handshake upgradeAndPing] ∧
    ¬(∀ grants grants', handleConnection openEnv ⟨upgradeAndPing, grants⟩ =
      handleConnection openEnv ⟨upgradeAndPing, grants'⟩) := by
  have hbytes : (handleConnection openEnv ⟨upgradeAndPing, fun _ => 0⟩).length = 2 := by
    decide +kernel
  have hwhole : handleConnection openEnv ⟨upgradeAndPing, fun _ => 100⟩ = [.handshake upgradeAndPing] := by
    decide +kernel
  refine ⟨hbytes, hwhole, fun h => ?_⟩
  rw [h _ (fun _ => 100), hwhole] at hbytes
  cases hbytes

end WormDB.Gateway
