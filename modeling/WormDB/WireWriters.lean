import WormDB.Recorder
import WormDB.WireRoundTrip
import WormDB.WebSocket

/-! # What the writers put on a stream before they fail

`writeCommand` and `writeResponse` as the sequence of their writes: a failure leaves on the
stream what was written before it.  A value too large for the format is refused before the
first write where the length is checked at all.  It is not for the commands of one field,
nor for value and error responses, whose frames every reader refuses
(`writeCommand_accepted_iff`, `writeResponse_accepted_iff`). -/
namespace WormDB
open List ByteCodec ByteReader ChunkedStream Recorder

/-! ## The writers -/

/-- A run of writes: its outcome, and the pieces that went to the stream. -/
abbrev Writes := RecordM Bytes WireFault Unit

namespace WireWriter

def writeAll (data : Bytes) : Writes := record data

def writeHeader (code : UInt8) (payloadLen : Nat) : Writes :=
  if 2 ^ 32 ≤ payloadLen then throw .trap else writeAll (code :: beBytes 4 payloadLen)

/-- Bytes behind a length; there is no write of no bytes. -/
def writeRest (data : Bytes) : Writes := if data.length > 0 then writeAll data else pure ()

def writeLenPrefixed (data : Bytes) : Writes :=
  if 2 ^ 32 ≤ data.length then throw .trap
  else do
    writeAll (beBytes 4 data.length)
    writeRest data

def writeCount (count : Nat) : Writes :=
  if 2 ^ 32 ≤ count then throw .trap else writeAll (beBytes 4 count)

def writeEach {α : Type} (write : α → Writes) : List α → Writes
  | [] => pure ()
  | x :: xs => do
      write x
      writeEach write xs

def writeBulkItem (it : BulkItem) : Writes := do
  writeLenPrefixed it.key
  writeLenPrefixed it.vector
  writeAll (beBytes 8 it.timestamp.toNat)

/-- What a command puts behind the header. -/
def writeFields : Command → Writes
  | .get key => writeLenPrefixed key
  | .set params => do
      writeAll [if params.worm then 0x01 else 0x00]
      writeLenPrefixed params.key
      writeLenPrefixed params.value
  | .delete key => writeLenPrefixed key
  | .status => pure ()
  | .clusterStatus => pure ()
  | .clusterPeers => pure ()
  | .subscribe params => do
      writeLenPrefixed params.channel
      params.filter.elim (pure ()) writeLenPrefixed
  | .unsubscribe channel => writeLenPrefixed channel
  | .publish params => do
      writeLenPrefixed params.channel
      writeLenPrefixed params.message
  | .exec params => do
      writeLenPrefixed params.procedure
      writeCount params.args.length
      writeEach writeLenPrefixed params.args
  | .save => pure ()
  | .auth token => writeLenPrefixed token
  | .vinsert params => do
      writeLenPrefixed params.key
      writeLenPrefixed params.vector
      writeAll [vectorFlags params.worm params.isAsync]
      writeLenPrefixed params.namespace
      writeLenPrefixed params.metric
      writeAll (beBytes 8 params.timestamp.toNat)
  | .vdelete params => do
      writeLenPrefixed params.key
      writeLenPrefixed params.namespace
  | .vbulkinsert params => do
      writeLenPrefixed params.namespace
      writeLenPrefixed params.metric
      writeAll [vectorFlags params.worm params.isAsync]
      writeCount params.items.length
      writeEach writeBulkItem params.items
  | .vrabitqInstall params => do
      writeLenPrefixed params.namespace
      writeAll (beBytes 4 params.dim.toNat)
      writeAll (beBytes 8 params.seed.toNat)
      writeLenPrefixed params.centroid
      writeLenPrefixed params.rotation

/-- A length is summed up in a `usize`, and held against the limit where `checked`. -/
def checkLength (checked : Bool) (payloadLen : Nat) : Writes :=
  if 2 ^ 64 ≤ payloadLen then throw .trap
  else if checked = true ∧ payloadLen > maxPayloadLength then throw .payloadTooLarge
  else pure ()

def writeCommand (cmd : Command) : Writes := do
  checkLength cmd.checksLength cmd.payloadLen
  writeHeader cmd.id.toByte cmd.payloadLen
  writeFields cmd

def writeResponse : Response → Writes
  | .ok => writeHeader ResponseCode.ok.toByte 0
  | .value (some val) => do
      writeHeader ResponseCode.value.toByte val.length
      writeRest val
  | .value none => writeHeader ResponseCode.nullValue.toByte 0
  | .err msg => do
      writeHeader ResponseCode.err.toByte msg.length
      writeRest msg
  | .event channel message => do
      let payloadLen := (4 + channel.length) + (4 + message.length)
      checkLength true payloadLen
      writeHeader ResponseCode.event.toByte payloadLen
      writeLenPrefixed channel
      writeLenPrefixed message

end WireWriter

/-! ## What a run of writes puts on the stream -/

/-- The run succeeds, and its pieces make up `bytes`. -/
def Puts (x : Writes) (bytes : Bytes) : Prop :=
  ∀ log, ∃ pieces, x.run.run log = (.ok (), log ++ pieces) ∧ pieces.flatten = bytes

/-- The run fails with `fault` before its first write. -/
def Refuses (x : Writes) (fault : WireFault) : Prop :=
  ∀ log, x.run.run log = (.error fault, log)

section
variable {x y : Writes} {a b : Bytes} {fault : WireFault} {α : Type}

theorem Puts.pure : Puts (Pure.pure ()) [] := fun log => ⟨[], by rw [append_nil]; rfl, rfl⟩

theorem Puts.write (data : Bytes) : Puts (WireWriter.writeAll data) data := fun _ =>
  ⟨[data], rfl, by rw [flatten_singleton]⟩

/-- One run after another. -/
theorem Puts.seq (hx : Puts x a) (hy : Puts y b) : Puts (x >>= fun _ => y) (a ++ b) := by
  intro log
  obtain ⟨piecesX, hrunX, rfl⟩ := hx log
  obtain ⟨piecesY, hrunY, rfl⟩ := hy (log ++ piecesX)
  refine ⟨piecesX ++ piecesY, ?_, flatten_append⟩
  rw [ExceptT.run_bind, StateT.run_bind, hrunX, ← append_assoc]
  exact hrunY

theorem Refuses.throw : Refuses (throw fault) fault := fun _ => rfl

theorem Refuses.seq (hx : Refuses x fault) : Refuses (x >>= fun _ => y) fault := by
  intro log
  rw [ExceptT.run_bind, StateT.run_bind, hx log]
  rfl

end

/-! ## Each writer puts its part of the format -/

namespace WireWriter

section
variable {code : UInt8} {n : Nat} {data : Bytes} {α : Type} {x y : Writes} {a b : Bytes}

theorem header_puts (h : n < 2 ^ 32) : Puts (writeHeader code n) (code :: beBytes 4 n) := by
  rw [writeHeader, if_neg (by omega)]
  exact .write _

theorem header_refuses (h : 2 ^ 32 ≤ n) : Refuses (writeHeader code n) .trap := by
  rw [writeHeader, if_pos h]
  exact .throw

theorem rest_puts (data : Bytes) : Puts (writeRest data) data := by
  rw [writeRest]
  split
  case isTrue => exact .write _
  case isFalse h =>
    obtain rfl : data = [] := eq_nil_of_length_eq_zero (by omega)
    exact .pure

theorem lenPrefixed_puts (h : data.length < 2 ^ 32) :
    Puts (writeLenPrefixed data) (lenPrefixed data) := by
  rw [writeLenPrefixed, if_neg (by omega)]
  exact (Puts.write _).seq (rest_puts _)

theorem count_puts (h : n < 2 ^ 32) : Puts (writeCount n) (beBytes 4 n) := by
  rw [writeCount, if_neg (by omega)]
  exact .write _

theorem each_puts {write : α → Writes} {encode : α → Bytes} {xs : List α}
    (h : ∀ x ∈ xs, Puts (write x) (encode x)) : Puts (writeEach write xs) (xs.flatMap encode) := by
  induction xs with
  | nil => exact .pure
  | cons x xs ih =>
    rw [flatMap_cons]
    exact (h x mem_cons_self).seq (ih fun y hy => h y (mem_cons_of_mem x hy))

theorem bulkItem_puts {it : BulkItem} (h : it.body.length < 2 ^ 32) :
    Puts (writeBulkItem it) it.body := by
  rw [BulkItem.body_length] at h
  rw [BulkItem.body, append_assoc]
  exact (lenPrefixed_puts (by omega)).seq ((lenPrefixed_puts (by omega)).seq (.write _))

variable {cmd : Command}

/-- **The fields** of a command whose length fits the header. -/
theorem fields_puts (h : cmd.payloadLen < 2 ^ 32) : Puts (writeFields cmd) cmd.body := by
  rw [← Command.body_length] at h
  cases cmd with
  | status | clusterStatus | clusterPeers | save => exact .pure
  | get key | delete key =>
    simp only [Command.body, lenPrefixed_length] at h
    exact lenPrefixed_puts (by omega)
  | unsubscribe channel =>
    simp only [Command.body, lenPrefixed_length] at h
    exact lenPrefixed_puts (by omega)
  | auth token =>
    simp only [Command.body, lenPrefixed_length] at h
    exact lenPrefixed_puts (by omega)
  | set params =>
    simp only [Command.body, length_append, lenPrefixed_length] at h
    rw [Command.body, append_assoc]
    exact (Puts.write _).seq ((lenPrefixed_puts (by omega)).seq (lenPrefixed_puts (by omega)))
  | subscribe params =>
    obtain ⟨channel, filter⟩ := params
    cases filter with
    | none =>
      simp only [Command.body, length_append, lenPrefixed_length, Option.elim] at h
      have hchannel : channel.length < 2 ^ 32 := by omega
      exact (lenPrefixed_puts hchannel).seq .pure
    | some filter =>
      simp only [Command.body, length_append, lenPrefixed_length, Option.elim] at h
      have hchannel : channel.length < 2 ^ 32 := by omega
      exact (lenPrefixed_puts hchannel).seq (lenPrefixed_puts (by omega))
  | publish params | vdelete params =>
    simp only [Command.body, length_append, lenPrefixed_length] at h
    exact (lenPrefixed_puts (by omega)).seq (lenPrefixed_puts (by omega))
  | exec params =>
    simp only [Command.body, length_append, lenPrefixed_length, beBytes_length] at h
    -- every argument takes four bytes, so their number fits too
    have harg : ∀ arg, 4 ≤ (lenPrefixed arg).length := fun arg => by
      rw [lenPrefixed_length]
      omega
    have hcount := mul_length_le_flatMap harg params.args
    rw [Command.body, append_assoc]
    refine (lenPrefixed_puts (by omega)).seq ((count_puts (by omega)).seq (each_puts ?_))
    intro arg harg
    have harg := length_le_flatMap lenPrefixed harg
    rw [lenPrefixed_length] at harg
    exact lenPrefixed_puts (by omega)
  | vinsert params =>
    simp only [Command.body, length_append, lenPrefixed_length, beBytes_length] at h
    simp only [Command.body, append_assoc]
    exact (lenPrefixed_puts (by omega)).seq ((lenPrefixed_puts (by omega)).seq
      ((Puts.write _).seq ((lenPrefixed_puts (by omega)).seq
        ((lenPrefixed_puts (by omega)).seq (.write _)))))
  | vbulkinsert params =>
    simp only [Command.body, length_append, lenPrefixed_length, beBytes_length] at h
    -- every item takes sixteen bytes, so their number fits too
    have hitem : ∀ it : BulkItem, 16 ≤ it.body.length := fun it => by
      rw [BulkItem.body_length]
      omega
    have hcount := mul_length_le_flatMap hitem params.items
    simp only [Command.body, append_assoc]
    refine (lenPrefixed_puts (by omega)).seq ((lenPrefixed_puts (by omega)).seq
      ((Puts.write _).seq ((count_puts (by omega)).seq (each_puts ?_))))
    intro it hit
    have hit := length_le_flatMap BulkItem.body hit
    exact bulkItem_puts (by omega)
  | vrabitqInstall params =>
    simp only [Command.body, length_append, lenPrefixed_length, beBytes_length] at h
    simp only [Command.body, append_assoc]
    exact (lenPrefixed_puts (by omega)).seq ((Puts.write _).seq ((Puts.write _).seq
      ((lenPrefixed_puts (by omega)).seq (lenPrefixed_puts (by omega)))))

/-- A command whose length is not refused, and fits the header. -/
theorem command_puts (h : cmd.payloadLen < 2 ^ 32)
    (hmax : cmd.checksLength = true → cmd.payloadLen ≤ maxPayloadLength) :
    Puts (writeCommand cmd) (frame cmd.id.toByte cmd.body) := by
  rw [writeCommand, checkLength, if_neg (by omega),
    if_neg (fun hlong => absurd (hmax hlong.1) (Nat.not_le.mpr hlong.2)), pure_bind, frame,
    Command.body_length]
  exact (header_puts h).seq (fields_puts h)

/-- Within the limit these writes make up the frame of the round trip. -/
theorem command_puts_written (h : cmd.payloadLen ≤ maxPayloadLength) :
    ∃ bytes, WormDB.writeCommand cmd = .ok bytes ∧ Puts (writeCommand cmd) bytes :=
  ⟨_, writeCommand_eq h, command_puts (Nat.lt_of_le_of_lt h (by decide)) fun _ => h⟩

theorem command_refuses_payloadTooLarge (h : cmd.payloadLen < 2 ^ 64)
    (hchecked : cmd.checksLength = true) (hmax : maxPayloadLength < cmd.payloadLen) :
    Refuses (writeCommand cmd) .payloadTooLarge := by
  rw [writeCommand, checkLength, if_neg (by omega), if_pos ⟨hchecked, hmax⟩]
  exact Refuses.throw.seq

/-- A length that the header cannot hold stops the writer. -/
theorem command_refuses_trap (h : 2 ^ 32 ≤ cmd.payloadLen)
    (hchecked : cmd.checksLength = false ∨ 2 ^ 64 ≤ cmd.payloadLen) :
    Refuses (writeCommand cmd) .trap := by
  rw [writeCommand, checkLength]
  by_cases h64 : 2 ^ 64 ≤ cmd.payloadLen
  · rw [if_pos h64]
    exact Refuses.throw.seq
  · rcases hchecked with hchecked | h64'
    · rw [if_neg h64, if_neg (by simp [hchecked]), pure_bind]
      exact (header_refuses h).seq
    · exact absurd h64' h64

theorem event_body_length (channel message : Bytes) :
    (Response.event channel message).body.length = (4 + channel.length) + (4 + message.length) := by
  rw [Response.body, length_append, lenPrefixed_length, lenPrefixed_length]

theorem response_puts {response : Response} (h : response.body.length < 2 ^ 32)
    (hmax : response.code = .event → response.body.length ≤ maxPayloadLength) :
    Puts (writeResponse response) (frame response.code.toByte response.body) := by
  rw [frame]
  cases response with
  | ok => exact header_puts h
  | value val =>
    cases val with
    | none => exact header_puts h
    | some val => exact (header_puts h).seq (rest_puts val)
  | err msg => exact (header_puts h).seq (rest_puts msg)
  | event channel message =>
    have hmax := hmax rfl
    rw [event_body_length] at h hmax ⊢
    simp only [writeResponse]
    rw [checkLength, if_neg (by omega), if_neg (fun hlong => absurd hmax (Nat.not_le.mpr hlong.2)),
      pure_bind]
    exact (header_puts h).seq ((lenPrefixed_puts (by omega)).seq (lenPrefixed_puts (by omega)))

variable {response : Response}

theorem response_puts_written (h : response.Fits) :
    ∃ bytes, WormDB.writeResponse response = .ok bytes ∧ Puts (writeResponse response) bytes :=
  ⟨_, writeResponse_eq h, response_puts (Nat.lt_of_le_of_lt h (by decide)) fun _ => h⟩

theorem response_refuses_payloadTooLarge (hevent : response.code = .event)
    (hmax : maxPayloadLength < response.body.length) (h : response.body.length < 2 ^ 64) :
    Refuses (writeResponse response) .payloadTooLarge := by
  cases response with
  | event channel message =>
    rw [event_body_length] at hmax h
    simp only [writeResponse]
    rw [checkLength, if_neg (by omega), if_pos ⟨rfl, hmax⟩]
    exact Refuses.throw.seq
  | value val => cases val <;> cases hevent
  | _ => cases hevent

theorem response_refuses_trap (h : 2 ^ 32 ≤ response.body.length)
    (hchecked : response.code ≠ .event ∨ 2 ^ 64 ≤ response.body.length) :
    Refuses (writeResponse response) .trap := by
  cases response with
  | ok => exact absurd h (by decide)
  | value val =>
    cases val with
    | none => exact absurd h (by decide)
    | some val => exact (header_refuses h).seq
  | err msg => exact (header_refuses h).seq
  | event channel message =>
    rcases hchecked with hcode | h64
    · exact absurd rfl hcode
    · rw [event_body_length] at h64
      simp only [writeResponse]
      rw [checkLength, if_pos h64]
      exact Refuses.throw.seq

end

end WireWriter

/-! ## What the readers accept -/

/-- Every reader takes the command off the front of a stream, in whatever pieces it comes;
over a WebSocket, from a client's frame with any mask. -/
structure CommandAccepted (bytes : Bytes) : Prop where
  alloc : ∀ (reader : Stream) (suffix : Bytes), reader.bytes = bytes ++ suffix →
    ∃ r, readFrameAlloc reader = .ok r
  zeroCopy : ∀ (reader : Stream) (suffix : Bytes), reader.bytes = bytes ++ suffix →
    ∃ r, readFrameZeroCopy reader = .ok r
  webSocket : ∀ (stream : Stream) (wsBytes suffix : Bytes)
    (wsFrame : WebSocket.ClientFrame wsBytes),
    WebSocket.xorFrom wsFrame.maskKey 0 wsFrame.raw = bytes → stream.bytes = wsBytes ++ suffix →
      ∃ r, WebSocket.readWsFrame (fun _ => true) stream = some r

/-- The same of a response; over a WebSocket, from a frame that the server sends. -/
structure ResponseAccepted (bytes : Bytes) : Prop where
  alloc : ∀ (reader : Stream) (suffix : Bytes), reader.bytes = bytes ++ suffix →
    ∃ r, readResponseAlloc reader = .ok r
  webSocket : ∀ (stream : Stream) (suffix : Bytes),
    stream.bytes = WebSocket.sendHeader 0x02 bytes.length ++ (bytes ++ suffix) →
      ∃ r, WebSocket.readWsFrame (fun _ => true) stream = some r

/-- What is claimed of a run of writes: what it emits is accepted, and a value too large for
the format is an error before the first byte. -/
structure EmitsAccepted (writes : Writes) (tooLarge : Prop) (accepted : Bytes → Prop) : Prop where
  accepted : ∀ pieces, writes.run.run [] = (.ok (), pieces) → accepted pieces.flatten
  reported : tooLarge → writes.run.run [] = (.error .payloadTooLarge, [])

section
variable {writes : Writes} {tooLarge : Prop} {accepted : Bytes → Prop} {bytes : Bytes}
  {fault : WireFault}

/-- A run that puts its bytes on the stream is right where they are accepted. -/
theorem Puts.emits_iff (h : Puts writes bytes) :
    EmitsAccepted writes tooLarge accepted ↔ accepted bytes ∧ ¬tooLarge := by
  obtain ⟨pieces, hrun, rfl⟩ := h []
  rw [nil_append] at hrun
  constructor
  · intro hemits
    refine ⟨hemits.accepted pieces hrun, fun hlarge => ?_⟩
    exact absurd (hrun.symm.trans (hemits.reported hlarge)) nofun
  · rintro ⟨haccepted, hlarge⟩
    refine ⟨fun pieces' hrun' => ?_, fun h => absurd h hlarge⟩
    cases hrun.symm.trans hrun'
    exact haccepted

/-- A run that fails before its first write emits nothing. -/
theorem Refuses.emits_iff (h : Refuses writes fault) :
    EmitsAccepted writes tooLarge accepted ↔ (tooLarge → fault = .payloadTooLarge) := by
  have hrun := h []
  constructor
  · intro hemits hlarge
    exact Except.error.inj (Prod.mk.inj (hrun.symm.trans (hemits.reported hlarge))).1
  · intro hfault
    refine ⟨fun pieces hrun' => ?_, fun hlarge => hfault hlarge ▸ hrun⟩
    exact absurd (hrun.symm.trans hrun') nofun

theorem frame_length (code : UInt8) (body : Bytes) :
    (frame code body).length = body.length + 5 := by
  rw [frame, length_append, length_cons, beBytes_length]
  omega

/-- The frame of a client with the mask 0. -/
def plainClientFrame (bytes : Bytes) (h : bytes.length < 2 ^ 64) :
    WebSocket.ClientFrame (0x82 :: 0xFF :: beBytes 8 bytes.length ++ [0, 0, 0, 0] ++ bytes) where
  first := 0x82
  short := 127
  ext := beBytes 8 bytes.length
  maskKey := [0, 0, 0, 0]
  raw := bytes
  final := by decide
  field := .long h
  key := rfl
  eq := rfl

theorem xorFrom_zero (j : Nat) (bytes : Bytes) :
    WebSocket.xorFrom [0, 0, 0, 0] j bytes = bytes := by
  induction bytes generalizing j with
  | nil => rfl
  | cons b bytes ih =>
    have hzero : ∀ k < 4, List.getD [0, 0, 0, 0] k (0 : UInt8) = 0 := by decide
    rw [WebSocket.xorFrom, ih, hzero _ (Nat.mod_lt j (by decide)), UInt8.xor_zero]

/-- The WebSocket limit is one of the whole frame. -/
theorem CommandAccepted.length_le (h : CommandAccepted bytes) (hlt : bytes.length < 2 ^ 64) :
    bytes.length ≤ WebSocket.maxFrame := by
  by_contra hlong
  obtain ⟨r, hread⟩ := h.webSocket ⟨_ ++ [], fun _ => 0⟩ _ [] (plainClientFrame bytes hlt)
    (xorFrom_zero 0 bytes) rfl
  rw [WebSocket.readWsFrame_client_tooLong (plainClientFrame bytes hlt) rfl
    (Nat.not_le.mp hlong)] at hread
  cases hread

theorem ResponseAccepted.length_le (h : ResponseAccepted bytes) (hlt : bytes.length < 2 ^ 64) :
    bytes.length ≤ WebSocket.maxFrame := by
  by_contra hlong
  obtain ⟨r, hread⟩ := h.webSocket ⟨_ ++ (bytes ++ []), fun _ => 0⟩ [] rfl
  rw [WebSocket.readWsFrame_server_tooLong 0x02 rfl (Nat.not_le.mp hlong) hlt] at hread
  cases hread

end

/-! ## The commands and responses that are written acceptably -/

/-- The sizes of a quantizer against its dimension, which the writer does not look at. -/
def Command.SizesAgree (cmd : Command) : Prop :=
  ∀ params, cmd = .vrabitqInstall params →
    params.centroid.length = params.dim.toNat * 4 ∧
      params.rotation.length = params.dim.toNat * params.dim.toNat * 4

section
variable {cmd : Command} {response : Response}

/-- A reader that takes the command finds its sizes in order. -/
theorem CommandAccepted.sizesAgree
    (h : CommandAccepted (frame cmd.id.toByte cmd.body))
    (hmax : cmd.body.length ≤ maxPayloadLength) : cmd.SizesAgree := by
  rintro params rfl
  obtain ⟨r, hread⟩ := h.alloc ⟨_ ++ [], fun _ => 0⟩ [] rfl
  obtain ⟨payloadReader, hheader, hpayload⟩ := readHeader_frame
    (show (⟨_ ++ [], fun _ => 0⟩ : Stream).bytes = _ ++ [] from rfl) hmax
  obtain ⟨reader', hexact, -⟩ := readExact_eq hpayload rfl
  have hat : At (Command.vrabitqInstall params).body 0
      ((Command.vrabitqInstall params).body ++ []) := by
    rw [append_nil]
    exact At.start _
  rw [readFrameAlloc, readFrameWith, hheader, ok_bind] at hread
  simp only [hexact, ok_bind, CommandId.ofByte_toByte] at hread
  obtain ⟨cmd', hparse, -⟩ := bind_ok hread
  rw [Command.id, parse_vrabitqInstall_fields hmax hat] at hparse
  obtain ⟨_, hsizes, -⟩ := bind_ok hparse
  rw [checkRabitqSizes] at hsizes
  by_cases htrap : 2 ^ 64 ≤ params.dim.toNat * params.dim.toNat * 4
  · rw [if_pos htrap] at hsizes
    cases hsizes
  · rw [if_neg htrap] at hsizes
    by_contra hnot
    rw [if_pos (by
      rcases not_and_or.mp hnot with hcentroid | hrotation
      · exact .inl hcentroid
      · exact .inr hrotation)] at hsizes
    cases hsizes

/-- **Which frames of commands are accepted.** -/
theorem commandAccepted_iff (hlt : cmd.payloadLen < 2 ^ 32) :
    CommandAccepted (frame cmd.id.toByte cmd.body) ↔
      cmd.payloadLen + 5 ≤ maxPayloadLength ∧ cmd.SizesAgree := by
  have hlen : (frame cmd.id.toByte cmd.body).length = cmd.payloadLen + 5 := by
    rw [frame_length, Command.body_length]
  constructor
  · intro h
    have hle := h.length_le (by omega)
    rw [hlen] at hle
    refine ⟨hle, h.sizesAgree ?_⟩
    rw [Command.body_length]
    exact Nat.le_trans (Nat.le_add_right _ 5) hle
  · rintro ⟨hle, hsizes⟩
    have hfits : cmd.Fits := ⟨Nat.le_trans (Nat.le_add_right _ 5) hle, hsizes⟩
    refine ⟨fun reader suffix hbytes => ?_, fun reader suffix hbytes => ?_,
      fun stream wsBytes suffix wsFrame hraw hbytes => ?_⟩
    · obtain ⟨reader', hread, -⟩ := readFrameAlloc_frame hfits hbytes
      exact ⟨_, hread⟩
    · obtain ⟨reader', hread, -⟩ := readFrameAlloc_frame hfits hbytes
      rw [readFrameZeroCopy_eq]
      exact ⟨_, hread⟩
    · have hrawLen : wsFrame.raw.length = cmd.payloadLen + 5 := by
        rw [← hlen, ← hraw, WebSocket.xorFrom_length]
      obtain ⟨stream', hread, -⟩ := WebSocket.readWsFrame_client (fun _ => true)
        wsFrame hbytes (hrawLen ▸ hle) rfl
      exact ⟨_, hread⟩

/-- **Which frames of responses are accepted.** -/
theorem responseAccepted_iff (hlt : response.body.length < 2 ^ 32) :
    ResponseAccepted (frame response.code.toByte response.body) ↔
      response.body.length + 5 ≤ maxPayloadLength := by
  have hlen := frame_length response.code.toByte response.body
  constructor
  · intro h
    have hle := h.length_le (by omega)
    rwa [hlen] at hle
  · intro hle
    have hfits : response.Fits := Nat.le_trans (Nat.le_add_right _ 5) hle
    refine ⟨fun reader suffix hbytes => ?_, fun stream suffix hbytes => ?_⟩
    · obtain ⟨reader', hread, -⟩ := readResponseAlloc_frame hfits hbytes
      exact ⟨_, hread⟩
    · obtain ⟨stream', hread, -⟩ := WebSocket.readWsFrame_server (fun _ => true) 0x02
        hbytes (hlen ▸ hle) rfl
      exact ⟨_, hread⟩

end

/-- What is claimed of a command's writer. -/
def Command.WrittenAcceptably (cmd : Command) : Prop :=
  EmitsAccepted (WireWriter.writeCommand cmd) (cmd.payloadLen > maxPayloadLength) CommandAccepted

/-- What is claimed of a response's writer. -/
def Response.WrittenAcceptably (response : Response) : Prop :=
  EmitsAccepted (WireWriter.writeResponse response) (response.body.length > maxPayloadLength)
    ResponseAccepted

/-- The frame fits a WebSocket frame too and its sizes agree, or the writer checks the length
and finds it too large. -/
def Command.Writable (cmd : Command) : Prop :=
  cmd.payloadLen + 5 ≤ maxPayloadLength ∧ cmd.SizesAgree ∨
    cmd.checksLength = true ∧ maxPayloadLength < cmd.payloadLen ∧ cmd.payloadLen < 2 ^ 64

def Response.Writable (response : Response) : Prop :=
  response.body.length + 5 ≤ maxPayloadLength ∨
    response.code = .event ∧ maxPayloadLength < response.body.length ∧
      response.body.length < 2 ^ 64

/-- A writer emits its frame, or refuses it where it checks the length and finds it too large,
and where the length does not go into the header. -/
theorem emits_iff_of_checks {writes : Writes} {bytes : Bytes} {accepted : Bytes → Prop}
    {len : Nat} {checks agrees : Prop}
    (hputs : len < 2 ^ 32 → (checks → len ≤ maxPayloadLength) → Puts writes bytes)
    (hlarge : checks → maxPayloadLength < len → len < 2 ^ 64 → Refuses writes .payloadTooLarge)
    (htrap : 2 ^ 32 ≤ len → ¬checks ∨ 2 ^ 64 ≤ len → Refuses writes .trap)
    (haccepted : len < 2 ^ 32 → (accepted bytes ↔ len + 5 ≤ maxPayloadLength ∧ agrees)) :
    EmitsAccepted writes (len > maxPayloadLength) accepted ↔
      len + 5 ≤ maxPayloadLength ∧ agrees ∨ checks ∧ maxPayloadLength < len ∧ len < 2 ^ 64 := by
  have hmax : maxPayloadLength < 2 ^ 32 := by decide
  by_cases hchecked : checks ∧ maxPayloadLength < len
  · by_cases h64 : len < 2 ^ 64
    · rw [(hlarge hchecked.1 hchecked.2 h64).emits_iff]
      exact ⟨fun _ => .inr ⟨hchecked.1, hchecked.2, h64⟩, fun _ _ => rfl⟩
    · rw [(htrap (by omega) (.inr (by omega))).emits_iff]
      constructor
      · intro h
        exact absurd (h hchecked.2) nofun
      · intro h
        omega
  · by_cases h32 : len < 2 ^ 32
    · have hshort : checks → len ≤ maxPayloadLength := by
        intro hc
        by_contra hlong
        exact hchecked ⟨hc, by omega⟩
      rw [(hputs h32 hshort).emits_iff, haccepted h32]
      constructor
      · exact fun h => .inl h.1
      · rintro (h | h)
        · exact ⟨h, by omega⟩
        · exact absurd ⟨h.1, h.2.1⟩ hchecked
    · rw [(htrap (by omega) (.inl fun hc => hchecked ⟨hc, by omega⟩)).emits_iff]
      constructor
      · intro h
        exact absurd (h (by omega)) nofun
      · rintro (h | h)
        · omega
        · exact absurd ⟨h.1, h.2.1⟩ hchecked

section
variable {cmd : Command} {response : Response}

theorem command_acceptable_iff (cmd : Command) : cmd.WrittenAcceptably ↔ cmd.Writable :=
  emits_iff_of_checks WireWriter.command_puts
    (fun hchecked hmax h => WireWriter.command_refuses_payloadTooLarge h hchecked hmax)
    (fun h hchecked => WireWriter.command_refuses_trap h
      (hchecked.imp_left eq_false_of_ne_true))
    commandAccepted_iff

theorem response_acceptable_iff (response : Response) :
    response.WrittenAcceptably ↔ response.Writable := by
  have hiff := emits_iff_of_checks (@WireWriter.response_puts response)
    WireWriter.response_refuses_payloadTooLarge WireWriter.response_refuses_trap
    (fun h => (responseAccepted_iff h).trans (and_iff_left trivial).symm)
  rw [Response.WrittenAcceptably, hiff, and_true, Response.Writable]

/-- **Which values are written acceptably**: what is emitted is accepted by every reader and
what is too large is refused before the first byte, exactly for these. -/
theorem written_acceptably_iff (cmd : Command) (response : Response) :
    (cmd.WrittenAcceptably ↔ cmd.Writable) ∧ (response.WrittenAcceptably ↔ response.Writable) :=
  ⟨command_acceptable_iff cmd, response_acceptable_iff response⟩

end

/-- One byte more than 16 MiB. -/
def largeValue : Bytes := replicate (16 * 1024 * 1024 + 1) 0

/-- Such a value is written without an error, and its reader refuses the frame. -/
theorem large_value_emitted :
    (∃ pieces, (WireWriter.writeResponse (.value (some largeValue))).run.run [] =
        (.ok (), pieces) ∧
      readResponseAlloc ⟨pieces.flatten, fun _ => 0⟩ = .error .payloadTooLarge) ∧
      ¬(Response.value (some largeValue)).WrittenAcceptably := by
  have hval : largeValue.length = 16 * 1024 * 1024 + 1 := length_replicate
  generalize largeValue = val at hval ⊢
  have hlt : (Response.value (some val)).body.length < 2 ^ 32 := by
    rw [Response.body, hval]
    decide
  obtain ⟨pieces, hrun, hpieces⟩ := WireWriter.response_puts hlt (by rintro ⟨⟩) []
  refine ⟨⟨pieces, hrun, ?_⟩, ?_⟩
  · have hbytes : (⟨pieces.flatten, fun _ => 0⟩ : Stream).bytes =
        frame (Response.value (some val)).code.toByte (Response.value (some val)).body ++ [] := by
      rw [append_nil]
      exact hpieces
    obtain ⟨reader', -, hread⟩ := readHeader_cases hbytes hlt
    rw [if_pos (by rw [Response.body, hval]; decide)] at hread
    rw [readResponseAlloc, hread]
    rfl
  · intro h
    rcases (response_acceptable_iff _).mp h with hle | ⟨hcode, -, -⟩
    · rw [Response.body, hval] at hle
      exact absurd hle (by decide)
    · cases hcode

end WormDB
